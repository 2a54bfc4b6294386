import TickTree.Runner
import TickTree.Scenario.Blueprint
/-! The commands of a scenario and the answers to them. Objects are referred to by name. -/
namespace TickTree.Scenario

inductive BoardRef where
  | named (id : String)
  | placed (owner : String) (place : Place)

structure NodeRef where
  base : String
  path : List Nat

inductive DecoratorPlan where
  | cooldown (seconds : Float32)
  | timeout (seconds : Float32)
  | inverter
  | plain
  | probe (gate : Gate) (swaps : Option (List (Status × Status)))

inductive ServicePlan where
  | probe (attached tick detached : List Effect)
  | plain
  | beat (effects : List Effect)

inductive Subject where
  | board (ref : BoardRef)
  | context (name : String)
  | node (ref : NodeRef)
  | tree (name : String)
  | runner (name : String)

inductive Command where
  | board (id : String) (source : Option BoardRef)
  | signal (id : String) (source : Option String)
  | context (id : String) (seed : UInt64) (global tree own : Option BoardRef)
      (signal : Option String) (listener : Option Listener)
  | decorator (id : String) (plan : DecoratorPlan)
  | service (id : String) (interval : Float32) (plan : ServicePlan)
  | node (id : String) (tree : Blueprint)
  | launch (id node context : String)
  | runner (id : String) (autoStart restart : Option Bool)
  | begin (context : String) (dt : Float32)
  | contextInfo (context : String)
  | draw (context : String) (count : Nat)
  | drawWide (context : String) (count : Nat)
  | putSignal (name : String) (on : Bool)
  | isCancelled (name : String)
  | sameBoard (a b : BoardRef)
  | execute (node : NodeRef) (context : String) (dt : Float32)
  | abort (node : NodeRef) (context : String)
  | addChild (node : NodeRef) (tree : Blueprint)
  | addDecorator (node : NodeRef) (decorator : String)
  | addService (node : NodeRef) (service : String)
  | rename (node : NodeRef) (name : String)
  | snapshot (node : NodeRef)
  | allows (decorator : String) (node : NodeRef) (context : String)
  | modify (decorator : String) (node : NodeRef) (context : String) (dt : Float32) (result : Status)
  | finished (decorator : String) (node : NodeRef) (context : String) (result : Status)
  | aborted (decorator : String) (node : NodeRef) (context : String)
  | nextAvailable (decorator : String) (node : NodeRef)
  | runningTime (decorator : String) (node : NodeRef)
  | attach (service : String) (node : NodeRef) (context : String)
  | serve (service : String) (node : NodeRef) (context : String) (dt : Float32)
  | detach (service : String) (node : NodeRef) (context : String)
  | tick (tree : String) (dt : Float32)
  | restart (tree : String)
  | abortTree (tree : String)
  | treeInfo (tree : String)
  | parts (tree node context : String)
  | setRoot (runner node : String)
  | setGlobal (runner : String) (board : BoardRef)
  | start (runner : String)
  | startIn (runner context : String)
  | update (runner : String) (dt : Float32)
  | stop (runner : String)
  | isRunning (runner : String)
  | drop (runner : String)
  | describe (subject : Subject)
  | ask (board : BoardRef) (request : Request)

structure NodeRow where
  view : View
  depth : Nat
  decorators : List String
  services : Nat

inductive Answer where
  | done
  | flag (b : Bool)
  | count (n : Nat)
  | text (s : String)
  | seconds (x : Float32)
  | seconds? (x : Option Float32)
  | status (s : Status)
  | status? (s : Option Status)
  | words (ws : List UInt32)
  | wideWords (ws : List UInt64)
  | clock (delta elapsed : Float32)
  | contextInfo (scope : Scope) (cancelled observed : Bool) (sizes : List Nat)
  | decorator (name : String) (seconds : Option Float32)
  | node (id : NodeId) (name : String)
  | runner (config : RunnerConfig)
  | rows (rows : List NodeRow)
  | treeInfo (active rootActive : Bool) (elapsed : Float32)
  | noModifier
  | reply (r : Reply)

structure Outcome where
  answer : Except Refusal Answer
  trace : List (Entry Note)
  activity : Option (List Bool)

end TickTree.Scenario
