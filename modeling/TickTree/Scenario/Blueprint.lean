import TickTree.Scenario.Host
/-! Plans of trees. Decorators and services are named, and looked up when the tree is built. -/
namespace TickTree.Scenario

inductive Refusal where
  | fault (f : Fault)
  | panicked (p : Panic)
  /-- No object has this name. -/
  | unknown (name : String)
  /-- A plan that cannot be built, such as a repeater without a child. -/
  | malformed (what : String)

inductive Shape where
  | selector
  | random
  | parallel (success failure : Policy)
  | sequence
  | relay
  /-- Repeats the last child built. -/
  | repeater (count : Int32) (lenient : Bool)
  | forever (lenient : Bool)
  /-- A repeater that is checked before its children are built, and takes any number of them. -/
  | bareRepeater (count : Int32) (lenient : Bool)
  | leaf (a : Leaf)
  | check (c : Check)
  | wait (duration variance : Float32)
  | npc

inductive Trim where
  | named (id : String)
  | inverter

inductive Blueprint where
  | mk (shape : Shape) (name : Option String) (trims : List Trim) (services : List String)
    (children : List Blueprint)

structure Toolbox where
  decorators : Std.TreeMap String (TickTree.Decorator host)
  services : Std.TreeMap String (TickTree.Service host)

abbrev Draft := ExceptT Refusal (StateM Supply)

namespace Draft

def ofBuild {α : Type} (x : Build α) : Draft α := ExceptT.adapt Refusal.fault x

def fetch {α : Type} (name : String) (x : Option α) : Draft α :=
  match x with
  | none => throw (.unknown name)
  | some a => pure a

def only (cs : List (Node host)) : Draft (Node host) :=
  match cs.getLast? with
  | none => throw (.malformed "repeater")
  | some c => pure c

/-- Selectors of both kinds, parallels and repeaters are built after their children; all other
nodes come first, and the children are hung on them. -/
def shape (s : Shape) (children : Draft (List (Node host))) : Draft (Node host) :=
  match s with
  | .selector => do ofBuild (Build.selector (← children))
  | .random => do ofBuild (Build.randomSelector (← children))
  | .parallel p q => do ofBuild (Build.parallel p q (← children))
  | .sequence => do
    let n ← ofBuild (Build.sequence (H := host) [])
    pure (n.withChildren (← children))
  | .relay => do
    let n ← ofBuild (Build.relay (H := host) [])
    pure (n.withChildren (← children))
  | .repeater count lenient => do
    let child ← only (← children)
    ofBuild (Build.repeater count lenient child)
  | .forever lenient => do
    let child ← only (← children)
    ofBuild (Build.repeatForever lenient child)
  | .bareRepeater count lenient => do
    let r ← ofBuild (Build.checked (Repeater.make count lenient))
    let n ← ofBuild (Build.node (H := host) "RawRepeater" (.repeater r) [])
    pure (n.withChildren (← children))
  | .leaf a => do
    let n ← ofBuild (Build.action (H := host) a)
    pure (n.withChildren (← children))
  | .check c => do
    let n ← ofBuild (Build.condition (H := host) c)
    pure (n.withChildren (← children))
  | .wait duration variance => do
    let n ← ofBuild (Build.wait duration variance)
    pure (n.withChildren (← children))
  | .npc => do
    let n ← ofBuild (Npc.tree sampleParts)
    pure (n.withChildren (← children))

def trim (t : Toolbox) (n : Node host) : Trim → Draft (Node host)
  | .named id => do
    let d ← fetch id t.decorators[id]?
    pure (n.withDecorator d)
  | .inverter => pure (n.withDecorator .inverter)

def serve (t : Toolbox) (n : Node host) (id : String) : Draft (Node host) := do
  let v ← fetch id t.services[id]?
  pure (n.withService v)

def dress (t : Toolbox) (name : Option String) (trims : List Trim) (services : List String)
    (n : Node host) : Draft (Node host) := do
  let n := match name with
    | none => n
    | some name => n.rename name
  let n ← trims.foldlM (trim t) n
  services.foldlM (serve t) n

end Draft

namespace Blueprint

mutual
def build (t : Toolbox) : Blueprint → Draft (Node host)
  | mk shape name trims services children => do
    let n ← Draft.shape shape (buildAll t children)
    Draft.dress t name trims services n

def buildAll (t : Toolbox) : List Blueprint → Draft (List (Node host))
  | [] => pure []
  | b :: bs => do
    let n ← build t b
    let ns ← buildAll t bs
    pure (n :: ns)
end

inductive Wrapper where
  | selector
  | random
  | parallel
  | repeater
  | inverted

def wrap (w : Wrapper) (b : Blueprint) : Blueprint :=
  match w with
  | .selector => mk .selector none [] [] [b]
  | .random => mk .random none [] [] [b]
  | .parallel => mk (.parallel .all .any) none [] [] [b]
  | .repeater => mk (.repeater 1 false) none [] [] [b]
  | .inverted => mk .selector none [.inverter] [] [b]

def nest (w : Wrapper) (depth : Nat) (b : Blueprint) : Blueprint :=
  (List.replicate depth w).foldl (fun b w => wrap w b) b

def dressed (name : Option String) (trims : List Trim) (services : List String) :
    Blueprint → Blueprint
  | mk shape old ts vs children => mk shape (name.or old) (ts ++ trims) (vs ++ services) children

end Blueprint
end TickTree.Scenario
