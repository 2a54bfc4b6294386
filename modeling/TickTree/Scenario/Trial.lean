import TickTree.Node.Execute
import TickTree.Scenario.Host
import TickTree.Build
/-! Behaviors on trial: driven directly, without a node around them. -/
namespace TickTree.Scenario

structure Trial where
  behavior : Behavior host
  children : List (Node host)
  stage : Stage host

namespace Trial

def setting : Setting := ⟨⟨⟨0⟩, ⟨1⟩, ⟨2⟩, ⟨0⟩, 0, 0⟩, none⟩

/-- The behavior has no node, so hooks are noted under no id. -/
def view : View := ⟨0, "", true, 0⟩

def freshStage (seed : UInt64) : Stage host where
  world := ⟨#[.empty, .empty, .empty], #[false], (∅ : Calls)⟩
  tables := .empty
  rng := .ofSeed seed

def ofActions (behavior : Behavior host) (actions : List Action) (seed : UInt64) : Trial :=
  let children : Build (List (Node host)) :=
    actions.mapM fun a => Build.action (H := host) (Leaf.scripted a)
  match (children.run ⟨1, 0⟩).1 with
  | .ok cs => ⟨behavior, cs, freshStage seed⟩
  | .error _ => ⟨behavior, [], freshStage seed⟩

def start : Traced Trial (Entry Note) (Except Panic Unit) := fun t =>
  let o := t.behavior.start setting view t.children.length t.stage
  ⟨o.value.1, { t with behavior := o.value.2, stage := o.state }, o.trace⟩

def tick (dt : Float32) : Traced Trial (Entry Note) TickTree.Answer := fun t =>
  let o := t.behavior.tick setting view dt (Node.branches setting dt t.children) t.stage
  let (answer, behavior, branches) := o.value
  ⟨answer, ⟨behavior, branches.map (·.node), o.state⟩, o.trace⟩

end Trial

inductive TrialStep where
  | start
  | tick (dt : Float32)

structure TrialRow where
  answer : Option TickTree.Answer
  behavior : Behavior host
  activity : List Bool
  trace : List (Entry Note)

namespace Trial

def step (t : Trial) : TrialStep → Except Panic TrialRow × Trial
  | .start =>
    let o := start t
    (o.value.map fun () => ⟨none, o.state.behavior, o.state.children.map (·.isActive), o.trace⟩,
      o.state)
  | .tick dt =>
    let o := tick dt t
    (.ok ⟨some o.value, o.state.behavior, o.state.children.map (·.isActive), o.trace⟩, o.state)

def run (t : Trial) : List TrialStep → Except Panic (List TrialRow × Trial)
  | [] => .ok ([], t)
  | s :: ss => do
    let (row, t) := t.step s
    let row ← row
    let (rows, t) ← run t ss
    pure (row :: rows, t)

end Trial

def tickCount (trace : List (Entry Note)) : Nat :=
  trace.countP fun
    | .note (.ticked ..) => true
    | _ => false

end TickTree.Scenario
