import TickTree.Node.Abort
import TickTree.Node.Behavior
/-! One tick of a node: guards, the start of an activation, services, behavior, modifiers and, on a
terminal result, the end of the activation. A child is executed through the branch that its parent
holds of it, so no tick runs a node twice. -/
namespace TickTree
variable {H : Host}

namespace Frame

def guards (s : Setting) (v : View) (slot : Nat) : List (Decorator H) → Exec H Bool
  | [] => pure true
  | d :: ds => do
    let passed ← d.allows s v
    Exec.hook v (.guarded slot passed)
    if passed then guards s v (slot + 1) ds else pure false

def attach (s : Setting) (v : View) (slot : Nat) : List (Attachment H) → Exec H Unit
  | [] => pure ()
  | a :: as => do
    Exec.hook v (.attached slot)
    .reach (H.attached a.service.label s.scope v)
    attach s v (slot + 1) as

def serve (s : Setting) (v : View) (dt : Float32) (slot : Nat) :
    List (Attachment H) → Exec H (List (Attachment H))
  | [] => pure []
  | a :: as => do
    let (due, a) := a.advance dt
    if due then
      Exec.hook v (.serviced slot dt)
      .reach (H.serve a.service.label s.scope v dt)
    let as ← serve s v dt (slot + 1) as
    pure (a :: as)

def modify (s : Setting) (v : View) (dt : Float32) (slot : Nat) :
    List (Decorator H) → Status → Exec H Status
  | [], result => pure result
  | d :: ds, result =>
    match d.modifier s v dt result with
    | none => modify s v dt (slot + 1) ds result
    | some x => do
      let after ← x
      Exec.hook v (.modified slot dt result after)
      modify s v dt (slot + 1) ds after

def tellFinished (s : Setting) (v : View) (result : Status) (slot : Nat) :
    List (Decorator H) → Exec H Unit
  | [] => pure ()
  | d :: ds => do
    Exec.hook v (.finished slot result)
    d.finished s v result
    tellFinished s v result (slot + 1) ds

def activate (s : Setting) (children : Nat) (f : Frame H) :
    Exec H (Except Panic Unit × Frame H) :=
  if f.active then pure (.ok (), f)
  else do
    let f := { f with active := true, time := 0 }
    Exec.notify s (.entered f.view s.scope.elapsed)
    Exec.hook f.view .started
    let (started, behavior) ← f.behavior.start s f.view children
    let f := { f with behavior := behavior }
    match started with
    | .error p => pure (.error p, f)
    | .ok () => do
      let f := { f with services := f.services.map Attachment.reset }
      attach s f.view 0 f.services
      pure (.ok (), f)

/-- The natural end of an activation. A forced result can leave children active, which are then
aborted. -/
def conclude (s : Setting) (result : Status) (f : Frame H) (cs : List (Node H)) :
    Exec H (Node H) := do
  Exec.hook f.view (.terminated result)
  let behavior ← f.behavior.finish s result
  let cs ← Node.abortAll s cs
  let f ← { f with behavior := behavior }.endActivation s result
  tellFinished s f.view result 0 f.decorators
  pure (.mk f cs)

/-- The ticking part of an activation. When the behavior stops, all stays as it is. -/
def advance (s : Setting) (dt : Float32) (f : Frame H) (bs : List (Branch H)) :
    Exec H (Answer × Node H) := do
  let services ← serve s f.view dt 0 f.services
  let f := { f with services := services }
  Exec.hook f.view (.ticked dt)
  let (raw, behavior, bs) ← f.behavior.tick s f.view dt bs
  Exec.hook f.view (.answered raw)
  let f := { f with behavior := behavior }
  let cs := bs.map (·.node)
  match raw with
  | .error stop => pure (.error stop, .mk f cs)
  | .ok raw => do
    let result ← modify s f.view dt 0 f.decorators raw
    let f := { f with time := f.time + dt }
    if result.isTerminal then
      let n ← f.conclude s result cs
      pure (.ok result, n)
    else pure (.ok result, .mk f cs)

/-- A node that a guard refuses is aborted and fails. -/
def run (s : Setting) (dt : Float32) (f : Frame H) (bs : List (Branch H)) :
    Exec H (Answer × Node H) := do
  if ← guards s f.view 0 f.decorators then
    let (started, f) ← f.activate s bs.length
    match started with
    | .error p => pure (.error (.panicked p), .mk f (bs.map (·.node)))
    | .ok () => f.advance s dt bs
  else
    Exec.report (.guardedOut f.view)
    let n ← (Node.mk f (bs.map (·.node))).abort s
    pure (.ok .failure, n)

def execute (s : Setting) (dt : Float32) (f : Frame H) (bs : List (Branch H)) :
    Exec H (Answer × Node H) := do
  Exec.hook f.view (.executed dt)
  let (answer, n) ← f.run s dt bs
  Exec.hook n.view (.returned answer)
  pure (answer, n)

end Frame

namespace Node

mutual
def execute (s : Setting) (dt : Float32) : Node H → Exec H (Answer × Node H)
  | mk f cs => f.execute s dt (branches s dt cs)

def branches (s : Setting) (dt : Float32) : List (Node H) → List (Branch H)
  | [] => []
  | c :: cs => ⟨c, execute s dt c⟩ :: branches s dt cs
end

theorem branches_eq_map (s : Setting) (dt : Float32) (cs : List (Node H)) :
    branches s dt cs = cs.map fun c => ⟨c, execute s dt c⟩ := by
  induction cs with
  | nil => rfl
  | cons c cs ih => simp [branches, ih]

@[simp] theorem length_branches (s : Setting) (dt : Float32) (cs : List (Node H)) :
    (branches s dt cs).length = cs.length := by simp [branches_eq_map]

@[simp] theorem map_node_branches (s : Setting) (dt : Float32) (cs : List (Node H)) :
    (branches s dt cs).map (·.node) = cs := by simp [branches_eq_map, Function.comp_def]

theorem forall_mem_branches {s : Setting} {dt : Float32} {cs : List (Node H)}
    {p : Branch H → Prop} :
    (∀ b ∈ branches s dt cs, p b) ↔ ∀ c ∈ cs, p ⟨c, execute s dt c⟩ := by
  rw [branches_eq_map, List.forall_mem_map]

end Node
end TickTree
