import TickTree.Node.Basic
/-! The forced end of activations: children before their parent, and nothing for idle nodes. -/
namespace TickTree
variable {H : Host}

namespace Frame

def tellAborted (s : Setting) (v : View) (slot : Nat) : List (Decorator H) → Exec H Unit
  | [] => pure ()
  | d :: ds => do
    Exec.hook v (.aborted slot)
    d.aborted s v
    tellAborted s v (slot + 1) ds

def detach (s : Setting) (v : View) (slot : Nat) : List (Attachment H) → Exec H Unit
  | [] => pure ()
  | a :: as => do
    Exec.hook v (.detached slot)
    .reach (H.detached a.service.label s.scope v)
    detach s v (slot + 1) as

/-- Services are detached from the node while it is still active; the notice shows it idle, with
the time of the activation, which then returns to zero. -/
def endActivation (s : Setting) (result : Status) (f : Frame H) : Exec H (Frame H) := do
  detach s f.view 0 f.services
  let f := { f with services := f.services.map Attachment.reset, active := false }
  Exec.notify s (.exited f.view result f.time)
  pure { f with time := 0 }

def abort (s : Setting) (f : Frame H) : Exec H (Frame H) := do
  tellAborted s f.view 0 f.decorators
  let f ← f.endActivation s .failure
  Exec.notify s (.aborted f.view)
  pure f

end Frame

namespace Node

mutual
def abort (s : Setting) : Node H → Exec H (Node H)
  | mk f cs =>
    if f.active then do
      let cs ← abortAll s cs
      let f ← f.abort s
      pure (mk f cs)
    else pure (mk f cs)

def abortAll (s : Setting) : List (Node H) → Exec H (List (Node H))
  | [] => pure []
  | c :: cs => do
    let c ← abort s c
    let cs ← abortAll s cs
    pure (c :: cs)
end

end Node
end TickTree
