import TickTree.Stage
/-! Services run beside a node while it is active, each at its own interval. -/
namespace TickTree

structure Service (H : Host) where
  interval : Float32
  label : H.Service

/-- A service on a node, with the time since it last fired. -/
structure Attachment (H : Host) where
  service : Service H
  timer : Float32

variable {H : Host}

/-- The least time that makes a service fire. Every service waits for some time to pass. -/
def Service.threshold (v : Service H) : Float32 := atLeast epsilon v.interval

namespace Attachment

def idle (v : Service H) : Attachment H := ⟨v, 0⟩

def reset (a : Attachment H) : Attachment H := { a with timer := 0 }

/-- Whether the service fires on a tick of `dt`, and the attachment after it. -/
def advance (a : Attachment H) (dt : Float32) : Bool × Attachment H :=
  let time := a.timer + dt
  if a.service.threshold ≤ time then (true, a.reset) else (false, { a with timer := time })

end Attachment
end TickTree
