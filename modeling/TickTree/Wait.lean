import TickTree.Fault
import TickTree.Random.Uniform
import TickTree.Status
/-! Waits: running until the time drawn at the start of the activation has passed. -/
namespace TickTree

structure Wait where
  duration : Float32
  variance : Float32
  target : Float32
  elapsed : Float32
  span : Span duration ∧ Span variance

namespace Wait

def make (duration variance : Float32) : Except Fault Wait :=
  if hd : Span duration then
    if hv : Span variance then .ok ⟨duration, variance, duration, 0, hd, hv⟩
    else .error (.outOfRange (.waitVariance variance))
  else .error (.outOfRange (.waitDuration duration))

def draws (w : Wait) : Bool := 0 < w.variance

/-- Starts over. Without variance the target is the duration and nothing is drawn. A bound that
cannot be drawn from leaves the duration as the target. -/
def start (w : Wait) (r : Rng) : Except Panic Unit × Wait × Rng :=
  let w := { w with target := w.duration, elapsed := 0 }
  if w.draws then
    match r.uniform? w.variance with
    | none => (.error .rangeOverflow, w, r)
    | some (x, r) => (.ok (), { w with target := w.target + x }, r)
  else (.ok (), w, r)

def tick (w : Wait) (dt : Float32) : Status × Wait :=
  let w := { w with elapsed := w.elapsed + dt }
  (if w.target ≤ w.elapsed then .success else .running, w)

end Wait
end TickTree
