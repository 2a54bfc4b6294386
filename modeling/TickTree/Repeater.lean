import TickTree.Fault
import TickTree.Status
/-! Repeaters count the iterations of their child. -/
namespace TickTree

structure Repeater where
  /-- The iterations after which the repeater succeeds, if it ever does. -/
  limit : Option Nat
  /-- Whether a failed iteration counts. -/
  lenient : Bool
  completed : Nat
  deriving DecidableEq

namespace Repeater

/-- The count that asks for no limit. Any negative count does. -/
def infinite : Int32 := -1

def mostCompleted : Nat := UInt32.size - 1

def forever (lenient : Bool) : Repeater := ⟨none, lenient, 0⟩

def make (count : Int32) (lenient : Bool) : Except Fault Repeater :=
  if count = 0 then .error (.outOfRange .repeatCount)
  else if count < 0 then .ok (forever lenient)
  else .ok ⟨some count.toInt.toNat, lenient, 0⟩

def start (r : Repeater) : Repeater := { r with completed := 0 }

def counts (r : Repeater) : Status → Bool
  | .success => true
  | .failure => r.lenient
  | .running => false

def advance (r : Repeater) : Repeater :=
  { r with completed := min (r.completed + 1) mostCompleted }

def isDone (r : Repeater) : Bool := r.limit.any (· ≤ r.completed)

def step (r : Repeater) (child : Status) : Status × Repeater :=
  if r.counts child then
    let r := r.advance
    (if r.isDone then .success else .running, r)
  else (child, r)

def title (r : Repeater) : String :=
  match r.limit with
  | some n => "Repeat x" ++ toString n
  | none => "Repeat Infinite"

end Repeater
end TickTree
