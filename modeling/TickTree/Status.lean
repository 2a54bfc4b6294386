/-! The answer of a node to one tick. -/
namespace TickTree

inductive Status where
  | success
  | failure
  | running
  deriving DecidableEq, Inhabited

namespace Status

def isSuccess (s : Status) : Bool := s = success
def isFailure (s : Status) : Bool := s = failure
def isRunning (s : Status) : Bool := s = running
def isTerminal (s : Status) : Bool := !s.isRunning

def invert : Status → Status
  | success => failure
  | failure => success
  | running => running

def ofBool (b : Bool) : Status := if b then success else failure

def word : Status → String
  | success => "success"
  | failure => "failure"
  | running => "running"

def title : Status → String
  | success => "Success"
  | failure => "Failure"
  | running => "Running"

@[simp] theorem invert_invert (s : Status) : s.invert.invert = s := by cases s <;> rfl

@[simp] theorem isTerminal_invert (s : Status) : s.invert.isTerminal = s.isTerminal := by
  cases s <;> rfl

@[simp] theorem isTerminal_eq_false (s : Status) : s.isTerminal = false ↔ s = running := by
  cases s <;> decide

@[simp] theorem isTerminal_ofBool (b : Bool) : (ofBool b).isTerminal = true := by
  cases b <;> rfl

@[simp] theorem invert_ofBool (b : Bool) : (ofBool b).invert = ofBool (!b) := by
  cases b <;> rfl

end Status
end TickTree
