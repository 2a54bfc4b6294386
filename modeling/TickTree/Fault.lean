import TickTree.Board.Kind
import TickTree.Bound
import TickTree.Decimal.Text
/-! What can go wrong, by cause, and the wording of each cause. A failed node is not a fault. -/
namespace TickTree

inductive BadArgument where
  | repeatCount
  | cooldownSeconds (given : Float32)
  | timeoutSeconds (given : Float32)
  | waitDuration (given : Float32)
  | waitVariance (given : Float32)
  deriving DecidableEq

namespace BadArgument

def name : BadArgument → String
  | repeatCount => "count"
  | cooldownSeconds _ | timeoutSeconds _ => "seconds"
  | waitDuration _ => "duration"
  | waitVariance _ => "variance"

def given : BadArgument → String
  | repeatCount => "0"
  | cooldownSeconds x | timeoutSeconds x | waitDuration x | waitVariance x =>
    Decimal.plain.widened x

def reason : BadArgument → String
  | repeatCount => "repeat count must be positive or negative for infinite"
  | cooldownSeconds _ => "cooldown must be a finite, non-negative duration"
  | timeoutSeconds _ => "timeout must be positive"
  | waitDuration _ => "wait duration must be finite and non-negative"
  | waitVariance _ => "wait variance must be finite and non-negative"

end BadArgument

inductive Fault where
  | missingRoot
  | outOfRange (argument : BadArgument)
  | keyNotFound (key : UInt32)
  | typeMismatch (key : UInt32) (bound requested : Kind)
  | activeNode
  | callback (source : String)
  deriving DecidableEq

def Fault.message : Fault → String
  | missingRoot => "required argument `root` is missing"
  | outOfRange a =>
    "argument `" ++ a.name ++ "` = " ++ a.given ++ " is out of range: " ++ a.reason
  | keyNotFound key => "blackboard key #" ++ toString key ++ " not found"
  | typeMismatch key bound requested =>
    "blackboard key #" ++ toString key ++ " is bound to `" ++ bound.name ++ "`, not `" ++
      requested.name ++ "`"
  | activeNode => "invalid state: cannot modify the structure of an active node"
  | callback _ => "node callback failed"

inductive Panic where
  /-- The bound of a random draw is too large for its scale. -/
  | rangeOverflow
  | childOutOfRange (count index : Nat)
  deriving DecidableEq

def Panic.message : Panic → String
  | rangeOverflow => "Uniform::new_inclusive: range overflow"
  | childOutOfRange count index =>
    "index out of bounds: the len is " ++ toString count ++ " but the index is " ++ toString index

/-- Why a tick gave no status. -/
inductive Stop where
  | failed (fault : Fault)
  | panicked (panic : Panic)
  deriving DecidableEq

end TickTree
