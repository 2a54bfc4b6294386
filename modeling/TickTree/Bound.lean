/-! One-sided bounds on single-precision numbers. A bound also stands in for NaN. -/
namespace TickTree

/-- The larger of `x` and `low`; a NaN and both zeros give `low`. -/
def atLeast (low x : Float32) : Float32 := if low < x then x else low

/-- The smaller of `x` and `high`; a NaN gives `high`. -/
def atMost (high x : Float32) : Float32 := if x < high then x else high

def epsilon : Float32 := Float32.ofBits 0x34000000

/-- A finite number that is not below zero. -/
def Span (x : Float32) : Prop := x.isFinite = true ∧ ¬ x < 0

instance (x : Float32) : Decidable (Span x) := inferInstanceAs (Decidable (_ ∧ _))

theorem atLeast_eq_or (low x : Float32) : atLeast low x = low ∨ atLeast low x = x := by
  unfold atLeast; split <;> simp

end TickTree
