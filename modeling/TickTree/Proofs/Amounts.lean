import TickTree.Proofs.Rounding
/-! Amounts: numbers that are not below zero. Sums, products and quotients of amounts are amounts,
however they are rounded. -/
namespace TickTree.Seconds

open Float.Model (Format UnpackedFloat totalExponent)
open Float.Model.UnpackedFloat

/-- Zeros, and numbers and infinity of this sign. -/
def Signed (s : Sign) : UnpackedFloat → Prop
  | .zero _ => True
  | .finite t _ _ _ | .infinity t => t = s
  | .notANumber => False

theorem Signed.cases {s : Sign} {u : UnpackedFloat} (h : Signed s u) : (∃ t, u = .zero t) ∨
    (∃ m e, ∃ hm : 0 < m, u = .finite s m e hm) ∨ u = .infinity s := by
  cases u with
  | notANumber => exact h.elim
  | zero t => exact .inl ⟨t, rfl⟩
  | infinity t =>
    obtain rfl : t = s := h
    exact .inr (.inr rfl)
  | finite t m e hm =>
    obtain rfl : t = s := h
    exact .inr (.inl ⟨m, e, hm, rfl⟩)

theorem Settled.signed {u : UnpackedFloat} (h : Settled u) : Signed .positive u := by
  obtain ⟨s, rfl⟩ | ⟨m, e, hm, -, rfl⟩ := h <;> trivial

theorem signed_round (spec : Format) (s : Sign) (m : ℕ) (e : ℤ) (a : Accuracy) :
    Signed s (roundWithAccuracy spec s m e a) := by
  rw [roundWithAccuracy]
  dsimp only
  split
  · trivial
  · rfl

/-- Writing a number down keeps its sign, even where digits are lost. -/
theorem signed_pack {s : Sign} {u : UnpackedFloat} (h : Signed s u) :
    Signed s (unpack Format.binary32 (pack Format.binary32 u)) := by
  have hcomponents (k : BitVec 8) (m : BitVec 23) (hk : k ≠ -1#8) :
      Signed s (unpack Format.binary32 (packComponents Format.binary32 s k m)) := by
    rw [unpack]
    simp only [unpackMantissa_packComponents, unpackExponent_packComponents,
      unpackSign_packComponents, Sign.ofBitVec_toBitVec]
    rw [if_neg hk]
    split
    · split
      · trivial
      · rfl
    · rfl
  have hinfinity : Signed s (unpack Format.binary32 (packedInfinity Format.binary32 s)) := by
    cases s <;> rfl
  obtain ⟨t, rfl⟩ | ⟨m, e, hm, rfl⟩ | rfl := h.cases
  · cases t <;> trivial
  · rw [pack]
    dsimp only
    split
    · exact hinfinity
    · next hsmall =>
      split
      · refine hcomponents _ _ fun hk => hsmall ?_
        have hmax := congrArg BitVec.toNat hk
        rw [BitVec.toNat_ofNat] at hmax
        change _ % 256 = 255 at hmax
        change 256 ≤ _
        omega
      · exact hcomponents _ _ (by decide)
  · exact hinfinity

theorem nonneg_iff {x : Float32} : 0 ≤ x ↔ Signed .positive x.toModel.unpack := by
  constructor
  · intro h
    obtain ⟨s, hx⟩ | ⟨m, e, hm, hx⟩ | hx := cases_of_nonneg h <;> rw [hx] <;> trivial
  · intro h
    rw [le_iff, unpack_zero, rank_zero]
    refine ⟨_, rfl, ?_⟩
    obtain ⟨s, hx⟩ | ⟨m, e, hm, hx⟩ | hx := h.cases <;> rw [hx]
    · exact ⟨_, rank_zero s, le_rfl⟩
    · exact ⟨_, rfl, by simp [Prod.Lex.le_iff]⟩
    · exact ⟨_, rfl, by simp [Prod.Lex.le_iff]⟩

theorem not_pos_of_negative {x : Float32} (h : Signed .negative x.toModel.unpack) : ¬ 0 < x := by
  rw [lt_iff, unpack_zero, rank_zero]
  rintro ⟨a, ha, b, hb, hab⟩
  obtain rfl := Option.mem_some_iff.mp ha
  obtain ⟨s, hx⟩ | ⟨m, e, hm, hx⟩ | hx := h.cases <;> rw [hx] at hb
  · rw [rank_zero] at hb
    obtain rfl := Option.mem_some_iff.mp hb
    exact absurd hab (lt_irrefl _)
  all_goals
    obtain rfl := Option.mem_some_iff.mp hb
    simp [Prod.Lex.lt_iff] at hab

variable {u v : UnpackedFloat}

theorem amount_add (hu : Signed .positive u) (hv : Signed .positive v) :
    Signed .positive (UnpackedFloat.add Format.binary32 u v) := by
  obtain ⟨s, rfl⟩ | ⟨m, e, hm, rfl⟩ | rfl := hu.cases
  · obtain ⟨t, rfl⟩ | ⟨n, f, hn, rfl⟩ | rfl := hv.cases
    · cases s <;> cases t <;> trivial
    · trivial
    · trivial
  · obtain ⟨t, rfl⟩ | ⟨n, f, hn, rfl⟩ | rfl := hv.cases
    · trivial
    · rw [add_positive]
      exact signed_round _ _ _ _ _
    · trivial
  · obtain ⟨t, rfl⟩ | ⟨n, f, hn, rfl⟩ | rfl := hv.cases <;> trivial

theorem amount_mul {m : ℕ} {e : ℤ} {hm : 0 < m} (hv : Signed .positive v) :
    Signed .positive (UnpackedFloat.mul Format.binary32 (.finite .positive m e hm) v) := by
  obtain ⟨t, rfl⟩ | ⟨n, f, hn, rfl⟩ | rfl := hv.cases
  · cases t <;> trivial
  · exact signed_round _ _ _ _ _
  · trivial

theorem amount_div {m : ℕ} {e : ℤ} {hm : 0 < m} (hu : Signed .positive u) :
    Signed .positive (UnpackedFloat.div Format.binary32 u (.finite .positive m e hm)) := by
  obtain ⟨s, rfl⟩ | ⟨n, f, hn, rfl⟩ | rfl := hu.cases
  · cases s <;> trivial
  · exact signed_round _ _ _ _ _
  · trivial

theorem amount_ofNat (n : ℕ) : Signed .positive (UnpackedFloat.ofNat Format.binary32 n) := by
  rw [UnpackedFloat.ofNat, UnpackedFloat.ofInt, UnpackedFloat.normalize]
  split
  · next hneg => exact absurd (compare_lt_iff_lt.mp hneg) (by omega)
  · trivial
  · exact signed_round _ _ _ _ _

section Float32
variable {x y : Float32}

theorem le_of_lt (h : x < y) : x ≤ y := by
  obtain ⟨a, ha, b, hb, hab⟩ := lt_iff.mp h
  exact le_iff.mpr ⟨a, ha, b, hb, hab.le⟩

theorem lt_of_lt_of_le {z : Float32} (h : x < y) (h' : y ≤ z) : x < z := by
  obtain ⟨a, ha, b, hb, hab⟩ := lt_iff.mp h
  obtain ⟨b', hb', c, hc, hbc⟩ := le_iff.mp h'
  obtain rfl : b = b' := Option.some.inj (hb.symm.trans hb')
  exact lt_iff.mpr ⟨a, ha, c, hc, hab.trans_le hbc⟩

theorem isNaN_of_nonneg (h : 0 ≤ x) : x.isNaN = false := by
  change x.toModel.unpack.isNaN = false
  obtain ⟨s, hx⟩ | ⟨m, e, hm, hx⟩ | hx := cases_of_nonneg h <;> rw [hx] <;> rfl

theorem nonneg_of_span (h : Span x) : 0 ≤ x := by
  rw [nonneg_iff]
  obtain ⟨s, hx⟩ | ⟨m, e, hm, hx⟩ := cases_of_span h <;> rw [hx] <;> trivial

theorem span_of_le (hx : 0 ≤ x) (hxy : x ≤ y) (hy : Span y) : Span x := by
  refine ⟨?_, fun hneg => not_le_of_lt hneg hx⟩
  change x.toModel.unpack.isFinite = true
  obtain ⟨s, hx'⟩ | ⟨m, e, hm, hx'⟩ | hx' := cases_of_nonneg hx
  · rw [hx']
    rfl
  · rw [hx']
    rfl
  · rw [le_iff, hx'] at hxy
    obtain ⟨a, ha, b, hb, hab⟩ := hxy
    obtain rfl := Option.mem_some_iff.mp ha
    obtain ⟨s, hy'⟩ | ⟨m, e, hm, hy'⟩ := cases_of_span hy <;> rw [hy'] at hb
    · rw [rank_zero] at hb
      obtain rfl := Option.mem_some_iff.mp hb
      simp [Prod.Lex.le_iff] at hab
    · obtain rfl := Option.mem_some_iff.mp hb
      simp [Prod.Lex.le_iff] at hab

theorem finite_of_span (hx : Span x) (hpos : 0 < x) :
    ∃ m e, ∃ hm : 0 < m, x.toModel.unpack = .finite .positive m e hm := by
  obtain ⟨s, hs⟩ | h := cases_of_span hx
  · rw [lt_iff, unpack_zero, hs, rank_zero, rank_zero] at hpos
    simp at hpos
  · exact h

theorem nonneg_add_of_nonneg (hx : 0 ≤ x) (hy : 0 ≤ y) : 0 ≤ x + y :=
  nonneg_iff.mpr (signed_pack (amount_add (nonneg_iff.mp hx) (nonneg_iff.mp hy)))

theorem nonneg_mul (hx : Span x) (hpos : 0 < x) (hy : 0 ≤ y) : 0 ≤ x * y := by
  obtain ⟨m, e, hm, hunpack⟩ := finite_of_span hx hpos
  refine nonneg_iff.mpr (signed_pack ?_)
  rw [hunpack]
  exact amount_mul (nonneg_iff.mp hy)

theorem nonneg_mul_of_span (hx : Span x) (hy : Span y) : 0 ≤ x * y := by
  obtain ⟨s, hx'⟩ | ⟨m, e, hm, hx'⟩ := cases_of_span hx
  · refine nonneg_iff.mpr (signed_pack ?_)
    rw [hx']
    obtain ⟨t, hy'⟩ | ⟨n, f, hn, hy'⟩ := cases_of_span hy <;> rw [hy'] <;> trivial
  · refine nonneg_iff.mpr (signed_pack ?_)
    rw [hx']
    exact amount_mul (nonneg_iff.mp (nonneg_of_span hy))

theorem nonneg_div (hx : 0 ≤ x) (hy : Span y) (hpos : 0 < y) : 0 ≤ x / y := by
  obtain ⟨m, e, hm, hunpack⟩ := finite_of_span hy hpos
  refine nonneg_iff.mpr (signed_pack ?_)
  rw [hunpack]
  exact amount_div (nonneg_iff.mp hx)

theorem nonneg_toFloat32 (n : UInt64) : 0 ≤ n.toFloat32 :=
  nonneg_iff.mpr (signed_pack (amount_ofNat n.toNat))

end Float32

end TickTree.Seconds
