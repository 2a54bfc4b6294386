import Mathlib
import TickTree.Bound
/-! The order of numbers in single precision, and the bit patterns that they are written down as. -/
namespace TickTree.Seconds

open Float.Model (Format UnpackedFloat totalExponent)
open Float.Model.UnpackedFloat

/-- The place of a number in the order of numbers; NaN has none. -/
def rank : UnpackedFloat → Option (ℤ ×ₗ ℤ ×ₗ ℤ)
  | .notANumber => none
  | .infinity .negative => some (toLex (-2, toLex (0, 0)))
  | .finite .negative m e _ => some (toLex (-1, toLex (-e, -m)))
  | .zero _ => some (toLex (0, toLex (0, 0)))
  | .finite .positive m e _ => some (toLex (1, toLex (e, m)))
  | .infinity .positive => some (toLex (2, toLex (0, 0)))

theorem compare_pair {α β : Type} [LinearOrder α] [LinearOrder β] (a b : α) (c d : β) :
    compare (toLex (a, c)) (toLex (b, d)) = (compare a b).then (compare c d) := by
  rw [Prod.Lex.compare_def]
  rfl

theorem compare_neg (a b : ℤ) : compare (-a) (-b) = (compare a b).swap := by
  rcases lt_trichotomy a b with h | rfl | h
  · rw [compare_lt_iff_lt.mpr h, compare_gt_iff_gt.mpr (neg_lt_neg h)]
    rfl
  · simp
  · rw [compare_gt_iff_gt.mpr h, compare_lt_iff_lt.mpr (neg_lt_neg h)]
    rfl

theorem compare_natCast (a b : ℕ) : compare (a : ℤ) (b : ℤ) = compare a b := by
  rcases lt_trichotomy a b with h | rfl | h
  · rw [compare_lt_iff_lt.mpr h, compare_lt_iff_lt.mpr (Nat.cast_lt.mpr h)]
  · simp
  · rw [compare_gt_iff_gt.mpr h, compare_gt_iff_gt.mpr (Nat.cast_lt.mpr h)]

theorem compare_eq (x y : UnpackedFloat) :
    x.compare y = (rank x).bind fun a => (rank y).map (compare a ·) := by
  cases x with
  | notANumber => cases y <;> rfl
  | infinity s =>
    cases s <;> cases y with
    | notANumber => rfl
    | infinity t => cases t <;> rfl
    | zero t => cases t <;> rfl
    | finite t m e h => cases t <;> rfl
  | zero s =>
    cases s <;> cases y with
    | notANumber => rfl
    | infinity t => cases t <;> rfl
    | zero t => cases t <;> rfl
    | finite t m e h => cases t <;> rfl
  | finite s m e h =>
    cases s <;> cases y with
    | notANumber => rfl
    | infinity t => cases t <;> rfl
    | zero t => cases t <;> rfl
    | finite t m e h =>
      cases t <;> simp [rank, UnpackedFloat.compare, Ordering.swap_then, compare_pair, compare_neg,
        compare_natCast]
      all_goals rfl

def AtMost (u v : UnpackedFloat) : Prop := ∃ a ∈ rank u, ∃ b ∈ rank v, a ≤ b

theorem le_iff {x y : Float32} :
    x ≤ y ↔ ∃ a ∈ rank x.toModel.unpack, ∃ b ∈ rank y.toModel.unpack, a ≤ b := by
  change decide (x.toModel.unpack.le y.toModel.unpack = true) = true ↔ _
  rw [decide_eq_true_eq, UnpackedFloat.le, compare_eq]
  cases rank x.toModel.unpack with
  | none => simp
  | some a =>
    cases rank y.toModel.unpack with
    | none => simp
    | some b => simp [compare_le_iff_le, Ordering.isLE_iff_ne_gt]

theorem lt_iff {x y : Float32} :
    x < y ↔ ∃ a ∈ rank x.toModel.unpack, ∃ b ∈ rank y.toModel.unpack, a < b := by
  change decide (x.toModel.unpack.lt y.toModel.unpack = true) = true ↔ _
  rw [decide_eq_true_eq, UnpackedFloat.lt, compare_eq]
  cases rank x.toModel.unpack with
  | none => simp
  | some a =>
    cases rank y.toModel.unpack with
    | none => simp
    | some b => simp [← compare_lt_iff_lt]

theorem AtMost.trans {u v w : UnpackedFloat} (h : AtMost u v) (h' : AtMost v w) : AtMost u w := by
  obtain ⟨a, ha, b, hb, hab⟩ := h
  obtain ⟨b', hb', c, hc, hbc⟩ := h'
  obtain rfl : b = b' := Option.some.inj (hb.symm.trans hb')
  exact ⟨a, ha, c, hc, hab.trans hbc⟩

theorem le_trans {x y z : Float32} (h : x ≤ y) (h' : y ≤ z) : x ≤ z :=
  le_iff.mpr (AtMost.trans (le_iff.mp h) (le_iff.mp h'))

theorem not_le_of_lt {x y : Float32} (h : x < y) : ¬ y ≤ x := by
  intro h'
  obtain ⟨a, ha, b, hb, hab⟩ := lt_iff.mp h
  obtain ⟨b', hb', a', ha', hba⟩ := le_iff.mp h'
  obtain rfl : b = b' := Option.some.inj (hb.symm.trans hb')
  obtain rfl : a = a' := Option.some.inj (ha.symm.trans ha')
  exact hab.not_ge hba

theorem exists_rank {x : Float32} (hx : x.isNaN = false) :
    ∃ a, a ∈ rank x.toModel.unpack := by
  change x.toModel.unpack.isNaN = false at hx
  cases hu : x.toModel.unpack with
  | notANumber =>
    rw [hu] at hx
    cases hx
  | infinity s | finite s => cases s <;> exact ⟨_, rfl⟩
  | zero => exact ⟨_, rfl⟩

theorem le_self {x : Float32} (hx : x.isNaN = false) : x ≤ x := by
  obtain ⟨a, ha⟩ := exists_rank hx
  exact le_iff.mpr ⟨a, ha, a, ha, le_rfl⟩

theorem le_of_not_lt {x y : Float32} (hx : x.isNaN = false) (hy : y.isNaN = false)
    (h : ¬ y < x) : x ≤ y := by
  obtain ⟨a, ha⟩ := exists_rank hx
  obtain ⟨b, hb⟩ := exists_rank hy
  exact le_iff.mpr ⟨a, ha, b, hb, le_of_not_gt fun hba => h (lt_iff.mpr ⟨b, hb, a, ha, hba⟩)⟩

def Fitted (m : ℕ) (e : ℤ) : Prop := m < 2 ^ 24 ∧ -149 ≤ e ∧ (2 ^ 23 ≤ m ∨ e = -149)

theorem toNat_one_append (v : BitVec 23) : (1#1 ++ v).toNat = 2 ^ 23 + v.toNat := by
  rw [BitVec.toNat_append, ← Nat.shiftLeft_add_eq_or_of_lt v.isLt]
  simp [Nat.shiftLeft_eq]

theorem fitted_of_unpack {b : BitVec Format.binary32.numBits} {s : Sign} {m : ℕ} {e : ℤ}
    {hm : 0 < m} (h : unpack Format.binary32 b = .finite s m e hm) : Fitted m e := by
  have hbias : ((Format.binary32.exponentBias : ℕ) : ℤ) = 127 := rfl
  have hmant : (unpackMantissa b).toNat < 2 ^ 23 := (unpackMantissa b).isLt
  rw [unpack] at h
  dsimp only at h
  split at h
  · split at h <;> cases h
  · split at h
    · rename_i hexp
      split at h
      · cases h
      · cases h
        have hexp' : ((unpackExponent b).toNat : ℤ) = 0 := by simp [hexp]
        rw [hexp', hbias]
        exact ⟨by omega, by omega, .inr (by omega)⟩
    · rename_i hexp
      cases h
      have hexp' : (unpackExponent b).toNat ≠ 0 :=
        fun h => hexp (BitVec.eq_of_toNat_eq (by simpa using h))
      rw [toNat_one_append, hbias]
      exact ⟨by omega, by omega, .inl (by omega)⟩

theorem unpack_leading (s : Sign) {m k : ℕ} (hm : 0 < m) (hlead : 2 ^ 23 ≤ m) (hupper : m < 2 ^ 24)
    (hk : 0 < k) (hk' : k < 255) :
    unpack Format.binary32
        (packComponents Format.binary32 s (BitVec.ofNat 8 k) (BitVec.ofNat 23 m)) =
      .finite s m (k - 150) hm := by
  have hbias : ((Format.binary32.exponentBias : ℕ) : ℤ) = 127 := rfl
  have hbits : ((Format.binary32.mantissaBitsWithoutImplicit : ℕ) : ℤ) = 23 := rfl
  have hexp : (BitVec.ofNat 8 k).toNat = k := Nat.mod_eq_of_lt (by omega)
  have hne : BitVec.ofNat 8 k ≠ -1#8 := by
    intro h
    have hmax : (BitVec.ofNat 8 k).toNat = 255 := congrArg BitVec.toNat h
    omega
  have hne' : BitVec.ofNat 8 k ≠ 0#8 := by
    intro h
    have hzero : (BitVec.ofNat 8 k).toNat = 0 := congrArg BitVec.toNat h
    omega
  have hmant : (1#1 ++ BitVec.ofNat 23 m).toNat = m := by
    rw [toNat_one_append, BitVec.toNat_ofNat]
    omega
  rw [unpack]
  simp only [unpackMantissa_packComponents, unpackExponent_packComponents,
    unpackSign_packComponents, Sign.ofBitVec_toBitVec, hne, hne', if_false, hmant, hexp, hbias,
    hbits]
  rfl

theorem unpack_short (s : Sign) {m : ℕ} (hm : 0 < m) (hshort : m < 2 ^ 23) :
    unpack Format.binary32 (packComponents Format.binary32 s 0#8 (BitVec.ofNat 23 m)) =
      .finite s m (-149) hm := by
  have hmant : (BitVec.ofNat 23 m).toNat = m := Nat.mod_eq_of_lt hshort
  have hne : BitVec.ofNat 23 m ≠ 0#23 := by
    intro h
    have hzero : (BitVec.ofNat 23 m).toNat = 0 := congrArg BitVec.toNat h
    omega
  rw [unpack]
  simp only [unpackMantissa_packComponents, unpackExponent_packComponents,
    unpackSign_packComponents, Sign.ofBitVec_toBitVec]
  rw [if_neg (by decide), if_pos trivial, dif_neg hne]
  simp only [hmant]
  rfl

/-- Writing a number down loses nothing, unless the number is too large. -/
theorem unpack_pack_fitted (s : Sign) {m : ℕ} {e : ℤ} (hm : 0 < m) (h : Fitted m e) :
    unpack Format.binary32 (pack Format.binary32 (.finite s m e hm)) = .finite s m e hm ∨
      104 < e ∧
        unpack Format.binary32 (pack Format.binary32 (.finite s m e hm)) = .infinity s := by
  obtain ⟨hupper, hmin, hlower⟩ := h
  have hbiased : (e + Format.binary32.exponentBias
      + Format.binary32.mantissaBitsWithoutImplicit).toNat = (e + 150).toNat := by
    have hbias : ((Format.binary32.exponentBias : ℕ) : ℤ) = 127 := rfl
    have hbits : ((Format.binary32.mantissaBitsWithoutImplicit : ℕ) : ℤ) = 23 := rfl
    omega
  rw [pack]
  simp only [hbiased]
  split
  · next hlarge =>
    have hlarge' : 256 ≤ (e + 150).toNat + 1 := hlarge
    refine .inr ⟨by omega, ?_⟩
    cases s <;> rfl
  · left
    rename_i hsmall
    have hsmall' : (e + 150).toNat + 1 < 256 := Nat.not_le.mp hsmall
    split
    · rename_i hlog
      have hlead : 2 ^ 23 ≤ m := by
        have hlog' : m.log2 = 23 := by
          change m.log2 + 1 = 24 at hlog
          omega
        exact hlog' ▸ Nat.log2_self_le hm.ne'
      have hunpack := unpack_leading s (k := (e + 150).toNat) hm hlead hupper (by omega) (by omega)
      have hexp : (((e + 150).toNat : ℕ) : ℤ) - 150 = e := by omega
      rwa [hexp] at hunpack
    · rename_i hlog
      have hshort : m < 2 ^ 23 := by
        by_contra hlead
        have hlog' : m.log2 = 23 :=
          (Nat.log2_eq_iff hm.ne').mpr ⟨by omega, hupper⟩
        exact hlog (by rw [hlog']; rfl)
      obtain rfl : e = -149 := by omega
      exact unpack_short s hm hshort

theorem exponent_le_of_unpack {b : BitVec Format.binary32.numBits} {s : Sign} {m : ℕ} {e : ℤ}
    {hm : 0 < m} (h : unpack Format.binary32 b = .finite s m e hm) : e ≤ 104 := by
  have hbias : ((Format.binary32.exponentBias : ℕ) : ℤ) = 127 := rfl
  have hbits : ((Format.binary32.mantissaBitsWithoutImplicit : ℕ) : ℤ) = 23 := rfl
  have hexp := (unpackExponent b).isLt
  rw [unpack] at h
  dsimp only at h
  split at h
  · split at h <;> cases h
  · next hmax =>
    have hne : (unpackExponent b).toNat ≠ 255 := fun h => hmax (BitVec.eq_of_toNat_eq h)
    split at h
    · next hzero =>
      split at h
      · cases h
      · cases h
        rw [hzero, hbias, hbits]
        decide
    · cases h
      rw [hbias, hbits]
      change (unpackExponent b).toNat < 256 at hexp
      omega

theorem unpack_pack_zero (s : Sign) :
    unpack Format.binary32 (pack Format.binary32 (.zero s)) = .zero s := by
  cases s <;> rfl

theorem unpack_pack_unpack (b : BitVec Format.binary32.numBits) :
    unpack Format.binary32 (pack Format.binary32 (unpack Format.binary32 b)) =
      unpack Format.binary32 b := by
  cases h : unpack Format.binary32 b with
  | notANumber => rfl
  | infinity s => cases s <;> rfl
  | zero s => cases s <;> rfl
  | finite s m e hm =>
    have hexp := exponent_le_of_unpack h
    obtain hsame | ⟨hlarge, -⟩ := unpack_pack_fitted s hm (fitted_of_unpack h)
    · exact hsame
    · omega

theorem unpack_add (x y : Float32) :
    (x + y).toModel.unpack = unpack Format.binary32 (pack Format.binary32
      (UnpackedFloat.add Format.binary32 x.toModel.unpack y.toModel.unpack)) := rfl

theorem unpack_mul (x y : Float32) :
    (x * y).toModel.unpack = unpack Format.binary32 (pack Format.binary32
      (UnpackedFloat.mul Format.binary32 x.toModel.unpack y.toModel.unpack)) := rfl

theorem unpack_zero : (0 : Float32).toModel.unpack = .zero .positive := rfl

theorem rank_zero (s : Sign) : rank (.zero s) = some (toLex (0, toLex (0, 0))) := by
  cases s <;> rfl

theorem cases_of_nonneg {x : Float32} (h : 0 ≤ x) :
    (∃ s, x.toModel.unpack = .zero s) ∨
      (∃ m e, ∃ hm : 0 < m, x.toModel.unpack = .finite .positive m e hm) ∨
      x.toModel.unpack = .infinity .positive := by
  obtain ⟨a, ha, b, hb, hab⟩ := le_iff.mp h
  rw [unpack_zero, rank_zero] at ha
  obtain rfl := Option.mem_some_iff.mp ha
  cases hx : x.toModel.unpack with
  | notANumber =>
    rw [hx] at hb
    cases hb
  | infinity s =>
    cases s with
    | positive => exact .inr (.inr rfl)
    | negative =>
      rw [hx] at hb
      obtain rfl := Option.mem_some_iff.mp hb
      exact absurd hab (by decide)
  | zero s => exact .inl ⟨s, rfl⟩
  | finite s m e hm =>
    cases s with
    | positive => exact .inr (.inl ⟨m, e, hm, rfl⟩)
    | negative =>
      rw [hx] at hb
      obtain rfl := Option.mem_some_iff.mp hb
      simp [Prod.Lex.le_iff] at hab

theorem cases_of_span {d : Float32} (h : Span d) :
    (∃ s, d.toModel.unpack = .zero s) ∨
      ∃ m e, ∃ hm : 0 < m, d.toModel.unpack = .finite .positive m e hm := by
  obtain ⟨hfin, hneg⟩ := h
  change d.toModel.unpack.isFinite = true at hfin
  rw [lt_iff, unpack_zero, rank_zero] at hneg
  cases hd : d.toModel.unpack with
  | notANumber =>
    rw [hd] at hfin
    cases hfin
  | infinity s =>
    rw [hd] at hfin
    cases hfin
  | zero s => exact .inl ⟨s, rfl⟩
  | finite s m e hm =>
    cases s with
    | positive => exact .inr ⟨m, e, hm, rfl⟩
    | negative =>
      refine absurd ⟨_, by rw [hd]; rfl, _, rfl, ?_⟩ hneg
      simp [Prod.Lex.lt_iff]

theorem exists_rank_pack {m : ℕ} {e : ℤ} (hm : 0 < m) (h : Fitted m e) :
    ∃ b ∈ rank (unpack Format.binary32 (pack Format.binary32 (.finite .positive m e hm))),
      toLex (1, toLex (e, (m : ℤ))) ≤ b := by
  obtain h | ⟨-, h⟩ := unpack_pack_fitted .positive hm h
  · rw [h]
    exact ⟨_, rfl, le_rfl⟩
  · rw [h]
    exact ⟨_, rfl, by simp [Prod.Lex.le_iff]⟩

theorem rank_le_infinity {u : UnpackedFloat} {a : ℤ ×ₗ ℤ ×ₗ ℤ} (ha : a ∈ rank u) :
    a ≤ toLex (2, toLex (0, 0)) := by
  cases u with
  | notANumber => cases ha
  | infinity s =>
    cases s <;> obtain rfl := Option.mem_some_iff.mp ha
    · simp [Prod.Lex.le_iff]
    · exact le_rfl
  | zero s =>
    obtain rfl := Option.mem_some_iff.mp ha
    simp [Prod.Lex.le_iff]
  | finite s m e hm =>
    cases s <;> obtain rfl := Option.mem_some_iff.mp ha <;> simp [Prod.Lex.le_iff]

/-- Zero, and the numbers that need no rounding, whatever their size. -/
def Settled (u : UnpackedFloat) : Prop :=
  (∃ s, u = .zero s) ∨ ∃ m e, ∃ hm : 0 < m, Fitted m e ∧ u = .finite .positive m e hm

theorem le_pack {u : UnpackedFloat} (hu : Settled u) :
    AtMost u (unpack Format.binary32 (pack Format.binary32 u)) := by
  obtain ⟨s, rfl⟩ | ⟨m, e, hm, hfit, rfl⟩ := hu
  · rw [unpack_pack_zero]
    exact ⟨_, rank_zero s, _, rank_zero s, le_rfl⟩
  · exact ⟨_, rfl, exists_rank_pack hm hfit⟩

/-- Written down, numbers keep their order: those that are too large become infinity. -/
theorem pack_mono {u v : UnpackedFloat} (hu : Settled u) (hv : Settled v) (h : AtMost u v) :
    AtMost (unpack Format.binary32 (pack Format.binary32 u))
      (unpack Format.binary32 (pack Format.binary32 v)) := by
  obtain ⟨a, ha, b, hb, hab⟩ := h
  obtain ⟨t, rfl⟩ | ⟨n, f, hn, hfit', rfl⟩ := hv
  · obtain ⟨s, rfl⟩ | ⟨m, e, hm, hfit, rfl⟩ := hu
    · rw [unpack_pack_zero, unpack_pack_zero]
      exact ⟨a, ha, b, hb, hab⟩
    · rw [rank_zero] at hb
      obtain rfl := Option.mem_some_iff.mp ha
      obtain rfl := Option.mem_some_iff.mp hb
      simp [Prod.Lex.le_iff] at hab
  · obtain ⟨s, rfl⟩ | ⟨m, e, hm, hfit, rfl⟩ := hu
    · obtain ⟨c, hc, hbc⟩ := exists_rank_pack hn hfit'
      obtain rfl := Option.mem_some_iff.mp hb
      rw [unpack_pack_zero]
      exact ⟨a, ha, c, hc, hab.trans hbc⟩
    · obtain hsame' | ⟨-, hlarge'⟩ := unpack_pack_fitted .positive hn hfit'
      · obtain hsame | ⟨hlarge, -⟩ := unpack_pack_fitted .positive hm hfit
        · rw [hsame, hsame']
          exact ⟨a, ha, b, hb, hab⟩
        · -- the greater number would be too large as well
          have hexp := exponent_le_of_unpack hsame'
          obtain rfl := Option.mem_some_iff.mp ha
          obtain rfl := Option.mem_some_iff.mp hb
          simp [Prod.Lex.le_iff] at hab
          omega
      · obtain ⟨c, hc, -⟩ := exists_rank_pack hm hfit
        rw [hlarge']
        exact ⟨c, hc, _, rfl, rank_le_infinity hc⟩

end TickTree.Seconds
