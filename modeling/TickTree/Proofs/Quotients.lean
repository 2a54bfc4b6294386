import TickTree.Proofs.Sums
/-! Quotients, and numbers made from counts. What is left over of a division is written down in two
more digits, so that a quotient is rounded like any other number. -/
namespace TickTree.Seconds

open Float.Model (Format UnpackedFloat totalExponent)
open Float.Model.UnpackedFloat

variable {x y : Float32} {m n : ℕ} {e f : ℤ}

def residue : Accuracy → ℕ
  | .exact => 0
  | .inexact .lt => 1
  | .inexact .eq => 2
  | .inexact .gt => 3

theorem residue_le (a : Accuracy) : residue a ≤ 3 := by
  cases a with
  | exact => decide
  | inexact o => cases o <;> decide

theorem shiftRight_residue (m n : ℕ) (a : Accuracy) :
    (⟨4 * m + residue a, false, false⟩ : ExtendedMantissa) >>> (n + 2) =
      ExtendedMantissa.ofMantissaAndAccuracy m a >>> n := by
  induction n with
  | zero =>
    change ExtendedMantissa.shiftRightOne (ExtendedMantissa.shiftRightOne
      ⟨4 * m + residue a, false, false⟩) = ExtendedMantissa.ofMantissaAndAccuracy m a
    cases a with
    | exact =>
      simp [ExtendedMantissa.shiftRightOne, residue, ExtendedMantissa.ofMantissaAndAccuracy]
      omega
    | inexact o =>
      cases o <;> simp [ExtendedMantissa.shiftRightOne, residue,
        ExtendedMantissa.ofMantissaAndAccuracy] <;> omega
  | succ n ih =>
    rw [show n + 1 + 2 = n + 2 + 1 by omega]
    exact congrArg ExtendedMantissa.shiftRightOne ih

theorem goal_residue (hm : 0 < m) (e : ℤ) (a : Accuracy) :
    goal (4 * m + residue a) (e - 2) = goal m e := by
  have hlog : (4 * m + residue a).log2 = m.log2 + 2 := by
    have hle := Nat.log2_self_le hm.ne'
    have hlt : m < 2 ^ (m.log2 + 1) := Nat.lt_log2_self
    have hresidue := residue_le a
    refine (Nat.log2_eq_iff (by omega)).mpr ⟨?_, ?_⟩
    · rw [Nat.pow_add]
      omega
    · rw [show m.log2 + 2 + 1 = m.log2 + 1 + 2 by omega, Nat.pow_add]
      omega
  rw [goal_eq, goal_eq, hlog]
  omega

/-- With two more digits for the rest, nothing else has to be known of it. -/
theorem roundWithAccuracy_eq (s : Sign) (hm : 0 < m) (h : e ≤ goal m e) (a : Accuracy) :
    roundWithAccuracy Format.binary32 s m e a =
      UnpackedFloat.round Format.binary32 s (4 * m + residue a) (e - 2) := by
  have hgoal := goal_residue hm e a
  have hshift : (goal (4 * m + residue a) (e - 2) - (e - 2)).toNat = (goal m e - e).toNat + 2 := by
    omega
  have hexp : e - 2 + (((goal m e - e).toNat + 2 : ℕ) : ℤ) = e + (goal m e - e).toNat := by omega
  have htarget : shiftToTargetExponent Format.binary32 (4 * m + residue a) (e - 2) .exact =
      shiftToTargetExponent Format.binary32 m e a := by
    rw [shiftToTargetExponent_eq, hshift, shiftRight_residue, hexp]
    rfl
  rw [round_of_le_goal s (by rw [hgoal]; omega)]
  simp only [roundWithAccuracy, htarget]

def quotientExponent (m : ℕ) (e : ℤ) (n : ℕ) (f : ℤ) : ℤ :=
  min (e - f) (e + m.log2 - (f + n.log2) - 24)

theorem quotient_digits (hm : 0 < m) (hn : 0 < n) (e f : ℤ) :
    2 ^ 23 ≤ m * 2 ^ (e - f - quotientExponent m e n f).toNat / n := by
  have hshift : n.log2 + 24 ≤ m.log2 + (e - f - quotientExponent m e n f).toNat := by
    rw [quotientExponent]
    omega
  have hupper : n < 2 ^ (n.log2 + 1) := Nat.lt_log2_self
  rw [Nat.le_div_iff_mul_le hn]
  calc 2 ^ 23 * n
    _ ≤ 2 ^ 23 * 2 ^ (n.log2 + 1) := Nat.mul_le_mul_left _ hupper.le
    _ = 2 ^ (n.log2 + 24) := by ring
    _ ≤ 2 ^ (m.log2 + (e - f - quotientExponent m e n f).toNat) :=
      Nat.pow_le_pow_right (by decide) hshift
    _ = 2 ^ m.log2 * 2 ^ (e - f - quotientExponent m e n f).toNat := Nat.pow_add _ _ _
    _ ≤ m * 2 ^ (e - f - quotientExponent m e n f).toNat :=
      Nat.mul_le_mul_right _ (Nat.log2_self_le hm.ne')

theorem div_positive (hm : 0 < m) (hn : 0 < n) (hlarge : -125 ≤ e + m.log2 - (f + n.log2)) :
    let E := quotientExponent m e n f
    let N := m * 2 ^ (e - f - E).toNat
    UnpackedFloat.div Format.binary32 (.finite .positive m e hm) (.finite .positive n f hn) =
      UnpackedFloat.round Format.binary32 .positive
        (4 * (N / n) + residue (accuracyOfFraction (N % n) n)) (E - 2) := by
  intro E N
  have htarget : min (e - f) (Format.binary32.targetExponent (totalExponent m e -
      totalExponent n f)) = E := by
    have hmin : Format.binary32.minExponent = -149 := by decide
    have hbits : (Format.binary32.mantissaBits : ℤ) = 24 := rfl
    rw [Format.targetExponent, totalExponent, totalExponent, hmin, hbits]
    simp only [E, quotientExponent]
    omega
  have hcore : divCore Format.binary32 m e n f =
      (N / n, E, accuracyOfFraction (N % n) n) := by
    rw [divCore, htarget]
    simp only [Nat.shiftLeft_eq]
    rfl
  have hdigits : 2 ^ 23 ≤ N / n := quotient_digits hm hn e f
  have hlog : 23 ≤ (N / n).log2 := (Nat.le_log2 (by omega)).mpr hdigits
  rw [← roundWithAccuracy_eq .positive (by omega) (by rw [goal_eq]; omega)]
  rw [UnpackedFloat.div, hcore]
  rfl

theorem quotient_le_one {k N E : ℕ} (hn : 0 < n) (hN : N ≤ n * 2 ^ E)
    (hk : k = 4 * (N / n) + residue (accuracyOfFraction (N % n) n)) : k ≤ 4 * 2 ^ E := by
  have hresidue := residue_le (accuracyOfFraction (N % n) n)
  have hq : N / n ≤ 2 ^ E := by
    rw [← Nat.mul_div_cancel_left (2 ^ E) hn]
    exact Nat.div_le_div_right hN
  rcases hq.lt_or_eq with hlt | heq
  · omega
  · have hrest : N % n = 0 := by
      have hsplit := Nat.div_add_mod N n
      rw [heq] at hsplit
      omega
    have hzero : residue (accuracyOfFraction (N % n) n) = 0 := by rw [hrest]; rfl
    omega

theorem least_le_round {k : ℕ} {E : ℤ} (hk : 0 < k) (hE : -149 ≤ E) :
    AtMost (.finite .positive 1 (-149) Nat.one_pos)
      (UnpackedFloat.round Format.binary32 .positive k E) := by
  rw [← round_scale hk (E + 149).toNat, show E - ((E + 149).toNat : ℤ) = -149 by omega]
  refine le_round Nat.one_pos ⟨by decide, le_rfl, .inr rfl⟩ le_rfl ?_
  exact Nat.mul_pos hk (Nat.two_pow_pos _)

theorem log2_of_fitted (hm : 0 < m) (h : Fitted m e) (he : e ≠ -149) : m.log2 = 23 := by
  obtain ⟨hupper, -, hlead⟩ := h
  have hlower : 23 ≤ m.log2 := (Nat.le_log2 hm.ne').mpr (hlead.resolve_right he)
  have hfits : m.log2 < 24 := (Nat.log2_lt hm.ne').mpr hupper
  omega

/-- What is at least one, by a number that is no less and not too large. -/
theorem div_bounds {hn : 0 < n} (hx : 1 ≤ x) (hxy : x ≤ y) (hspan : Span y)
    (hy : y.toModel.unpack = .finite .positive n f hn) (hf : f ≤ 100) :
    0 < x / y ∧ x / y ≤ 1 := by
  have hone : (1 : Float32).toModel.unpack = .finite .positive (2 ^ 23) (-23) (by decide) := rfl
  have hxspan : Span x := span_of_le (le_trans (by decide +kernel) hx) hxy hspan
  obtain ⟨m, e, hm, hx', hlower⟩ := finite_of_le hone hxspan hx
  have hless : e < f ∨ e = f ∧ m ≤ n := by
    obtain ⟨n', f', hn', hy', hless⟩ := finite_of_le hx' hspan hxy
    rw [hy] at hy'
    cases hy'
    exact hless
  have hfit := fitted_of_unpack hx'
  have hfit' := fitted_of_unpack hy
  have hlog : m.log2 = 23 := log2_of_fitted hm hfit (by omega)
  have hlog' : n.log2 = 23 := log2_of_fitted hn hfit' (by omega)
  have hunpack : (x / y).toModel.unpack = unpack Format.binary32 (pack Format.binary32
      (UnpackedFloat.div Format.binary32 x.toModel.unpack y.toModel.unpack)) := rfl
  rw [hx', hy, div_positive hm hn (by omega)] at hunpack
  have hE : quotientExponent m e n f = min (e - f) (e + m.log2 - (f + n.log2) - 24) := rfl
  have hdigits := quotient_digits hm hn e f
  generalize quotientExponent m e n f = E at hE hunpack hdigits
  generalize hk : 4 * (m * 2 ^ (e - f - E).toNat / n) +
    residue (accuracyOfFraction (m * 2 ^ (e - f - E).toNat % n) n) = k at hunpack
  have hkpos : 0 < k := by omega
  constructor
  · have hleast : Float32.ofBits 1 ≤ x / y := le_of_atMost
      (settled_of_unpack (x := Float32.ofBits 1) rfl) (settled_round hkpos)
      (least_le_round hkpos (by omega)) (unpack_pack_self rfl) hunpack
    exact lt_of_lt_of_le (by decide +kernel) hleast
  · have hN : m * 2 ^ (e - f - E).toNat ≤ n * 2 ^ (-E).toNat := by
      have h := digits_le (E := f + E) hfit hfit' (by omega) (by omega) hless
      rwa [show e - (f + E) = e - f - E by omega, show f - (f + E) = -E by omega] at h
    have hle : k ≤ 2 ^ 23 * 2 ^ (-23 - (E - 2)).toNat := by
      rw [← Nat.pow_add, show 23 + (-23 - (E - 2)).toNat = 2 + (-E).toNat by omega, Nat.pow_add]
      exact quotient_le_one hn hN hk.symm
    exact le_of_atMost (settled_round hkpos) (settled_of_unpack hone)
      (round_le (by decide) ⟨by decide, by decide, .inl le_rfl⟩ (by omega) hkpos hle) hunpack
      (unpack_pack_self hone)

theorem toFloat32_mono {k l : UInt64} (h : k ≤ l) : k.toFloat32 ≤ l.toFloat32 := by
  have hunpack (n : UInt64) : n.toFloat32.toModel.unpack = unpack Format.binary32
      (pack Format.binary32 (UnpackedFloat.ofNat Format.binary32 n.toNat)) := rfl
  have hround {n : ℕ} (hn : 0 < n) : UnpackedFloat.ofNat Format.binary32 n =
      UnpackedFloat.round Format.binary32 .positive n 0 := by
    have hgt : compare (n : ℤ) 0 = .gt := compare_gt_iff_gt.mpr (by omega)
    simp [UnpackedFloat.ofNat, UnpackedFloat.ofInt, UnpackedFloat.normalize, hgt]
  rcases Nat.eq_zero_or_pos k.toNat with hzero | hpos
  · rw [show k = 0 from UInt64.toNat_inj.mp hzero]
    exact le_trans (by decide +kernel) (nonneg_toFloat32 l)
  · have hle : k.toNat ≤ l.toNat := h
    have hk := hunpack k
    have hl := hunpack l
    rw [hround hpos] at hk
    rw [hround (hpos.trans_le hle)] at hl
    exact le_of_atMost (settled_round hpos) (settled_round (hpos.trans_le hle))
      (round_mono hpos hle) hk hl

end TickTree.Seconds
