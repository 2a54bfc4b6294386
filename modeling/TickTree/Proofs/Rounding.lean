import TickTree.Proofs.Seconds
/-! Rounding to single precision, to the nearest number and to the even one of two. It does not depend
on how the digits are written down, leaves alone what needs no rounding, and keeps the order. -/
namespace TickTree.Seconds

open Float.Model (Format UnpackedFloat totalExponent)
open Float.Model.UnpackedFloat

def digits (em : ExtendedMantissa) : ℕ :=
  4 * em.mantissa + 2 * em.roundBit.toNat + em.stickyBit.toNat

theorem digits_shiftRightOne (em : ExtendedMantissa) :
    digits em.shiftRightOne = digits em / 4 + (digits em + 3) / 4 := by
  obtain ⟨m, r, s⟩ := em
  rcases Nat.mod_two_eq_zero_or_one m with hm | hm <;> cases r <;> cases s <;>
    simp [digits, ExtendedMantissa.shiftRightOne, hm] <;> omega

theorem digits_shiftRight {a b : ExtendedMantissa} (h : digits a ≤ digits b) (n : ℕ) :
    digits (a >>> n) ≤ digits (b >>> n) := by
  change digits (n.repeat ExtendedMantissa.shiftRightOne a) ≤
    digits (n.repeat ExtendedMantissa.shiftRightOne b)
  induction n with
  | zero => exact h
  | succ n ih =>
    rw [Nat.repeat, Nat.repeat, digits_shiftRightOne, digits_shiftRightOne]
    omega

theorem digits_div_four (em : ExtendedMantissa) : digits em / 4 = em.mantissa := by
  obtain ⟨m, r, s⟩ := em
  cases r <;> cases s <;> simp [digits] <;> omega

/-- To the nearest, and to an even number where two are as near. -/
theorem roundedMantissa_eq (em : ExtendedMantissa) :
    em.roundedMantissa = (digits em + 1 + digits em / 4 % 2) / 4 := by
  rw [digits_div_four]
  obtain ⟨m, r, s⟩ := em
  cases r <;> cases s <;>
    simp [digits, ExtendedMantissa.roundedMantissa, ExtendedMantissa.accuracy,
      Accuracy.roundToNearestEven] <;> omega

theorem roundedMantissa_bounds (em : ExtendedMantissa) :
    em.mantissa ≤ em.roundedMantissa ∧ em.roundedMantissa ≤ em.mantissa + 1 := by
  have hdigits := digits_div_four em
  rw [roundedMantissa_eq, hdigits]
  omega

theorem roundedMantissa_mono {a b : ExtendedMantissa} (h : digits a ≤ digits b) :
    a.roundedMantissa ≤ b.roundedMantissa := by
  rw [roundedMantissa_eq, roundedMantissa_eq]
  rcases (Nat.div_le_div_right h : digits a / 4 ≤ digits b / 4).lt_or_eq with hlower | hsame
  · omega
  · rw [hsame]
    omega

/-- The exponent that a mantissa and an exponent are rounded to. -/
def goal (m : ℕ) (e : ℤ) : ℤ := Format.binary32.targetExponent (totalExponent m e)

theorem goal_eq (m : ℕ) (e : ℤ) : goal m e = max ((m.log2 : ℤ) + e - 23) (-149) := by
  have hmin : Format.binary32.minExponent = -149 := by decide
  have hbits : (Format.binary32.mantissaBits : ℤ) = 24 := rfl
  rw [goal, Format.targetExponent, totalExponent, hmin, hbits]
  congr 1
  omega

theorem mantissa_shiftRight (em : ExtendedMantissa) (n : ℕ) :
    (em >>> n).mantissa = em.mantissa / 2 ^ n := by
  change (n.repeat ExtendedMantissa.shiftRightOne em).mantissa = _
  induction n with
  | zero => simp [Nat.repeat]
  | succ n ih =>
    rw [Nat.repeat, ExtendedMantissa.shiftRightOne, ih, Nat.div_div_eq_div_mul, ← Nat.pow_succ]

theorem shiftToTargetExponent_eq (m : ℕ) (e : ℤ) :
    shiftToTargetExponent Format.binary32 m e .exact =
      ((⟨m, false, false⟩ : ExtendedMantissa) >>> (goal m e - e).toNat,
        e + (goal m e - e).toNat) := rfl

theorem goal_le {r : ℕ} {e : ℤ} (hr : r < 2 ^ 24) (he : -149 ≤ e) : goal r e ≤ e := by
  have hlog : r.log2 < 24 := by
    rcases Nat.eq_zero_or_pos r with rfl | hpos
    · decide
    · exact (Nat.log2_lt hpos.ne').mpr hr
  rw [goal_eq]
  omega

theorem digits_lead {m : ℕ} {e : ℤ} (hm : 0 < m) (h : e ≤ goal m e) :
    let q := m / 2 ^ (goal m e - e).toNat
    q < 2 ^ 24 ∧ (2 ^ 23 ≤ q ∨ goal m e = -149) := by
  intro q
  have hlog := goal_eq m e
  set n := (goal m e - e).toNat with hn
  have hlt : m < 2 ^ (m.log2 + 1) := Nat.lt_log2_self
  have hle : 2 ^ m.log2 ≤ m := Nat.log2_self_le hm.ne'
  have hupper : q < 2 ^ 24 := by
    rw [Nat.div_lt_iff_lt_mul (Nat.two_pow_pos n), ← Nat.pow_add]
    exact hlt.trans_le (Nat.pow_le_pow_right (by omega) (by omega))
  refine ⟨hupper, or_iff_not_imp_right.mpr fun hmin => ?_⟩
  rw [Nat.le_div_iff_mul_le (Nat.two_pow_pos n), ← Nat.pow_add]
  exact (Nat.pow_le_pow_right (by omega) (by omega)).trans hle

theorem round_of_le_goal (s : Sign) {m : ℕ} {e : ℤ} (h : e ≤ goal m e) :
    UnpackedFloat.round Format.binary32 s m e =
      roundWithAccuracy Format.binary32 s m e .exact := by
  have hzero : (e - Format.binary32.targetExponent (totalExponent m e)).toNat = 0 := by
    change (e - goal m e).toNat = 0
    omega
  simp [UnpackedFloat.round, decreaseExponent, hzero]

def rounded (m : ℕ) (e : ℤ) : ℕ :=
  ((⟨m, false, false⟩ : ExtendedMantissa) >>> (goal m e - e).toNat).roundedMantissa

/-- Rounding cuts the digits off at the exponent aimed at, rounds them, and aims again. -/
theorem round_eq (s : Sign) {m : ℕ} {e : ℤ} (h : e ≤ goal m e) :
    UnpackedFloat.round Format.binary32 s m e =
      let g := goal m e
      let r := rounded m e
      let n := (goal r g - g).toNat
      if h : r / 2 ^ n = 0 then .zero s
      else .finite s (r / 2 ^ n) (g + n) (Nat.pos_of_ne_zero h) := by
  have hexp : e + ((goal m e - e).toNat : ℤ) = goal m e := by omega
  rw [round_of_le_goal s h]
  simp only [roundWithAccuracy, shiftToTargetExponent_eq, hexp, mantissa_shiftRight]
  rfl

theorem rounded_bounds (m : ℕ) (e : ℤ) :
    let q := m / 2 ^ (goal m e - e).toNat
    q ≤ rounded m e ∧ rounded m e ≤ q + 1 := by
  intro q
  have hbounds := roundedMantissa_bounds
    ((⟨m, false, false⟩ : ExtendedMantissa) >>> (goal m e - e).toNat)
  rwa [mantissa_shiftRight] at hbounds

/-- Nothing may be left, the digits may fit, or going up has carried into a new one. -/
theorem round_cases (s : Sign) {m : ℕ} {e : ℤ} (hm : 0 < m) (h : e ≤ goal m e) :
    (rounded m e = 0 ∧ UnpackedFloat.round Format.binary32 s m e = .zero s) ∨
    (∃ hr : 0 < rounded m e, Fitted (rounded m e) (goal m e) ∧
      UnpackedFloat.round Format.binary32 s m e = .finite s (rounded m e) (goal m e) hr) ∨
    (rounded m e = 2 ^ 24 ∧ UnpackedFloat.round Format.binary32 s m e =
      .finite s (2 ^ 23) (goal m e + 1) (by decide)) := by
  obtain ⟨hupper, hlead⟩ := digits_lead hm h
  obtain ⟨hlower, hstep⟩ := rounded_bounds m e
  have hmin : -149 ≤ goal m e := by
    rw [goal_eq]
    exact le_max_right _ _
  rw [round_eq s h]
  dsimp only
  generalize rounded m e = r at hlower hstep
  rcases Nat.lt_or_ge r (2 ^ 24) with hfits | hcarry
  · have hzero : (goal r (goal m e) - goal m e).toNat = 0 := by
      have := goal_le hfits hmin
      omega
    rcases Nat.eq_zero_or_pos r with hr | hr
    · exact .inl ⟨hr, by simp [hr]⟩
    · refine .inr (.inl ⟨hr, ⟨hfits, hmin, by omega⟩, ?_⟩)
      simp [hzero, hr.ne']
  · have hone : (goal r (goal m e) - goal m e).toNat = 1 := by
      rw [goal_eq, show r = 2 ^ 24 by omega, Nat.log2_two_pow]
      omega
    have hhalf : r / 2 ^ 1 = 2 ^ 23 := by omega
    refine .inr (.inr ⟨by omega, ?_⟩)
    simp only [hone, hhalf]
    rfl

/-! ### Order -/

def place (r : ℕ) (g : ℤ) : ℤ ×ₗ ℤ ×ₗ ℤ :=
  if r = 0 then toLex (0, toLex (0, 0))
  else if r < 2 ^ 24 then toLex (1, toLex (g, (r : ℤ)))
  else toLex (1, toLex (g + 1, 2 ^ 23))

theorem place_mono {r r' : ℕ} {g g' : ℤ} (hr : r ≤ 2 ^ 24)
    (h : g = g' ∧ r ≤ r' ∨ g < g' ∧ 2 ^ 23 ≤ r') : place r g ≤ place r' g' := by
  unfold place
  split_ifs <;> simp [Prod.Lex.le_iff] <;> omega

variable {m n : ℕ} {e f : ℤ}

theorem settled_round_of_le_goal (hm : 0 < m) (h : e ≤ goal m e) :
    Settled (UnpackedFloat.round Format.binary32 .positive m e) := by
  obtain ⟨-, hround⟩ | ⟨hr, hfit, hround⟩ | ⟨-, hround⟩ := round_cases .positive hm h
  · exact .inl ⟨_, hround⟩
  · exact .inr ⟨_, _, hr, hfit, hround⟩
  · have hmin := goal_eq m e
    exact .inr ⟨_, _, _, ⟨by decide, by omega, .inl le_rfl⟩, hround⟩

theorem rank_round (hm : 0 < m) (h : e ≤ goal m e) :
    rank (UnpackedFloat.round Format.binary32 .positive m e) =
      some (place (rounded m e) (goal m e)) := by
  obtain ⟨hr, hround⟩ | ⟨hr, ⟨hfits, -, -⟩, hround⟩ | ⟨hr, hround⟩ := round_cases .positive hm h
  · rw [hround, rank_zero, place, if_pos hr]
  · rw [hround, place, if_neg hr.ne', if_pos hfits]
    rfl
  · rw [hround, place, hr]
    rfl

theorem round_mono_of_le_goal (hm : 0 < m) (hmn : m ≤ n) (h : e ≤ goal m e) :
    AtMost (UnpackedFloat.round Format.binary32 .positive m e)
      (UnpackedFloat.round Format.binary32 .positive n e) := by
  have hlog : m.log2 ≤ n.log2 :=
    (Nat.le_log2 (hm.trans_le hmn).ne').mpr ((Nat.log2_self_le hm.ne').trans hmn)
  have hgoal : goal m e ≤ goal n e := by
    rw [goal_eq, goal_eq]
    omega
  have hn : 0 < n := hm.trans_le hmn
  obtain ⟨hupper, -⟩ := digits_lead hm h
  obtain ⟨-, hlead⟩ := digits_lead hn (h.trans hgoal)
  have hbounds := rounded_bounds m e
  have hbounds' := rounded_bounds n e
  refine ⟨_, rank_round hm h, _, rank_round hn (h.trans hgoal), place_mono (by omega) ?_⟩
  rcases hgoal.lt_or_eq with hlower | hsame
  · have := goal_eq m e
    exact .inr ⟨hlower, by omega⟩
  · refine .inl ⟨hsame, ?_⟩
    rw [rounded, rounded, ← hsame]
    exact roundedMantissa_mono (digits_shiftRight (by simpa [digits] using hmn) _)

theorem shiftRight_mul_two_pow (m k n : ℕ) :
    (⟨m * 2 ^ k, false, false⟩ : ExtendedMantissa) >>> (n + k) =
      (⟨m, false, false⟩ : ExtendedMantissa) >>> n := by
  induction n with
  | zero =>
    change (0 + k).repeat ExtendedMantissa.shiftRightOne _ = ⟨m, false, false⟩
    rw [Nat.zero_add]
    induction k generalizing m with
    | zero => simp [Nat.repeat]
    | succ k ih =>
      rw [show m * 2 ^ (k + 1) = m * 2 * 2 ^ k by ring, Nat.repeat, ih]
      simp [ExtendedMantissa.shiftRightOne]
  | succ n ih =>
    rw [show n + 1 + k = n + k + 1 by omega]
    exact congrArg ExtendedMantissa.shiftRightOne ih

theorem log2_mul_two_pow {m : ℕ} (hm : 0 < m) (k : ℕ) : (m * 2 ^ k).log2 = m.log2 + k := by
  refine (Nat.log2_eq_iff (Nat.mul_pos hm (Nat.two_pow_pos k)).ne').mpr ⟨?_, ?_⟩
  · rw [Nat.pow_add]
    exact Nat.mul_le_mul_right _ (Nat.log2_self_le hm.ne')
  · rw [show m.log2 + k + 1 = m.log2 + 1 + k by omega, Nat.pow_add]
    exact (Nat.mul_lt_mul_right (Nat.two_pow_pos k)).mpr Nat.lt_log2_self

theorem round_of_goal_le (s : Sign) {m : ℕ} {e : ℤ} (hm : 0 < m) (h : goal m e ≤ e) :
    goal (m * 2 ^ (e - goal m e).toNat) (goal m e) = goal m e ∧
      UnpackedFloat.round Format.binary32 s m e =
        UnpackedFloat.round Format.binary32 s (m * 2 ^ (e - goal m e).toNat) (goal m e) := by
  have hgoal : goal (m * 2 ^ (e - goal m e).toNat) (goal m e) = goal m e := by
    rw [goal_eq (m * _), log2_mul_two_pow hm, goal_eq m e]
    have := goal_eq m e
    omega
  have hexp : e - ((e - goal m e).toNat : ℤ) = goal m e := by omega
  refine ⟨hgoal, ?_⟩
  simp only [UnpackedFloat.round, decreaseExponent]
  change roundWithAccuracy _ s (m <<< (e - goal m e).toNat) (e - (e - goal m e).toNat) _ =
    roundWithAccuracy _ s (_ <<< (goal m e - goal _ (goal m e)).toNat)
      (goal m e - (goal m e - goal _ (goal m e)).toNat) _
  rw [hgoal, hexp, Nat.shiftLeft_eq]
  simp

theorem goal_scale (hm : 0 < m) (k : ℕ) : goal (m * 2 ^ k) (e - k) = goal m e := by
  rw [goal_eq, goal_eq, log2_mul_two_pow hm]
  omega

theorem round_scale_of_le_goal (hm : 0 < m) (h : e ≤ goal m e) (k : ℕ) :
    UnpackedFloat.round Format.binary32 .positive (m * 2 ^ k) (e - k) =
      UnpackedFloat.round Format.binary32 .positive m e := by
  have hrounded : rounded (m * 2 ^ k) (e - k) = rounded m e := by
    rw [rounded, rounded, goal_scale hm,
      show (goal m e - (e - k)).toNat = (goal m e - e).toNat + k by omega, shiftRight_mul_two_pow]
  have h' : e - k ≤ goal (m * 2 ^ k) (e - k) := by
    rw [goal_scale hm]
    omega
  rw [round_eq _ h, round_eq _ h']
  simp only [hrounded, goal_scale hm]

theorem round_scale (hm : 0 < m) (k : ℕ) :
    UnpackedFloat.round Format.binary32 .positive (m * 2 ^ k) (e - k) =
      UnpackedFloat.round Format.binary32 .positive m e := by
  rcases le_or_gt e (goal m e) with h | hroom
  · exact round_scale_of_le_goal hm h k
  obtain ⟨hgoal, hround⟩ := round_of_goal_le .positive hm hroom.le
  have hm' : 0 < m * 2 ^ k := Nat.mul_pos hm (Nat.two_pow_pos k)
  rw [hround]
  rcases le_or_gt (goal m e) (e - k) with hshort | hlong
  · obtain ⟨-, hround'⟩ := round_of_goal_le .positive hm' (by rwa [goal_scale hm])
    rw [hround', goal_scale hm, Nat.mul_assoc, ← Nat.pow_add,
      show k + (e - k - goal m e).toNat = (e - goal m e).toNat by omega]
  · rw [← round_scale_of_le_goal (Nat.mul_pos hm (Nat.two_pow_pos _)) hgoal.ge
        (k - (e - goal m e).toNat),
      Nat.mul_assoc, ← Nat.pow_add,
      show (e - goal m e).toNat + (k - (e - goal m e).toNat) = k by omega,
      show goal m e - ((k - (e - goal m e).toNat : ℕ) : ℤ) = e - k by omega]

/-- Rounding keeps the order. -/
theorem round_mono (hm : 0 < m) (hmn : m ≤ n) :
    AtMost (UnpackedFloat.round Format.binary32 .positive m e)
      (UnpackedFloat.round Format.binary32 .positive n e) := by
  have hmin := goal_eq (m * 2 ^ (e + 149).toNat) (e - (e + 149).toNat)
  rw [← round_scale hm (e + 149).toNat, ← round_scale (hm.trans_le hmn) (e + 149).toNat]
  exact round_mono_of_le_goal (Nat.mul_pos hm (Nat.two_pow_pos _)) (Nat.mul_le_mul_right _ hmn)
    (by omega)

theorem settled_round (hm : 0 < m) :
    Settled (UnpackedFloat.round Format.binary32 .positive m e) := by
  have hmin := goal_eq (m * 2 ^ (e + 149).toNat) (e - (e + 149).toNat)
  rw [← round_scale hm (e + 149).toNat]
  exact settled_round_of_le_goal (Nat.mul_pos hm (Nat.two_pow_pos _)) (by omega)

theorem round_of_fitted (hm : 0 < m) (h : Fitted m e) :
    UnpackedFloat.round Format.binary32 .positive m e = .finite .positive m e hm := by
  obtain ⟨hupper, hmin, hlead⟩ := h
  have hgoal : goal m e = e := by
    have hle := goal_le hupper hmin
    have hlog (hlead : 2 ^ 23 ≤ m) : 23 ≤ m.log2 := (Nat.le_log2 hm.ne').mpr hlead
    rw [goal_eq] at hle ⊢
    omega
  have hrounded : rounded m e = m := by
    rw [rounded, hgoal, sub_self]
    rfl
  obtain ⟨hzero, -⟩ | ⟨hr, -, hround⟩ | ⟨hcarry, -⟩ := round_cases .positive hm hgoal.ge
  · omega
  · simp only [hrounded, hgoal] at hround
    exact hround
  · omega

variable {m₀ : ℕ} {e₀ : ℤ}

theorem le_round (hm₀ : 0 < m₀) (h : Fitted m₀ e₀) (hle : e ≤ e₀)
    (hm : m₀ * 2 ^ (e₀ - e).toNat ≤ m) :
    AtMost (.finite .positive m₀ e₀ hm₀) (UnpackedFloat.round Format.binary32 .positive m e) := by
  rw [← round_of_fitted hm₀ h, ← round_scale hm₀ (e₀ - e).toNat,
    show e₀ - ((e₀ - e).toNat : ℤ) = e by omega]
  exact round_mono (Nat.mul_pos hm₀ (Nat.two_pow_pos _)) hm

theorem round_le (hm₀ : 0 < m₀) (h : Fitted m₀ e₀) (hle : e ≤ e₀) (hpos : 0 < m)
    (hm : m ≤ m₀ * 2 ^ (e₀ - e).toNat) :
    AtMost (UnpackedFloat.round Format.binary32 .positive m e) (.finite .positive m₀ e₀ hm₀) := by
  rw [← round_of_fitted hm₀ h, ← round_scale hm₀ (e₀ - e).toNat,
    show e₀ - ((e₀ - e).toNat : ℤ) = e by omega]
  exact round_mono hpos hm

/-! ### Sums and products -/

theorem digits_le {E : ℤ} (h : Fitted m e) (h' : Fitted n f) (hE : E ≤ e) (hE' : E ≤ f)
    (hle : e < f ∨ e = f ∧ m ≤ n) : m * 2 ^ (e - E).toNat ≤ n * 2 ^ (f - E).toNat := by
  rcases hle with hlower | ⟨rfl, hle⟩
  · have hlead : 2 ^ 23 ≤ n := h'.2.2.resolve_right (by have := h.2.1; omega)
    calc m * 2 ^ (e - E).toNat
      _ ≤ 2 ^ 24 * 2 ^ (e - E).toNat := Nat.mul_le_mul_right _ h.1.le
      _ = 2 ^ 23 * 2 ^ ((e - E).toNat + 1) := by ring
      _ ≤ n * 2 ^ (f - E).toNat :=
        Nat.mul_le_mul hlead (Nat.pow_le_pow_right (by decide) (by omega))
  · exact Nat.mul_le_mul_right _ hle

theorem add_positive {m₁ m₂ : ℕ} {e₁ e₂ : ℤ} (h₁ : 0 < m₁) (h₂ : 0 < m₂) :
    UnpackedFloat.add Format.binary32 (.finite .positive m₁ e₁ h₁) (.finite .positive m₂ e₂ h₂) =
      UnpackedFloat.round Format.binary32 .positive
        (m₁ * 2 ^ (e₁ - min e₁ e₂).toNat + m₂ * 2 ^ (e₂ - min e₁ e₂).toNat) (min e₁ e₂) := by
  simp only [UnpackedFloat.add, decreaseExponent, Sign.apply, Nat.shiftLeft_eq, ← Nat.cast_add]
  set m := m₁ * 2 ^ (e₁ - min e₁ e₂).toNat + m₂ * 2 ^ (e₂ - min e₁ e₂).toNat with hm
  have hpos : 0 < m := Nat.add_pos_left (Nat.mul_pos h₁ (Nat.two_pow_pos _)) _
  have hgt : compare (m : ℤ) 0 = .gt := compare_gt_iff_gt.mpr (by omega)
  simp [UnpackedFloat.normalize, hgt]

theorem add_positive_at {E : ℤ} (hm : 0 < m) (hn : 0 < n) (hE : E ≤ e) (hE' : E ≤ f) :
    UnpackedFloat.add Format.binary32 (.finite .positive m e hm) (.finite .positive n f hn) =
      UnpackedFloat.round Format.binary32 .positive
        (m * 2 ^ (e - E).toNat + n * 2 ^ (f - E).toNat) E := by
  have hpos : 0 < m * 2 ^ (e - min e f).toNat + n * 2 ^ (f - min e f).toNat :=
    Nat.add_pos_left (Nat.mul_pos hm (Nat.two_pow_pos _)) _
  rw [add_positive, ← round_scale hpos (min e f - E).toNat, Nat.add_mul, Nat.mul_assoc,
    Nat.mul_assoc, ← Nat.pow_add, ← Nat.pow_add,
    show (e - min e f).toNat + (min e f - E).toNat = (e - E).toNat by omega,
    show (f - min e f).toNat + (min e f - E).toNat = (f - E).toNat by omega,
    show min e f - ((min e f - E).toNat : ℤ) = E by omega]

theorem mul_positive (h : Fitted m e) (h' : Fitted n f) (hm : 0 < m) (hn : 0 < n) :
    UnpackedFloat.mul Format.binary32 (.finite .positive m e hm) (.finite .positive n f hn) =
      UnpackedFloat.round Format.binary32 .positive (m * n) (e + f) := by
  obtain ⟨-, hmin, hlead⟩ := h
  obtain ⟨-, hmin', hlead'⟩ := h'
  have hgoal : e + f ≤ goal (m * n) (e + f) := by
    have hlog (hlead : 2 ^ 23 ≤ m * n) : 23 ≤ (m * n).log2 :=
      (Nat.le_log2 (Nat.mul_pos hm hn).ne').mpr hlead
    rw [goal_eq]
    rcases hlead with hlead | rfl
    · have := hlog (hlead.trans (Nat.le_mul_of_pos_right m hn))
      omega
    · rcases hlead' with hlead' | rfl
      · have := hlog (hlead'.trans (Nat.le_mul_of_pos_left n hm))
        omega
      · omega
  rw [round_of_le_goal .positive hgoal]
  rfl

end TickTree.Seconds
