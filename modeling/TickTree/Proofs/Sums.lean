import TickTree.Proofs.Amounts
/-! Sums, differences and products keep the order of amounts. The clock, which is kept in single
precision and rounds to the nearest, never runs backwards. -/
namespace TickTree.Seconds

open Float.Model (Format UnpackedFloat totalExponent)
open Float.Model.UnpackedFloat

variable {x y d c : Float32} {m n : ℕ} {e f : ℤ}

theorem settled_of_unpack {hm : 0 < m} (h : x.toModel.unpack = .finite .positive m e hm) :
    Settled (.finite .positive m e hm) := .inr ⟨m, e, hm, fitted_of_unpack h, rfl⟩

theorem rank_of_zero {s : Sign} (h : x.toModel.unpack = .zero s) :
    rank x.toModel.unpack = rank (0 : Float32).toModel.unpack := by
  rw [h, unpack_zero, rank_zero, rank_zero]

/-- Adding nothing changes no more than the sign of a zero. -/
theorem rank_add_zero {s : Sign} (hx : 0 ≤ x) (hy : y.toModel.unpack = .zero s) :
    rank (x + y).toModel.unpack = rank x.toModel.unpack ∧
      rank (y + x).toModel.unpack = rank x.toModel.unpack := by
  rw [unpack_add, unpack_add, hy]
  obtain ⟨t, hx'⟩ | ⟨m, e, hm, hx'⟩ | hx' := cases_of_nonneg hx
  · rw [hx']
    cases s <;> cases t <;> exact ⟨rfl, rfl⟩
  · have hadd : UnpackedFloat.add Format.binary32 x.toModel.unpack (.zero s) = x.toModel.unpack ∧
        UnpackedFloat.add Format.binary32 (.zero s) x.toModel.unpack = x.toModel.unpack := by
      rw [hx']
      exact ⟨rfl, rfl⟩
    rw [hadd.1, hadd.2]
    exact ⟨congrArg rank (unpack_pack_unpack _), congrArg rank (unpack_pack_unpack _)⟩
  · rw [hx']
    cases s <;> exact ⟨rfl, rfl⟩

theorem le_of_atMost {u v : UnpackedFloat} (hu : Settled u) (hv : Settled v) (h : AtMost u v)
    (hx : x.toModel.unpack = unpack Format.binary32 (pack Format.binary32 u))
    (hy : y.toModel.unpack = unpack Format.binary32 (pack Format.binary32 v)) : x ≤ y := by
  rw [le_iff, hx, hy]
  exact pack_mono hu hv h

theorem unpack_pack_self {u : UnpackedFloat} (h : x.toModel.unpack = u) :
    x.toModel.unpack = unpack Format.binary32 (pack Format.binary32 u) := by
  rw [← h]
  exact (unpack_pack_unpack _).symm

/-- A clock that has started does not run backwards, not even by rounding. -/
theorem le_add (hx : 0 ≤ x) (hd : Span d) : x ≤ x + d := by
  obtain ⟨s, hd'⟩ | ⟨n, f, hn, hd'⟩ := cases_of_span hd
  · rw [le_iff, (rank_add_zero hx hd').1, ← le_iff]
    exact le_self (isNaN_of_nonneg hx)
  obtain ⟨s, hx'⟩ | ⟨m, e, hm, hx'⟩ | hx' := cases_of_nonneg hx
  · rw [le_iff, (rank_add_zero (nonneg_of_span hd) hx').2, rank_of_zero hx', ← le_iff]
    exact nonneg_of_span hd
  · have hsum := unpack_add x d
    rw [hx', hd', add_positive] at hsum
    have hpos : 0 < m * 2 ^ (e - min e f).toNat := Nat.mul_pos hm (Nat.two_pow_pos _)
    exact le_of_atMost (settled_of_unpack hx') (settled_round (Nat.add_pos_left hpos _))
      (le_round hm (fitted_of_unpack hx') (min_le_left e f) (Nat.le_add_right _ _))
      (unpack_pack_self hx') hsum
  · have hadd : UnpackedFloat.add Format.binary32 (.infinity .positive)
        (.finite .positive n f hn) = .infinity .positive := rfl
    rw [le_iff, unpack_add, hx', hd', hadd]
    exact ⟨_, rfl, _, rfl, le_rfl⟩

theorem nonneg_add (hx : 0 ≤ x) (hd : Span d) : 0 ≤ x + d :=
  le_trans hx (le_add hx hd)

theorem finite_of_le {hm : 0 < m} (hx : x.toModel.unpack = .finite .positive m e hm) (hy : Span y)
    (h : x ≤ y) : ∃ n f, ∃ hn : 0 < n, y.toModel.unpack = .finite .positive n f hn ∧
      (e < f ∨ e = f ∧ m ≤ n) := by
  obtain ⟨a, ha, b, hb, hab⟩ := le_iff.mp h
  rw [hx] at ha
  obtain rfl := Option.mem_some_iff.mp ha
  obtain ⟨t, hy'⟩ | ⟨n, f, hn, hy'⟩ := cases_of_span hy
  · rw [hy', rank_zero] at hb
    obtain rfl := Option.mem_some_iff.mp hb
    simp [Prod.Lex.le_iff] at hab
  · rw [hy'] at hb
    obtain rfl := Option.mem_some_iff.mp hb
    exact ⟨n, f, hn, hy', by simpa [Prod.Lex.le_iff] using hab⟩

theorem add_le_add_left (hd : Span d) (hx : Span x) (hy : Span y) (h : x ≤ y) :
    d + x ≤ d + y := by
  obtain ⟨s, hx'⟩ | ⟨m, e, hm, hx'⟩ := cases_of_span hx
  · rw [le_iff, (rank_add_zero (nonneg_of_span hd) hx').1, ← le_iff]
    exact le_add (nonneg_of_span hd) hy
  obtain ⟨n, f, hn, hy', hless⟩ := finite_of_le hx' hy h
  obtain ⟨s, hd'⟩ | ⟨k, g, hk, hd'⟩ := cases_of_span hd
  · rwa [le_iff, (rank_add_zero (nonneg_of_span hx) hd').2,
      (rank_add_zero (nonneg_of_span hy) hd').2, ← le_iff]
  · -- the digits of all three, from the lowest exponent on
    have hE : min g (min e f) ≤ e := (min_le_right _ _).trans (min_le_left _ _)
    have hE' : min g (min e f) ≤ f := (min_le_right _ _).trans (min_le_right _ _)
    have hdigits := digits_le (fitted_of_unpack hx') (fitted_of_unpack hy') hE hE' hless
    have hpos (k' : ℕ) : 0 < k * 2 ^ (g - min g (min e f)).toNat + k' :=
      Nat.add_pos_left (Nat.mul_pos hk (Nat.two_pow_pos _)) _
    rw [le_iff, unpack_add, unpack_add, hd', hx', hy',
      add_positive_at hk hm (min_le_left _ _) hE, add_positive_at hk hn (min_le_left _ _) hE']
    exact pack_mono (settled_round (hpos _)) (settled_round (hpos _))
      (round_mono (hpos _) (Nat.add_le_add_left hdigits _))

theorem unpack_add_comm (hx : Span x) (hy : Span y) :
    (x + y).toModel.unpack = (y + x).toModel.unpack := by
  rw [unpack_add, unpack_add]
  obtain ⟨s, hx'⟩ | ⟨m, e, hm, hx'⟩ := cases_of_span hx <;>
    obtain ⟨t, hy'⟩ | ⟨n, f, hn, hy'⟩ := cases_of_span hy <;> rw [hx', hy']
  · cases s <;> cases t <;> rfl
  · cases s <;> rfl
  · cases t <;> rfl
  · rw [add_positive, add_positive, Nat.add_comm, min_comm]

theorem le_add_left (hx : Span x) (hd : Span d) : d ≤ x + d := by
  rw [le_iff, unpack_add_comm hx hd, ← le_iff]
  exact le_add (nonneg_of_span hd) hx

theorem add_le_add_right (hd : Span d) (hx : Span x) (hy : Span y) (h : x ≤ y) :
    x + d ≤ y + d := by
  rw [le_iff, unpack_add_comm hx hd, unpack_add_comm hy hd, ← le_iff]
  exact add_le_add_left hd hx hy h

theorem unpack_mul_zero (hx : Span x) (hy : Span y)
    (h : (∃ s, x.toModel.unpack = .zero s) ∨ ∃ s, y.toModel.unpack = .zero s) :
    ∃ s, (x * y).toModel.unpack = .zero s := by
  rw [unpack_mul]
  obtain ⟨s, hx'⟩ | ⟨s, hy'⟩ := h
  · obtain ⟨t, hy'⟩ | ⟨n, f, hn, hy'⟩ := cases_of_span hy <;> rw [hx', hy'] <;>
      exact ⟨_, unpack_pack_zero _⟩
  · obtain ⟨t, hx'⟩ | ⟨m, e, hm, hx'⟩ := cases_of_span hx <;> rw [hx', hy'] <;>
      exact ⟨_, unpack_pack_zero _⟩

theorem mul_le_mul_left (hc : Span c) (hx : Span x) (hy : Span y) (h : x ≤ y) :
    c * x ≤ c * y := by
  have hzero (hcx : ∃ s, (c * x).toModel.unpack = .zero s) : c * x ≤ c * y := by
    obtain ⟨s, hcx⟩ := hcx
    rw [le_iff, rank_of_zero hcx, ← le_iff]
    exact nonneg_mul_of_span hc hy
  obtain hx' | ⟨m, e, hm, hx'⟩ := cases_of_span hx
  · exact hzero (unpack_mul_zero hc hx (.inr hx'))
  obtain ⟨n, f, hn, hy', hless⟩ := finite_of_le hx' hy h
  obtain hc' | ⟨k, g, hk, hc'⟩ := cases_of_span hc
  · exact hzero (unpack_mul_zero hc hx (.inl hc'))
  · have hdigits := digits_le (fitted_of_unpack hx') (fitted_of_unpack hy') (min_le_left e f)
      (min_le_right e f) hless
    have hpos {l : ℕ} (hl : 0 < l) (j : ℕ) : 0 < k * (l * 2 ^ j) :=
      Nat.mul_pos hk (Nat.mul_pos hl (Nat.two_pow_pos j))
    have hscale {l : ℕ} {i : ℤ} (hl : 0 < l) (hi : min e f ≤ i) :
        UnpackedFloat.round Format.binary32 .positive (k * l) (g + i) =
          UnpackedFloat.round Format.binary32 .positive (k * (l * 2 ^ (i - min e f).toNat))
            (g + min e f) := by
      rw [← round_scale (Nat.mul_pos hk hl) (i - min e f).toNat, Nat.mul_assoc,
        show g + i - ((i - min e f).toNat : ℤ) = g + min e f by omega]
    rw [le_iff, unpack_mul, unpack_mul, hc', hx', hy',
      mul_positive (fitted_of_unpack hc') (fitted_of_unpack hx') hk hm,
      mul_positive (fitted_of_unpack hc') (fitted_of_unpack hy') hk hn,
      hscale hm (min_le_left e f), hscale hn (min_le_right e f)]
    exact pack_mono (settled_round (hpos hm _)) (settled_round (hpos hn _))
      (round_mono (hpos hm _) (Nat.mul_le_mul_left k hdigits))

theorem unpack_mul_comm (hx : Span x) (hy : Span y) :
    (x * y).toModel.unpack = (y * x).toModel.unpack := by
  rw [unpack_mul, unpack_mul]
  obtain ⟨s, hx'⟩ | ⟨m, e, hm, hx'⟩ := cases_of_span hx <;>
    obtain ⟨t, hy'⟩ | ⟨n, f, hn, hy'⟩ := cases_of_span hy <;> rw [hx', hy']
  · cases s <;> cases t <;> rfl
  · cases s <;> rfl
  · cases t <;> rfl
  · rw [UnpackedFloat.mul, UnpackedFloat.mul, Nat.mul_comm, Int.add_comm]

theorem sub_positive {m₁ m₂ : ℕ} {e₁ e₂ : ℤ} (h₁ : 0 < m₁) (h₂ : 0 < m₂) :
    let u := UnpackedFloat.sub Format.binary32 (.finite .positive m₁ e₁ h₁)
      (.finite .positive m₂ e₂ h₂)
    Signed .negative u ∨ ∃ m, 0 < m ∧ m < m₁ * 2 ^ (e₁ - min e₁ e₂).toNat ∧
      u = UnpackedFloat.round Format.binary32 .positive m (min e₁ e₂) := by
  have htaken : 0 < m₂ * 2 ^ (e₂ - min e₁ e₂).toNat := Nat.mul_pos h₂ (Nat.two_pow_pos _)
  simp only [UnpackedFloat.sub, decreaseExponent, Sign.apply, Nat.shiftLeft_eq,
    UnpackedFloat.normalize]
  generalize m₁ * 2 ^ (e₁ - min e₁ e₂).toNat = a
  generalize m₂ * 2 ^ (e₂ - min e₁ e₂).toNat = b at htaken
  split
  · exact .inl (signed_round _ _ _ _ _)
  · exact .inl trivial
  · next hgt =>
    have hgt := compare_gt_iff_gt.mp hgt
    exact .inr ⟨((a : ℤ) - b).toNat, by omega, by omega, rfl⟩

theorem sub_le (hx : Span x) (hy : 0 ≤ y) (hpos : 0 < x - y) : x - y ≤ x := by
  have hunpack : (x - y).toModel.unpack = unpack Format.binary32 (pack Format.binary32
    (UnpackedFloat.sub Format.binary32 x.toModel.unpack y.toModel.unpack)) := rfl
  have hpositive : ¬ Signed .negative
      (UnpackedFloat.sub Format.binary32 x.toModel.unpack y.toModel.unpack) := fun h =>
    not_pos_of_negative (by rw [hunpack]; exact signed_pack h) hpos
  obtain ⟨s, hx'⟩ | ⟨m, e, hm, hx'⟩ := cases_of_span hx
  · refine absurd ?_ hpositive
    obtain ⟨t, hy'⟩ | ⟨n, f, hn, hy'⟩ | hy' := cases_of_nonneg hy <;> rw [hx', hy']
    · cases s <;> cases t <;> trivial
    · rfl
    · rfl
  obtain ⟨t, hy'⟩ | ⟨n, f, hn, hy'⟩ | hy' := cases_of_nonneg hy
  · have hsub : UnpackedFloat.sub Format.binary32 x.toModel.unpack y.toModel.unpack =
        x.toModel.unpack := by
      rw [hx', hy']
      rfl
    rw [le_iff, hunpack, hsub, ← unpack_pack_self rfl, ← le_iff]
    exact le_self (isNaN_of_nonneg (nonneg_of_span hx))
  · obtain h | ⟨k, hk, hlt, hround⟩ := sub_positive hm hn
    · exact absurd (by rw [hx', hy']; exact h) hpositive
    · rw [hx', hy', hround] at hunpack
      exact le_of_atMost (settled_round hk) (settled_of_unpack hx')
        (round_le hm (fitted_of_unpack hx') (min_le_left e f) hk hlt.le) hunpack
        (unpack_pack_self hx')
  · refine absurd ?_ hpositive
    rw [hx', hy']
    rfl

end TickTree.Seconds
