import TickTree.Proofs.Sums
/-! Adding the same time again and again. In single precision the sums get to every limit only if
they climb, which they stop to do where the time is too short to make a difference. -/
namespace TickTree.Seconds

open Float.Model (Format UnpackedFloat totalExponent)
open Float.Model.UnpackedFloat

/-- What `n` times `d` add up to from `x` on, added one after the other. -/
def sum (x d : Float32) (n : ℕ) : Float32 := (· + d)^[n] x

/-- Short of the limit, the next time makes the sum greater. -/
def Climbs (x d limit : Float32) : Prop :=
  ∀ n, ¬ limit ≤ sum x d (n + 1) → sum x d (n + 1) < sum x d (n + 2)

section Sums
variable {x y z d limit : Float32}

@[simp] theorem sum_zero (x d : Float32) : sum x d 0 = x := rfl

theorem sum_succ (x d : Float32) (n : ℕ) : sum x d (n + 1) = sum x d n + d :=
  Function.iterate_succ_apply' _ n x

theorem sum_add (x d : Float32) (m n : ℕ) : sum x d (m + n) = sum (sum x d m) d n := by
  rw [Nat.add_comm]
  exact Function.iterate_add_apply _ n m x

theorem nonneg_sum (hx : 0 ≤ x) (hd : Span d) (n : ℕ) : 0 ≤ sum x d n := by
  induction n with
  | zero => exact hx
  | succ n ih =>
    rw [sum_succ]
    exact nonneg_add ih hd

instance irrefl_lt : Std.Irrefl (α := Float32) (· < ·) where
  irrefl x h := by
    obtain ⟨a, ha, b, hb, hab⟩ := lt_iff.mp h
    obtain rfl : a = b := Option.some.inj (ha.symm.trans hb)
    exact hab.false

instance isTrans_lt : IsTrans Float32 (· < ·) where
  trans x y z h h' := by
    obtain ⟨a, ha, b, hb, hab⟩ := lt_iff.mp h
    obtain ⟨b', hb', c, hc, hbc⟩ := lt_iff.mp h'
    obtain rfl : b = b' := Option.some.inj (hb.symm.trans hb')
    exact lt_iff.mpr ⟨a, ha, c, hc, hab.trans hbc⟩

theorem lt_of_not_le (hx : 0 ≤ x) (hy : y ≤ z) (h : ¬ y ≤ x) : x < y := by
  obtain ⟨-, -, a, ha, -⟩ := le_iff.mp hx
  obtain ⟨b, hb, -⟩ := le_iff.mp hy
  refine lt_iff.mpr ⟨a, ha, b, hb, lt_of_not_ge fun hba => h ?_⟩
  exact le_iff.mpr ⟨b, hb, a, ha, hba⟩

instance finite_float32 : Finite Float32 :=
  Finite.of_injective (fun x : Float32 => x.toModel.toBits.toBitVec) fun x y h => by
    obtain ⟨⟨b, hb⟩⟩ := x
    obtain ⟨⟨c, hc⟩⟩ := y
    obtain rfl : b = c := UInt32.toBitVec_inj.mp h
    rfl

/-- What climbs gets to the limit, as there are only so many numbers. -/
theorem Climbs.reaches (h : Climbs x d limit) :
    ∃ n, limit ≤ sum x d (n + 1) ∧ ∀ m < n, ¬ limit ≤ sum x d (m + 1) := by
  classical
  suffices hreached : ∃ n, limit ≤ sum x d (n + 1) from
    ⟨Nat.find hreached, Nat.find_spec hreached, fun _ hm => Nat.find_min hreached hm⟩
  by_contra hshort
  have hstep : ∀ n, sum x d (n + 1) < sum x d (n + 2) := fun n =>
    h n fun hn => hshort ⟨n, hn⟩
  have hinjective : Function.Injective fun n => sum x d (n + 1) :=
    injective_of_increasing (· < ·) (· < ·) _ fun h =>
      Nat.rel_of_forall_rel_succ_of_lt (· < ·) hstep h
  exact not_injective_infinite_finite _ hinjective

theorem exists_next {m : ℕ} {e E : ℤ} (h : Fitted m e) (hE : E ≤ e) :
    ∃ m' e', ∃ _ : 0 < m', Fitted m' e' ∧ E ≤ e' ∧ (e < e' ∨ e = e' ∧ m < m') ∧
      m' * 2 ^ (e' - E).toNat = (m + 1) * 2 ^ (e - E).toNat := by
  obtain ⟨hupper, hmin, hlead⟩ := h
  rcases Nat.lt_or_ge (m + 1) (2 ^ 24) with hfits | hcarry
  · exact ⟨m + 1, e, Nat.succ_pos m, ⟨hfits, hmin, by omega⟩, hE, .inr ⟨rfl, Nat.lt_succ_self m⟩,
      rfl⟩
  · refine ⟨2 ^ 23, e + 1, by decide, ⟨by decide, by omega, .inl le_rfl⟩, by omega,
      .inl (Int.lt_succ e), ?_⟩
    rw [show m + 1 = 2 ^ 23 * 2 by omega,
      show (e + 1 - E).toNat = 1 + (e - E).toNat by omega, Nat.pow_add, Nat.pow_one, Nat.mul_assoc]

/-- A time that is added to a number of no higher place than its own makes the number greater. -/
theorem rank_lt_add {m n : ℕ} {e f : ℤ} {hm : 0 < m} {hn : 0 < n}
    (hy : y.toModel.unpack = .finite .positive m e hm)
    (hd : d.toModel.unpack = .finite .positive n f hn) (hplace : e ≤ n.log2 + f) : y < y + d := by
  -- the sum, before it is rounded, is not below the number that follows
  have hunit : 2 ^ (e - min e f).toNat ≤ n * 2 ^ (f - min e f).toNat :=
    calc 2 ^ (e - min e f).toNat
      _ ≤ 2 ^ (n.log2 + (f - min e f).toNat) := Nat.pow_le_pow_right (by omega) (by omega)
      _ = 2 ^ n.log2 * 2 ^ (f - min e f).toNat := Nat.pow_add ..
      _ ≤ n * 2 ^ (f - min e f).toNat := Nat.mul_le_mul_right _ (Nat.log2_self_le hn.ne')
  have hsum : (m + 1) * 2 ^ (e - min e f).toNat ≤
      m * 2 ^ (e - min e f).toNat + n * 2 ^ (f - min e f).toNat := by
    rw [Nat.succ_mul]
    exact Nat.add_le_add_left hunit _
  have hpos : 0 < m * 2 ^ (e - min e f).toNat + n * 2 ^ (f - min e f).toNat :=
    Nat.add_pos_left (Nat.mul_pos hm (Nat.two_pow_pos _)) _
  obtain ⟨m', e', hm', hfit, hE, hless, hnext⟩ :=
    exists_next (fitted_of_unpack hy) (min_le_left e f)
  obtain ⟨a, ha, b, hb, hab⟩ :=
    (le_round hm' hfit hE (hnext.trans_le hsum)).trans (le_pack (settled_round hpos))
  obtain rfl := Option.mem_some_iff.mp ha
  have hrank : toLex ((1 : ℤ), toLex (e, (m : ℤ))) < toLex (1, toLex (e', (m' : ℤ))) := by
    simpa [Prod.Lex.lt_iff] using hless
  rw [lt_iff, unpack_add, hy, hd, add_positive]
  exact ⟨_, rfl, b, hb, hrank.trans_le hab⟩

theorem place_le {m n : ℕ} {e f : ℤ} {hm : 0 < m} {hn : 0 < n}
    (hy : y.toModel.unpack = .finite .positive m e hm)
    (hd : d.toModel.unpack = .finite .positive n f hn) (h : y < 8388608 * d) :
    e ≤ n.log2 + f := by
  have hfit : Fitted m e := fitted_of_unpack hy
  have hfit' : Fitted n f := fitted_of_unpack hd
  by_contra hgt
  have hlead := hfit.2.2
  have hdigits : 2 ^ 23 * n ≤ m * 2 ^ (e - f).toNat := by
    have hpow : 2 ^ (n.log2 + 1) ≤ 2 ^ (e - f).toNat :=
      Nat.pow_le_pow_right (by decide) (by omega)
    have hmin' := hfit'.2.1
    exact Nat.mul_le_mul (by omega) (Nat.lt_log2_self.le.trans hpow)
  have hpos : 0 < 2 ^ 23 * n := Nat.mul_pos (by decide) hn
  have hfactor : (8388608 : Float32).toModel.unpack = .finite .positive (2 ^ 23) 0 (by decide) := rfl
  have hproduct := unpack_mul 8388608 d
  rw [hfactor, hd, mul_positive ⟨by decide, by decide, .inl le_rfl⟩ hfit' _ hn, zero_add]
    at hproduct
  exact not_le_of_lt h (le_of_atMost (settled_round hpos) (settled_of_unpack hy)
    (round_le hm hfit (by omega) hpos hdigits) hproduct (unpack_pack_self hy))

/-- A limit that is no more than some eight million times away is climbed to. -/
theorem climbs_of_le (hx : 0 ≤ x) (hd : Span d) (hpos : 0 < d) (hlimit : limit ≤ 8388608 * d) :
    Climbs x d limit := by
  intro n hshort
  have hsum := nonneg_sum hx hd (n + 1)
  rw [sum_succ x d (n + 1)]
  generalize sum x d (n + 1) = y at hshort hsum
  obtain ⟨n, f, hn, hd'⟩ := finite_of_span hd hpos
  have hlt : y < limit := lt_of_not_le hsum hlimit hshort
  obtain ⟨s, hy⟩ | ⟨m, e, hm, hy⟩ | hy := cases_of_nonneg hsum
  · rwa [lt_iff, (rank_add_zero (nonneg_of_span hd) hy).2, rank_of_zero hy, ← lt_iff]
  · exact rank_lt_add hy hd' (place_le hy hd' (lt_of_lt_of_le hlt hlimit))
  · rw [lt_iff, hy] at hlt
    obtain ⟨a, ha, b, hb, hab⟩ := hlt
    obtain rfl := Option.mem_some_iff.mp ha
    exact absurd (rank_le_infinity hb) hab.not_ge

end Sums
end TickTree.Seconds
