import TickTree.Proofs.Firmness
import TickTree.Proofs.Sums
/-! Targets: a wait that can be made is over no sooner than its duration, and no later than its
duration and its variance together. -/
namespace TickTree.Seconds

open Float.Model (Format UnpackedFloat totalExponent)
open Float.Model.UnpackedFloat

section Bits
variable {b : BitVec Format.binary32.numBits}

theorem toNat_unpackExponent (b : BitVec Format.binary32.numBits) :
    (unpackExponent b).toNat = b.toNat / 2 ^ 23 % 2 ^ 8 := by
  rw [unpackExponent, BitVec.toNat_cast, BitVec.extractLsb_toNat, Nat.shiftRight_eq_div_pow]
  rfl

theorem toNat_unpackSign (b : BitVec Format.binary32.numBits) :
    (unpackSign b).toNat = b.toNat / 2 ^ 31 % 2 := by
  rw [unpackSign, BitVec.toNat_cast, BitVec.extractLsb_toNat, Nat.shiftRight_eq_div_pow]
  rfl

theorem toNat_unpackMantissa (b : BitVec Format.binary32.numBits) :
    (unpackMantissa b).toNat = b.toNat % 2 ^ 23 := by
  rw [unpackMantissa, BitVec.toNat_cast, BitVec.extractLsb_toNat, Nat.shiftRight_zero]
  rfl

/-- The bit patterns below that of infinity have no sign, and are not made of the greatest
exponent. -/
theorem toNat_lt_iff : b.toNat < 0x7f800000 ↔ unpackSign b = 0#1 ∧ unpackExponent b ≠ -1#8 := by
  have hb : b.toNat < 2 ^ 32 := b.isLt
  have hexp := toNat_unpackExponent b
  have hsign := toNat_unpackSign b
  constructor
  · intro h
    refine ⟨BitVec.eq_of_toNat_eq (hsign.trans ?_), fun hmax => ?_⟩
    · change _ = 0
      omega
    · have : (unpackExponent b).toNat = 255 := congrArg BitVec.toNat hmax
      omega
  · rintro ⟨hzero, hmax⟩
    have : (unpackSign b).toNat = 0 := congrArg BitVec.toNat hzero
    have : (unpackExponent b).toNat ≠ 255 := fun h => hmax (BitVec.eq_of_toNat_eq h)
    omega

theorem amount_of_toNat_lt (h : b.toNat < 0x7f800000) :
    Signed .positive (unpack Format.binary32 b) ∧ (unpack Format.binary32 b).isFinite = true := by
  obtain ⟨hsign, hexp⟩ := toNat_lt_iff.mp h
  rw [unpack]
  simp only [hsign, if_neg hexp]
  split
  · split <;> exact ⟨by trivial, rfl⟩
  · exact ⟨rfl, rfl⟩

theorem toNat_lt_of_finite (hsign : unpackSign b = 0#1)
    (h : (unpack Format.binary32 b).isFinite = true) : b.toNat < 0x7f800000 := by
  refine toNat_lt_iff.mpr ⟨hsign, fun hmax => ?_⟩
  rw [unpack] at h
  simp only [if_pos hmax] at h
  split at h <;> cases h

/-- Rounded quotients of numbers above zero have no sign, not even those that come out as zero. -/
theorem unpackSign_round (m : ℕ) (e : ℤ) (a : Accuracy) : unpackSign (pack Format.binary32
    (roundWithAccuracy Format.binary32 .positive m e a)) = 0#1 := by
  rw [roundWithAccuracy]
  dsimp only
  split
  · exact unpackSign_packComponents ..
  · rw [pack]
    dsimp only
    split
    · exact unpackSign_packComponents ..
    · split <;> exact unpackSign_packComponents ..

theorem unpack_one_add {k : ℕ} (hk : k < 2 ^ 23) (h : b.toNat = 0x3f800000 + k) :
    unpack Format.binary32 b = .finite .positive (2 ^ 23 + k) (-23) (by omega) := by
  obtain ⟨hsign, hmax⟩ := toNat_lt_iff.mp (by omega : b.toNat < 0x7f800000)
  have hexp : (unpackExponent b).toNat = 127 := by
    rw [toNat_unpackExponent]
    omega
  have hmant : (unpackMantissa b).toNat = k := by
    rw [toNat_unpackMantissa]
    omega
  have hne : unpackExponent b ≠ 0#8 := fun h => by
    have : (unpackExponent b).toNat = 0 := congrArg BitVec.toNat h
    omega
  rw [unpack]
  simp only [hsign, if_neg hmax, if_neg hne, toNat_one_append, hexp, hmant]
  rfl

theorem one_add_sub_one (k : ℕ) : UnpackedFloat.sub Format.binary32
    (.finite .positive (2 ^ 23 + k) (-23) (by omega)) (.finite .positive (2 ^ 23) (-23) (by decide)) =
      if 0 < k then UnpackedFloat.round Format.binary32 .positive k (-23) else .zero .positive := by
  rcases Nat.eq_zero_or_pos k with rfl | hk
  · rfl
  · have hgt : compare (k : ℤ) 0 = .gt := compare_gt_iff_gt.mpr (by omega)
    simp [UnpackedFloat.sub, decreaseExponent, Sign.apply, UnpackedFloat.normalize, hgt, hk]

theorem unpack_ofBits (w : UInt32) :
    (Float32.ofBits w).toModel.unpack = unpack Format.binary32 w.toBitVec :=
  unpack_pack_unpack _

theorem span_ofBits {n : ℕ} (h : n < 0x7f800000) : Span (Float32.ofBits n.toUInt32) := by
  have hn : n.toUInt32.toBitVec.toNat = n := Nat.mod_eq_of_lt (by omega : n < 2 ^ 32)
  obtain ⟨hsigned, hfinite⟩ := amount_of_toNat_lt (hn.trans_lt h)
  rw [← unpack_ofBits] at hsigned hfinite
  exact ⟨hfinite, fun hneg => not_le_of_lt hneg (nonneg_iff.mpr hsigned)⟩

end Bits
end TickTree.Seconds
namespace TickTree.Rng

open Float.Model (Format UnpackedFloat totalExponent)
open Float.Model.UnpackedFloat
open Seconds

theorem span_topFraction : Span topFraction := by decide +kernel

theorem unpack_topFraction : topFraction.toModel.unpack = unpack Format.binary32 (pack
    Format.binary32 (UnpackedFloat.round Format.binary32 .positive (2 ^ 23 - 1) (-23))) := rfl

theorem toNat_one_or (w : UInt32) :
    ((w >>> 9) ||| 0x3f800000).toBitVec.toNat = 0x3f800000 + w.toNat / 2 ^ 9 := by
  have hk : w.toNat / 2 ^ 9 < 2 ^ 23 := by
    have := w.toNat_lt
    omega
  have hadd := Nat.shiftLeft_add_eq_or_of_lt hk 127
  rw [UInt32.toNat_toBitVec, UInt32.toNat_or, UInt32.toNat_shiftRight, Nat.or_comm,
    Nat.shiftRight_eq_div_pow]
  exact hadd.symm

theorem unpack_fraction (w : UInt32) :
    (fraction w).toModel.unpack = unpack Format.binary32 (pack Format.binary32
      (if 0 < w.toNat / 2 ^ 9 then
        UnpackedFloat.round Format.binary32 .positive (w.toNat / 2 ^ 9) (-23)
      else .zero .positive)) := by
  have hk : w.toNat / 2 ^ 9 < 2 ^ 23 := by
    have := w.toNat_lt
    omega
  have hone : (1 : Float32).toModel.unpack = .finite .positive (2 ^ 23) (-23) (by decide) := rfl
  have hsub : (fraction w).toModel.unpack = unpack Format.binary32 (pack Format.binary32
      (UnpackedFloat.sub Format.binary32
        (Float32.ofBits ((w >>> 9) ||| 0x3f800000)).toModel.unpack
        (1 : Float32).toModel.unpack)) := rfl
  rw [hsub, unpack_ofBits, unpack_one_add hk (toNat_one_or w), hone, one_add_sub_one]

theorem fraction_bounds (w : UInt32) : Span (fraction w) ∧ fraction w ≤ topFraction := by
  have hk : w.toNat / 2 ^ 9 ≤ 2 ^ 23 - 1 := by
    have := w.toNat_lt
    omega
  have hsettled : Settled (UnpackedFloat.round Format.binary32 .positive (2 ^ 23 - 1) (-23)) :=
    settled_round (by decide)
  have hunpack := unpack_fraction w
  generalize w.toNat / 2 ^ 9 = k at hk hunpack
  have hle : 0 ≤ fraction w ∧ fraction w ≤ topFraction := by
    rw [nonneg_iff, le_iff, hunpack, unpack_topFraction]
    split
    · next hpos =>
      exact ⟨signed_pack (settled_round hpos).signed,
        pack_mono (settled_round hpos) hsettled (round_mono hpos hk)⟩
    · exact ⟨trivial, pack_mono (.inl ⟨_, rfl⟩) hsettled
        ⟨_, rank_zero _, _, rfl, by decide⟩⟩
  exact ⟨span_of_le hle.1 hle.2 span_topFraction, hle.2⟩

/-- Where the scale settles, the top fraction stays within the bound. -/
theorem settle_spec {bound : Float32} (hb : Span bound) : ∀ n < 0x7f800000,
    Span (settle bound n) ∧ ¬ bound < settle bound n * topFraction + 0 := by
  intro n hn
  induction n with
  | zero =>
    have hzero : Float32.ofBits 0 * topFraction + 0 = 0 := by decide +kernel
    rw [settle, hzero]
    exact ⟨span_ofBits hn, hb.2⟩
  | succ n ih =>
    rw [settle]
    split
    · exact ih (by omega)
    · next hbound => exact ⟨span_ofBits hn, hbound⟩

theorem scale?_spec {v scale : Float32} (hv : Span v) (hpos : 0 < v) (h : scale? v = some scale) :
    Span scale ∧ scale * topFraction + 0 ≤ v := by
  simp only [scale?] at h
  split at h
  · next hfinite =>
    obtain rfl := Option.some.inj h
    obtain ⟨m, e, hm, hunpack⟩ := finite_of_span hv hpos
    have hsign : unpackSign (pack Format.binary32
        (UnpackedFloat.div Format.binary32 v.toModel.unpack topFraction.toModel.unpack)) = 0#1 := by
      rw [hunpack]
      exact unpackSign_round _ _ _
    have hbits : (v / topFraction).toBits.toNat < 0x7f800000 := toNat_lt_of_finite hsign hfinite
    obtain ⟨hs, hle⟩ := settle_spec hv _ hbits
    have hnonneg : 0 ≤ settle v (v / topFraction).toBits.toNat * topFraction + 0 :=
      nonneg_add_of_nonneg (nonneg_mul_of_span hs span_topFraction) (by decide)
    exact ⟨hs, le_of_not_lt (isNaN_of_nonneg hnonneg) (isNaN_of_nonneg (nonneg_of_span hv)) hle⟩
  · cases h

theorem uniform?_bounds {v x : Float32} {r r' : Rng} (hv : Span v) (hpos : 0 < v)
    (h : r.uniform? v = some (x, r')) : 0 ≤ x ∧ x ≤ v := by
  obtain ⟨scale, hscale, hx⟩ := Option.map_eq_some_iff.mp h
  obtain ⟨hs, hbound⟩ := scale?_spec hv hpos hscale
  obtain ⟨hspan, htop⟩ := fraction_bounds r.next32.1
  obtain rfl : fraction r.next32.1 * scale + 0 = x := congrArg Prod.fst hx
  have hdrawn : 0 ≤ fraction r.next32.1 * scale := nonneg_mul_of_span hspan hs
  have hlargest : 0 ≤ scale * topFraction := nonneg_mul_of_span hs span_topFraction
  refine ⟨nonneg_add_of_nonneg hdrawn (by decide), le_trans ?_ hbound⟩
  rw [le_iff, (rank_add_zero hdrawn unpack_zero).1, (rank_add_zero hlargest unpack_zero).1,
    unpack_mul_comm hspan hs, ← le_iff]
  exact mul_le_mul_left hs hspan span_topFraction htop

theorem uniform?_eq_none {v : Float32} {r : Rng} :
    r.uniform? v = none ↔ (v / topFraction).isFinite = false := by
  simp [uniform?, scale?]

end TickTree.Rng
namespace TickTree.Wait

open Seconds

variable {d v : Float32} {w : Wait}

theorem of_make (h : make d v = .ok w) :
    Span d ∧ Span v ∧ w.duration = d ∧ w.variance = v := by
  unfold make at h
  split at h
  · next hd =>
    split at h
    · next hv =>
      cases h
      exact ⟨hd, hv, rfl, rfl⟩
    · cases h
  · cases h

theorem isFinite_of_le {t : Float32} (hd : Span d) (ht : d ≤ t) (ht' : t ≤ d + v)
    (h : (d + v).isFinite = true) : t.isFinite = true := by
  have hpos : 0 ≤ t := le_trans (nonneg_of_span hd) ht
  have hsum : Span (d + v) := ⟨h, fun hneg => not_le_of_lt hneg (le_trans hpos ht')⟩
  exact (span_of_le hpos ht' hsum).1

/-- A wait that can be made starts, unless there is no drawing from its variance, and its target is
in range. The range may end at infinity, and only then the target may be infinite. -/
theorem start_of_make (h : make d v = .ok w) (r : Rng) :
    if 0 < v ∧ (v / Rng.topFraction).isFinite = false then
      (w.start r).1 = .error .rangeOverflow
    else
      (w.start r).1 = .ok () ∧ d ≤ (w.start r).2.1.target ∧ (w.start r).2.1.target ≤ d + v ∧
        ((d + v).isFinite = true → (w.start r).2.1.target.isFinite = true) := by
  obtain ⟨hd, hv, rfl, rfl⟩ := of_make h
  have hd' : 0 ≤ w.duration := nonneg_of_span hd
  obtain ⟨-, ⟨hpos, hstart, htarget⟩ | ⟨hpos, hr, hstart⟩ | ⟨x, r', hpos, hr, hstart, htarget⟩⟩ :=
    w.start_cases r
  · rw [if_neg fun h => hpos h.1, htarget]
    exact ⟨hstart, le_self (isNaN_of_nonneg hd'), le_add hd' hv, fun _ => hd.1⟩
  · rw [if_pos ⟨hpos, Rng.uniform?_eq_none.mp hr⟩]
    exact hstart
  · obtain ⟨hx, hle⟩ := Rng.uniform?_bounds hv hpos hr
    have hx' : Span x := span_of_le hx hle hv
    have hlower := le_add hd' hx'
    have hupper := add_le_add_left hd hx' hv hle
    have hsome : ¬ (0 < w.variance ∧ (w.variance / Rng.topFraction).isFinite = false) := by
      rintro ⟨-, hnone⟩
      rw [Rng.uniform?_eq_none.mpr hnone] at hr
      cases hr
    rw [if_neg hsome, htarget]
    exact ⟨hstart, hlower, hupper, isFinite_of_le hd hlower hupper⟩

/-- From one second to one and a half. -/
theorem start_of_make_half : ∃ w, make 1 0.5 = .ok w ∧
    (w.start (.ofSeed 11)).1 = .ok () ∧ 1 ≤ (w.start (.ofSeed 11)).2.1.target ∧
      (w.start (.ofSeed 11)).2.1.target ≤ 1.5 ∧
      (w.start (.ofSeed 11)).2.1.target.isFinite = true := by
  have hspan : Span 1 ∧ Span 0.5 := by decide +kernel
  have hmake : make 1 0.5 = .ok ⟨1, 0.5, 1, 0, hspan⟩ := rfl
  have hsum : (1 : Float32) + 0.5 = 1.5 := by decide +kernel
  have hscale : ¬ ((0 : Float32) < 0.5 ∧ (0.5 / Rng.topFraction).isFinite = false) := by
    decide +kernel
  have h := start_of_make hmake (.ofSeed 11)
  rw [if_neg hscale, hsum] at h
  obtain ⟨hstart, hlower, hupper, hfinite⟩ := h
  exact ⟨_, hmake, hstart, hlower, hupper, hfinite (by decide +kernel)⟩

/-- There is no drawing from the greatest variance, and the greatest duration has an infinite target
even where there is. -/
theorem start_overflows :
    (∃ w, make 1 (Float32.ofBits 0x7f7fffff) = .ok w ∧
      ∀ r, (w.start r).1 = .error .rangeOverflow) ∧
    ∃ w, make (Float32.ofBits 0x7f7fffff) (Float32.ofBits 0x7f000000) = .ok w ∧
      (w.start (.ofSeed 1)).1 = .ok () ∧ (w.start (.ofSeed 1)).2.1.target.isFinite = false := by
  have hspan : Span 1 ∧ Span (Float32.ofBits 0x7f7fffff) := by decide +kernel
  have hspan' : Span (Float32.ofBits 0x7f7fffff) ∧ Span (Float32.ofBits 0x7f000000) := by
    decide +kernel
  have hpos : 0 < Float32.ofBits 0x7f7fffff := by decide +kernel
  have hnone : (Float32.ofBits 0x7f7fffff / Rng.topFraction).isFinite = false := by decide +kernel
  refine ⟨⟨⟨_, _, _, 0, hspan⟩, rfl, fun r => ?_⟩,
    ⟨_, _, _, 0, hspan'⟩, rfl, by decide +kernel +revert, by decide +kernel +revert⟩
  have hdraw : r.uniform? (Float32.ofBits 0x7f7fffff) = none := Rng.uniform?_eq_none.mpr hnone
  obtain ⟨-, ⟨hneg, -⟩ | ⟨-, -, hstart⟩ | ⟨x, r', -, hr, -⟩⟩ :=
    start_cases ⟨1, Float32.ofBits 0x7f7fffff, 1, 0, hspan⟩ r
  · exact absurd hpos hneg
  · exact hstart
  · rw [hdraw] at hr
    cases hr

end TickTree.Wait
