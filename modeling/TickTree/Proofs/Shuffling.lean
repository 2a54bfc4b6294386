import Mathlib.Data.Set.Function
import TickTree.Node.Behavior
/-! The orders of a random selector. The draws that an activation takes name every permutation of
its children exactly once, so draws that are equally likely make orders that are. -/
namespace TickTree

/-- Draws for the positions from `i` down to 1, each of them from `0` to its position. -/
def InRange (i : Nat) (draws : List Nat) : Prop :=
  draws.length = i ∧ ∀ k (h : k < draws.length), draws[k] ≤ i - k

theorem inRange_zero {draws : List Nat} : InRange 0 draws ↔ draws = [] :=
  ⟨fun h => List.length_eq_zero_iff.mp h.1, fun h => h ▸ ⟨rfl, by simp⟩⟩

theorem inRange_cons {i j : Nat} {js : List Nat} :
    InRange (i + 1) (j :: js) ↔ j ≤ i + 1 ∧ InRange i js := by
  constructor
  · rintro ⟨length, range⟩
    refine ⟨range 0 (by simp), by simpa using length, fun k h => ?_⟩
    have next := range (k + 1) (by simpa using h)
    simpa using next
  · rintro ⟨first, length, range⟩
    refine ⟨by simp [length], fun k h => ?_⟩
    cases k with
    | zero => exact first
    | succ k => simpa using range k (by simpa using h)

theorem InRange.exists_cons {i : Nat} {draws : List Nat} (h : InRange (i + 1) draws) :
    ∃ j js, draws = j :: js ∧ j ≤ i + 1 ∧ InRange i js := by
  cases draws with
  | nil => exact absurd h.1 (by simp)
  | cons j js => exact ⟨j, js, rfl, inRange_cons.mp h⟩

/-! ### One exchange -/

section Exchange
variable {i j : Nat} {order : Array Nat}

theorem getElem?_exchange_of_lt {k : Nat} (hj : j ≤ i) (hk : i < k) :
    (order.swapIfInBounds i j)[k]? = order[k]? := by
  rw [Array.swapIfInBounds_def]
  split_ifs with hi hj'
  · rw [Array.getElem?_swap, if_neg (by omega), if_neg (by omega)]
  · rfl
  · rfl

theorem getElem?_exchange (hi : i < order.size) (hj : j ≤ i) :
    (order.swapIfInBounds i j)[i]? = order[j]? := by
  have hj' : j < order.size := by omega
  rw [Array.swapIfInBounds_def, dif_pos hi, dif_pos hj', Array.getElem?_swap, if_pos rfl,
    Array.getElem?_eq_getElem hj']
  split_ifs with h
  · subst h; rfl
  · rfl

theorem nodup_exchange (distinct : order.toList.Nodup) :
    (order.swapIfInBounds i j).toList.Nodup :=
  (perm_exchange i j order).toList.nodup_iff.mpr distinct

end Exchange

/-! ### All exchanges -/

theorem getElem?_arrangeFrom_of_lt {i k : Nat} {draws : List Nat} (hk : i < k)
    (range : InRange i draws) (order : Array Nat) :
    (arrangeFrom i draws order)[k]? = order[k]? := by
  induction i generalizing draws order with
  | zero => rw [arrangeFrom]; simp
  | succ i ih =>
    obtain ⟨j, js, rfl, hj, rest⟩ := range.exists_cons
    rw [arrangeFrom, ih (by omega) rest, getElem?_exchange_of_lt hj (by omega)]

theorem getElem?_arrangeFrom_cons {i j : Nat} {js : List Nat} {order : Array Nat}
    (hi : i + 1 < order.size) (range : InRange (i + 1) (j :: js)) :
    (arrangeFrom (i + 1) (j :: js) order)[i + 1]? = order[j]? := by
  obtain ⟨hj, rest⟩ := inRange_cons.mp range
  rw [arrangeFrom, getElem?_arrangeFrom_of_lt (by omega) rest, getElem?_exchange hi hj]

theorem arrangeFrom_injective {i : Nat} {draws draws' : List Nat} {order : Array Nat}
    (hi : i ≤ order.size - 1) (distinct : order.toList.Nodup)
    (range : InRange i draws) (range' : InRange i draws')
    (same : arrangeFrom i draws order = arrangeFrom i draws' order) : draws = draws' := by
  induction i generalizing draws draws' order with
  | zero => rw [inRange_zero.mp range, inRange_zero.mp range']
  | succ i ih =>
    obtain ⟨j, js, rfl, hj, rest⟩ := range.exists_cons
    obtain ⟨j', js', rfl, hj', rest'⟩ := range'.exists_cons
    have hi' : i + 1 < order.size := by omega
    -- both orders hold the same item at the last position, so the draws point at the same one
    have item : order[j]? = order[j']? := by
      rw [← getElem?_arrangeFrom_cons hi' range, same, getElem?_arrangeFrom_cons hi' range']
    have heads : j = j' := by
      rw [← Array.getElem?_toList, ← Array.getElem?_toList] at item
      exact (List.getElem?_inj (by simpa using by omega) distinct).mp item
    subst heads
    rw [ih (by rw [Array.size_swapIfInBounds]; omega) (nodup_exchange distinct) rest rest' same]

theorem eq_of_perm_of_agree {order target : Array Nat} (perm : target.Perm order)
    (agree : ∀ k, 0 < k → target[k]? = order[k]?) : target = order := by
  obtain ⟨xs⟩ := order
  obtain ⟨ys⟩ := target
  have perm : ys.Perm xs := Array.perm_iff_toList_perm.mp perm
  congr 1
  cases xs with
  | nil => exact perm.eq_nil
  | cons x xs =>
    cases ys with
    | nil => exact absurd perm.symm.eq_nil (by simp)
    | cons y ys =>
      have tails : ys = xs := List.ext_getElem? fun k => by simpa using agree (k + 1) (by omega)
      subst tails
      have heads : [y].Perm [x] := (List.perm_append_right_iff ys).mp perm
      rw [List.singleton_perm_singleton.mp heads]

/-- Every order that agrees above `i` is made by some exchanges from `i` down: the first draw
points at the item that belongs there. -/
theorem arrangeFrom_surjective {i : Nat} {order target : Array Nat} (hi : i ≤ order.size - 1)
    (distinct : order.toList.Nodup) (perm : target.Perm order)
    (agree : ∀ k, i < k → target[k]? = order[k]?) :
    ∃ draws, InRange i draws ∧ arrangeFrom i draws order = target := by
  induction i generalizing order with
  | zero => exact ⟨[], inRange_zero.mpr rfl, (eq_of_perm_of_agree perm agree).symm⟩
  | succ i ih =>
    have size : target.size = order.size := perm.size_eq
    have hi' : i + 1 < order.size := by omega
    obtain ⟨j, hj, item⟩ : ∃ j, j ≤ i + 1 ∧ order[j]? = target[i + 1]? := by
      have here : target[i + 1]? = some target[i + 1] := Array.getElem?_eq_getElem (by omega)
      have mem : target[i + 1] ∈ order := perm.mem_iff.mp (Array.getElem_mem _)
      obtain ⟨j, found⟩ := Array.getElem?_of_mem mem
      refine ⟨j, Nat.le_of_not_lt fun above => ?_, found.trans here.symm⟩
      -- an item above would stand in the target twice
      have twice : target.toList[j]? = target.toList[i + 1]? := by
        rw [Array.getElem?_toList, Array.getElem?_toList, agree j above, found, here]
      have short : i + 1 < target.toList.length := by rw [Array.length_toList]; omega
      have := (List.getElem?_inj short (perm.toList.nodup_iff.mpr distinct)).mp twice.symm
      omega
    obtain ⟨js, rest, made⟩ := @ih (order.swapIfInBounds (i + 1) j)
      (by rw [Array.size_swapIfInBounds]; omega) (nodup_exchange distinct)
      (perm.trans (perm_exchange _ _ _).symm) fun k hk => by
        rcases Nat.eq_or_lt_of_le (Nat.succ_le_of_lt hk) with rfl | hk'
        · rw [getElem?_exchange hi' hj, item]
        · rw [agree k hk', getElem?_exchange_of_lt hj hk']
    exact ⟨j :: js, inRange_cons.mpr ⟨hj, rest⟩, made⟩

/-- The draws in range name every order of `n` items exactly once. -/
theorem bijOn_arrange (n : Nat) :
    Set.BijOn (arrange n) {draws | InRange (n - 1) draws}
      {order | order.Perm (List.range n)} := by
  have size : n - 1 ≤ (Array.range n).size - 1 := by rw [Array.size_range]
  have distinct : (Array.range n).toList.Nodup := by
    rw [Array.toList_range]; exact List.nodup_range
  refine ⟨fun draws _ => perm_arrange n draws, fun draws range draws' range' same => ?_,
    fun order perm => ?_⟩
  · exact arrangeFrom_injective size distinct range range' (Array.toList_inj.mp same)
  · have perm' : order.toArray.Perm (Array.range n) := by
      rw [Array.perm_iff_toList_perm, Array.toList_range]; exact perm
    obtain ⟨draws, range, made⟩ := arrangeFrom_surjective size distinct perm' fun k hk => by
      have length : order.length = n := perm.length_eq.trans List.length_range
      rw [Array.getElem?_eq_none (by simp; omega), Array.getElem?_eq_none (by simp; omega)]
    exact ⟨draws, range, by rw [arrange, made]⟩

/-! ### What is drawn -/

namespace Rng

theorem scaled_le (range : UInt64) (fuel : Nat) (r : Rng) :
    (scaled range fuel r).1 ≤ range.toNat - 1 := by
  have high : ∀ v : UInt64, v.toNat * range.toNat / UInt64.size ≤ range.toNat - 1 := fun v => by
    have below : v.toNat < UInt64.size := v.toNat_lt_size
    rcases Nat.eq_zero_or_pos range.toNat with none | some
    · simp [none]
    · refine Nat.le_sub_one_of_lt (Nat.div_lt_of_lt_mul ?_)
      exact Nat.mul_lt_mul_of_pos_right below some
  induction fuel generalizing r with
  | zero => exact high _
  | succ fuel ih =>
    rw [scaled]
    dsimp only
    split
    · exact high _
    · exact ih _

theorem upTo_le (i : Nat) (r : Rng) : (r.upTo i).1 ≤ i := by
  have bound := scaled_le (i + 1).toUInt64 256 r
  have wrapped : (i + 1).toUInt64.toNat ≤ i + 1 := Nat.mod_le _ _
  rw [upTo]
  omega

theorem inRange_draws (i : Nat) (r : Rng) : InRange i (r.draws i).1 := by
  induction i generalizing r with
  | zero => exact inRange_zero.mpr rfl
  | succ i ih => exact inRange_cons.mpr ⟨upTo_le _ _, ih _⟩

end Rng

/-! ### The shuffle at the start of an activation -/

/-- The shuffle of a random selector over `n` children is a bijection from the draws in range onto
the permutations of `0, …, n - 1`: every draw vector gives one, different vectors give different
ones, and each is reached. At its start the node makes its order from such a vector, and from
nothing else: neither the cursor nor the order that it holds from before matter. -/
theorem shuffled_of_start {H : Host} (n : Nat) :
    Set.BijOn (arrange n) {draws | InRange (n - 1) draws} {order | order.Perm (List.range n)} ∧
    ∀ (s : Setting) (v : View) (cursor : Nat) (order : List Nat) (st : Stage H),
      let drawn := st.rng.draws (n - 1)
      InRange (n - 1) drawn.1 ∧
      (Behavior.randomSelector cursor order).start s v n st =
        ⟨(.ok (), .randomSelector 0 (arrange n drawn.1)), { st with rng := drawn.2 },
          drawn.1.zipIdx.map fun (j, k) => .hook v (.drew (.upTo (n - 1 - k) j))⟩ := by
  refine ⟨bijOn_arrange n, fun s v cursor order st => ⟨Rng.inRange_draws _ _, ?_⟩⟩
  simp [Behavior.start, Behavior.shuffle]

end TickTree
