import TickTree.Random.Rng
/-! Shuffled orders of `0, …, n - 1`. An order is a function of the numbers drawn for it: one from
`0` to `i` for each position `i` from the last down to 1. -/
namespace TickTree

/-- Exchanges each position from `i` down to 1 with the one drawn for it. -/
def arrangeFrom : Nat → List Nat → Array Nat → Array Nat
  | i + 1, j :: js, order => arrangeFrom i js (order.swapIfInBounds (i + 1) j)
  | _, _, order => order

def arrange (n : Nat) (draws : List Nat) : List Nat :=
  (arrangeFrom (n - 1) draws (Array.range n)).toList

def Rng.draws : Nat → Rng → List Nat × Rng
  | 0, r => ([], r)
  | i + 1, r =>
    let (j, r) := r.upTo (i + 1)
    let (js, r) := draws i r
    (j :: js, r)

theorem perm_exchange (i j : Nat) (order : Array Nat) :
    (order.swapIfInBounds i j).Perm order := by
  unfold Array.swapIfInBounds
  split
  · split
    · exact Array.swap_perm _ _
    · exact Array.Perm.refl _
  · exact Array.Perm.refl _

theorem perm_arrangeFrom (i : Nat) (draws : List Nat) (order : Array Nat) :
    (arrangeFrom i draws order).Perm order := by
  fun_induction arrangeFrom i draws order with
  | case1 i j js order ih => exact ih.trans (perm_exchange _ _ _)
  | case2 => exact Array.Perm.refl _

theorem perm_arrange (n : Nat) (draws : List Nat) : (arrange n draws).Perm (List.range n) := by
  simpa [arrange] using (perm_arrangeFrom (n - 1) draws (Array.range n)).toList

end TickTree
