/-! What decorators remember: one number per decorator and node. -/
namespace TickTree

abbrev DecoratorId := Nat

/-- A finite map from decorators and nodes to numbers. -/
structure Tables where
  entries : List ((DecoratorId × Nat) × Float32)
  deriving DecidableEq

namespace Tables

def empty : Tables := ⟨[]⟩

def get? (t : Tables) (d : DecoratorId) (n : Nat) : Option Float32 := t.entries.lookup (d, n)

def erase (t : Tables) (d : DecoratorId) (n : Nat) : Tables :=
  ⟨t.entries.filter fun e => e.1 != (d, n)⟩

def insert (t : Tables) (d : DecoratorId) (n : Nat) (x : Float32) : Tables :=
  ⟨((d, n), x) :: (t.erase d n).entries⟩

@[simp] theorem get?_empty (d n : Nat) : empty.get? d n = none := rfl

theorem lookup_filter_ne {κ α : Type} [BEq κ] [LawfulBEq κ] [DecidableEq κ] (k j : κ)
    (es : List (κ × α)) :
    (es.filter fun e => e.1 != k).lookup j = if j = k then none else es.lookup j := by
  induction es with
  | nil => simp
  | cons a es ih =>
    obtain ⟨i, x⟩ := a
    by_cases hi : i = k
    · subst hi
      rw [List.filter_cons_of_neg (by simp), ih]
      split
      · rfl
      · next h => rw [List.lookup_cons, beq_false_of_ne h]
    · rw [List.filter_cons_of_pos (by simpa using hi), List.lookup_cons, ih, List.lookup_cons]
      by_cases hj : j = k
      · rw [hj, beq_false_of_ne (Ne.symm hi)]
      · simp only [hj, if_false]

theorem get?_erase (t : Tables) (d n e m : Nat) :
    (t.erase d n).get? e m = if (e, m) = (d, n) then none else t.get? e m :=
  lookup_filter_ne (d, n) (e, m) t.entries

theorem get?_insert (t : Tables) (d n e m : Nat) (x : Float32) :
    (t.insert d n x).get? e m = if (e, m) = (d, n) then some x else t.get? e m := by
  rw [get?, insert, List.lookup_cons]
  split
  · next h => rw [if_pos (eq_of_beq h)]
  · next h =>
    have h := ne_of_beq_false h
    rw [if_neg h]
    simpa [get?, h] using get?_erase t d n e m

end Tables
end TickTree
