import Mathlib.Logic.Function.Basic
import TickTree.Decorator
import TickTree.Proofs.Entries
/-! What decorators remember of one node, and how it goes on with the hooks of the node that they
hear. Nothing else about the node counts, so that the entries about it tell what is remembered. -/
namespace TickTree
variable {H : Host}

abbrev Row := DecoratorId → Option Float32

def Tables.row (t : Tables) (k : NodeId) : Row := fun d => t.get? d k

namespace Tables

@[simp] theorem row_apply (t : Tables) (k : NodeId) (d : DecoratorId) : t.row k d = t.get? d k :=
  rfl

theorem row_insert (t : Tables) (d : DecoratorId) (n : NodeId) (x : Float32) (k : NodeId) :
    (t.insert d n x).row k =
      if k = n then Function.update (t.row k) d (some x) else t.row k := by
  funext e
  rw [row_apply, get?_insert]
  by_cases hk : k = n <;> by_cases he : e = d <;> simp [hk, he]

theorem row_erase (t : Tables) (d : DecoratorId) (n k : NodeId) :
    (t.erase d n).row k = if k = n then Function.update (t.row k) d none else t.row k := by
  funext e
  rw [row_apply, get?_erase]
  by_cases hk : k = n <;> by_cases he : e = d <;> simp [hk, he]

end Tables

def Cooldown.opens (now : Float32) : Option Float32 → Bool
  | none => true
  | some next => next ≤ now

theorem Cooldown.allows_eq (c : Cooldown) (t : Tables) (n : NodeId) (now : Float32) :
    c.allows t n now = opens now (t.row n c.id) := by
  change c.allows t n now = opens now (c.nextAvailable t n)
  unfold allows
  cases c.nextAvailable t n <;> rfl

def Timeout.count (o : Timeout) (dt : Float32) (current : Status) (seen : Option Float32) :
    Status × Option Float32 :=
  if current = .running then
    let time := seen.getD 0 + dt
    if o.seconds ≤ time then (.failure, some 0) else (.running, some time)
  else (current, none)

theorem Timeout.modify_eq (o : Timeout) (n : NodeId) (dt : Float32) (current : Status)
    (t : Tables) :
    (o.modify n dt current t).1 = (o.count dt current (t.row n o.id)).1 ∧
      ∀ k, (o.modify n dt current t).2.row k = if k = n then
        Function.update (t.row k) o.id (o.count dt current (t.row k o.id)).2 else t.row k := by
  unfold modify count elapsed
  dsimp only [Tables.row_apply]
  by_cases hr : current = .running
  · simp only [if_pos hr]
    constructor
    · split <;> rfl
    · intro k
      by_cases hk : k = n
      · subst hk
        simp only [if_true]
        split
        all_goals
          rw [Tables.row_insert, if_pos rfl]
      · simp only [if_neg hk]
        split
        all_goals
          rw [Tables.row_insert, if_neg hk]
  · simp only [if_neg hr]
    exact ⟨trivial, fun k => Tables.row_erase t o.id n k⟩

namespace Decorator

def id? : Decorator H → Option DecoratorId
  | cooldown c => some c.id
  | timeout o => some o.id
  | inverter | custom _ => none

/-- What a hook of a node makes of what is remembered of the node, when this decorator hears it. -/
def noted (now : Float32) (d : Decorator H) (h : Hook) (r : Row) : Row :=
  match d, h with
  | cooldown c, .finished _ result =>
    if result.isTerminal then Function.update r c.id (some (now + c.seconds)) else r
  | cooldown c, .aborted _ => Function.update r c.id (some (now + c.seconds))
  | timeout o, .modified _ dt before _ =>
    Function.update r o.id (o.count dt before (r o.id)).2
  | timeout o, .finished _ _ | timeout o, .aborted _ => Function.update r o.id none
  | _, _ => r

/-- What a hook of a node says of this decorator follows from what is remembered of the node. -/
def Honest (now : Float32) (d : Decorator H) (h : Hook) (r : Row) : Prop :=
  match d, h with
  | cooldown c, .guarded _ passed => passed = Cooldown.opens now (r c.id)
  | timeout _, .guarded _ passed | inverter, .guarded _ passed => passed = true
  | timeout o, .modified _ dt before after => after = (o.count dt before (r o.id)).1
  | inverter, .modified _ _ before after => after = before.invert
  | _, _ => True

theorem noted_of_ne {now : Float32} {d : Decorator H} {h : Hook} {r : Row} {i : DecoratorId}
    (hi : d.id? ≠ some i) : d.noted now h r i = r i := by
  cases d with
  | cooldown c =>
    have hne : i ≠ c.id := fun e => hi (by rw [e]; rfl)
    cases h with
    | finished slot result =>
      simp only [noted]
      split
      · exact Function.update_of_ne hne _ _
      · rfl
    | aborted slot => exact Function.update_of_ne hne _ _
    | _ => rfl
  | timeout o =>
    have hne : i ≠ o.id := fun e => hi (by rw [e]; rfl)
    cases h with
    | modified | finished | aborted => exact Function.update_of_ne hne _ _
    | _ => rfl
  | inverter => rfl
  | custom d => rfl

end Decorator

namespace Hook

def slot? : Hook → Option Nat
  | guarded i _ | modified i .. | finished i _ | aborted i => some i
  | _ => none

def writes : Hook → Bool
  | modified .. | finished .. | aborted _ => true
  | _ => false

def hearer (ds : List (Decorator H)) (h : Hook) : Option (Decorator H) := h.slot?.bind (ds[·]?)

end Hook

namespace Entry

def noted (now : Float32) (ds : List (Decorator H)) (r : Row) : Entry H.Note → Row
  | hook _ h => (h.hearer ds).elim r fun d => d.noted now h r
  | _ => r

def Honest (now : Float32) (ds : List (Decorator H)) (r : Row) : Entry H.Note → Prop
  | hook _ h => ∀ d ∈ h.hearer ds, d.Honest now h r
  | _ => True

def writes : Entry H.Note → Bool
  | hook _ h => h.writes
  | _ => false

theorem noted_of_not_writes {now : Float32} {ds : List (Decorator H)} {e : Entry H.Note}
    (h : e.writes = false) (r : Row) : e.noted now ds r = r := by
  cases e with
  | hook v h' =>
    rw [noted]
    cases h'.hearer ds with
    | none => rfl
    | some d =>
      cases h' with
      | modified | finished | aborted => cases h
      | _ => cases d <;> rfl
  | _ => rfl

def unheard : Entry H.Note → Bool
  | hook _ h => h.slot?.isNone
  | _ => true

theorem noted_of_unheard {now : Float32} {ds : List (Decorator H)} {r : Row} {e : Entry H.Note}
    (h : e.unheard = true) : e.noted now ds r = r ∧ e.Honest now ds r := by
  cases e with
  | hook v h' =>
    have hslot : h'.slot? = none := Option.isNone_iff_eq_none.mp h
    simp [noted, Honest, Hook.hearer, hslot]
  | _ => exact ⟨rfl, trivial⟩

end Entry

/-- The entries about a node with these decorators take what is remembered of it from one state to
another. -/
def Recalls (now : Float32) (ds : List (Decorator H)) : Row → List (Entry H.Note) → Row → Prop
  | r, [], r' => r' = r
  | r, e :: w, r' => e.Honest now ds r ∧ Recalls now ds (e.noted now ds r) w r'

section Recalls
variable {now : Float32} {ds : List (Decorator H)} {r r' r'' : Row} {e : Entry H.Note}
  {w w' : List (Entry H.Note)}

@[simp] theorem recalls_nil : Recalls now ds r [] r' ↔ r' = r := Iff.rfl

@[simp] theorem recalls_cons :
    Recalls now ds r (e :: w) r' ↔
      e.Honest now ds r ∧ Recalls now ds (e.noted now ds r) w r' := Iff.rfl

theorem recalls_append :
    Recalls now ds r (w ++ w') r'' ↔ ∃ r', Recalls now ds r w r' ∧ Recalls now ds r' w' r'' := by
  induction w generalizing r with
  | nil => simp
  | cons e w ih => simp [ih, and_assoc]

theorem recalls_unheard (h : ∀ e ∈ w, e.unheard = true) : Recalls now ds r w r' ↔ r' = r := by
  induction w with
  | nil => rfl
  | cons e w ih =>
    have he : e.noted now ds r = r ∧ e.Honest now ds r := Entry.noted_of_unheard (h e (by simp))
    obtain ⟨hnoted, hhonest⟩ := he
    rw [recalls_cons, hnoted, ih fun e he => h e (List.mem_cons_of_mem _ he)]
    simp [hhonest]

theorem Recalls.drop (h : Recalls now ds r (w ++ w') r') (hw : ∀ e ∈ w, e.writes = false) :
    Recalls now ds r w' r' := by
  induction w with
  | nil => exact h
  | cons e w ih =>
    obtain ⟨-, hrest⟩ := recalls_cons.mp h
    rw [Entry.noted_of_not_writes (hw e (by simp))] at hrest
    exact ih hrest fun e he => hw e (List.mem_cons_of_mem _ he)

theorem Recalls.eq (h : Recalls now ds r w r') (hw : ∀ e ∈ w, e.writes = false) : r' = r := by
  rw [← List.append_nil w] at h
  exact recalls_nil.mp (h.drop hw)

theorem Recalls.same {i : DecoratorId} (h : Recalls now ds r w r')
    (keep : ∀ e ∈ w, ∀ r, e.noted now ds r i = r i) : r' i = r i := by
  induction w generalizing r with
  | nil => rw [recalls_nil.mp h]
  | cons e w ih =>
    obtain ⟨-, hrest⟩ := recalls_cons.mp h
    rw [ih hrest fun e he => keep e (List.mem_cons_of_mem _ he), keep e (by simp)]

/-- What some entry sets, and no entry sets to anything else, is set in the end. -/
theorem Recalls.set {i : DecoratorId} {x : Option Float32} (h : Recalls now ds r w r')
    (keep : ∀ e ∈ w, ∀ r, e.noted now ds r i = r i ∨ e.noted now ds r i = x)
    (hit : ∃ e ∈ w, ∀ r, e.noted now ds r i = x) : r' i = x := by
  have hkept : ∀ w r, (∀ e ∈ w, ∀ r, e.noted now ds r i = r i ∨ e.noted now ds r i = x) →
      Recalls now ds r w r' → r i = x → r' i = x := by
    intro w
    induction w with
    | nil =>
      intro r _ h hr
      rw [recalls_nil.mp h, hr]
    | cons e w ih =>
      intro r keep h hr
      refine ih _ (fun e he => keep e (List.mem_cons_of_mem _ he)) (recalls_cons.mp h).2 ?_
      obtain he | he := keep e (by simp) r
      · rw [he, hr]
      · exact he
  obtain ⟨e, he, hset⟩ := hit
  obtain ⟨w₁, w₂, rfl⟩ := List.append_of_mem he
  obtain ⟨r₁, -, hrest⟩ := recalls_append.mp h
  refine hkept w₂ _ (fun e he => keep e (by simp [he])) (recalls_cons.mp hrest).2 (hset r₁)

end Recalls
end TickTree
