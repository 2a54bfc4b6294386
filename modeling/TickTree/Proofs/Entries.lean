import TickTree.Stage
/-! Traces without the notes of callbacks, the part of a trace that is about one node, and which
activations are open after a trace. -/
namespace TickTree
variable {ν : Type}

namespace Entry

def isNote : Entry ν → Bool
  | note _ => true
  | _ => false

def about : Entry ν → Option NodeId
  | hook v _ => some v.id
  | notice _ (.entered v _) | notice _ (.exited v _ _) | notice _ (.aborted v) => some v.id
  | report (.guardedOut v) => some v.id
  | _ => none

@[simp] theorem about_hook (v : View) (h : Hook) : (hook v h : Entry ν).about = some v.id := rfl
@[simp] theorem about_entered (l : Option Listener) (v : View) (t : Float32) :
    (notice l (.entered v t) : Entry ν).about = some v.id := rfl
@[simp] theorem about_exited (l : Option Listener) (v : View) (r : Status) (t : Float32) :
    (notice l (.exited v r t) : Entry ν).about = some v.id := rfl
@[simp] theorem about_aborted (l : Option Listener) (v : View) :
    (notice l (.aborted v) : Entry ν).about = some v.id := rfl
@[simp] theorem about_guardedOut (v : View) :
    (report (.guardedOut v) : Entry ν).about = some v.id := rfl

end Entry

def calls (tr : List (Entry ν)) : List (Entry ν) := tr.filter fun e => !e.isNote

def own (k : NodeId) (tr : List (Entry ν)) : List (Entry ν) := tr.filter fun e => e.about = some k

@[simp] theorem calls_nil : calls ([] : List (Entry ν)) = [] := rfl

@[simp] theorem calls_append (tr tr' : List (Entry ν)) :
    calls (tr ++ tr') = calls tr ++ calls tr' := List.filter_append ..

@[simp] theorem calls_map_note (xs : List ν) : calls (xs.map .note) = [] := by
  simp [calls, Entry.isNote]

@[simp] theorem calls_map_hook {α : Type} (v : View) (h : α → Hook) (xs : List α) :
    calls (xs.map fun x => (.hook v (h x) : Entry ν)) = xs.map fun x => .hook v (h x) := by
  simp [calls, List.filter_eq_self.mpr, Entry.isNote]

@[simp] theorem calls_hook (v : View) (h : Hook) (tr : List (Entry ν)) :
    calls (.hook v h :: tr) = .hook v h :: calls tr := rfl

@[simp] theorem calls_notice (l : Option Listener) (n : Notice) (tr : List (Entry ν)) :
    calls (.notice l n :: tr) = .notice l n :: calls tr := rfl

@[simp] theorem calls_report (r : Report) (tr : List (Entry ν)) :
    calls (.report r :: tr) = .report r :: calls tr := rfl

@[simp] theorem own_nil (k : NodeId) : own k ([] : List (Entry ν)) = [] := rfl

@[simp] theorem own_append (k : NodeId) (tr tr' : List (Entry ν)) :
    own k (tr ++ tr') = own k tr ++ own k tr' := List.filter_append ..

@[simp] theorem own_calls (k : NodeId) (tr : List (Entry ν)) : own k (calls tr) = own k tr := by
  rw [own, calls, List.filter_filter]
  refine List.filter_congr fun e _ => ?_
  cases e <;> simp [Entry.isNote, Entry.about]

theorem own_congr {tr w : List (Entry ν)} (h : calls tr = w) (k : NodeId) :
    own k tr = own k w := by rw [← h, own_calls]

def Mine (k : NodeId) (tr : List (Entry ν)) : Prop := ∀ e ∈ tr, e.about = some k

@[simp] theorem mine_nil (k : NodeId) : Mine k ([] : List (Entry ν)) := by simp [Mine]

@[simp] theorem mine_cons {k : NodeId} {e : Entry ν} {tr : List (Entry ν)} :
    Mine k (e :: tr) ↔ e.about = some k ∧ Mine k tr := by simp [Mine]

@[simp] theorem mine_append {k : NodeId} {tr tr' : List (Entry ν)} :
    Mine k (tr ++ tr') ↔ Mine k tr ∧ Mine k tr' := by simp [Mine, or_imp, forall_and]

theorem mine_map_hook {α : Type} (v : View) (h : α → Hook) (xs : List α) :
    Mine v.id (xs.map fun x => (.hook v (h x) : Entry ν)) := by simp [Mine]

theorem own_eq_self {k : NodeId} {tr : List (Entry ν)} (h : Mine k tr) : own k tr = tr :=
  List.filter_eq_self.mpr fun e he => by simpa using h e he

theorem own_of_about_ne {k : NodeId} {tr : List (Entry ν)} (h : ∀ e ∈ tr, e.about ≠ some k) :
    own k tr = [] :=
  List.filter_eq_nil_iff.mpr fun e he => by simpa using h e he

theorem own_eq_nil {k j : NodeId} {tr : List (Entry ν)} (h : Mine j tr) (hjk : j ≠ k) :
    own k tr = [] := own_of_about_ne fun e he => by simpa [h e he] using hjk

def slots (v : View) (h : Nat → Hook) (first count : Nat) : List (Entry ν) :=
  (List.range' first count).map fun i => .hook v (h i)

@[simp] theorem slots_zero (v : View) (h : Nat → Hook) (first : Nat) :
    slots v h first 0 = ([] : List (Entry ν)) := rfl

theorem slots_succ (v : View) (h : Nat → Hook) (first count : Nat) :
    (slots v h first (count + 1) : List (Entry ν)) =
      .hook v (h first) :: slots v h (first + 1) count := rfl

theorem mem_slots {v : View} {h : Nat → Hook} {n : Nat} {e : Entry ν} :
    e ∈ (slots v h 0 n : List (Entry ν)) ↔ ∃ i < n, e = .hook v (h i) := by
  simp [slots, List.mem_range'_1, eq_comm]

theorem mine_slots (v : View) (h : Nat → Hook) (first count : Nat) :
    Mine v.id (slots v h first count : List (Entry ν)) := mine_map_hook v h _

def Entry.turn : Entry ν → Option Bool
  | notice _ (.entered ..) => some true
  | notice _ (.exited ..) => some false
  | _ => none

/-- Whether an activation is open after entries about its node. -/
def openAfter (b : Bool) (w : List (Entry ν)) : Bool := w.foldl (fun b e => e.turn.getD b) b

theorem mine_hooks {k : NodeId} {w : List (Entry ν)}
    (h : ∀ e ∈ w, ∃ v h, v.id = k ∧ e = .hook v h) : Mine k w ∧ ∀ e ∈ w, e.turn = none := by
  constructor
  all_goals
    intro e he
    obtain ⟨v, hook, rfl, rfl⟩ := h e he
    rfl

def opened (a : NodeId → Bool) (tr : List (Entry ν)) (k : NodeId) : Bool :=
  openAfter (a k) (own k tr)

def Steady (k : NodeId) (tr : List (Entry ν)) : Prop := ∀ e ∈ own k tr, e.turn = none

@[simp] theorem openAfter_nil (b : Bool) : openAfter b ([] : List (Entry ν)) = b := rfl

@[simp] theorem openAfter_cons (b : Bool) (e : Entry ν) (w : List (Entry ν)) :
    openAfter b (e :: w) = openAfter (e.turn.getD b) w := rfl

@[simp] theorem openAfter_append (b : Bool) (w w' : List (Entry ν)) :
    openAfter b (w ++ w') = openAfter (openAfter b w) w' := List.foldl_append

theorem openAfter_quiet {w : List (Entry ν)} (h : ∀ e ∈ w, e.turn = none) (b : Bool) :
    openAfter b w = b := by
  induction w with
  | nil => rfl
  | cons e w ih =>
    rw [openAfter_cons, h e (by simp)]
    exact ih fun e he => h e (List.mem_cons_of_mem _ he)

@[simp] theorem openAfter_map_hook {α : Type} (b : Bool) (v : View) (h : α → Hook) (xs : List α) :
    openAfter b (xs.map fun x => (.hook v (h x) : Entry ν)) = b :=
  openAfter_quiet (by simp [Entry.turn]) b

@[simp] theorem openAfter_slots (b : Bool) (v : View) (h : Nat → Hook) (first count : Nat) :
    openAfter b (slots v h first count : List (Entry ν)) = b := openAfter_map_hook b v h _

theorem opened_append (a : NodeId → Bool) (tr tr' : List (Entry ν)) :
    opened a (tr ++ tr') = opened (opened a tr) tr' := by
  funext k
  simp [opened]

theorem opened_calls (a : NodeId → Bool) (tr : List (Entry ν)) :
    opened a (calls tr) = opened a tr := by
  funext k
  rw [opened, own_calls, opened]

theorem opened_of_steady {k : NodeId} {tr : List (Entry ν)} (h : Steady k tr) (a : NodeId → Bool) :
    opened a tr k = a k := openAfter_quiet h _

theorem steady_of_own_eq_nil {k : NodeId} {tr : List (Entry ν)} (h : own k tr = []) :
    Steady k tr := by simp [Steady, h]

theorem Steady.of_prefix {k : NodeId} {tr pre : List (Entry ν)} (h : Steady k tr)
    (hp : pre <+: tr) : Steady k pre := fun e he => h e ((hp.filter _).mem he)

end TickTree
