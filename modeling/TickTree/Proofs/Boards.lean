import Mathlib.Data.Set.Card
import TickTree.Board.Request
import TickTree.World
/-! Boards answer from their history. Through whatever handles requests come, the reply to each
follows from what was last written under the keys of the same board and still stands. -/
namespace TickTree
variable {σ : Type}

def World.ask (w : World σ) (b : BoardId) (q : Request) : Except Fault Reply × World σ :=
  let (reply, board) := (w.board b).answer q
  (reply, w.putBoard b board)

structure Asked where
  board : BoardId
  request : Request
  reply : Except Fault Reply

def converse : List (BoardId × Request) → World σ → List Asked × World σ
  | [], w => ([], w)
  | (b, q) :: qs, w =>
    let (reply, w) := w.ask b q
    let (later, w) := converse qs w
    (⟨b, q, reply⟩ :: later, w)

/-- What a request leaves under a key, if it touches it: an accepted write its value, and a removal
nothing. -/
def Asked.leaves (a : Asked) (key : UInt32) : Option (Option Slot) :=
  match a.request with
  | .set k T v => if k = key ∧ a.reply.isOk then some (some ⟨T, v⟩) else none
  | .reset k T v => if k = key then some (some ⟨T, v⟩) else none
  | .remove k => if k = key then some none else none
  | .clear => some none
  | _ => none

/-- The write that stands under a key of a board: the last request that touched it decides. -/
def standing (past : List Asked) (b : BoardId) (key : UInt32) : Option Slot :=
  (past.reverse.findSome? fun a => if a.board = b then a.leaves key else none).join

inductive Reading (T : Kind) where
  | absent
  | bound (v : T.Val)
  /-- The key is bound to another kind. -/
  | foreign (held : Kind)

namespace Reading
variable {T K : Kind}

def of : Option Slot → (T : Kind) → Reading T
  | none, _ => absent
  | some ⟨K, v⟩, T => if h : K = T then bound (h ▸ v) else foreign K

def value? : Reading T → Option T.Val
  | bound v => some v
  | _ => none

@[simp] theorem of_none : of none T = absent := rfl

@[simp] theorem of_same (v : T.Val) : of (some ⟨T, v⟩) T = bound v := by simp [of]

theorem of_other {s : Slot} (h : s.kind ≠ T) : of (some s) T = foreign s.kind := by
  obtain ⟨K, v⟩ := s
  exact dif_neg h

theorem cases (s : Option Slot) (T : Kind) :
    s = none ∨ (∃ v, s = some ⟨T, v⟩) ∨ ∃ s', s = some s' ∧ s'.kind ≠ T := by
  cases s with
  | none => exact .inl rfl
  | some s =>
    by_cases h : s.kind = T
    · subst h
      exact .inr (.inl ⟨s.value, rfl⟩)
    · exact .inr (.inr ⟨s, rfl, h⟩)

end Reading

noncomputable def occupied (w : UInt32 → Option Slot) : Nat := {key | (w key).isSome}.ncard

/-- The reply that the standing writes of a board call for. -/
noncomputable def Request.due (w : UInt32 → Option Slot) : Request → Except Fault Reply
  | .contains key | .remove key => .ok (.flag (w key).isSome)
  | .clear | .reset .. => .ok .done
  | .size => .ok (.count (occupied w))
  | .isEmpty => .ok (.flag (occupied w = 0))
  | .set key T _ =>
    match Reading.of (w key) T with
    | .foreign held => .error (.typeMismatch key held T)
    | _ => .ok .done
  | .get key T =>
    match Reading.of (w key) T with
    | .absent => .error (.keyNotFound key)
    | .bound v => .ok (.value T v)
    | .foreign held => .error (.typeMismatch key held T)
  | .borrow key T =>
    match Reading.of (w key) T with
    | .absent => .error (.keyNotFound key)
    | .bound v => .ok (.borrowed T v)
    | .foreign held => .error (.typeMismatch key held T)
  | .get? key T => .ok (.found T (Reading.of (w key) T).value?)
  | .getOr key T fallback => .ok (.value T ((Reading.of (w key) T).value?.getD fallback))
  | .getOrZero key T => .ok (.value T ((Reading.of (w key) T).value?.getD T.zero))
  | .containsOf key T => .ok (.flag (Reading.of (w key) T).value?.isSome)

namespace Board
variable {b : Board} {key k : UInt32} {T : Kind}

@[simp] theorem slot?_empty : empty.slot? key = none := by simp [slot?, empty]

theorem slot?_reset (v : T.Val) :
    (b.reset k T v).slot? key = if k = key then some ⟨T, v⟩ else b.slot? key := by
  simp [slot?, reset, Std.TreeMap.getElem?_insert]

theorem slot?_erase : (b.erase k).slot? key = if k = key then none else b.slot? key := by
  simp [slot?, erase, Std.TreeMap.getElem?_erase]

theorem size_eq (b : Board) : b.size = occupied b.slot? := by
  have hkeys : {key | (b.slot? key).isSome} = (b.slots.keys.toFinset : Set UInt32) := by
    ext key
    rw [Set.mem_ofPred_eq, Finset.mem_coe, List.mem_toFinset, Std.TreeMap.mem_keys,
      Std.TreeMap.mem_iff_isSome_getElem?, slot?]
  rw [occupied, hkeys, Set.ncard_coe_finset, List.toFinset_card_of_nodup Std.TreeMap.nodup_keys,
    Std.TreeMap.length_keys, size]

theorem isEmpty_eq (b : Board) : b.isEmpty = decide (occupied b.slot? = 0) := by
  rw [← size_eq, isEmpty, Std.TreeMap.isEmpty_eq_size_eq_zero]
  rfl

theorem set_eq (b : Board) (key : UInt32) (T : Kind) (v : T.Val) :
    b.set key T v =
      match Reading.of (b.slot? key) T with
      | .foreign held => .error (.typeMismatch key held T)
      | _ => .ok (b.reset key T v) := by
  obtain hs | ⟨u, hs⟩ | ⟨s, hs, hne⟩ := Reading.cases (b.slot? key) T
  · simp [set, hs]
  · simp [set, hs]
  · simp [set, hs, hne, Reading.of_other hne]

theorem get_eq (b : Board) (key : UInt32) (T : Kind) :
    b.get key T =
      match Reading.of (b.slot? key) T with
      | .absent => .error (.keyNotFound key)
      | .bound v => .ok v
      | .foreign held => .error (.typeMismatch key held T) := by
  obtain hs | ⟨u, hs⟩ | ⟨s, hs, hne⟩ := Reading.cases (b.slot? key) T
  · simp [get, hs]
  · simp [get, hs]
  · simp [get, hs, Slot.as?_of_ne hne, Reading.of_other hne]

theorem get?_eq (b : Board) (key : UInt32) (T : Kind) :
    b.get? key T = (Reading.of (b.slot? key) T).value? := by
  obtain hs | ⟨u, hs⟩ | ⟨s, hs, hne⟩ := Reading.cases (b.slot? key) T
  · simp [get?, hs, Reading.value?]
  · simp [get?, hs, Reading.value?]
  · simp [get?, hs, Slot.as?_of_ne hne, Reading.of_other hne, Reading.value?]

theorem containsOf_eq (b : Board) (key : UInt32) (T : Kind) :
    b.containsOf key T = (Reading.of (b.slot? key) T).value?.isSome := by
  obtain hs | ⟨u, hs⟩ | ⟨s, hs, hne⟩ := Reading.cases (b.slot? key) T
  · simp [containsOf, hs, Reading.value?]
  · simp [containsOf, hs, Reading.value?]
  · simp [containsOf, hs, hne, Reading.of_other hne, Reading.value?]

theorem reply_answer (b : Board) (q : Request) : (b.answer q).1 = q.due b.slot? := by
  cases q with
  | size => rw [answer, Request.due, size_eq]
  | isEmpty => rw [answer, Request.due, isEmpty_eq]
  | set key T v =>
    rw [answer, Request.due, set_eq]
    cases Reading.of (b.slot? key) T <;> rfl
  | get key T | borrow key T =>
    rw [answer, Request.due, get_eq]
    cases Reading.of (b.slot? key) T <;> rfl
  | get? key T => rw [answer, Request.due, get?_eq]
  | getOr key T fallback | getOrZero key T => rw [answer, Request.due, getD, get?_eq]
  | containsOf key T => rw [answer, Request.due, containsOf_eq]
  | _ => rfl

theorem answer_refused {q : Request} {e : Fault} (h : (b.answer q).1 = .error e) :
    (b.answer q).2 = b := by
  cases q with
  | set key T v =>
    simp only [answer] at h ⊢
    cases hs : b.set key T v with
    | ok b' => simp [hs] at h
    | error e => rfl
  | clear | remove | reset => cases h
  | _ => rfl

theorem slot?_answer (b : Board) (h : BoardId) (q : Request) (key : UInt32) :
    (b.answer q).2.slot? key =
      (Asked.leaves ⟨h, q, (b.answer q).1⟩ key).getD (b.slot? key) := by
  cases q with
  | set k T v =>
    cases hs : Reading.of (b.slot? k) T with
    | foreign held => simp [answer, set_eq, hs, Asked.leaves, Except.isOk, Except.toBool]
    | _ =>
      simp only [answer, set_eq, hs, Asked.leaves, slot?_reset]
      by_cases hk : k = key <;> simp [hk, Except.isOk, Except.toBool]
  | reset k T v =>
    simp only [answer, Asked.leaves, slot?_reset]
    split <;> rfl
  | remove k =>
    simp only [answer, Asked.leaves, slot?_erase]
    split <;> rfl
  | clear => exact slot?_empty
  | _ => rfl

end Board

namespace World
variable {w : World σ}

theorem board_putBoard {b b' : BoardId} {board : Board} (h : b.index < w.boards.size) :
    (w.putBoard b board).board b' = if b = b' then board else w.board b' := by
  obtain ⟨i⟩ := b
  obtain ⟨j⟩ := b'
  by_cases hij : i = j
  · subst hij
    simp [World.board, putBoard, h]
  · simp [World.board, putBoard, hij]

theorem size_ask (b : BoardId) (q : Request) : (w.ask b q).2.boards.size = w.boards.size := by
  simp [ask, putBoard]

theorem ask_refused {b : BoardId} {q : Request} {e : Fault} (h : (w.ask b q).1 = .error e) :
    (w.ask b q).2 = w := by
  have hboard : ((w.board b).answer q).2 = w.board b := Board.answer_refused h
  have hsame : w.boards.setIfInBounds b.index (w.board b) = w.boards := by
    by_cases hb : b.index < w.boards.size <;> simp [Array.setIfInBounds, hb, World.board]
  simp [ask, hboard, putBoard, hsame]

end World

section Standing
variable {past : List Asked} {a : Asked} {b : BoardId} {key : UInt32}

theorem standing_snoc : standing (past ++ [a]) b key =
    if a.board = b then (a.leaves key).getD (standing past b key) else standing past b key := by
  rw [standing, List.reverse_append, List.reverse_singleton, List.singleton_append,
    List.findSome?_cons]
  by_cases hb : a.board = b
  · rw [if_pos hb, if_pos hb]
    cases a.leaves key <;> rfl
  · rw [if_neg hb, if_neg hb]
    rfl

end Standing

/-- Each reply is the one that the requests before it call for. -/
def Answered (past : List Asked) : Prop :=
  ∀ before a after, past = before ++ a :: after → a.reply = a.request.due (standing before a.board)

def Request.frees (key : UInt32) : Request → Bool
  | .reset k _ _ | .remove k => k = key
  | .clear => true
  | _ => false

section Answered
variable {past before : List Asked} {a : Asked} {b : BoardId} {key : UInt32} {s : Slot}

theorem answered_nil : Answered [] := by simp [Answered]

theorem answered_snoc :
    Answered (past ++ [a]) ↔ Answered past ∧ a.reply = a.request.due (standing past a.board) := by
  constructor
  · intro h
    exact ⟨fun before c after hc => h before c (after ++ [a]) (by simp [hc]), h past a [] rfl⟩
  · rintro ⟨h, ha⟩ before c after hc
    obtain rfl | ⟨after, d, rfl⟩ := after.eq_nil_or_concat
    · obtain ⟨rfl, rfl⟩ := List.append_singleton_inj.mp hc
      exact ha
    · rw [List.concat_eq_append, ← List.cons_append, ← List.append_assoc] at hc
      obtain ⟨rfl, -⟩ := List.append_singleton_inj.mp hc
      exact h before c after rfl

theorem Asked.leaves_cases (a : Asked) (key : UInt32) :
    a.leaves key = none ∨ a.request.frees key = true ∨
      ∃ T v, a.request = .set key T v ∧ a.reply.isOk = true ∧
        a.leaves key = some (some ⟨T, v⟩) := by
  obtain ⟨b, q, reply⟩ := a
  cases q with
  | set k T v =>
    by_cases hk : k = key
    · subst hk
      cases reply with
      | error e => exact .inl (by simp [leaves, Except.isOk, Except.toBool])
      | ok r => exact .inr (.inr ⟨T, v, rfl, rfl, by simp [leaves, Except.isOk, Except.toBool]⟩)
    · exact .inl (by simp [leaves, hk])
  | reset k T v | remove k =>
    by_cases hk : k = key
    · exact .inr (.inl (by simp [Request.frees, hk]))
    · exact .inl (by simp [leaves, hk])
  | clear => exact .inr (.inl rfl)
  | _ => exact .inl rfl

/-- A write that is accepted over one that stands has its kind. -/
theorem kind_eq_of_due {w : UInt32 → Option Slot} {T : Kind} {v : T.Val} (hs : w key = some s)
    (h : (Request.due w (.set key T v)).isOk = true) : T = s.kind := by
  by_contra hne
  rw [Request.due, hs, Reading.of_other (Ne.symm hne)] at h
  cases h

theorem Answered.kind_eq {between : List Asked} (h : Answered (before ++ between))
    (hs : standing before b key = some s)
    (kept : ∀ a ∈ between, a.board = b → a.request.frees key = false) :
    ∃ s', standing (before ++ between) b key = some s' ∧ s'.kind = s.kind := by
  induction between using List.reverseRecOn with
  | nil => exact ⟨s, by simpa using hs, rfl⟩
  | append_singleton between a ih =>
    rw [← List.append_assoc, answered_snoc] at h
    obtain ⟨s', hs', hkind⟩ := ih h.1 fun c hc => kept c (List.mem_append_left _ hc)
    rw [← List.append_assoc, standing_snoc]
    by_cases hb : a.board = b
    · rw [if_pos hb]
      obtain hnone | hfree | ⟨T, v, hset, hok, hleaves⟩ := a.leaves_cases key
      · exact ⟨s', by rw [hnone, hs', Option.getD_none], hkind⟩
      · rw [kept a (by simp) hb] at hfree
        cases hfree
      · rw [h.2, hset, hb] at hok
        exact ⟨⟨T, v⟩, by rw [hleaves, Option.getD_some], (kind_eq_of_due hs' hok).trans hkind⟩
    · rw [if_neg hb]
      exact ⟨s', hs', hkind⟩

end Answered

def World.Recalls (w : World σ) (past : List Asked) : Prop :=
  ∀ b : BoardId, b.index < w.boards.size → (w.board b).slot? = standing past b

section Converse
variable {w : World σ} {past : List Asked} {b : BoardId}

theorem World.Recalls.ask (h : w.Recalls past) (hb : b.index < w.boards.size) (q : Request) :
    (w.ask b q).1 = q.due (standing past b) ∧
      (w.ask b q).2.Recalls (past ++ [⟨b, q, (w.ask b q).1⟩]) := by
  refine ⟨(Board.reply_answer _ q).trans (by rw [h b hb]), fun b' hb' => ?_⟩
  rw [size_ask] at hb'
  funext key
  rw [standing_snoc, ← h b' hb']
  change ((w.putBoard b ((w.board b).answer q).2).board b').slot? key = _
  rw [board_putBoard hb]
  by_cases hbb : b = b'
  · subst hbb
    rw [if_pos rfl, if_pos rfl]
    exact (w.board b).slot?_answer b q key
  · rw [if_neg hbb, if_neg hbb]

theorem converse_recalls {qs : List (BoardId × Request)}
    (known : ∀ x ∈ qs, x.1.index < w.boards.size) (h : w.Recalls past) (hp : Answered past) :
    let o := converse qs w
    o.2.Recalls (past ++ o.1) ∧ Answered (past ++ o.1) ∧
      o.1.map (fun a => (a.board, a.request)) = qs := by
  induction qs generalizing w past with
  | nil => simpa [converse] using ⟨h, hp⟩
  | cons x qs ih =>
    obtain ⟨b, q⟩ := x
    obtain ⟨hb, hqs⟩ := List.forall_mem_cons.mp known
    obtain ⟨hreply, hasked⟩ := h.ask hb q
    have hsize : (w.ask b q).2.boards.size = w.boards.size := w.size_ask b q
    have hlater := ih (hsize ▸ hqs) hasked (answered_snoc.mpr ⟨hp, hreply⟩)
    simpa [converse] using hlater

def World.blank (boards : Nat) (signals : Array Bool) (shared : σ) : World σ :=
  ⟨Array.replicate boards .empty, signals, shared⟩

theorem World.recalls_blank (boards : Nat) (signals : Array Bool) (shared : σ) :
    (World.blank boards signals shared).Recalls [] := by
  intro b hb
  funext key
  have hb : b.index < boards := by simpa [World.blank] using hb
  simp [World.board, World.blank, hb, standing]

/-- Over any boards and through any handles, each reply is fixed by the requests to the same board
before it. A refused request changes nothing, and as long as a key is not freed or bound anew, it
keeps to the kind of the write that stands under it. -/
theorem answered_of_converse (boards : Nat) (signals : Array Bool) (shared : σ)
    (qs : List (BoardId × Request)) (known : ∀ x ∈ qs, x.1.index < boards) :
    let o := converse qs (World.blank boards signals shared)
    o.1.map (fun a => (a.board, a.request)) = qs ∧
      (∀ before a after, o.1 = before ++ a :: after →
        a.reply = a.request.due (standing before a.board)) ∧
      (∀ b q e, (o.2.ask b q).1 = .error e → (o.2.ask b q).2 = o.2) ∧
      ∀ before between after b key s, o.1 = before ++ between ++ after →
        standing before b key = some s →
        (∀ a ∈ between, a.board = b → a.request.frees key = false) →
        ∃ s', standing (before ++ between) b key = some s' ∧ s'.kind = s.kind := by
  intro o
  have hsize : (World.blank boards signals shared).boards.size = boards := by simp [World.blank]
  obtain ⟨-, hanswered, hrequests⟩ := converse_recalls (hsize.symm ▸ known)
    (World.recalls_blank boards signals shared) answered_nil
  refine ⟨hrequests, hanswered, fun b q e => World.ask_refused, ?_⟩
  intro before between after b key s ho hs kept
  refine Answered.kind_eq (fun x a y hx => ?_) hs kept
  exact hanswered x a (y ++ after) (by simpa [hx] using ho)

/-- Two boards: a write to one, a reader of the other, and a write of another kind that is refused
until the key is free. -/
theorem answered_of_converse_refused :
    let qs : List (BoardId × Request) := [(⟨0⟩, .set 1 .u32 7), (⟨1⟩, .get 1 .u32),
      (⟨0⟩, .set 1 .bool true), (⟨0⟩, .remove 1), (⟨0⟩, .set 1 .bool true), (⟨0⟩, .size)]
    let o := converse qs (World.blank 2 #[] ())
    (∀ x ∈ qs, x.1.index < 2) ∧
      o.1.map (·.reply) = [.ok .done, .error (.keyNotFound 1), .error (.typeMismatch 1 .u32 .bool),
        .ok (.flag true), .ok .done, .ok (.count 1)] ∧
      ∀ before a after, o.1 = before ++ a :: after →
        a.reply = a.request.due (standing before a.board) := by
  intro qs o
  have known : ∀ x ∈ qs, x.1.index < 2 := by decide
  exact ⟨known, rfl, (answered_of_converse 2 #[] () qs known).2.1⟩

end Converse
end TickTree
