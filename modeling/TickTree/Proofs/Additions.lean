import TickTree.Proofs.Firmness
import TickTree.Proofs.Sessions
import TickTree.Proofs.Unwinding
/-! Parts that are added to a tree between its calls. Only an idle root takes them, and then no node
of the tree is active, so that no cursor, order or timer is ever used past the lists it was made
for. -/
namespace TickTree
variable {H : Host}

/-! ### Positions of children -/

namespace Behavior

theorem Fits.cursor_le {b : Behavior H} {n : Nat} (h : b.Fits n) : b.cursor ≤ n := by
  cases b with
  | selector cursor | sequence cursor => exact h
  | randomSelector cursor order => exact h.1
  | _ => exact Nat.zero_le n

theorem cursor_finish (s : Setting) (r : Status) (b : Behavior H) (st : Stage H) :
    (b.finish s r st).value.cursor = 0 := by
  cases b <;> rfl

theorem start_panicked {s : Setting} {v : View} {n : Nat} {b : Behavior H} {st : Stage H}
    {p : Panic} (h : (b.start s v n st).value.1 = .error p) : p = .rangeOverflow := by
  cases b with
  | wait w =>
    rw [start_wait] at h
    obtain ⟨-, ⟨-, hstart, -⟩ | ⟨-, -, hstart⟩ | ⟨_, _, -, -, hstart, -⟩⟩ :=
      w.start_cases st.rng <;>
      rw [hstart] at h <;> cases h
    rfl
  | _ => cases h

theorem Answers.panicked {dt : Float32} {n : Nat} {b b' : Behavior H} {log : Log} {p : Panic}
    (h : b.Answers dt n log (.error (.panicked p)) b') : ∃ i, (i, .error (.panicked p)) ∈ log := by
  obtain ⟨⟨a, rfl⟩, -⟩ | ⟨before, i, rfl⟩ := h.stopped
  · -- an action answers with a fault of its own
    generalize hanswer : (.error (.panicked p) : Answer) = answer at h
    cases h with
    | @action _ _ answer => cases answer <;> cases hanswer
  · exact ⟨i, by simp⟩

end Behavior

namespace Node

/-- No cursor in the tree is past the children. -/
def Ranged (n : Node H) : Prop := n.All fun f cs => f.behavior.cursor ≤ cs.length

theorem ranged_of_cursors {n : Node H} (h : ∀ f ∈ n.frames, f.behavior.cursor = 0) : n.Ranged := by
  induction n with
  | mk f cs ih =>
    rw [frames_mk, List.forall_mem_cons] at h
    obtain ⟨hf, hcs⟩ := h
    refine .mk (by simp [hf]) fun c hc => ih c hc fun g hg => hcs g ?_
    exact List.mem_flatMap.mpr ⟨c, hc, hg⟩

theorem ranged_settle {n : Node H} (h : n.Ranged) : n.settle.Ranged := by
  induction n with
  | mk f cs ih =>
    obtain ⟨hf, hcs⟩ := all_mk.mp h
    rw [settle_mk]
    split
    · refine .mk (by simpa using hf) fun c hc => ?_
      obtain ⟨c, hm, rfl⟩ := List.mem_map.mp hc
      exact ih c hm (hcs c hm)
    · exact .mk (by simpa using hf) hcs

theorem ranged_execute (s : Setting) (dt : Float32) {n : Node H} (h : n.Sound) (hn : n.Ranged)
    (st : Stage H) : (n.execute s dt st).value.2.Ranged := by
  let P : Law H := fun n _ o => n.Ranged → o.value.2.Ranged
  refine execute_rule (P := P) (fun f cs st o hs _ h hn => ?_) h st hn
  obtain ⟨hfits, -⟩ := all_mk.mp hs
  obtain ⟨-, hcs⟩ := all_mk.mp hn
  cases h with
  | refused guarded aborted =>
    obtain ⟨rfl, -⟩ := abort_eq aborted
    exact ranged_settle hn
  | panicked guarded activated => exact .mk (Frame.activate_fits hfits activated).cursor_le hcs
  | @ticked f' as raw answer b cs' n st₁ st₂ st₃ st₄ st' tr₁ tr₂ tr₃ tr₄ tr₅ guarded activated
      served fits ticked resolved =>
    obtain ⟨hb, hlength, hcs'⟩ : b.Fits cs.length ∧ cs'.length = cs.length ∧
        ∀ c ∈ cs', c.Ranged := by
      cases ticked with
      | mk _ _ _ visits answers =>
        exact ⟨answers.fits fits, visits.length_eq,
          visits.forall_mem (fun _ _ _ h hc => h.1 hc) hcs⟩
    have hcursor : b.cursor ≤ cs'.length := hlength ▸ hb.cursor_le
    cases resolved with
    | stopped => exact .mk hcursor hcs'
    | kept => exact .mk hcursor hcs'
    | @concluded raw result n st₅ st₆ _ _ modified terminal concluded =>
      have hvalue := Frame.value_conclude s result
        ({ f' with services := as, behavior := b }.aged dt) cs' st₅
      rw [concluded] at hvalue
      obtain rfl := hvalue
      refine .mk ?_ fun c hc => ?_
      · exact Nat.le_trans (Nat.le_of_eq (Behavior.cursor_finish s result b st₅)) (Nat.zero_le _)
      · obtain ⟨c, hm, rfl⟩ := List.mem_map.mp hc
        exact ranged_settle (hcs' c hm)

theorem execute_panicked (s : Setting) (dt : Float32) {n : Node H} (h : n.Sound) (st : Stage H)
    {p : Panic} (hp : (n.execute s dt st).value.1 = .error (.panicked p)) : p = .rangeOverflow := by
  let P : Law H := fun _ _ o => o.value.1 = .error (.panicked p) → p = .rangeOverflow
  refine execute_rule (P := P) (fun f cs st o _ _ h hp => ?_) h st hp
  cases h with
  | refused => cases hp
  | @panicked p' f' st₁ _ _ _ guarded activated =>
    obtain rfl : p' = p := by cases hp; rfl
    cases hf : f.active with
    | true =>
      rw [Frame.activate_of_active hf] at activated
      cases activated
    | false =>
      obtain ⟨v, hstarted, -⟩ := Frame.activate_of_idle hf s cs.length st₁
      rw [activated] at hstarted
      exact Behavior.start_panicked hstarted.symm
  | ticked guarded activated served fits ticked resolved =>
    cases resolved with
    | stopped =>
      cases ticked with
      | mk _ _ _ visits answers =>
        cases hp
        obtain ⟨i, hi⟩ := answers.panicked
        obtain ⟨c, _, o, -, hlaw, ho⟩ := visits.exists_of_log _ hi
        exact hlaw.1 ho
    | kept => cases hp
    | concluded => cases hp

end Node

/-! ### Timers -/

/-- The services of a node and their timers, as two lists that are read by position. -/
structure Bench (H : Host) where
  services : List (Service H)
  timers : List Float32

namespace Bench

def of (as : List (Attachment H)) : Bench H := ⟨as.map (·.service), as.map (·.timer)⟩

def push (v : Service H) (b : Bench H) : Bench H := ⟨b.services ++ [v], b.timers ++ [0]⟩

/-- Goes through the positions given, of which each has its service, its timer and what is done with
them, and sets the timers anew. There is no outcome if one of the lists ends before a position. -/
def each (step : Nat → Service H → Float32 → Exec H Float32) :
    List Nat → Bench H → Exec H (Option (Bench H))
  | [], b => pure (some b)
  | i :: is, b =>
    match b.services[i]?, b.timers[i]? with
    | some v, some t => do
      let t ← step i v t
      each step is { b with timers := b.timers.set i t }
    | _, _ => pure none

def all (step : Nat → Service H → Float32 → Exec H Float32) (b : Bench H) :
    Exec H (Option (Bench H)) := b.each step (List.range b.services.length)

def attach (s : Setting) (v : View) : Bench H → Exec H (Option (Bench H)) :=
  all fun slot a _ => do
    Exec.hook v (.attached slot)
    .reach (H.attached a.label s.scope v)
    pure 0

def serve (s : Setting) (v : View) (dt : Float32) : Bench H → Exec H (Option (Bench H)) :=
  all fun slot a timer =>
    let time := timer + dt
    if a.threshold ≤ time then do
      Exec.hook v (.serviced slot dt)
      .reach (H.serve a.label s.scope v dt)
      pure 0
    else pure time

def detach (s : Setting) (v : View) : Bench H → Exec H (Option (Bench H)) :=
  all fun slot a _ => do
    Exec.hook v (.detached slot)
    .reach (H.detached a.label s.scope v)
    pure 0

def pass (step : Nat → Service H → Float32 → Exec H Float32) (slot : Nat) :
    List (Attachment H) → Exec H (List (Attachment H))
  | [] => pure []
  | a :: as => do
    let t ← step slot a.service a.timer
    let as ← pass step (slot + 1) as
    pure ({ a with timer := t } :: as)

variable {step : Nat → Service H → Float32 → Exec H Float32}

theorem of_push (as : List (Attachment H)) (v : Service H) :
    of (as ++ [.idle v]) = (of as).push v := by
  simp [of, push, Attachment.idle]

/-- Where each service has its timer, no position is past the lists. -/
theorem each_of (done as : List (Attachment H)) :
    (of (done ++ as)).each step (List.range' done.length as.length) =
      pass step done.length as >>= fun as => pure (some (of (done ++ as))) := by
  induction as generalizing done with
  | nil => rfl
  | cons a as ih =>
    have hservice : (of (done ++ a :: as)).services[done.length]? = some a.service := by simp [of]
    have htimer : (of (done ++ a :: as)).timers[done.length]? = some a.timer := by simp [of]
    rw [List.length_cons, List.range'_succ, each, hservice, htimer, pass]
    simp only [bind_assoc, pure_bind]
    congr 1
    funext t
    have hset : { of (done ++ a :: as) with
        timers := (of (done ++ a :: as)).timers.set done.length t } =
        of ((done ++ [{ a with timer := t }]) ++ as) := by simp [of]
    have hrest := ih (done ++ [{ a with timer := t }])
    rw [List.length_append, List.length_singleton] at hrest
    rw [hset, hrest]
    simp

theorem all_of (as : List (Attachment H)) :
    (of as).all step = pass step 0 as >>= fun as => pure (some (of as)) := by
  have h : (of as).each step (List.range' 0 as.length) = _ := each_of [] as
  simpa [all, of, List.range_eq_range'] using h

theorem all_reset {each : Nat → List (Attachment H) → Exec H Unit}
    (hzero : ∀ slot v t, step slot v t = step slot v t >>= fun _ => pure 0)
    (hnil : ∀ slot, each slot [] = pure ())
    (hcons : ∀ slot a as, each slot (a :: as) =
      step slot a.service a.timer >>= fun _ => each (slot + 1) as) (as : List (Attachment H)) :
    (of as).all step = each 0 as >>= fun _ => pure (some (of (as.map Attachment.reset))) := by
  have hpass (slot : Nat) : pass step slot as =
      each slot as >>= fun _ => pure (as.map Attachment.reset) := by
    induction as generalizing slot with
    | nil => rw [hnil]; rfl
    | cons a as ih =>
      rw [pass, hzero slot a.service a.timer, hcons]
      simp only [bind_assoc, pure_bind, ih]
      rfl
  rw [all_of, hpass, bind_assoc]
  simp only [pure_bind]

variable (s : Setting) (v : View)

theorem attach_of (as : List (Attachment H)) : (of as).attach s v =
    Frame.attach s v 0 as >>= fun _ => pure (some (of (as.map Attachment.reset))) := by
  refine all_reset (fun _ _ _ => ?_) (fun _ => rfl) (fun _ _ _ => ?_) as
  · simp only [bind_assoc, pure_bind]
  · simp only [Frame.attach, bind_assoc, pure_bind]

example (s : Setting) (v : View) (st : Stage H) (a : Service H) :
    ((Bench.mk [a] []).attach s v st).value = none := rfl

theorem detach_of (as : List (Attachment H)) : (of as).detach s v =
    Frame.detach s v 0 as >>= fun _ => pure (some (of (as.map Attachment.reset))) := by
  refine all_reset (fun _ _ _ => ?_) (fun _ => rfl) (fun _ _ _ => ?_) as
  · simp only [bind_assoc, pure_bind]
  · simp only [Frame.detach, bind_assoc, pure_bind]

theorem serve_of (dt : Float32) (as : List (Attachment H)) : (of as).serve s v dt =
    Frame.serve s v dt 0 as >>= fun as => pure (some (of as)) := by
  rw [serve, all_of]
  congr 1
  generalize 0 = slot
  induction as generalizing slot with
  | nil => rfl
  | cons a as ih =>
    simp only [pass, Frame.serve, Attachment.advance, ih]
    split
    · simp only [bind_assoc, pure_bind]
      rfl
    · simp only [pure_bind]
      rfl

end Bench

/-! ### Edits of the root -/

inductive Edit (H : Host) where
  | child (c : Node H)
  | decorator (d : Decorator H)
  | service (v : Service H)

namespace Edit

def apply : Edit H → Node H → Except Fault (Node H)
  | child c, n => n.addChild c
  | decorator d, n => n.addDecorator d
  | service v, n => n.addService v

/-- The answer of the edit and the node after it, which an edit that is refused leaves alone. -/
def act (e : Edit H) (n : Node H) : Except Fault Unit × Node H :=
  match e.apply n with
  | .error fault => (.error fault, n)
  | .ok n => (.ok (), n)

def appended : Edit H → Node H → Node H
  | child c, .mk f cs => .mk f (cs ++ [c])
  | decorator d, .mk f cs => .mk { f with decorators := f.decorators ++ [d] } cs
  | service v, .mk f cs => .mk { f with services := f.services ++ [.idle v] } cs

def child? : Edit H → Option (Node H)
  | child c => some c
  | _ => none

theorem act_of_active {n : Node H} (h : n.isActive = true) (e : Edit H) :
    e.act n = (.error .activeNode, n) := by
  have happly : e.apply n = .error .activeNode := by cases e <;> exact if_pos h
  rw [act, happly]

theorem act_of_idle {n : Node H} (h : n.isActive = false) (e : Edit H) :
    e.act n = (.ok (), e.appended n) := by
  have happly : e.apply n = .ok (e.appended n) := by
    cases n with
    | mk f cs => cases e <;> exact if_neg (by simpa using h)
  rw [act, happly]

theorem idle_appended {e : Edit H} (he : ∀ c ∈ e.child?, c.Idle) {n : Node H} (h : n.Idle) :
    (e.appended n).Idle := by
  cases n with
  | mk f cs =>
    have hf : f.active = false := Node.isActive_of_idle h
    cases e with
    | child c =>
      refine Node.idle_mk hf fun d hd => ?_
      obtain hd | hd := List.mem_append.mp hd
      · exact h.below d hd
      · exact he d (List.mem_singleton.mp hd ▸ rfl)
    | decorator d => exact Node.idle_mk hf h.below
    | service v => exact Node.idle_mk hf h.below

theorem ranged_appended {e : Edit H} (he : ∀ c ∈ e.child?, c.Ranged) {n : Node H} (h : n.Ranged) :
    (e.appended n).Ranged := by
  cases n with
  | mk f cs =>
    obtain ⟨hf, hcs⟩ := Node.all_mk.mp h
    cases e with
    | child c =>
      refine .mk ?_ fun d hd => ?_
      · rw [List.length_append]
        exact Nat.le_add_right_of_le hf
      · obtain hd | hd := List.mem_append.mp hd
        · exact hcs d hd
        · exact he d (List.mem_singleton.mp hd ▸ rfl)
    | decorator d => exact .mk hf hcs
    | service v => exact .mk hf hcs

end Edit

inductive Step (H : Host) where
  | move (m : Move H)
  | edit (e : Edit H)

namespace Step

def act : Step H → Rooted H → Exec H (List Answer × Rooted H)
  | move m, t => m.act t
  | edit e, t => pure ([], { t with root := (e.act t.root).2 })

def child? : Step H → Option (Node H)
  | move _ => none
  | edit e => e.child?

end Step

def develop : List (Step H) → Rooted H → Exec H (List Answer × Rooted H)
  | [], t => pure ([], t)
  | m :: ms, t => do
    let (answers, t) ← m.act t
    let (more, t) ← develop ms t
    pure (answers ++ more, t)

section Development
variable {ms : List (Step H)} {t : Rooted H}

theorem develop_rule {I : Rooted H → Prop} {A : Answer → Prop}
    (keep : ∀ m ∈ ms, ∀ t st, I t →
      I (m.act t st).value.2 ∧ ∀ a ∈ (m.act t st).value.1, A a) (h : I t) (st : Stage H) :
    I (develop ms t st).value.2 ∧ ∀ a ∈ (develop ms t st).value.1, A a := by
  induction ms generalizing t st with
  | nil => exact ⟨h, by simp [develop]⟩
  | cons m ms ih =>
    obtain ⟨hm, hanswers⟩ := keep m (by simp) t st h
    obtain ⟨hend, hmore⟩ := ih (fun m hm => keep m (List.mem_cons_of_mem _ hm)) hm
      (m.act t st).state
    exact ⟨hend, List.forall_mem_append.mpr ⟨hanswers, hmore⟩⟩

/-- An edit takes place only in an idle tree, which it leaves idle. -/
theorem Edit.closed_act {e : Edit H} (he : ∀ c ∈ e.child?, c.Idle) {n : Node H}
    (h : n.Sound ∧ n.Closed) : (e.act n).2.Sound ∧ (e.act n).2.Closed := by
  cases hn : n.isActive with
  | true => rwa [act_of_active hn]
  | false =>
    rw [act_of_idle hn]
    have hidle := idle_appended he (h.2.idle hn)
    exact ⟨Node.sound_of_idle hidle, Node.closed_of_idle hidle⟩

theorem Edit.ranged_act {e : Edit H} (he : ∀ c ∈ e.child?, c.Ranged) {n : Node H}
    (h : n.Ranged) : (e.act n).2.Ranged := by
  cases hn : n.isActive with
  | true => rwa [act_of_active hn]
  | false =>
    rw [act_of_idle hn]
    exact ranged_appended he h

theorem ranged_act (m : Move H) {t : Rooted H} (h : t.root.Sound ∧ t.root.Ranged) (st : Stage H) :
    (m.act t st).value.2.root.Sound ∧ (m.act t st).value.2.root.Ranged :=
  act_root (I := fun n => n.Sound ∧ n.Ranged)
    (fun _ s dt st h => ⟨Node.sound_execute s dt h.1 st, Node.ranged_execute s dt h.1 h.2 st⟩)
    (fun _ h => ⟨Node.sound_settle h.1, Node.ranged_settle h.2⟩) m h st

theorem panicked_act (m : Move H) {t : Rooted H} (h : t.root.Sound) (st : Stage H) :
    ∀ a ∈ (m.act t st).value.1, ∀ p, a = .error (.panicked p) → p = .rangeOverflow := by
  cases m with
  | execute dt =>
    intro a ha p hp
    obtain rfl : a = (t.root.execute t.setting dt st).value.1 := List.mem_singleton.mp ha
    exact Node.execute_panicked t.setting dt h st hp
  | _ => exact fun _ ha => nomatch ha

variable (idle : t.root.Idle) (given : ∀ m ∈ ms, ∀ c ∈ m.child?, c.Idle) (st : Stage H)
include idle given

/-- Whatever is added in between, the tree suits its nodes, and nothing is active below an idle
node. -/
theorem closed_develop :
    ((develop ms t st).value.2.root.Sound ∧ (develop ms t st).value.2.root.Closed) ∧
      ∀ a ∈ (develop ms t st).value.1, ∀ p, a = .error (.panicked p) → p = .rangeOverflow := by
  refine develop_rule (I := fun t => t.root.Sound ∧ t.root.Closed) (fun m hm t st h => ?_)
    ⟨Node.sound_of_idle idle, Node.closed_of_idle idle⟩ st
  cases m with
  | move m => exact ⟨closed_move m h st, panicked_act m h.1 st⟩
  | edit e => exact ⟨Edit.closed_act (given _ hm) h, fun _ ha => nomatch ha⟩

theorem ranged_develop (ranged : t.root.Ranged) (within : ∀ m ∈ ms, ∀ c ∈ m.child?, c.Ranged) :
    (develop ms t st).value.2.root.Ranged := by
  have hkeep : ∀ m ∈ ms, ∀ (t : Rooted H) st, (t.root.Sound ∧ t.root.Closed) ∧ t.root.Ranged →
      (((m.act t st).value.2.root.Sound ∧ (m.act t st).value.2.root.Closed) ∧
        (m.act t st).value.2.root.Ranged) ∧ ∀ a ∈ (m.act t st).value.1, True := by
    rintro (m | e) hm t st ⟨hclosed, hranged⟩
    · exact ⟨⟨closed_move m hclosed st, (ranged_act m ⟨hclosed.1, hranged⟩ st).2⟩, by simp⟩
    · exact ⟨⟨Edit.closed_act (given _ hm) hclosed, Edit.ranged_act (within _ hm) hranged⟩, by simp⟩
  exact (develop_rule (I := fun t => (t.root.Sound ∧ t.root.Closed) ∧ t.root.Ranged) hkeep
    ⟨⟨Node.sound_of_idle idle, Node.closed_of_idle idle⟩, ranged⟩ st).1.2

end Development

/-- A root takes parts only while it is idle, and then no node of the tree is active. Whatever is
added between executions and aborts, an active node has its cursor among its children, and an order
of just them if it is a random selector; no execution asks for a child that is not there. Every
service has its timer, so that going through both lists by position is what executions do. -/
theorem develops_of_edits {ms : List (Step H)} {t : Rooted H} (idle : t.root.Idle)
    (given : ∀ m ∈ ms, ∀ c ∈ m.child?, c.Idle) (st : Stage H) :
    let o := develop ms t st
    let n := o.value.2.root
    (∀ e : Edit H, (n.isActive = true → e.act n = (.error .activeNode, n)) ∧
        (n.isActive = false → n.Idle ∧ e.act n = (.ok (), e.appended n))) ∧
      (n.All fun f cs => f.active = true → f.behavior.cursor ≤ cs.length ∧
        ∀ cursor order, f.behavior = .randomSelector cursor order →
          order.Perm (List.range cs.length)) ∧
      (t.root.Ranged → (∀ m ∈ ms, ∀ c ∈ m.child?, c.Ranged) → n.Ranged) ∧
      (∀ a ∈ o.value.1, ∀ p, a = .error (.panicked p) → p = .rangeOverflow) ∧
      ∀ f ∈ n.frames, let b := Bench.of f.services
        b.timers.length = b.services.length ∧
          (∀ v, Bench.of (f.services ++ [.idle v]) = b.push v) ∧
          ∀ s v dt,
            b.attach s v = Frame.attach s v 0 f.services >>= (fun _ =>
              pure (some (.of (f.services.map Attachment.reset)))) ∧
            b.serve s v dt = Frame.serve s v dt 0 f.services >>= (fun as =>
              pure (some (.of as))) ∧
            b.detach s v = Frame.detach s v 0 f.services >>= (fun _ =>
              pure (some (.of (f.services.map Attachment.reset)))) := by
  intro o n
  obtain ⟨⟨hsound, hclosed⟩, hanswers⟩ := closed_develop idle given st
  refine ⟨fun e => ⟨fun hn => e.act_of_active hn, fun hn => ⟨hclosed.idle hn, e.act_of_idle hn⟩⟩,
    ?_, ranged_develop idle given st, hanswers, fun f _ => ?_⟩
  · refine hsound.imp fun f cs hf hactive => ⟨(hf hactive).cursor_le, fun cursor order hb => ?_⟩
    have hfits := hf hactive
    rw [hb] at hfits
    exact hfits.2
  · exact ⟨by simp [Bench.of], Bench.of_push _, fun s v dt => ⟨Bench.attach_of s v _,
      Bench.serve_of s v dt _, Bench.detach_of s v _⟩⟩

def Rooted.sprout : Rooted Host.echo :=
  { echo with
    root := .mk { Frame.idle 3 "" (.randomSelector 0 []) with services := [.idle ⟨1, ()⟩] }
      [.mk (.idle 1 "" (.action .running)) []] }

/-- Another leaf is refused while the selector is active. After an abort it is taken, and so is
another service; the next execution draws an order of both leaves. -/
theorem develops_of_edits_sprout :
    let leaf : Node Host.echo := .mk (.idle 2 "" (.action .running)) []
    let start := Rooted.sprout.root
    let ms : List (Step Host.echo) := [.move (.execute 1), .edit (.child leaf), .move .abort,
      .edit (.child leaf), .edit (.service ⟨2, ()⟩), .move (.execute 1)]
    let o := develop ms Rooted.sprout Rooted.still
    let n := o.value.2.root
    (start.Idle ∧ start.Ranged ∧ ∀ m ∈ ms, ∀ c ∈ m.child?, c.Idle ∧ c.Ranged) ∧
      (o.value.1 = [.ok .running, .ok .running] ∧ n.isActive = true ∧ n.children.length = 2 ∧
        n.frame.services.length = 2) ∧
      (Edit.child leaf).act n = (.error .activeNode, n) ∧ n.Ranged ∧
      n.All fun f cs => f.active = true → f.behavior.cursor ≤ cs.length ∧
        ∀ cursor order, f.behavior = .randomSelector cursor order →
          order.Perm (List.range cs.length) := by
  intro leaf start ms o n
  have hidle : start.Idle := by decide
  have hranged : start.Ranged := Node.ranged_of_cursors (by decide)
  have hleaf : leaf.Idle ∧ leaf.Ranged := ⟨by decide, Node.ranged_of_cursors (by decide)⟩
  have hgiven : ∀ m ∈ ms, ∀ c ∈ m.child?, c.Idle ∧ c.Ranged := by
    simpa [ms, Step.child?, Edit.child?] using hleaf
  have hend : o.value.1 = [.ok .running, .ok .running] ∧ n.isActive = true ∧
      n.children.length = 2 ∧ n.frame.services.length = 2 := by decide +kernel
  have h := develops_of_edits hidle (fun m hm c hc => (hgiven m hm c hc).1) Rooted.still
  rw [show develop ms Rooted.sprout Rooted.still = o from rfl] at h
  clear_value o
  obtain ⟨hedits, hall, hwithin, -⟩ := h
  exact ⟨⟨hidle, hranged, hgiven⟩, hend, (hedits _).1 hend.2.1,
    hwithin hranged fun m hm c hc => (hgiven m hm c hc).2, hall⟩

end TickTree
