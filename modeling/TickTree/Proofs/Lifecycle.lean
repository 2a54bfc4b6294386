import TickTree.Proofs.Run
/-! The grammar of the calls on one node. They are activations one after the other; each is opened,
ticked at least once, and ended in one of two ways. -/
namespace TickTree
variable {H : Host} {ν : Type}

inductive Mark where
  | entered
  | hook (h : Hook)
  | exited (result : Status)
  | abandoned

/-- Requests to run, guards, and what a behavior does within its own start or tick are no steps. -/
def Entry.mark : Entry ν → Option Mark
  | hook _ (.executed _) | hook _ (.guarded ..) | hook _ (.drew _) | hook _ (.resumed _) => none
  | hook _ h => some (.hook h)
  | notice _ (.entered ..) => some .entered
  | notice _ (.exited _ r _) => some (.exited r)
  | notice _ (.aborted _) => some .abandoned
  | _ => none

def marks (w : List (Entry ν)) : List Mark := w.filterMap Entry.mark

namespace Mark

def row (h : Nat → Hook) (count : Nat) : List Mark := (List.range count).map fun i => .hook (h i)

def opening (c : Frame H) : List Mark :=
  .entered :: .hook .started :: row .attached c.services.length

def beat (dt : Float32) (as : List (Attachment H)) (raw : Answer) : List Mark :=
  (Attachment.due dt 0 as).map (fun i => .hook (.serviced i dt)) ++
    [.hook (.ticked dt), .hook (.answered raw)]

def naturalEnd (c : Frame H) (r : Status) : List Mark :=
  .hook (.terminated r) :: (row .detached c.services.length ++
    (.exited r :: row (.finished · r) c.decorators.length))

def forcedEnd (c : Frame H) : List Mark :=
  row .aborted c.decorators.length ++
    (row .detached c.services.length ++ [.exited .failure, .abandoned])

/-- One tick with the timers before and after it, up to the result that the modifiers leave. -/
inductive Tick (c : Frame H) (as : List (Attachment H)) :
    List Mark → List (Attachment H) → Answer → Prop
  | stopped {dt : Float32} {stop : Stop} :
    Tick c as (beat dt as (.error stop)) (Attachment.advanceAll dt as) (.error stop)
  | answered {dt : Float32} {raw r : Status} {hs : List Hook}
    (modified : Frame.Modified dt 0 c.decorators raw hs r) :
    Tick c as (beat dt as (.ok raw) ++ hs.map .hook) (Attachment.advanceAll dt as) (.ok r)

/-- An activation that `k` ticks have left open, with its timers. -/
inductive Going (c : Frame H) : Nat → List Mark → List (Attachment H) → Prop
  | opened : Going c 0 (opening c) c.services
  | ticked {k : Nat} {u w : List Mark} {as as' : List (Attachment H)} {a : Answer}
    (before : Going c k u as) (tick : Tick c as w as' a) (stays : ∀ r, a = .ok r → r = .running) :
    Going c (k + 1) (u ++ (w ++ [.hook (.returned a)])) as'

/-- A whole activation, or a request that a guard refuses. -/
inductive Episode (c : Frame H) : List Mark → Prop
  | natural {k : Nat} {u w : List Mark} {as as' : List (Attachment H)} {r : Status}
    (before : Going c k u as) (tick : Tick c as w as' (.ok r)) (terminal : r.isTerminal = true) :
    Episode c (u ++ (w ++ (naturalEnd c r ++ [.hook (.returned (.ok r))])))
  | forced {k : Nat} {u : List Mark} {as : List (Attachment H)} (before : Going c (k + 1) u as) :
    Episode c (u ++ forcedEnd c)
  | refused : Episode c [.hook (.returned (.ok .failure))]

end Mark

/-- Episodes, and at last the activation that is going on if the frame is active. -/
def Frame.Lived (f : Frame H) (u : List Mark) : Prop :=
  ∃ (past : List (List Mark)) (now : List Mark), u = past.flatten ++ now ∧
    (∀ w ∈ past, Mark.Episode f.bare w) ∧
    if f.active then ∃ k, Mark.Going f.bare (k + 1) now f.services else now = []

@[simp] theorem marks_nil : marks ([] : List (Entry ν)) = [] := rfl

@[simp] theorem marks_append (w w' : List (Entry ν)) : marks (w ++ w') = marks w ++ marks w' :=
  List.filterMap_append

theorem marks_cons (e : Entry ν) (w : List (Entry ν)) :
    marks (e :: w) = e.mark.toList ++ marks w := by
  cases h : e.mark <;> simp [marks, h]

theorem marks_eq_nil {w : List (Entry ν)} (h : ∀ e ∈ w, e.mark = none) : marks w = [] := by
  simpa [marks, List.filterMap_eq_nil_iff] using h

theorem marks_map_hook {α : Type} (v : View) (h : α → Hook) (xs : List α)
    (hh : ∀ x ∈ xs, (.hook v (h x) : Entry ν).mark = some (.hook (h x))) :
    marks (xs.map fun x => (.hook v (h x) : Entry ν)) = xs.map fun x => .hook (h x) := by
  induction xs with
  | nil => rfl
  | cons x xs ih =>
    rw [List.map_cons, marks_cons, hh x (by simp), ih fun y hy => hh y (List.mem_cons_of_mem _ hy)]
    rfl

theorem marks_slots (v : View) (h : Nat → Hook) (count : Nat)
    (hh : ∀ i, (.hook v (h i) : Entry ν).mark = some (.hook (h i))) :
    marks (slots v h 0 count : List (Entry ν)) = Mark.row h count := by
  rw [slots, marks_map_hook v h _ fun i _ => hh i, Mark.row, List.range_eq_range']

theorem Frame.Modified.mark_eq {dt : Float32} {slot : Nat} {ds : List (Decorator H)} {r r' : Status}
    {hs : List Hook} (hm : Frame.Modified dt slot ds r hs r') (v : View) :
    ∀ h ∈ hs, (.hook v h : Entry ν).mark = some (.hook h) := by
  intro h hh
  obtain ⟨i, before, after, rfl⟩ := hm.exists_eq h hh
  rfl

namespace Frame

theorem marks_start (s : Setting) (f : Frame H) (b : Behavior H) (drawn : List Draw) :
    marks (f.start s drawn ++ slots (f.begun b).view .attached 0 f.services.length) =
      Mark.opening f.bare := by
  have hdrawn : marks (drawn.map fun d => (.hook ⟨f.id, f.name, true, 0⟩ (.drew d) : Entry H.Note))
      = [] := marks_eq_nil (by simp [Entry.mark])
  rw [marks_append, start, marks_cons, marks_cons, hdrawn, marks_slots _ _ _ fun _ => rfl]
  simp [Entry.mark, Mark.opening, bare]

theorem marks_closing (s : Setting) (r : Status) (f : Frame H) :
    marks (f.closing s r) = Mark.row .detached f.services.length ++ [.exited r] := by
  rw [closing, marks_append, marks_slots _ _ _ fun _ => rfl]
  rfl

theorem marks_forced (s : Setting) (f : Frame H) : marks (f.forced s) = Mark.forcedEnd f.bare := by
  rw [forced, marks_append, marks_append, marks_slots _ _ _ fun _ => rfl, marks_closing]
  simp [marks_cons, Entry.mark, Mark.forcedEnd, bare]

theorem marks_guards {v : View} {gs : List (Entry ν)}
    (h : ∀ e ∈ gs, ∃ i passed, e = .hook v (.guarded i passed)) : marks gs = [] := by
  refine marks_eq_nil fun e he => ?_
  obtain ⟨i, passed, rfl⟩ := h e he
  rfl

theorem lived_ended {f : Frame H} {past : List (List Mark)} {now w : List Mark}
    (idle : f.active = false) (hpast : ∀ w ∈ past, Mark.Episode f.bare w)
    (h : Mark.Episode f.bare (now ++ w)) : f.Lived (past.flatten ++ now ++ w) := by
  refine ⟨past ++ [now ++ w], [], by simp, fun u hu => ?_, by simp [idle]⟩
  obtain hu | hu := List.mem_append.mp hu
  · exact hpast u hu
  · rwa [List.mem_singleton.mp hu]

theorem lived_forced {s : Setting} {f : Frame H} (hf : f.active = true) {u : List Mark}
    (h : f.Lived u) : f.ended.Lived (u ++ marks (f.forced s)) := by
  obtain ⟨past, now, rfl, hpast, hnow⟩ := h
  rw [if_pos hf] at hnow
  obtain ⟨k, hgoing⟩ := hnow
  rw [marks_forced]
  refine lived_ended rfl ?_ ?_
  · rwa [bare_ended]
  · rw [bare_ended]
    exact .forced hgoing

theorem lived_refused {s : Setting} {f : Frame H} {u : List Mark} (h : f.Lived u) :
    f.settle.Lived (u ++ (marks (f.sweep s) ++ [.hook (.returned (.ok .failure))])) := by
  have hswept : f.settle.Lived (u ++ marks (f.sweep s)) := by
    unfold settle sweep
    by_cases hf : f.active = true
    · simpa [hf] using lived_forced hf h
    · simpa [hf] using h
  obtain ⟨past, now, hu, hpast, hnow⟩ := hswept
  rw [if_neg (by simp)] at hnow
  subst hnow
  rw [← List.append_assoc, hu]
  exact lived_ended (by simp) hpast .refused

/-- Once an activation is open, the marks so far are episodes and what is going on. -/
theorem lived_opens {s : Setting} {f f' : Frame H} {op : List (Entry H.Note)} {u : List Mark}
    (h : f.Lived u) (hop : f.Opens s op f') :
    f'.active = true ∧ ∃ (past : List (List Mark)) (now : List Mark) (k : Nat),
      u ++ marks op = past.flatten ++ now ∧
      (∀ w ∈ past, Mark.Episode f'.bare w) ∧ Mark.Going f'.bare k now f'.services := by
  have hbare := hop.bare_eq
  obtain ⟨past, now, rfl, hpast, hnow⟩ := h
  cases hop with
  | already hf =>
    rw [if_pos hf] at hnow
    obtain ⟨k, hgoing⟩ := hnow
    exact ⟨hf, past, now, k + 1, by simp, hpast, hgoing⟩
  | @fresh b drawn hf =>
    rw [if_neg (by simp [hf])] at hnow
    refine ⟨rfl, past, Mark.opening f.bare, 0, ?_, ?_, ?_⟩
    · rw [marks_start, hnow, List.append_nil]
    · rwa [hbare]
    · rw [hbare]
      exact .opened

theorem lived_settles {s : Setting} {dt : Float32} {f f' : Frame H} {b : Behavior H}
    {raw answer : Answer} {w : List (Entry H.Note)} {past : List (List Mark)} {now : List Mark}
    {k : Nat} (hf : f.active = true) (hpast : ∀ w ∈ past, Mark.Episode f.bare w)
    (hgoing : Mark.Going f.bare k now f.services)
    (h : { f with services := Attachment.advanceAll dt f.services, behavior := b }.Settles
      s dt raw answer w f') :
    f'.Lived (past.flatten ++ now ++ (Mark.beat dt f.services raw ++
      (marks w ++ [.hook (.returned answer)]))) := by
  have hbare : f'.bare = f.bare := by rw [h.bare_eq, bare_served]
  have hmodified {raw r : Status} {hs : List Hook} (v : View)
      (hm : Modified dt 0 f.decorators raw hs r) :
      marks (hs.map (.hook v : Hook → Entry H.Note)) = hs.map .hook :=
    marks_map_hook v (fun h => h) hs (hm.mark_eq v)
  have hopen {w : List Mark} {a : Answer} (hf' : f'.active = true)
      (ht : Mark.Tick f.bare f.services w f'.services a) (ha : ∀ r, a = .ok r → r = .running) :
      f'.Lived (past.flatten ++ now ++ (w ++ [.hook (.returned a)])) := by
    refine ⟨past, now ++ (w ++ [.hook (.returned a)]), by simp, ?_, ?_⟩
    · rwa [hbare]
    · rw [if_pos hf', hbare]
      exact ⟨k, .ticked hgoing ht ha⟩
  have hclosed {w : List Mark} (hf' : f'.active = false) (he : Mark.Episode f.bare (now ++ w)) :
      f'.Lived (past.flatten ++ now ++ w) := by
    rw [← hbare] at hpast he
    exact lived_ended hf' hpast he
  cases h with
  | stopped => simpa using hopen hf .stopped (by simp)
  | kept modified =>
    have ht : Mark.Tick f.bare f.services _ _ _ := .answered modified
    rw [hmodified _ modified]
    simpa using hopen hf ht (by simp)
  | @concluded raw r hs b' modified terminal =>
    have ht : Mark.Tick f.bare f.services _ _ _ := .answered modified
    have hend := hclosed rfl (.natural hgoing ht terminal)
    rw [marks_append, hmodified _ modified, marks_cons, marks_append, marks_closing,
      marks_slots _ _ _ fun _ => rfl]
    simpa [Entry.mark, Mark.naturalEnd, bare, aged, Attachment.advanceAll] using hend

theorem Visit.lived {s : Setting} {dt : Float32} {f f' : Frame H} {answer : Answer}
    {w : List (Entry H.Note)} (h : f.Visit s dt answer w f')
    (calm : ∀ p, answer ≠ .error (.panicked p)) {u : List Mark} (hu : f.Lived u) :
    f'.Lived (u ++ marks w) := by
  cases h with
  | refused guards =>
    simpa [marks_cons, Entry.mark, marks_guards guards] using lived_refused (s := s) hu
  | panicked => exact absurd rfl (calm _)
  | @ticked gs op rs w f₁ _ n log raw _ b guards opens resumes answers settles =>
    obtain ⟨hactive, past, now, k, hu, hpast, hgoing⟩ := lived_opens hu opens
    have hlived := lived_settles hactive hpast hgoing settles
    have hresumes : marks rs = [] := marks_eq_nil fun e he => by
      obtain ⟨cursor, rfl⟩ := resumes e he
      rfl
    have hserved : marks ((Attachment.due dt 0 f₁.services).map
        fun i => (.hook f₁.view (.serviced i dt) : Entry H.Note)) =
        (Attachment.due dt 0 f₁.services).map fun i => .hook (.serviced i dt) :=
      marks_map_hook f₁.view _ _ fun _ _ => rfl
    rw [← hu] at hlived
    simpa [marks_cons, Entry.mark, marks_guards guards, hserved, hresumes, Mark.beat] using hlived

/-- The law of lifecycles. It leaves out executions that panic. -/
def lifecycle : FrameLaw H where
  covers a := ∀ p, a ≠ .error (.panicked p)
  covers_ok := by simp
  holds f w f' := f'.bare = f.bare ∧ ∀ u, f.Lived u → f'.Lived (u ++ marks w)
  refl f := ⟨rfl, by simp⟩
  trans h h' := by
    refine ⟨h'.1.trans h.1, fun u hu => ?_⟩
    rw [marks_append, ← List.append_assoc]
    exact h'.2 _ (h.2 u hu)
  forced s f hf := ⟨f.bare_ended, fun _ => lived_forced hf⟩
  visit h calm := ⟨h.bare_eq, fun _ => h.lived calm⟩

end Frame

/-- Whatever callbacks do, the calls on every node of a tree of idle nodes are episodes, and at last
the activation that is going on. -/
theorem lived_of_play (ms : List (Move H)) {t : Rooted H} (idle : t.root.Idle)
    (distinct : t.root.ids.Nodup) (st : Stage H)
    (calm : ∀ a ∈ (play ms t st).value.1, ∀ p, a ≠ .error (.panicked p)) :
    (play ms t st).value.2.root.shape = t.root.shape ∧
      ∀ f ∈ (play ms t st).value.2.root.frames,
        f.Lived (marks (own f.id (play ms t st).trace)) := by
  have hsound := Node.sound_of_idle idle
  refine ⟨shape_play ms hsound st, ?_⟩
  have htracks := play_tracks Frame.lifecycle ms ⟨hsound, distinct⟩ st calm
  intro f hf
  obtain ⟨g, hg, hid, -, hlived⟩ := exists_left htracks hf
  rw [hid]
  refine hlived [] ⟨[], [], rfl, by simp, ?_⟩
  rw [if_neg (by simp [idle g hg])]

theorem lived_of_play_echo :
    (Rooted.echo.root.Idle ∧ Rooted.echo.root.ids.Nodup) ∧
      ∀ f ∈ (play [.execute 1, .abort] Rooted.echo Rooted.still).value.2.root.frames,
        f.Lived (marks (own f.id (play [.execute 1, .abort] Rooted.echo Rooted.still).trace)) := by
  have hanswers :
      (play [.execute 1, .abort] Rooted.echo Rooted.still).value.1 = [.ok .running] := by
    decide +kernel
  exact ⟨by decide, (lived_of_play _ (by decide) (by decide) _ (by simp [hanswers])).2⟩

end TickTree
