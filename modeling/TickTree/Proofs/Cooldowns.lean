import TickTree.Proofs.Phases
import TickTree.Proofs.Sums
import TickTree.Proofs.Telling
/-! A cooldown in one context: it shuts a node for its seconds after an activation of the node has
ended, never cuts an activation short, and moves its stamp at the ends of activations only. -/
namespace TickTree
variable {H : Host} {ν : Type}

namespace Entry

def ends : Entry ν → Option Nat
  | hook _ (.aborted i) => some i
  | hook _ (.finished i result) => if result.isTerminal then some i else none
  | _ => none

def isExit : Entry ν → Bool
  | notice _ (.exited ..) => true
  | _ => false

end Entry

def exits (w : List (Entry ν)) : Bool := w.any Entry.isExit

@[simp] theorem exits_append (w w' : List (Entry ν)) : exits (w ++ w') = (exits w || exits w') :=
  List.any_append

def Calm (w : List (Entry ν)) : Prop := ∀ e ∈ w, e.ends = none ∧ e.isExit = false

structure Ends (n : Nat) (w : List (Entry ν)) : Prop where
  exits : exits w = true
  told : ∀ i < n, ∃ e ∈ w, e.ends = some i

section Ends
variable {n : Nat} {w w' : List (Entry ν)}

@[simp] theorem calm_nil : Calm ([] : List (Entry ν)) := fun e he => by simp at he

@[simp] theorem calm_cons {e : Entry ν} :
    Calm (e :: w) ↔ (e.ends = none ∧ e.isExit = false) ∧ Calm w := List.forall_mem_cons

@[simp] theorem calm_append : Calm (w ++ w') ↔ Calm w ∧ Calm w' := List.forall_mem_append

theorem calm_map {α : Type} (v : View) {h : α → Hook} (xs : List α)
    (hh : ∀ x ∈ xs, (.hook v (h x) : Entry ν).ends = none) :
    Calm (xs.map fun x => (.hook v (h x) : Entry ν)) := by
  intro e he
  obtain ⟨x, hx, rfl⟩ := List.mem_map.mp he
  exact ⟨hh x hx, rfl⟩

theorem Calm.exits_eq (h : Calm w) : exits w = false :=
  List.any_eq_false.mpr fun e he => by simp [(h e he).2]

theorem Ends.mono (h : Ends n w) (hsub : ∀ e ∈ w, e ∈ w') : Ends n w' := by
  constructor
  · obtain ⟨e, he, hexit⟩ := List.any_eq_true.mp h.exits
    exact List.any_eq_true.mpr ⟨e, hsub e he, hexit⟩
  · intro i hi
    obtain ⟨e, he, hends⟩ := h.told i hi
    exact ⟨e, hsub e he, hends⟩

theorem ends_slots (v : View) {h : Nat → Hook} (hh : ∀ i, (.hook v (h i) : Entry ν).ends = some i) :
    ∀ i < n, ∃ e ∈ (slots v h 0 n : List (Entry ν)), e.ends = some i := fun i hi =>
  ⟨.hook v (h i), mem_slots.mpr ⟨i, hi, rfl⟩, hh i⟩

end Ends

namespace Frame
variable {s : Setting} {now dt : Float32} {f g : Frame H} {r r' : Row} {w : List (Entry H.Note)}

theorem calm_guards {v : View} {gs : List (Entry H.Note)}
    (h : ∀ e ∈ gs, ∃ i passed, e = .hook v (.guarded i passed)) : Calm gs := by
  intro e he
  obtain ⟨i, passed, rfl⟩ := h e he
  exact ⟨rfl, rfl⟩

theorem calm_resumed {v : View} {rs : List (Entry H.Note)}
    (h : ∀ e ∈ rs, ∃ cursor, e = .hook v (.resumed cursor)) : Calm rs := by
  intro e he
  obtain ⟨cursor, rfl⟩ := h e he
  exact ⟨rfl, rfl⟩

theorem calm_start (s : Setting) (f : Frame H) (drawn : List Draw) : Calm (f.start s drawn) := by
  have hdrawn : Calm (drawn.map fun d =>
      (.hook ⟨f.id, f.name, true, 0⟩ (.drew d) : Entry H.Note)) := calm_map _ drawn fun _ _ => rfl
  exact calm_cons.mpr ⟨⟨rfl, rfl⟩, calm_cons.mpr ⟨⟨rfl, rfl⟩, hdrawn⟩⟩

theorem Opens.calm {op : List (Entry H.Note)} (h : f.Opens s op g) : Calm op := by
  cases h with
  | already => exact calm_nil
  | @fresh b drawn =>
    have hslots : Calm (slots (f.begun b).view .attached 0 f.services.length :
        List (Entry H.Note)) := calm_map _ _ fun _ _ => rfl
    exact calm_append.mpr ⟨f.calm_start s drawn, hslots⟩

theorem Modified.calm {slot : Nat} {ds : List (Decorator H)} {before after : Status}
    {hs : List Hook} (h : Modified dt slot ds before hs after) (v : View) :
    Calm (hs.map (.hook v) : List (Entry H.Note)) := by
  refine calm_map v hs fun hook hhook => ?_
  obtain ⟨i, a, b, rfl⟩ := h.exists_eq hook hhook
  rfl

theorem exits_closing (s : Setting) (result : Status) (f : Frame H) :
    exits (f.closing s result) = true := by simp [exits, closing, Entry.isExit]

theorem ends_forced (s : Setting) (f : Frame H) : Ends f.decorators.length (f.forced s) := by
  have hexits : exits (f.forced s) = true := by simp [forced, exits_closing]
  refine ⟨hexits, fun i hi => ?_⟩
  obtain ⟨e, he, hends⟩ := ends_slots (ν := H.Note) f.view (h := .aborted) (fun _ => rfl) i hi
  exact ⟨e, by simp [forced, he], hends⟩

theorem Settles.ending {raw answer : Answer} (h : f.Settles s dt raw answer w g)
    (ha : f.active = true) :
    Calm w ∧ g.active = true ∨ Ends f.decorators.length w ∧ g.active = false := by
  cases h with
  | stopped => exact .inl ⟨calm_nil, ha⟩
  | kept modified => exact .inl ⟨modified.calm f.view, ha⟩
  | @concluded _ result hs b modified terminal =>
    right
    refine ⟨⟨by simp [exits, closing, Entry.isExit], fun i hi => ?_⟩, rfl⟩
    obtain ⟨e, he, hends⟩ := ends_slots (ν := H.Note) (f.aged dt).ended.view
      (h := (.finished · result)) (fun j => by simp [Entry.ends, terminal]) i hi
    exact ⟨e, by simp [he], hends⟩

/-- Either an activation ends in a visit, and the node is idle after it, or none does. -/
theorem Visit.ending {answer : Answer} (h : f.Visit s dt answer w g) :
    Calm w ∨ Ends f.decorators.length w ∧ g.active = false := by
  cases h with
  | @refused gs guards =>
    have hgs := calm_guards guards
    by_cases ha : f.active = true
    · right
      refine ⟨?_, f.active_settle⟩
      have hsweep : Ends f.decorators.length (f.sweep s) := by
        rw [sweep, if_pos ha]
        exact f.ends_forced s
      exact hsweep.mono fun e he => by simp [he]
    · left
      simp [f.sweep_of_idle s (by simpa using ha), hgs, Entry.ends, Entry.isExit]
  | panicked drawn guards =>
    left
    simp [calm_guards guards, f.calm_start, Entry.ends, Entry.isExit]
  | @ticked gs op rs w f₁ _ _ _ raw _ b guards opens resumes _ settles =>
    have hgs := calm_guards guards
    have hrs := calm_resumed resumes
    have hserved : Calm ((Attachment.due dt 0 f₁.services).map
        fun i => (.hook f₁.view (.serviced i dt) : Entry H.Note)) := calm_map _ _ fun _ _ => rfl
    obtain ⟨hw, -⟩ | ⟨hw, hidle⟩ := settles.ending opens.active_eq
    · left
      simp [hgs, opens.calm, hserved, hrs, hw, Entry.ends, Entry.isExit]
    · right
      rw [← decorators_eq_of_bare opens.bare_eq]
      exact ⟨hw.mono fun e he => by simp [he], hidle⟩

theorem Swept.ending (h : f.Swept s w g) :
    Calm w ∨ Ends f.decorators.length w ∧ g.active = false := by
  cases h with
  | missed => exact .inl calm_nil
  | reached =>
    by_cases ha : f.active = true
    · right
      rw [sweep, if_pos ha]
      exact ⟨f.ends_forced s, f.active_settle⟩
    · left
      rw [f.sweep_of_idle s (by simpa using ha)]
      exact calm_nil

theorem Once.ending {answer : Answer} (h : f.Once s dt answer w g) :
    Calm w ∨ Ends f.decorators.length w ∧ g.active = false := by
  cases h with
  | missed after => exact after.ending
  | @visited a w w' g g' visit _ after =>
    obtain hw | ⟨hw, hidle⟩ := visit.ending
    · obtain hw' | ⟨hw', hidle'⟩ := after.ending
      · exact .inl (calm_append.mpr ⟨hw, hw'⟩)
      · rw [decorators_eq_of_bare visit.bare_eq] at hw'
        exact .inr ⟨hw'.mono fun e he => by simp [he], hidle'⟩
    · obtain ⟨rfl, rfl⟩ := after.of_idle hidle
      exact .inr ⟨hw.mono fun e he => by simp [he], hidle⟩

/-- A cooldown sits on the node, and no other decorator of the node uses its key. -/
structure CooledBy (c : Cooldown) (f : Frame H) : Prop where
  attached : .cooldown c ∈ f.decorators
  only : ∀ d ∈ f.decorators, d.id? = some c.id → d = .cooldown c

theorem CooledBy.of_bare {c : Cooldown} (h : f.CooledBy c) (hb : g.bare = f.bare) :
    g.CooledBy c := by
  obtain ⟨attached, only⟩ := h
  rw [← decorators_eq_of_bare hb] at attached only
  exact ⟨attached, only⟩

section Stamp
variable {c : Cooldown} {e : Entry H.Note}

theorem CooledBy.noted_eq (h : f.CooledBy c) (r : Row) :
    e.noted now f.decorators r c.id = r c.id ∨
      e.ends ≠ none ∧ e.noted now f.decorators r c.id = some (now + c.seconds) := by
  cases e with
  | hook v hook =>
    rw [Entry.noted]
    cases hd : hook.hearer f.decorators with
    | none => exact .inl rfl
    | some d =>
      obtain ⟨i, -, hi⟩ := Option.bind_eq_some_iff.mp hd
      by_cases hid : d.id? = some c.id
      · obtain rfl := h.only d (List.mem_of_getElem? hi) hid
        cases hook with
        | finished j result =>
          by_cases hr : result.isTerminal = true
          · exact .inr ⟨by simp [Entry.ends, hr], by simp [Decorator.noted, hr]⟩
          · exact .inl (by simp [Decorator.noted, hr])
        | aborted j => exact .inr ⟨by simp [Entry.ends], by simp [Decorator.noted]⟩
        | _ => exact .inl rfl
      · exact .inl (Decorator.noted_of_ne hid)
  | _ => exact .inl rfl

theorem noted_ends {i : Nat} (hi : f.decorators[i]? = some (.cooldown c))
    (he : e.ends = some i) (r : Row) :
    e.noted now f.decorators r c.id = some (now + c.seconds) := by
  cases e with
  | hook v hook =>
    cases hook with
    | finished j result =>
      obtain ⟨hresult, rfl⟩ : result.isTerminal = true ∧ j = i := by
        simpa [Entry.ends] using he
      simp [Entry.noted, Hook.hearer, Hook.slot?, hi, Decorator.noted, hresult]
    | aborted j =>
      obtain rfl : j = i := Option.some.inj he
      simp [Entry.noted, Hook.hearer, Hook.slot?, hi, Decorator.noted]
    | _ => cases he
  | _ => cases he

/-- The stamp moves when an activation ends, and only then. -/
theorem CooledBy.stamp (h : f.CooledBy c) (hr : Recalls now f.decorators r w r')
    (hw : Calm w ∨ Ends f.decorators.length w) :
    r' c.id = if exits w then some (now + c.seconds) else r c.id := by
  obtain hw | hw := hw
  · rw [hw.exits_eq, if_neg (by simp)]
    refine hr.same fun e he r => ?_
    obtain heq | ⟨hends, -⟩ := h.noted_eq (e := e) r
    · exact heq
    · exact absurd (hw e he).1 hends
  · rw [hw.exits, if_pos rfl]
    obtain ⟨i, hi⟩ := List.mem_iff_getElem?.mp h.attached
    obtain ⟨e, he, hends⟩ := hw.told i (List.getElem?_eq_some_iff.mp hi).1
    exact hr.set (fun e _ r => (h.noted_eq r).imp_right And.right) ⟨e, he, noted_ends hi hends⟩

theorem recalls_asked {v : View} {i : Nat} {passed : Bool} {gs rest : List (Entry H.Note)}
    (hr : Recalls now f.decorators r (.hook f.view (.executed dt) :: (gs ++ rest)) r')
    (hgs : ∀ e ∈ gs, ∃ i passed, e = .hook f.view (.guarded i passed))
    (hmem : .hook v (.guarded i passed) ∈ gs) (hi : f.decorators[i]? = some (.cooldown c)) :
    passed = Cooldown.opens now (r c.id) := by
  obtain ⟨-, hr⟩ := recalls_cons.mp hr
  obtain ⟨g₁, g₂, rfl⟩ := List.append_of_mem hmem
  have hquiet : ∀ e ∈ g₁, e.writes = false := by
    intro e he
    obtain ⟨j, b, rfl⟩ := hgs e (List.mem_append_left _ he)
    rfl
  rw [List.append_assoc] at hr
  obtain ⟨hhonest, -⟩ := recalls_cons.mp (hr.drop hquiet)
  have hheard : (Hook.guarded i passed).hearer f.decorators = some (.cooldown c) := by
    simp [Hook.hearer, Hook.slot?, hi]
  exact hhonest _ hheard

theorem CooledBy.passed (h : f.CooledBy c) {rest : List (Entry H.Note)}
    (hr : Recalls now f.decorators r (.hook f.view (.executed dt) ::
      (slots f.view (.guarded · true) 0 f.decorators.length ++ rest)) r') :
    Cooldown.opens now (r c.id) = true := by
  obtain ⟨i, hi⟩ := List.mem_iff_getElem?.mp h.attached
  have hlt := (List.getElem?_eq_some_iff.mp hi).1
  have hmem : .hook f.view (.guarded i true) ∈
      (slots f.view (.guarded · true) 0 f.decorators.length : List (Entry H.Note)) :=
    mem_slots.mpr ⟨i, hlt, rfl⟩
  refine (recalls_asked hr (fun e he => ?_) hmem hi).symm
  obtain ⟨j, -, rfl⟩ := mem_slots.mp he
  exact ⟨j, true, rfl⟩

end Stamp

def refusal (dt : Float32) (f : Frame H) (asked : List (Nat × Bool)) : List (Entry H.Note) :=
  .hook f.view (.executed dt) :: ((asked.map fun a => .hook f.view (.guarded a.1 a.2)) ++
    [.report (.guardedOut f.view), .hook f.view (.returned (.ok .failure))])

theorem calm_refusal (dt : Float32) (f : Frame H) (asked : List (Nat × Bool)) :
    Calm (f.refusal dt asked) := by
  have hasked : Calm (asked.map fun a => (.hook f.view (.guarded a.1 a.2) : Entry H.Note)) :=
    calm_map f.view asked fun _ _ => rfl
  simp [refusal, hasked, Entry.ends, Entry.isExit]

theorem CooledBy.stamp_refused {c : Cooldown} (h : f.CooledBy c)
    (hr : Recalls now f.decorators r w r') (hw : w = [] ∨ ∃ asked, w = f.refusal dt asked) :
    r' c.id = r c.id := by
  have hcalm : Calm w := by
    obtain rfl | ⟨asked, rfl⟩ := hw
    · exact calm_nil
    · exact f.calm_refusal dt asked
  rw [h.stamp hr (.inl hcalm), hcalm.exits_eq, if_neg (by simp)]

theorem exists_asked {v : View} {gs : List (Entry ν)}
    (h : ∀ e ∈ gs, ∃ i passed, e = .hook v (.guarded i passed)) :
    ∃ asked : List (Nat × Bool), gs = asked.map fun a => .hook v (.guarded a.1 a.2) := by
  induction gs with
  | nil => exact ⟨[], rfl⟩
  | cons e gs ih =>
    obtain ⟨i, passed, rfl⟩ := h e (by simp)
    obtain ⟨asked, rfl⟩ := ih fun e he => h e (List.mem_cons_of_mem _ he)
    exact ⟨(i, passed) :: asked, rfl⟩

theorem Visit.refused_or_passed {answer : Answer} (h : f.Visit s dt answer w g) :
    (g = f.settle ∧ (f.active = false → ∃ asked, w = f.refusal dt asked)) ∨
      ∃ rest, w = .hook f.view (.executed dt) ::
        (slots f.view (.guarded · true) 0 f.decorators.length ++ rest) := by
  cases h with
  | refused guards =>
    left
    refine ⟨rfl, fun hidle => ?_⟩
    obtain ⟨asked, rfl⟩ := exists_asked guards
    exact ⟨asked, by simp [refusal, f.sweep_of_idle s hidle, settle_of_idle hidle]⟩
  | panicked drawn guards idle passed =>
    right
    rw [passed]
    exact ⟨_, rfl⟩
  | ticked guards opens resumes answers settles passed =>
    right
    rw [passed]
    exact ⟨_, rfl⟩

section Once
variable {c : Cooldown} {answer : Answer}

theorem Once.blocked (h : f.Once s dt answer w g) (hc : f.CooledBy c)
    (hr : Recalls now f.decorators r w r') (hidle : f.active = false)
    (hshut : Cooldown.opens now (r c.id) = false) :
    g = f ∧ (w = [] ∨ ∃ asked, w = f.refusal dt asked) := by
  -- letting the node through contradicts `hshut`, and an idle node has nothing to abort
  cases h with
  | missed after =>
    obtain ⟨rfl, rfl⟩ := after.of_idle hidle
    exact ⟨rfl, .inl rfl⟩
  | visited visit _ after =>
    obtain ⟨rfl, hrefusal⟩ | ⟨rest, rfl⟩ := visit.refused_or_passed
    · obtain ⟨asked, rfl⟩ := hrefusal hidle
      obtain ⟨rfl, rfl⟩ := after.of_idle f.active_settle
      rw [settle_of_idle hidle, List.append_nil]
      exact ⟨rfl, .inr ⟨asked, rfl⟩⟩
    · obtain ⟨r₁, hr, -⟩ := recalls_append.mp hr
      rw [hc.passed hr] at hshut
      cases hshut

theorem Once.opened (h : f.Once s dt answer w g) (hc : f.CooledBy c)
    (hr : Recalls now f.decorators r w r') (hg : g.active = true) :
    f.active = true ∨ Cooldown.opens now (r c.id) = true := by
  cases h with
  | missed after =>
    cases after with
    | missed => exact .inl hg
    | reached =>
      rw [active_settle] at hg
      cases hg
  | visited visit _ after =>
    obtain ⟨rfl, -⟩ | ⟨rest, rfl⟩ := visit.refused_or_passed
    · obtain ⟨-, rfl⟩ := after.of_idle f.active_settle
      rw [active_settle] at hg
      cases hg
    · obtain ⟨r₁, hr, -⟩ := recalls_append.mp hr
      exact .inr (hc.passed hr)

theorem Once.asked (h : f.Once s dt answer w g) (hr : Recalls now f.decorators r w r') {v : View}
    {i : Nat} {passed : Bool} (hmem : .hook v (.guarded i passed) ∈ w)
    (hi : f.decorators[i]? = some (.cooldown c)) : passed = Cooldown.opens now (r c.id) := by
  have hswept {f g : Frame H} {w : List (Entry H.Note)} (h : f.Swept s w g) :
      .hook v (.guarded i passed) ∉ w := by
    cases h with
    | missed => simp
    | reached => exact (f.phase_sweep s).not_mem (by simp [Hook.phase])
  cases h with
  | missed after => exact absurd hmem (hswept after)
  | visited visit _ after =>
    obtain hmem | hmem := List.mem_append.mp hmem
    · obtain ⟨r₁, hr, -⟩ := recalls_append.mp hr
      obtain ⟨gs, rest, rfl, hgs, hmem⟩ := visit.of_guarded hmem
      exact recalls_asked hr hgs hmem hi
    · exact absurd hmem (hswept after)

end Once
end Frame
def diary : List (Move H) → Rooted H → Stage H → List (Float32 × List (Entry H.Note))
  | [], _, _ => []
  | m :: ms, t, st =>
    (t.setting.scope.elapsed, (m.act t st).trace) ::
      diary ms (m.act t st).value.2 (m.act t st).state

/-- When the last activation of a node ended, by the clock. -/
def endedAt (k : NodeId) (last : Option Float32) (chapters : List (Float32 × List (Entry ν))) :
    Option Float32 :=
  chapters.foldl (fun last c => if exits (own k c.2) then some c.1 else last) last

namespace Cooldown

theorem opens_mono {now later : Float32} (h : now ≤ later) {stamp : Option Float32}
    (ho : opens now stamp = true) : opens later stamp = true := by
  cases stamp with
  | none => rfl
  | some next => exact decide_eq_true (Seconds.le_trans (of_decide_eq_true ho) h)

end Cooldown

section Runs
variable {c : Cooldown} {k : NodeId} {last : Option Float32} {t : Rooted H} {st : Stage H}

/-- The clock has started, and of each frame of the node the cooldown has the stamp of the last
ending, which an activation that is going on has left behind. -/
structure Rooted.Cooled (c : Cooldown) (k : NodeId) (last : Option Float32) (t : Rooted H)
    (st : Stage H) : Prop where
  clock : 0 ≤ t.setting.scope.elapsed
  cooled : ∀ f ∈ t.root.frames, f.id = k → f.CooledBy c
  stamp : ∀ f ∈ t.root.frames, f.id = k →
    c.nextAvailable st.tables k = last.map (· + c.seconds)
  opened : ∀ f ∈ t.root.frames, f.id = k → f.active = true →
    Cooldown.opens t.setting.scope.elapsed (c.nextAvailable st.tables k) = true

theorem cooled_still {m : Move H} (hm : ∀ change, m ≠ .outside change)
    (hsetting : (m.act t st).value.2.setting = t.setting) (hp : t.Proper)
    (h : t.Cooled c k last st) :
    (m.act t st).value.2.Cooled c k
      (if exits (own k (m.act t st).trace) then some t.setting.scope.elapsed else last)
      (m.act t st).state := by
  have hframe : ∀ g ∈ (m.act t st).value.2.root.frames, g.id = k → g.CooledBy c ∧
      c.nextAvailable (m.act t st).state.tables k =
        (if exits (own k (m.act t st).trace) then some t.setting.scope.elapsed else last).map
          (· + c.seconds) ∧
      (g.active = true → Cooldown.opens t.setting.scope.elapsed
        (c.nextAvailable (m.act t st).state.tables k) = true) := by
    intro g hg hid
    subst hid
    obtain ⟨f, hf, hfg, ⟨dt, answer, honce⟩, hrow⟩ := act_recalls hm hp st hg
    have hc := h.cooled f hf hfg
    have hstamp := hc.stamp hrow (honce.ending.imp_right And.left)
    refine ⟨hc.of_bare honce.bare_eq, ?_, fun hactive => ?_⟩
    · rw [Cooldown.nextAvailable, ← Tables.row_apply, hstamp]
      split
      · rfl
      · exact h.stamp f hf hfg
    · -- an activation that is going on has not ended in this call
      obtain hcalm | ⟨-, hidle⟩ := honce.ending
      · rw [hcalm.exits_eq, if_neg (by simp)] at hstamp
        rw [Cooldown.nextAvailable, ← Tables.row_apply, hstamp]
        obtain hwas | hopens := honce.opened hc hrow hactive
        · exact h.opened f hf hfg hwas
        · exact hopens
      · rw [hidle] at hactive
        cases hactive
  rw [← hsetting] at hframe ⊢
  exact ⟨hsetting ▸ h.clock, fun g hg hid => (hframe g hg hid).1,
    fun g hg hid => (hframe g hg hid).2.1, fun g hg hid => (hframe g hg hid).2.2⟩

theorem cooled_act {m : Move H} (spans : ∀ dt, m = .beginTick dt → Span dt)
    (apart : ∀ change, m = .outside change →
      ∀ st, c.nextAvailable (change st).tables k = c.nextAvailable st.tables k)
    (hp : t.Proper) (h : t.Cooled c k last st) :
    (m.act t st).value.2.Cooled c k
      (if exits (own k (m.act t st).trace) then some t.setting.scope.elapsed else last)
      (m.act t st).state := by
  cases m with
  | execute dt => exact cooled_still (by simp) rfl hp h
  | abort => exact cooled_still (by simp) rfl hp h
  | beginTick dt =>
    have hspan := spans dt rfl
    have hlater := Seconds.le_add h.clock hspan
    exact ⟨Seconds.nonneg_add h.clock hspan, h.cooled, h.stamp,
      fun f hf hid hactive => Cooldown.opens_mono hlater (h.opened f hf hid hactive)⟩
  | outside change =>
    have hsame := apart change rfl st
    refine ⟨h.clock, h.cooled, fun f hf hid => ?_, fun f hf hid hactive => ?_⟩
    · exact hsame.trans (h.stamp f hf hid)
    · exact hsame ▸ h.opened f hf hid hactive

theorem cooled_play (ms : List (Move H)) (spans : ∀ dt, .beginTick dt ∈ ms → Span dt)
    (apart : ∀ change, .outside change ∈ ms →
      ∀ st, c.nextAvailable (change st).tables k = c.nextAvailable st.tables k)
    (hp : t.Proper) (h : t.Cooled c k last st) :
    (play ms t st).value.2.Cooled c k (endedAt k last (diary ms t st)) (play ms t st).state := by
  induction ms generalizing t st last with
  | nil => exact h
  | cons m ms ih =>
    have hact := cooled_act (fun dt e => spans dt (e ▸ List.mem_cons_self))
      (fun change e => apart change (e ▸ List.mem_cons_self)) hp h
    have hrest := ih (fun dt hdt => spans dt (List.mem_cons_of_mem _ hdt))
      (fun change hc => apart change (List.mem_cons_of_mem _ hc)) (proper_act m hp st) hact
    rw [play_cons]
    exact hrest

namespace Rooted
variable {f : Frame H}

theorem Cooled.shuts (h : t.Cooled c k last st) (hf : f ∈ t.root.frames) (hid : f.id = k)
    {x : Float32} (hx : last = some x) (hlt : t.setting.scope.elapsed < x + c.seconds) :
    f.active = false ∧
      Cooldown.opens t.setting.scope.elapsed (c.nextAvailable st.tables k) = false := by
  have hshut : Cooldown.opens t.setting.scope.elapsed (c.nextAvailable st.tables k) = false := by
    rw [h.stamp f hf hid, hx]
    exact decide_eq_false (Seconds.not_le_of_lt hlt)
  refine ⟨?_, hshut⟩
  by_contra hactive
  have hopens := h.opened f hf hid (by simpa using hactive)
  exact absurd (hopens.symm.trans hshut) (by simp)

theorem Cooled.lets (h : t.Cooled c k last st) (hf : f ∈ t.root.frames) (hid : f.id = k)
    (hopen : f.active = true ∨ ∀ x, last = some x → x + c.seconds ≤ t.setting.scope.elapsed) :
    Cooldown.opens t.setting.scope.elapsed (c.nextAvailable st.tables k) = true := by
  obtain hactive | hover := hopen
  · exact h.opened f hf hid hactive
  · rw [h.stamp f hf hid]
    cases hlast : last with
    | none => rfl
    | some x => exact decide_eq_true (hover x hlast)

end Rooted
end Runs

theorem Node.exists_execute (s : Setting) (dt : Float32) {n : Node H} (h : n.Sound)
    (distinct : n.ids.Nodup) (st : Stage H) {f : Frame H} (hf : f ∈ n.frames) :
    let o := n.execute s dt st
    ∃ g ∈ o.value.2.frames, f.Once s dt o.value.1 (own f.id o.trace) g ∧
      Recalls s.scope.elapsed f.decorators (st.tables.row f.id) (own f.id o.trace)
        (o.state.tables.row f.id) := by
  intro o
  obtain ⟨g, hg, hid, -⟩ := exists_right (execute_once s dt h st distinct) hf
  obtain ⟨f', hf', hid', honce, hrow⟩ := execute_recalls s dt h distinct st hg
  obtain rfl : f' = f := List.inj_on_of_nodup_map distinct hf' hf (hid'.trans hid)
  rw [← hid'] at honce hrow
  exact ⟨g, hg, honce, hrow⟩

/-- In every state of a run, a cooldown keeps the clock at which an activation of the node ended
last, with its seconds added. Until then the next execution leaves the node as it is, calls nothing
on it but guards, and answers with a failure. From then on, and if none has ended yet, the cooldown
lets the node through, and it does so while an activation is going on. -/
theorem cooled_of_play (c : Cooldown) (k : NodeId) (ms : List (Move H)) {t : Rooted H}
    (idle : t.root.Idle) (distinct : t.root.ids.Nodup) (st : Stage H)
    (clock : 0 ≤ t.setting.scope.elapsed) (spans : ∀ dt, .beginTick dt ∈ ms → Span dt)
    (cooled : ∀ f ∈ t.root.frames, f.id = k → f.CooledBy c)
    (unset : c.nextAvailable st.tables k = none)
    (apart : ∀ change, .outside change ∈ ms →
      ∀ st, c.nextAvailable (change st).tables k = c.nextAvailable st.tables k) (dt : Float32) :
    let p := play ms t st
    let now := p.value.2.setting.scope.elapsed
    let ended := endedAt k none (diary ms t st)
    let q := p.value.2.root.execute p.value.2.setting dt p.state
    ∀ f ∈ p.value.2.root.frames, f.id = k →
      c.nextAvailable p.state.tables k = ended.map (· + c.seconds) ∧
      (∀ x, ended = some x → now < x + c.seconds →
        f.active = false ∧ f ∈ q.value.2.frames ∧
          c.nextAvailable q.state.tables k = c.nextAvailable p.state.tables k ∧
          (own k q.trace = [] ∨ ∃ asked, own k q.trace = f.refusal dt asked)) ∧
      ((f.active = true ∨ ∀ x, ended = some x → x + c.seconds ≤ now) →
        ∀ v i passed, .hook v (.guarded i passed) ∈ own k q.trace →
          f.decorators[i]? = some (.cooldown c) → passed = true) := by
  intro p now ended q f hf hid
  have hproper : t.Proper := ⟨Node.sound_of_idle idle, distinct⟩
  have hstart : t.Cooled c k none st :=
    ⟨clock, cooled, fun _ _ _ => unset, fun f hf _ hactive => by simp [idle f hf] at hactive⟩
  have hplay : p.value.2.Cooled c k ended p.state := cooled_play ms spans apart hproper hstart
  have hp : p.value.2.Proper := proper_play ms hproper st
  obtain ⟨g, hg, honce, hrow⟩ :=
    Node.exists_execute p.value.2.setting dt hp.sound hp.distinct p.state hf
  have hc := hplay.cooled f hf hid
  subst hid
  refine ⟨hplay.stamp f hf rfl, fun x hx hlt => ?_, fun hopen v i passed hmem hi => ?_⟩
  · obtain ⟨hidle, hshut⟩ := hplay.shuts hf rfl hx hlt
    obtain ⟨rfl, htrace⟩ := honce.blocked hc hrow hidle hshut
    exact ⟨hidle, hg, hc.stamp_refused hrow htrace, htrace⟩
  · rw [honce.asked hrow hmem hi]
    exact hplay.lets hf rfl hopen

def Rooted.pause : Cooldown := ⟨7, 5, by decide +kernel⟩

def Rooted.paused : Rooted Host.echo :=
  { echo with
    root := .mk { Frame.idle 2 "" (.action (Status.success : Host.echo.Action)) with
      decorators := [.cooldown pause] } [] }

theorem Rooted.cooledBy_paused : ∀ f ∈ paused.root.frames, f.id = 2 → f.CooledBy pause := by
  intro f hf _
  obtain rfl : f = paused.root.frame := List.mem_singleton.mp hf
  exact ⟨List.mem_singleton_self _, fun d hd _ => List.mem_singleton.mp hd⟩

theorem cooled_of_play_echo :
    (Rooted.paused.root.Idle ∧ Rooted.paused.root.ids.Nodup ∧
      0 ≤ Rooted.paused.setting.scope.elapsed ∧
      Rooted.pause.nextAvailable Rooted.still.tables 2 = none) ∧
    ∀ f ∈ (play [.execute 1, .beginTick 1] Rooted.paused Rooted.still).value.2.root.frames,
      f.id = 2 → f.active = false ∧
        Rooted.pause.nextAvailable
          (play [.execute 1, .beginTick 1] Rooted.paused Rooted.still).state.tables 2 =
            some (0 + 5) := by
  have hidle : Rooted.paused.root.Idle := by decide
  have hdistinct : Rooted.paused.root.ids.Nodup := by decide
  have hclock : 0 ≤ Rooted.paused.setting.scope.elapsed := by decide +kernel
  have hspan : Span 1 := by decide +kernel
  have hplay := cooled_of_play Rooted.pause 2 [.execute 1, .beginTick 1] hidle hdistinct
    Rooted.still hclock (by simp [hspan]) Rooted.cooledBy_paused rfl (by simp) 1
  have hended : endedAt 2 none (diary [.execute 1, .beginTick 1] Rooted.paused Rooted.still) =
      some 0 := by decide +kernel
  have hearly : (play [.execute 1, .beginTick 1] Rooted.paused
      Rooted.still).value.2.setting.scope.elapsed < 0 + Rooted.pause.seconds := by decide +kernel
  refine ⟨⟨hidle, hdistinct, hclock, rfl⟩, fun f hf hid => ?_⟩
  obtain ⟨hstamp, hblocked, -⟩ := hplay f hf hid
  rw [hended] at hstamp
  exact ⟨(hblocked 0 hended hearly).1, hstamp⟩

end TickTree
