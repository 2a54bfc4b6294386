import TickTree.Proofs.Climbing
import TickTree.Proofs.Cooldowns
import TickTree.Proofs.Timeouts
/-! What waits for time to pass, while a host ticks on. A cooldown lets its node pass again, a wait
succeeds and a timeout fires, if the sums of the ticks get to their limits; where a tick is too
short to make a difference to the sum, they never do. -/
namespace TickTree
variable {H : Host} {dt : Float32} {t : Rooted H} {st : Stage H} {k : NodeId} {n : Nat}

def ticks (dt : Float32) (n : Nat) : List (Move H) :=
  (List.replicate n [.beginTick dt, .execute dt]).flatten

def heard (dt : Float32) (k : NodeId) (t : Rooted H) (st : Stage H) (n : Nat) :
    List (Entry H.Note) :=
  let p := play (ticks dt n) t st
  own k (play (ticks dt 1) p.value.2 p.state).trace

theorem play_append (ms ms' : List (Move H)) (t : Rooted H) (st : Stage H) :
    play (ms ++ ms') t st =
      let o := play ms t st
      let o' := play ms' o.value.2 o.state
      ⟨(o.value.1 ++ o'.value.1, o'.value.2), o'.state, o.trace ++ o'.trace⟩ := by
  induction ms generalizing t st with
  | nil => rfl
  | cons m ms ih => simp only [List.cons_append, play_cons, ih, List.append_assoc]

theorem ticks_add (dt : Float32) (m n : Nat) :
    (ticks dt (m + n) : List (Move H)) = ticks dt m ++ ticks dt n := by
  rw [ticks, List.replicate_add, List.flatten_append]
  rfl

theorem play_tick (dt : Float32) (t : Rooted H) (st : Stage H) :
    let s : Setting := { t.setting with scope := t.setting.scope.beginTick dt }
    let o := t.root.execute s dt st
    play (ticks dt 1) t st = ⟨([o.value.1], ⟨s, o.value.2⟩), o.state, o.trace⟩ := by
  simp [ticks, play, Move.act]

theorem elapsed_ticks (dt : Float32) (t : Rooted H) (st : Stage H) (n : Nat) :
    (play (ticks dt n) t st).value.2.setting.scope.elapsed =
      Seconds.sum t.setting.scope.elapsed dt n := by
  induction n with
  | zero => rfl
  | succ n ih =>
    rw [ticks_add, play_append, Seconds.sum_succ, ← ih]
    dsimp only
    rw [play_tick]
    rfl

theorem tick_recalls (h : t.Proper) (n : Nat) {f : Frame H}
    (hf : f ∈ (play (ticks dt n) t st).value.2.root.frames) :
    let p := play (ticks dt n) t st
    let q := play (ticks dt (n + 1)) t st
    ∃ g ∈ q.value.2.root.frames, g.id = f.id ∧
      (∃ s answer, f.Once s dt answer (heard dt f.id t st n) g) ∧
      Recalls (Seconds.sum t.setting.scope.elapsed dt (n + 1)) f.decorators
        (p.state.tables.row f.id) (heard dt f.id t st n) (q.state.tables.row f.id) := by
  intro p q
  have hp : p.value.2.Proper := proper_play _ h st
  let s : Setting := { p.value.2.setting with scope := p.value.2.setting.scope.beginTick dt }
  have hclock : s.scope.elapsed = Seconds.sum t.setting.scope.elapsed dt (n + 1) := by
    rw [Seconds.sum_succ, ← elapsed_ticks dt t st n]
    rfl
  obtain ⟨g, hg, honce, hrow⟩ := Node.exists_execute s dt hp.sound hp.distinct p.state hf
  have hheard : heard dt f.id t st n = own f.id (p.value.2.root.execute s dt p.state).trace := by
    rw [heard, play_tick]
  have hroot : q.value.2.root = (p.value.2.root.execute s dt p.state).value.2 := by
    change (play (ticks dt (n + 1)) t st).value.2.root = _
    rw [ticks_add, play_append]
    dsimp only
    rw [play_tick]
  have hstate : q.state = (p.value.2.root.execute s dt p.state).state := by
    change (play (ticks dt (n + 1)) t st).state = _
    rw [ticks_add, play_append]
    dsimp only
    rw [play_tick]
  rw [hheard, hroot, hstate, ← hclock]
  exact ⟨g, hg, congrArg (·.id) honce.bare_eq, ⟨s, _, honce⟩, hrow⟩

theorem ticks_keep (dt : Float32) {P : Nat → Frame H → Row → Prop} (h : t.Proper) {f : Frame H}
    (hf : f ∈ t.root.frames) (start : P 0 f (st.tables.row f.id))
    (step : ∀ n g g' r r' s answer, P n g r → g.Once s dt answer (heard dt f.id t st n) g' →
      Recalls (Seconds.sum t.setting.scope.elapsed dt (n + 1)) g.decorators r
        (heard dt f.id t st n) r' → P (n + 1) g' r') (n : Nat) :
    let p := play (ticks dt n) t st
    ∃ g ∈ p.value.2.root.frames, g.id = f.id ∧ P n g (p.state.tables.row f.id) := by
  induction n with
  | zero => exact ⟨f, hf, rfl, start⟩
  | succ n ih =>
    obtain ⟨g, hg, hid, hkept⟩ := ih
    obtain ⟨g', hg', hid', ⟨s, answer, honce⟩, hrow⟩ := tick_recalls h n hg
    rw [hid] at honce hrow hid'
    exact ⟨g', hg', hid', step n g g' _ _ s answer hkept honce hrow⟩

def Unticked (w : List (Entry H.Note)) : Prop :=
  ∀ v h, .hook v h ∈ w → h.phase ≠ .ticked ∧ h.phase ≠ .settled

section Unticked
variable {w w' : List (Entry H.Note)}

theorem OfPhase.unticked {p : Phase} (h : OfPhase p w) (hp : p ≠ .ticked ∧ p ≠ .settled) :
    Unticked w := by
  intro v hook hmem
  rw [h v hook hmem]
  exact hp

theorem Unticked.append (h : Unticked w) (h' : Unticked w') : Unticked (w ++ w') := by
  intro v hook hmem
  obtain hmem | hmem := List.mem_append.mp hmem
  · exact h v hook hmem
  · exact h' v hook hmem

end Unticked

namespace Timeout
variable {o : Timeout} {x : Float32} {seen : Option Float32}

/-- A timeout that has counted at least so many ticks more, and has not fired. -/
def Times (o : Timeout) (dt x : Float32) (n : Nat) (seen : Option Float32) : Prop :=
  ∃ m, n ≤ m ∧ seen.getD 0 = Seconds.sum x dt m ∧
    ∀ j, 0 < j → j ≤ m → ¬ o.seconds ≤ Seconds.sum x dt j

theorem Times.of_succ (h : o.Times dt x (n + 1) seen) : o.Times dt x n seen := by
  obtain ⟨m, hm, hseen, hshort⟩ := h
  exact ⟨m, Nat.le_of_succ_le hm, hseen, hshort⟩

theorem Times.count (h : o.Times dt x n seen) (hfires : (o.count dt .running seen).1 ≠ .failure) :
    o.Times dt x (n + 1) (o.count dt .running seen).2 := by
  obtain ⟨m, hm, hseen, hshort⟩ := h
  rw [Timeout.count, if_pos rfl, hseen, ← Seconds.sum_succ] at hfires ⊢
  dsimp only at hfires ⊢
  by_cases hlimit : o.seconds ≤ Seconds.sum x dt (m + 1)
  · rw [if_pos hlimit] at hfires
    exact absurd rfl hfires
  · rw [if_neg hlimit]
    refine ⟨m + 1, Nat.succ_le_succ hm, rfl, fun j hpos hj => ?_⟩
    obtain hj | rfl := Nat.le_succ_iff.mp hj
    · exact hshort j hpos hj
    · exact hlimit

end Timeout

namespace Frame
variable {s : Setting} {f g : Frame H} {r r' : Row} {w : List (Entry H.Note)} {answer : Answer}
  {now : Float32}

/-- A tick of a node in whose activation it goes on: the behavior gives no result, or the modifiers
make a running result of the one that it gives. -/
inductive Goes (dt : Float32) (f : Frame H) : List (Entry H.Note) → Frame H → Prop
  | stopped {f₁ g : Frame H} {w : List (Entry H.Note)} {n : Nat} {log : Log} {stop : Stop}
    (already : f.active = true → f₁.behavior = f.behavior) (before : ∀ e ∈ w, e.writes = false)
    (answers : f₁.behavior.Answers dt n log (.error stop) g.behavior) (active : g.active = true) :
    Goes dt f (w ++ [.hook f₁.view (.answered (.error stop)),
      .hook g.view (.returned (.error stop))]) g
  | kept {f₁ g : Frame H} {w : List (Entry H.Note)} {n : Nat} {log : Log} {raw : Status}
    {hs : List Hook} (already : f.active = true → f₁.behavior = f.behavior)
    (before : ∀ e ∈ w, e.writes = false)
    (answers : f₁.behavior.Answers dt n log (.ok raw) g.behavior)
    (modified : Modified dt 0 f.decorators raw hs .running) (active : g.active = true) :
    Goes dt f (w ++ (.hook f₁.view (.answered (.ok raw)) :: (hs.map (.hook f₁.view) ++
      [.hook g.view (.returned (.ok .running))]))) g

theorem exits_sweep (s : Setting) (ha : f.active = true) : exits (f.sweep s) = true := by
  rw [sweep, if_pos ha]
  exact (f.ends_forced s).exits

theorem Swept.of_unended (h : f.Swept s w g) (hw : exits w = false) : w = [] ∧ g = f := by
  cases h with
  | missed => exact ⟨rfl, rfl⟩
  | reached =>
    by_cases ha : f.active = true
    · rw [exits_sweep s ha] at hw
      cases hw
    · have ha : f.active = false := by simpa using ha
      exact ⟨f.sweep_of_idle s ha, settle_of_idle ha⟩

theorem Opens.writes {op : List (Entry H.Note)} (h : f.Opens s op g) :
    ∀ e ∈ op, e.writes = false := by
  cases h with
  | already => simp
  | @fresh b drawn =>
    have hslots : Bystanders (slots (f.begun b).view .attached 0 f.services.length :
        List (Entry H.Note)) := .hooks _ (fun i => ⟨rfl, by simp⟩) _
    exact List.forall_mem_append.mpr ⟨f.writes_start s drawn, hslots.writes⟩

theorem Opens.behavior_eq {op : List (Entry H.Note)} (h : f.Opens s op g)
    (ha : f.active = true) : g.behavior = f.behavior := by
  cases h with
  | already => rfl
  | fresh idle => simp [ha] at idle

theorem Visit.goes (h : f.Visit s dt answer w g) (hw : exits w = false) :
    Unticked w ∨ f.Goes dt w g := by
  have hcalled : OfPhase .called ([.hook f.view (.executed dt)] : List (Entry H.Note)) :=
    .cons rfl .nil
  have hreturned (v : View) (a : Answer) :
      OfPhase .returned ([.hook v (.returned a)] : List (Entry H.Note)) := .cons rfl .nil
  cases h with
  | @refused gs guards =>
    left
    have hsweep : exits (f.sweep s) = false :=
      List.any_eq_false.mpr fun e he => List.any_eq_false.mp hw e (by simp [he])
    rw [(Swept.reached.of_unended hsweep).1]
    exact (hcalled.unticked ⟨by decide, by decide⟩).append <|
      (OfPhase.unticked (phase_guards guards) ⟨by decide, by decide⟩).append <|
        fun v hook hmem => by
          obtain ⟨-, rfl⟩ : v = f.settle.view ∧ hook = .returned (.ok .failure) := by
            simpa using hmem
          exact ⟨by decide, by decide⟩
  | @panicked gs p b drawn guards =>
    left
    exact (hcalled.unticked ⟨by decide, by decide⟩).append <|
      (OfPhase.unticked (phase_guards guards) ⟨by decide, by decide⟩).append <|
        ((f.phase_start s drawn).unticked ⟨by decide, by decide⟩).append <|
          (hreturned _ _).unticked ⟨by decide, by decide⟩
  | @ticked gs op rs w f₁ f₂ n log raw answer b guards opens resumes answers settles =>
    right
    let before : List (Entry H.Note) := .hook f.view (.executed dt) :: (gs ++ (op ++
      ((Attachment.due dt 0 f₁.services).map (fun i => .hook f₁.view (.serviced i dt)) ++
        (.hook f₁.view (.ticked dt) :: rs))))
    have hbefore : ∀ e ∈ before, e.writes = false := by
      have hserved : Bystanders ((Attachment.due dt 0 f₁.services).map
          fun i => (.hook f₁.view (.serviced i dt) : Entry H.Note)) :=
        .hooks f₁.view (fun i => ⟨rfl, by simp⟩) _
      have hgs := (bystanders_guards guards).writes
      have hrs := (bystanders_resumed resumes).writes
      simpa [before, or_imp, forall_and, Entry.writes, Hook.writes] using
        ⟨hgs, opens.writes, hrs⟩
    obtain ⟨-, hactive⟩ | ⟨hends, -⟩ := settles.ending opens.active_eq
    swap
    · have hunended : exits w = false :=
        List.any_eq_false.mpr fun e he => List.any_eq_false.mp hw e (by simp [he])
      exact absurd (hends.exits.symm.trans hunended) (by simp)
    let f₂ : Frame H :=
      { f₁ with services := Attachment.advanceAll dt f₁.services, behavior := b }
    cases settles with
    | stopped =>
      have hgoes : f.Goes dt _ f₂ := .stopped opens.behavior_eq hbefore answers hactive
      simpa [before] using hgoes
    | @kept _ hs modified =>
      rw [decorators_eq_of_bare (g := f) ((bare_served f₁ dt b).trans opens.bare_eq)] at modified
      have hgoes : f.Goes dt _ (f₂.aged dt) :=
        .kept opens.behavior_eq hbefore answers modified hactive
      simp only [before, List.cons_append, List.append_assoc] at hgoes
      exact hgoes
    | concluded => cases hactive

theorem Once.goes (h : f.Once s dt answer w g) (hw : exits w = false) :
    Unticked w ∨ f.Goes dt w g := by
  cases h with
  | missed after =>
    obtain ⟨rfl, -⟩ := after.of_unended hw
    exact .inl fun v hook hmem => by simp at hmem
  | visited visit _ after =>
    rw [exits_append, Bool.or_eq_false_iff] at hw
    obtain ⟨hvisit, hafter⟩ := hw
    obtain ⟨rfl, rfl⟩ := after.of_unended hafter
    rw [List.append_nil]
    exact visit.goes hvisit

theorem Goes.waits {x : Wait} (h : f.Goes dt w g) (ha : f.active = true)
    (hx : f.behavior = .wait x) : (∃ v, .hook v (.answered (.ok (x.tick dt).1)) ∈ w) ∧
      g.active = true ∧ g.behavior = .wait (x.tick dt).2 := by
  cases h with
  | stopped already before answers active =>
    rw [already ha, hx] at answers
    cases answers
  | @kept f₁ _ _ _ _ _ _ already before answers modified active =>
    rw [already ha, hx] at answers
    generalize g.behavior = b at answers
    cases answers
    exact ⟨⟨f₁.view, by simp⟩, active, rfl⟩

theorem Modified.slot_le {slot : Nat} {ds : List (Decorator H)} {before after : Status}
    {hs : List Hook} (h : Modified dt slot ds before hs after) {i : Nat} {a b : Status}
    (hmem : .modified i dt a b ∈ hs) : slot ≤ i := by
  induction h with
  | nil => cases hmem
  | skip _ _ ih => exact Nat.le_of_succ_le (ih hmem)
  | step _ _ ih =>
    obtain hmem | hmem := List.mem_cons.mp hmem
    · cases hmem
      exact Nat.le_refl _
    · exact Nat.le_of_succ_le (ih hmem)

def Fires (dt : Float32) (o : Timeout) (f : Frame H) (w : List (Entry H.Note)) : Prop :=
  ∃ (i : Nat) (v : View), f.decorators[i]? = some (.timeout o) ∧
    .hook v (.modified i dt .running .failure) ∈ w

def Runs (dt : Float32) (o : Timeout) (f : Frame H) (w : List (Entry H.Note)) : Prop :=
  ∀ i : Nat, f.decorators[i]? = some (.timeout o) →
    ∃ v after, .hook v (.modified i dt .running after) ∈ w

section Modified
variable {slot i : Nat} {ds ds' : List (Decorator H)} {raw result : Status} {hs : List Hook}
  {v : View} {o : Timeout} {x : Float32}

theorem lt_of_slots {d d' : Decorator H} (hne : d ≠ d') (hd : ds[slot]? = some d)
    (hd' : ds[i]? = some d') (hle : slot ≤ i) : slot < i := by
  refine Nat.lt_of_le_of_ne hle ?_
  rintro rfl
  exact hne (Option.some.inj (hd.symm.trans hd'))

def Counting (dt : Float32) (o : Timeout) (ds : List (Decorator H)) (slot : Nat)
    (hs : List Hook) : Prop :=
  ∀ i : Nat, slot ≤ i → ds[i]? = some (.timeout o) →
    ∃ after, after ≠ .failure ∧ .modified i dt .running after ∈ hs

theorem Counting.skip (h : Counting dt o ds slot hs) : Counting dt o ds (slot + 1) hs :=
  fun i hle => h i (Nat.le_of_succ_le hle)

section Step
variable {before after : Status}
  (h : Counting dt o ds slot (.modified slot dt before after :: hs))
include h

theorem Counting.tail : Counting dt o ds (slot + 1) hs := by
  intro i hle hi
  obtain ⟨after', hafter, hmem⟩ := h i (Nat.le_of_succ_le hle) hi
  obtain heq | hmem := List.mem_cons.mp hmem
  · cases heq
    exact absurd hle (Nat.not_succ_le_self _)
  · exact ⟨after', hafter, hmem⟩

theorem Counting.head (hslot : ds[slot]? = some (.timeout o))
    (rest : Modified dt (slot + 1) ds' after hs result) : before = .running ∧ after ≠ .failure := by
  obtain ⟨after', hafter, hmem⟩ := h slot (Nat.le_refl slot) hslot
  obtain heq | hmem := List.mem_cons.mp hmem
  · cases heq
    exact ⟨rfl, hafter⟩
  · exact absurd (rest.slot_le hmem) (Nat.not_succ_le_self slot)

end Step

/-- A timeout that is given running results, and does not fire, counts the tick where it sits. -/
theorem Modified.times (h : Modified dt slot ds' raw hs result) (hds : ds.drop slot = ds')
    (only : ∀ d ∈ ds, d.id? = some o.id → d = .timeout o) (hcounting : Counting dt o ds slot hs)
    (hr : Recalls now ds r (hs.map (.hook v)) r') (ht : o.Times dt x n (r o.id)) :
    o.Times dt x n (r' o.id) ∧
      ∀ i : Nat, slot ≤ i → ds[i]? = some (.timeout o) → o.Times dt x (n + 1) (r' o.id) := by
  induction h generalizing r n with
  | @nil slot =>
    obtain rfl := recalls_nil.mp hr
    refine ⟨ht, fun i hle hi => ?_⟩
    obtain ⟨hlt, -⟩ := List.getElem?_eq_some_iff.mp hi
    have := List.drop_eq_nil_iff.mp hds
    omega
  | @skip slot d _ _ _ _ hd h ih =>
    obtain ⟨hslot, htail⟩ := getElem?_of_drop_eq hds
    have hne : d ≠ .timeout o := fun he => by simp [he, Decorator.modifies] at hd
    obtain ⟨hkept, hlater⟩ := ih htail hcounting.skip hr ht
    exact ⟨hkept, fun i hle hi => hlater i (lt_of_slots hne hslot hi hle) hi⟩
  | @step slot d _ before after _ hs hd h ih =>
    obtain ⟨hslot, htail⟩ := getElem?_of_drop_eq hds
    obtain ⟨hhonest, hrest⟩ := recalls_modified hslot hr
    by_cases hid : d.id? = some o.id
    · -- the timeout itself counts; where it sits once more, it goes on from there
      obtain rfl := only d (List.mem_of_getElem? hslot) hid
      obtain ⟨rfl, hafter⟩ := hcounting.head hslot h
      have hcounted : o.Times dt x (n + 1)
          ((.timeout o : Decorator H).noted now (.modified slot dt .running after) r o.id) := by
        rw [Decorator.noted, Function.update_self]
        exact ht.count (hhonest ▸ hafter)
      obtain ⟨hkept, -⟩ := ih htail hcounting.tail hrest hcounted
      exact ⟨hkept.of_succ, fun _ _ _ => hkept⟩
    · have hne : d ≠ .timeout o := fun he => hid (by rw [he]; rfl)
      have hkey : d.noted now (.modified slot dt before after) r o.id = r o.id :=
        Decorator.noted_of_ne hid
      rw [← hkey] at ht
      obtain ⟨hkept, hlater⟩ := ih htail hcounting.tail hrest ht
      exact ⟨hkept, fun i hle hi => hlater i (lt_of_slots hne hslot hi hle) hi⟩

end Modified

theorem Goes.times {o : Timeout} {x : Float32} (h : f.Goes dt w g)
    (attached : .timeout o ∈ f.decorators)
    (only : ∀ d ∈ f.decorators, d.id? = some o.id → d = .timeout o)
    (hr : Recalls now f.decorators r w r') (runs : f.Runs dt o w) (hfires : ¬ f.Fires dt o w)
    (ht : o.Times dt x n (r o.id)) : o.Times dt x (n + 1) (r' o.id) := by
  obtain ⟨i, hi⟩ := List.mem_iff_getElem?.mp attached
  have hnot {w : List (Entry H.Note)} (hw : ∀ e ∈ w, e.writes = false) (v : View) (j : Nat)
      (after : Status) : .hook v (.modified j dt .running after) ∉ w :=
    fun hmem => by cases hw _ hmem
  cases h with
  | stopped already before answers active =>
    obtain ⟨v, after, hmem⟩ := runs i hi
    simp [hnot before] at hmem
  | @kept f₁ _ w n log raw hs already before answers modified active =>
    have hcounting : Counting dt o f.decorators 0 hs := by
      intro j _ hj
      obtain ⟨v, after, hmem⟩ := runs j hj
      have hafter : after ≠ .failure := fun he => hfires ⟨j, v, hj, he ▸ hmem⟩
      obtain ⟨hmem, -⟩ : .modified j dt .running after ∈ hs ∧ f₁.view = v := by
        simpa [hnot before] using hmem
      exact ⟨after, hafter, hmem⟩
    obtain ⟨r₁, hmodified, hreturned⟩ :=
      recalls_append.mp (recalls_cons.mp (hr.drop before)).2
    rw [hreturned.eq (by simp [Entry.writes, Hook.writes])]
    obtain ⟨-, hcounted⟩ := modified.times rfl only hcounting hmodified ht
    exact hcounted i (Nat.zero_le i) hi

end Frame

def Succeeds (w : List (Entry H.Note)) : Prop := ∃ v, .hook v (.answered (.ok .success)) ∈ w

def Until (happens holds : Nat → Prop) : Prop := ∀ n, (∀ m ≤ n, ¬ happens m) → holds n

namespace Frame
variable {s : Setting} {f g : Frame H} {r r' : Row} {tr : List (Entry H.Note)} {answer : Answer}
  {now : Float32}

structure Shut (c : Cooldown) (next : Float32) (f : Frame H) (r : Row) : Prop where
  cooled : f.CooledBy c
  idle : f.active = false
  stamp : r c.id = some next

theorem Shut.next {c : Cooldown} {next : Float32} (h : f.Shut c next r)
    (honce : f.Once s dt answer tr g) (hr : Recalls now f.decorators r tr r')
    (hshort : ¬ next ≤ now) : g.Shut c next r' := by
  obtain ⟨hc, hidle, hstamp⟩ := h
  have hshut : Cooldown.opens now (r c.id) = false := by
    rw [hstamp]
    exact decide_eq_false hshort
  obtain ⟨rfl, hrefused⟩ := honce.blocked hc hr hidle hshut
  exact ⟨hc, hidle, (hc.stamp_refused hr hrefused).trans hstamp⟩

/-- A wait that has gone on for so many ticks, and is not over. -/
structure Waits (dt : Float32) (w : Wait) (n : Nat) (f : Frame H) : Prop where
  active : f.active = true
  behavior : f.behavior = .wait { w with elapsed := Seconds.sum w.elapsed dt n }
  short : 0 < n → ¬ w.target ≤ Seconds.sum w.elapsed dt n

theorem Waits.next {w : Wait} (h : f.Waits dt w n) (goes : f.Goes dt tr g)
    (hgoes : ¬ Succeeds tr) : g.Waits dt w (n + 1) := by
  obtain ⟨⟨v, hanswered⟩, hactive, hbehavior⟩ := goes.waits h.active h.behavior
  have hsum := Seconds.sum_succ w.elapsed dt n
  refine ⟨hactive, ?_, fun _ hover => hgoes ⟨v, ?_⟩⟩
  · rw [hbehavior, hsum]
    rfl
  · rw [hsum] at hover
    rwa [Wait.tick, if_pos hover] at hanswered

end Frame

section Ticking
variable {f : Frame H}

section Cooldown
variable {c : Cooldown} {next : Float32}

theorem exists_allows_idle (h : t.Proper) (hf : f ∈ t.root.frames)
    (hshut : f.Shut c next (st.tables.row f.id))
    (climbs : Seconds.Climbs t.setting.scope.elapsed dt next) :
    ∃ n, c.allows (play (ticks dt n) t st).state.tables f.id
      (Seconds.sum t.setting.scope.elapsed dt (n + 1)) = true := by
  obtain ⟨last, hlast, hshort⟩ := climbs.reaches
  obtain ⟨g, -, -, hkept⟩ := ticks_keep dt (P := fun n g r => n ≤ last → g.Shut c next r) h hf
    (fun _ => hshut) (fun n g g' r r' s answer hkept honce hrow hn =>
      (hkept (Nat.le_of_succ_le hn)).next honce hrow (hshort n hn)) last
  refine ⟨last, ?_⟩
  rw [Cooldown.allows_eq, (hkept le_rfl).stamp]
  exact decide_eq_true hlast

theorem stamp_ticks (h : t.Proper) (hf : f ∈ t.root.frames) (hc : f.CooledBy c)
    (goes : ∀ m < n, exits (heard dt f.id t st m) = false) :
    c.nextAvailable (play (ticks dt n) t st).state.tables f.id =
      c.nextAvailable st.tables f.id := by
  obtain ⟨g, -, -, hkept⟩ := ticks_keep dt (P := fun m g r => m ≤ n →
      g.CooledBy c ∧ r c.id = st.tables.row f.id c.id) h hf (fun _ => ⟨hc, rfl⟩)
    (fun m g g' r r' s answer hkept honce hrow hm => by
      obtain ⟨hcooled, hstamp⟩ := hkept (Nat.le_of_succ_le hm)
      have hcalm := hcooled.stamp hrow (honce.ending.imp_right And.left)
      rw [goes m hm, if_neg Bool.false_ne_true] at hcalm
      exact ⟨hcooled.of_bare honce.bare_eq, hcalm.trans hstamp⟩) n
  exact (hkept le_rfl).2

theorem exists_shut (h : t.Proper) (hf : f ∈ t.root.frames) (hc : f.CooledBy c)
    (ends : exits (heard dt f.id t st n) = true) :
    let p := play (ticks dt (n + 1)) t st
    let now := Seconds.sum t.setting.scope.elapsed dt (n + 1)
    ∃ g ∈ p.value.2.root.frames, g.id = f.id ∧
      g.Shut c (now + c.seconds) (p.state.tables.row f.id) := by
  intro p now
  obtain ⟨g, hg, hid, hcooled⟩ : ∃ g ∈ (play (ticks dt n) t st).value.2.root.frames,
      g.id = f.id ∧ g.CooledBy c :=
    ticks_keep dt (P := fun _ g _ => g.CooledBy c) h hf hc
      (fun _ _ _ _ _ _ _ hcooled honce _ => hcooled.of_bare honce.bare_eq) n
  obtain ⟨g', hg', hid', ⟨s, answer, honce⟩, hrow⟩ := tick_recalls h n hg
  rw [hid] at honce hrow hid'
  have hstamp := hcooled.stamp hrow (honce.ending.imp_right And.left)
  rw [ends, if_pos rfl] at hstamp
  have hidle : g'.active = false := by
    obtain hcalm | ⟨-, hidle⟩ := honce.ending
    · simp [hcalm.exits_eq] at ends
    · exact hidle
  exact ⟨g', hg', hid', hcooled.of_bare honce.bare_eq, hidle, hstamp⟩

/-- A cooldown lets its node pass again, once the clock has climbed to the stamp. If an activation
of the node ends before, it has to climb to the stamp of that end. -/
theorem exists_allows (h : t.Proper) (hf : f ∈ t.root.frames) (hc : f.CooledBy c)
    (hnext : c.nextAvailable st.tables f.id = some next)
    (climbs : Seconds.Climbs t.setting.scope.elapsed dt next)
    (again : f.active = true → ∀ n, let now := Seconds.sum t.setting.scope.elapsed dt (n + 1)
      ¬ next ≤ now → Seconds.Climbs now dt (now + c.seconds)) :
    ∃ n, c.allows (play (ticks dt n) t st).state.tables f.id
      (Seconds.sum t.setting.scope.elapsed dt (n + 1)) = true := by
  by_cases ha : f.active = true
  swap
  · exact exists_allows_idle h hf ⟨hc, by simpa using ha, hnext⟩ climbs
  obtain ⟨last, hlast, hshort⟩ := climbs.reaches
  by_cases hends : ∃ m < last, exits (heard dt f.id t st m) = true
  · obtain ⟨m, hm, hends⟩ := hends
    obtain ⟨g, hg, hid, hshut⟩ := exists_shut h hf hc hends
    have hclock := elapsed_ticks dt t st (m + 1)
    have hclimbs := again ha m (hshort m hm)
    rw [← hid] at hshut
    rw [← hclock] at hclimbs
    obtain ⟨n, hn⟩ := exists_allows_idle (proper_play _ h st) hg (hclock ▸ hshut) hclimbs
    refine ⟨m + 1 + n, ?_⟩
    rw [ticks_add, play_append, Nat.add_assoc, Seconds.sum_add, ← hclock, ← hid]
    exact hn
  · have hstamp : c.nextAvailable (play (ticks dt last) t st).state.tables f.id = some next :=
      (stamp_ticks h hf hc fun m hm =>
        Bool.eq_false_iff.mpr fun he => hends ⟨m, hm, he⟩).trans hnext
    refine ⟨last, ?_⟩
    rw [Cooldown.allows, hstamp]
    exact decide_eq_true hlast

end Cooldown

theorem exists_succeeds {w : Wait} (h : t.Proper) (hf : f ∈ t.root.frames) (ha : f.active = true)
    (hw : f.behavior = .wait w) (climbs : Seconds.Climbs w.elapsed dt w.target)
    (goes : Until (fun n => Succeeds (heard dt f.id t st n)) fun n =>
      (∃ v, .hook v (.ticked dt) ∈ heard dt f.id t st n) ∧
        exits (heard dt f.id t st n) = false) :
    ∃ n, Succeeds (heard dt f.id t st n) := by
  by_contra hnever
  obtain ⟨last, hlast, -⟩ := climbs.reaches
  obtain ⟨g, -, -, hwaits⟩ := ticks_keep dt (P := fun n g _ => g.Waits dt w n) h hf
    ⟨ha, hw, fun hn => by cases hn⟩ (fun n g g' r r' s answer hwaits honce _ => by
      obtain ⟨⟨v, hticked⟩, hgoes⟩ := goes n fun m _ hm => hnever ⟨m, hm⟩
      obtain hunticked | hgoes := honce.goes hgoes
      · exact absurd rfl (hunticked v _ hticked).1
      · exact hwaits.next hgoes fun hn => hnever ⟨n, hn⟩) (last + 1)
  exact hwaits.short (Nat.succ_pos last) hlast

theorem exists_fires {o : Timeout} (h : t.Proper) (hf : f ∈ t.root.frames)
    (attached : .timeout o ∈ f.decorators)
    (only : ∀ d ∈ f.decorators, d.id? = some o.id → d = .timeout o)
    (climbs : Seconds.Climbs ((o.elapsed st.tables f.id).getD 0) dt o.seconds)
    (runs : Until (fun n => f.Fires dt o (heard dt f.id t st n)) fun n =>
      f.Runs dt o (heard dt f.id t st n) ∧ exits (heard dt f.id t st n) = false) :
    ∃ n, f.Fires dt o (heard dt f.id t st n) := by
  by_contra hnever
  obtain ⟨last, hlast, -⟩ := climbs.reaches
  obtain ⟨i, hi⟩ := List.mem_iff_getElem?.mp attached
  obtain ⟨g, -, -, -, m, hm, -, hshort⟩ := ticks_keep dt (P := fun n g r =>
      g.decorators = f.decorators ∧
        o.Times dt ((o.elapsed st.tables f.id).getD 0) n (r o.id)) h hf
    ⟨rfl, 0, le_rfl, rfl, fun j hpos hj => absurd hpos (by omega)⟩
    (fun n g g' r r' s answer hkept honce hrow => by
      obtain ⟨hdecorators, htimes⟩ := hkept
      obtain ⟨hruns, hgoes⟩ := runs n fun m _ hm => hnever ⟨m, hm⟩
      have hfires : ¬ f.Fires dt o (heard dt f.id t st n) := fun hn => hnever ⟨n, hn⟩
      obtain hunticked | hgoes := honce.goes hgoes
      · obtain ⟨v, after, hgiven⟩ := hruns i hi
        exact absurd rfl (hunticked v _ hgiven).2
      · rw [Frame.Runs, ← hdecorators] at hruns
        rw [Frame.Fires, ← hdecorators] at hfires
        rw [← hdecorators] at attached only
        exact ⟨(Frame.decorators_eq_of_bare honce.bare_eq).trans hdecorators,
          hgoes.times attached only hrow hruns hfires htimes⟩) (last + 1)
  exact hshort (last + 1) (Nat.succ_pos last) hm hlast

end Ticking

/-- In every state of a run, if the host then ticks on, a node that a cooldown shuts is let through
again, a wait whose activation goes on succeeds, and a timeout that is given running results in an
activation that goes on fires, each as long as the ticks make a difference to the time that it sums
up. They do up to limits of some eight million ticks. -/
theorem elapses_of_play (ms : List (Move H)) {t : Rooted H} (idle : t.root.Idle)
    (distinct : t.root.ids.Nodup) (st : Stage H) {dt : Float32} (span : Span dt)
    (positive : 0 < dt) :
    let p := play ms t st
    let now := p.value.2.setting.scope.elapsed
    let later (n : Nat) := play (ticks dt n) p.value.2 p.state
    (∀ x limit, 0 ≤ x → limit ≤ 8388608 * dt → Seconds.Climbs x dt limit) ∧
    ∀ f ∈ p.value.2.root.frames,
      let heard := heard dt f.id p.value.2 p.state
      (∀ c next, f.CooledBy c → c.nextAvailable p.state.tables f.id = some next →
        Seconds.Climbs now dt next →
        (f.active = true → ∀ n, let now := Seconds.sum now dt (n + 1)
          ¬ next ≤ now → Seconds.Climbs now dt (now + c.seconds)) →
        ∃ n, c.allows (later n).state.tables f.id
          (later (n + 1)).value.2.setting.scope.elapsed = true) ∧
      (∀ w, f.active = true → f.behavior = .wait w → Seconds.Climbs w.elapsed dt w.target →
        Until (fun n => Succeeds (heard n))
          (fun n => (∃ v, .hook v (.ticked dt) ∈ heard n) ∧ exits (heard n) = false) →
        ∃ n, Succeeds (heard n)) ∧
      (∀ o, .timeout o ∈ f.decorators →
        (∀ d ∈ f.decorators, d.id? = some o.id → d = .timeout o) →
        Seconds.Climbs ((o.elapsed p.state.tables f.id).getD 0) dt o.seconds →
        Until (fun n => f.Fires dt o (heard n))
          (fun n => f.Runs dt o (heard n) ∧ exits (heard n) = false) →
        ∃ n, f.Fires dt o (heard n)) := by
  intro p now later
  have hp : p.value.2.Proper := proper_play ms ⟨Node.sound_of_idle idle, distinct⟩ st
  refine ⟨fun x limit hx hlimit => Seconds.climbs_of_le hx span positive hlimit, ?_⟩
  intro f hf heard
  refine ⟨fun c next hc hnext hclimbs again => ?_,
    fun w ha hw hclimbs hgoes => exists_succeeds hp hf ha hw hclimbs hgoes,
    fun o attached only hclimbs hruns => exists_fires hp hf attached only hclimbs hruns⟩
  obtain ⟨n, hn⟩ := exists_allows hp hf hc hnext hclimbs again
  refine ⟨n, ?_⟩
  rw [show (later (n + 1)).value.2.setting.scope.elapsed = Seconds.sum now dt (n + 1) from
    elapsed_ticks dt p.value.2 p.state (n + 1)]
  exact hn

theorem span_zero : Span 0 := by decide +kernel

def Rooted.waiting (d : Float32) (h : Span d ∧ 0 < d) (delta seen : Float32) (active : Bool) :
    Rooted Host.echo where
  setting := ⟨⟨⟨0⟩, ⟨1⟩, ⟨2⟩, ⟨0⟩, delta, seen⟩, none⟩
  root := .mk ⟨3, "", [.timeout ⟨8, d, h.2⟩], [],
    .wait ⟨d, 0, d, seen, h.1, span_zero⟩, active, seen⟩ []

def Rooted.counted (seen : Float32) : Stage Host.echo :=
  ⟨⟨⟨#[], #[], ()⟩, ⟨[((8, 3), seen)]⟩⟩, .ofSeed 0⟩

theorem span_three : Span 3 ∧ (0 : Float32) < 3 := by decide +kernel

theorem play_waiting :
    let p := play (ticks 1 1) (Rooted.waiting 3 span_three 0 0 false) Rooted.still
    p.value.2 = Rooted.waiting 3 span_three 1 1 true ∧ p.state = Rooted.counted 1 :=
  ⟨by rfl, by rfl⟩

/-- The pause after an activation comes to an end, the rest of a wait passes, and a leaf that goes
on is timed out. -/
theorem elapses_of_play_waiting :
    let stamped : Stage Host.echo := ⟨⟨⟨#[], #[], ()⟩, ⟨[((7, 2), 5)]⟩⟩, .ofSeed 0⟩
    (∃ n, Rooted.pause.allows (play (ticks 1 n) Rooted.paused stamped).state.tables 2
      (play (ticks 1 (n + 1)) Rooted.paused stamped).value.2.setting.scope.elapsed = true) ∧
    (∃ n, Succeeds (heard 1 3 (Rooted.waiting 3 span_three 1 1 true) (Rooted.counted 1) n)) ∧
    ∃ n, Rooted.limited.root.frame.Fires 1 Rooted.limit
      (heard 1 2 Rooted.limited Rooted.still n) := by
  intro stamped
  have hspan : Span 1 ∧ (0 : Float32) < 1 := by decide +kernel
  refine ⟨?_, ?_, ?_⟩
  · have hidle : Rooted.paused.root.Idle := by decide
    have hdistinct : Rooted.paused.root.ids.Nodup := by decide
    have helapses := elapses_of_play [] hidle hdistinct stamped hspan.1 hspan.2
    dsimp only [play, Traced.pure_apply] at helapses
    obtain ⟨hclimbs, hframes⟩ := helapses
    have hfive : (0 : Float32) ≤ 0 ∧ (5 : Float32) ≤ 8388608 * 1 := by decide +kernel
    obtain ⟨hcools, -⟩ := hframes Rooted.paused.root.frame (List.mem_singleton_self _)
    exact hcools Rooted.pause 5 (Rooted.cooledBy_paused _ (List.mem_singleton_self _) rfl) rfl
      (hclimbs 0 5 hfive.1 hfive.2) fun ha => by cases ha
  · have hidle : (Rooted.waiting 3 span_three 0 0 false).root.Idle := by decide
    have hdistinct : (Rooted.waiting 3 span_three 0 0 false).root.ids.Nodup := by decide
    have helapses := elapses_of_play (ticks 1 1) hidle hdistinct Rooted.still hspan.1 hspan.2
    dsimp only at helapses
    rw [play_waiting.1, play_waiting.2] at helapses
    obtain ⟨hclimbs, hframes⟩ := helapses
    have hthree : (0 : Float32) ≤ 1 ∧ (3 : Float32) ≤ 8388608 * 1 := by decide +kernel
    have hlater : .hook ⟨3, "", true, 1⟩ (.ticked 1) ∈
          heard 1 3 (Rooted.waiting 3 span_three 1 1 true) (Rooted.counted 1) 0 ∧
        exits (heard 1 3 (Rooted.waiting 3 span_three 1 1 true) (Rooted.counted 1) 0) = false ∧
        .hook ⟨3, "", true, 2⟩ (.answered (.ok .success)) ∈
          heard 1 3 (Rooted.waiting 3 span_three 1 1 true) (Rooted.counted 1) 1 := by
      decide +kernel
    obtain ⟨hticked, hgoes, hsucceeds⟩ := hlater
    obtain ⟨-, hwaits, -⟩ := hframes (Rooted.waiting 3 span_three 1 1 true).root.frame
      (List.mem_singleton_self _)
    refine hwaits _ rfl rfl (hclimbs 1 3 hthree.1 hthree.2) fun n hn => ?_
    cases n with
    | zero => exact ⟨⟨_, hticked⟩, hgoes⟩
    | succ n => exact absurd ⟨_, hsucceeds⟩ (hn 1 (by omega))
  · have hidle : Rooted.limited.root.Idle := by decide
    have hdistinct : Rooted.limited.root.ids.Nodup := by decide
    obtain ⟨hclimbs, hframes⟩ := elapses_of_play [] hidle hdistinct Rooted.still
      hspan.1 hspan.2
    have htwo : (0 : Float32) ≤ 0 ∧ (2 : Float32) ≤ 8388608 * 1 := by decide +kernel
    have hlater : .hook ⟨2, "", true, 0⟩ (.modified 0 1 .running .running) ∈
          heard 1 2 Rooted.limited Rooted.still 0 ∧
        exits (heard 1 2 Rooted.limited Rooted.still 0) = false ∧
        .hook ⟨2, "", true, 1⟩ (.modified 0 1 .running .failure) ∈
          heard 1 2 Rooted.limited Rooted.still 1 := by decide +kernel
    obtain ⟨hgiven, hgoes, hfires⟩ := hlater
    obtain ⟨-, -, htimes⟩ := hframes Rooted.limited.root.frame (List.mem_singleton_self _)
    refine htimes Rooted.limit (List.mem_singleton_self _) (fun d hd _ => List.mem_singleton.mp hd)
      (hclimbs 0 2 htwo.1 htwo.2) fun n hn => ?_
    cases n with
    | zero =>
      refine ⟨fun i hi => ?_, hgoes⟩
      obtain rfl : i = 0 := Nat.lt_one_iff.mp (List.getElem?_eq_some_iff.mp hi).1
      exact ⟨_, _, hgiven⟩
    | succ n => exact absurd ⟨0, _, rfl, hfires⟩ (hn 1 (by omega))

theorem span_long : Span 16777218 ∧ (0 : Float32) < 16777218 := by decide +kernel

def Rooted.late : Rooted Host.echo := waiting 16777218 span_long 1 16777216 true

def Rooted.idling : List (Entry Host.echo.Note) :=
  let v : View := ⟨3, "", true, 16777216⟩
  [.hook v (.executed 1), .hook v (.guarded 0 true), .hook v (.ticked 1),
    .hook v (.answered (.ok .running)), .hook v (.modified 0 1 .running .running),
    .hook v (.returned (.ok .running))]

theorem play_late : play (ticks 1 1) Rooted.late (Rooted.counted 16777216) =
    ⟨([.ok .running], Rooted.late), Rooted.counted 16777216, Rooted.idling⟩ := by rfl

theorem play_until_late :
    let p := play (ticks 16777216 1 ++ ticks 1 1) (Rooted.waiting 16777218 span_long 0 0 false)
      Rooted.still
    p.value.2 = Rooted.late ∧ p.state = Rooted.counted 16777216 := by
  have hfirst : (play (ticks 16777216 1) (Rooted.waiting 16777218 span_long 0 0 false)
      Rooted.still).value.2 = Rooted.waiting 16777218 span_long 16777216 16777216 true := by rfl
  have hcounted : (play (ticks 16777216 1) (Rooted.waiting 16777218 span_long 0 0 false)
      Rooted.still).state = Rooted.counted 16777216 := by rfl
  rw [play_append]
  dsimp only
  rw [hfirst, hcounted]
  exact ⟨by rfl, by rfl⟩

theorem play_ticks_late (n : Nat) :
    (play (ticks 1 n) Rooted.late (Rooted.counted 16777216)).value.2 = Rooted.late ∧
      (play (ticks 1 n) Rooted.late (Rooted.counted 16777216)).state =
        Rooted.counted 16777216 := by
  induction n with
  | zero => exact ⟨rfl, rfl⟩
  | succ n ih =>
    rw [ticks_add, play_append]
    dsimp only
    rw [ih.1, ih.2, play_late]
    exact ⟨rfl, rfl⟩

/-- A wait of 16777218 seconds, with a timeout of as many, that has been ticked with 16777216 of
them and then with one more: however often it is ticked with one more second, the clock stays, the
wait does not succeed and the timeout does not fire. -/
theorem time_stands_still :
    let p := play (ticks 16777216 1 ++ ticks 1 1) (Rooted.waiting 16777218 span_long 0 0 false)
      Rooted.still
    (∃ w, p.value.2.root.frame.behavior = .wait w ∧ w.target = 16777218 ∧ w.elapsed = 16777216) ∧
      ∀ n, (play (ticks 1 n) p.value.2 p.state).value.2.setting.scope.elapsed = 16777216 ∧
        let w := heard 1 3 p.value.2 p.state n
        (∃ v, .hook v (.ticked 1) ∈ w) ∧ (∃ v, .hook v (.modified 0 1 .running .running) ∈ w) ∧
          exits w = false ∧ ¬ Succeeds w ∧
            ¬ p.value.2.root.frame.Fires 1 ⟨8, 16777218, span_long.2⟩ w := by
  intro p
  have hp : p.value.2 = Rooted.late ∧ p.state = Rooted.counted 16777216 := play_until_late
  rw [hp.1, hp.2]
  refine ⟨⟨_, rfl, rfl, rfl⟩, fun n => ?_⟩
  obtain ⟨htree, hstate⟩ := play_ticks_late n
  have hheard : heard 1 3 Rooted.late (Rooted.counted 16777216) n = Rooted.idling := by
    rw [heard, htree, hstate, play_late]
    decide +kernel
  rw [htree, hheard]
  refine ⟨rfl, ⟨⟨3, "", true, 16777216⟩, by simp [Rooted.idling]⟩,
    ⟨⟨3, "", true, 16777216⟩, by simp [Rooted.idling]⟩, by decide +kernel, ?_, ?_⟩
  · rintro ⟨v, hv⟩
    simp [Rooted.idling] at hv
  · rintro ⟨v, hv⟩
    simp [Rooted.idling] at hv

end TickTree
