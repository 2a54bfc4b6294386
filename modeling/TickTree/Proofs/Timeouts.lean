import TickTree.Proofs.Groves
import TickTree.Proofs.Phases
/-! The two clocks of a node with a timeout, its own and the one that the timeout keeps of it, go
together over any run, and no tick leaves the node active once they have reached the limit. -/
namespace TickTree
variable {H : Host} {ν : Type}

def Entry.counted : Entry ν → Option Bool
  | notice _ (.entered ..) => some false
  | hook _ (.returned (.ok _)) => some true
  | _ => none

/-- Whether a tick of the latest activation has given a result, after entries about its node. -/
def counted (b : Bool) (w : List (Entry ν)) : Bool := w.foldl (fun b e => e.counted.getD b) b

section Counted
variable {b : Bool} {w : List (Entry ν)}

@[simp] theorem counted_nil : counted b ([] : List (Entry ν)) = b := rfl

@[simp] theorem counted_cons (e : Entry ν) :
    counted b (e :: w) = counted (e.counted.getD b) w := rfl

@[simp] theorem counted_append (w' : List (Entry ν)) :
    counted b (w ++ w') = counted (counted b w) w' := List.foldl_append

theorem counted_eq (h : ∀ e ∈ w, e.counted = none) : counted b w = b := by
  induction w with
  | nil => rfl
  | cons e w ih =>
    rw [counted_cons, h e (by simp)]
    exact ih fun e he => h e (List.mem_cons_of_mem _ he)

end Counted

def Bystanders (w : List (Entry H.Note)) : Prop := ∀ e ∈ w, e.writes = false ∧ e.counted = none

namespace Bystanders
variable {w w' : List (Entry H.Note)}

theorem writes (h : Bystanders w) : ∀ e ∈ w, e.writes = false := fun e he => (h e he).1

theorem counted_eq (h : Bystanders w) (b : Bool) : counted b w = b :=
  TickTree.counted_eq fun e he => (h e he).2

theorem append (h : Bystanders w) (h' : Bystanders w') : Bystanders (w ++ w') := by
  intro e he
  obtain he | he := List.mem_append.mp he
  · exact h e he
  · exact h' e he

theorem hooks {α : Type} (v : View) {h : α → Hook}
    (hh : ∀ a, (h a).writes = false ∧ ∀ r, h a ≠ .returned r) (xs : List α) :
    Bystanders (xs.map fun x => (.hook v (h x) : Entry H.Note)) := by
  intro e he
  obtain ⟨x, -, rfl⟩ := List.mem_map.mp he
  obtain ⟨hwrites, hreturned⟩ := hh x
  refine ⟨hwrites, ?_⟩
  cases hx : h x with
  | returned r => exact absurd hx (hreturned r)
  | _ => rfl

end Bystanders

namespace Timeout
variable {o : Timeout} {dt : Float32} {current : Status} {seen : Option Float32}

theorem count_running (h : (o.count dt current seen).1 = .running) :
    current = .running ∧ (o.count dt current seen).2 = some (seen.getD 0 + dt) ∧
      ¬ o.seconds ≤ seen.getD 0 + dt := by
  unfold count at h ⊢
  by_cases hc : current = .running
  · rw [if_pos hc] at h ⊢
    dsimp only at h ⊢
    by_cases hlimit : o.seconds ≤ seen.getD 0 + dt
    · rw [if_pos hlimit] at h
      cases h
    · rw [if_neg hlimit]
      exact ⟨hc, rfl, hlimit⟩
  · rw [if_neg hc] at h
    exact absurd h hc

end Timeout

namespace Frame

/-- A timeout sits in one slot of the node, and no other slot uses its key. The decorators that
come from the host leave results as they are. -/
structure TimedBy (o : Timeout) (f : Frame H) : Prop where
  attached : ∃ i : Nat, f.decorators[i]? = some (.timeout o) ∧
    ∀ (j : Nat) (d : Decorator H), f.decorators[j]? = some d → d.id? = some o.id → j = i
  plain : ∀ d, .custom d ∈ f.decorators → H.modifier d = none

theorem TimedBy.of_bare {o : Timeout} {f g : Frame H} (h : f.TimedBy o) (hb : g.bare = f.bare) :
    g.TimedBy o := by
  obtain ⟨attached, plain⟩ := h
  rw [← decorators_eq_of_bare hb] at attached plain
  exact ⟨attached, plain⟩

/-- What a timeout has seen of an activation is its time, which has not reached the limit. It has
seen nothing until a tick gives a result, as the flag says, nor while the node is idle. -/
def Timed (o : Timeout) (f : Frame H) (seen : Option Float32) (flag : Bool) : Prop :=
  if f.active then
    if flag then seen = some f.time ∧ ¬ o.seconds ≤ f.time else seen = none ∧ f.time = 0
  else seen = none

variable {o : Timeout} {now dt : Float32} {f g : Frame H} {r r' : Row} {flag : Bool}
  {w : List (Entry H.Note)}

theorem Timed.getD_eq (h : f.Timed o (r o.id) flag) (hf : f.active = true) :
    (r o.id).getD 0 = f.time := by
  rw [Timed, if_pos hf] at h
  cases flag with
  | true =>
    obtain ⟨hseen, -⟩ := h
    rw [hseen, Option.getD_some]
  | false =>
    obtain ⟨hseen, htime⟩ := h
    rw [hseen, htime, Option.getD_none]

section Modified
variable {slot : Nat} {ds ds' : List (Decorator H)} {raw result : Status} {hs : List Hook}
  {v : View}

theorem recalls_modified {d : Decorator H} {before after : Status} (hd : ds[slot]? = some d)
    (h : Recalls now ds r (.hook v (.modified slot dt before after) :: w) r') :
    d.Honest now (.modified slot dt before after) r ∧
      Recalls now ds (d.noted now (.modified slot dt before after) r) w r' := by
  have hheard : (Hook.modified slot dt before after).hearer ds = some d := by
    simp [Hook.hearer, Hook.slot?, hd]
  obtain ⟨hhonest, hrest⟩ := recalls_cons.mp h
  rw [Entry.noted, hheard] at hrest
  exact ⟨hhonest d hheard, hrest⟩

theorem Modified.running (h : Modified dt slot ds' raw hs result) (hds : ds.drop slot = ds')
    (plain : ∀ d, .custom d ∈ ds → H.modifier d = none)
    (hr : Recalls now ds r (hs.map (.hook v)) r') (running : result = .running) :
    raw = .running := by
  induction h generalizing r with
  | nil => exact running
  | skip hd h ih => exact ih (getElem?_of_drop_eq hds).2 hr running
  | @step slot d _ before after _ hs hd h ih =>
    obtain ⟨hslot, hds⟩ := getElem?_of_drop_eq hds
    obtain ⟨hhonest, hrest⟩ := recalls_modified hslot hr
    have hafter : after = .running := ih hds hrest running
    subst hafter
    cases d with
    | cooldown c => cases hd
    | timeout o => exact (o.count_running hhonest.symm).1
    | inverter =>
      have hinvert : Status.running = before.invert := hhonest
      cases before <;> first | rfl | cases hinvert
    | custom d =>
      have hnone := plain d (List.mem_of_getElem? hslot)
      rw [Decorator.modifies, hnone] at hd
      cases hd

theorem Modified.same {i : DecoratorId} (h : Modified dt slot ds' raw hs result)
    (hds : ds.drop slot = ds') (hr : Recalls now ds r (hs.map (.hook v)) r')
    (other : ∀ j d, ds[j]? = some d → slot ≤ j → d.id? ≠ some i) : r' i = r i := by
  induction h generalizing r with
  | nil => rw [recalls_nil.mp hr]
  | skip hd h ih =>
    exact ih (getElem?_of_drop_eq hds).2 hr fun j d hj hle => other j d hj (by omega)
  | @step slot d _ before after _ hs hd h ih =>
    obtain ⟨hslot, hds⟩ := getElem?_of_drop_eq hds
    obtain ⟨-, hrest⟩ := recalls_modified hslot hr
    rw [ih hds hrest fun j d hj hle => other j d hj (by omega)]
    exact Decorator.noted_of_ne (other slot d hslot (Nat.le_refl slot))

theorem Modified.timed {i : Nat} (h : Modified dt slot ds' raw hs result)
    (hds : ds.drop slot = ds') (plain : ∀ d, .custom d ∈ ds → H.modifier d = none)
    (hi : ds[i]? = some (.timeout o)) (hle : slot ≤ i)
    (other : ∀ j d, ds[j]? = some d → d.id? = some o.id → j = i)
    (hr : Recalls now ds r (hs.map (.hook v)) r') (running : result = .running) :
    r' o.id = some ((r o.id).getD 0 + dt) ∧ ¬ o.seconds ≤ (r o.id).getD 0 + dt := by
  induction h generalizing r with
  | nil =>
    have hlen := List.drop_eq_nil_iff.mp hds
    obtain ⟨hlt, -⟩ := List.getElem?_eq_some_iff.mp hi
    omega
  | @skip slot d _ _ _ _ hd h ih =>
    obtain ⟨hslot, hds⟩ := getElem?_of_drop_eq hds
    have hne : slot ≠ i := by
      intro e
      rw [e, hi] at hslot
      cases hslot
      cases hd
    exact ih hds (by omega) hr running
  | @step slot d _ before after _ hs hd h ih =>
    obtain ⟨hslot, htail⟩ := getElem?_of_drop_eq hds
    obtain ⟨hhonest, hrest⟩ := recalls_modified hslot hr
    by_cases hsame : slot = i
    · -- the timeout itself; the slots after it do not touch what it has seen
      subst hsame
      rw [hi] at hslot
      cases hslot
      have hafter : after = .running := h.running htail plain hrest running
      obtain ⟨-, hseen, hlimit⟩ := o.count_running (hhonest.symm.trans hafter)
      have hlater := h.same htail hrest fun j d hj hle he => by
        have := other j d hj he
        omega
      rw [hlater, Decorator.noted, Function.update_self]
      exact ⟨hseen, hlimit⟩
    · have hother : d.id? ≠ some o.id := fun he => hsame (other slot d hslot he)
      have hkept : d.noted now (.modified slot dt before after) r o.id = r o.id :=
        Decorator.noted_of_ne hother
      have := ih htail (by omega) hrest running
      rwa [hkept] at this

end Modified

theorem bystanders_guards {v : View} {gs : List (Entry H.Note)}
    (h : ∀ e ∈ gs, ∃ i passed, e = .hook v (.guarded i passed)) : Bystanders gs := by
  intro e he
  obtain ⟨i, passed, rfl⟩ := h e he
  exact ⟨rfl, rfl⟩

theorem bystanders_resumed {v : View} {rs : List (Entry H.Note)}
    (h : ∀ e ∈ rs, ∃ cursor, e = .hook v (.resumed cursor)) : Bystanders rs := by
  intro e he
  obtain ⟨cursor, rfl⟩ := h e he
  exact ⟨rfl, rfl⟩

theorem bystanders_closing (s : Setting) (result : Status) (f : Frame H) :
    Bystanders (f.closing s result) := by
  have hslots : Bystanders (slots f.view .detached 0 f.services.length : List (Entry H.Note)) :=
    .hooks f.view (fun i => ⟨rfl, by simp⟩) _
  exact hslots.append fun e he => by
    rw [List.mem_singleton.mp he]
    exact ⟨rfl, rfl⟩

/-- When all decorators hear of the end of an activation, the timeout forgets what it has seen. -/
theorem TimedBy.forgets (hf : f.TimedBy o) {v : View} {h : Nat → Hook}
    (slot : ∀ i, (h i).slot? = some i)
    (forget : ∀ i r, (Decorator.timeout o : Decorator H).noted now (h i) r =
      Function.update r o.id none)
    (hr : Recalls now f.decorators r (slots v h 0 f.decorators.length) r') : r' o.id = none := by
  obtain ⟨i, hi, other⟩ := hf.attached
  have hset : ∀ r, (Entry.hook v (h i) : Entry H.Note).noted now f.decorators r o.id = none := by
    intro r
    simp [Entry.noted, Hook.hearer, slot, hi, forget]
  refine hr.set (fun e he r => ?_) ⟨.hook v (h i), ?_, hset⟩
  · obtain ⟨j, hlt, rfl⟩ := mem_slots.mp he
    by_cases hji : j = i
    · subst hji
      exact .inr (hset r)
    · left
      have hat := List.getElem?_eq_getElem hlt
      have hne : f.decorators[j].id? ≠ some o.id := fun he => hji (other j _ hat he)
      simp [Entry.noted, Hook.hearer, slot, hat, Decorator.noted_of_ne hne]
  · exact mem_slots.mpr ⟨i, (List.getElem?_eq_some_iff.mp hi).1, rfl⟩

theorem timed_of_idle (hg : g.active = false) (hseen : r o.id = none) :
    g.Timed o (r o.id) flag := by
  rw [Timed, if_neg (by simp [hg])]
  exact hseen

theorem TimedBy.forced {s : Setting} (hf : f.TimedBy o)
    (hr : Recalls now f.decorators r (f.forced s) r') : r' o.id = none := by
  obtain ⟨r₂, hr₂, hnotice⟩ := recalls_append.mp hr
  obtain ⟨r₁, hr₁, hclosing⟩ := recalls_append.mp hr₂
  rw [hnotice.eq (by simp [Entry.writes]), hclosing.eq (bystanders_closing s .failure f).writes]
  exact hf.forgets (fun _ => rfl) (fun _ _ => rfl) hr₁

theorem TimedBy.sweep {s : Setting} (hf : f.TimedBy o)
    (hr : Recalls now f.decorators r (f.sweep s) r') (ht : f.Timed o (r o.id) flag) :
    r' o.id = none := by
  by_cases ha : f.active = true
  · rw [Frame.sweep, if_pos ha] at hr
    exact hf.forced hr
  · rw [f.sweep_of_idle s (by simpa using ha)] at hr
    rw [Timed, if_neg ha] at ht
    rw [recalls_nil.mp hr, ht]

theorem Settles.timed {s : Setting} {raw answer : Answer} (h : f.Settles s dt raw answer w g)
    (hf : f.TimedBy o) (ha : f.active = true)
    (hr : Recalls now f.decorators r (w ++ [.hook g.view (.returned answer)]) r')
    (ht : f.Timed o (r o.id) flag) :
    g.Timed o (r' o.id) (counted flag (w ++ [.hook g.view (.returned answer)])) := by
  obtain ⟨r₁, hw, hreturned⟩ := recalls_append.mp hr
  rw [hreturned.eq (by simp [Entry.writes, Hook.writes])]
  cases h with
  | stopped =>
    rw [recalls_nil.mp hw]
    exact ht
  | @kept raw hs modified =>
    obtain ⟨i, hi, other⟩ := hf.attached
    obtain ⟨hseen, hlimit⟩ := modified.timed rfl hf.plain hi (Nat.zero_le i) other hw rfl
    rw [ht.getD_eq ha] at hseen hlimit
    rw [Timed, if_pos (show (f.aged dt).active = true from ha), counted_append]
    exact ⟨hseen, hlimit⟩
  | @concluded raw result hs b modified terminal =>
    obtain ⟨r₂, -, hend⟩ := recalls_append.mp hw
    obtain ⟨-, hend⟩ := recalls_cons.mp hend
    obtain ⟨r₃, -, hfinished⟩ := recalls_append.mp hend
    exact timed_of_idle rfl (hf.forgets (fun _ => rfl) (fun _ _ => rfl) hfinished)

theorem bystanders_drawn (f : Frame H) (drawn : List Draw) : Bystanders (drawn.map fun d =>
    (.hook ⟨f.id, f.name, true, 0⟩ (.drew d) : Entry H.Note)) :=
  .hooks _ (fun d => ⟨rfl, by simp⟩) _

theorem writes_start (s : Setting) (f : Frame H) (drawn : List Draw) :
    ∀ e ∈ f.start s drawn, e.writes = false :=
  List.forall_mem_cons.mpr ⟨rfl, List.forall_mem_cons.mpr ⟨rfl, (bystanders_drawn f drawn).writes⟩⟩

theorem counted_start (s : Setting) (f : Frame H) (drawn : List Draw) (flag : Bool) :
    counted flag (f.start s drawn) = false := (bystanders_drawn f drawn).counted_eq false

theorem timed_of_begun (hg : g.active = true) (hseen : r o.id = none) (htime : g.time = 0) :
    g.Timed o (r o.id) false := by
  rw [Timed, if_pos hg]
  exact ⟨hseen, htime⟩

theorem Opens.timed {s : Setting} {op : List (Entry H.Note)} (h : f.Opens s op g)
    (hr : Recalls now f.decorators r op r') (ht : f.Timed o (r o.id) flag) :
    g.Timed o (r' o.id) (counted flag op) := by
  cases h with
  | already =>
    rw [recalls_nil.mp hr]
    exact ht
  | @fresh b drawn idle =>
    have hslots : Bystanders (slots (f.begun b).view .attached 0 f.services.length :
        List (Entry H.Note)) := .hooks _ (fun i => ⟨rfl, by simp⟩) _
    have hsame := (hr.drop (f.writes_start s drawn)).eq hslots.writes
    rw [Timed, if_neg (by simp [idle])] at ht
    rw [counted_append, hslots.counted_eq, counted_start, hsame]
    exact timed_of_begun rfl ht rfl

theorem Visit.timed {s : Setting} {answer : Answer} (h : f.Visit s dt answer w g)
    (hf : f.TimedBy o) (hr : Recalls now f.decorators r w r') (ht : f.Timed o (r o.id) flag) :
    g.Timed o (r' o.id) (counted flag w) := by
  cases h with
  | refused guards =>
    obtain ⟨-, hr⟩ := recalls_cons.mp hr
    obtain ⟨-, hr⟩ := recalls_cons.mp (hr.drop (bystanders_guards guards).writes)
    obtain ⟨r₁, hswept, hreturned⟩ := recalls_append.mp hr
    rw [hreturned.eq (by simp [Entry.writes, Hook.writes])]
    exact timed_of_idle f.active_settle (hf.sweep hswept ht)
  | @panicked gs p b drawn guards idle =>
    have hgs := bystanders_guards guards
    obtain ⟨-, hr⟩ := recalls_cons.mp hr
    have hreturned := (hr.drop hgs.writes).drop (f.writes_start s drawn)
    have hsame := hreturned.eq (by simp [Entry.writes, Hook.writes])
    rw [Timed, if_neg (by simp [idle])] at ht
    rw [counted_cons, counted_append, counted_append, counted_start, hsame]
    exact timed_of_begun rfl ht rfl
  | @ticked gs op rs w f₁ _ _ _ raw _ b guards opens resumes _ settles =>
    have hgs := bystanders_guards guards
    have hrs := bystanders_resumed resumes
    have hserved : Bystanders ((Attachment.due dt 0 f₁.services).map
        fun i => (.hook f₁.view (.serviced i dt) : Entry H.Note)) :=
      .hooks f₁.view (fun i => ⟨rfl, by simp⟩) _
    obtain ⟨-, hr⟩ := recalls_cons.mp hr
    obtain ⟨r₁, hopened, hr⟩ := recalls_append.mp (hr.drop hgs.writes)
    obtain ⟨-, hr⟩ := recalls_cons.mp (hr.drop hserved.writes)
    obtain ⟨-, hr⟩ := recalls_cons.mp (hr.drop hrs.writes)
    let f₂ : Frame H :=
      { f₁ with services := Attachment.advanceAll dt f₁.services, behavior := b }
    have hf₂ : f₂.TimedBy o := hf.of_bare ((bare_served f₁ dt b).trans opens.bare_eq)
    have htimed : f₂.Timed o (r₁ o.id) (counted flag op) := opens.timed hopened ht
    rw [← decorators_eq_of_bare opens.bare_eq] at hr
    have hsettled := settles.timed hf₂ opens.active_eq hr htimed
    simpa [hgs.counted_eq, hserved.counted_eq, hrs.counted_eq, Entry.counted] using hsettled

/-- A visit in which the behavior gives a result either ends the activation or adds the tick to the
time that the node had when the behavior answered. -/
theorem Visit.aged {s : Setting} {v : View} {answer : Answer} {result : Status}
    (h : f.Visit s dt answer w g) (hv : .hook v (.answered (.ok result)) ∈ w)
    (ha : g.active = true) : g.time = v.time + dt ∧ ∀ flag, counted flag w = true := by
  obtain ⟨f', w₁, w₂, rfl, settles, rfl⟩ := h.of_answered hv
  cases settles with
  | kept => exact ⟨rfl, fun flag => by simp [Entry.counted]⟩
  | concluded => cases ha

def timing (o : Timeout) : FrameLaw H where
  covers _ := True
  covers_ok _ := trivial
  holds f w g := g.bare = f.bare ∧ ∀ now r r' flag, f.TimedBy o →
    Recalls now f.decorators r w r' → f.Timed o (r o.id) flag →
      g.Timed o (r' o.id) (counted flag w)
  refl f := by
    refine ⟨rfl, fun now r r' flag _ hr ht => ?_⟩
    rw [recalls_nil.mp hr]
    exact ht
  trans h h' := by
    refine ⟨h'.1.trans h.1, fun now r r' flag hf hr ht => ?_⟩
    obtain ⟨r₁, hr, hr'⟩ := recalls_append.mp hr
    rw [counted_append]
    rw [← decorators_eq_of_bare h.1] at hr'
    exact h'.2 now r₁ r' _ (hf.of_bare h.1) hr' (h.2 now r r₁ flag hf hr ht)
  forced s f _ := ⟨f.bare_ended, fun now r r' flag hf hr _ => timed_of_idle rfl (hf.forced hr)⟩
  visit h _ := ⟨h.bare_eq, fun now r r' flag hf hr ht => h.timed hf hr ht⟩

theorem Once.overdue {s : Setting} {answer : Answer} {v : View} (h : f.Once s dt answer w g)
    (hf : f.TimedBy o) (hr : Recalls now f.decorators r w r') (ht : f.Timed o (r o.id) flag)
    (hv : .hook v (.answered (.ok .running)) ∈ w) (hlimit : o.seconds ≤ v.time + dt) :
    g.active = false ∧ r' o.id = none := by
  obtain ⟨-, htiming⟩ := (timing o).of_once h trivial
  have hg : g.Timed o (r' o.id) (counted flag w) := htiming now r r' flag hf hr ht
  have hidle : g.active = false := by
    by_contra hactive
    have hactive : g.active = true := by simpa using hactive
    cases h with
    | missed after =>
      cases after with
      | missed => simp at hv
      | reached =>
        rw [active_settle] at hactive
        cases hactive
    | visited visit _ after =>
      cases after with
      | missed =>
        rw [List.append_nil] at hv hg
        obtain ⟨htime, hflag⟩ := visit.aged hv hactive
        rw [Timed, if_pos hactive, if_pos (hflag flag)] at hg
        rw [htime] at hg
        exact hg.2 hlimit
      | reached =>
        rw [active_settle] at hactive
        cases hactive
  rw [Timed, if_neg (by simp [hidle])] at hg
  exact ⟨hidle, hg⟩

end Frame

section Runs
variable {o : Timeout} {k : NodeId}

def Rooted.Timed (o : Timeout) (k : NodeId) (flag : Bool) (t : Rooted H) (st : Stage H) : Prop :=
  ∀ f ∈ t.root.frames, f.id = k →
    f.TimedBy o ∧ f.Timed o (o.elapsed st.tables k) flag

theorem timed_act {m : Move H} (apart : ∀ change, m = .outside change →
      ∀ st, o.elapsed (change st).tables k = o.elapsed st.tables k)
    {t : Rooted H} (h : t.Proper) {st : Stage H} {flag : Bool} (ht : t.Timed o k flag st) :
    (m.act t st).value.2.Timed o k (counted flag (own k (m.act t st).trace))
      (m.act t st).state := by
  by_cases hm : ∃ change, m = .outside change
  · obtain ⟨change, rfl⟩ := hm
    intro f hf hid
    obtain ⟨hby, htimed⟩ := ht f hf hid
    rw [← apart change rfl st] at htimed
    exact ⟨hby, htimed⟩
  · intro g hg hid
    subst hid
    obtain ⟨f, hf, hfg, ⟨dt, answer, honce⟩, hrow⟩ :=
      act_recalls (fun change e => hm ⟨change, e⟩) h st hg
    obtain ⟨hbare, htiming⟩ := (Frame.timing o).of_once honce trivial
    obtain ⟨hby, htimed⟩ := ht f hf hfg
    exact ⟨hby.of_bare hbare, htiming _ _ _ flag hby hrow htimed⟩

theorem timed_play (ms : List (Move H)) (apart : ∀ change, .outside change ∈ ms →
      ∀ st, o.elapsed (change st).tables k = o.elapsed st.tables k)
    {t : Rooted H} (h : t.Proper) {st : Stage H} {flag : Bool} (ht : t.Timed o k flag st) :
    (play ms t st).value.2.Timed o k (counted flag (own k (play ms t st).trace))
      (play ms t st).state := by
  induction ms generalizing t st flag with
  | nil => exact ht
  | cons m ms ih =>
    have hact := timed_act (fun change e => apart change (e ▸ List.mem_cons_self)) h ht
    have := ih (fun change hc => apart change (List.mem_cons_of_mem _ hc)) (proper_act m h st) hact
    rw [play_cons]
    simpa only [own_append, counted_append] using this

theorem kept_timed (o : Timeout) (k : NodeId) : Kept (H := H) k fun f r w =>
    f.TimedBy o ∧ f.Timed o (r o.id) (counted false w) := by
  intro ms t st w inside hproper h f hf hid
  rw [counted_append]
  exact timed_play ms (fun change hc => absurd hc (inside change)) hproper h f hf hid

end Runs

/-- In every state of a grove a timeout has seen the time of the node that it sits on, bit for bit,
and less than its limit, once a tick of the activation has given a result; before that both clocks
are at zero, and the timeout has seen nothing of an idle node. In the next execution, a running
answer of the behavior that takes the time to the limit ends the activation. -/
theorem timed_of_tend (o : Timeout) (k : NodeId) (ds : List (Deed H)) (g : List (Instance H))
    (idle : ∀ i ∈ g, i.root.Idle) (distinct : (g.flatMap (·.root.ids)).Nodup) (r : Realm H)
    (timed : ∀ i ∈ g, ∀ f ∈ i.root.frames, f.id = k → f.TimedBy o)
    (unset : o.elapsed r.tables k = none) :
    let p := tend ds g r
    ∀ i ∈ p.value.2,
      (∀ f ∈ i.root.frames, f.id = k →
        f.Timed o (o.elapsed p.state.tables k) (counted false (own k p.trace))) ∧
      ∀ s rng dt,
        let q := i.root.execute s dt ⟨p.state, rng⟩
        ∀ f ∈ q.value.2.frames, f.id = k → ∀ v,
          .hook v (.answered (.ok .running)) ∈ own k q.trace → o.seconds ≤ v.time + dt →
            f.active = false ∧ o.elapsed q.state.tables k = none := by
  intro p i hi
  have hplanted : Planted g := ⟨fun i hi => Node.sound_of_idle (idle i hi), distinct⟩
  have hstart : ∀ i ∈ g, ∀ f ∈ i.root.frames, f.id = k → f.TimedBy o ∧
      f.Timed o (r.tables.row k o.id) (counted false ([] : List (Entry H.Note))) := by
    intro i hi f hf hid
    exact ⟨timed i hi f hf hid, Frame.timed_of_idle (idle i hi f hf) unset⟩
  obtain ⟨hplanted, hkept⟩ := tend_rule (kept_timed o k) ds hplanted hstart
  have hp : i.rooted.Proper := hplanted.proper hi
  refine ⟨fun f hf hid => (hkept i hi f hf hid).2, ?_⟩
  intro s rng dt q g hg hid v hv hlimit
  subst hid
  obtain ⟨f, hf, hfg, honce, hrow⟩ :=
    Node.execute_recalls s dt hp.sound hp.distinct ⟨p.state, rng⟩ hg
  obtain ⟨hby, htimed⟩ := hkept i hi f hf hfg
  exact honce.overdue hby hrow htimed hv hlimit

def Rooted.limit : Timeout := ⟨7, 2, by decide +kernel⟩

def Rooted.limited : Rooted Host.echo :=
  { echo with
    root := .mk { Frame.idle 2 "" (.action (Status.running : Host.echo.Action)) with
      decorators := [.timeout limit] } [] }

theorem Rooted.timedBy_limited :
    ∀ f ∈ limited.root.frames, f.id = 2 → f.TimedBy limit := by
  intro f hf _
  obtain rfl : f = limited.root.frame := List.mem_singleton.mp hf
  refine ⟨⟨0, rfl, fun j d hd _ => ?_⟩, fun d hd => ?_⟩
  · have hlt := (List.getElem?_eq_some_iff.mp hd).1
    exact Nat.lt_one_iff.mp hlt
  · cases List.mem_singleton.mp hd

def Instance.limited : Instance Host.echo :=
  .ofRoot Rooted.limited.root ⟨Rooted.echo.setting, .ofSeed 0⟩

theorem timed_of_tend_limited :
    let p := tend [.on 0 (.tick 1), .on 0 .restart, .on 0 (.tick 1)] [Instance.limited]
      Rooted.still.toRealm
    ((∀ i ∈ [Instance.limited], i.root.Idle) ∧
      ([Instance.limited].flatMap (·.root.ids)).Nodup ∧
      (∀ i ∈ [Instance.limited], ∀ f ∈ i.root.frames, f.id = 2 → f.TimedBy Rooted.limit) ∧
      Rooted.limit.elapsed Rooted.still.tables 2 = none) ∧
    ∀ i ∈ p.value.2, ∀ f ∈ i.root.frames, f.id = 2 →
      f.Timed Rooted.limit (some 1) (counted false (own 2 p.trace)) := by
  intro p
  have hidle : ∀ i ∈ [Instance.limited], i.root.Idle := by decide
  have hdistinct : ([Instance.limited].flatMap (·.root.ids)).Nodup := by decide
  have htimed : ∀ i ∈ [Instance.limited], ∀ f ∈ i.root.frames, f.id = 2 →
      f.TimedBy Rooted.limit := List.forall_mem_singleton.mpr Rooted.timedBy_limited
  have hseen : Rooted.limit.elapsed p.state.tables 2 = some 1 := by decide +kernel
  refine ⟨⟨hidle, hdistinct, htimed, rfl⟩, fun i hi f hf hid => ?_⟩
  rw [← hseen]
  have htend := timed_of_tend Rooted.limit 2
    [.on 0 (.tick 1), .on 0 .restart, .on 0 (.tick 1)] [Instance.limited] hidle hdistinct
    Rooted.still.toRealm htimed rfl
  exact (htend i hi).1 f hf hid

end TickTree
