import TickTree.Proofs.Reshuffling
import TickTree.Proofs.Selection
import TickTree.Proofs.Timeouts
/-! Sequences out of selectors. An inverter on a selector and an inverter after all other modifiers
of each of its children make it run its children in order, each until it does not go on, and go to the
next one when a child succeeds. What counts as the result of a child is what its inverter is given. -/
namespace TickTree
variable {H : Host} {ν : Type}

def inverted (a : Answer) : Answer := a.map Status.invert

@[simp] theorem inverted_ok (r : Status) : inverted (.ok r) = .ok r.invert := rfl

@[simp] theorem inverted_error (stop : Stop) : inverted (.error stop) = .error stop := rfl

theorem inverted_inverted (a : Answer) : inverted (inverted a) = a := by
  cases a <;> simp

theorem inverted_eq_iff {a b : Answer} : inverted a = b ↔ a = inverted b := by
  constructor
  · rintro rfl
    exact (inverted_inverted a).symm
  · rintro rfl
    exact inverted_inverted b

theorem going_inverted {a : Answer} : Going (inverted a) ↔ Going a := by
  cases a with
  | error stop => exact iff_of_true (going_error stop) (going_error stop)
  | ok r => rw [inverted_ok, going_ok, going_ok, Status.isTerminal_invert]

/-! ### Sequences -/

/-- What may come next in an activation of a sequence: the next child in the same round, if this one
has succeeded, and this one in a later round, if it goes on. Nothing comes after a failure. -/
def Trial.Follows (t u : Trial) : Prop :=
  t.answer = .ok .success ∧ u.round = t.round ∧ u.child = t.child + 1 ∨
    Going t.answer ∧ t.round < u.round ∧ u.child = t.child

def successes (rs : List Round) : List Nat :=
  ((trials rs).filter (·.answer = .ok .success)).map (·.child)

/-- How a sequence of `n` children goes through an activation with these rounds. -/
structure Sequences (n : Nat) (rs : List Round) : Prop where
  first : ∀ t ∈ (trials rs).head?, t.child = 0
  next : (trials rs).IsChain Trial.Follows
  forward : ((trials rs).map (·.child)).Pairwise (· ≤ ·)
  /-- Unless it is a success, the answer of the sequence is that of the last child of the round. -/
  answers : ∀ r ∈ rs, ∀ a, a ≠ .ok .success →
    (r.raw = a ↔ (r.log.map Prod.snd).getLast? = some a)
  /-- It succeeds as soon as all of its children have succeeded, one after the other. -/
  succeeds : ∀ pre r post, rs = pre ++ r :: post →
    (r.raw = .ok .success ↔ successes (pre ++ [r]) = List.range n)
  goes : ∀ r ∈ rs.dropLast, Going r.raw

def Trial.invert (t : Trial) : Trial := { t with answer := inverted t.answer }

def Round.invert (r : Round) : Round := ⟨r.log.map fun x => (x.1, inverted x.2), inverted r.raw⟩

theorem Trial.Next.invert {t u : Trial} (h : t.Next u) : t.invert.Follows u.invert := by
  obtain ⟨ha, h⟩ | ⟨ha, h⟩ := h
  · exact .inl ⟨inverted_eq_iff.mpr ha, h⟩
  · exact .inr ⟨going_inverted.mpr ha, h⟩

theorem trials_invert (rs : List Round) :
    trials (rs.map Round.invert) = (trials rs).map Trial.invert := by
  have htrials (k : Nat) (r : Round) : r.invert.trials k = (r.trials k).map Trial.invert := by
    simp [Round.trials, Round.invert, Trial.invert, Function.comp_def]
  simp [trials, List.zipIdx_map, List.flatMap_map, List.map_flatMap, htrials]

theorem successes_invert (rs : List Round) : successes (rs.map Round.invert) = failures rs := by
  have hsuccess (t : Trial) : t.invert.answer = .ok .success ↔ t.answer = .ok .failure :=
    inverted_eq_iff
  simp only [successes, trials_invert, List.filter_map, List.map_map, failures, Function.comp_def,
    hsuccess]
  rfl

/-- With all results inverted a selector is a sequence. -/
theorem Selects.invert {n : Nat} {rs : List Round} (h : Selects n rs) :
    Sequences n (rs.map Round.invert) where
  first := by
    rw [trials_invert, List.head?_map]
    intro t ht
    obtain ⟨u, hu, rfl⟩ := Option.map_eq_some_iff.mp ht
    exact h.first u hu
  next := by
    rw [trials_invert, List.isChain_map]
    exact h.next.imp fun _ _ => Trial.Next.invert
  forward := by
    rw [trials_invert, List.map_map]
    exact h.forward
  answers := by
    intro r' hr' a ha
    obtain ⟨r, hr, rfl⟩ := List.mem_map.mp hr'
    have hanswers := h.answers r hr (inverted a) fun hfailure => ha (inverted_eq_iff.mp hfailure)
    have hlast : (r.invert.log.map Prod.snd).getLast? =
        ((r.log.map Prod.snd).getLast?).map inverted := by
      simp [Round.invert, List.getLast?_map, Option.map_map, Function.comp_def]
    rw [hlast, Option.map_eq_some_iff]
    simp only [inverted_eq_iff, exists_eq_right]
    exact inverted_eq_iff.trans hanswers
  succeeds := by
    intro pre r post hrs
    obtain ⟨pre, rest, rfl, rfl, hrest⟩ := List.map_eq_append_iff.mp hrs
    obtain ⟨r, post, rfl, rfl, rfl⟩ := List.map_eq_cons_iff.mp hrest
    have hfails := h.fails pre r post rfl
    rw [← successes_invert] at hfails
    rw [List.map_append, List.map_singleton] at hfails
    exact inverted_eq_iff.trans hfails
  goes := by
    intro r' hr'
    rw [← List.map_dropLast] at hr'
    obtain ⟨r, hr, rfl⟩ := List.mem_map.mp hr'
    exact going_inverted.mpr (h.goes r hr)

/-! ### Inner results -/

/-- What an entry shows of a node with these children. Of a child it shows the result that the
decorator at the slot of the child is given, or that the child gives none; of the node itself, its
answer as a whole. -/
def Entry.inner? (slot : NodeId → Nat) (k : NodeId) (kids : List NodeId) : Entry ν → Option Beat
  | .notice _ (.entered v _) => if v.id = k then some .begun else none
  | .hook v (.drew d) => if v.id = k then some (.drew d) else none
  | .hook v (.ticked _) => if v.id = k then some .ticked else none
  | .hook v (.modified i _ before _) =>
    if v.id ∈ kids ∧ i = slot v.id then some (.child (kids.idxOf v.id) (.ok before)) else none
  | .hook v (.returned (.ok r)) => if v.id = k then some (.answered (.ok r)) else none
  | .hook v (.returned (.error stop)) =>
    if v.id = k then some (.answered (.error stop))
    else if v.id ∈ kids then some (.child (kids.idxOf v.id) (.error stop)) else none
  | _ => none

def inners (slot : NodeId → Nat) (k : NodeId) (kids : List NodeId) (tr : List (Entry ν)) :
    List Beat :=
  tr.filterMap (Entry.inner? slot k kids)

def Beat.inverted? : Beat → Option Beat
  | .child i a => some (.child i (inverted a))
  | .answered a => some (.answered (inverted a))
  | .ended => none
  | b => some b

def Hook.shows : Hook → Bool
  | modified .. | answered _ | returned _ => true
  | _ => false

def Entry.shows : Entry ν → Bool
  | hook _ h => h.shows
  | _ => false

section Read
variable {slot : NodeId → Nat} {k : NodeId} {kids : List NodeId} {tr tr' : List (Entry ν)}

@[simp] theorem inners_nil : inners slot k kids ([] : List (Entry ν)) = [] := rfl

@[simp] theorem inners_append :
    inners slot k kids (tr ++ tr') = inners slot k kids tr ++ inners slot k kids tr' :=
  List.filterMap_append

theorem inners_cons (e : Entry ν) :
    inners slot k kids (e :: tr) = (e.inner? slot k kids).toList ++ inners slot k kids tr := by
  cases h : e.inner? slot k kids <;> simp [inners, h]

theorem inners_eq_nil (h : ∀ e ∈ tr, e.inner? slot k kids = none) : inners slot k kids tr = [] :=
  List.filterMap_eq_nil_iff.mpr h

theorem only_inner : Only (k :: kids) fun e : Entry ν => (e.inner? slot k kids).isSome := by
  intro e he
  have hown {v : View} (hv : v.id = k) : ∃ j ∈ k :: kids, some v.id = some j :=
    ⟨k, by simp, by rw [hv]⟩
  have hkid {v : View} (hv : v.id ∈ kids) : ∃ j ∈ k :: kids, some v.id = some j :=
    ⟨v.id, List.mem_cons_of_mem _ hv, rfl⟩
  cases e with
  | hook v h =>
    cases h with
    | modified i dt before after =>
      by_cases hv : v.id ∈ kids
      · exact hkid hv
      · simp [Entry.inner?, hv] at he
    | returned a =>
      by_cases hv : v.id = k
      · exact hown hv
      · cases a with
        | ok r => simp [Entry.inner?, hv] at he
        | error stop =>
          by_cases hv' : v.id ∈ kids
          · exact hkid hv'
          · simp [Entry.inner?, hv, hv'] at he
    | drew | ticked =>
      by_cases hv : v.id = k
      · exact hown hv
      · simp [Entry.inner?, hv] at he
    | _ => cases he
  | notice l n =>
    cases n with
    | entered v t =>
      by_cases hv : v.id = k
      · exact hown hv
      · simp [Entry.inner?, hv] at he
    | _ => cases he
  | _ => cases he

@[simp] theorem inners_calls : inners slot k kids (calls tr) = inners slot k kids tr :=
  only_inner.filterMap_calls tr

theorem Entry.inner?_eq {e : Entry ν} (h : e.shows = false) :
    e.inner? slot k kids = (e.beat? k kids).bind Beat.inverted? := by
  cases e with
  | hook v h' =>
    cases h' with
    | modified | answered | returned => cases h
    | drew d => by_cases hv : v.id = k <;> simp [inner?, beat?, hv, Beat.inverted?]
    | ticked dt => by_cases hv : v.id = k <;> simp [inner?, beat?, hv, Beat.inverted?]
    | _ => rfl
  | notice l n =>
    cases n with
    | entered v t => by_cases hv : v.id = k <;> simp [inner?, beat?, hv, Beat.inverted?]
    | exited v r t => by_cases hv : v.id = k <;> simp [inner?, beat?, hv, Beat.inverted?]
    | _ => rfl
  | _ => rfl

theorem Entry.inner?_returned {v : View} (hv : v.id = k) (a : Answer) :
    (.hook v (.returned a) : Entry ν).inner? slot k kids = some (.answered a) := by
  cases a <;> simp [inner?, hv]

theorem inners_eq_beats (h : ∀ e ∈ calls tr, e.shows = false) :
    inners slot k kids tr = (beats k kids tr).filterMap Beat.inverted? := by
  rw [← inners_calls, ← beats_calls, inners, beats, List.filterMap_filterMap]
  exact List.filterMap_congr fun e he => Entry.inner?_eq (h e he)

end Read

theorem OfPhase.shows {p : Phase} {w : List (Entry H.Note)} (hw : OfPhase p w)
    (hp : p = .asked ∨ p = .opened ∨ p = .served ∨ p = .ticked) : ∀ e ∈ w, e.shows = false := by
  intro e he
  cases e with
  | hook v h =>
    obtain rfl := hw v h he
    cases h with
    | modified | answered | returned => simp [Hook.phase] at hp
    | _ => rfl
  | _ => rfl

namespace Frame
variable {slot : NodeId → Nat} {k : NodeId} {kids : List NodeId} {s : Setting} {dt : Float32}
  {f f' g : Frame H}

@[simp] theorem inners_slots {v : View} {h : Nat → Hook} (n : Nat)
    (dull : ∀ i, (.hook v (h i) : Entry ν).inner? slot k kids = none) :
    inners slot k kids (slots v h 0 n : List (Entry ν)) = [] := by
  refine inners_eq_nil fun e he => ?_
  obtain ⟨i, -, rfl⟩ := mem_slots.mp he
  exact dull i

theorem inners_closing (s : Setting) (r : Status) (f : Frame H) :
    inners slot k kids (f.closing s r) = [] := by
  rw [closing, inners_append, inners_slots _ fun _ => rfl]
  rfl

theorem inners_sweep (s : Setting) (f : Frame H) : inners slot k kids (f.sweep s) = [] := by
  unfold sweep
  split
  · rw [forced, inners_append, inners_append, inners_slots _ fun _ => rfl, inners_closing]
    rfl
  · rfl

end Frame

theorem Node.inners_sweep {slot : NodeId → Nat} {k : NodeId} {kids : List NodeId} (s : Setting)
    (n : Node H) : inners slot k kids (n.sweep s) = [] := by
  induction n with
  | mk f cs ih =>
    have hbelow : inners slot k kids (cs.flatMap (sweep s)) = [] := inners_eq_nil fun e he => by
      obtain ⟨c, hc, he⟩ := List.mem_flatMap.mp he
      exact List.filterMap_eq_nil_iff.mp (ih c hc) e he
    rw [sweep_mk, inners_append, Frame.inners_sweep, List.append_nil]
    split
    · exact hbelow
    · rfl

theorem Recalls.invert {now : Float32} {ds : List (Decorator H)} {r r' : Row}
    {w : List (Entry H.Note)} (h : Recalls now ds r w r') {v : View} {i : Nat} {dt : Float32}
    {before after : Status} (hmem : .hook v (.modified i dt before after) ∈ w)
    (hi : ds[i]? = some .inverter) : after = before.invert := by
  induction w generalizing r with
  | nil => cases hmem
  | cons e w ih =>
    obtain ⟨honest, hrest⟩ := recalls_cons.mp h
    obtain rfl | hmem := List.mem_cons.mp hmem
    · exact honest .inverter hi
    · exact ih hrest hmem

namespace Frame
variable {slot : NodeId → Nat} {k : NodeId} {kids : List NodeId} {s : Setting} {dt : Float32}
  {f g : Frame H}

/-- The last decorator that modifies results is an inverter, at this slot. -/
def InvertsAt (slot : Nat) (f : Frame H) : Prop :=
  ∃ ds es, f.decorators = ds ++ .inverter :: es ∧ ds.length = slot ∧
    ∀ d ∈ es, d.modifies = false

theorem InvertsAt.of_bare {i : Nat} (h : f.InvertsAt i) (hb : g.bare = f.bare) : g.InvertsAt i := by
  obtain ⟨ds, es, hds, h⟩ := h
  exact ⟨ds, es, (decorators_eq_of_bare hb).trans hds, h⟩

theorem InvertsAt.getElem? {i : Nat} (h : f.InvertsAt i) : f.decorators[i]? = some .inverter := by
  obtain ⟨ds, es, hds, rfl, -⟩ := h
  simp [hds]

theorem Modified.eq_nil {i : Nat} {ds : List (Decorator H)} {before after : Status} {hs : List Hook}
    (h : Modified dt i ds before hs after) (plain : ∀ d ∈ ds, d.modifies = false) :
    hs = [] ∧ after = before := by
  induction h with
  | nil => exact ⟨rfl, rfl⟩
  | skip _ _ ih => exact ih fun d hd => plain d (List.mem_cons_of_mem _ hd)
  | step hd => cases hd.symm.trans (plain _ List.mem_cons_self)

/-- Of the modifiers of a child, its parent sees what the last one is given. -/
theorem Modified.inners_eq {v : View} {i : Nat} {ds es : List (Decorator H)} {raw result : Status}
    {hs : List Hook} (h : Modified dt i (ds ++ .inverter :: es) raw hs result)
    (plain : ∀ d ∈ es, d.modifies = false) (hslot : slot v.id = i + ds.length) (hkid : v.id ∈ kids)
    (inverts : ∀ before after, .modified (slot v.id) dt before after ∈ hs → after = before.invert) :
    inners slot k kids (hs.map (.hook v) : List (Entry ν)) =
      [.child (kids.idxOf v.id) (.ok result.invert)] := by
  induction ds generalizing i raw hs with
  | nil =>
    cases h with
    | skip hd => cases hd
    | @step _ _ _ _ after _ hs _ h =>
      obtain ⟨rfl, rfl⟩ := h.eq_nil plain
      obtain rfl : slot v.id = i := hslot
      rw [inverts raw result List.mem_cons_self, Status.invert_invert]
      simp [inners_cons, Entry.inner?, hkid]
  | cons d ds ih =>
    have hlater : slot v.id = i + 1 + ds.length := by
      rw [hslot, List.length_cons]
      omega
    cases h with
    | skip _ h => exact ih h hlater inverts
    | step _ h =>
      have hne : i ≠ slot v.id := by omega
      rw [List.map_cons, inners_cons, ih h hlater fun before after hmem =>
        inverts before after (List.mem_cons_of_mem _ hmem)]
      simp [Entry.inner?, hne]

section Child
variable {raw answer : Answer} {w : List (Entry H.Note)}

theorem Visit.active_of_error {stop : Stop} (h : f.Visit s dt (.error stop) w g) :
    g.active = true := by
  cases h with
  | panicked => rfl
  | ticked _ opens _ _ settles =>
    cases settles
    exact opens.active_eq

theorem Settles.inners_child (h : f.Settles s dt raw answer w g) {j : NodeId} (hj : f.id = j)
    (hne : j ≠ k) (hkid : j ∈ kids) (inverts : f.InvertsAt (slot j))
    (honest : ∀ v before after, .hook v (.modified (slot j) dt before after) ∈ w →
      after = before.invert) :
    inners slot k kids (w ++ [.hook g.view (.returned answer)]) =
      [.child (kids.idxOf j) (inverted answer)] := by
  subst hj
  obtain ⟨ds, es, hds, hlength, hplain⟩ := inverts
  have hmodified {raw result : Status} {hs : List Hook}
      (h : Modified dt 0 f.decorators raw hs result)
      (hhs : ∀ h ∈ hs, .hook f.view h ∈ w) :
      inners slot k kids (hs.map (.hook f.view) : List (Entry H.Note)) =
        [.child (kids.idxOf f.id) (.ok result.invert)] := by
    rw [hds] at h
    exact h.inners_eq hplain (by simp [hlength]) hkid fun before after hmem =>
      honest _ before after (hhs _ hmem)
  cases h with
  | stopped => simp [inners_cons, Entry.inner?, hne, hkid]
  | kept modified =>
    rw [inners_append, hmodified modified fun h hh => List.mem_map_of_mem hh]
    simp [inners_cons, Entry.inner?, hne, aged]
  | concluded modified =>
    rw [inners_append, inners_append,
      hmodified modified fun h hh => List.mem_append_left _ (List.mem_map_of_mem hh), inners_cons,
      inners_append, inners_closing, inners_slots _ fun _ => rfl]
    simp [inners_cons, Entry.inner?, hne, aged, ended]

theorem Visit.inners_child (h : f.Visit s dt answer w g) (hne : f.id ≠ k) (hkid : f.id ∈ kids)
    (inverts : f.InvertsAt (slot f.id))
    (honest : ∀ v before after, .hook v (.modified (slot f.id) dt before after) ∈ w →
      after = before.invert)
    (passed : ∀ v, .report (.guardedOut v) ∈ w → v.id ∉ kids) :
    inners slot k kids w = [.child (kids.idxOf f.id) (inverted answer)] := by
  have hguards {gs : List (Entry H.Note)}
      (h : ∀ e ∈ gs, ∃ i passed, e = .hook f.view (.guarded i passed)) :
      inners slot k kids gs = [] := inners_eq_nil fun e he => by
    obtain ⟨i, passed, rfl⟩ := h e he
    rfl
  have hsilent {w : List (Entry H.Note)} (hw : ∀ e ∈ w, e.shows = false)
      (hbeats : beats k kids w = []) : inners slot k kids w = [] := by
    rw [inners_eq_beats fun e he => hw e (List.mem_of_mem_filter he), hbeats]
    rfl
  cases h with
  | refused => exact absurd hkid (passed f.view (by simp))
  | panicked drawn guards =>
    have hstart : inners slot k kids (f.start s drawn) = [] :=
      hsilent ((f.phase_start s drawn).shows (by simp)) (beats_start s drawn hne)
    simp [inners_cons, hguards guards, hstart, Entry.inner?, view, begun, hne, hkid]
  | @ticked gs op rs w f' _ n log raw _ b guards opens resumes answers settles =>
    have hid : f'.id = f.id := opens.id_eq
    have hopens : inners slot k kids op = [] :=
      hsilent (opens.phase.shows (by simp)) (beats_opens opens hne)
    have hserved : inners slot k kids ((Attachment.due dt 0 f'.services).map
        fun i => (.hook f'.view (.serviced i dt) : Entry H.Note)) = [] :=
      inners_eq_nil (by simp [Entry.inner?])
    have hresumed : inners slot k kids rs = [] := inners_eq_nil fun e he => by
      obtain ⟨cursor, rfl⟩ := resumes e he
      rfl
    have hsettles := settles.inners_child hid hne hkid
      (inverts.of_bare ((f'.bare_served dt b).trans opens.bare_eq))
      fun v before after hmem => honest v before after (by simp [hmem])
    simp [inners_cons, hguards guards, hopens, hserved, hresumed, hsettles, Entry.inner?, hid, hne]

end Child
section Ticked
variable {f' : Frame H} {st st₁ st₂ st₃ st' : Stage H} {as : List (Attachment H)}
  {tr tr₀ tr₁ tr₂ tr₃ : List (Entry H.Note)}

theorem shows_before {n : Nat} (guarded : guards s f.view 0 f.decorators st = ⟨true, st₁, tr₁⟩)
    (activated : f.activate s n st₁ = ⟨(.ok (), f'), st₂, tr₂⟩)
    (served : serve s f'.view dt 0 f'.services st₂ = ⟨as, st₃, tr₃⟩)
    (resumes : ∀ e ∈ calls tr₀, ∃ cursor, e = .hook f'.view (.resumed cursor)) :
    ∀ e ∈ calls (.hook f.view (.executed dt) :: (tr₁ ++ (tr₂ ++ (tr₃ ++
      (.hook f'.view (.ticked dt) :: tr₀))))), e.shows = false := by
  obtain ⟨-, hop⟩ | ⟨_, _, _, h, -⟩ := activate_spec activated
  swap
  · cases h
  have hguards := (phase_guards (calls_guards guarded)).shows (.inl rfl)
  have hopens := hop.phase.shows (.inr (.inl rfl))
  have hserved : ∀ e ∈ calls tr₃, e.shows = false := by
    have htr₃ := (serve_spec s f'.view dt 0 f'.services st₂).2
    rw [served] at htr₃
    simp [htr₃, Entry.shows, Hook.shows]
  have hresumed := (phase_resumed resumes).shows (by simp)
  simp only [calls_hook, calls_append, List.forall_mem_cons, List.forall_mem_append]
  exact ⟨rfl, hguards, hopens, hserved, rfl, hresumed⟩

theorem modify_inverter (v : View) (raw : Status) (st : Stage H) :
    modify s v dt 0 [.inverter] raw st =
      ⟨raw.invert, st, [.hook v (.modified 0 dt raw raw.invert)]⟩ := rfl

theorem Resolves.inverts {cs : List (Node H)} {raw answer : Answer} {m : Node H}
    (h : f.Resolves s dt cs st raw ⟨(answer, m), st', tr⟩) (own : f.decorators = [.inverter])
    (hout : f.id ∉ kids) : answer = inverted raw ∧ inners slot k kids tr = [] := by
  have hmodified {raw result : Status} {st' : Stage H} {tr : List (Entry H.Note)}
      (h : modify s f.view dt 0 f.decorators raw st = ⟨result, st', tr⟩) :
      result = raw.invert ∧ inners slot k kids tr = [] := by
    rw [own, modify_inverter] at h
    cases h
    exact ⟨rfl, inners_eq_nil (by simp [Entry.inner?, hout])⟩
  cases h with
  | stopped => exact ⟨rfl, rfl⟩
  | kept modified =>
    obtain ⟨hresult, htr⟩ := hmodified modified
    exact ⟨congrArg Except.ok hresult, htr⟩
  | concluded modified terminal concluded =>
    obtain ⟨hresult, htr⟩ := hmodified modified
    refine ⟨congrArg Except.ok hresult, ?_⟩
    obtain ⟨-, htrace⟩ := (f.aged dt).conclude_spec s _ cs _
    rw [concluded] at htrace
    have hswept : inners slot k kids (cs.flatMap (Node.sweep s)) = [] := inners_eq_nil fun e he => by
      obtain ⟨c, -, he⟩ := List.mem_flatMap.mp he
      exact List.filterMap_eq_nil_iff.mp (Node.inners_sweep s c) e he
    rw [inners_append, htr, List.nil_append, ← inners_calls, htrace, inners_cons, inners_append,
      inners_append, hswept, inners_closing, inners_slots _ fun _ => rfl]
    rfl

end Ticked
end Frame

structure Node.Inverted (slot : NodeId → Nat) (n : Node H) : Prop where
  made : n.frame.behavior.make = .selector
  own : n.frame.decorators = [.inverter]
  kids : ∀ c ∈ n.children, c.frame.InvertsAt (slot c.id)

namespace Node
variable {slot : NodeId → Nat} {s : Setting} {dt : Float32} {f : Frame H} {cs : List (Node H)}

theorem Inverted.of_plans {n m : Node H} (h : n.Inverted slot) (shape : m.shape = n.shape)
    (plans : m.plans = n.plans) : m.Inverted slot := by
  obtain ⟨made, own, kids⟩ := h
  obtain ⟨hbare, hmake⟩ := Frame.plan_eq_iff.mp (plan_eq_of_plans plans)
  refine ⟨hmake.trans made, (Frame.decorators_eq_of_bare hbare).trans own, fun c hc => ?_⟩
  obtain ⟨f, cs⟩ := n
  obtain ⟨g, ds⟩ := m
  rw [Node.shape, Node.shape, mapFrames_mk, mapFrames_mk] at shape
  have hmem : c.mapFrames Frame.bare ∈ cs.map (mapFrames Frame.bare) := by
    rw [← (Node.mk.inj shape).2]
    exact List.mem_map_of_mem hc
  obtain ⟨d, hd, hdc⟩ := List.mem_map.mp hmem
  have hid : c.id = d.id := id_eq_of_shape hdc.symm
  have hbare : c.frame.bare = d.frame.bare := by
    obtain ⟨c, _⟩ := c
    obtain ⟨d, _⟩ := d
    rw [mapFrames_mk, mapFrames_mk] at hdc
    exact (Node.mk.inj hdc).1.symm
  rw [hid]
  exact (kids d hd).of_bare hbare

theorem inners_execute_child (hn : (mk f cs).ids.Nodup) {i : Nat} {c : Node H}
    (hc : cs[i]? = some c) (sound : c.Sound) (inverts : c.frame.InvertsAt (slot c.id))
    (st : Stage H)
    (passed : ∀ e ∈ (c.execute s dt st).trace, ∀ v, e = .report (.guardedOut v) →
      v.id ∉ cs.map (·.id)) :
    inners slot f.id (cs.map (·.id)) (c.execute s dt st).trace =
      [.child i (inverted (c.execute s dt st).value.1)] := by
  obtain ⟨-, hcs⟩ := nodup_mk hn
  have hmem := List.mem_of_getElem? hc
  have hnc : c.ids.Nodup := (List.nodup_flatMap.mp hcs).1 c hmem
  obtain ⟨hne, hidx, hseen⟩ := seen_child hn hc
  have htells : Exec.Tells s.scope.elapsed _ _ (c.execute s dt) := tells_execute (wears_attire hnc)
  have hrecalls := (htells st).2 c.id
  rw [show Frame.attire c.frames c.id = c.frame.decorators from
    wears_attire hnc c.frame c.frame_mem_frames] at hrecalls
  have hvisit := (visit_execute s dt sound hnc st).inners_child hne
    (List.mem_map_of_mem (f := Node.id) hmem) inverts
    (fun v before after hmem => hrecalls.invert hmem inverts.getElem?)
    fun v hv => passed _ (List.mem_of_mem_filter hv) v rfl
  change inners slot f.id (cs.map (·.id)) (own c.id (c.execute s dt st).trace) =
    [.child ((cs.map (·.id)).idxOf c.id) _] at hvisit
  rw [hidx] at hvisit
  exact (only_inner.filterMap_own (within_execute s dt sound st) hseen).symm.trans hvisit

end Node

theorem Visits.inners_eq {P : Law H} {slot : NodeId → Nat} {s : Setting} {dt : Float32}
    {f : Frame H} {log : Log} {cs cs' : List (Node H)} {st st' : Stage H} {tr : List (Entry H.Note)}
    (h : Visits (P.During s dt) log cs st cs' st' tr) (hn : (Node.mk f cs).ids.Nodup)
    (inverts : ∀ c ∈ cs, c.frame.InvertsAt (slot c.id))
    (passed : ∀ v, .report (.guardedOut v) ∈ tr → v.id ∉ cs.map (·.id)) :
    inners slot f.id (cs.map (·.id)) tr =
      (beats f.id (cs.map (·.id)) tr).filterMap Beat.inverted? := by
  have htold : inners slot f.id (cs.map (·.id)) tr =
      log.map fun x => .child x.1 (inverted x.2) :=
    h.filterMap_eq (r := Entry.inner? slot f.id (cs.map (·.id)))
      (q := fun e => ∀ v, e = .report (.guardedOut v) → v.id ∉ cs.map (·.id))
      (g := fun i a => Beat.child i (inverted a)) (fun e he v hv => passed v (hv ▸ he))
      fun i _ c st hc sound hpassed =>
        Node.inners_execute_child hn hc sound (inverts c (List.mem_of_getElem? hc)) st hpassed
  rw [htold, h.beats_eq hn, List.filterMap_map]
  exact (congrFun List.filterMap_eq_map' log).symm

namespace Node
variable {slot : NodeId → Nat} {s : Setting} {dt : Float32} {f : Frame H} {cs : List (Node H)}

theorem inners_resolves {raw answer : Answer} {m : Node H} {st st' : Stage H}
    {tr : List (Entry H.Note)} (h : f.Resolves s dt cs st raw ⟨(answer, m), st', tr⟩)
    (own : f.decorators = [.inverter]) (hf : f.active = true) {k : NodeId} (hk : f.id = k)
    (hout : k ∉ cs.flatMap ids) {kids : List NodeId} (hkids : k ∉ kids) :
    let w := .hook f.view (.answered raw) :: (tr ++ [.hook m.view (.returned answer)])
    inners slot k kids w = (beats k kids w).filterMap Beat.inverted? := by
  subst hk
  obtain ⟨hanswer, hresolved⟩ := h.inverts own hkids
  have hended : beats f.id kids tr = if m.frame.active then [] else [.ended] :=
    beats_resolves h hf hout
  have hm : m.view.id = f.id := by
    obtain ⟨g, cs', _, _, _, rfl, -, hsettles, -⟩ := resolves_spec h
    exact hsettles.id_eq
  intro w
  rw [inners_cons, inners_append, hresolved, inners_cons, Entry.inner?_returned hm, beats_cons,
    beats_append, hended, hanswer]
  by_cases hactive : m.frame.active = true <;>
    simp [hactive, beats_cons, Entry.inner?, Entry.beat?, Beat.inverted?, hm, hkids]

/-- An execution of an inverted selector shows the inner results of its children, and its own answer,
where it shows answers otherwise. -/
theorem inners_execute (s : Setting) (dt : Float32) {n : Node H} (sound : n.Sound)
    (distinct : n.ids.Nodup) (inverted : n.Inverted slot) (st : Stage H)
    (passed : ∀ v, .report (.guardedOut v) ∈ (n.execute s dt st).trace → v.id ∉ n.kids) :
    inners slot n.id n.kids (n.execute s dt st).trace =
      (beats n.id n.kids (n.execute s dt st).trace).filterMap Beat.inverted? := by
  let P : Law H := fun n _ o => n.ids.Nodup → n.Inverted slot →
    (∀ v, .report (.guardedOut v) ∈ o.trace → v.id ∉ n.kids) →
    inners slot n.id n.kids o.trace = (beats n.id n.kids o.trace).filterMap Beat.inverted?
  refine execute_rule (P := P) (fun f cs st o _ _ h hn inverted passed => ?_) sound st distinct
    inverted passed
  obtain ⟨hmade, hown, hinverts⟩ := inverted
  change f.decorators = [.inverter] at hown
  obtain ⟨hout, -⟩ := nodup_mk hn
  have hkids : f.id ∉ cs.map (·.id) := fun hk => hout ((sublist_kids cs).subset hk)
  cases h with
  | @refused n st₁ _ tr _ guarded =>
    have hpassed : (Frame.guards s f.view 0 f.decorators st).value = true := by
      rw [hown]
      rfl
    cases (congrArg Outcome.value guarded).symm.trans hpassed
  | @panicked p f' st₁ _ _ _ _ activated =>
    have hok := f.activate_ok (by rw [show f.behavior.make = _ from hmade]; trivial) s cs.length st₁
    rw [activated] at hok
    cases hok
  | @ticked f' as raw answer b cs' n st₁ st₂ st₃ st₄ st' tr₁ tr₂ tr₃ tr₄ tr₅ guarded activated
      served fits ticked resolved =>
    obtain ⟨-, hop⟩ | ⟨_, _, _, h, -⟩ := Frame.activate_spec activated
    swap
    · cases h
    have hid : f'.id = f.id := hop.id_eq
    cases ticked with
    | @mk _ _ _ log st₀ _ trc tr₀ tables resumes visits answers =>
      have hids : cs'.flatMap ids = cs.flatMap ids := visits.flatMap_ids_eq (local_execute P s dt)
      have hbefore : inners slot f.id (cs.map (·.id)) _ =
          (beats f.id (cs.map (·.id)) _).filterMap Beat.inverted? :=
        inners_eq_beats (Frame.shows_before guarded activated served resumes)
      have hchildren := visits.inners_eq hn hinverts fun v hv => passed v (by simp [hv])
      have hafter : inners slot f.id (cs.map (·.id)) _ =
          (beats f.id (cs.map (·.id)) _).filterMap Beat.inverted? :=
        inners_resolves resolved ((Frame.decorators_eq_of_bare hop.bare_eq).trans hown)
          hop.active_eq hid (by rwa [hids]) hkids
      have htrace (w : List (Entry H.Note)) : Entry.hook f.view (.executed dt) :: (tr₁ ++ (tr₂ ++
          (tr₃ ++ (.hook f'.view (.ticked dt) :: (tr₀ ++ trc ++ w))))) =
          Entry.hook f.view (.executed dt) :: (tr₁ ++ (tr₂ ++ (tr₃ ++
            (.hook f'.view (.ticked dt) :: tr₀)))) ++ (trc ++ w) := by simp
      change inners slot f.id (cs.map (·.id)) _ =
        (beats f.id (cs.map (·.id)) _).filterMap Beat.inverted?
      rw [htrace, inners_append, inners_append, beats_append, beats_append, List.filterMap_append,
        List.filterMap_append, hbefore, hchildren]
      exact congrArg (fun w => _ ++ (_ ++ w)) hafter

theorem inners_act (c : Handling H) {n : Node H} (sound : n.Sound) (distinct : n.ids.Nodup)
    (inverted : n.Inverted slot)
    (passed : ∀ v, .report (.guardedOut v) ∈ (c.act n).trace → v.id ∉ n.kids) :
    inners slot n.id n.kids (c.act n).trace =
      (beats n.id n.kids (c.act n).trace).filterMap Beat.inverted? := by
  cases c with
  | execute s dt st => exact inners_execute s dt sound distinct inverted st passed
  | abort s st =>
    obtain ⟨f, cs⟩ := n
    change inners slot f.id (cs.map (·.id)) ((mk f cs).abort s st).trace =
      (beats f.id (cs.map (·.id)) ((mk f cs).abort s st).trace).filterMap Beat.inverted?
    rw [← inners_calls, ← beats_calls, calls_abort, inners_sweep, beats_sweep distinct]
    split <;> rfl

theorem inners_handle (hs : List (Handling H)) {n : Node H} (sound : n.Sound)
    (distinct : n.ids.Nodup) (inverted : n.Inverted slot)
    (passed : ∀ v, .report (.guardedOut v) ∈ (n.handle hs).2 → v.id ∉ n.kids) :
    inners slot n.id n.kids (n.handle hs).2 =
      (beats n.id n.kids (n.handle hs).2).filterMap Beat.inverted? := by
  induction hs generalizing n with
  | nil => rfl
  | cons c hs ih =>
    have hshape := shape_act c sound
    have hrest := ih (n := (c.act n).value.2) (sound_act c sound)
      (ids_eq_of_shape hshape ▸ distinct) (inverted.of_plans hshape (plans_act c sound))
      (by
        rw [kids_eq_of_shape hshape]
        exact fun v hv => passed v (List.mem_append_right _ hv))
    rw [id_eq_of_shape hshape, kids_eq_of_shape hshape] at hrest
    have hfirst := inners_act c sound distinct inverted fun v hv =>
      passed v (List.mem_append_left _ hv)
    rw [handle, inners_append, beats_append, List.filterMap_append, hfirst, hrest]

theorem mem_ids_of_mem_kids {n : Node H} {k : NodeId} (h : k ∈ n.kids) : k ∈ n.ids := by
  obtain ⟨f, cs⟩ := n
  rw [ids_mk]
  exact List.mem_cons_of_mem _ ((sublist_kids cs).subset h)

/-- A run in which no child is refused shows of an inverted selector what the calls on it show. -/
theorem inners_eq_of_same {hs : List (Handling H)} {n : Node H} (sound : n.Sound)
    (distinct : n.ids.Nodup) (inverted : n.Inverted slot) {tr : List (Entry H.Note)}
    (same : ∀ p, Only n.ids p → tr.filter p = (n.handle hs).2.filter p)
    (passed : ∀ v, .report (.guardedOut v) ∈ tr → v.id ∉ n.kids) :
    inners slot n.id n.kids tr = (beats n.id n.kids tr).filterMap Beat.inverted? := by
  -- a refusal of a child by one of these calls would be in the run
  have hpassed : ∀ v, .report (.guardedOut v) ∈ (n.handle hs).2 → v.id ∉ n.kids := by
    intro v hv hkid
    have hown : .report (.guardedOut v) ∈ own v.id (n.handle hs).2 :=
      List.mem_filter.mpr ⟨hv, by simp⟩
    rw [own, ← same _ (only_own (n.mem_ids_of_mem_kids hkid))] at hown
    exact passed v (List.mem_of_mem_filter hown) hkid
  calc inners slot n.id n.kids tr
      = inners slot n.id n.kids (n.handle hs).2 := (only_kids only_inner).filterMap_eq same
    _ = (beats n.id n.kids (n.handle hs).2).filterMap Beat.inverted? :=
        inners_handle hs sound distinct inverted hpassed
    _ = (beats n.id n.kids tr).filterMap Beat.inverted? := by rw [beats_eq_of_same same]

theorem isActive_execute_iff (s : Setting) (dt : Float32) {n : Node H} (sound : n.Sound)
    (distinct : n.ids.Nodup) (st : Stage H) :
    (n.execute s dt st).value.2.isActive = true ↔ Going (n.execute s dt st).value.1 := by
  cases ha : (n.execute s dt st).value.1 with
  | ok r => rw [isActive_execute s dt sound st r ha, going_ok, Status.isTerminal_eq_false]
  | error stop =>
    have hvisit := visit_execute s dt sound distinct st
    rw [ha] at hvisit
    exact iff_of_true hvisit.active_of_error (going_error stop)

end Node

theorem story_inverted (rs : List Round) :
    (story rs).filterMap Beat.inverted? = story (rs.map Round.invert) := by
  have hbeats (r : Round) : r.beats.filterMap Beat.inverted? = r.invert.beats := by
    simp [Round.beats, Round.invert, Beat.inverted?, Function.comp_def]
  have hrounds : (rs.flatMap Round.beats).filterMap Beat.inverted? =
      (rs.map Round.invert).flatMap Round.beats := by
    induction rs with
    | nil => rfl
    | cons r rs ih => simp [hbeats, ih]
  rw [story, List.filterMap_cons, hrounds]
  rfl

theorem fullStory_inverted (rs : List Round) :
    (fullStory rs).filterMap Beat.inverted? = story (rs.map Round.invert) := by
  rw [fullStory, List.filterMap_append, story_inverted]
  exact List.append_nil _

theorem flatMap_fullStory_inverted (past : List (List Round)) :
    (past.flatMap fullStory).filterMap Beat.inverted? =
      (past.map (·.map Round.invert)).flatMap story := by
  rw [List.filterMap_flatMap, List.flatMap_map]
  exact List.flatMap_congr fun rs _ => fullStory_inverted rs

/-- In every run in which its children are let through, an inverted selector of inverted children
runs these in order over each of its activations, as a sequence does, and between calls no child is
active but the one that is to be resumed. -/
theorem sequences_of_play (ms : List (Move H)) {t : Rooted H} (idle : t.root.Idle)
    (distinct : t.root.ids.Nodup) (st : Stage H) {path : List Nat} {n : Node H}
    (hn : t.root.at? path = some n) {slot : NodeId → Nat} (inverted : n.Inverted slot)
    (passed : ∀ v, .report (.guardedOut v) ∈ (play ms t st).trace → v.id ∉ n.kids) :
    ∃ (m : Node H) (past : List (List Round)) (now : List Round),
      (play ms t st).value.2.root.at? path = some m ∧
      inners slot n.id n.kids (play ms t st).trace =
        (past ++ if m.isActive then [now] else []).flatMap story ∧
      (∀ rs ∈ now :: past, Sequences n.children.length rs) ∧
      (m.isActive = true → m.frame.behavior = .selector (successes now).length ∧
        ∀ r ∈ now, Going r.raw) ∧
      (∀ i c, m.children[i]? = some c →
        c.Idle ∨ m.isActive = true ∧ i = (successes now).length) ∧
      ∀ (s : Setting) (dt : Float32) (st' : Stage H),
        let o := m.execute s dt st'
        o.value.2.isActive = true ↔ Going o.value.1 := by
  have hidle : n.Idle := Node.idle_at? idle hn
  have hsound : n.Sound := Node.sound_of_idle hidle
  have hclosed : n.Closed := Node.closed_of_idle hidle
  have hdistinct : n.ids.Nodup := distinct.sublist (Node.sublist_at? hn)
  have hplain : n.frame.Plain := by
    intro d hd
    rw [inverted.own] at hd
    cases List.mem_singleton.mp hd
  obtain ⟨hs, past, now, hm, remains, hsame, hstory, hpast, hnow⟩ :=
    chronicled_play ms idle distinct st hn (Frame.course_selector inverted.made hplain)
  have hinners := Node.inners_eq_of_same hsound hdistinct inverted hsame passed
  obtain ⟨-, hstands⟩ := Node.stands_handle hs hsound hclosed (Node.stands_of_idle hidle)
  generalize (n.handle hs).1 = m at hm hstory hnow hstands remains
  have hsequences : ∀ rs ∈ past.map (·.map Round.invert), Sequences n.children.length rs := by
    intro rs' hrs'
    obtain ⟨rs, hrs, rfl⟩ := List.mem_map.mp hrs'
    obtain ⟨c, hselected⟩ := hpast rs hrs
    exact hselected.selects.invert
  have hexecute (s : Setting) (dt : Float32) (st' : Stage H) := m.isActive_execute_iff s dt
    remains.sound (Node.ids_eq_of_shape remains.shape ▸ hdistinct) st'
  have hchild {i : Nat} {c : Node H} (hi : m.children[i]? = some c) (hc : c.isActive = false) :
      c.Idle := (remains.closed.below c (List.mem_of_getElem? hi)).idle hc
  by_cases hactive : m.isActive = true
  · obtain ⟨c, hb, hselected, hgoing⟩ := hnow hactive
    have hcursor : (successes (now.map Round.invert)).length = c := by
      rw [successes_invert, hselected.failures_eq, List.length_range]
    refine ⟨m, _, now.map Round.invert, hm, ?_,
      List.forall_mem_cons.mpr ⟨hselected.selects.invert, hsequences⟩,
      fun _ => ⟨by rw [hcursor, hb], ?_⟩, fun i d hi => ?_, hexecute⟩
    · rw [hinners, hstory, if_pos hactive, if_pos hactive, List.filterMap_append,
        flatMap_fullStory_inverted, story_inverted]
      simp
    · exact List.forall_mem_map.mpr fun r hr => going_inverted.mpr (hgoing r hr)
    · by_cases hd : d.isActive = true
      · exact .inr ⟨hactive, hcursor ▸ (hstands c hb i d hi hd).2⟩
      · exact .inl (hchild hi (by simpa using hd))
  · have hnone : Sequences n.children.length [] := Selects.invert Selected.start.selects
    refine ⟨m, _, [], hm, ?_, List.forall_mem_cons.mpr ⟨hnone, hsequences⟩, by simp [hactive],
      fun i d hi => .inl ?_, hexecute⟩
    · rw [hinners, hstory, if_neg hactive, if_neg hactive, List.append_nil, List.append_nil,
        flatMap_fullStory_inverted]
    · refine hchild hi ?_
      by_contra hd
      exact hactive (remains.closed.isActive_of_child hi (by simpa using hd))

def Rooted.sequenced : Rooted Host.echo :=
  { echo with
    root := .mk { Frame.idle 3 "" (.selector 0) with decorators := [.inverter] }
      [.mk { Frame.idle 1 "" (.action (Status.success : Host.echo.Action)) with
          decorators := [.inverter] } [],
        .mk { Frame.idle 2 "" (.action (Status.running : Host.echo.Action)) with
          decorators := [.timeout limit, .inverter] } []] }

/-- The second leaf is resumed in the second tick, in which its time is up. -/
theorem sequences_of_play_sequenced :
    let o := play [.execute 1, .execute 1] Rooted.sequenced Rooted.still
    let n := Rooted.sequenced.root
    let slot (k : NodeId) : Nat := k - 1
    let rs : List Round := [⟨[(0, .ok .success), (1, .ok .running)], .ok .running⟩,
      ⟨[(1, .ok .failure)], .ok .failure⟩]
    (n.Idle ∧ n.ids.Nodup ∧ n.Inverted slot ∧
      ∀ v, .report (.guardedOut v) ∈ o.trace → v.id ∉ n.kids) ∧
      inners slot 3 [1, 2] o.trace = story rs ∧
      ∃ past : List (List Round), story rs = past.flatMap story ∧ (∀ rs ∈ past, Sequences 2 rs) ∧
        ∀ c ∈ o.value.2.root.children, c.Idle := by
  intro o n slot rs
  have hidle : n.Idle := by decide
  have hdistinct : n.ids.Nodup := by decide
  have hinverted : n.Inverted slot := by
    refine ⟨rfl, rfl, List.forall_mem_cons.mpr ⟨?_, List.forall_mem_singleton.mpr ?_⟩⟩
    · exact ⟨[], [], rfl, rfl, by simp⟩
    · exact ⟨[.timeout Rooted.limit], [], rfl, rfl, by simp⟩
  have hpassed : ∀ v, .report (.guardedOut v) ∈ o.trace → v.id ∉ n.kids := by
    have hnone : ∀ e ∈ o.trace, (match e with
        | .report _ => false
        | .hook .. | .notice .. | .note _ => true) = true := by decide +kernel
    intro v hv
    cases hnone _ hv
  have hidle' : o.value.2.root.isActive = false := by decide +kernel
  have hinners : inners slot 3 [1, 2] o.trace = story rs := by decide +kernel
  have hroot : n.at? [] = some n := rfl
  have h := sequences_of_play [.execute 1, .execute 1] hidle hdistinct Rooted.still hroot hinverted
    hpassed
  rw [show play [.execute 1, .execute 1] Rooted.sequenced Rooted.still = o from rfl] at h
  clear_value o
  obtain ⟨m, past, now, hm, hstory, hsequences, -, hchildren, -⟩ := h
  obtain rfl : o.value.2.root = m := Option.some.inj hm
  rw [if_neg (by simp [hidle']), List.append_nil] at hstory
  refine ⟨⟨hidle, hdistinct, hinverted, hpassed⟩, hinners, past, hinners.symm.trans hstory,
    fun rs hrs => hsequences rs (List.mem_cons_of_mem _ hrs), fun c hc => ?_⟩
  obtain ⟨i, hi⟩ := List.getElem?_of_mem hc
  obtain hc | ⟨hactive, -⟩ := hchildren i c hi
  · exact hc
  · cases hidle'.symm.trans hactive

end TickTree
