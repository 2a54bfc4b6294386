import TickTree.Proofs.Reordering
import TickTree.Proofs.Shuffling
/-! The activations of random selectors. Each begins with a new order, drawn then and only then, and
up to its end the node is a selector over its children in that order. -/
namespace TickTree
variable {H : Host}

namespace Frame
variable {s : Setting} {f : Frame H} {st : Stage H}

theorem guards_rng (s : Setting) (v : View) (slot : Nat) (ds : List (Decorator H)) (st : Stage H)
    (r : Rng) :
    let o := guards s v slot ds st
    guards s v slot ds { st with rng := r } = ⟨o.value, { o.state with rng := r }, o.trace⟩ := by
  induction ds generalizing slot st with
  | nil => rfl
  | cons d ds ih =>
    have hd : d.allows s v { st with rng := r } =
        ⟨(d.allows s v st).value, { (d.allows s v st).state with rng := r },
          (d.allows s v st).trace⟩ := by
      cases d <;> rfl
    simp only [guards, Traced.bind_apply, Exec.hook_apply, hd]
    by_cases hpassed : (d.allows s v st).value = true
    · simp only [hpassed, if_true]
      simp only [ih]
    · simp [hpassed]

theorem rng_guards (s : Setting) (v : View) (slot : Nat) (ds : List (Decorator H)) (st : Stage H) :
    (guards s v slot ds st).state.rng = st.rng := by
  have h := guards_rng s v slot ds st st.rng
  exact congrArg (fun o => o.state.rng) h

/-- The draws that spell an order of `n` items. -/
def spelling (n : Nat) (ds : List Nat) : List Draw :=
  ds.zipIdx.map fun x => .upTo (n - 1 - x.2) x.1

def shuffled (p : List Nat) (f : Frame H) : Frame H :=
  { f.begun (.randomSelector 0 p) with services := f.services.map Attachment.reset }

variable {c : Nat} {o : List Nat}

theorem activate_shuffled (hf : f.active = false) (hb : f.behavior = .randomSelector c o)
    (s : Setting) (n : Nat) (st : Stage H) :
    let ds := st.rng.draws (n - 1)
    let g := f.shuffled (arrange n ds.1)
    let x := attach s g.view 0 g.services { st with rng := ds.2 }
    f.activate s n st = ⟨(.ok (), g), x.state, f.start s (spelling n ds.1) ++ x.trace⟩ := by
  simp [activate, hf, hb, Behavior.start, Behavior.shuffle, shuffled, begun, view, start, spelling]

theorem activate_ordered (hf : f.active = false) (hb : f.behavior = .randomSelector c o)
    (s : Setting) (n : Nat) (st : Stage H) (p : List Nat) :
    let g := f.shuffled p
    let x := attach s g.view 0 g.services st
    f.ordered.activate s n st = ⟨(.ok (), g.ordered), x.state, f.start s [] ++ x.trace⟩ := by
  simp [activate, hf, hb, Behavior.start, shuffled, begun, view, start, ordered, Behavior.ordered]

def opening (s : Setting) (dt : Float32) (f : Frame H) (drawn : List Draw)
    (before : List (Entry H.Note))
    (y : Outcome (Stage H) (Entry H.Note) (Answer × Node H)) : List (Entry H.Note) :=
  .hook f.view (.executed dt) :: (before ++ (f.start s drawn ++
    (y.trace ++ [.hook y.value.2.view (.returned y.value.1)])))

variable {st₁ : Stage H} {tr₁ : List (Entry H.Note)}

theorem execute_shuffled (hf : f.active = false) (hb : f.behavior = .randomSelector c o)
    (guarded : guards s f.view 0 f.decorators st = ⟨true, st₁, tr₁⟩) (dt : Float32)
    (bs : List (Branch H)) :
    let ds := st.rng.draws (bs.length - 1)
    let g := f.shuffled (arrange bs.length ds.1)
    let x := (do attach s g.view 0 g.services; g.advance s dt bs) { st₁ with rng := ds.2 }
    f.execute s dt bs st =
      ⟨x.value, x.state, f.opening s dt (spelling bs.length ds.1) tr₁ x⟩ := by
  intro ds g x
  have hrng : st₁.rng = st.rng := by
    have h := rng_guards s f.view 0 f.decorators st
    rwa [guarded] at h
  have hactivated := activate_shuffled hf hb s bs.length st₁
  rw [hrng] at hactivated
  rw [execute_eq guarded hactivated]
  simp [x, g, ds, opening, Traced.bind_apply]

theorem execute_begins_ordered (hf : f.active = false) (hb : f.behavior = .randomSelector c o)
    (guarded : guards s f.view 0 f.decorators st = ⟨true, st₁, tr₁⟩) (dt : Float32) (r : Rng)
    (p : List Nat) (bs : List (Branch H)) :
    let g := f.shuffled p
    let x := (do attach s g.view 0 g.services; g.ordered.advance s dt bs) { st₁ with rng := r }
    f.ordered.execute s dt bs { st with rng := r } =
      ⟨x.value, x.state, f.opening s dt [] tr₁ x⟩ := by
  intro g x
  have hguarded : guards s f.ordered.view 0 f.ordered.decorators { st with rng := r } =
      ⟨true, { st₁ with rng := r }, tr₁⟩ := by
    have h := guards_rng s f.view 0 f.decorators st r
    rwa [guarded] at h
  have hactivated := activate_ordered hf hb s bs.length { st₁ with rng := r } p
  rw [execute_eq hguarded hactivated]
  simp [x, g, opening, Traced.bind_apply]
  rfl

end Frame

/-- The call with which an activation of a random selector begins, and the same call on the selector
over its children in this order. Apart from what is drawn these give the same. -/
structure Outset (p : List Nat) (drawn : List (Entry H.Note))
    (o o' : Outcome (Stage H) (Entry H.Note) (Answer × Node H)) : Prop where
  answer : o'.value.1 = o.value.1
  node : o'.value.2 = o.value.2.along p
  state : o'.state = o.state
  trace : ∃ before after, o.trace = before ++ (drawn ++ after) ∧ o'.trace = before ++ after
  order : o.value.2.isActive = true → ∃ c, o.value.2.frame.behavior = .randomSelector c p

namespace Node

def Begins (s : Setting) (st : Stage H) (n : Node H) : Prop :=
  n.isActive = false ∧ (Frame.guards s n.frame.view 0 n.frame.decorators st).value = true

theorem Begins.entered {n : Node H} {s : Setting} {st : Stage H} (h : n.Begins s st)
    (dt : Float32) : .notice s.listener (.entered ⟨n.id, n.name, true, 0⟩ s.scope.elapsed) ∈
      (n.execute s dt st).trace := by
  obtain ⟨f, cs⟩ := n
  obtain ⟨hf, hpassed⟩ := h
  have hentered (k : Nat) (st : Stage H) : .notice s.listener
      (.entered ⟨f.id, f.name, true, 0⟩ s.scope.elapsed) ∈ (f.activate s k st).trace := by
    rw [Frame.activate, if_neg (by simpa [isActive] using hf)]
    simp [Frame.view]
  rcases hguarded : Frame.guards s f.view 0 f.decorators st with ⟨passed, st₁, tr₁⟩
  obtain rfl : passed = true := by rw [← hpassed]; exact (congrArg Outcome.value hguarded).symm
  have hmem := hentered (branches s dt cs).length st₁
  simp only [execute, Frame.execute, Frame.run, Traced.bind_apply, Exec.hook_apply, hguarded,
    if_true, List.mem_append]
  exact .inr (.inl (.inr (.inl hmem)))

/-- The first tick of an activation, where no child is active yet. -/
theorem advance_along {g : Frame H} {cs : List (Node H)} {p : List Nat}
    (hb : g.behavior = .randomSelector 0 p) (hp : p.Perm (List.range cs.length))
    (below : ∀ c ∈ cs, c.Sound) (inactive : ∀ c ∈ cs, c.isActive = false) (s : Setting)
    (dt : Float32) :
    g.ordered.advance s dt (branches s dt (pick p cs)) =
      (fun o => (o.1, o.2.along p)) <$> g.advance s dt (branches s dt cs) := by
  rw [pick_branches]
  refine Frame.advance_ordered hb (by rwa [length_branches]) fun v st => ?_
  rw [← pick_branches]
  refine Behavior.lone_tick (Branch.honest_branches fun d hd => below d (mem_of_mem_pick hd))
    (Nat.zero_le _) (fun i b hi hactive => ?_) v st
  have hnode : (pick p cs)[i]? = some b.node := by
    rw [← map_node_branches s dt (pick p cs), List.getElem?_map, hi]
    rfl
  rw [inactive _ (mem_of_mem_pick (List.mem_of_getElem? hnode))] at hactive
  cases hactive

theorem Begins.execute {f : Frame H} {cs : List (Node H)} {s : Setting} {st : Stage H} {c : Nat}
    {o : List Nat} (h : (mk f cs).Begins s st) (hb : f.behavior = .randomSelector c o)
    (below : ∀ c ∈ cs, c.Sound) (inactive : ∀ c ∈ cs, c.isActive = false) (dt : Float32) :
    let ds := st.rng.draws (cs.length - 1)
    let p := arrange cs.length ds.1
    let drawn := (Frame.spelling cs.length ds.1).map fun d => .hook ⟨f.id, f.name, true, 0⟩ (.drew d)
    Outset p drawn ((mk f cs).execute s dt st)
      (((mk f cs).along p).execute s dt { st with rng := ds.2 }) := by
  intro ds p drawn
  obtain ⟨hf, hpassed⟩ := h
  have hp : p.Perm (List.range cs.length) := perm_arrange _ _
  have hlength : (branches s dt cs).length = cs.length := length_branches s dt cs
  rcases hguarded : Frame.guards s f.view 0 f.decorators st with ⟨passed, st₁, tr₁⟩
  obtain rfl : passed = true := by rw [← hpassed]; exact (congrArg Outcome.value hguarded).symm
  -- both have the same frame and stage once their activations have begun
  let g : Frame H := f.shuffled p
  let X : Exec H (Answer × Node H) := do
    Frame.attach s g.view 0 g.services
    g.advance s dt (branches s dt cs)
  let X' : Exec H (Answer × Node H) := do
    Frame.attach s g.view 0 g.services
    g.ordered.advance s dt (branches s dt (pick p cs))
  let x := X { st₁ with rng := ds.2 }
  have hx : X' { st₁ with rng := ds.2 } = ⟨(x.value.1, x.value.2.along p), x.state, x.trace⟩ := by
    have hX : X' = (fun o => (o.1, o.2.along p)) <$> X := by
      rw [map_bind, ← advance_along rfl hp below inactive]
    rw [hX, Traced.map_apply]
  have hrun := Frame.execute_shuffled hf hb hguarded dt (branches s dt cs)
  rw [hlength] at hrun
  have ho : (mk f cs).execute s dt st =
      ⟨x.value, x.state, f.opening s dt (Frame.spelling cs.length ds.1) tr₁ x⟩ := hrun
  have ho' : ((mk f cs).along p).execute s dt { st with rng := ds.2 } =
      ⟨(x.value.1, x.value.2.along p), x.state, f.opening s dt [] tr₁ x⟩ := by
    have hrun : ((mk f cs).along p).execute s dt { st with rng := ds.2 } =
        ⟨(X' _).value, (X' _).state, f.opening s dt [] tr₁ (X' _)⟩ :=
      Frame.execute_begins_ordered hf hb hguarded dt ds.2 p (branches s dt (pick p cs))
    rw [hrun, hx]
    simp only [Frame.opening, view_along]
  have hanswers : x.value.2.isActive = true →
      ∃ log raw, g.behavior.Answers dt cs.length log raw x.value.2.frame.behavior := by
    have hfits : g.behavior.Fits (branches s dt cs).length := by
      rw [hlength]
      exact ⟨Nat.zero_le _, hp⟩
    have hvalue : x.value = (g.advance s dt (branches s dt cs)
        (Frame.attach s g.view 0 g.services { st₁ with rng := ds.2 }).state).value := rfl
    rw [hvalue, ← hlength]
    exact Frame.advance_answers hfits
  clear_value x
  rw [ho, ho']
  refine ⟨rfl, rfl, rfl, ⟨.hook f.view (.executed dt) :: (tr₁ ++ f.start s []), x.trace ++
    [.hook x.value.2.view (.returned x.value.1)], ?_, ?_⟩, fun hactive => ?_⟩
  · simp [Frame.opening, Frame.start, drawn]
  · simp [Frame.opening]
  · obtain ⟨log, raw, h⟩ := hanswers hactive
    change (Behavior.randomSelector 0 p).Answers dt cs.length log raw _ at h
    generalize x.value.2.frame.behavior = b at h
    cases h
    exact ⟨_, rfl⟩

theorem Tries.later {m : Node H} {p : List Nat} (tries : m.isActive = true → m.Tries p)
    (sound : m.Sound) (closed : m.Closed) {hs : List (Handling H)} (lasts : m.Lasts hs)
    (h : Handling H) :
    (∃ c, (m.handle hs).1.frame.behavior = .randomSelector c p) ∧
      ((m.along p).handle hs).1 = (m.handle hs).1.along p ∧
      Matching p (h.act (m.handle hs).1) (h.act ((m.along p).handle hs).1) := by
  have hactive : m.isActive = true := by
    cases hs with
    | nil => exact lasts
    | cons => exact lasts.1
  obtain ⟨tries, hsound, hsame⟩ := (tries hactive).handle lasts sound closed
  refine ⟨tries.behavior, hsame, ?_⟩
  rw [hsame]
  exact tries.matching hsound h

end Node

/-! ### What is drawn -/

def Beat.turn : Beat → Bool
  | begun | drew _ | ended => true
  | ticked | child .. | answered _ => false

def deal (n : Nat) (ds : List Nat) : List Beat := .begun :: (Frame.spelling n ds).map .drew

@[simp] theorem turns_deal (n : Nat) (ds : List Nat) :
    (deal n ds).filter Beat.turn = deal n ds := by
  refine List.filter_eq_self.mpr fun b hb => ?_
  obtain rfl | hb := List.mem_cons.mp hb
  · rfl
  · obtain ⟨d, -, rfl⟩ := List.mem_map.mp hb
    rfl

@[simp] theorem turns_beats (r : Round) : r.beats.filter Beat.turn = [] := by
  have hchildren : (r.log.map fun x => Beat.child x.1 x.2).filter Beat.turn = [] := by
    rw [List.filter_map]
    exact List.map_eq_nil_iff.mpr (List.filter_eq_nil_iff.mpr fun x _ => by simp [Beat.turn])
  rw [Round.beats, List.filter_cons_of_neg (by simp [Beat.turn]), List.filter_append, hchildren]
  rfl

/-- What a random selector over `n` children has drawn: one order at the start of each activation,
which the node keeps while the activation goes on, and nothing else. -/
def Frame.Shuffled (n : Nat) (f : Frame H) (bs : List Beat) : Prop :=
  ∃ (past : List (List Nat)) (now : List Nat),
    bs.filter Beat.turn =
      past.flatMap (fun ds => deal n ds ++ [.ended]) ++ (if f.active then deal n now else []) ∧
    (∀ ds ∈ past, InRange (n - 1) ds) ∧
    (f.active = true → InRange (n - 1) now ∧ ∃ c, f.behavior = .randomSelector c (arrange n now))

namespace Frame
variable {f g : Frame H} {n : Nat} {bs new : List Beat}

theorem Starts.randomSelector {started : Except Panic Unit} {b : Behavior H} {drawn : List Draw}
    (h : f.Starts n started b drawn) (made : f.behavior.make = .randomSelector) :
    started = .ok () ∧ ∃ ds, InRange (n - 1) ds ∧ b = .randomSelector 0 (arrange n ds) ∧
      drawn = spelling n ds := by
  obtain ⟨s, v, st, hvalue, htrace⟩ := h
  cases hb : f.behavior with
  | randomSelector c order =>
    let ds := st.rng.draws (n - 1)
    have hstart : (Behavior.randomSelector c order).start s v n st =
        ⟨(.ok (), .randomSelector 0 (arrange n ds.1)), { st with rng := ds.2 },
          (spelling n ds.1).map fun d => .hook v (.drew d)⟩ := by
      simp [Behavior.start, Behavior.shuffle, spelling, ds]
    rw [hb, hstart] at hvalue htrace
    cases hvalue
    refine ⟨rfl, ds.1, Rng.inRange_draws _ _, rfl, ?_⟩
    have hdrew : (fun d => (.hook v (.drew d) : Entry H.Note)).Injective := fun d d' h => by
      cases h
      rfl
    refine (List.map_injective_iff.mpr hdrew) (htrace.symm.trans ?_)
    exact List.filter_eq_self.mpr (by simp [Entry.isNote])
  | _ => rw [hb] at made; cases made

theorem shuffled_over (past : List (List Nat)) (hpast : ∀ ds ∈ past, InRange (n - 1) ds)
    (hbs : bs.filter Beat.turn = past.flatMap fun ds => deal n ds ++ [.ended])
    (hg : g.active = false) : g.Shuffled n bs :=
  ⟨past, [], by simp [hg, hbs], hpast, by simp [hg]⟩

theorem Shuffled.cut (h : f.Shuffled n bs) :
    f.settle.Shuffled n (bs ++ if f.active then [.ended] else []) := by
  obtain ⟨past, now, hbs, hpast, hnow⟩ := h
  have hidle := f.active_settle
  by_cases hf : f.active = true
  · refine shuffled_over (past ++ [now]) (List.forall_mem_append.mpr
      ⟨hpast, by simpa using (hnow hf).1⟩) ?_ hidle
    simp [hf, hbs, Beat.turn]
  · exact shuffled_over past hpast (by simp [hf, hbs]) hidle

theorem Shuffled.current (h : f.Shuffled n bs) (made : f.behavior.make = .randomSelector)
    {b : Behavior H} {drawn : List Draw} (starts : f.active = false → f.Starts n (.ok ()) b drawn)
    (goes : f.active = true → b = f.behavior) :
    ∃ (past : List (List Nat)) (now : List Nat) (c : Nat), b = .randomSelector c (arrange n now) ∧
      List.filter Beat.turn (bs ++ (if f.active then [] else .begun :: drawn.map .drew)) =
        past.flatMap (fun ds => deal n ds ++ [.ended]) ++ deal n now ∧
      (∀ ds ∈ past, InRange (n - 1) ds) ∧ InRange (n - 1) now := by
  obtain ⟨past, now, hbs, hpast, hnow⟩ := h
  by_cases hf : f.active = true
  · obtain ⟨hrange, c, hb⟩ := hnow hf
    exact ⟨past, now, c, (goes hf).trans hb, by simp [hf, hbs], hpast, hrange⟩
  · have hf : f.active = false := by simpa using hf
    obtain ⟨-, ds, hrange, rfl, rfl⟩ := (starts hf).randomSelector made
    have hdeal := turns_deal n ds
    rw [deal] at hdeal
    exact ⟨past, ds, 0, rfl, by simp [hf, hbs, hdeal, deal], hpast, hrange⟩

theorem Shuffled.pulse (h : f.Shuffled n bs) (made : f.behavior.make = .randomSelector)
    (hp : f.Pulse n new g) : g.Shuffled n (bs ++ new) := by
  cases hp with
  | cut => exact h.cut
  | panicked idle starts => cases (starts.randomSelector made).1
  | @ticked dt b b' drawn r g starts goes answers keeps ends =>
    obtain ⟨past, now, c, rfl, hbs, hpast, hrange⟩ := h.current made starts goes
    rw [← List.append_assoc]
    cases answers with
    | @randomSelector _ passed _ _ _ walked =>
      by_cases hg : g.active = true
      · refine ⟨past, now, ?_, hpast, fun _ => ⟨hrange, _, keeps hg⟩⟩
        rw [List.filter_append, hbs]
        simp [hg]
      · refine shuffled_over (past ++ [now]) (List.forall_mem_append.mpr
          ⟨hpast, by simpa using hrange⟩) ?_ (by simpa using hg)
        rw [List.filter_append, hbs]
        simp [hg, Beat.turn]

theorem Pulse.idle (h : f.Pulse n new g) (begun : .begun ∈ new) : f.active = false := by
  by_contra hf
  have hf : f.active = true := by simpa using hf
  cases h with
  | cut => simp [hf] at begun
  | panicked idle => cases hf.symm.trans idle
  | @ticked dt b b' drawn r =>
    have hround : .begun ∉ r.beats := by simp [Round.beats]
    rw [if_pos hf, List.nil_append] at begun
    obtain hbegun | hover := List.mem_append.mp begun
    · exact hround hbegun
    · split at hover <;> simp at hover

end Frame

namespace Node

end Node

end TickTree
