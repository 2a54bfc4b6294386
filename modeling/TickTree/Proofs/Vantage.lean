import TickTree.Proofs.Simulation
/-! Two runs as somebody sees them. A vantage says what is seen of a trace, and which worlds count
as the same. Frames that are the same, over trees that cannot be told apart, execute so that they
cannot be told apart either, even where the settings of the two runs differ in what is not seen. -/
namespace TickTree
variable {H : Host} {σ ε α β α' β' : Type}

namespace Traced
variable {S : σ → σ → Prop} {see : ε → Option ε} {R : α → β → Prop} {Q : α' → β' → Prop}

/-- From related states the two leave related states, related values, and traces of which the same
is seen. -/
def Resembles (S : σ → σ → Prop) (see : ε → Option ε) (R : α → β → Prop) (x : Traced σ ε α)
    (y : Traced σ ε β) : Prop :=
  ∀ s s', S s s' → R (x s).value (y s').value ∧ S (x s).state (y s').state ∧
    (x s).trace.filterMap see = (y s').trace.filterMap see

theorem Resembles.pure {a : α} {b : β} (h : R a b) :
    Resembles S see R (Pure.pure a : Traced σ ε α) (Pure.pure b) := fun _ _ hs => ⟨h, hs, rfl⟩

theorem Resembles.bind {x : Traced σ ε α} {y : Traced σ ε β} {f : α → Traced σ ε α'}
    {g : β → Traced σ ε β'} (h : Resembles S see R x y)
    (hf : ∀ a b, R a b → Resembles S see Q (f a) (g b)) :
    Resembles S see Q (x >>= f) (y >>= g) := by
  intro s s' hs
  obtain ⟨hvalue, hstate, htrace⟩ := h s s' hs
  obtain ⟨hvalue', hstate', htrace'⟩ := hf _ _ hvalue _ _ hstate
  refine ⟨hvalue', hstate', ?_⟩
  rw [bind_apply, bind_apply, List.filterMap_append, List.filterMap_append, htrace, htrace']

theorem Resembles.imp {R' : α → β → Prop} {x : Traced σ ε α} {y : Traced σ ε β}
    (h : Resembles S see R x y) (hR : ∀ a b, R a b → R' a b) : Resembles S see R' x y :=
  fun s s' hs => ⟨hR _ _ (h s s' hs).1, (h s s' hs).2⟩

theorem Resembles.and {P : α → Prop} {x : Traced σ ε α} {y : Traced σ ε β}
    (h : Resembles S see R x y) (hP : ∀ s, P (x s).value) :
    Resembles S see (fun a b => R a b ∧ P a) x y := fun s s' hs =>
  ⟨⟨(h s s' hs).1, hP s⟩, (h s s' hs).2⟩

theorem Resembles.seq {x y : Traced σ ε α} {f : α → Traced σ ε α'} {g : α → Traced σ ε β'}
    (h : Resembles S see Eq x y) (hf : ∀ a, Resembles S see Q (f a) (g a)) :
    Resembles S see Q (x >>= f) (y >>= g) := by
  refine h.bind fun a b hab => ?_
  rw [← hab]
  exact hf a

theorem Resembles.emit {e e' : ε} (h : see e = see e') :
    Resembles S see Eq (emit e : Traced σ ε Unit) (emit e') := fun s s' hs =>
  ⟨rfl, hs, by rw [emit_apply, emit_apply, List.filterMap_cons, List.filterMap_cons, h]⟩

end Traced

def Reach.Match {τ : Type} (W : World τ → World τ → Prop) (r r' : Reach τ) : Prop :=
  W r.world r'.world ∧ r.rng = r'.rng

/-- No callback tells related worlds apart, and each leaves related worlds. -/
structure Host.Respects (H : Host) (W : World H.State → World H.State → Prop) : Prop where
  start : ∀ a s, Traced.Sim (Reach.Match W) Eq (H.start a s) (H.start a s)
  tick : ∀ a s dt, Traced.Sim (Reach.Match W) Eq (H.tick a s dt) (H.tick a s dt)
  finish : ∀ a s r, Traced.Sim (Reach.Match W) Eq (H.finish a s r) (H.finish a s r)
  check : ∀ c s, Traced.Sim W Eq (H.check c s) (H.check c s)
  allows : ∀ d s v, Traced.Sim W Eq (H.allows d s v) (H.allows d s v)
  modifier : ∀ d f, H.modifier d = some f → ∀ s v dt r,
    Traced.Sim W Eq (f s v dt r) (f s v dt r)
  finished : ∀ d s v r, Traced.Sim W Eq (H.finished d s v r) (H.finished d s v r)
  aborted : ∀ d s v, Traced.Sim W Eq (H.aborted d s v) (H.aborted d s v)
  attached : ∀ a s v, Traced.Sim (Reach.Match W) Eq (H.attached a s v) (H.attached a s v)
  serve : ∀ a s v dt, Traced.Sim (Reach.Match W) Eq (H.serve a s v dt) (H.serve a s v dt)
  detached : ∀ a s v, Traced.Sim (Reach.Match W) Eq (H.detached a s v) (H.detached a s v)

theorem Traced.sim_rfl {S : σ → σ → Prop} (hS : ∀ s s', S s s' ↔ s = s') (x : Traced σ ε α) :
    Traced.Sim S Eq x x := by
  intro s s' hs
  obtain rfl := (hS s s').mp hs
  exact ⟨rfl, (hS _ _).mpr rfl, rfl⟩

theorem Host.respects_eq (H : Host) : H.Respects Eq := by
  have hworld (w w' : World H.State) : w = w' ↔ w = w' := Iff.rfl
  have hreach (r r' : Reach H.State) : Reach.Match Eq r r' ↔ r = r' := by
    obtain ⟨w, rng⟩ := r
    obtain ⟨w', rng'⟩ := r'
    simp [Reach.Match]
  exact {
    start := fun _ _ => Traced.sim_rfl hreach _
    tick := fun _ _ _ => Traced.sim_rfl hreach _
    finish := fun _ _ _ => Traced.sim_rfl hreach _
    check := fun _ _ => Traced.sim_rfl hworld _
    allows := fun _ _ _ => Traced.sim_rfl hworld _
    modifier := fun _ _ _ _ _ _ _ => Traced.sim_rfl hworld _
    finished := fun _ _ _ _ => Traced.sim_rfl hworld _
    aborted := fun _ _ _ => Traced.sim_rfl hworld _
    attached := fun _ _ _ => Traced.sim_rfl hreach _
    serve := fun _ _ _ _ => Traced.sim_rfl hreach _
    detached := fun _ _ _ => Traced.sim_rfl hreach _ }

structure Vantage (H : Host) where
  /-- What an entry looks like, if it is seen at all. -/
  see : Entry H.Note → Option (Entry H.Note)
  /-- The worlds that count as the same. -/
  world : World H.State → World H.State → Prop
  respects : H.Respects world

namespace Vantage
variable {V : Vantage H} {R : α → β → Prop} {s s' : Setting}

def Realms (V : Vantage H) (r r' : Realm H) : Prop :=
  V.world r.world r'.world ∧ r.tables = r'.tables

def Stages (V : Vantage H) (st st' : Stage H) : Prop :=
  V.Realms st.toRealm st'.toRealm ∧ st.rng = st'.rng

/-- Settings that callbacks and the vantage take for the same. -/
structure Settings (V : Vantage H) (s s' : Setting) : Prop where
  scope : s.scope = s'.scope
  listener : ∀ n, V.see (.notice s.listener n) = V.see (.notice s'.listener n)

abbrev Sim (V : Vantage H) (R : α → β → Prop) (x : Exec H α) (y : Exec H β) : Prop :=
  Traced.Resembles V.Stages V.see R x y

def judgment (V : Vantage H) : Judgment H := ⟨V.Sim, .pure, .bind⟩

theorem sim_of_apply {x : Exec H α} (h : ∀ st w, x { st with world := w } =
    ⟨(x st).value, { (x st).state with world := w }, (x st).trace⟩) : V.Sim Eq x x := by
  rintro st ⟨⟨w, t⟩, rng⟩ ⟨⟨hw, ht⟩, hrng⟩
  obtain rfl : t = st.tables := ht.symm
  obtain rfl : rng = st.rng := hrng.symm
  have hx := h st w
  have hkept : (x st).state.world = st.world := by rw [h st st.world]
  rw [show (⟨⟨w, st.tables⟩, st.rng⟩ : Stage H) = { st with world := w } from rfl, hx]
  exact ⟨rfl, ⟨⟨hkept ▸ hw, rfl⟩, rfl⟩, rfl⟩

theorem sim_hook (v : View) (h : Hook) : V.Sim Eq (Exec.hook v h) (Exec.hook v h) := .emit rfl

theorem sim_report (r : Report) : V.Sim Eq (Exec.report r) (Exec.report r) := .emit rfl

theorem sim_notify (hs : V.Settings s s') (n : Notice) :
    V.Sim Eq (Exec.notify s n) (Exec.notify s' n) := .emit (hs.listener n)

theorem sim_look {x : Traced (World H.State) H.Note α} (h : Traced.Sim V.world Eq x x) :
    V.Sim Eq (Exec.look x) (Exec.look x) := by
  rintro st st' ⟨⟨hw, ht⟩, hrng⟩
  obtain ⟨hvalue, hstate, htrace⟩ := h _ _ hw
  exact ⟨hvalue, ⟨⟨hstate, ht⟩, hrng⟩, by rw [Exec.look_apply, Exec.look_apply, htrace]⟩

theorem sim_reach {x : Traced (Reach H.State) H.Note α}
    (h : Traced.Sim (Reach.Match V.world) Eq x x) : V.Sim Eq (Exec.reach x) (Exec.reach x) := by
  rintro st st' ⟨⟨hw, ht⟩, hrng⟩
  obtain ⟨hvalue, ⟨hworld, hrng'⟩, htrace⟩ := h ⟨st.world, st.rng⟩ ⟨st'.world, st'.rng⟩ ⟨hw, hrng⟩
  exact ⟨hvalue, ⟨⟨hworld, ht⟩, hrng'⟩, by rw [Exec.reach_apply, Exec.reach_apply, htrace]⟩

theorem sim_modifyTables (f : Tables → Tables) :
    V.Sim Eq (Exec.modifyTables f) (Exec.modifyTables f) := sim_of_apply fun _ _ => rfl

section Decorators
variable (hs : V.Settings s s') (v : View)
include hs

theorem sim_allows (d : Decorator H) : V.Sim Eq (d.allows s v) (d.allows s' v) := by
  cases d with
  | cooldown c =>
    rw [Decorator.allows, Decorator.allows, hs.scope]
    exact sim_of_apply fun _ _ => rfl
  | timeout o => exact .pure rfl
  | inverter => exact .pure rfl
  | custom d =>
    rw [Decorator.allows, Decorator.allows, hs.scope]
    exact sim_look (V.respects.allows d _ v)

theorem sim_modifier (dt : Float32) (r : Status) (d : Decorator H) :
    Option.Rel (V.Sim Eq) (d.modifier s v dt r) (d.modifier s' v dt r) := by
  cases d with
  | cooldown c => exact .none
  | timeout o => exact .some (sim_of_apply fun _ _ => rfl)
  | inverter => exact .some (.pure rfl)
  | custom d =>
    rw [Decorator.modifier, Decorator.modifier, hs.scope]
    cases hf : H.modifier d with
    | none => exact .none
    | some f => exact .some (sim_look (V.respects.modifier d f hf _ v dt r))

theorem sim_finished (r : Status) (d : Decorator H) :
    V.Sim Eq (d.finished s v r) (d.finished s' v r) := by
  cases d with
  | cooldown c =>
    rw [Decorator.finished, Decorator.finished, hs.scope]
    split
    · exact sim_modifyTables _
    · exact .pure rfl
  | timeout o => exact sim_modifyTables _
  | inverter => exact .pure rfl
  | custom d =>
    rw [Decorator.finished, Decorator.finished, hs.scope]
    exact sim_look (V.respects.finished d _ v r)

theorem sim_aborted (d : Decorator H) : V.Sim Eq (d.aborted s v) (d.aborted s' v) := by
  cases d with
  | cooldown c =>
    rw [Decorator.aborted, Decorator.aborted, hs.scope]
    exact sim_modifyTables _
  | timeout o => exact sim_modifyTables _
  | inverter => exact .pure rfl
  | custom d =>
    rw [Decorator.aborted, Decorator.aborted, hs.scope]
    exact sim_look (V.respects.aborted d _ v)

end Decorators

section Behaviors
variable (hs : V.Settings s s')
include hs

theorem sim_start (v : View) (n : Nat) (b : Behavior H) :
    V.Sim Eq (b.start s v n) (b.start s' v n) := by
  cases b with
  | randomSelector cursor order =>
    have hshuffle : V.Sim Eq (Behavior.shuffle v n : Exec H (List Nat)) (Behavior.shuffle v n) :=
      sim_of_apply fun _ _ => rfl
    exact hshuffle.seq fun _ => .pure rfl
  | action a =>
    rw [Behavior.start, Behavior.start, hs.scope]
    exact (sim_reach (V.respects.start a _)).seq fun _ => .pure rfl
  | wait w =>
    refine sim_of_apply fun st t => ?_
    rw [Behavior.start, Traced.bind_apply, Traced.bind_apply, Traced.get_apply, Traced.get_apply]
    generalize w.start st.rng = x
    obtain ⟨started, w, rng⟩ := x
    cases started with
    | error p => rfl
    | ok u => by_cases hw : w.draws = true <;> simp [hw]
  | _ => exact .pure rfl

theorem sim_finish (r : Status) (b : Behavior H) : V.Sim Eq (b.finish s r) (b.finish s' r) := by
  cases b with
  | action a =>
    rw [Behavior.finish, Behavior.finish, hs.scope]
    exact (sim_reach (V.respects.finish a _ r)).seq fun _ => .pure rfl
  | _ => exact .pure rfl

end Behaviors

section Frames
variable (hs : V.Settings s s') (v : View) (slot : Nat)
include hs

theorem sim_guards (ds : List (Decorator H)) :
    V.Sim Eq (Frame.guards s v slot ds) (Frame.guards s' v slot ds) := by
  induction ds generalizing slot with
  | nil => exact .pure rfl
  | cons d ds ih =>
    refine (sim_allows hs v d).seq fun passed => (sim_hook _ _).seq fun _ => ?_
    cases passed with
    | true => exact ih _
    | false => exact .pure rfl

theorem sim_attach (as : List (Attachment H)) :
    V.Sim Eq (Frame.attach s v slot as) (Frame.attach s' v slot as) := by
  induction as generalizing slot with
  | nil => exact .pure rfl
  | cons a as ih =>
    rw [Frame.attach, Frame.attach, hs.scope]
    refine (sim_hook _ _).seq fun _ => ?_
    exact (sim_reach (V.respects.attached _ _ v)).seq fun _ => ih _

theorem sim_detach (as : List (Attachment H)) :
    V.Sim Eq (Frame.detach s v slot as) (Frame.detach s' v slot as) := by
  induction as generalizing slot with
  | nil => exact .pure rfl
  | cons a as ih =>
    rw [Frame.detach, Frame.detach, hs.scope]
    refine (sim_hook _ _).seq fun _ => ?_
    exact (sim_reach (V.respects.detached _ _ v)).seq fun _ => ih _

theorem sim_serve (dt : Float32) (as : List (Attachment H)) :
    V.Sim Eq (Frame.serve s v dt slot as) (Frame.serve s' v dt slot as) := by
  induction as generalizing slot with
  | nil => exact .pure rfl
  | cons a as ih =>
    have hlater : V.Sim Eq (do
          let as ← Frame.serve s v dt (slot + 1) as
          pure ((a.advance dt).2 :: as))
        (do
          let as ← Frame.serve s' v dt (slot + 1) as
          pure ((a.advance dt).2 :: as)) := (ih _).seq fun _ => .pure rfl
    rw [Frame.serve, Frame.serve, hs.scope]
    dsimp only
    split
    · refine (sim_hook _ _).seq fun _ => ?_
      exact (sim_reach (V.respects.serve _ _ v dt)).seq fun _ => hlater
    · exact hlater

theorem sim_modify (dt : Float32) (ds : List (Decorator H)) (r : Status) :
    V.Sim Eq (Frame.modify s v dt slot ds r) (Frame.modify s' v dt slot ds r) := by
  induction ds generalizing slot r with
  | nil => exact .pure rfl
  | cons d ds ih =>
    have hstep := sim_modifier hs v dt r d
    rw [Frame.modify, Frame.modify]
    generalize d.modifier s v dt r = x at hstep
    generalize d.modifier s' v dt r = y at hstep
    cases hstep with
    | none => exact ih _ _
    | some hxy => exact hxy.seq fun after => (sim_hook _ _).seq fun _ => ih _ _

theorem sim_tellFinished (r : Status) (ds : List (Decorator H)) :
    V.Sim Eq (Frame.tellFinished s v r slot ds) (Frame.tellFinished s' v r slot ds) := by
  induction ds generalizing slot with
  | nil => exact .pure rfl
  | cons d ds ih =>
    exact (sim_hook _ _).seq fun _ => (sim_finished hs v r d).seq fun _ => ih _

theorem sim_tellAborted (ds : List (Decorator H)) :
    V.Sim Eq (Frame.tellAborted s v slot ds) (Frame.tellAborted s' v slot ds) := by
  induction ds generalizing slot with
  | nil => exact .pure rfl
  | cons d ds ih =>
    exact (sim_hook _ _).seq fun _ => (sim_aborted hs v d).seq fun _ => ih _

end Frames

section Activations
variable (hs : V.Settings s s') (f : Frame H)
include hs

theorem sim_endActivation (r : Status) :
    V.Sim Eq (f.endActivation s r) (f.endActivation s' r) :=
  (sim_detach hs _ _ _).seq fun _ => (sim_notify hs _).seq fun _ => .pure rfl

theorem sim_abortFrame : V.Sim Eq (f.abort s) (f.abort s') :=
  (sim_tellAborted hs _ _ _).seq fun _ => (sim_endActivation hs f _).seq fun _ =>
    (sim_notify hs _).seq fun _ => .pure rfl

theorem sim_activate (n : Nat) : V.Sim Eq (f.activate s n) (f.activate s' n) := by
  rw [Frame.activate, Frame.activate, hs.scope]
  split
  · exact .pure rfl
  · refine (sim_notify hs _).seq fun _ => (sim_hook _ _).seq fun _ => ?_
    refine (sim_start hs _ _ _).seq ?_
    rintro ⟨started, b⟩
    cases started with
    | error p => exact .pure rfl
    | ok u => exact (sim_attach hs _ _ _).seq fun _ => .pure rfl

end Activations

end Vantage

def Node.Over (N : Node H → Node H → Prop) (n m : Node H) : Prop :=
  n.frame = m.frame ∧ List.Forall₂ N n.children m.children

namespace Vantage
variable {V : Vantage H} {N : Node H → Node H → Prop} {s s' : Setting} {dt : Float32}
  {f : Frame H} {cs ds : List (Node H)} {bs bs' : List (Branch H)} {r : Status}

theorem sim_abortAll (h : List.Forall₂ (fun c d => V.Sim N (c.abort s) (d.abort s')) cs ds) :
    V.Sim (List.Forall₂ N) (Node.abortAll s cs) (Node.abortAll s' ds) := by
  induction h with
  | nil => exact .pure .nil
  | cons h _ ih => exact h.bind fun c d hc => ih.bind fun cs ds hcs => .pure (.cons hc hcs)

variable (hs : V.Settings s s')
include hs

theorem sim_tick (v : View) (b : Behavior H) (hbs : List.Forall₂ (V.judgment.Twin N) bs bs') :
    V.Sim (fun x y => x.1 = y.1 ∧ x.2.1 = y.2.1 ∧
      List.Forall₂ (V.judgment.Twin N) x.2.2 y.2.2) (b.tick s v dt bs) (b.tick s' v dt bs') := by
  have hscope := hs.scope
  refine Judgment.tick (J := V.judgment) b (fun h => sim_hook v h) (fun a => ?_) (fun c => ?_) hbs
  · rw [hscope]
    exact sim_reach (V.respects.tick a _ dt)
  · rw [hscope]
    exact sim_look (V.respects.check c _)

theorem sim_abort (h : List.Forall₂ (fun c d => N c d ∧ V.Sim N (c.abort s) (d.abort s')) cs ds) :
    V.Sim (Node.Over N) ((Node.mk f cs).abort s) ((Node.mk f ds).abort s') := by
  rw [Node.abort, Node.abort]
  split
  · refine (sim_abortAll (h.imp fun _ _ h => h.2)).bind fun cs ds hcs => ?_
    exact (sim_abortFrame hs f).seq fun f => .pure ⟨rfl, hcs⟩
  · exact .pure ⟨rfl, h.imp fun _ _ h => h.1⟩

variable (hN : ∀ c d, N c d → V.Sim N (c.abort s) (d.abort s'))
include hN

theorem sim_conclude (hcs : List.Forall₂ N cs ds) :
    V.Sim (Node.Over N) (f.conclude s r cs) (f.conclude s' r ds) := by
  refine (sim_hook _ _).seq fun _ => (sim_finish hs _ _).seq fun b => ?_
  refine (sim_abortAll (hcs.imp hN)).bind fun cs ds hcs => ?_
  refine (sim_endActivation hs _ _).seq fun f => ?_
  exact (sim_tellFinished hs _ _ _ _).seq fun _ => .pure ⟨rfl, hcs⟩

theorem sim_advance (hbs : List.Forall₂ (V.judgment.Twin N) bs bs') :
    V.Sim (SameAnswer (Node.Over N)) (f.advance s dt bs) (f.advance s' dt bs') := by
  refine (sim_serve hs _ _ _ _).seq fun as => (sim_hook _ _).seq fun _ => ?_
  refine (sim_tick hs _ _ hbs).bind ?_
  rintro ⟨raw, b, bs⟩ ⟨_, _, bs'⟩ ⟨rfl, rfl, hbs⟩
  have hnodes := Judgment.twin_nodes hbs
  refine (sim_hook _ _).seq fun _ => ?_
  cases raw with
  | error stop => exact .pure ⟨rfl, rfl, hnodes⟩
  | ok raw =>
    refine (sim_modify hs _ _ _ _ _).seq fun result => ?_
    dsimp only
    split
    · exact (sim_conclude hs hN hnodes).bind fun n m hn => .pure ⟨rfl, hn⟩
    · exact .pure ⟨rfl, rfl, hnodes⟩

theorem sim_run (hbs : List.Forall₂ (V.judgment.Twin N) bs bs') :
    V.Sim (SameAnswer (Node.Over N)) (f.run s dt bs) (f.run s' dt bs') := by
  have hnodes := Judgment.twin_nodes hbs
  rw [Frame.run, Frame.run, ← hbs.length_eq]
  refine (sim_guards hs _ _ _).seq fun passed => ?_
  cases passed with
  | false =>
    refine (sim_report _).seq fun _ => ?_
    exact (sim_abort hs (hnodes.imp fun c d h => ⟨h, hN c d h⟩)).bind fun n m hn => .pure ⟨rfl, hn⟩
  | true =>
    refine (sim_activate hs _ _).seq ?_
    rintro ⟨started, f⟩
    cases started with
    | error p => exact .pure ⟨rfl, rfl, hnodes⟩
    | ok u => exact sim_advance hs hN hbs

theorem sim_executeFrame (hbs : List.Forall₂ (V.judgment.Twin N) bs bs') :
    V.Sim (SameAnswer (Node.Over N)) (f.execute s dt bs) (f.execute s' dt bs') := by
  refine (sim_hook _ _).seq fun _ => (sim_run hs hN hbs).bind ?_
  rintro ⟨answer, n⟩ ⟨_, m⟩ ⟨rfl, hn⟩
  have hview : n.view = m.view := congrArg Frame.view hn.1
  simp only [hview]
  exact (sim_hook _ _).seq fun _ => .pure ⟨rfl, hn⟩

theorem sim_execute (h : List.Forall₂ (fun c d => N c d ∧
      V.Sim (SameAnswer N) (c.execute s dt) (d.execute s' dt)) cs ds) :
    V.Sim (SameAnswer (Node.Over N)) ((Node.mk f cs).execute s dt)
      ((Node.mk f ds).execute s' dt) :=
  sim_executeFrame hs hN (Judgment.twin_branches (J := V.judgment) h)

end Vantage
end TickTree
