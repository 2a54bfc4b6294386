import TickTree.Proofs.Judgments
/-! Two runs side by side. A relation of frames and one of tables that the parts of a node keep are
kept by whole executions and aborts, with the same answers and the same traces on both sides. -/
namespace TickTree
variable {H : Host} {σ ε α β α' β' : Type}

namespace Traced
variable {S : σ → σ → Prop} {R : α → β → Prop} {Q : α' → β' → Prop}

/-- From related states the two leave related states, related values and the same trace. -/
def Sim (S : σ → σ → Prop) (R : α → β → Prop) (x : Traced σ ε α) (y : Traced σ ε β) : Prop :=
  ∀ s s', S s s' → R (x s).value (y s').value ∧ S (x s).state (y s').state ∧
    (x s).trace = (y s').trace

theorem Sim.pure {a : α} {b : β} (h : R a b) :
    Sim S R (Pure.pure a : Traced σ ε α) (Pure.pure b) := fun _ _ hs => ⟨h, hs, rfl⟩

theorem Sim.bind {x : Traced σ ε α} {y : Traced σ ε β} {f : α → Traced σ ε α'}
    {g : β → Traced σ ε β'} (h : Sim S R x y) (hf : ∀ a b, R a b → Sim S Q (f a) (g b)) :
    Sim S Q (x >>= f) (y >>= g) := by
  intro s s' hs
  obtain ⟨hvalue, hstate, htrace⟩ := h s s' hs
  obtain ⟨hvalue', hstate', htrace'⟩ := hf _ _ hvalue _ _ hstate
  rw [bind_apply, bind_apply, htrace, htrace']
  exact ⟨hvalue', hstate', rfl⟩

theorem Sim.seq {x y : Traced σ ε α} {f : α → Traced σ ε α'} {g : α → Traced σ ε β'}
    (h : Sim S Eq x y) (hf : ∀ a, Sim S Q (f a) (g a)) : Sim S Q (x >>= f) (y >>= g) := by
  refine h.bind fun a b hab => ?_
  rw [← hab]
  exact hf a

theorem Sim.and {x : Traced σ ε α} {y : Traced σ ε β} {p : α → Prop} (h : Sim S R x y)
    (hp : ∀ s, p (x s).value) : Sim S (fun a b => R a b ∧ p a) x y := fun s s' hs =>
  ⟨⟨(h s s' hs).1, hp s⟩, (h s s' hs).2⟩

end Traced

def Realm.Match (T : Tables → Tables → Prop) (r r' : Realm H) : Prop :=
  r.world = r'.world ∧ T r.tables r'.tables

def Stage.Match (T : Tables → Tables → Prop) (s s' : Stage H) : Prop :=
  s.toRealm.Match T s'.toRealm ∧ s.rng = s'.rng

namespace Exec
variable {T : Tables → Tables → Prop} {R : α → β → Prop}

abbrev Sim (T : Tables → Tables → Prop) (R : α → β → Prop) (x : Exec H α) (y : Exec H β) : Prop :=
  Traced.Sim (Stage.Match T) R x y

/-- A part that leaves the tables alone and does not look at them. -/
def Blind (x : Exec H α) : Prop := ∀ T, Sim T Eq x x

theorem blind_of_apply {x : Exec H α} (h : ∀ st t, x { st with tables := t } =
    ⟨(x st).value, { (x st).state with tables := t }, (x st).trace⟩) : Blind x := by
  rintro T st ⟨⟨w, t⟩, rng⟩ ⟨⟨hw, ht⟩, hrng⟩
  obtain rfl : w = st.world := hw.symm
  obtain rfl : rng = st.rng := hrng.symm
  have hx := h st t
  have hkept : (x st).state.tables = st.tables := by rw [h st st.tables]
  rw [show (⟨⟨st.world, t⟩, st.rng⟩ : Stage H) = { st with tables := t } from rfl, hx]
  exact ⟨rfl, ⟨⟨rfl, hkept ▸ ht⟩, rfl⟩, rfl⟩

theorem Blind.pure (a : α) : Blind (Pure.pure a : Exec H α) := fun _ => .pure rfl

theorem Blind.bind {x : Exec H α} {f : α → Exec H β} (h : Blind x) (hf : ∀ a, Blind (f a)) :
    Blind (x >>= f) := fun T => (h T).seq fun a => hf a T

theorem blind_hook (v : View) (h : Hook) : Blind (hook v h : Exec H Unit) :=
  blind_of_apply fun _ _ => rfl

theorem blind_report (r : Report) : Blind (report r : Exec H Unit) :=
  blind_of_apply fun _ _ => rfl

theorem blind_notify (s : Setting) (n : Notice) : Blind (notify s n : Exec H Unit) :=
  blind_of_apply fun _ _ => rfl

theorem blind_look (x : Traced (World H.State) H.Note α) : Blind (look x : Exec H α) :=
  blind_of_apply fun _ _ => rfl

theorem blind_reach (x : Traced (Reach H.State) H.Note α) : Blind (reach x : Exec H α) :=
  blind_of_apply fun _ _ => rfl

end Exec

open Exec (Sim Blind)

namespace Behavior

theorem blind_start (s : Setting) (v : View) (n : Nat) (b : Behavior H) :
    Blind (b.start s v n) := by
  cases b with
  | randomSelector cursor order =>
    have hshuffle : Blind (shuffle v n : Exec H (List Nat)) :=
      Exec.blind_of_apply fun _ _ => rfl
    exact hshuffle.bind fun _ => .pure _
  | action a => exact (Exec.blind_reach _).bind fun _ => .pure _
  | wait w =>
    refine Exec.blind_of_apply fun st t => ?_
    rw [start, Traced.bind_apply, Traced.bind_apply, Traced.get_apply, Traced.get_apply]
    generalize w.start st.rng = x
    obtain ⟨started, w, rng⟩ := x
    cases started with
    | error p => rfl
    | ok u => by_cases hw : w.draws = true <;> simp [hw]
  | _ => exact .pure _

theorem blind_finish (s : Setting) (r : Status) (b : Behavior H) : Blind (b.finish s r) := by
  cases b with
  | action a => exact (Exec.blind_reach _).bind fun _ => .pure _
  | _ => exact .pure _

end Behavior

namespace Frame

theorem blind_attach (s : Setting) (v : View) (slot : Nat) (as : List (Attachment H)) :
    Blind (attach s v slot as) := by
  induction as generalizing slot with
  | nil => exact .pure _
  | cons a as ih =>
    exact (Exec.blind_hook _ _).bind fun _ => (Exec.blind_reach _).bind fun _ => ih _

theorem blind_detach (s : Setting) (v : View) (slot : Nat) (as : List (Attachment H)) :
    Blind (detach s v slot as) := by
  induction as generalizing slot with
  | nil => exact .pure _
  | cons a as ih =>
    exact (Exec.blind_hook _ _).bind fun _ => (Exec.blind_reach _).bind fun _ => ih _

theorem blind_serve (s : Setting) (v : View) (dt : Float32) (slot : Nat)
    (as : List (Attachment H)) : Blind (serve s v dt slot as) := by
  induction as generalizing slot with
  | nil => exact .pure _
  | cons a as ih =>
    have hlater : Blind (do
        let as ← serve s v dt (slot + 1) as
        pure ((a.advance dt).2 :: as)) := (ih _).bind fun _ => .pure _
    rw [serve]
    dsimp only
    split
    · exact (Exec.blind_hook _ _).bind fun _ => (Exec.blind_reach _).bind fun _ => hlater
    · exact hlater

theorem active_activate (s : Setting) (n : Nat) (f : Frame H) (st : Stage H) :
    (f.activate s n st).value.2.active = true := by
  rw [activate]
  by_cases hf : f.active = true
  · rw [if_pos hf]
    exact hf
  · rw [if_neg hf]
    simp only [Traced.bind_apply, Exec.notify_apply, Exec.hook_apply]
    generalize f.behavior.start _ _ _ st = o
    obtain ⟨⟨started, b⟩, st', tr⟩ := o
    cases started <;> rfl

end Frame

def Exec.simulates (H : Host) (T : Tables → Tables → Prop) : Judgment H := ⟨Sim T, .pure, .bind⟩

namespace Branch
variable {T : Tables → Tables → Prop} {N : Node H → Node H → Prop} {bs bs' : List (Branch H)}

def Twin (T : Tables → Tables → Prop) (N : Node H → Node H → Prop) (b b' : Branch H) : Prop :=
  N b.node b'.node ∧ Sim T (SameAnswer N) b.run b'.run

theorem twin_nodes (h : List.Forall₂ (Twin T N) bs bs') :
    List.Forall₂ N (bs.map (·.node)) (bs'.map (·.node)) :=
  Judgment.twin_nodes (J := Exec.simulates H T) h

end Branch

theorem Behavior.tick_sim {T : Tables → Tables → Prop} {N : Node H → Node H → Prop} (s : Setting)
    (v : View) (dt : Float32) (b : Behavior H) {bs bs' : List (Branch H)}
    (h : List.Forall₂ (Branch.Twin T N) bs bs') :
    Sim T (fun x y => x.1 = y.1 ∧ x.2.1 = y.2.1 ∧ List.Forall₂ (Branch.Twin T N) x.2.2 y.2.2)
      (b.tick s v dt bs) (b.tick s v dt bs') :=
  Judgment.tick (J := Exec.simulates H T) b (fun _ => Exec.blind_hook _ _ T)
    (fun _ => Exec.blind_reach _ T) (fun _ => Exec.blind_look _ T) h

/-- On the node, the two lists of decorators answer alike and keep the tables related. -/
structure Interchangeable (T : Tables → Tables → Prop) (k : NodeId) (ds ds' : List (Decorator H)) :
    Prop where
  guards : ∀ s v, v.id = k → Sim T Eq (Frame.guards s v 0 ds) (Frame.guards s v 0 ds')
  modify : ∀ s v dt r, v.id = k →
    Sim T Eq (Frame.modify s v dt 0 ds r) (Frame.modify s v dt 0 ds' r)
  finished : ∀ s v r, v.id = k →
    Sim T Eq (Frame.tellFinished s v r 0 ds) (Frame.tellFinished s v r 0 ds')
  aborted : ∀ s v, v.id = k → Sim T Eq (Frame.tellAborted s v 0 ds) (Frame.tellAborted s v 0 ds')

/-- A relation of trees, made of one of frames, that the parts of a node keep. Active frames differ
in their decorators only. -/
structure Lockstep (T : Tables → Tables → Prop) (F : Frame H → Frame H → Prop)
    (N : Node H → Node H → Prop) : Prop where
  node : ∀ {f g cs ds}, N (.mk f cs) (.mk g ds) ↔ F f g ∧ List.Forall₂ N cs ds
  view : ∀ {f g}, F f g → f.view = g.view
  decorators : ∀ {f g}, F f g → Interchangeable T f.id f.decorators g.decorators
  active : ∀ {f g}, F f g → f.active = true → g = { f with decorators := g.decorators }
  change : ∀ {f g}, F f g → f.active = true → ∀ as b a t,
    F { f with services := as, behavior := b, active := a, time := t }
      { g with services := as, behavior := b, active := a, time := t }
  activate : ∀ {f g} s n, F f g →
    Sim T (fun x y => x.1 = y.1 ∧ F x.2 y.2) (f.activate s n) (g.activate s n)

namespace Lockstep
variable {T : Tables → Tables → Prop} {F : Frame H → Frame H → Prop} {N : Node H → Node H → Prop}
  {f g : Frame H} {cs ds : List (Node H)} {bs bs' : List (Branch H)} {s : Setting} {dt : Float32}
  {result : Status}

theorem exists_eq (L : Lockstep T F N) (h : F f g) (ha : f.active = true) :
    ∃ ds, g = { f with decorators := ds } := ⟨g.decorators, L.active h ha⟩

theorem induct (L : Lockstep T F N) {motive : Node H → Node H → Prop}
    (mk : ∀ f g cs ds, F f g → List.Forall₂ (fun c d => N c d ∧ motive c d) cs ds →
      motive (.mk f cs) (.mk g ds)) {n m : Node H} (h : N n m) : motive n m := by
  induction n generalizing m with
  | mk f cs ih =>
    obtain ⟨g, ds⟩ := m
    obtain ⟨hf, hcs⟩ := L.node.mp h
    refine mk f g cs ds hf ?_
    -- `h` speaks of all the children, and would be carried along as they become fewer
    clear h
    induction hcs with
    | nil => exact .nil
    | @cons c d cs ds hc _ hrest =>
      refine .cons ⟨hc, ih c (by simp) hc⟩ (hrest fun c hc _ => ?_)
      exact ih c (List.mem_cons_of_mem _ hc)

theorem active_eq (L : Lockstep T F N) (h : F f g) : f.active = g.active :=
  congrArg View.active (L.view h)

theorem view_eq (L : Lockstep T F N) {n m : Node H} (h : N n m) : n.view = m.view := by
  obtain ⟨f, cs⟩ := n
  obtain ⟨g, ds⟩ := m
  exact L.view (L.node.mp h).1

theorem endActivation (L : Lockstep T F N) (h : F f g) (ha : f.active = true) :
    Sim T F (f.endActivation s result) (g.endActivation s result) := by
  have hended := L.change h ha (f.services.map Attachment.reset) f.behavior false 0
  obtain ⟨ds, rfl⟩ := L.exists_eq h ha
  refine (Frame.blind_detach _ _ _ _ T).seq fun _ => ?_
  exact (Exec.blind_notify _ _ T).seq fun _ => .pure hended

theorem abortFrame (L : Lockstep T F N) (h : F f g) (ha : f.active = true) :
    Sim T F (f.abort s) (g.abort s) := by
  rw [Frame.abort, Frame.abort, ← L.view h]
  refine ((L.decorators h).aborted s f.view rfl).seq fun _ => ?_
  refine (L.endActivation h ha).bind fun f g h => ?_
  rw [← L.view h]
  exact (Exec.blind_notify _ _ T).seq fun _ => .pure h

theorem abortAll (h : List.Forall₂ (fun c d => Sim T N (c.abort s) (d.abort s)) cs ds) :
    Sim T (List.Forall₂ N) (Node.abortAll s cs) (Node.abortAll s ds) := by
  induction h with
  | nil => exact .pure .nil
  | cons h _ ih => exact h.bind fun c d hc => ih.bind fun cs ds hcs => .pure (.cons hc hcs)

theorem abort (L : Lockstep T F N) {n m : Node H} (h : N n m) :
    Sim T N (n.abort s) (m.abort s) := by
  refine L.induct (motive := fun n m => Sim T N (n.abort s) (m.abort s))
    (fun f g cs ds hf hcs => ?_) h
  rw [Node.abort, Node.abort, ← L.active_eq hf]
  by_cases ha : f.active = true
  · rw [if_pos ha, if_pos ha]
    refine (abortAll (hcs.imp fun _ _ h => h.2)).bind fun cs ds hcs => ?_
    exact (L.abortFrame hf ha).bind fun f g hf => .pure (L.node.mpr ⟨hf, hcs⟩)
  · rw [if_neg ha, if_neg ha]
    exact .pure (L.node.mpr ⟨hf, hcs.imp fun _ _ h => h.1⟩)

theorem conclude (L : Lockstep T F N) (h : F f g) (ha : f.active = true)
    (hcs : List.Forall₂ N cs ds) :
    Sim T N (f.conclude s result cs) (g.conclude s result ds) := by
  have hchange := L.change h ha f.services
  obtain ⟨ds', rfl⟩ := L.exists_eq h ha
  refine (Exec.blind_hook _ _ T).seq fun _ => ?_
  refine (Behavior.blind_finish _ _ _ T).seq fun b => ?_
  refine (abortAll (hcs.imp fun _ _ h => L.abort h)).bind fun cs ds hcs => ?_
  refine (L.endActivation (hchange b f.active f.time) ha).bind fun f g h => ?_
  rw [← L.view h]
  exact ((L.decorators h).finished s f.view result rfl).seq fun _ =>
    .pure (L.node.mpr ⟨h, hcs⟩)

theorem advance (L : Lockstep T F N) (h : F f g) (ha : f.active = true)
    (hbs : List.Forall₂ (Branch.Twin T N) bs bs') :
    Sim T (SameAnswer N) (f.advance s dt bs) (g.advance s dt bs') := by
  have hchange := L.change h ha
  have hdecorators := L.decorators h
  obtain ⟨ds, rfl⟩ := L.exists_eq h ha
  refine (Frame.blind_serve _ _ _ _ _ T).seq fun as => (Exec.blind_hook _ _ T).seq fun _ => ?_
  refine (f.behavior.tick_sim s _ dt hbs).bind ?_
  rintro ⟨raw, b, cs⟩ ⟨_, _, ds⟩ ⟨rfl, rfl, hcs⟩
  have hnodes := Branch.twin_nodes hcs
  refine (Exec.blind_hook _ _ T).seq fun _ => ?_
  cases raw with
  | error stop => exact .pure ⟨rfl, L.node.mpr ⟨hchange as b f.active f.time, hnodes⟩⟩
  | ok raw =>
    refine (hdecorators.modify s _ dt raw rfl).seq fun result => ?_
    have haged := hchange as b f.active (f.time + dt)
    by_cases hr : result.isTerminal = true
    · simp only [if_pos hr]
      exact (L.conclude haged ha hnodes).bind fun n m hn => .pure ⟨rfl, hn⟩
    · simp only [if_neg hr]
      exact .pure ⟨rfl, L.node.mpr ⟨haged, hnodes⟩⟩

theorem run (L : Lockstep T F N) (h : F f g) (hbs : List.Forall₂ (Branch.Twin T N) bs bs') :
    Sim T (SameAnswer N) (f.run s dt bs) (g.run s dt bs') := by
  have hnodes := Branch.twin_nodes hbs
  rw [Frame.run, Frame.run, ← L.view h, ← hbs.length_eq]
  refine ((L.decorators h).guards s f.view rfl).seq fun passed => ?_
  cases passed with
  | false =>
    refine (Exec.blind_report _ T).seq fun _ => ?_
    exact (L.abort (L.node.mpr ⟨h, hnodes⟩)).bind fun n m hn => .pure ⟨rfl, hn⟩
  | true =>
    have hactivate := (L.activate s bs.length h).and (p := fun x => x.2.active = true)
      (f.active_activate s bs.length)
    refine hactivate.bind ?_
    rintro ⟨started, f⟩ ⟨_, g⟩ ⟨⟨rfl, h⟩, ha⟩
    cases started with
    | error p => exact .pure ⟨rfl, L.node.mpr ⟨h, hnodes⟩⟩
    | ok u => exact L.advance h ha hbs

theorem executeFrame (L : Lockstep T F N) (h : F f g)
    (hbs : List.Forall₂ (Branch.Twin T N) bs bs') :
    Sim T (SameAnswer N) (f.execute s dt bs) (g.execute s dt bs') := by
  rw [Frame.execute, Frame.execute, ← L.view h]
  refine (Exec.blind_hook _ _ T).seq fun _ => (L.run h hbs).bind ?_
  rintro ⟨answer, n⟩ ⟨_, m⟩ ⟨rfl, hn⟩
  simp only [← L.view_eq hn]
  exact (Exec.blind_hook _ _ T).seq fun _ => .pure ⟨rfl, hn⟩

theorem execute (L : Lockstep T F N) {n m : Node H} (h : N n m) :
    Sim T (SameAnswer N) (n.execute s dt) (m.execute s dt) := by
  refine L.induct (motive := fun n m => Sim T (SameAnswer N) (n.execute s dt) (m.execute s dt))
    (fun f g cs ds hf hcs => ?_) h
  exact L.executeFrame hf (Judgment.twin_branches (J := Exec.simulates H T) hcs)

end Lockstep
end TickTree
