import TickTree.Proofs.Memory
import TickTree.Proofs.Run
/-! Traces tell what decorators remember: of every node, whatever an execution or an abort does to
the tables is what the entries about the node make of it. -/
namespace TickTree
variable {H : Host} {α β : Type} {now : Float32} {D : NodeId → List (Decorator H)}

/-- A result, and of each node a trace that tells what has become of what is remembered. Here `D`
gives the decorators of each node. -/
def Exec.Tells (now : Float32) (D : NodeId → List (Decorator H)) (Q : α → Prop)
    (x : Exec H α) : Prop :=
  ∀ st, Q (x st).value ∧ ∀ k,
    Recalls now (D k) (st.tables.row k) (own k (x st).trace) ((x st).state.tables.row k)

namespace Exec
variable {Q : α → Prop} {R : β → Prop} {x : Exec H α} {f : α → Exec H β}

theorem Tells.pure {a : α} (h : Q a) : Tells now D Q (pure a : Exec H α) := fun _ =>
  ⟨h, fun _ => rfl⟩

theorem Tells.bind (hx : Tells now D Q x) (hf : ∀ a, Q a → Tells now D R (f a)) :
    Tells now D R (x >>= f) := by
  intro st
  obtain ⟨hvalue, hrows⟩ := hx st
  obtain ⟨hvalue', hrows'⟩ := hf _ hvalue (x st).state
  refine ⟨hvalue', fun k => ?_⟩
  rw [Traced.bind_apply, own_append]
  exact recalls_append.mpr ⟨_, hrows k, hrows' k⟩

theorem tells_unheard (hQ : ∀ st, Q (x st).value)
    (h : ∀ st, (x st).state.tables = st.tables ∧ ∀ e ∈ calls (x st).trace, e.unheard = true) :
    Tells now D Q x := by
  intro st
  obtain ⟨htables, htrace⟩ := h st
  refine ⟨hQ st, fun k => ?_⟩
  rw [← own_calls, htables]
  exact (recalls_unheard fun e he => htrace e (List.mem_of_mem_filter he)).mpr rfl

theorem tells_hook (v : View) {h : Hook} (hh : h.slot? = none) :
    Tells now D (fun _ => True) (hook v h : Exec H Unit) :=
  tells_unheard (fun _ => trivial) fun st => by simp [Entry.unheard, hh]

theorem tells_notify (s : Setting) (n : Notice) :
    Tells now D (fun _ => True) (notify s n : Exec H Unit) :=
  tells_unheard (fun _ => trivial) fun st => by simp [Entry.unheard]

theorem tells_report (r : Report) : Tells now D (fun _ => True) (report r : Exec H Unit) :=
  tells_unheard (fun _ => trivial) fun st => by simp [Entry.unheard]

theorem tells_look (y : Traced (World H.State) H.Note α) :
    Tells now D (fun _ => True) (look y : Exec H α) :=
  tells_unheard (fun _ => trivial) fun st => by simp

theorem tells_reach (y : Traced (Reach H.State) H.Note α) :
    Tells now D (fun _ => True) (reach y : Exec H α) :=
  tells_unheard (fun _ => trivial) fun st => by simp

theorem tells_heard {v : View} {d : Decorator H} {h : α → Hook} {i : Nat}
    (slot : ∀ a, (h a).slot? = some i) (at_slot : (D v.id)[i]? = some d)
    (trace : ∀ st, calls (x st).trace = [.hook v (h (x st).value)])
    (honest : ∀ st, d.Honest now (h (x st).value) (st.tables.row v.id))
    (rows : ∀ st k, (x st).state.tables.row k =
      if k = v.id then d.noted now (h (x st).value) (st.tables.row k) else st.tables.row k) :
    Tells now D (fun _ => True) x := by
  intro st
  refine ⟨trivial, fun k => ?_⟩
  rw [own_congr (trace st), rows]
  by_cases hk : k = v.id
  · subst hk
    have hheard : (h (x st).value).hearer (D v.id) = some d := by simp [Hook.hearer, slot, at_slot]
    rw [own_eq_self (by simp), if_pos rfl]
    simpa [Entry.Honest, Entry.noted, hheard] using honest st
  · rw [own_eq_nil (by simp : Mine v.id _) (Ne.symm hk), if_neg hk]
    rfl

end Exec

namespace Decorator
variable {s : Setting} {v : View} {d : Decorator H} {i : Nat}

open Exec (Tells)

theorem tells_allows (hd : (D v.id)[i]? = some d) :
    Tells s.scope.elapsed D (fun _ => True) (do
      let passed ← d.allows s v
      Exec.hook v (.guarded i passed)
      pure passed) := by
  refine Exec.tells_heard (d := d) (h := .guarded i) (fun _ => rfl) hd ?_ ?_ ?_
  all_goals intro st
  · cases d <;> simp [allows]
  · cases d with
    | cooldown c => exact c.allows_eq st.tables v.id s.scope.elapsed
    | timeout o => rfl
    | inverter => rfl
    | custom d => trivial
  · intro k
    cases d <;> exact (ite_self _).symm

theorem tells_modifier {dt : Float32} {before : Status} {x : Exec H Status}
    (hd : (D v.id)[i]? = some d) (hx : d.modifier s v dt before = some x) :
    Tells now D (fun _ => True) (do
      let after ← x
      Exec.hook v (.modified i dt before after)
      pure after) := by
  refine Exec.tells_heard (d := d) (h := .modified i dt before) (fun _ => rfl) hd ?_ ?_ ?_
  all_goals intro st
  · simp [calls_modifier hx]
  · cases d with
    | cooldown c => trivial
    | timeout o =>
      cases hx
      exact (o.modify_eq v.id dt before st.tables).1
    | inverter =>
      cases hx
      rfl
    | custom d => trivial
  · intro k
    cases d with
    | cooldown c => cases hx
    | timeout o =>
      cases hx
      exact (o.modify_eq v.id dt before st.tables).2 k
    | inverter =>
      cases hx
      exact (ite_self _).symm
    | custom d =>
      obtain ⟨g, -, rfl⟩ := Option.map_eq_some_iff.mp hx
      exact (ite_self _).symm

theorem tells_finished {result : Status} (hd : (D v.id)[i]? = some d) :
    Tells s.scope.elapsed D (fun _ => True) (do
      Exec.hook v (.finished i result)
      d.finished s v result) := by
  refine Exec.tells_heard (d := d) (h := fun _ => .finished i result) (fun _ => rfl) hd ?_ ?_ ?_
  all_goals intro st
  · cases d with
    | cooldown c =>
      simp only [finished]
      split <;> simp
    | _ => simp [finished]
  · cases d <;> trivial
  · intro k
    cases d with
    | cooldown c =>
      simp only [finished, noted]
      split
      · exact Tables.row_insert st.tables c.id v.id _ k
      · exact (ite_self _).symm
    | timeout o => exact Tables.row_erase st.tables o.id v.id k
    | inverter => exact (ite_self _).symm
    | custom d => exact (ite_self _).symm

theorem tells_aborted (hd : (D v.id)[i]? = some d) :
    Tells s.scope.elapsed D (fun _ => True) (do
      Exec.hook v (.aborted i)
      d.aborted s v) := by
  refine Exec.tells_heard (d := d) (h := fun _ => .aborted i) (fun _ => rfl) hd ?_ ?_ ?_
  all_goals intro st
  · cases d <;> simp [aborted]
  · cases d <;> trivial
  · intro k
    cases d with
    | cooldown c => exact Tables.row_insert st.tables c.id v.id _ k
    | timeout o => exact Tables.row_erase st.tables o.id v.id k
    | inverter => exact (ite_self _).symm
    | custom d => exact (ite_self _).symm

end Decorator

theorem getElem?_of_drop_eq {d : Decorator H} {ds ds' : List (Decorator H)} {i : Nat}
    (h : ds.drop i = d :: ds') : ds[i]? = some d ∧ ds.drop (i + 1) = ds' := by
  constructor
  · rw [← List.head?_drop, h, List.head?_cons]
  · rw [← List.tail_drop, h, List.tail_cons]

namespace Frame
variable {s : Setting} {v : View} {slot : Nat} {ds : List (Decorator H)}

open Exec (Tells)

theorem tells_guards (hds : (D v.id).drop slot = ds) :
    Tells s.scope.elapsed D (fun _ => True) (guards s v slot ds : Exec H Bool) := by
  induction ds generalizing slot with
  | nil => exact .pure trivial
  | cons d ds ih =>
    obtain ⟨hd, hds⟩ := getElem?_of_drop_eq hds
    have hstep : Tells s.scope.elapsed D (fun _ => True) (do
        let passed ← d.allows s v
        Exec.hook v (.guarded slot passed)
        pure passed) := Decorator.tells_allows hd
    have hrest : ∀ passed : Bool, True → Tells s.scope.elapsed D (fun _ => True)
        (if passed then guards s v (slot + 1) ds else pure false) := by
      intro passed _
      cases passed with
      | true => exact ih hds
      | false => exact .pure trivial
    simpa only [guards, bind_assoc, pure_bind] using hstep.bind hrest

theorem tells_modify {dt : Float32} {result : Status} (hds : (D v.id).drop slot = ds) :
    Tells now D (fun _ => True) (modify s v dt slot ds result : Exec H Status) := by
  induction ds generalizing slot result with
  | nil => exact .pure trivial
  | cons d ds ih =>
    obtain ⟨hd, hds⟩ := getElem?_of_drop_eq hds
    rw [modify]
    cases hx : d.modifier s v dt result with
    | none => exact ih hds
    | some x =>
      have hstep : Tells now D (fun _ => True) (do
          let after ← x
          Exec.hook v (.modified slot dt result after)
          pure after) := Decorator.tells_modifier hd hx
      have hall := hstep.bind (R := fun _ => True)
        (f := fun after => modify s v dt (slot + 1) ds after) fun after _ => ih hds
      simpa only [bind_assoc, pure_bind] using hall

theorem tells_tellFinished {result : Status} (hds : (D v.id).drop slot = ds) :
    Tells s.scope.elapsed D (fun _ => True) (tellFinished s v result slot ds : Exec H Unit) := by
  induction ds generalizing slot with
  | nil => exact .pure trivial
  | cons d ds ih =>
    obtain ⟨hd, hds⟩ := getElem?_of_drop_eq hds
    have hstep : Tells s.scope.elapsed D (fun _ => True) (do
        Exec.hook v (.finished slot result)
        d.finished s v result) := Decorator.tells_finished hd
    have hall := hstep.bind (R := fun _ => True)
      (f := fun _ => tellFinished s v result (slot + 1) ds) fun _ _ => ih hds
    simpa only [tellFinished, bind_assoc] using hall

theorem tells_tellAborted (hds : (D v.id).drop slot = ds) :
    Tells s.scope.elapsed D (fun _ => True) (tellAborted s v slot ds : Exec H Unit) := by
  induction ds generalizing slot with
  | nil => exact .pure trivial
  | cons d ds ih =>
    obtain ⟨hd, hds⟩ := getElem?_of_drop_eq hds
    have hstep : Tells s.scope.elapsed D (fun _ => True) (do
        Exec.hook v (.aborted slot)
        d.aborted s v) := Decorator.tells_aborted hd
    have hall := hstep.bind (R := fun _ => True)
      (f := fun _ => tellAborted s v (slot + 1) ds) fun _ _ => ih hds
    simpa only [tellAborted, bind_assoc] using hall

theorem tells_attach (as : List (Attachment H)) :
    Tells now D (fun _ => True) (attach s v slot as : Exec H Unit) := by
  induction as generalizing slot with
  | nil => exact .pure trivial
  | cons a as ih =>
    exact (Exec.tells_hook v rfl).bind fun _ _ => (Exec.tells_reach _).bind fun _ _ => ih

theorem tells_detach (as : List (Attachment H)) :
    Tells now D (fun _ => True) (detach s v slot as : Exec H Unit) := by
  induction as generalizing slot with
  | nil => exact .pure trivial
  | cons a as ih =>
    exact (Exec.tells_hook v rfl).bind fun _ _ => (Exec.tells_reach _).bind fun _ _ => ih

theorem tells_serve {dt : Float32} (as : List (Attachment H)) :
    Tells now D (fun _ => True) (serve s v dt slot as : Exec H (List (Attachment H))) := by
  induction as generalizing slot with
  | nil => exact .pure trivial
  | cons a as ih =>
    have hlater : Tells now D (fun _ => True) (do
        let as ← serve s v dt (slot + 1) as
        pure ((a.advance dt).2 :: as)) := ih.bind fun _ _ => .pure trivial
    rw [serve]
    dsimp only
    split
    · exact (Exec.tells_hook v rfl).bind fun _ _ => (Exec.tells_reach _).bind fun _ _ => hlater
    · exact hlater

def Wears (D : NodeId → List (Decorator H)) (f : Frame H) : Prop := D f.id = f.decorators

variable {f : Frame H}

theorem Wears.drop_zero (h : f.Wears D) : (D f.view.id).drop 0 = f.decorators := h

theorem tells_endActivation {result : Status} (hf : f.Wears D) :
    Tells now D (Wears D) (f.endActivation s result) :=
  (tells_detach _).bind fun _ _ => (Exec.tells_notify s _).bind fun _ _ => .pure hf

theorem tells_abort (hf : f.Wears D) : Tells s.scope.elapsed D (Wears D) (f.abort s) := by
  refine (tells_tellAborted hf.drop_zero).bind fun _ _ => ?_
  refine (tells_endActivation hf).bind fun g hg => ?_
  exact (Exec.tells_notify s _).bind fun _ _ => .pure hg

end Frame

namespace Node
variable {s : Setting}

open Exec (Tells)

def Wears (D : NodeId → List (Decorator H)) (n : Node H) : Prop := ∀ f ∈ n.frames, f.Wears D

theorem wears_mk {f : Frame H} {cs : List (Node H)} :
    (mk f cs).Wears D ↔ f.Wears D ∧ ∀ c ∈ cs, c.Wears D := by
  simp only [Wears, frames_mk, List.forall_mem_cons, List.mem_flatMap]
  exact and_congr_right fun _ => ⟨fun h c hc g hg => h g ⟨c, hc, hg⟩,
    fun h g ⟨c, hc, hg⟩ => h c hc g hg⟩

theorem tells_abortAll {cs : List (Node H)}
    (h : ∀ c ∈ cs, Tells s.scope.elapsed D (Wears D) (c.abort s)) :
    Tells s.scope.elapsed D (fun cs => ∀ c ∈ cs, c.Wears D) (abortAll s cs) := by
  induction cs with
  | nil => exact .pure (by simp)
  | cons c cs ih =>
    refine (h c (by simp)).bind fun d hd => ?_
    refine (ih fun c hc => h c (List.mem_cons_of_mem _ hc)).bind fun ds hds => ?_
    exact .pure (List.forall_mem_cons.mpr ⟨hd, hds⟩)

theorem tells_abort {n : Node H} (h : n.Wears D) :
    Tells s.scope.elapsed D (Wears D) (n.abort s) := by
  induction n with
  | mk f cs ih =>
    obtain ⟨hf, hcs⟩ := wears_mk.mp h
    rw [abort]
    split
    · refine (tells_abortAll fun c hc => ih c hc (hcs c hc)).bind fun ds hds => ?_
      exact (Frame.tells_abort hf).bind fun g hg => .pure (wears_mk.mpr ⟨hg, hds⟩)
    · exact .pure h

end Node

namespace Branch

open Exec (Tells)

def Tells (now : Float32) (D : NodeId → List (Decorator H)) (b : Branch H) : Prop :=
  b.node.Wears D ∧ Exec.Tells now D (fun x => x.2.Wears D) b.run

variable {bs : List (Branch H)}

theorem Tells.done {b : Branch H} (h : b.Tells now D) {n : Node H} (hn : n.Wears D) :
    (b.done n).Tells now D := ⟨hn, h.2⟩

theorem tells_walk {onward : Status} {cursor : Nat} {order : List Nat}
    (h : ∀ b ∈ bs, b.Tells now D) :
    Exec.Tells now D (fun x => ∀ b ∈ x.2.2, b.Tells now D) (walk onward cursor order bs) := by
  induction order generalizing cursor bs with
  | nil => exact .pure h
  | cons i order ih =>
    rw [walk]
    cases hb : bs[i]? with
    | none => exact .pure h
    | some b =>
      have hmem : b ∈ bs := List.mem_of_getElem? hb
      refine (h b hmem).2.bind ?_
      rintro ⟨answer, n⟩ hn
      have hset : ∀ b' ∈ bs.set i (b.done n), b'.Tells now D := by
        intro b' hb'
        obtain hb' | rfl := List.mem_or_eq_of_mem_set hb'
        · exact h b' hb'
        · exact (h b hmem).done hn
      dsimp only
      split
      · exact ih hset
      · exact .pure hset

theorem tells_runAll (h : ∀ b ∈ bs, b.Tells now D) :
    Exec.Tells now D (fun x => ∀ b ∈ x.2, b.Tells now D) (runAll bs) := by
  induction bs with
  | nil => exact .pure h
  | cons b bs ih =>
    obtain ⟨hb, hbs⟩ := List.forall_mem_cons.mp h
    refine hb.2.bind ?_
    rintro ⟨answer, n⟩ hn
    cases answer with
    | error stop => exact .pure (List.forall_mem_cons.mpr ⟨hb.done hn, hbs⟩)
    | ok result =>
      refine (ih hbs).bind ?_
      rintro ⟨results, bs⟩ hbs
      exact .pure (List.forall_mem_cons.mpr ⟨hb.done hn, hbs⟩)

theorem tells_runFirst (h : ∀ b ∈ bs, b.Tells now D) :
    Exec.Tells now D (fun x => ∀ b ∈ x.2, b.Tells now D) (runFirst bs) := by
  cases bs with
  | nil => exact .pure h
  | cons b bs =>
    obtain ⟨hb, hbs⟩ := List.forall_mem_cons.mp h
    refine hb.2.bind ?_
    rintro ⟨answer, n⟩ hn
    exact .pure (List.forall_mem_cons.mpr ⟨hb.done hn, hbs⟩)

end Branch

namespace Behavior
variable {s : Setting} {v : View} {b : Behavior H}

open Exec (Tells)

theorem tells_start {children : Nat} :
    Tells now D (fun _ => True) (b.start s v children) := by
  refine Exec.tells_unheard (fun _ => trivial) fun st => ?_
  obtain ⟨drawn, hdrawn⟩ := b.calls_start s v children st
  refine ⟨?_, ?_⟩
  · cases b with
    | wait w =>
      rw [start, Traced.bind_apply, Traced.get_apply]
      generalize w.start st.rng = x
      obtain ⟨started, w, rng⟩ := x
      cases started with
      | error p => rfl
      | ok u => by_cases hw : w.draws = true <;> simp [hw]
    | _ => rfl
  · rw [hdrawn]
    intro e he
    obtain ⟨d, -, rfl⟩ := List.mem_map.mp he
    rfl

theorem tells_finish {result : Status} : Tells now D (fun _ => True) (b.finish s result) := by
  refine Exec.tells_unheard (fun _ => trivial) fun st => ⟨?_, by simp [calls_finish]⟩
  cases b <;> rfl

theorem tells_tick {dt : Float32} {bs : List (Branch H)} (h : ∀ b ∈ bs, b.Tells now D) :
    Tells now D (fun x => ∀ b ∈ x.2.2, b.Tells now D) (b.tick s v dt bs) := by
  cases b with
  | selector cursor => exact (Branch.tells_walk h).bind fun x hx => .pure hx
  | randomSelector cursor order => exact (Branch.tells_walk h).bind fun x hx => .pure hx
  | parallel p q => exact (Branch.tells_runAll h).bind fun x hx => .pure hx
  | sequence cursor =>
    exact (Exec.tells_hook v rfl).bind fun _ _ => (Branch.tells_walk h).bind fun x hx => .pure hx
  | relay => exact (Branch.tells_runFirst h).bind fun x hx => .pure hx
  | repeater r =>
    refine (Branch.tells_runFirst h).bind ?_
    rintro ⟨answer, bs⟩ hbs
    match answer with
    | none => exact .pure hbs
    | some (.error stop) => exact .pure hbs
    | some (.ok child) => exact .pure hbs
  | action a => exact (Exec.tells_reach _).bind fun _ _ => .pure h
  | condition c => exact (Exec.tells_look _).bind fun _ _ => .pure h
  | wait w => exact .pure h

end Behavior

namespace Frame
variable {s : Setting} {dt : Float32} {f : Frame H} {bs : List (Branch H)}

open Exec (Tells)

theorem tells_activate {children : Nat} (hf : f.Wears D) :
    Tells now D (fun x => x.2.Wears D) (f.activate s children) := by
  rw [activate]
  split
  · exact .pure hf
  · refine (Exec.tells_notify s _).bind fun _ _ => (Exec.tells_hook _ rfl).bind fun _ _ => ?_
    refine Behavior.tells_start.bind ?_
    rintro ⟨started, b⟩ -
    cases started with
    | error p => exact .pure hf
    | ok u => exact (tells_attach _).bind fun _ _ => .pure hf

theorem tells_conclude {result : Status} {cs : List (Node H)} (hf : f.Wears D)
    (hcs : ∀ c ∈ cs, c.Wears D) :
    Tells s.scope.elapsed D (Node.Wears D) (f.conclude s result cs) := by
  refine (Exec.tells_hook _ rfl).bind fun _ _ => Behavior.tells_finish.bind fun b _ => ?_
  refine (Node.tells_abortAll fun c hc => Node.tells_abort (hcs c hc)).bind fun cs hcs => ?_
  refine (tells_endActivation (f := { f with behavior := b }) hf).bind fun g hg => ?_
  exact (tells_tellFinished hg.drop_zero).bind fun _ _ =>
    .pure (Node.wears_mk.mpr ⟨hg, hcs⟩)

theorem tells_advance (hf : f.Wears D) (hbs : ∀ b ∈ bs, b.Tells s.scope.elapsed D) :
    Tells s.scope.elapsed D (fun x => x.2.Wears D) (f.advance s dt bs) := by
  have hnodes {bs : List (Branch H)} (h : ∀ b ∈ bs, b.Tells s.scope.elapsed D) :
      ∀ c ∈ bs.map (·.node), c.Wears D := by
    intro c hc
    obtain ⟨b, hb, rfl⟩ := List.mem_map.mp hc
    exact (h b hb).1
  refine (tells_serve _).bind fun as _ => (Exec.tells_hook _ rfl).bind fun _ _ => ?_
  refine (Behavior.tells_tick hbs).bind ?_
  rintro ⟨raw, b, bs⟩ hbs
  refine (Exec.tells_hook _ rfl).bind fun _ _ => ?_
  cases raw with
  | error stop => exact .pure (Node.wears_mk.mpr ⟨hf, hnodes hbs⟩)
  | ok raw =>
    let g : Frame H := { f with services := as, behavior := b }
    have hg : g.Wears D := hf
    refine (tells_modify (v := g.view) hg.drop_zero).bind fun result _ => ?_
    dsimp only
    split
    · exact (tells_conclude (f := g.aged dt) hg (hnodes hbs)).bind fun n hn => .pure hn
    · exact .pure (Node.wears_mk.mpr ⟨hg, hnodes hbs⟩)

theorem tells_execute (hf : f.Wears D) (hbs : ∀ b ∈ bs, b.Tells s.scope.elapsed D) :
    Tells s.scope.elapsed D (fun x => x.2.Wears D) (f.execute s dt bs) := by
  have hcs : ∀ c ∈ bs.map (·.node), c.Wears D := by
    intro c hc
    obtain ⟨b, hb, rfl⟩ := List.mem_map.mp hc
    exact (hbs b hb).1
  have hrun : Tells s.scope.elapsed D (fun x => x.2.Wears D) (f.run s dt bs) := by
    refine (tells_guards hf.drop_zero).bind fun passed _ => ?_
    cases passed with
    | true =>
      refine (tells_activate hf).bind ?_
      rintro ⟨started, g⟩ hg
      cases started with
      | error p => exact .pure (Node.wears_mk.mpr ⟨hg, hcs⟩)
      | ok u => exact tells_advance hg hbs
    | false =>
      refine (Exec.tells_report _).bind fun _ _ => ?_
      exact (Node.tells_abort (Node.wears_mk.mpr ⟨hf, hcs⟩)).bind fun n hn => .pure hn
  refine (Exec.tells_hook _ rfl).bind fun _ _ => hrun.bind ?_
  rintro ⟨answer, n⟩ hn
  exact (Exec.tells_hook _ rfl).bind fun _ _ => .pure hn

end Frame

namespace Node
variable {s : Setting} {dt : Float32}

theorem tells_execute {n : Node H} (h : n.Wears D) :
    Exec.Tells s.scope.elapsed D (fun x => x.2.Wears D) (n.execute s dt) := by
  induction n with
  | mk f cs ih =>
    obtain ⟨hf, hcs⟩ := wears_mk.mp h
    refine Frame.tells_execute hf (forall_mem_branches.mpr fun c hc => ?_)
    exact ⟨hcs c hc, ih c hc (hcs c hc)⟩

end Node

namespace Frame
variable {fs : List (Frame H)}

def attire (fs : List (Frame H)) (k : NodeId) : List (Decorator H) :=
  ((fs.find? (·.id = k)).map (·.decorators)).getD []

theorem attire_cases (fs : List (Frame H)) (k : NodeId) :
    attire fs k = [] ∨ ∃ f ∈ fs, f.id = k ∧ attire fs k = f.decorators := by
  rw [attire]
  cases hf : fs.find? (·.id = k) with
  | none => exact .inl rfl
  | some f => exact .inr ⟨f, List.mem_of_find?_eq_some hf, by simpa using List.find?_some hf, rfl⟩

theorem find?_id {f : Frame H} (h : (fs.map (·.id)).Nodup) (hf : f ∈ fs) :
    fs.find? (·.id = f.id) = some f := by
  induction fs with
  | nil => simp at hf
  | cons g fs ih =>
    obtain ⟨hg, hfs⟩ := List.nodup_cons.mp h
    obtain rfl | hf := List.mem_cons.mp hf
    · simp
    · have hne : g.id ≠ f.id := fun e => hg (List.mem_map.mpr ⟨f, hf, e.symm⟩)
      rw [List.find?_cons_of_neg (by simpa using hne), ih hfs hf]

theorem wears_attire (h : (fs.map (·.id)).Nodup) : ∀ f ∈ fs, f.Wears (attire fs) := by
  intro f hf
  rw [Wears, attire, find?_id h hf]
  rfl

end Frame

theorem Node.wears_attire {n : Node H} (h : n.ids.Nodup) : n.Wears (Frame.attire n.frames) :=
  Frame.wears_attire h

theorem tells_act {m : Move H} (hm : ∀ change, m ≠ .outside change) {t : Rooted H}
    (h : t.root.Wears D) :
    Exec.Tells t.setting.scope.elapsed D (fun x => x.2.root.Wears D) (m.act t) := by
  cases m with
  | execute dt => exact (Node.tells_execute h).bind fun x hx => .pure hx
  | abort => exact (Node.tells_abort h).bind fun n hn => .pure hn
  | beginTick dt => exact .pure h
  | outside change => exact absurd rfl (hm change)

theorem Node.recalls_each {R : Frame H → List (Entry H.Note) → Frame H → Prop} {n : Node H}
    (distinct : n.ids.Nodup) {st st' : Stage H} {tr : List (Entry H.Note)} {gs : List (Frame H)}
    (h : Each R tr n.frames gs)
    (rows : ∀ k, Recalls now (Frame.attire n.frames k) (st.tables.row k) (own k tr)
      (st'.tables.row k))
    {g : Frame H} (hg : g ∈ gs) :
    ∃ f ∈ n.frames, f.id = g.id ∧ R f (own g.id tr) g ∧
      Recalls now f.decorators (st.tables.row g.id) (own g.id tr) (st'.tables.row g.id) := by
  obtain ⟨f, hf, hid, hR⟩ := exists_left h hg
  have hrow := rows g.id
  rw [hid, wears_attire distinct f hf, ← hid] at hrow
  rw [← hid] at hR
  exact ⟨f, hf, hid.symm, hR, hrow⟩

/-- What an execution makes of a frame and of what is remembered of it. -/
theorem Node.execute_recalls (s : Setting) (dt : Float32) {n : Node H} (h : n.Sound)
    (distinct : n.ids.Nodup) (st : Stage H) {g : Frame H}
    (hg : g ∈ (n.execute s dt st).value.2.frames) :
    let o := n.execute s dt st
    ∃ f ∈ n.frames, f.id = g.id ∧ f.Once s dt o.value.1 (own g.id o.trace) g ∧
      Recalls s.scope.elapsed f.decorators (st.tables.row g.id) (own g.id o.trace)
        (o.state.tables.row g.id) :=
  recalls_each distinct (execute_once s dt h st distinct)
    (tells_execute (wears_attire distinct) st).2 hg

theorem each_act {m : Move H} (hm : ∀ change, m ≠ .outside change) {t : Rooted H} (h : t.Proper)
    (st : Stage H) :
    Each (fun f w g => ∃ dt answer, f.Once t.setting dt answer w g) (m.act t st).trace
      t.root.frames (m.act t st).value.2.root.frames := by
  cases m with
  | execute dt =>
    have heach := (Node.execute_once t.setting dt h.sound st h.distinct).imp
      (S := fun f w g => ∃ dt answer, f.Once t.setting dt answer w g) fun f w g h => ⟨dt, _, h⟩
    simpa [Move.act] using heach
  | abort =>
    have heach := (Node.sweep_each t.setting h.distinct).imp
      (S := fun f w g => ∃ dt answer, f.Once t.setting dt answer w g)
      fun f w g h => ⟨0, .ok .failure, .missed h⟩
    have htrace := own_congr (Node.calls_abort t.setting t.root st)
    simpa [Move.act, Node.value_abort] using heach.congr fun f _ => htrace f.id
  | beginTick dt => exact .stay (fun f => ⟨0, .ok .failure, .missed .missed⟩) fun _ _ => rfl
  | outside change => exact absurd rfl (hm change)

theorem act_recalls {m : Move H} (hm : ∀ change, m ≠ .outside change) {t : Rooted H}
    (h : t.Proper) (st : Stage H) {g : Frame H} (hg : g ∈ (m.act t st).value.2.root.frames) :
    let o := m.act t st
    ∃ f ∈ t.root.frames, f.id = g.id ∧
      (∃ dt answer, f.Once t.setting dt answer (own g.id o.trace) g) ∧
      Recalls t.setting.scope.elapsed f.decorators (st.tables.row g.id) (own g.id o.trace)
        (o.state.tables.row g.id) :=
  Node.recalls_each h.distinct (each_act hm h st)
    (tells_act hm (Node.wears_attire h.distinct) st).2 hg

theorem within_act (m : Move H) {t : Rooted H} (h : t.root.Sound) (st : Stage H) :
    Within t.root.ids (m.act t st).trace := by
  cases m with
  | execute dt =>
    have hwithin := Node.within_execute t.setting dt h st
    simpa [Move.act] using hwithin
  | abort =>
    have hwithin := Node.within_sweep t.setting t.root
    rw [← Node.calls_abort t.setting t.root st, within_calls] at hwithin
    simpa [Move.act] using hwithin
  | beginTick dt => exact fun e he => by cases he
  | outside change => exact fun e he => by cases he

theorem within_play (ms : List (Move H)) {t : Rooted H} (h : t.root.Sound) (st : Stage H) :
    Within t.root.ids (play ms t st).trace := by
  induction ms generalizing t st with
  | nil => exact fun e he => by cases he
  | cons m ms ih =>
    rw [play_cons, within_append]
    refine ⟨within_act m h st, ?_⟩
    rw [← Node.ids_eq_of_shape (shape_act m h st)]
    exact ih (sound_act m h st) _

theorem act_elsewhere {m : Move H} (hm : ∀ change, m ≠ .outside change) {t : Rooted H}
    (h : t.Proper) (st : Stage H) {k : NodeId} (hk : k ∉ t.root.ids) :
    own k (m.act t st).trace = [] ∧ (m.act t st).state.tables.row k = st.tables.row k := by
  have hown := (within_act m h.sound st).own_eq_nil hk
  have hrow := (tells_act hm (Node.wears_attire h.distinct) st).2 k
  rw [hown] at hrow
  exact ⟨hown, recalls_nil.mp hrow⟩

end TickTree
