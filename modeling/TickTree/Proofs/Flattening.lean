import TickTree.Proofs.Cursors
import TickTree.Proofs.Telling
/-! Flattening. A selector with neither decorators nor services, within a selector, may as well be
replaced by its children: every run gives the same answers, and whoever does not see the inner
selector is told the same. -/
namespace TickTree
variable {H : Host} {q : NodeId}

open Vantage (apart)

namespace Frame

def pointing (i : Nat) (f : Frame H) : Frame H := { f with behavior := .selector i }

@[simp] theorem active_pointing (i : Nat) (f : Frame H) : (f.pointing i).active = f.active := rfl

def Plain (f : Frame H) : Prop := ∀ d, .custom d ∈ f.decorators → H.modifier d = none

variable {s : Setting} {dt : Float32} {r : Status}

theorem isTerminal_modify {v : View} {slot : Nat} {ds : List (Decorator H)}
    (h : ∀ d, .custom d ∈ ds → H.modifier d = none) (hr : r.isTerminal = true) (st : Stage H) :
    (modify s v dt slot ds r st).value.isTerminal = true := by
  induction ds generalizing slot r st with
  | nil => exact hr
  | cons d ds ih =>
    have hlater : ∀ d, .custom d ∈ ds → H.modifier d = none := fun d hd =>
      h d (List.mem_cons_of_mem _ hd)
    cases d with
    | cooldown c => exact ih hlater hr st
    | timeout o =>
      have hnot : r ≠ .running := by
        rintro rfl
        cases hr
      refine ih hlater ?_ _
      simpa [Timeout.modify, hnot] using hr
    | inverter => exact ih hlater (by simpa using hr) _
    | custom d =>
      rw [modify, Decorator.modifier, h d List.mem_cons_self]
      exact ih hlater hr st

end Frame

/-- The first tree has a bare selector in a selector somewhere, and the second has its children
instead, at any time of a run. -/
inductive Flat (q : NodeId) : Node H → Node H → Prop
  | same {f : Frame H} {cs ds : List (Node H)} (h : List.Forall₂ (Flat q) cs ds) :
    Flat q (.mk f cs) (.mk f ds)
  | here {f : Frame H} {i j : Nat} {cs ds : List (Node H)} (plain : f.Plain)
    (h : Spliced q (f.active = true) i j cs ds) :
    Flat q (.mk (f.pointing i) cs) (.mk (f.pointing j) ds)

namespace Outer
variable {s : Setting} {f : Frame H} {i j : Nat} {cs ds : List (Node H)} {dt : Float32} {r : Status}

theorem sim_abortFrame (f : Frame H) (i j : Nat) :
    (apart H q).Sim (fun a b => a = f.ended.pointing i ∧ b = f.ended.pointing j)
      ((f.pointing i).abort s) ((f.pointing j).abort s) := by
  intro st st' hst
  obtain rfl := Vantage.stages_apart.mp hst
  exact ⟨⟨rfl, rfl⟩, Vantage.stages_apart.mpr rfl, rfl⟩

theorem sim_abort (plain : f.Plain) (h : Spliced q (f.active = true) i j cs ds) :
    (apart H q).Sim (Flat q) ((Node.mk (f.pointing i) cs).abort s)
      ((Node.mk (f.pointing j) ds).abort s) := by
  rw [Node.abort, Node.abort, Frame.active_pointing, Frame.active_pointing]
  by_cases hf : f.active = true
  · rw [if_pos hf, if_pos hf]
    refine h.sim_abortAll.bind fun cs ds hcs => (sim_abortFrame f i j).bind ?_
    rintro _ _ ⟨rfl, rfl⟩
    exact .pure (.here plain (hcs.of_idle not_false (by simp [Frame.ended]) i j))
  · rw [if_neg hf, if_neg hf]
    exact .pure (.here plain h)

theorem sim_conclude (plain : f.Plain) {p : Prop} (h : Spliced q p i j cs ds) :
    (apart H q).Sim (Flat q) ((f.pointing i).conclude s r cs) ((f.pointing j).conclude s r ds) := by
  refine (Vantage.sim_hook _ _).seq fun _ => ?_
  have hreset : (apart H q).Sim (fun b b' => b = .selector 0 ∧ b' = .selector 0)
      ((f.pointing i).behavior.finish s r) ((f.pointing j).behavior.finish s r) := .pure ⟨rfl, rfl⟩
  refine hreset.bind ?_
  rintro _ _ ⟨rfl, rfl⟩
  refine h.sim_abortAll.bind fun cs ds hcs => ?_
  have hended (st : Stage H) :
      ((f.pointing 0).endActivation s r st).value = f.ended.pointing 0 := rfl
  refine (Vantage.sim_same (P := (· = f.ended.pointing 0)) hended).bind ?_
  rintro _ _ ⟨rfl, rfl⟩
  refine (Vantage.sim_tellFinished Vantage.settings_rfl _ _ _ _).seq fun _ => ?_
  exact .pure (.here plain (hcs.of_idle not_false (by simp [Frame.ended]) 0 0))

theorem sim_activate (n n' : Nat) (plain : f.Plain)
    (h : Spliced q (f.active = true) i j cs ds) :
    (apart H q).Sim (fun a b => a.1 = .ok () ∧ b.1 = .ok () ∧ ∃ g : Frame H, ∃ i j,
        a.2 = g.pointing i ∧ b.2 = g.pointing j ∧ g.Plain ∧ g.active = true ∧
        Spliced q True i j cs ds)
      ((f.pointing i).activate s n) ((f.pointing j).activate s n') := by
  rw [Frame.activate, Frame.activate, Frame.active_pointing, Frame.active_pointing]
  by_cases hf : f.active = true
  · rw [if_pos hf, if_pos hf]
    exact .pure ⟨rfl, rfl, f, i, j, rfl, rfl, plain, hf, h.of_iff (by simp [hf])⟩
  · rw [if_neg hf, if_neg hf]
    refine (Vantage.sim_notify Vantage.settings_rfl _).seq fun _ => ?_
    refine (Vantage.sim_hook _ _).seq fun _ => ?_
    have hstart : (apart H q).Sim
        (fun a b => a = (.ok (), .selector 0) ∧ b = (.ok (), .selector 0))
        ((f.pointing i).behavior.start s (f.begun f.behavior).view n)
        ((f.pointing j).behavior.start s (f.begun f.behavior).view n') := .pure ⟨rfl, rfl⟩
    refine hstart.bind ?_
    rintro _ _ ⟨rfl, rfl⟩
    refine (Vantage.sim_attach Vantage.settings_rfl _ _ _).seq fun _ => ?_
    exact .pure ⟨rfl, rfl, { f with active := true, time := 0, services := _ }, 0, 0, rfl, rfl,
      plain, rfl, h.start hf⟩

theorem sim_advance {bs bs' : List (Branch H)} (plain : f.Plain) (hf : f.active = true)
    (h : ∀ v, (apart H q).Sim (Branch.Ticked q) ((Behavior.selector i).tick s v dt bs)
      ((Behavior.selector j).tick s v dt bs')) :
    (apart H q).Sim (SameAnswer (Flat q)) ((f.pointing i).advance s dt bs)
      ((f.pointing j).advance s dt bs') := by
  refine (Vantage.sim_serve Vantage.settings_rfl _ _ _ _).seq fun as => ?_
  refine (Vantage.sim_hook _ _).seq fun _ => (h _).bind ?_
  rintro ⟨raw, _, bs⟩ ⟨_, _, bs'⟩ ⟨rfl, i, j, rfl, rfl, hspliced⟩
  refine (Vantage.sim_hook _ _).seq fun _ => ?_
  have hgoes (time : Float32) (hraw : Going raw) :
      Flat q (.mk (Frame.pointing i { f with services := as, time := time }) (bs.map (·.node)))
        (.mk (Frame.pointing j { f with services := as, time := time }) (bs'.map (·.node))) :=
    .here plain (hspliced.of_iff (by simp [hf, hraw]))
  cases raw with
  | error stop => exact .pure ⟨rfl, hgoes f.time (going_error stop)⟩
  | ok raw =>
    have hmodify (st : Stage H) : raw.isTerminal = true →
        (Frame.modify s f.view dt 0 f.decorators raw st).value.isTerminal = true := fun hraw =>
      Frame.isTerminal_modify plain hraw st
    refine (Vantage.sim_same (P := fun result => raw.isTerminal = true → result.isTerminal = true)
      hmodify).bind ?_
    rintro result _ ⟨rfl, hresult⟩
    dsimp only
    by_cases hr : result.isTerminal = true
    · rw [if_pos hr, if_pos hr]
      have hconclude : (apart H q).Sim (Flat q)
          ((Frame.pointing i { f with services := as, time := f.time + dt }).conclude s result
            (bs.map (·.node)))
          ((Frame.pointing j { f with services := as, time := f.time + dt }).conclude s result
            (bs'.map (·.node))) := sim_conclude plain hspliced
      exact hconclude.bind fun n m hn => .pure ⟨rfl, hn⟩
    -- an activation that goes on has not been kept going by a modifier
    · rw [if_neg hr, if_neg hr]
      have hraw : raw.isTerminal = false := Bool.eq_false_iff.mpr fun hraw => hr (hresult hraw)
      exact .pure ⟨rfl, hgoes (f.time + dt) (going_ok.mpr hraw)⟩

theorem sim_run {bs bs' : List (Branch H)} (plain : f.Plain)
    (h : Spliced q (f.active = true) i j (bs.map (·.node)) (bs'.map (·.node)))
    (htick : ∀ i j v, Spliced q True i j (bs.map (·.node)) (bs'.map (·.node)) →
      (apart H q).Sim (Branch.Ticked q) ((Behavior.selector i).tick s v dt bs)
        ((Behavior.selector j).tick s v dt bs')) :
    (apart H q).Sim (SameAnswer (Flat q)) ((f.pointing i).run s dt bs)
      ((f.pointing j).run s dt bs') := by
  refine (Vantage.sim_guards Vantage.settings_rfl _ _ _).seq fun passed => ?_
  cases passed with
  | false =>
    refine (Vantage.sim_report _).seq fun _ => ?_
    exact (sim_abort plain h).bind fun n m hn => .pure ⟨rfl, hn⟩
  | true =>
    refine (sim_activate bs.length bs'.length plain h).bind ?_
    rintro ⟨_, _⟩ ⟨_, _⟩ ⟨rfl, rfl, g, i, j, rfl, rfl, plain, hg, hspliced⟩
    exact sim_advance plain hg fun v => htick i j v hspliced

end Outer

namespace Flat
variable {n m : Node H} {s : Setting} {dt : Float32}

theorem view_eq (h : Flat q n m) : n.view = m.view := by cases h <;> rfl

protected theorem refl (n : Node H) : Flat q n n := by
  induction n with
  | mk f cs ih => exact .same (List.forall₂_same.mpr ih)

theorem of_over (h : Node.Over (Flat q) n m) : Flat q n m := by
  obtain ⟨f, cs⟩ := n
  obtain ⟨g, ds⟩ := m
  obtain ⟨rfl, h⟩ := h
  exact .same h

end Flat

theorem Spliced.sim_tick {i j : Nat} {cs ds : List (Node H)} {s : Setting} {dt : Float32} {v : View}
    (h : Spliced q True i j cs ds) (sound : ∀ c ∈ cs, c.Sound) :
    (apart H q).Sim (Branch.Ticked q)
      ((Behavior.selector i).tick s v dt (Node.branches s dt cs))
      ((Behavior.selector j).tick s v dt (Node.branches s dt ds)) := by
  cases h with
  | @mk g xs qs ys inner idle places =>
    have hqs : ∀ c ∈ qs, c.Sound := (Node.all_mk.mp (sound (.mk g qs) (by simp))).2
    have hinner : Inner q g ((Node.branches s dt qs).map (·.node)) := by
      rwa [Node.map_node_branches]
    have hplaces : Places g (Node.branches s dt xs).length (Node.branches s dt qs).length
        (Node.branches s dt ys).length i j := by simpa using places trivial
    have htick := Branch.sim_tick s dt (v := v) hinner (Branch.honest_branches hqs) hplaces
    have hnested : Branch.nested s dt g (Node.branches s dt qs) =
        ⟨.mk g qs, (Node.mk g qs).execute s dt⟩ := by
      rw [Branch.nested, Node.map_node_branches, Node.execute]
    rw [hnested] at htick
    simpa [Node.branches_eq_map] using htick

namespace Flat
variable {n m : Node H} {s : Setting} {dt : Float32}

theorem sim_abort (h : Flat q n m) : (apart H q).Sim (Flat q) (n.abort s) (m.abort s) := by
  induction n generalizing m with
  | mk f cs ih =>
    cases h with
    | here plain h => exact Outer.sim_abort plain h
    | same h =>
      have hcs := ((List.forall₂_and_left _ _).mpr ⟨ih, h⟩).imp fun c d h => And.intro h.2 (h.1 h.2)
      exact (Vantage.sim_abort Vantage.settings_rfl hcs).imp fun _ _ => of_over

theorem sim_execute_here {f : Frame H} {i j : Nat} {cs ds : List (Node H)} (plain : f.Plain)
    (h : Spliced q (f.active = true) i j cs ds) (sound : ∀ c ∈ cs, c.Sound) :
    (apart H q).Sim (SameAnswer (Flat q)) ((Node.mk (f.pointing i) cs).execute s dt)
      ((Node.mk (f.pointing j) ds).execute s dt) := by
  refine (Vantage.sim_hook _ _).seq fun _ => ?_
  have hrun : (apart H q).Sim (SameAnswer (Flat q))
      ((f.pointing i).run s dt (Node.branches s dt cs))
      ((f.pointing j).run s dt (Node.branches s dt ds)) := by
    refine Outer.sim_run plain (by simpa using h) fun i j v h => ?_
    rw [Node.map_node_branches, Node.map_node_branches] at h
    exact h.sim_tick sound
  refine hrun.bind ?_
  rintro ⟨answer, n⟩ ⟨_, m⟩ ⟨rfl, hn⟩
  have hview : n.view = m.view := hn.view_eq
  simp only [hview]
  exact (Vantage.sim_hook _ _).seq fun _ => .pure ⟨rfl, hn⟩

/-- Executing the trees gives the same answer, and is the same to all but the inner selector. -/
theorem sim_execute (sound : n.Sound) (h : Flat q n m) :
    (apart H q).Sim (SameAnswer (Flat q)) (n.execute s dt) (m.execute s dt) := by
  induction n generalizing m with
  | mk f cs ih =>
    obtain ⟨-, hcs⟩ := Node.all_mk.mp sound
    cases h with
    | here plain h => exact sim_execute_here plain h hcs
    | same h =>
      have hchildren := (List.forall₂_and_left _ _).mpr ⟨fun c hc m => ih c hc (hcs c hc) (m := m), h⟩
      have htwins := hchildren.imp fun c d h => And.intro h.2 (h.1 d h.2)
      exact (Vantage.sim_execute Vantage.settings_rfl (fun _ _ => sim_abort) htwins).imp
        fun _ _ h => ⟨h.1, of_over h.2⟩

end Flat

/-- In the second tree the children of a selector stand where the first has the selector itself,
which has neither decorators nor services and is the child of a selector. -/
inductive Flattens (q : NodeId) : Node H → Node H → Prop
  | here {f g : Frame H} {k l : Nat} (xs qs ys : List (Node H)) (outer : f.behavior = .selector k)
    (plain : f.Plain) (id : g.id = q) (inner : g.behavior = .selector l)
    (undecorated : g.decorators = []) (unserved : g.services = []) :
    Flattens q (.mk f (xs ++ .mk g qs :: ys)) (.mk f (xs ++ qs ++ ys))
  | deeper {f : Frame H} {c d : Node H} (xs ys : List (Node H)) (h : Flattens q c d) :
    Flattens q (.mk f (xs ++ c :: ys)) (.mk f (xs ++ d :: ys))

theorem Flattens.frames_subset {n m : Node H} (h : Flattens q n m) : m.frames ⊆ n.frames := by
  induction h with
  | here =>
    simp only [Node.frames_mk, List.flatMap_append, List.flatMap_cons]
    grind
  | deeper xs ys h ih =>
    simp only [Node.frames_mk, List.flatMap_append, List.flatMap_cons]
    grind

theorem Flattens.flat {n m : Node H} (h : Flattens q n m) (idle : n.Idle) : Flat q n m := by
  induction h with
  | @here f g k l xs qs ys outer plain id inner undecorated unserved =>
    have hf : f.active = false := Node.isActive_of_idle idle
    have hnested : (Node.mk g qs).Idle := idle.below _ (by simp)
    have hg : g.active = false := Node.isActive_of_idle hnested
    have hbare : g = .bareSelector q g.name l false g.time := by
      rw [Frame.bareSelector, ← id, ← inner, ← undecorated, ← unserved, ← hg]
    have hinner : Inner q g qs := hbare ▸
      .of_ended fun c hc => Node.isActive_of_idle (hnested.below c hc)
    have hk : f.pointing k = f := by rw [Frame.pointing, ← outer]
    have hspliced : Spliced q (f.active = true) k k (xs ++ .mk g qs :: ys) (xs ++ qs ++ ys) :=
      .mk hinner (fun _ => hg) (by simp [hf])
    simpa [hk] using Flat.here plain hspliced
  | @deeper f c d xs ys h ih =>
    have hsame (ns : List (Node H)) : List.Forall₂ (Flat q) ns ns :=
      List.forall₂_same.mpr fun n _ => .refl n
    exact .same (List.rel_append (hsame xs) (.cons (ih (idle.below c (by simp))) (hsame ys)))

def Rooted.Flat (q : NodeId) (t u : Rooted H) : Prop :=
  t.setting = u.setting ∧ TickTree.Flat q t.root u.root

namespace Rooted
variable {t u : Rooted H}

theorem sim_act (h : t.Flat q u) (sound : t.root.Sound) (m : Move H) :
    (apart H q).Sim (fun a b => a.1 = b.1 ∧ a.2.Flat q b.2) (m.act t) (m.act u) := by
  obtain ⟨s, n⟩ := t
  obtain ⟨_, n'⟩ := u
  obtain ⟨rfl, h⟩ := h
  cases m with
  | execute dt =>
    refine (h.sim_execute sound).bind ?_
    rintro ⟨answer, n⟩ ⟨_, n'⟩ ⟨rfl, h⟩
    exact .pure ⟨rfl, rfl, h⟩
  | abort => exact h.sim_abort.bind fun n n' h => .pure ⟨rfl, rfl, h⟩
  | beginTick dt => exact .pure ⟨rfl, rfl, h⟩
  | outside change => exact (Vantage.sim_refl _).seq fun _ => .pure ⟨rfl, rfl, h⟩

theorem sim_play (h : t.Flat q u) (sound : t.root.Sound) (ms : List (Move H)) :
    (apart H q).Sim (fun a b => a.1 = b.1 ∧ a.2.Flat q b.2) (play ms t) (play ms u) := by
  induction ms generalizing t u with
  | nil => exact .pure ⟨rfl, h⟩
  | cons m ms ih =>
    refine ((sim_act h sound m).and (P := fun a => a.2.root.Sound) (sound_act m sound)).bind ?_
    rintro ⟨answers, t⟩ ⟨_, u⟩ ⟨⟨rfl, h⟩, sound⟩
    refine (ih h sound).bind ?_
    rintro ⟨more, t⟩ ⟨_, u⟩ ⟨rfl, h⟩
    exact .pure ⟨rfl, h⟩

end Rooted

/-- Whatever is done with the two trees, they answer the same in every move and leave everything
else the same, and what is told but not of the inner selector is the same. Of the second tree this
is everything, unless another node has the same id. -/
theorem flattened_of_play {n m : Node H} (flattens : Flattens q n m) (idle : n.Idle)
    (ms : List (Move H)) (s : Setting) (st : Stage H) :
    let o := play ms ⟨s, n⟩ st
    let o' := play ms ⟨s, m⟩ st
    let apart := o.trace.filter fun e => e.about ≠ some q
    o.value.1 = o'.value.1 ∧ o.state = o'.state ∧
      apart = (o'.trace.filter fun e => e.about ≠ some q) ∧ (q ∉ m.ids → apart = o'.trace) := by
  have hflat : Rooted.Flat q ⟨s, n⟩ ⟨s, m⟩ := ⟨rfl, flattens.flat idle⟩
  have hidle : m.Idle := fun f hf => idle f (flattens.frames_subset hf)
  obtain ⟨⟨hanswers, -⟩, hstate, htrace⟩ :=
    Rooted.sim_play hflat (Node.sound_of_idle idle) ms st st (Vantage.stages_apart.mpr rfl)
  rw [Vantage.see_apart, Vantage.see_apart] at htrace
  refine ⟨hanswers, Vantage.stages_apart.mp hstate, htrace, fun hq => htrace.trans ?_⟩
  rw [List.filter_eq_self]
  intro e he
  have hwithin := within_play ms (t := ⟨s, m⟩) (Node.sound_of_idle hidle) st e he q
  exact decide_eq_true fun habout => hq (hwithin habout)

namespace Rooted

theorem limit_pos : (0 : Float32) < 2 := by decide

def outer : Frame Host.echo :=
  { Frame.idle 2 "" (.selector 0) with decorators := [.inverter, .timeout ⟨7, 2, limit_pos⟩] }

def leaf (id : NodeId) (result : Status) : Node Host.echo := .mk (.idle id "" (.action result)) []

def nested : Node Host.echo :=
  .mk (.idle 1 "" (.sequence 0))
    [.mk outer [leaf 3 .failure, .mk (.idle 4 "" (.selector 0)) [leaf 5 .failure, leaf 6 .running],
      leaf 7 .success]]

def flat : Node Host.echo :=
  .mk (.idle 1 "" (.sequence 0))
    [.mk outer [leaf 3 .failure, leaf 5 .failure, leaf 6 .running, leaf 7 .success]]

end Rooted

/-- The time limit ends an activation in which the inner selector is active, and then an abort. -/
theorem flattened_of_play_echo :
    let ms : List (Move Host.echo) := [.execute 1, .execute 1, .execute 1, .abort]
    let o := play ms ⟨Rooted.echo.setting, Rooted.nested⟩ Rooted.still
    let o' := play ms ⟨Rooted.echo.setting, Rooted.flat⟩ Rooted.still
    Flattens 4 Rooted.nested Rooted.flat ∧ Rooted.nested.Idle ∧ 4 ∉ Rooted.flat.ids ∧
      o'.value.1 = [.ok .running, .ok .failure, .ok .running] ∧ o.value.1 = o'.value.1 ∧
      (o.trace.filter fun e => e.about ≠ some 4) = o'.trace := by
  intro ms o o'
  have hflattens : Flattens 4 Rooted.nested Rooted.flat := by
    refine .deeper [] [] (.here [_] _ [_] rfl ?_ rfl rfl rfl rfl)
    exact fun _ _ => rfl
  have hidle : Rooted.nested.Idle := by decide
  have hids : 4 ∉ Rooted.flat.ids := by decide
  have hanswers : o'.value.1 = [.ok .running, .ok .failure, .ok .running] := by decide +kernel
  obtain ⟨hsame, -, -, htrace⟩ :=
    flattened_of_play hflattens hidle ms Rooted.echo.setting Rooted.still
  exact ⟨hflattens, hidle, hids, hanswers, hsame, htrace hids⟩

end TickTree
