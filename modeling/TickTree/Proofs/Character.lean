import TickTree.Npc.Host
import TickTree.Proofs.Boards
import TickTree.Proofs.Firmness
import TickTree.Proofs.Upholding
/-! The sample character never fails and never stops, whatever happens to the boards between ticks.
Of its branches the last does not fail, and the guard of the first lets only such boards through as
its action can write to. -/
namespace TickTree.Npc

section Host
variable (s : Scope) (v : View) (r : Reach host.State) (w : World host.State)

@[simp] theorem start_host (a : host.Action) : host.start a s r = ⟨a, r, []⟩ := rfl

@[simp] theorem tick_host (a : host.Action) (dt : Float32) : host.tick a s dt r =
    ⟨((flee s dt r.world).1, a), { r with world := (flee s dt r.world).2 }, []⟩ := rfl

@[simp] theorem finish_host (a : host.Action) (x : Status) : host.finish a s x r = ⟨a, r, []⟩ := rfl

@[simp] theorem allows_host (g : Guard) :
    host.allows g s v w = ⟨g.holds (w.board s.global), w, []⟩ := rfl

@[simp] theorem modifier_host (g : Guard) : host.modifier g = none := rfl

@[simp] theorem finished_host (g : Guard) (x : Status) :
    host.finished g s v x w = ⟨(), w, []⟩ := rfl

@[simp] theorem aborted_host (g : Guard) : host.aborted g s v w = ⟨(), w, []⟩ := rfl

end Host

theorem spares_host {C : Scope → Prop} {W : World host.State → Prop} : host.Spares C W where
  finish _ _ _ _ _ h := h
  finished _ _ _ _ _ _ h := h
  aborted _ _ _ _ _ h := h
  detached _ _ _ _ _ h := h

theorem world_conclude (s : Setting) (r : Status) (f : Frame host) (cs : List (Node host))
    (st : Stage host) : (f.conclude s r cs st).state.world = st.world :=
  Frame.upholds_conclude (C := fun _ => True) (W := (· = st.world)) spares_host trivial r f cs st rfl

/-- Health that is low has been written as such: a key that is free or bound to another kind stands
for full health. -/
theorem get?_of_hurt {b : Board} (h : health b < lowHealth) :
    ∃ x, b.get? healthKey .f32 = some x := by
  rw [health, Board.getD] at h
  cases hx : b.get? healthKey .f32 with
  | some x => exact ⟨x, rfl⟩
  | none =>
    rw [hx] at h
    exact absurd h (by decide +kernel)

theorem set_of_get? {b : Board} {key : UInt32} {k : Kind} {x : k.Val} (h : b.get? key k = some x)
    (v : k.Val) : b.set key k v = .ok (b.reset key k v) := by
  rw [Board.get?_eq] at h
  rw [Board.set_eq]
  cases hs : Reading.of (b.slot? key) k with
  | absent => rfl
  | bound u => rfl
  | foreign held =>
    rw [hs] at h
    cases h

def regained (dt : Float32) (b : Board) : Float32 := atMost maxHealth (health b + regeneration * dt)

theorem flee_of_hurt {σ : Type} {s : Scope} {w : World σ}
    (h : health (w.board s.global) < lowHealth) (dt : Float32) :
    flee s dt w =
      if w.isCancelled s.signal then (.ok .failure, w)
      else (.ok (if safeHealth ≤ regained dt (w.board s.global) then .success else .running),
        w.putBoard s.global
          ((w.board s.global).reset healthKey .f32 (regained dt (w.board s.global)))) := by
  obtain ⟨x, hx⟩ := get?_of_hurt h
  rw [flee]
  split
  · rfl
  · dsimp only
    rw [set_of_get? hx]
    rfl

theorem flee_ok {σ : Type} {s : Scope} {w : World σ} (h : health (w.board s.global) < lowHealth)
    (dt : Float32) : ∃ r, (flee s dt w).1 = .ok r := by
  rw [flee_of_hurt h]
  split <;> exact ⟨_, rfl⟩

structure Fleer (f : Frame host) : Prop where
  decorators : f.decorators = [.custom .badlyHurt]
  services : f.services = []
  action : f.behavior.make = .action

theorem Fleer.of_plan {f g : Frame host} (hf : Fleer f) (h : g.plan = f.plan) : Fleer g := by
  obtain ⟨hbare, hmake⟩ := Frame.plan_eq_iff.mp h
  exact ⟨(Frame.decorators_eq_of_bare hbare).trans hf.decorators,
    Frame.services_eq_nil_of_bare hbare hf.services, hmake.trans hf.action⟩

section Execute
variable {f : Frame host} {cs : List (Node host)} {s : Setting} {dt : Float32} {st : Stage host}

theorem execute_refused (hf : Fleer f) (h : ¬ health (st.world.board s.scope.global) < lowHealth) :
    let o := (Node.mk f cs).execute s dt st
    o.value = (.ok .failure, (Node.mk f cs).settle) ∧
      .hook f.view (.guarded 0 false) ∈ o.trace := by
  obtain ⟨id, name, ds, as, b, active, time⟩ := f
  obtain ⟨rfl, rfl, -⟩ := hf
  have hrefused : Guard.badlyHurt.holds (st.world.board s.scope.global) = false := by
    simpa [Guard.holds] using h
  simp [Node.execute, Frame.execute, Frame.run, Frame.guards, Decorator.allows, hrefused,
    Node.value_abort]

theorem execute_hurt (hf : Fleer f) (h : health (st.world.board s.scope.global) < lowHealth) :
    let o := (Node.mk f cs).execute s dt st
    let v : View := ⟨f.id, f.name, true, if f.active then f.time else 0⟩
    o.value.1 = (flee s.scope dt st.world).1.mapError .failed ∧
      o.state.world = (flee s.scope dt st.world).2 ∧
      .hook v (.ticked dt) ∈ o.trace ∧ .hook v (.answered o.value.1) ∈ o.trace := by
  obtain ⟨id, name, ds, as, b, active, time⟩ := f
  obtain ⟨rfl, rfl, hb⟩ := hf
  obtain ⟨a, rfl⟩ : ∃ a, b = .action a := by
    cases b with
    | action a => exact ⟨a, rfl⟩
    | _ => cases hb
  have hpassed : Guard.badlyHurt.holds (st.world.board s.scope.global) = true := by
    simpa [Guard.holds] using h
  obtain ⟨r, hr⟩ := flee_ok h dt
  cases active
  all_goals
    simp [Node.execute, Frame.execute, Frame.run, Frame.guards, Decorator.allows, hpassed,
      Frame.activate, Behavior.start, Frame.attach, Frame.advance, Frame.serve, Behavior.tick, hr,
      Except.mapError, Frame.view, Frame.modify, Decorator.modifier]
    by_cases hterminal : r.isTerminal = true <;> simp [hterminal, world_conclude]

end Execute

theorem Fleer.sure {f : Frame host} (hf : Fleer f) : Frame.Sure f.plan := by
  intro g cs s dt st hg
  have hg := hf.of_plan hg
  by_cases h : health (st.world.board s.scope.global) < lowHealth
  · obtain ⟨r, hr⟩ := flee_ok h dt
    refine ⟨r, ?_⟩
    rw [(execute_hurt hg h).1, hr]
    rfl
  · exact ⟨.failure, by rw [(execute_refused hg h).1]⟩

theorem span_swing : Span 0.3 ∧ Span 0 := by decide +kernel

theorem span_patrol : Span 1 ∧ Span 0.5 := by decide +kernel

theorem span_lookAround : Span 0.5 ∧ Span 0.25 := by decide +kernel

theorem span_recovery : Span 2 := by decide +kernel

theorem positive_limit : (0 : Float32) < 3 := by decide +kernel

def fleer (id : NodeId) : Frame host :=
  { Frame.idle id "Flee" (.action ()) with decorators := [.custom .badlyHurt] }

def fighter (ids : Supply) : Node host :=
  .mk { Frame.idle (H := host) (ids.node + 4) "Combat" (.parallel .all .any) with
        decorators := [.custom .enemyVisible, .cooldown ⟨ids.decorator, 2, span_recovery⟩,
          .timeout ⟨ids.decorator + 1, 3, positive_limit⟩]
        services := [.idle ⟨0.5, ()⟩] }
    [.mk (.idle (ids.node + 1) "EnemyInSight" (.condition ())) [],
      .mk (.idle (ids.node + 3) "Repeat x3" (.repeater ⟨some 3, false, 0⟩))
        [.mk (.idle (ids.node + 2) "Swing" (.wait ⟨0.3, 0, 0.3, 0, span_swing⟩)) []]]

def wanderer (ids : Supply) : Node host :=
  .mk (.idle (ids.node + 8) "Wander" (.randomSelector 0 []))
    [.mk (.idle (ids.node + 6) "Patrol" (.wait ⟨1, 0.5, 1, 0, span_patrol⟩)) [],
      .mk (.idle (ids.node + 7) "LookAround" (.wait ⟨0.5, 0.25, 0.5, 0, span_lookAround⟩)) [],
      .mk { Frame.idle (H := host) (ids.node + 5) "Rest" (.condition ()) with
            decorators := [.inverter] } []]

def character (ids : Supply) : Node host :=
  .mk (.idle (ids.node + 9) "Npc" (.selector 0))
    [.mk (fleer ids.node) [], fighter ids, wanderer ids]

theorem run_tree (ids : Supply) : ((tree parts).run ids).1 = .ok (character ids) := rfl

theorem fleer_fleer (id : NodeId) : Fleer (fleer id) := ⟨rfl, rfl, rfl⟩

theorem sure_character (ids : Supply) : (character ids).Sure := by
  have hpatrol : (Rng.scale? 0.5).isSome := by decide +kernel
  have hlookAround : (Rng.scale? 0.25).isSome := by decide +kernel
  have hswing : ¬ (0 : Float32) < 0 := by decide +kernel
  refine Node.sure_mk.mpr ⟨.inl trivial, ?_⟩
  simp only [fighter, wanderer, List.forall_mem_cons, Node.sure_mk, List.not_mem_nil,
    IsEmpty.forall_iff, implies_true, and_true]
  exact ⟨.inr (fleer_fleer ids.node).sure,
    ⟨.inl trivial, .inl trivial, .inl trivial, .inl fun h => absurd h hswing⟩,
    .inl trivial, .inl fun _ => hpatrol, .inl fun _ => hlookAround, .inl trivial⟩

/-- Wandering comes to a wait in every order, and the character comes to wandering. -/
theorem firm_character (ids : Supply) : (character ids).Firm := by
  have hwanderer : (wanderer ids).Firm :=
    .selects (k := 0) rfl trivial rfl (.waits rfl trivial) nofun
  exact .selects (k := 2) rfl trivial rfl hwanderer nofun

structure Steady (n : Node host) : Prop where
  sound : n.Sound
  sure : n.Sure
  firm : n.Firm

theorem steady_execute (n : Node host) (s : Setting) (dt : Float32) (st : Stage host)
    (h : Steady n) : Steady (n.execute s dt st).value.2 :=
  ⟨Node.sound_execute s dt h.sound st,
    fun p hp => h.sure p (Node.plans_execute s dt h.sound st ▸ hp),
    (Node.firm_execute s dt h.sound h.firm st).2⟩

theorem steady_settle (n : Node host) (h : Steady n) : Steady n.settle :=
  ⟨Node.sound_settle h.sound, fun p hp => h.sure p (n.plans_settle ▸ hp), Node.firm_settle h.firm⟩

theorem idle_character (ids : Supply) : (character ids).Idle := by
  simp [character, fleer, fighter, wanderer, Node.Idle, Frame.idle]

theorem steady_character (ids : Supply) : Steady (character ids) :=
  ⟨Node.sound_of_idle (idle_character ids), sure_character ids, firm_character ids⟩

theorem Steady.answer {n : Node host} (h : Steady n) (s : Setting) (dt : Float32)
    (st : Stage host) : (n.execute s dt st).value.1 = .ok .success ∨
      (n.execute s dt st).value.1 = .ok .running := by
  obtain ⟨r, hr⟩ := Node.execute_ok s dt h.sound h.sure st
  have hfirm := (Node.firm_execute s dt h.sound h.firm st).1
  rw [hr] at hfirm ⊢
  cases r with
  | success => exact .inl rfl
  | running => exact .inr rfl
  | failure => exact absurd rfl hfirm

/-- The tree of the character can be built. Whatever a host does with it and with the world, in any
context, the next tick of it, if it is going, answers with a success or that it goes on. A guard
that lets flight through has found health on the board, which can then be written. -/
theorem steady_of_tend (ids : Supply) (context : Context) (ds : List (Deed host)) (r : Realm host) :
    (∃ root, ((tree parts).run ids).1 = .ok root ∧
      let o := tend ds [Instance.ofRoot root context] r
      ∀ i ∈ o.value.2, i.active = true → ∀ dt,
        (i.tick dt o.state).value.1 = .ok .success ∨ (i.tick dt o.state).value.1 = .ok .running) ∧
    ∀ b, Guard.badlyHurt.holds b = true → (∃ x, b.get? healthKey .f32 = some x) ∧
      ∀ x, b.set healthKey .f32 x = .ok (b.reset healthKey .f32 x) := by
  refine ⟨⟨character ids, run_tree ids, ?_⟩, ?_⟩
  · intro o i hi hactive dt
    have hstart : ∀ j ∈ [Instance.ofRoot (character ids) context], Steady j.root := by
      intro j hj
      rw [List.mem_singleton.mp hj]
      exact steady_character ids
    have hroots := roots_tend steady_execute steady_settle ds hstart r
    rw [(Instance.tick_of_active hactive dt o.state).1]
    exact (hroots i hi).answer _ dt _
  · intro b hb
    obtain ⟨x, hx⟩ := get?_of_hurt (by simpa [Guard.holds] using hb)
    exact ⟨⟨x, hx⟩, set_of_get? hx⟩

def hurtRealm : Realm host :=
  ⟨⟨#[Board.empty.reset healthKey .f32 10, .empty, .empty], #[false], ()⟩, .empty⟩

def alone : Context := ⟨⟨⟨⟨0⟩, ⟨1⟩, ⟨2⟩, ⟨0⟩, 0, 0⟩, none⟩, Rng.ofSeed 3⟩

/-- Having started to flee, the character goes on after the health is replaced by a text. -/
theorem steady_of_tend_hurt :
    let ds : List (Deed host) := [.on 0 (.tick 0.5),
      .outside fun w => w.putBoard ⟨0⟩ (Board.empty.reset healthKey .string "10")]
    let o := tend ds [Instance.ofRoot (character ⟨1, 0⟩) alone] hurtRealm
    (∃ i ∈ o.value.2, i.active = true ∧ ((i.tick 0.5 o.state).value.1 = .ok .success ∨
      (i.tick 0.5 o.state).value.1 = .ok .running)) ∧
    Guard.badlyHurt.holds (hurtRealm.world.board ⟨0⟩) = true ∧
    ∃ x, (hurtRealm.world.board ⟨0⟩).get? healthKey .f32 = some x := by
  intro ds o
  obtain ⟨⟨root, hroot, hsteady⟩, hguard⟩ := steady_of_tend ⟨1, 0⟩ alone ds hurtRealm
  obtain rfl : character ⟨1, 0⟩ = root := Except.ok.inj hroot
  have hholds : Guard.badlyHurt.holds (hurtRealm.world.board ⟨0⟩) = true := by decide +kernel
  have hlength : 0 < o.value.2.length := by decide +kernel
  have hactive : ∀ i ∈ o.value.2, i.active = true := by decide +kernel
  obtain ⟨i, hi⟩ := List.exists_mem_of_length_pos hlength
  exact ⟨⟨i, hi, hactive i hi, hsteady i hi (hactive i hi) 0.5⟩, hholds, (hguard _ hholds).1⟩

end TickTree.Npc
