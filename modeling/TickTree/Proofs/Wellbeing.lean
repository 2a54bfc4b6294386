import TickTree.Npc.Demo
import TickTree.Proofs.Sums
import TickTree.Proofs.Character
import TickTree.Proofs.Holding
/-! The sample program runs to its end. Health is written by the world, which takes damage away, and
by flight, which wins it back, in steps of any size; it stays between zero and full health. -/
namespace TickTree.Npc
open Seconds

structure Healthy (h : Float32) : Prop where
  number : h.isNaN = false
  nonneg : 0 ≤ h
  le_max : h ≤ maxHealth

theorem healthy_of_bounds {h : Float32} (hnonneg : 0 ≤ h) (hmax : h ≤ maxHealth) : Healthy h :=
  ⟨isNaN_of_nonneg hnonneg, hnonneg, hmax⟩

theorem Healthy.span {h : Float32} (hh : Healthy h) : Span h :=
  span_of_le hh.nonneg hh.le_max (by decide +kernel)

theorem healthy_hurt {h dt : Float32} (hh : Healthy h) (hdt : 0 ≤ dt) :
    Healthy (atLeast 0 (h - damage * dt)) := by
  have hzero : Healthy 0 := healthy_of_bounds (by decide +kernel) (by decide +kernel)
  have hloss : 0 ≤ damage * dt := nonneg_mul (by decide +kernel) (by decide +kernel) hdt
  rw [atLeast]
  split
  · next hpos =>
    have hless : h - damage * dt ≤ h := sub_le hh.span hloss hpos
    exact healthy_of_bounds (Seconds.le_of_lt hpos) (Seconds.le_trans hless hh.le_max)
  · exact hzero

theorem healthy_regained {h dt : Float32} (hh : Healthy h) (hdt : 0 ≤ dt) :
    Healthy (atMost maxHealth (h + regeneration * dt)) := by
  have hgain : 0 ≤ regeneration * dt := nonneg_mul (by decide +kernel) (by decide +kernel) hdt
  rw [atMost]
  split
  · next hlt =>
    exact healthy_of_bounds (nonneg_add_of_nonneg hh.nonneg hgain) (Seconds.le_of_lt hlt)
  · exact healthy_of_bounds (by decide +kernel) (by decide +kernel)

theorem get?_reset {b : Board} {key k : UInt32} {T : Kind} {v : T.Val} (U : Kind) :
    (b.reset k T v).get? key U = if k = key then Slot.as? ⟨T, v⟩ U else b.get? key U := by
  rw [Board.get?, Board.slot?_reset]
  split <;> rfl

structure Sane (b : Board) : Prop where
  sight : ∃ v, b.get? visibleKey .bool = some v
  life : ∃ h, b.get? healthKey .f32 = some h ∧ Healthy h

theorem Sane.healthy {b : Board} (h : Sane b) : Healthy (health b) := by
  obtain ⟨x, hx, hhealthy⟩ := h.life
  rwa [health, Board.getD, hx]

theorem Sane.set_health {b : Board} (h : Sane b) {x : Float32} (hx : Healthy x) :
    ∃ b', b.set healthKey .f32 x = .ok b' ∧ Sane b' := by
  obtain ⟨_, hslot, -⟩ := h.life
  refine ⟨_, set_of_get? hslot x, ?_, x, ?_, hx⟩
  · rw [get?_reset, if_neg (by decide)]
    exact h.sight
  · rw [get?_reset, if_pos rfl, Slot.as?_self]

theorem Sane.set_visible {b : Board} (h : Sane b) (v : Bool) :
    ∃ b', b.set visibleKey .bool v = .ok b' ∧ Sane b' := by
  obtain ⟨_, hslot⟩ := h.sight
  refine ⟨_, set_of_get? hslot v, ⟨v, ?_⟩, ?_⟩
  · rw [get?_reset, if_pos rfl, Slot.as?_self]
  · rw [get?_reset, if_neg (by decide)]
    exact h.life

theorem sane_freshBoard : Sane Demo.freshBoard :=
  ⟨⟨false, rfl⟩, maxHealth, rfl, by decide +kernel, by decide +kernel, by decide +kernel⟩

section World
variable {b : Board} {dt : Float32}

theorem sane_after (h : Sane b) (hdt : 0 ≤ dt) (visible : Bool) (r : Rng) (sighted : Option Bool) :
    (WorldStep.after dt visible b r sighted).result = .ok () ∧
      Sane (WorldStep.after dt visible b r sighted).board := by
  obtain ⟨b', hset, hsane⟩ := h.set_health (healthy_hurt h.healthy hdt)
  cases visible with
  | false => exact ⟨rfl, h⟩
  | true => simp [WorldStep.after, hurt, hset, hsane]

/-- The world never fails, and leaves its board as it should be. -/
theorem sane_stepWorld (h : Sane b) (hdt : 0 ≤ dt) (r : Rng) :
    (stepWorld dt b r).result = .ok () ∧ Sane (stepWorld dt b r).board := by
  rw [stepWorld]
  dsimp only
  split
  · obtain ⟨b', hset, hsane⟩ := h.set_visible (!isVisible b)
    rw [hset]
    exact sane_after hsane hdt _ _ _
  · exact sane_after h hdt _ _ _

end World

def Covered (s : Scope) : Prop := s.global = Demo.worldBoard ∧ s.own = Demo.scope.own

theorem sane_putBoard {w : World host.State} {b : Board} (h : Sane (w.board Demo.worldBoard))
    (hb : Sane b) : Sane ((w.putBoard Demo.worldBoard b).board Demo.worldBoard) := by
  have hindex : Demo.worldBoard.index < w.boards.size := by
    by_contra hout
    obtain ⟨v, hv⟩ := h.sight
    rw [World.board, Array.getElem?_eq_none (Nat.le_of_not_lt hout)] at hv
    cases hv
  rw [World.board_putBoard hindex, if_pos rfl]
  exact hb

/-- Nothing that the tree does to the board of the world leaves it other than it should be. -/
theorem upholds_host : host.Upholds Covered (fun dt => 0 ≤ dt)
    (fun w => Sane (w.board Demo.worldBoard)) where
  toSpares := spares_host
  start _ _ _ _ h := h
  tick a s dt r hs hdt h := by
    obtain ⟨hglobal, -⟩ := hs
    obtain ⟨b, hset, hsane⟩ := h.set_health (healthy_regained h.healthy hdt)
    rw [tick_host, flee]
    dsimp only
    rw [hglobal]
    split
    · exact h
    · rw [hset]
      exact sane_putBoard h hsane
  check _ _ _ _ h := h
  allows _ _ _ _ _ h := h
  modifier _ _ hf := nomatch hf
  attached _ _ _ _ _ h := h
  serve l s v dt r hs _ h := by
    obtain ⟨-, hown⟩ := hs
    change Sane ((growl s r.world).2.board Demo.worldBoard)
    rw [growl]
    split
    · exact h
    · rw [hown]
      simpa [World.board, World.putBoard, Demo.scope, Demo.worldBoard] using h

structure Lives (i : Instance host) : Prop where
  steady : Steady i.root
  covered : Covered i.context.scope

section Update
variable {i : Instance host} {dt : Float32} {r : Realm host} (h : Lives i)
  (hr : Sane (r.world.board Demo.worldBoard))
include h hr

theorem lives_restart : Lives (i.restart r).value ∧
    Sane ((i.restart r).state.world.board Demo.worldBoard) := by
  refine ⟨?_, Instance.upholds_restart upholds_host.toSpares h.covered hr⟩
  rw [Instance.restart, Traced.bind_apply, Instance.abortRoot_apply]
  exact ⟨steady_settle i.root h.steady, h.covered⟩

theorem lives_tick (hdt : 0 ≤ dt) : (∃ result, (i.tick dt r).value.1 = .ok result) ∧
    Lives (i.tick dt r).value.2 ∧ Sane ((i.tick dt r).state.world.board Demo.worldBoard) := by
  have hsane := Instance.upholds_tick upholds_host h.covered hdt hr
  cases hi : i.active with
  | false =>
    rw [Instance.tick, if_neg (by simp [hi])]
    exact ⟨⟨_, rfl⟩, h, hr⟩
  | true =>
    obtain ⟨hvalue, hroot, -, -, -, hscope⟩ := i.tick_of_active hi dt r
    refine ⟨?_, ⟨?_, ?_⟩, hsane⟩
    · rw [hvalue]
      obtain h | h := h.steady.answer (i.context.beginTick dt).toSetting dt ⟨r, i.context.rng⟩
      · exact ⟨_, h⟩
      · exact ⟨_, h⟩
    · rw [hroot]
      exact steady_execute _ _ _ _ h.steady
    · rw [hscope]
      exact h.covered

theorem lives_update (hdt : 0 ≤ dt) (again : Bool) :
    (∃ result, (i.update again dt r).value.1 = .ok result) ∧
    Lives (i.update again dt r).value.2 ∧
      Sane ((i.update again dt r).state.world.board Demo.worldBoard) := by
  obtain ⟨hanswer, hlives, hsane⟩ := lives_tick h hr hdt
  obtain ⟨-, -, hupdate⟩ | ⟨-, hupdate⟩ := i.update_cases again dt r
  · rw [hupdate]
    exact ⟨hanswer, lives_restart hlives hsane⟩
  · rw [hupdate]
    exact ⟨hanswer, hlives, hsane⟩

end Update

theorem running_stop (r : Runner host) (realm : Realm host) :
    (r.stop realm).value.running = none := by
  cases hr : r.running with
  | none => simp [Runner.stop, Runner.isRunning, hr]
  | some i =>
    cases hroot : r.root <;> simp [Runner.stop, Runner.isRunning, Runner.reclaim, hr, hroot]

namespace Demo

/-- The program in the middle of its loop. -/
structure Going (d : Demo) : Prop where
  lives : ∃ i, d.runner.running = some i ∧ Lives i
  sane : Sane d.world

theorem delta_nonneg (c : Config) : 0 ≤ c.delta := by
  have hbillion : Span 1000000000 ∧ (0 : Float32) < 1000000000 := by decide +kernel
  exact nonneg_add_of_nonneg (nonneg_toFloat32 _)
    (nonneg_div (nonneg_toFloat32 _) hbillion.1 hbillion.2)

theorem going_moveWorld {d : Demo} (h : Going d) {dt : Float32} (hdt : 0 ≤ dt) :
    (moveWorld dt d).value = .ok () ∧ Going (moveWorld dt d).state := by
  obtain ⟨hmoved, hsane⟩ := sane_stepWorld h.sane hdt d.rng
  exact ⟨hmoved, h.lives, sane_putBoard h.sane hsane⟩

theorem going_update {d : Demo} (h : Going d) {dt : Float32} (hdt : 0 ≤ dt) :
    (∃ result, (update dt d).value = .ok (some result)) ∧ Going (update dt d).state := by
  obtain ⟨⟨i, hi, hlives⟩, hsane⟩ := h
  obtain ⟨⟨result, hresult⟩, hlives', hsane'⟩ :=
    lives_update hlives hsane hdt d.runner.config.restartOnComplete
  simp only [update, onRunner, Runner.update_of_some hi]
  exact ⟨⟨result, by rw [hresult]; rfl⟩, ⟨_, rfl, hlives'⟩, hsane'⟩

/-- What the world makes of its board in the time of a tick. -/
def worldStep (d : Demo) : WorldStep :=
  stepWorld d.config.delta (d.realm.world.board worldBoard) d.rng

def stepped (d : Demo) : Realm host :=
  { d.realm with world := d.realm.world.putBoard worldBoard d.worldStep.board }

/-- One iteration of the loop: the world takes a step, and then the runner is updated in the realm
that the step leaves. Neither fails, and the global board of the tree is as it should be. -/
structure Cycle (d d' : Demo) : Prop where
  moved : d.worldStep.result = .ok ()
  updated : ∃ result, (d.runner.update d.config.delta d.stepped).value.1 = .ok (some result)
  left : let o := d.runner.update d.config.delta d.stepped
    d' = ⟨d.config, o.state, o.value.2, d.worldStep.rng⟩
  global : ∃ i, d'.runner.running = some i ∧ i.context.scope.global = worldBoard
  sane : Sane (d'.realm.world.board worldBoard)

theorem Cycle.config {d d' : Demo} (h : Cycle d d') : d'.config = d.config := by rw [h.left]

inductive Cycles : Nat → Demo → Demo → Prop
  | none {d : Demo} : Cycles 0 d d
  | more {n : Nat} {d d₁ d₂ : Demo} (first : Cycle d d₁) (rest : Cycles n d₁ d₂) :
    Cycles (n + 1) d d₂

theorem cycle_of_going {d : Demo} (h : Going d) (tick : Nat) :
    (turn tick d).value = .ok () ∧ Cycle d (turn tick d).state ∧ Going (turn tick d).state := by
  have hdt := delta_nonneg d.config
  obtain ⟨hmoved, hgoing⟩ := going_moveWorld h hdt
  obtain ⟨⟨result, hresult⟩, hgoing'⟩ := going_update hgoing hdt
  have hturn : (turn tick d).value = .ok () ∧
      (turn tick d).state = (update d.config.delta (moveWorld d.config.delta d).state).state := by
    simp only [turn, Traced.bind_apply, Traced.get_apply, hmoved, hresult]
    split <;> exact ⟨rfl, rfl⟩
  obtain ⟨i, hi, hlives⟩ := hgoing'.lives
  rw [hturn.2]
  exact ⟨hturn.1, ⟨hmoved, ⟨result, hresult⟩, rfl, ⟨i, hi, hlives.covered.1⟩, hgoing'.sane⟩,
    hgoing'⟩

theorem turns_succ {d : Demo} {tick : Nat} (h : (turn tick d).value = .ok ()) (n : Nat) :
    turns (n + 1) tick d = ⟨(turns n (tick + 1) (turn tick d).state).value,
      (turns n (tick + 1) (turn tick d).state).state,
      (turn tick d).trace ++ (turns n (tick + 1) (turn tick d).state).trace⟩ := by
  rw [turns, Traced.bind_apply, h]

theorem cycles_of_going {d : Demo} (h : Going d) (n tick : Nat) :
    (turns n tick d).value = .ok () ∧ Cycles n d (turns n tick d).state ∧
      Going (turns n tick d).state := by
  induction n generalizing d tick with
  | zero => exact ⟨rfl, .none, h⟩
  | succ n ih =>
    obtain ⟨hvalue, hcycle, hgoing⟩ := cycle_of_going h tick
    obtain ⟨hvalues, hcycles, hgoing'⟩ := ih hgoing (tick + 1)
    rw [turns_succ hvalue]
    exact ⟨hvalues, .more hcycle hcycles, hgoing'⟩

theorem going_start (c : Config) (seed : UInt64) :
    ∃ begun, start c seed (some .logging) freshBoard = .ok begun ∧ begun.state.config = c ∧
      Going begun.state :=
  ⟨_, rfl, rfl, ⟨_, rfl, steady_character ⟨1, 0⟩, rfl, rfl⟩, sane_freshBoard⟩

theorem run_of_turns {c : Config} {seed : UInt64} {begun : Outcome Demo (Entry Note) Unit}
    (hstart : start c seed (some .logging) freshBoard = .ok begun) (hconfig : begun.state.config = c)
    (hvalue : (turns c.maxTicks.toNat 0 begun.state).value = .ok ()) :
    let o := turns c.maxTicks.toNat 0 begun.state
    run c seed = (.ok (), opening c ++ begun.trace ++
      (o.trace ++ (depart c.maxTicks.toNat o.state).trace)) := by
  rw [run, hstart]
  simp [play, hconfig, hvalue]

theorem stopped_depart (n : Nat) (d : Demo) : (depart n d).state.runner.running = none :=
  running_stop d.runner d.realm

/-- With these settings, from any seed, the program starts. Every turn of its loop is an iteration
in which nothing fails, and after so many turns as are set, if any are, it stops its runner and ends
well. -/
theorem completes_of_env (env : Variable → Option ByteArray) (seed : UInt64) :
    let c := Config.ofEnv env
    ∃ begun, start c seed (some .logging) freshBoard = .ok begun ∧ begun.state.config = c ∧
      (∀ n, let o := turns n 0 begun.state
        o.value = .ok () ∧ Cycles n begun.state o.state) ∧
      (c.maxTicks ≠ 0 →
        let o := turns c.maxTicks.toNat 0 begun.state
        let last := depart c.maxTicks.toNat o.state
        let stopped := o.state.runner.stop o.state.realm
        run c seed = (.ok (), opening c ++ begun.trace ++ (o.trace ++ last.trace)) ∧
          exitCode (run c seed).1 = 0 ∧
          last.state = { o.state with realm := stopped.state, runner := stopped.value } ∧
          last.state.runner.running = none) := by
  intro c
  obtain ⟨begun, hstart, hconfig, hgoing⟩ := going_start c seed
  refine ⟨begun, hstart, hconfig, fun n => ?_, fun _ => ?_⟩
  · obtain ⟨hvalue, hcycles, -⟩ := cycles_of_going hgoing n 0
    exact ⟨hvalue, hcycles⟩
  · obtain ⟨hvalue, -, -⟩ := cycles_of_going hgoing c.maxTicks.toNat 0
    have hrun := run_of_turns hstart hconfig hvalue
    intro o last stopped
    exact ⟨hrun, by rw [hrun]; rfl, rfl, stopped_depart _ _⟩

/-- Two ticks of the longest period that there is. -/
theorem completes_of_env_two :
    let env : Variable → Option ByteArray := fun
      | .tickMillis => some "18446744073709551615".toUTF8
      | .maxTicks => some "2".toUTF8
      | .seed => some "7".toUTF8
      | .restart => some "off".toUTF8
    let c := Config.ofEnv env
    c.seed = some 7 ∧ c.maxTicks = 2 ∧ exitCode (run c 7).1 = 0 ∧
      ∃ begun d, start c 7 (some .logging) freshBoard = .ok begun ∧ Cycles 2 begun.state d ∧
        (run c 7).2 = opening c ++ begun.trace ++
          ((turns 2 0 begun.state).trace ++ (depart 2 d).trace) := by
  intro env c
  obtain ⟨begun, hstart, -, hturns, hend⟩ := completes_of_env env 7
  have hticks : c.maxTicks = 2 := by decide +kernel
  obtain ⟨hrun, hexit, -⟩ := hend (by rw [show (Config.ofEnv env).maxTicks = 2 from hticks]; decide)
  refine ⟨by decide +kernel, hticks, hexit, begun, _, hstart, (hturns 2).2, ?_⟩
  rw [hrun, show (Config.ofEnv env).maxTicks = 2 from hticks]
  rfl

end Demo
end TickTree.Npc
