import TickTree.Proofs.Habits
import TickTree.Proofs.Sessions
/-! What callbacks keep of the world, executions and aborts keep: the engine itself never touches
boards, signals or what callbacks share. -/
namespace TickTree
variable {H : Host} {α β : Type} {C : Scope → Prop} {D : Float32 → Prop}
  {W : World H.State → Prop}

structure Host.Spares (H : Host) (C : Scope → Prop) (W : World H.State → Prop) : Prop where
  finish : ∀ a s x r, C s → W r.world → W (H.finish a s x r).state.world
  finished : ∀ d s v x w, C s → W w → W (H.finished d s v x w).state
  aborted : ∀ d s v w, C s → W w → W (H.aborted d s v w).state
  detached : ∀ l s v r, C s → W r.world → W (H.detached l s v r).state.world

/-- In the scopes and over the ticks covered, all callbacks do. -/
structure Host.Upholds (H : Host) (C : Scope → Prop) (D : Float32 → Prop)
    (W : World H.State → Prop) : Prop extends H.Spares C W where
  start : ∀ a s r, C s → W r.world → W (H.start a s r).state.world
  tick : ∀ a s dt r, C s → D dt → W r.world → W (H.tick a s dt r).state.world
  check : ∀ c s w, C s → W w → W (H.check c s w).state
  allows : ∀ d s v w, C s → W w → W (H.allows d s v w).state
  modifier : ∀ d f, H.modifier d = some f → ∀ s v dt x w, C s → D dt → W w → W (f s v dt x w).state
  attached : ∀ l s v r, C s → W r.world → W (H.attached l s v r).state.world
  serve : ∀ l s v dt r, C s → D dt → W r.world → W (H.serve l s v dt r).state.world

def Exec.Upholds (W : World H.State → Prop) (x : Exec H α) : Prop :=
  ∀ st, W st.world → W (x st).state.world

def Habit.upholds (W : World H.State → Prop) : Habit H where
  holds := Exec.Upholds W
  quiet h st hst := (h st).1.symm ▸ hst
  bind hx hf st hst := hf _ _ (hx st hst)

theorem Host.Spares.habit (hH : H.Spares C W) : (Habit.upholds W).Spares C where
  finish a s x hs st := hH.finish a s x ⟨st.world, st.rng⟩ hs
  finished d s v x hs st := hH.finished d s v x st.world hs
  aborted d s v hs st := hH.aborted d s v st.world hs
  detached l s v hs st := hH.detached l s v ⟨st.world, st.rng⟩ hs

theorem Host.Upholds.habit (hH : H.Upholds C D W) : (Habit.upholds W).Suits C D where
  toSpares := hH.toSpares.habit
  start a s hs st := hH.start a s ⟨st.world, st.rng⟩ hs
  tick a s dt hs hdt st := hH.tick a s dt ⟨st.world, st.rng⟩ hs hdt
  check c s hs st := hH.check c s st.world hs
  allows d s v hs st := hH.allows d s v st.world hs
  modifier d f hf s v dt x hs hdt st := hH.modifier d f hf s v dt x st.world hs hdt
  attached l s v hs st := hH.attached l s v ⟨st.world, st.rng⟩ hs
  serve l s v dt hs hdt st := hH.serve l s v dt ⟨st.world, st.rng⟩ hs hdt

theorem Frame.upholds_conclude {s : Setting} (hH : H.Spares C W) (hs : C s.scope) (result : Status)
    (f : Frame H) (cs : List (Node H)) : Exec.Upholds W (f.conclude s result cs) :=
  habit_conclude hH.habit hs result f cs

namespace Instance
variable {i : Instance H} {dt : Float32} {r : Realm H}

theorem upholds_abortRoot (hH : H.Spares C W) (hs : C i.context.scope) (h : W r.world) :
    W (i.abortRoot r).state.world :=
  Node.habit_abort (s := i.context.toSetting) hH.habit hs i.root ⟨r, i.context.rng⟩ h

theorem upholds_restart (hH : H.Spares C W) (hs : C i.context.scope) (h : W r.world) :
    W (i.restart r).state.world := upholds_abortRoot hH hs h

theorem tick_of_active (hi : i.active = true) (dt : Float32) (r : Realm H) :
    let x := i.root.execute (i.context.beginTick dt).toSetting dt ⟨r, i.context.rng⟩
    let o := i.tick dt r
    o.value.1 = x.value.1 ∧ o.value.2.root = x.value.2 ∧ o.state = x.state.toRealm ∧
      (∀ e ∈ x.trace, e ∈ o.trace) ∧ (o.value.1 = .ok .running → o.value.2.active = true) ∧
      o.value.2.context.scope = (i.context.beginTick dt).scope := by
  have hticks := i.tick_spec dt r
  dsimp only
  generalize i.tick dt r = o at hticks
  cases hticks with
  | ended h => simp [hi] at h
  | kept _ executed =>
    rw [executed]
    exact ⟨rfl, rfl, rfl, fun _ he => he, fun _ => hi, rfl⟩
  | completed _ executed terminal =>
    rw [executed]
    refine ⟨rfl, rfl, rfl, fun _ he => List.mem_append_left _ he, fun h => ?_, rfl⟩
    cases h
    cases terminal

/-- A tick of a tree keeps what the callbacks keep. The clock of the scope has gone on. -/
theorem upholds_tick (hH : H.Upholds C D W) (hs : C (i.context.beginTick dt).scope) (hdt : D dt)
    (h : W r.world) : W (i.tick dt r).state.world := by
  cases hi : i.active with
  | false => rw [tick, if_neg (by simp [hi])]; exact h
  | true =>
    obtain ⟨-, -, hstate, -⟩ := tick_of_active hi dt r
    rw [hstate]
    exact Node.habit_execute hH.habit hs hdt i.root ⟨r, i.context.rng⟩ h

end Instance
end TickTree
