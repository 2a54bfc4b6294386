import TickTree.Proofs.Simulation
/-! Trees that differ only in what earlier activations left behind in idle nodes execute alike: with
the same answers, the same trace and the same effects. -/
namespace TickTree
variable {H : Host}

namespace Traced
variable {σ ε α β α' β' : Type} {R : α → β → Prop} {Q : α' → β' → Prop}

/-- From every state the two leave the same state and trace, and related values. -/
def Agree (R : α → β → Prop) (x : Traced σ ε α) (y : Traced σ ε β) : Prop :=
  ∀ s, R (x s).value (y s).value ∧ (x s).state = (y s).state ∧ (x s).trace = (y s).trace

theorem Agree.pure {a : α} {b : β} (h : R a b) :
    Agree R (Pure.pure a : Traced σ ε α) (Pure.pure b) := fun _ => ⟨h, rfl, rfl⟩

theorem Agree.bind {x : Traced σ ε α} {y : Traced σ ε β} {f : α → Traced σ ε α'}
    {g : β → Traced σ ε β'} (h : Agree R x y) (hf : ∀ a b, R a b → Agree Q (f a) (g b)) :
    Agree Q (x >>= f) (y >>= g) := by
  intro s
  obtain ⟨hvalue, hstate, htrace⟩ := h s
  obtain ⟨hvalue', hstate', htrace'⟩ := hf _ _ hvalue (x s).state
  rw [bind_apply, bind_apply, ← hstate, ← htrace]
  exact ⟨hvalue', hstate', congrArg _ htrace'⟩

theorem Agree.seq {x : Traced σ ε α} {f : α → Traced σ ε α'} {g : α → Traced σ ε β'}
    (hf : ∀ a, Agree Q (f a) (g a)) : Agree Q (x >>= f) (x >>= g) := by
  have hx : Agree Eq x x := fun _ => ⟨rfl, rfl, rfl⟩
  refine hx.bind fun a b hab => ?_
  rw [← hab]
  exact hf a

end Traced

open Traced (Agree)
open Exec (Sim)

theorem Stage.match_eq {s s' : Stage H} : s.Match Eq s' ↔ s = s' := by
  obtain ⟨⟨w, t⟩, rng⟩ := s
  obtain ⟨⟨w', t'⟩, rng'⟩ := s'
  simp [Stage.Match, Realm.Match]

theorem Exec.sim_refl {α : Type} (x : Exec H α) : Sim Eq Eq x x := by
  intro s s' hs
  rw [Stage.match_eq.mp hs]
  exact ⟨rfl, Stage.match_eq.mpr rfl, rfl⟩

theorem Exec.Sim.agree {α β : Type} {R : α → β → Prop} {x : Exec H α} {y : Exec H β}
    (h : Sim Eq R x y) : Agree R x y := by
  intro s
  obtain ⟨hvalue, hstate, htrace⟩ := h s s (Stage.match_eq.mpr rfl)
  exact ⟨hvalue, Stage.match_eq.mp hstate, htrace⟩

namespace Behavior

/-- What an idle behavior shows: all but what an activation keeps between its ticks. -/
def essence : Behavior H → Behavior H
  | selector _ => selector 0
  | randomSelector _ _ => randomSelector 0 []
  | sequence _ => sequence 0
  | repeater r => repeater { r with completed := 0 }
  | wait w => wait { w with target := w.duration, elapsed := 0 }
  | b => b

/-- The start of an activation forgets the one before. -/
theorem start_essence (s : Setting) (v : View) (n : Nat) (b : Behavior H) :
    b.essence.start s v n = b.start s v n := by
  cases b <;> rfl

end Behavior

namespace Frame

def essence (f : Frame H) : Frame H :=
  if f.active then f else { f with behavior := f.behavior.essence }

@[simp] theorem view_essence (f : Frame H) : f.essence.view = f.view := by
  unfold essence; split <;> rfl
@[simp] theorem decorators_essence (f : Frame H) : f.essence.decorators = f.decorators := by
  unfold essence; split <;> rfl
@[simp] theorem active_essence (f : Frame H) : f.essence.active = f.active := by
  unfold essence; split <;> rfl

theorem essence_of_active {f : Frame H} (h : f.active = true) : f.essence = f := if_pos h

theorem eq_of_essence {f g : Frame H} (h : f.essence = g.essence) (hf : f.active = true) :
    f = g := by
  have hg : g.active = true := by rw [← active_essence, ← h, active_essence, hf]
  rw [← essence_of_active hf, h, essence_of_active hg]

theorem activate_essence (s : Setting) (n : Nat) (f : Frame H) :
    f.essence.activate s n = f.activate s n := by
  by_cases hf : f.active = true
  · rw [essence_of_active hf]
  · have hf : f.active = false := by simpa using hf
    simp [essence, activate, hf, view, Behavior.start_essence]

end Frame

namespace Node

def essence (n : Node H) : Node H := n.mapFrames Frame.essence

/-- The trees differ at most in what earlier activations left behind in idle nodes. -/
def Alike (n m : Node H) : Prop := n.essence = m.essence

theorem alike_mk {f g : Frame H} {cs ds : List (Node H)} :
    (mk f cs).Alike (mk g ds) ↔ f.essence = g.essence ∧ List.Forall₂ Alike cs ds := by
  rw [Alike, essence, essence, mapFrames_mk, mapFrames_mk, mk.injEq]
  refine and_congr_right fun _ => ?_
  rw [← List.forall₂_eq_eq_eq, List.forall₂_map_left_iff, List.forall₂_map_right_iff]
  rfl

theorem Alike.activity_eq {n m : Node H} (h : n.Alike m) : n.activity = m.activity := by
  have hactivity (n : Node H) : n.essence.activity = n.activity := by
    rw [activity, essence, frames_mapFrames, List.map_map, activity]
    exact List.map_congr_left fun f _ => f.active_essence
  rw [← hactivity n, h, hactivity]

theorem alike_lockstep : Lockstep (H := H) Eq (fun f g => f.essence = g.essence) Alike where
  node := alike_mk
  view h := by rw [← Frame.view_essence, h, Frame.view_essence]
  decorators {f g} h := by
    have hdecorators : g.decorators = f.decorators := by
      rw [← g.decorators_essence, ← h, f.decorators_essence]
    rw [hdecorators]
    exact ⟨fun _ _ _ => Exec.sim_refl _, fun _ _ _ _ _ => Exec.sim_refl _,
      fun _ _ _ _ => Exec.sim_refl _, fun _ _ _ => Exec.sim_refl _⟩
  active h ha := by rw [Frame.eq_of_essence h ha]
  change h ha _ _ _ _ := by rw [Frame.eq_of_essence h ha]
  activate {f g} s n h := by
    rw [← f.activate_essence, h, g.activate_essence]
    refine fun st st' hst => ?_
    obtain ⟨hvalue, hrest⟩ := Exec.sim_refl (g.activate s n) st st' hst
    rw [hvalue]
    exact ⟨⟨rfl, rfl⟩, hrest⟩

theorem abort_agree (s : Setting) {n m : Node H} (h : n.Alike m) :
    Agree Alike (n.abort s) (m.abort s) := (alike_lockstep.abort h).agree

/-- Executions do not show what earlier activations left behind. -/
theorem execute_agree (s : Setting) (dt : Float32) {n m : Node H} (h : n.Alike m) :
    Agree (SameAnswer Alike) (n.execute s dt) (m.execute s dt) := (alike_lockstep.execute h).agree

end Node
end TickTree
