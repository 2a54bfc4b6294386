import TickTree.Proofs.Tracks
/-! The phases of an execution. Hooks that belong to different phases are in different parts of what
is called on a node. -/
namespace TickTree
variable {H : Host}

inductive Phase where
  | called
  | asked
  | opened
  | served
  | ticked
  | answered
  | settled
  | returned
  deriving DecidableEq

def Hook.phase : Hook → Phase
  | executed _ => .called
  | guarded .. => .asked
  | started | drew _ | attached _ => .opened
  | serviced .. => .served
  | ticked _ | resumed _ => .ticked
  | answered _ => .answered
  | modified .. | terminated _ | detached _ | finished .. | aborted _ => .settled
  | returned _ => .returned

def OfPhase (p : Phase) (w : List (Entry H.Note)) : Prop := ∀ v h, .hook v h ∈ w → h.phase = p

namespace OfPhase
variable {p : Phase} {w w' : List (Entry H.Note)} {v : View} {h : Hook}

theorem nil : OfPhase p ([] : List (Entry H.Note)) := fun v h hmem => by simp at hmem

theorem not_mem (hw : OfPhase p w) (hp : h.phase ≠ p) : .hook v h ∉ w := fun hmem =>
  hp (hw v h hmem)

theorem append (hw : OfPhase p w) (hw' : OfPhase p w') : OfPhase p (w ++ w') := by
  intro v h hmem
  obtain hmem | hmem := List.mem_append.mp hmem
  · exact hw v h hmem
  · exact hw' v h hmem

theorem cons (he : h.phase = p) (hw : OfPhase p w) : OfPhase p (.hook v h :: w) := by
  intro u h' hmem
  obtain hmem | hmem := List.mem_cons.mp hmem
  · cases hmem
    exact he
  · exact hw u h' hmem

theorem notice {l : Option Listener} {n : Notice} (hw : OfPhase p w) :
    OfPhase p (.notice l n :: w) := by
  intro v h hmem
  obtain hmem | hmem := List.mem_cons.mp hmem
  · cases hmem
  · exact hw v h hmem

theorem map {α : Type} (v : View) {h : α → Hook} (xs : List α) (hh : ∀ x ∈ xs, (h x).phase = p) :
    OfPhase p (xs.map fun x => (.hook v (h x) : Entry H.Note)) := by
  intro u h' hmem
  obtain ⟨x, hx, he⟩ := List.mem_map.mp hmem
  cases he
  exact hh x hx

end OfPhase

namespace Frame
variable {s : Setting} {dt : Float32} {f g : Frame H} {w : List (Entry H.Note)}

theorem phase_guards {v : View} {gs : List (Entry H.Note)}
    (h : ∀ e ∈ gs, ∃ i passed, e = .hook v (.guarded i passed)) : OfPhase .asked gs := by
  intro u hook hmem
  obtain ⟨i, passed, he⟩ := h _ hmem
  cases he
  rfl

theorem phase_resumed {v : View} {rs : List (Entry H.Note)}
    (h : ∀ e ∈ rs, ∃ cursor, e = .hook v (.resumed cursor)) : OfPhase .ticked rs := by
  intro u hook hmem
  obtain ⟨cursor, he⟩ := h _ hmem
  cases he
  rfl

theorem phase_start (s : Setting) (f : Frame H) (drawn : List Draw) :
    OfPhase .opened (f.start s drawn) :=
  .notice (.cons rfl (.map ⟨f.id, f.name, true, 0⟩ drawn fun _ _ => rfl))

theorem Opens.phase {op : List (Entry H.Note)} (h : f.Opens s op g) : OfPhase .opened op := by
  cases h with
  | already => exact .nil
  | @fresh b drawn =>
    exact (f.phase_start s drawn).append (.map (f.begun b).view _ fun _ _ => rfl)

theorem phase_closing (s : Setting) (result : Status) (f : Frame H) :
    OfPhase .settled (f.closing s result) :=
  OfPhase.append (.map f.view _ fun _ _ => rfl) (.notice .nil)

theorem phase_sweep (s : Setting) (f : Frame H) : OfPhase .settled (f.sweep s) := by
  unfold sweep
  split
  · have htold : OfPhase .settled (slots f.view .aborted 0 f.decorators.length :
        List (Entry H.Note)) := .map f.view _ fun _ _ => rfl
    exact (htold.append (phase_closing s .failure f)).append (.notice .nil)
  · exact .nil

theorem Modified.phase {slot : Nat} {ds : List (Decorator H)} {before after : Status}
    {hs : List Hook} (h : Modified dt slot ds before hs after) (v : View) :
    OfPhase .settled (hs.map (.hook v) : List (Entry H.Note)) := by
  refine .map v hs fun hook hhook => ?_
  obtain ⟨i, a, b, rfl⟩ := h.exists_eq hook hhook
  rfl

theorem Settles.phase {raw answer : Answer} (h : f.Settles s dt raw answer w g) :
    OfPhase .settled w := by
  cases h with
  | stopped => exact .nil
  | kept modified => exact modified.phase f.view
  | concluded modified =>
    refine (modified.phase f.view).append (.cons rfl ?_)
    exact (phase_closing s _ (f.aged dt)).append (.map _ _ fun _ _ => rfl)

/-- A behavior that answers in a visit has got to it, and what follows settles its answer. -/
theorem Visit.of_answered {v : View} {raw answer : Answer} (h : f.Visit s dt answer w g)
    (hmem : .hook v (.answered raw) ∈ w) :
    ∃ (f' : Frame H) (w₁ w₂ : List (Entry H.Note)), v = f'.view ∧
      f'.Settles s dt raw answer w₂ g ∧ w = w₁ ++ (w₂ ++ [.hook g.view (.returned answer)]) := by
  have hnot {p : Phase} {w' : List (Entry H.Note)} (hw' : OfPhase p w')
      (hp : Phase.answered ≠ p) : .hook v (.answered raw) ∉ w' := hw'.not_mem hp
  cases h with
  | refused guards =>
    have hgs := hnot (phase_guards guards) (by decide)
    have hsweep := hnot (f.phase_sweep s) (by decide)
    simp [hgs, hsweep] at hmem
  | panicked drawn guards =>
    have hgs := hnot (phase_guards guards) (by decide)
    have hstart := hnot (f.phase_start s drawn) (by decide)
    simp [hgs, hstart] at hmem
  | @ticked gs op rs w f₁ _ _ _ raw' _ b guards opens resumes _ settles =>
    have hgs := hnot (phase_guards guards) (by decide)
    have hop := hnot opens.phase (by decide)
    have hrs := hnot (phase_resumed resumes) (by decide)
    have hw := hnot settles.phase (by decide)
    obtain ⟨rfl, rfl⟩ : v = f₁.view ∧ raw = raw' := by simpa [hgs, hop, hrs, hw] using hmem
    exact ⟨{ f₁ with services := Attachment.advanceAll dt f₁.services, behavior := b },
      .hook f.view (.executed dt) :: (gs ++ (op ++
      ((Attachment.due dt 0 f₁.services).map (fun i => .hook f₁.view (.serviced i dt)) ++
        (.hook f₁.view (.ticked dt) :: (rs ++ [.hook f₁.view (.answered raw)]))))), w, rfl,
      settles, by simp⟩

theorem Visit.of_guarded {v : View} {i : Nat} {passed : Bool} {answer : Answer}
    (h : f.Visit s dt answer w g) (hmem : .hook v (.guarded i passed) ∈ w) :
    ∃ gs rest : List (Entry H.Note), w = .hook f.view (.executed dt) :: (gs ++ rest) ∧
      (∀ e ∈ gs, ∃ i passed, e = .hook f.view (.guarded i passed)) ∧
      .hook v (.guarded i passed) ∈ gs := by
  have hnot {p : Phase} {w' : List (Entry H.Note)} (hw' : OfPhase p w')
      (hp : Phase.asked ≠ p) : .hook v (.guarded i passed) ∉ w' := hw'.not_mem hp
  cases h with
  | @refused gs guards =>
    have hsweep := hnot (f.phase_sweep s) (by decide)
    exact ⟨gs, _, rfl, guards, by simpa [hsweep] using hmem⟩
  | @panicked gs _ b drawn guards =>
    have hstart := hnot (f.phase_start s drawn) (by decide)
    exact ⟨gs, _, rfl, guards, by simpa [hstart] using hmem⟩
  | @ticked gs op rs w f₁ _ _ _ _ _ _ guards opens resumes _ settles =>
    have hop := hnot opens.phase (by decide)
    have hrs := hnot (phase_resumed resumes) (by decide)
    have hw := hnot settles.phase (by decide)
    exact ⟨gs, _, rfl, guards, by simpa [hop, hrs, hw] using hmem⟩

end Frame
end TickTree
