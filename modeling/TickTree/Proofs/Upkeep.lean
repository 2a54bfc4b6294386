import TickTree.Proofs.Tracks
/-! What executions and aborts keep whatever callbacks answer: behaviors that suit their nodes, and
frames that show which activations are open. -/
namespace TickTree
variable {H : Host}

namespace Node

theorem sound_settle {n : Node H} (h : n.Sound) : n.settle.Sound := by
  induction n with
  | mk f cs ih =>
    rw [settle_mk]
    obtain ⟨-, hcs⟩ := all_mk.mp h
    refine .mk (fun ha => by simp at ha) fun c hc => ?_
    split at hc
    · obtain ⟨c, hm, rfl⟩ := List.mem_map.mp hc
      exact ih c hm (hcs c hm)
    · exact hcs c hc

theorem sound_execute (s : Setting) (dt : Float32) {n : Node H} (h : n.Sound) (st : Stage H) :
    (n.execute s dt st).value.2.Sound := by
  refine execute_rule (P := fun _ _ o => o.value.2.Sound) (fun f cs st o hs _ h => ?_) h st
  obtain ⟨hf, hcs⟩ := all_mk.mp hs
  cases Frame.unfolds h with
  | mk _ _ _ _ visits _ teardown _ _ _ _ _ _ _ fits =>
    refine .mk (fits hf) (teardown.forall_mem (fun c => sound_settle) ?_)
    exact visits.forall_mem (fun _ _ _ h _ => h.1) hcs

end Node

namespace Frame

theorem Settles.openAfter_eq {s : Setting} {dt : Float32} {f f' : Frame H} {raw answer : Answer}
    {w : List (Entry H.Note)} (h : f.Settles s dt raw answer w f') :
    openAfter f.active w = f'.active := by
  cases h with
  | stopped => rfl
  | kept => exact openAfter_map_hook ..
  | @concluded raw r hs =>
    have h : openAfter f.active (hs.map (.hook f.view : Hook → Entry H.Note)) = f.active :=
      openAfter_map_hook f.active f.view (fun h => h) hs
    simp [h, openAfter_closing, Entry.turn, ended]

theorem Settles.active_iff {s : Setting} {dt : Float32} {f f' : Frame H} {raw answer : Answer}
    {w : List (Entry H.Note)} (h : f.Settles s dt raw answer w f') (hf : f.active = true) :
    ∀ r, answer = .ok r → (f'.active = true ↔ r = .running) := by
  cases h with
  | stopped => simp
  | kept =>
    intro r hr
    cases hr
    simpa [aged] using hf
  | concluded modified terminal =>
    intro r hr
    cases hr
    constructor
    · intro h
      cases h
    · intro h
      rw [h] at terminal
      cases terminal

theorem Visit.openAfter_eq {s : Setting} {dt : Float32} {f f' : Frame H} {answer : Answer}
    {w : List (Entry H.Note)} (h : f.Visit s dt answer w f') :
    openAfter f.active w = f'.active := by
  cases h with
  | refused guards =>
    simp [Entry.turn, openAfter_quiet (mine_guards guards).2, openAfter_sweep]
  | panicked => simp [Entry.turn, openAfter_start, begun]
  | ticked guards opens resumes _ settles =>
    have h := settles.openAfter_eq
    simp only [opens.active_eq] at h
    simp [Entry.turn, openAfter_quiet (mine_guards guards).2, opens.openAfter_eq,
      openAfter_quiet (mine_resumed resumes).2, h]

def activity : FrameLaw H where
  covers _ := True
  covers_ok _ := trivial
  holds f w f' := f'.active = openAfter f.active w
  refl _ := rfl
  trans h h' := by rw [h', h, openAfter_append]
  forced s f _ := (openAfter_forced _ s f).symm
  visit h _ := h.openAfter_eq.symm

end Frame

namespace Node

/-- A root is active just when it answered that it goes on. -/
theorem isActive_execute (s : Setting) (dt : Float32) {n : Node H} (h : n.Sound) (st : Stage H) :
    ∀ r, (n.execute s dt st).value.1 = .ok r →
      ((n.execute s dt st).value.2.isActive = true ↔ r = .running) := by
  refine execute_rule (P := fun _ _ o => ∀ r, o.value.1 = .ok r →
    (o.value.2.isActive = true ↔ r = .running)) (fun f cs st o _ _ h => ?_) h st
  cases h with
  | refused guarded aborted =>
    obtain ⟨rfl, -⟩ := abort_eq aborted
    intro r hr
    cases hr
    simp
  | panicked => simp
  | ticked guarded activated served fits ticked resolved =>
    obtain ⟨-, hop⟩ | ⟨_, _, _, h, -⟩ := Frame.activate_spec activated
    swap
    · cases h
    obtain ⟨f', cs', w₁, swept, w₂, rfl, -, hsettles, -⟩ := resolves_spec resolved
    exact hsettles.active_iff hop.active_eq

end Node
end TickTree
