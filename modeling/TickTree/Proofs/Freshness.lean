import TickTree.Proofs.Agreement
import TickTree.Proofs.Run
/-! Every activation is fresh: a run does not depend on what earlier activations left behind in idle
nodes, and an idle node has no time and no timer running. -/
namespace TickTree
variable {H : Host}

open Traced (Agree)

namespace Frame

/-- While idle, neither the node nor its services have any time on their clocks. -/
def Rested (f : Frame H) : Prop := f.active = false → f.time = 0 ∧ ∀ a ∈ f.services, a.timer = 0

theorem rested_ended (f : Frame H) : f.ended.Rested := by
  refine fun _ => ⟨rfl, fun a ha => ?_⟩
  obtain ⟨b, -, rfl⟩ := List.mem_map.mp ha
  rfl

theorem rested_settle {f : Frame H} (h : f.Rested) : f.settle.Rested := by
  unfold settle
  split
  · exact rested_ended f
  · exact h

theorem Settles.rested {s : Setting} {dt : Float32} {f f' : Frame H} {raw answer : Answer}
    {w : List (Entry H.Note)} (h : f.Settles s dt raw answer w f') (hf : f.active = true) :
    f'.Rested := by
  cases h with
  | stopped => exact fun hidle => by simp [hf] at hidle
  | kept => exact fun hidle => by simp [aged, hf] at hidle
  | concluded => exact rested_ended (f.aged dt)

theorem Visit.rested {s : Setting} {dt : Float32} {f f' : Frame H} {answer : Answer}
    {w : List (Entry H.Note)} (h : f.Visit s dt answer w f') (hf : f.Rested) : f'.Rested := by
  cases h with
  | refused => exact rested_settle hf
  | panicked => exact fun hidle => by cases hidle
  | ticked _ opens _ _ settles => exact settles.rested opens.active_eq

end Frame

namespace Node

theorem forall_frames_mk {p : Frame H → Prop} {f : Frame H} {cs : List (Node H)} :
    (∀ g ∈ (mk f cs).frames, p g) ↔ p f ∧ ∀ c ∈ cs, ∀ g ∈ c.frames, p g := by
  rw [frames_mk, List.forall_mem_cons]
  refine and_congr_right fun _ => ?_
  simp only [List.mem_flatMap]
  exact ⟨fun h c hc g hg => h g ⟨c, hc, hg⟩, fun h g ⟨c, hc, hg⟩ => h c hc g hg⟩

def Rested (n : Node H) : Prop := ∀ f ∈ n.frames, f.Rested

theorem rested_settle {n : Node H} (h : n.Rested) : n.settle.Rested := by
  induction n with
  | mk f cs ih =>
    obtain ⟨hf, hcs⟩ := forall_frames_mk.mp h
    rw [settle_mk]
    refine forall_frames_mk.mpr ⟨Frame.rested_settle hf, ?_⟩
    split
    · intro c hc
      obtain ⟨c, hm, rfl⟩ := List.mem_map.mp hc
      exact ih c hm (hcs c hm)
    · exact hcs

theorem rested_execute (s : Setting) (dt : Float32) {n : Node H} (hn : n.Sound) (h : n.Rested)
    (st : Stage H) : (n.execute s dt st).value.2.Rested := by
  refine execute_rule (P := fun n _ o => n.Rested → o.value.2.Rested)
    (fun f cs st o _ _ hexecutes h => ?_) hn st h
  obtain ⟨hf, hcs⟩ := forall_frames_mk.mp h
  cases Frame.unfolds hexecutes with
  | mk _ _ _ visit visits _ teardown =>
    refine forall_frames_mk.mpr ⟨visit.rested hf, ?_⟩
    exact teardown.forall_mem (fun _ => rested_settle)
      (visits.forall_mem (q := Rested) (fun _ _ _ h => h.1) hcs)

end Node

theorem rested_play (ms : List (Move H)) {t : Rooted H} (hn : t.root.Sound) (h : t.root.Rested)
    (st : Stage H) : (play ms t st).value.2.root.Rested := by
  refine (play_keeps (I := fun t => t.root.Sound ∧ t.root.Rested) (fun m t st h => ?_) ms
    ⟨hn, h⟩ st).2
  exact ⟨sound_act m h.1 st, (act_root (I := fun n => n.Sound ∧ n.Rested)
    (fun _ s dt _ h => ⟨Node.sound_execute s dt h.1 _, Node.rested_execute s dt h.1 h.2 _⟩)
    (fun _ h => ⟨Node.sound_settle h.1, Node.rested_settle h.2⟩) m h st).2⟩

def Rooted.Alike (t u : Rooted H) : Prop := t.setting = u.setting ∧ t.root.Alike u.root

theorem act_agree (m : Move H) {t u : Rooted H} (h : t.Alike u) :
    Agree (fun x y => x.1 = y.1 ∧ x.2.Alike y.2) (m.act t) (m.act u) := by
  obtain ⟨s, n⟩ := t
  obtain ⟨s', n'⟩ := u
  obtain ⟨rfl, hn⟩ : s = s' ∧ n.Alike n' := h
  cases m with
  | execute dt =>
    refine (Node.execute_agree s dt hn).bind ?_
    rintro ⟨answer, n⟩ ⟨_, n'⟩ ⟨rfl, hn⟩
    exact .pure ⟨rfl, rfl, hn⟩
  | abort => exact (Node.abort_agree s hn).bind fun n n' hn => .pure ⟨rfl, rfl, hn⟩
  | beginTick dt => exact .pure ⟨rfl, rfl, hn⟩
  | outside change => exact .seq fun _ => .pure ⟨rfl, rfl, hn⟩

theorem play_agree (ms : List (Move H)) {t u : Rooted H} (h : t.Alike u) :
    Agree (fun x y => x.1 = y.1 ∧ x.2.Alike y.2) (play ms t) (play ms u) := by
  induction ms generalizing t u with
  | nil => exact .pure ⟨rfl, h⟩
  | cons m ms ih =>
    refine (act_agree m h).bind ?_
    rintro ⟨answers, t⟩ ⟨_, u⟩ ⟨rfl, h⟩
    refine (ih h).bind ?_
    rintro ⟨more, t⟩ ⟨_, u⟩ ⟨rfl, h⟩
    exact .pure ⟨rfl, h⟩

/-- Runs of trees that are alike cannot be told apart, at whatever point of them; and idle nodes of
a tree put together from idle nodes are at rest in every run. -/
theorem fresh_of_play (ms : List (Move H)) (s : Setting) (st : Stage H) :
    (∀ n m : Node H, n.Alike m →
      let o := play ms ⟨s, n⟩ st
      let o' := play ms ⟨s, m⟩ st
      o.value.1 = o'.value.1 ∧ o.trace = o'.trace ∧ o.state = o'.state ∧
        o.value.2.root.activity = o'.value.2.root.activity ∧
        o.value.2.root.Alike o'.value.2.root) ∧
      ∀ n : Node H, n.Idle → n.Rested → ∀ f ∈ (play ms ⟨s, n⟩ st).value.2.root.frames,
        f.active = false → f.time = 0 ∧ ∀ a ∈ f.services, a.timer = 0 := by
  constructor
  · intro n m h o o'
    have halike : Rooted.Alike ⟨s, n⟩ ⟨s, m⟩ := ⟨rfl, h⟩
    obtain ⟨⟨hanswers, -, hroot⟩, hstate, htrace⟩ := play_agree ms halike st
    exact ⟨hanswers, htrace, hstate, hroot.activity_eq, hroot⟩
  · intro n hidle hrested
    exact rested_play ms (Node.sound_of_idle hidle) hrested st

def Rooted.used : Node Host.echo := echo.root.mapFrame ({ · with behavior := .selector 5 })

theorem fresh_of_play_echo :
    Rooted.echo.root.Alike Rooted.used ∧ Rooted.used.Rested ∧
      (play [.execute 1] ⟨Rooted.echo.setting, Rooted.echo.root⟩ Rooted.still).value.1 =
        (play [.execute 1] ⟨Rooted.echo.setting, Rooted.used⟩ Rooted.still).value.1 ∧
      ∀ f ∈ (play [.execute 1] ⟨Rooted.echo.setting, Rooted.used⟩ Rooted.still).value.2.root.frames,
        f.active = false → f.time = 0 ∧ ∀ a ∈ f.services, a.timer = 0 := by
  have halike : Rooted.echo.root.Alike Rooted.used := rfl
  have hidle : Rooted.used.Idle := by decide
  have hrested : Rooted.used.Rested := by
    simp [Node.Rested, Frame.Rested, Rooted.used, Rooted.echo, Node.mapFrame, Frame.idle,
      Attachment.idle]
  have hfresh := fresh_of_play [.execute 1] Rooted.echo.setting Rooted.still
  exact ⟨halike, hrested, (hfresh.1 _ _ halike).1, hfresh.2 _ hidle hrested⟩

end TickTree
