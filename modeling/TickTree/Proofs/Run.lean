import TickTree.Proofs.Upkeep
/-! Runs: what a host does, call after call, with the root of a tree in one context. Laws of frames
and what executions and aborts keep hold of whole runs. -/
namespace TickTree
variable {H : Host}

inductive Move (H : Host) where
  | execute (dt : Float32)
  | abort
  /-- The clock of the context goes on. -/
  | beginTick (dt : Float32)
  /-- Between calls the host may do anything to what trees share, and draw numbers. -/
  | outside (change : Stage H → Stage H)

structure Rooted (H : Host) where
  setting : Setting
  root : Node H

def Move.act : Move H → Rooted H → Exec H (List Answer × Rooted H)
  | execute dt, t => do
    let (answer, root) ← t.root.execute t.setting dt
    pure ([answer], { t with root := root })
  | abort, t => do
    let root ← t.root.abort t.setting
    pure ([], { t with root := root })
  | beginTick dt, t =>
    pure ([], { t with setting := { t.setting with scope := t.setting.scope.beginTick dt } })
  | outside change, t => do
    Traced.modify change
    pure ([], t)

def play : List (Move H) → Rooted H → Exec H (List Answer × Rooted H)
  | [], t => pure ([], t)
  | m :: ms, t => do
    let (answers, t) ← m.act t
    let (more, t) ← play ms t
    pure (answers ++ more, t)

theorem play_cons (m : Move H) (ms : List (Move H)) (t : Rooted H) (st : Stage H) :
    play (m :: ms) t st =
      let o := m.act t st
      let o' := play ms o.value.2 o.state
      ⟨(o.value.1 ++ o'.value.1, o'.value.2), o'.state, o.trace ++ o'.trace⟩ := by
  simp [play]

theorem act_root {I : Node H → Prop}
    (execute : ∀ n s dt st, I n → I (n.execute s dt st).value.2) (settle : ∀ n, I n → I n.settle)
    (m : Move H) {t : Rooted H} (h : I t.root) (st : Stage H) : I (m.act t st).value.2.root := by
  cases m with
  | execute dt => exact execute t.root t.setting dt st h
  | abort =>
    change I (t.root.abort t.setting st).value
    rw [Node.value_abort]
    exact settle t.root h
  | beginTick dt => exact h
  | outside change => exact h

theorem sound_act (m : Move H) {t : Rooted H} (h : t.root.Sound) (st : Stage H) :
    (m.act t st).value.2.root.Sound :=
  act_root (I := Node.Sound) (fun _ s dt _ h => Node.sound_execute s dt h _)
    (fun _ h => Node.sound_settle h) m h st

theorem shape_act (m : Move H) {t : Rooted H} (h : t.root.Sound) (st : Stage H) :
    (m.act t st).value.2.root.shape = t.root.shape :=
  (act_root (I := fun n => n.Sound ∧ n.shape = t.root.shape)
    (fun _ s dt _ h =>
      ⟨Node.sound_execute s dt h.1 _, (Node.shape_execute s dt h.1 _).trans h.2⟩)
    (fun _ h => ⟨Node.sound_settle h.1, (Node.shape_settle _).trans h.2⟩) m ⟨h, rfl⟩ st).2

theorem play_keeps {I : Rooted H → Prop}
    (keep : ∀ (m : Move H) t st, I t → I (m.act t st).value.2) (ms : List (Move H)) {t : Rooted H}
    (h : I t) (st : Stage H) : I (play ms t st).value.2 := by
  induction ms generalizing t st with
  | nil => exact h
  | cons m ms ih =>
    rw [play_cons]
    exact ih (keep m t st h) _

/-- A relation that holds of every move under an invariant, and that composes, holds of every
run. -/
theorem play_rule {I : Rooted H → Prop}
    {R : Rooted H → List Answer → List (Entry H.Note) → Rooted H → Prop}
    (keep : ∀ (m : Move H) t st, I t → I (m.act t st).value.2) (refl : ∀ t, R t [] [] t)
    (trans : ∀ {t u v as bs tr tr'}, R t as tr u → R u bs tr' v → R t (as ++ bs) (tr ++ tr') v)
    (step : ∀ (m : Move H) t st, I t →
      R t (m.act t st).value.1 (m.act t st).trace (m.act t st).value.2)
    (ms : List (Move H)) {t : Rooted H} (h : I t) (st : Stage H) :
    R t (play ms t st).value.1 (play ms t st).trace (play ms t st).value.2 := by
  induction ms generalizing t st with
  | nil => exact refl t
  | cons m ms ih =>
    rw [play_cons]
    exact trans (step m t st h) (ih (keep m t st h) _)

theorem shape_play (ms : List (Move H)) {t : Rooted H} (h : t.root.Sound) (st : Stage H) :
    (play ms t st).value.2.root.shape = t.root.shape :=
  (play_keeps (I := fun u => u.root.Sound ∧ u.root.shape = t.root.shape)
    (fun m _ st h => ⟨sound_act m h.1 st, (shape_act m h.1 st).trans h.2⟩) ms ⟨h, rfl⟩ st).2

/-- A sound tree whose nodes can be told apart. -/
structure Rooted.Proper (t : Rooted H) : Prop where
  sound : t.root.Sound
  distinct : t.root.ids.Nodup

theorem proper_act (m : Move H) {t : Rooted H} (h : t.Proper) (st : Stage H) :
    (m.act t st).value.2.Proper :=
  ⟨sound_act m h.sound st, Node.ids_eq_of_shape (shape_act m h.sound st) ▸ h.distinct⟩

theorem proper_play (ms : List (Move H)) {t : Rooted H} (h : t.Proper) (st : Stage H) :
    (play ms t st).value.2.Proper :=
  play_keeps (I := Rooted.Proper) (fun m _ st h => proper_act m h st) ms h st

theorem act_tracks (L : FrameLaw H) (m : Move H) {t : Rooted H} (h : t.Proper)
    (st : Stage H) (hc : ∀ a ∈ (m.act t st).value.1, L.covers a) :
    Each L.holds (m.act t st).trace t.root.frames (m.act t st).value.2.root.frames := by
  cases m with
  | execute dt =>
    have := Node.execute_tracks L t.setting dt h.sound h.distinct st (hc _ (by simp [Move.act]))
    simpa [Move.act] using this
  | abort =>
    have := Node.sweep_tracks L t.setting h.distinct
    have htrace := own_congr (Node.calls_abort t.setting t.root st)
    simpa [Move.act, Node.value_abort] using this.congr fun f _ => htrace f.id
  | beginTick dt => exact .stay L.refl fun _ _ => rfl
  | outside change => exact .stay L.refl fun _ _ => rfl

/-- Along a run, every frame of the tree keeps the law with the entries about it. -/
theorem play_tracks (L : FrameLaw H) (ms : List (Move H)) {t : Rooted H} (h : t.Proper)
    (st : Stage H) (hc : ∀ a ∈ (play ms t st).value.1, L.covers a) :
    Each L.holds (play ms t st).trace t.root.frames (play ms t st).value.2.root.frames := by
  refine play_rule (I := Rooted.Proper) (R := fun t as tr u => (∀ a ∈ as, L.covers a) →
    Each L.holds tr t.root.frames u.root.frames)
    (fun m _ st h => proper_act m h st) ?_ ?_ ?_ ms h st hc
  · exact fun t _ => .stay L.refl fun _ _ => rfl
  · intro t u v as bs tr tr' h h' hc
    exact L.each_trans (h fun a ha => hc a (List.mem_append_left _ ha))
      (h' fun a ha => hc a (List.mem_append_right _ ha))
  · exact fun m t st h hc => act_tracks L m h st hc

/-- A host whose leaves answer what they hold, and nothing else happens. -/
def Host.echo : Host where
  State := Unit
  Note := Unit
  Action := Status
  Condition := Bool
  Decorator := Unit
  Service := Unit
  start a _ := pure a
  tick a _ _ := pure (.ok a, a)
  finish a _ _ := pure a
  check c _ := pure (c, c)
  name _ := ""
  allows _ _ _ := pure true
  modifier _ := none
  finished _ _ _ _ := pure ()
  aborted _ _ _ := pure ()
  attached _ _ _ := pure ()
  serve _ _ _ _ := pure ()
  detached _ _ _ := pure ()

instance : DecidableEq Host.echo.Note := inferInstanceAs (DecidableEq Unit)

namespace Rooted

def echo : Rooted Host.echo where
  setting := ⟨⟨⟨0⟩, ⟨1⟩, ⟨2⟩, ⟨0⟩, 0, 0⟩, none⟩
  root := .mk { Frame.idle 3 "" (.selector 0) with services := [.idle ⟨1, ()⟩] }
    [.mk (.idle 1 "" (.action .failure)) [], .mk (.idle 2 "" (.action .running)) []]

def still : Stage Host.echo := ⟨⟨⟨#[], #[], ()⟩, .empty⟩, .ofSeed 0⟩

end Rooted
end TickTree
