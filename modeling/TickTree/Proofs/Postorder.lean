import Mathlib.Data.List.Perm.Basic
import TickTree.Proofs.Freshness
import TickTree.Proofs.Sessions
/-! Aborts as sweeps. The abort of a tree that a run can reach ends the open activations one after
the other, children before their parents, and touches nothing else. -/
namespace TickTree
variable {H : Host}

def Stage.reach (st : Stage H) : Reach H.State := ⟨st.world, st.rng⟩

/-- What the host makes of a forced end that a decorator is told of. Decorators of the library
change their tables only. -/
def Decorator.told (s : Setting) (v : View) (w : World H.State) : Decorator H → World H.State
  | custom d => (H.aborted d s.scope v w).state
  | _ => w

namespace Frame
variable {s : Setting} {f : Frame H}

def detached (s : Setting) (r : Reach H.State) (f : Frame H) : Reach H.State :=
  f.services.foldl (fun r a => (H.detached a.service.label s.scope f.view r).state) r

/-- What the host makes of a forced end: the decorators are told, then the services detached. -/
def left (s : Setting) (r : Reach H.State) (f : Frame H) : Reach H.State :=
  f.detached s { r with world := f.decorators.foldl (fun w d => d.told s f.view w) r.world }

def abortEach (s : Setting) : List (Frame H) → Exec H Unit
  | [] => pure ()
  | f :: fs => do
    let _ ← f.abort s
    abortEach s fs

theorem abortEach_append (s : Setting) (fs gs : List (Frame H)) :
    abortEach s (fs ++ gs) = (do
      abortEach s fs
      abortEach s gs) := by
  induction fs with
  | nil => simp [abortEach]
  | cons f fs ih => simp [abortEach, ih]

theorem bind_abort {α : Type} (s : Setting) (f : Frame H) (k : Frame H → Exec H α) :
    (f.abort s >>= k) = (f.abort s >>= fun _ => k f.ended) := rfl

theorem reach_tellAborted (s : Setting) (v : View) (slot : Nat) (ds : List (Decorator H))
    (st : Stage H) : (tellAborted s v slot ds st).state.reach =
      { st.reach with world := ds.foldl (fun w d => d.told s v w) st.world } := by
  induction ds generalizing slot st with
  | nil => rfl
  | cons d ds ih =>
    have hd : (d.aborted s v st).state.reach = { st.reach with world := d.told s v st.world } := by
      cases d <;> rfl
    rw [tellAborted, Traced.bind_apply, Traced.bind_apply, ih]
    change Reach.mk (ds.foldl _ (d.aborted s v st).state.reach.world)
      (d.aborted s v st).state.reach.rng = _
    rw [hd]
    rfl

theorem reach_detach (s : Setting) (v : View) (slot : Nat) (as : List (Attachment H))
    (st : Stage H) : (detach s v slot as st).state.reach =
      as.foldl (fun r a => (H.detached a.service.label s.scope v r).state) st.reach := by
  induction as generalizing slot st with
  | nil => rfl
  | cons a as ih =>
    rw [detach, Traced.bind_apply, Traced.bind_apply, ih]
    rfl

theorem reach_abort (s : Setting) (f : Frame H) (st : Stage H) :
    (f.abort s st).state.reach = f.left s st.reach := by
  change (detach s f.view 0 f.services (tellAborted s f.view 0 f.decorators st).state).state.reach = _
  rw [reach_detach, reach_tellAborted]
  rfl

theorem abortEach_spec (s : Setting) (fs : List (Frame H)) (st : Stage H) :
    calls (abortEach s fs st).trace = fs.flatMap (forced s) ∧
      (abortEach s fs st).state.reach = fs.foldl (left s) st.reach := by
  induction fs generalizing st with
  | nil => exact ⟨rfl, rfl⟩
  | cons f fs ih =>
    obtain ⟨htrace, hreach⟩ := ih (f.abort s st).state
    simp [abortEach, htrace, hreach, calls_abort, reach_abort]

theorem left_eq_detached (untouched : ∀ d ∈ f.decorators, ∀ w, d.told s f.view w = w)
    (r : Reach H.State) : f.left s r = f.detached s r := by
  have hkept : f.decorators.foldl (fun w d => d.told s f.view w) r.world = r.world := by
    have hconst := List.foldl_ext _ (fun w _ => w) r.world fun w d hd => untouched d hd w
    exact hconst.trans (List.foldl_fixed f.decorators)
  rw [left, hkept]

end Frame

namespace Node
variable {s : Setting} {f : Frame H} {cs : List (Node H)} {n : Node H}

mutual
def postorder : Node H → List (Frame H)
  | mk f cs => postorderAll cs ++ [f]

def postorderAll : List (Node H) → List (Frame H)
  | [] => []
  | c :: cs => postorder c ++ postorderAll cs
end

theorem postorderAll_eq_flatMap (cs : List (Node H)) : postorderAll cs = cs.flatMap postorder := by
  induction cs with
  | nil => rfl
  | cons c cs ih => rw [postorderAll, ih, List.flatMap_cons]

theorem postorder_mk (f : Frame H) (cs : List (Node H)) :
    (mk f cs).postorder = cs.flatMap postorder ++ [f] := by
  rw [postorder, postorderAll_eq_flatMap]

theorem perm_postorder (n : Node H) : n.postorder.Perm n.frames := by
  induction n with
  | mk f cs ih =>
    rw [postorder_mk, frames_mk]
    exact (List.perm_append_singleton f _).trans ((List.Perm.flatMap_left cs ih).cons f)

/-- The open activations in postorder. -/
def live (n : Node H) : List (Frame H) := n.postorder.filter (·.active)

theorem live_mk (f : Frame H) (cs : List (Node H)) :
    (mk f cs).live = cs.flatMap live ++ if f.active then [f] else [] := by
  rw [live, postorder_mk, List.filter_append, List.filter_flatMap, List.filter_singleton]
  cases f.active <;> rfl

theorem live_of_idle (h : n.Idle) : n.live = [] := by
  rw [live, List.filter_eq_nil_iff]
  exact fun f hf => by simp [h f (n.perm_postorder.mem_iff.mp hf)]

theorem mapFrames_settle_of_idle (h : n.Idle) : n.mapFrames Frame.settle = n := by
  induction n with
  | mk f cs ih =>
    rw [mapFrames_mk, Frame.settle_of_idle (h f (by simp)),
      List.map_congr_left fun c hc => ih c hc (h.below c hc), List.map_id']

theorem abortAll_eq_abortEach (s : Setting) (h : ∀ c ∈ cs, c.abort s = (do
      Frame.abortEach s c.live
      pure (c.mapFrames Frame.settle))) :
    abortAll s cs = (do
      Frame.abortEach s (cs.flatMap live)
      pure (cs.map (mapFrames Frame.settle))) := by
  induction cs with
  | nil => rfl
  | cons c cs ih =>
    obtain ⟨hc, hcs⟩ := List.forall_mem_cons.mp h
    simp [abortAll, hc, ih hcs, Frame.abortEach_append]

/-- The abort of a tree in which no activation outlives that of a parent. -/
theorem abort_eq_abortEach (s : Setting) (h : n.Closed) : n.abort s = (do
    Frame.abortEach s n.live
    pure (n.mapFrames Frame.settle)) := by
  induction n with
  | mk f cs ih =>
    cases hf : f.active with
    | false =>
      have hn : (mk f cs).isActive = false := hf
      have hidle := h.idle hn
      rw [abort_of_idle s hn, live_of_idle hidle, mapFrames_settle_of_idle hidle]
      rfl
    | true =>
      have hall := abortAll_eq_abortEach s fun c hc => ih c hc ((all_mk.mp h).2 c hc)
      rw [abort, if_pos hf, hall, live_mk, if_pos hf, mapFrames_mk, Frame.settle, if_pos hf]
      simp only [bind_assoc, pure_bind, Frame.abortEach_append, Frame.abortEach]
      exact congrArg _ (funext fun _ => Frame.bind_abort s f _)

end Node

/-- At any point of a run, the abort of the root calls the hooks of a forced end for each open
activation and nothing else, in postorder. Afterwards all nodes are idle without any time, and a
second abort does nothing. In between, only callbacks of the host change the context. -/
theorem swept_of_play (ms : List (Move H)) {t : Rooted H} (idle : t.root.Idle)
    (rested : t.root.Rested) (st : Stage H) :
    let n := (play ms t st).value.2.root
    n.postorder.Perm n.frames ∧ ∀ (s : Setting) (st' : Stage H),
      let o := Move.abort.act ⟨s, n⟩ st'
      calls o.trace = (n.postorder.filter (·.active)).flatMap (Frame.forced s) ∧
      o.value = ([], ⟨s, n.mapFrames Frame.settle⟩) ∧
      (∀ f ∈ o.value.2.root.frames, f.active = false ∧ f.time = 0) ∧
      (∀ s' st'', Move.abort.act ⟨s', o.value.2.root⟩ st'' =
        ⟨([], ⟨s', o.value.2.root⟩), st'', []⟩) ∧
      o.state.reach = (n.postorder.filter (·.active)).foldl (Frame.left s) st'.reach ∧
      ((∀ f ∈ n.postorder.filter (·.active), ∀ d ∈ f.decorators, ∀ w, d.told s f.view w = w) →
        o.state.reach = (n.postorder.filter (·.active)).foldl (Frame.detached s) st'.reach) := by
  intro n
  have hsound := Node.sound_of_idle idle
  have hclosed : n.Closed := closed_play ms hsound (Node.closed_of_idle idle) st
  have hrested : n.Rested := rested_play ms hsound rested st
  have hidle : n.settle.Idle := hclosed.idle_settle
  refine ⟨n.perm_postorder, fun s st' => ?_⟩
  obtain ⟨htrace, hreach⟩ := Frame.abortEach_spec s n.live st'
  have hact : Move.abort.act ⟨s, n⟩ st' = ⟨([], ⟨s, n.mapFrames Frame.settle⟩),
      (Frame.abortEach s n.live st').state, (Frame.abortEach s n.live st').trace⟩ := by
    simp [Move.act, Node.abort_eq_abortEach s hclosed]
  have hvalue : n.mapFrames Frame.settle = n.settle := by
    have hvalue := congrArg (fun o => o.value.2.root) hact
    exact hvalue.symm.trans (n.value_abort s st')
  rw [hact]
  refine ⟨htrace, rfl, fun f hf => ?_, fun s' st'' => ?_, hreach, fun untouched => ?_⟩
  · rw [hvalue] at hf
    exact ⟨hidle f hf, ((Node.rested_settle hrested) f hf (hidle f hf)).1⟩
  · simp [Move.act, hvalue, Node.abort_of_idle s' (Node.isActive_of_idle hidle)]
  · exact hreach.trans (List.foldl_ext _ _ _ fun r f hf => Frame.left_eq_detached (untouched f hf) r)

/-- The child that goes on is ended before its parent. -/
theorem swept_of_play_echo :
    let n := (play [.execute 1] Rooted.echo Rooted.still).value.2.root
    let o := Move.abort.act ⟨Rooted.echo.setting, n⟩ Rooted.still
    (Rooted.echo.root.Idle ∧ Rooted.echo.root.Rested) ∧
      n.live.map (·.id) = [2, 3] ∧
      calls o.trace = n.live.flatMap (Frame.forced Rooted.echo.setting) ∧
      ∀ f ∈ o.value.2.root.frames, f.active = false ∧ f.time = 0 := by
  intro n o
  have hidle : Rooted.echo.root.Idle := by decide
  have hrested : Rooted.echo.root.Rested := by
    simp [Node.Rested, Frame.Rested, Rooted.echo, Frame.idle, Attachment.idle]
  have hlive : n.live.map (·.id) = [2, 3] := by decide +kernel
  obtain ⟨htrace, -, hframes, -⟩ :=
    (swept_of_play [.execute 1] hidle hrested Rooted.still).2 Rooted.echo.setting Rooted.still
  exact ⟨⟨hidle, hrested⟩, hlive, htrace, hframes⟩

/-- A host whose decorators mark the global board when an activation is cut short. -/
def Host.marking : Host :=
  { Host.echo with
    aborted := fun _ s _ w => ⟨(), w.putBoard s.global ((w.board s.global).reset 0 .bool true), []⟩ }

def Rooted.marking : Rooted Host.marking where
  setting := Rooted.echo.setting
  root :=
    let leaf : Frame Host.marking := .idle 1 "" (.action .running)
    .mk { leaf with decorators := [.custom ()] } []

/-- Services are not all that reaches the context in an abort. This tree has none, and the end of its
activation leaves a mark on the global board. -/
theorem abort_writes_board :
    let t := Rooted.marking
    let st : Stage Host.marking := ⟨⟨⟨#[.empty], #[], ()⟩, .empty⟩, .ofSeed 0⟩
    let p := play [.execute 1] t st
    let n := p.value.2.root
    let o := Move.abort.act p.value.2 p.state
    (t.root.Idle ∧ t.root.Rested) ∧ n.isActive = true ∧ (∀ f ∈ n.frames, f.services = []) ∧
      (p.state.world.board t.setting.scope.global).get? 0 .bool = none ∧
      (o.state.world.board t.setting.scope.global).get? 0 .bool = some true := by
  intro t st p n o
  have hidle : t.root.Idle := by decide
  have hrested : t.root.Rested := by
    simp [t, Node.Rested, Frame.Rested, Rooted.marking, Frame.idle]
  exact ⟨⟨hidle, hrested⟩, by decide +kernel⟩

end TickTree
