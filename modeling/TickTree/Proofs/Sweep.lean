import TickTree.Node.Abort
import TickTree.Proofs.Entries
import TickTree.Proofs.Frames
/-! Aborting a tree, described without the stage: what becomes of the nodes, and which calls are
made in which order, does not depend on what callbacks answer. -/
namespace TickTree
variable {H : Host}

namespace Frame

def ended (f : Frame H) : Frame H :=
  { f with services := f.services.map Attachment.reset, active := false, time := 0 }

def closing (s : Setting) (result : Status) (f : Frame H) : List (Entry H.Note) :=
  slots f.view .detached 0 f.services.length ++
    [.notice s.listener (.exited { f.view with active := false } result f.time)]

def forced (s : Setting) (f : Frame H) : List (Entry H.Note) :=
  slots f.view .aborted 0 f.decorators.length ++ f.closing s .failure ++
    [.notice s.listener (.aborted f.ended.view)]

def settle (f : Frame H) : Frame H := if f.active then f.ended else f

def sweep (s : Setting) (f : Frame H) : List (Entry H.Note) := if f.active then f.forced s else []

@[simp] theorem id_ended (f : Frame H) : f.ended.id = f.id := rfl
@[simp] theorem bare_ended (f : Frame H) : f.ended.bare = f.bare := by
  simp [ended, bare, Function.comp_def, Attachment.reset]
@[simp] theorem id_settle (f : Frame H) : f.settle.id = f.id := by unfold settle; split <;> rfl
@[simp] theorem bare_settle (f : Frame H) : f.settle.bare = f.bare := by
  unfold settle; split <;> simp
@[simp] theorem active_settle (f : Frame H) : f.settle.active = false := by
  unfold settle
  split
  · rfl
  · next h => simpa using h

theorem settle_of_idle {f : Frame H} (h : f.active = false) : f.settle = f := by
  simp [settle, h]

theorem sweep_of_idle {f : Frame H} (s : Setting) (h : f.active = false) : f.sweep s = [] := by
  simp [sweep, h]

theorem mine_closing (s : Setting) (r : Status) (f : Frame H) : Mine f.id (f.closing s r) := by
  have : Mine f.view.id (slots f.view .detached 0 f.services.length : List (Entry H.Note)) :=
    mine_slots _ _ _ _
  simpa [closing, view] using this

theorem mine_forced (s : Setting) (f : Frame H) : Mine f.id (f.forced s) := by
  have : Mine f.view.id (slots f.view .aborted 0 f.decorators.length : List (Entry H.Note)) :=
    mine_slots _ _ _ _
  simpa [forced, mine_closing, view] using this

theorem mine_sweep (s : Setting) (f : Frame H) : Mine f.id (f.sweep s) := by
  unfold sweep
  split
  · exact mine_forced s f
  · simp

theorem calls_tellAborted (s : Setting) (v : View) (slot : Nat) (ds : List (Decorator H))
    (st : Stage H) :
    calls (tellAborted s v slot ds st).trace = slots v .aborted slot ds.length := by
  induction ds generalizing slot st with
  | nil => rfl
  | cons d ds ih =>
    have hd : calls (d.aborted s v st).trace = [] := by
      cases d with
      | custom d => simp [Decorator.aborted]
      | _ => rfl
    simp [tellAborted, ih, hd, slots_succ]

theorem calls_detach (s : Setting) (v : View) (slot : Nat) (as : List (Attachment H))
    (st : Stage H) : calls (detach s v slot as st).trace = slots v .detached slot as.length := by
  induction as generalizing slot st with
  | nil => rfl
  | cons a as ih => simp [detach, ih, slots_succ]

@[simp] theorem value_endActivation (s : Setting) (r : Status) (f : Frame H) (st : Stage H) :
    (f.endActivation s r st).value = f.ended := rfl

theorem calls_endActivation (s : Setting) (r : Status) (f : Frame H) (st : Stage H) :
    calls (f.endActivation s r st).trace = f.closing s r := by
  simp [endActivation, calls_detach, closing, view]

@[simp] theorem value_abort (s : Setting) (f : Frame H) (st : Stage H) :
    (f.abort s st).value = f.ended := rfl

theorem calls_abort (s : Setting) (f : Frame H) (st : Stage H) :
    calls (f.abort s st).trace = f.forced s := by
  simp [abort, calls_tellAborted, calls_endActivation, forced]

end Frame

namespace Node

mutual
/-- The tree after an abort. Below an idle node nothing changes. -/
def settle : Node H → Node H
  | mk f cs => if f.active then mk f.ended (settleAll cs) else mk f cs

def settleAll : List (Node H) → List (Node H)
  | [] => []
  | c :: cs => settle c :: settleAll cs
end

mutual
/-- The calls of an abort, children before their parent. -/
def sweep (s : Setting) : Node H → List (Entry H.Note)
  | mk f cs => if f.active then sweepAll s cs ++ f.forced s else []

def sweepAll (s : Setting) : List (Node H) → List (Entry H.Note)
  | [] => []
  | c :: cs => sweep s c ++ sweepAll s cs
end

theorem settleAll_eq_map (cs : List (Node H)) : settleAll cs = cs.map settle := by
  induction cs with
  | nil => rfl
  | cons c cs ih => rw [settleAll, ih, List.map_cons]

theorem sweepAll_eq_flatMap (s : Setting) (cs : List (Node H)) :
    sweepAll s cs = cs.flatMap (sweep s) := by
  induction cs with
  | nil => rfl
  | cons c cs ih => rw [sweepAll, ih, List.flatMap_cons]

theorem settle_mk (f : Frame H) (cs : List (Node H)) :
    (mk f cs).settle = mk f.settle (if f.active then cs.map settle else cs) := by
  rw [settle, settleAll_eq_map, Frame.settle]
  split <;> rfl

theorem sweep_mk (s : Setting) (f : Frame H) (cs : List (Node H)) :
    (mk f cs).sweep s = (if f.active then cs.flatMap (sweep s) else []) ++ f.sweep s := by
  rw [sweep, sweepAll_eq_flatMap, Frame.sweep]
  split <;> rfl

@[simp] theorem isActive_settle (n : Node H) : n.settle.isActive = false := by
  cases n with
  | mk f cs => rw [settle_mk]; exact f.active_settle

@[simp] theorem shape_settle (n : Node H) : n.settle.shape = n.shape := by
  induction n with
  | mk f cs ih =>
    rw [settle_mk, shape, mapFrames_mk, shape, mapFrames_mk, Frame.bare_settle]
    congr 1
    split
    · rw [List.map_map]
      exact List.map_congr_left ih
    · rfl

theorem abortAll_spec (s : Setting) (cs : List (Node H))
    (h : ∀ c ∈ cs, ∀ st, (c.abort s st).value = c.settle ∧
      calls (c.abort s st).trace = c.sweep s) (st : Stage H) :
    (abortAll s cs st).value = cs.map settle ∧
      calls (abortAll s cs st).trace = cs.flatMap (sweep s) := by
  induction cs generalizing st with
  | nil => exact ⟨rfl, rfl⟩
  | cons c cs ih =>
    have hc := h c (by simp)
    have hcs := ih fun c hc => h c (List.mem_cons_of_mem _ hc)
    simp [abortAll, hc, hcs]

theorem abort_spec (s : Setting) (n : Node H) (st : Stage H) :
    (n.abort s st).value = n.settle ∧ calls (n.abort s st).trace = n.sweep s := by
  induction n generalizing st with
  | mk f cs ih =>
    have hcs := abortAll_spec s cs ih
    rw [abort, settle_mk, sweep_mk, Frame.settle, Frame.sweep]
    split
    · simp [hcs, Frame.calls_abort]
    · simp

theorem value_abort (s : Setting) (n : Node H) (st : Stage H) :
    (n.abort s st).value = n.settle := (abort_spec s n st).1

theorem calls_abort (s : Setting) (n : Node H) (st : Stage H) :
    calls (n.abort s st).trace = n.sweep s := (abort_spec s n st).2

theorem abort_eq {s : Setting} {n m : Node H} {st st' : Stage H} {tr : List (Entry H.Note)}
    (h : n.abort s st = ⟨m, st', tr⟩) : m = n.settle ∧ calls tr = n.sweep s := by
  have := abort_spec s n st
  rwa [h] at this

theorem value_abortAll (s : Setting) (cs : List (Node H)) (st : Stage H) :
    (abortAll s cs st).value = cs.map settle :=
  (abortAll_spec s cs (fun c _ => abort_spec s c) st).1

theorem calls_abortAll (s : Setting) (cs : List (Node H)) (st : Stage H) :
    calls (abortAll s cs st).trace = cs.flatMap (sweep s) :=
  (abortAll_spec s cs (fun c _ => abort_spec s c) st).2

theorem abortAll_append (s : Setting) (cs ds : List (Node H)) :
    abortAll s (cs ++ ds) = (do
      let cs ← abortAll s cs
      let ds ← abortAll s ds
      pure (cs ++ ds)) := by
  induction cs with
  | nil => simp [abortAll]
  | cons c cs ih => simp [abortAll, ih]

theorem abort_of_idle (s : Setting) {n : Node H} (h : n.isActive = false) : n.abort s = pure n := by
  obtain ⟨f, cs⟩ := n
  rw [abort, if_neg (by simpa [isActive] using h)]

theorem abortAll_of_idle (s : Setting) {cs : List (Node H)} (h : ∀ c ∈ cs, c.isActive = false) :
    abortAll s cs = pure cs := by
  induction cs with
  | nil => rfl
  | cons c cs ih =>
    obtain ⟨hc, hcs⟩ := List.forall_mem_cons.mp h
    rw [abortAll, abort_of_idle s hc, ih hcs]
    rfl

end Node
end TickTree
