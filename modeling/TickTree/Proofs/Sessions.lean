import TickTree.Proofs.Groves
import TickTree.Proofs.Nesting
/-! Sessions: what a host does with a tree from its start to its end. The tree is said to have
completed just when it stops being active, and when this or a restart is told, all of its nodes are
idle. -/
namespace TickTree
variable {H : Host} {ν : Type}

namespace Node
variable {n : Node H}

theorem isActive_of_idle (h : n.Idle) : n.isActive = false := h n.frame n.frame_mem_frames

theorem closed_of_idle (h : n.Idle) : n.Closed := by
  refine all_of_idle (fun f cs _ hcs => ?_) h
  exact fun _ c hc => isActive_of_idle (hcs c hc)

theorem closed_settle (h : n.Closed) : n.settle.Closed := closed_of_idle h.idle_settle

theorem closed_execute (s : Setting) (dt : Float32) (h : n.Sound) (hn : n.Closed) (st : Stage H) :
    (n.execute s dt st).value.2.Closed := by
  let P : Law H := fun n _ o => n.Closed → o.value.2.Closed
  refine execute_rule (P := P) (fun f cs st o _ _ h hn => ?_) h st hn
  obtain ⟨-, hcs⟩ := all_mk.mp hn
  cases h with
  | refused guarded aborted =>
    obtain ⟨rfl, -⟩ := abort_eq aborted
    exact closed_settle hn
  | panicked guarded activated =>
    obtain ⟨h, -⟩ | ⟨_, _, _, -, -, rfl, -⟩ := Frame.activate_spec activated
    · cases h
    · exact .mk (by simp [Frame.begun]) hcs
  | @ticked f' as raw answer b cs' n st₁ st₂ st₃ st₄ st' tr₁ tr₂ tr₃ tr₄ tr₅ guarded activated
      served fits ticked resolved =>
    obtain ⟨-, hop⟩ | ⟨_, _, _, h, -⟩ := Frame.activate_spec activated
    swap
    · cases h
    have hactive := hop.active_eq
    have hcs' : ∀ c ∈ cs', c.Closed := by
      cases ticked with
      | mk _ _ _ visits => exact visits.forall_mem (fun _ _ _ h hc => h.1 hc) hcs
    cases resolved with
    | stopped => exact .mk (by simp [hactive]) hcs'
    | kept => exact .mk (by simp [Frame.aged, hactive]) hcs'
    | concluded modified terminal concluded =>
      obtain ⟨⟨b', hvalue⟩, -⟩ := Frame.conclude_spec s _ _ cs' _
      rw [concluded] at hvalue
      subst hvalue
      refine closed_of_idle (idle_mk rfl fun c hc => ?_)
      obtain ⟨c, hm, rfl⟩ := List.mem_map.mp hc
      exact (hcs' c hm).idle_settle

/-- A result that ends the activation of the root leaves the whole tree idle. -/
theorem idle_execute {s : Setting} {dt : Float32} (h : n.Sound) (hn : n.Closed) {st : Stage H}
    {result : Status} (answers : (n.execute s dt st).value.1 = .ok result)
    (terminal : result.isTerminal = true) : (n.execute s dt st).value.2.Idle := by
  refine (closed_execute s dt h hn st).idle (Bool.eq_false_iff.mpr fun hactive => ?_)
  rw [(isActive_execute s dt h st result answers).mp hactive] at terminal
  cases terminal

def rest (n : Node H) : List Bool := n.frames.map fun _ => false

theorem activity_of_idle (h : n.Idle) : n.activity = n.rest := List.map_congr_left h

theorem rest_eq_of_shape {m : Node H} (h : m.shape = n.shape) : m.rest = n.rest := by
  have hids := congrArg (List.map fun _ => false) (ids_eq_of_shape h)
  simpa [rest, ids, Function.comp_def] using hids

end Node

theorem closed_move (m : Move H) {t : Rooted H} (h : t.root.Sound ∧ t.root.Closed) (st : Stage H) :
    (m.act t st).value.2.root.Sound ∧ (m.act t st).value.2.root.Closed :=
  act_root (I := fun n => n.Sound ∧ n.Closed)
    (fun _ s dt st h => ⟨Node.sound_execute s dt h.1 st, Node.closed_execute s dt h.1 h.2 st⟩)
    (fun _ h => ⟨Node.sound_settle h.1, Node.closed_settle h.2⟩) m h st

theorem closed_play (ms : List (Move H)) {t : Rooted H} (h : t.root.Sound) (ht : t.root.Closed)
    (st : Stage H) : (play ms t st).value.2.root.Closed :=
  (play_keeps (I := fun u => u.root.Sound ∧ u.root.Closed) (fun m _ st h => closed_move m h st) ms
    ⟨h, ht⟩ st).2

namespace Entry

def tree? : Entry ν → Option TreeView
  | notice _ (.completed v _) | notice _ (.restarted v) => some v
  | _ => none

def going? : Entry ν → Option Bool
  | notice _ (.completed ..) => some false
  | notice _ (.restarted _) => some true
  | _ => none

def completed? : Entry ν → Option Status
  | notice _ (.completed _ result) => some result
  | _ => none

theorem of_about {e : Entry ν} (h : e.about.isSome) :
    e.tree? = none ∧ e.going? = none ∧ e.completed? = none := by
  match e with
  | hook .. | report _ | note _ | notice _ (.entered ..) | notice _ (.exited ..)
  | notice _ (.aborted _) => exact ⟨rfl, rfl, rfl⟩

end Entry

def completions (w : List (Entry ν)) : List Status := w.filterMap Entry.completed?

/-- What is told of the tree as a whole takes it from going to not going, or back: it completes only
while it goes, and goes again from a restart on. -/
inductive Paced : Bool → List (Entry ν) → Bool → Prop
  | nil {b : Bool} : Paced b [] b
  | other {b c : Bool} {e : Entry ν} {w : List (Entry ν)} (he : e.going? = none)
    (h : Paced b w c) : Paced b (e :: w) c
  | completed {c : Bool} {l : Option Listener} {v : TreeView} {result : Status}
    {w : List (Entry ν)} (h : Paced false w c) : Paced true (.notice l (.completed v result) :: w) c
  | restarted {b c : Bool} {l : Option Listener} {v : TreeView} {w : List (Entry ν)}
    (h : Paced true w c) : Paced b (.notice l (.restarted v) :: w) c

namespace Paced
variable {b c d : Bool} {w w' : List (Entry ν)}

theorem append (h : Paced b w c) (h' : Paced c w' d) : Paced b (w ++ w') d := by
  induction h with
  | nil => exact h'
  | other he _ ih => exact .other he (ih h')
  | completed _ ih => exact .completed (ih h')
  | restarted _ ih => exact .restarted (ih h')

theorem split (h : Paced b (w ++ w') d) : ∃ c, Paced b w c ∧ Paced c w' d := by
  induction w generalizing b with
  | nil => exact ⟨b, .nil, h⟩
  | cons e w ih =>
    cases h with
    | other he h =>
      obtain ⟨c, hw, hw'⟩ := ih h
      exact ⟨c, .other he hw, hw'⟩
    | completed h =>
      obtain ⟨c, hw, hw'⟩ := ih h
      exact ⟨c, .completed hw, hw'⟩
    | restarted h =>
      obtain ⟨c, hw, hw'⟩ := ih h
      exact ⟨c, .restarted hw, hw'⟩

theorem of_silent (h : ∀ e ∈ w, e.going? = none) : Paced b w b := by
  induction w with
  | nil => exact .nil
  | cons e w ih => exact .other (h e (by simp)) (ih fun e he => h e (List.mem_cons_of_mem _ he))

theorem exists_restarted (h : Paced false w true) : ∃ l v, .notice l (.restarted v) ∈ w := by
  generalize hb : false = b at h
  generalize hc : true = c at h
  induction h with
  | nil => simp [← hb] at hc
  | other _ _ ih =>
    obtain ⟨l, v, hmem⟩ := ih hb hc
    exact ⟨l, v, List.mem_cons_of_mem _ hmem⟩
  | completed => cases hb
  | restarted => exact ⟨_, _, List.mem_cons_self⟩

/-- Between two completions there is a restart. -/
theorem between {pre mid post : List (Entry ν)} {l l' : Option Listener} {v v' : TreeView}
    {result result' : Status} (h : Paced b (pre ++ .notice l (.completed v result) ::
      (mid ++ .notice l' (.completed v' result') :: post)) c) :
    ∃ l v, .notice l (.restarted v) ∈ mid := by
  obtain ⟨b₁, -, h₁⟩ := h.split
  cases h₁ with
  | other he => cases he
  | completed h₂ =>
    obtain ⟨b₂, hmid, h₃⟩ := h₂.split
    cases h₃ with
    | other he => cases he
    | completed => exact hmid.exists_restarted

end Paced

theorem Nodal.silent {w : List (Entry ν)} (h : Nodal w) :
    ∀ e ∈ w, e.tree? = none ∧ e.going? = none ∧ e.completed? = none := by
  intro e he
  cases e with
  | note x => exact ⟨rfl, rfl, rfl⟩
  | _ => exact Entry.of_about (h _ (List.mem_filter.mpr ⟨he, rfl⟩))

theorem Nodal.completions_eq {w : List (Entry ν)} (h : Nodal w) : completions w = [] :=
  List.filterMap_eq_nil_iff.mpr fun e he => (h.silent e he).2.2

theorem Nodal.paced {w : List (Entry ν)} (h : Nodal w) (b : Bool) : Paced b w b :=
  .of_silent fun e he => (h.silent e he).2.1

theorem completions_append (w w' : List (Entry ν)) :
    completions (w ++ w') = completions w ++ completions w' := List.filterMap_append

namespace Instance
variable {i : Instance H} {dt : Float32} {r : Realm H}

def ticked (i : Instance H) (dt : Float32) (root : Node H) (rng : Rng) : Instance H :=
  { i with root := root, context := { i.context.beginTick dt with rng := rng } }

inductive Ticks (i : Instance H) (dt : Float32) (r : Realm H) :
    Outcome (Realm H) (Entry H.Note) (Answer × Instance H) → Prop
  | ended (hi : i.active = false) : Ticks i dt r ⟨(.ok .failure, i), r, []⟩
  | kept {answer : Answer} {n : Node H} {st : Stage H} {tr : List (Entry H.Note)}
    (hi : i.active = true)
    (executed : i.root.execute (i.context.beginTick dt).toSetting dt ⟨r, i.context.rng⟩ =
      ⟨(answer, n), st, tr⟩)
    (going : ∀ result, answer = .ok result → result.isTerminal = false) :
    Ticks i dt r ⟨(answer, i.ticked dt n st.rng), st.toRealm, tr⟩
  | completed {result : Status} {n : Node H} {st : Stage H} {tr : List (Entry H.Note)}
    (hi : i.active = true)
    (executed : i.root.execute (i.context.beginTick dt).toSetting dt ⟨r, i.context.rng⟩ =
      ⟨(.ok result, n), st, tr⟩)
    (terminal : result.isTerminal = true) :
    Ticks i dt r ⟨(.ok result, { i.ticked dt n st.rng with active := false }), st.toRealm,
      tr ++ [.report (.completed n.name result), .notice i.context.listener
        (.completed { i.ticked dt n st.rng with active := false }.view result)]⟩

theorem tick_spec (i : Instance H) (dt : Float32) (r : Realm H) : i.Ticks dt r (i.tick dt r) := by
  rw [tick]
  by_cases hi : i.active = true
  · rw [if_pos hi]
    rcases ho : i.root.execute (i.context.beginTick dt).toSetting dt ⟨r, i.context.rng⟩ with
      ⟨⟨answer, n⟩, st, tr⟩
    have hroot : Instance.onRoot { i with context := i.context.beginTick dt }
        (fun s n => n.execute s dt) r = ⟨(answer, i.ticked dt n st.rng), st.toRealm, tr⟩ := by
      have hrng : (i.context.beginTick dt).rng = i.context.rng := rfl
      simp [onRoot, Turn.within, hrng, ho, ticked]
    rw [Traced.bind_apply, hroot]
    cases answer with
    | error stop => simpa using Ticks.kept hi ho (by simp)
    | ok result =>
      by_cases hterminal : result.isTerminal = true
      · simpa [hterminal, Turn.report, Turn.notify, ticked, Context.beginTick] using
          Ticks.completed hi ho hterminal
      · simpa [hterminal] using Ticks.kept hi ho (by simpa using hterminal)
  · rw [if_neg hi]
    exact .ended (by simpa using hi)

theorem abortRoot_apply (i : Instance H) (r : Realm H) :
    i.abortRoot r =
      let o := i.root.abort i.context.toSetting ⟨r, i.context.rng⟩
      ⟨{ i with root := i.root.settle, context := { i.context with rng := o.state.rng } },
        o.state.toRealm, o.trace⟩ := by
  simp [abortRoot, onRoot, Turn.within, Node.value_abort]

/-- The tree suits its nodes, nothing is active below an idle node, and an ended tree is idle. -/
structure Orderly (i : Instance H) : Prop where
  sound : i.root.Sound
  closed : i.root.Closed
  ended : i.active = false → i.root.Idle

theorem orderly_of_idle {root : Node H} (context : Context) (h : root.Idle) :
    (Instance.ofRoot root context).Orderly :=
  ⟨Node.sound_of_idle h, Node.closed_of_idle h, fun _ => h⟩

structure Passes (i j : Instance H) (w : List (Entry H.Note)) : Prop where
  orderly : j.Orderly
  shape : j.root.shape = i.root.shape
  paced : Paced i.active w j.active
  still : ∀ e ∈ w, ∀ v ∈ e.tree?, v.activity = i.root.rest

namespace Passes
variable {j k : Instance H} {w w' : List (Entry H.Note)}

theorem refl (h : i.Orderly) : i.Passes i [] := ⟨h, rfl, .nil, by simp⟩

theorem trans (h : i.Passes j w) (h' : j.Passes k w') : i.Passes k (w ++ w') := by
  refine ⟨h'.orderly, h'.shape.trans h.shape, h.paced.append h'.paced, fun e he v hv => ?_⟩
  obtain he | he := List.mem_append.mp he
  · exact h.still e he v hv
  · rw [h'.still e he v hv, Node.rest_eq_of_shape h.shape]

theorem of_nodal (orderly : j.Orderly) (shape : j.root.shape = i.root.shape)
    (hactive : j.active = i.active) (hw : Nodal w) : i.Passes j w := by
  refine ⟨orderly, shape, hactive ▸ hw.paced i.active, fun e he v hv => ?_⟩
  rw [(hw.silent e he).1] at hv
  cases hv

theorem told {report : Report} {told : Entry H.Note} (idle : j.root.Idle)
    (shape : j.root.shape = i.root.shape) (hw : Nodal w) (tree : told.tree? = some j.view)
    (paced : Paced i.active [told] j.active) : i.Passes j (w ++ [.report report, told]) := by
  have horderly : j.Orderly :=
    ⟨Node.sound_of_idle idle, Node.closed_of_idle idle, fun _ => idle⟩
  refine ⟨horderly, shape, (hw.paced i.active).append (.other rfl paced), fun e he v hv => ?_⟩
  obtain he | he := List.mem_append.mp he
  · rw [(hw.silent e he).1] at hv
    cases hv
  · obtain rfl | rfl : e = .report report ∨ e = told := by simpa using he
    · cases hv
    · obtain rfl : j.view = v := Option.some.inj (tree.symm.trans hv)
      exact (Node.activity_of_idle idle).trans (Node.rest_eq_of_shape shape)

end Passes

theorem executed {s : Setting} {n n' : Node H} {answer : Answer} {st st' : Stage H}
    {tr : List (Entry H.Note)} (h : n.Sound) (hn : n.Closed)
    (executed : n.execute s dt st = ⟨(answer, n'), st', tr⟩) :
    n'.Sound ∧ n'.Closed ∧ n'.shape = n.shape ∧ Nodal tr ∧
      ∀ result, answer = .ok result → result.isTerminal = true → n'.Idle := by
  have hidle : ∀ result, (n.execute s dt st).value.1 = .ok result → result.isTerminal = true →
      (n.execute s dt st).value.2.Idle := fun _ => Node.idle_execute h hn
  have hshape := Node.shape_execute s dt h st
  have hclosed := Node.closed_execute s dt h hn st
  have hsound := Node.sound_execute s dt h st
  have hnodal := Node.nodal_execute s dt h st
  rw [executed] at hidle hshape hclosed hsound hnodal
  exact ⟨hsound, hclosed, hshape, hnodal, hidle⟩

theorem passes_tick (h : i.Orderly) (dt : Float32) (r : Realm H) :
    i.Passes (i.tick dt r).value.2 (i.tick dt r).trace := by
  have hticks := i.tick_spec dt r
  generalize i.tick dt r = o at hticks
  cases hticks with
  | ended => exact .refl h
  | kept hi executed =>
    obtain ⟨hsound, hclosed, hshape, hnodal, -⟩ := Instance.executed h.sound h.closed executed
    refine .of_nodal ⟨hsound, hclosed, fun hj => ?_⟩ hshape rfl hnodal
    rw [show i.active = false from hj] at hi
    cases hi
  | completed hi executed terminal =>
    obtain ⟨-, -, hshape, hnodal, hidle⟩ := Instance.executed h.sound h.closed executed
    refine .told (hidle _ rfl terminal) hshape hnodal rfl ?_
    rw [hi]
    exact .completed .nil

theorem passes_abortRoot (h : i.Orderly) (r : Realm H) :
    (i.abortRoot r).value.root.Idle ∧
      (i.abortRoot r).value.root.shape = i.root.shape ∧ Nodal (i.abortRoot r).trace := by
  rw [abortRoot_apply]
  exact ⟨h.closed.idle_settle, Node.shape_settle i.root, Node.nodal_abort _ _ _⟩

theorem passes_restart (h : i.Orderly) (r : Realm H) :
    i.Passes (i.restart r).value (i.restart r).trace := by
  obtain ⟨hidle, hshape, hnodal⟩ := passes_abortRoot h r
  simp only [restart, Traced.bind_apply, Turn.report, Turn.notify]
  exact .told hidle hshape hnodal rfl (.restarted .nil)

theorem passes_abort (h : i.Orderly) (r : Realm H) :
    i.Passes (i.abort r).value (i.abort r).trace := by
  rw [abort]
  split
  · next hi =>
    obtain ⟨hidle, hshape, hnodal⟩ := passes_abortRoot h r
    refine .told hidle hshape hnodal rfl ?_
    rw [hi]
    exact .completed .nil
  · exact .refl h

end Instance

inductive Order (H : Host) where
  | tick (dt : Float32)
  | restart
  | abort
  /-- Between calls the host may do anything to what trees share. -/
  | outside (change : Realm H → Realm H)

namespace Order

def act : Order H → Instance H → Turn H (List Answer × Instance H)
  | tick dt, i => do
    let (answer, i) ← i.tick dt
    pure ([answer], i)
  | restart, i => do
    let i ← i.restart
    pure ([], i)
  | abort, i => do
    let i ← i.abort
    pure ([], i)
  | outside change, i => do
    Traced.modify change
    pure ([], i)

/-- The deltas by which the clock goes on: an ended tree leaves it alone. -/
def deltas (i : Instance H) : Order H → List Float32
  | tick dt => if i.active then [dt] else []
  | _ => []

inductive Ends (i : Instance H) (r : Realm H) : Order H → Status → Prop
  | tick {dt : Float32} {result : Status}
    (answers : (i.root.execute (i.context.beginTick dt).toSetting dt ⟨r, i.context.rng⟩).value.1 =
      .ok result)
    (terminal : result.isTerminal = true) : Ends i r (.tick dt) result
  | abort : Ends i r .abort .failure

end Order

namespace Instance
variable {i : Instance H}

def attend : List (Order H) → Instance H → Turn H (List Answer × Instance H)
  | [], i => pure ([], i)
  | m :: ms, i => do
    let (answers, i) ← m.act i
    let (more, i) ← attend ms i
    pure (answers ++ more, i)

def deltas : List (Order H) → Instance H → Realm H → List Float32
  | [], _, _ => []
  | m :: ms, i, r => m.deltas i ++ deltas ms (m.act i r).value.2 (m.act i r).state

theorem passes_act (m : Order H) (h : i.Orderly) (r : Realm H) :
    i.Passes (m.act i r).value.2 (m.act i r).trace := by
  cases m with
  | tick dt => simpa [Order.act] using passes_tick h dt r
  | restart => simpa [Order.act] using passes_restart h r
  | abort => simpa [Order.act] using passes_abort h r
  | outside change => exact .refl h

theorem elapsed_act (m : Order H) (i : Instance H) (r : Realm H) :
    (m.act i r).value.2.context.scope.elapsed =
      (m.deltas i).foldl (· + ·) i.context.scope.elapsed := by
  cases m with
  | tick dt =>
    have hticks := i.tick_spec dt r
    simp only [Order.act, Order.deltas, Traced.bind_apply, Traced.pure_apply]
    generalize i.tick dt r = o at hticks
    cases hticks with
    | ended hi => simp [hi]
    | kept hi => simp [hi, ticked, Context.beginTick, Scope.beginTick]
    | completed hi => simp [hi, ticked, Context.beginTick, Scope.beginTick]
  | restart => rfl
  | abort =>
    simp only [Order.act, Order.deltas, Traced.bind_apply, Traced.pure_apply, Instance.abort]
    split <;> rfl
  | outside change => rfl

theorem passes_attend (ms : List (Order H)) (h : i.Orderly) (r : Realm H) :
    let o := attend ms i r
    i.Passes o.value.2 o.trace ∧
      o.value.2.context.scope.elapsed = (deltas ms i r).foldl (· + ·) i.context.scope.elapsed := by
  induction ms generalizing i r with
  | nil => exact ⟨.refl h, rfl⟩
  | cons m ms ih =>
    have hstep := passes_act m h r
    obtain ⟨hrest, helapsed⟩ := ih hstep.orderly (m.act i r).state
    simp only [attend, Traced.bind_apply, Traced.pure_apply, List.append_nil, deltas,
      List.foldl_append]
    rw [← elapsed_act m i r]
    exact ⟨hstep.trans hrest, helapsed⟩

theorem completions_tick (h : i.Orderly) (dt : Float32) (r : Realm H) :
    let o := i.tick dt r
    (i.active = true ∧ o.value.2.active = false →
      ∃ result, (Order.tick dt).Ends i r result ∧ completions o.trace = [result]) ∧
    (¬(i.active = true ∧ o.value.2.active = false) → completions o.trace = []) := by
  have hticks := i.tick_spec dt r
  generalize i.tick dt r = o at hticks
  cases hticks with
  | ended hi => exact ⟨fun h => by simp [hi] at h, fun _ => rfl⟩
  | kept hi executed =>
    obtain ⟨-, -, -, hnodal, -⟩ := Instance.executed h.sound h.closed executed
    exact ⟨fun h => by simp [ticked, hi] at h, fun _ => hnodal.completions_eq⟩
  | @completed result n st tr hi executed terminal =>
    obtain ⟨-, -, -, hnodal, -⟩ := Instance.executed h.sound h.closed executed
    refine ⟨fun _ => ⟨result, .tick (by rw [executed]) terminal, ?_⟩, fun hnot => ?_⟩
    · rw [completions_append, hnodal.completions_eq]
      rfl
    · exact absurd ⟨hi, rfl⟩ hnot

theorem completions_restart (h : i.Orderly) (r : Realm H) :
    completions (i.restart r).trace = [] := by
  obtain ⟨-, -, hnodal⟩ := passes_abortRoot h r
  simp only [restart, Traced.bind_apply, completions_append, hnodal.completions_eq]
  rfl

theorem completions_abort (h : i.Orderly) (r : Realm H) :
    (i.abort r).value.active = false ∧
      completions (i.abort r).trace = if i.active then [.failure] else [] := by
  obtain ⟨-, -, hnodal⟩ := passes_abortRoot h r
  rw [abort]
  by_cases hi : i.active = true
  · simp only [if_pos hi, Traced.bind_apply, completions_append, hnodal.completions_eq]
    exact ⟨rfl, rfl⟩
  · rw [if_neg hi, if_neg hi]
    exact ⟨by simpa using hi, rfl⟩

theorem completions_act (m : Order H) (h : i.Orderly) (r : Realm H) :
    let o := m.act i r
    (i.active = true ∧ o.value.2.active = false →
      ∃ result, m.Ends i r result ∧ completions o.trace = [result]) ∧
    (¬(i.active = true ∧ o.value.2.active = false) → completions o.trace = []) := by
  cases m with
  | tick dt => simpa [Order.act] using completions_tick h dt r
  | restart =>
    have hnone := completions_restart h r
    simp only [Order.act, Traced.bind_apply, Traced.pure_apply, List.append_nil]
    exact ⟨fun hj => absurd hj.2 (by simp [restart]), fun _ => hnone⟩
  | abort =>
    obtain ⟨hended, hcompletions⟩ := completions_abort h r
    simp only [Order.act, Traced.bind_apply, Traced.pure_apply, List.append_nil, hcompletions]
    exact ⟨fun hi => ⟨.failure, .abort, if_pos hi.1⟩,
      fun hnot => if_neg fun hi => hnot ⟨hi, hended⟩⟩
  | outside change => exact ⟨fun hi => by simp [Order.act, hi.1] at hi, fun _ => rfl⟩

end Instance

/-- Whatever callbacks do, a tree that starts idle is idle whenever it does not go, and whenever it
is told to have completed or restarted. It completes in the orders that end it, each time once and
with their result, and not again before a restart. Ticks of an ended tree do nothing, and the clock
adds up the deltas of the others. -/
theorem session_of_attend (ms : List (Order H)) {root : Node H} (idle : root.Idle)
    (context : Context) (r : Realm H) :
    let o := Instance.attend ms (.ofRoot root context) r
    let i := o.value.2
    let parts := i.intoParts o.state
    let w := o.trace ++ parts.trace
    (i.active = false → i.root.Idle) ∧
      (∀ e ∈ w, ∀ v ∈ e.tree?, v.activity = root.frames.map fun _ => false) ∧
      (∀ pre mid post l l' v v' result result', w = pre ++ .notice l (.completed v result) ::
        (mid ++ .notice l' (.completed v' result') :: post) →
        ∃ l v, .notice l (.restarted v) ∈ mid) ∧
      (∀ (m : Order H) r', let o' := m.act i r'
        (i.active = true ∧ o'.value.2.active = false →
          ∃ result, m.Ends i r' result ∧ completions o'.trace = [result]) ∧
        (¬(i.active = true ∧ o'.value.2.active = false) → completions o'.trace = [])) ∧
      (i.active = false → ∀ dt r', i.tick dt r' = ⟨(.ok .failure, i), r', []⟩) ∧
      i.context.scope.elapsed = (Instance.deltas ms (.ofRoot root context) r).foldl (· + ·)
        context.scope.elapsed ∧
      parts.value.1.Idle ∧ completions parts.trace = if i.active then [.failure] else [] := by
  intro o i parts w
  obtain ⟨hpasses, helapsed⟩ :=
    Instance.passes_attend ms (Instance.orderly_of_idle context idle) r
  have horderly : i.Orderly := hpasses.orderly
  have hparts := Instance.passes_abort horderly o.state
  obtain ⟨hended, hcompletions⟩ := Instance.completions_abort horderly o.state
  have hw : w = o.trace ++ (i.abort o.state).trace := by
    simp [w, parts, Instance.intoParts]
  have hall := hw ▸ hpasses.trans hparts
  refine ⟨horderly.ended, hall.still, fun pre mid post l l' v v' result result' hsplit => ?_,
    fun m r' => Instance.completions_act m horderly r', fun hi dt r' => ?_, helapsed,
    hparts.orderly.ended hended, ?_⟩
  · exact (hsplit ▸ hall.paced).between
  · rw [Instance.tick, if_neg (by simp [hi])]
    rfl
  · simpa [parts, Instance.intoParts] using hcompletions

theorem session_of_attend_echo :
    let o := Instance.attend [.tick 1, .abort, .tick 1, .restart, .tick 1]
      (.ofRoot Rooted.echo.root ⟨Rooted.echo.setting, .ofSeed 0⟩) Rooted.still.toRealm
    Rooted.echo.root.Idle ∧ o.value.1 = [.ok .running, .ok .failure, .ok .running] ∧
      o.value.2.context.scope.elapsed = [1, 1].foldl (· + ·) 0 := by
  have hidle : Rooted.echo.root.Idle := by decide
  obtain ⟨-, -, -, -, -, helapsed, -⟩ := session_of_attend
    [.tick 1, .abort, .tick 1, .restart, .tick 1] hidle ⟨Rooted.echo.setting, .ofSeed 0⟩
    Rooted.still.toRealm
  refine ⟨hidle, by decide +kernel, helapsed.trans ?_⟩
  decide +kernel

end TickTree
