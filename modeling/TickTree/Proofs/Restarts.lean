import TickTree.Runner
import TickTree.Proofs.Cooldowns
import TickTree.Proofs.Groves
/-! Cooldowns over the sessions of a runner. A root keeps its stamps when its tree is stopped and
started again, but the clock of the next tree begins anew: the stamp, made by one clock, is read by
another. -/
namespace TickTree
variable {H : Host} {α β : Type} {c : Cooldown} {k : NodeId} {now : Float32}

namespace Node

structure Chilled (c : Cooldown) (k : NodeId) (n : Node H) : Prop where
  sound : n.Sound
  distinct : n.ids.Nodup
  cooled : ∀ f ∈ n.frames, f.id = k → f.CooledBy c

theorem Chilled.of_shape {n m : Node H} (h : n.Chilled c k) (sound : m.Sound)
    (hs : m.shape = n.shape) : m.Chilled c k := by
  refine ⟨sound, ids_eq_of_shape hs ▸ h.distinct, fun g hg hid => ?_⟩
  have hbare : m.frames.map Frame.bare = n.frames.map Frame.bare := by
    rw [← frames_mapFrames, ← frames_mapFrames]
    exact congrArg frames hs
  obtain ⟨f, hf, hfg⟩ := List.mem_map.mp (hbare ▸ List.mem_map_of_mem hg)
  have hfid : f.bare.id = g.bare.id := congrArg Frame.id hfg
  exact (h.cooled f hf (hfid.trans hid)).of_bare hfg.symm

end Node

theorem act_stamp {m : Move H} (hm : ∀ change, m ≠ .outside change) {t : Rooted H}
    (h : t.root.Chilled c k) (st : Stage H) :
    c.nextAvailable (m.act t st).state.tables k =
      if exits (own k (m.act t st).trace) then some (t.setting.scope.elapsed + c.seconds)
      else c.nextAvailable st.tables k := by
  have hp : t.Proper := ⟨h.sound, h.distinct⟩
  -- the tree may be another than that of the node
  by_cases hk : k ∈ t.root.ids
  · obtain ⟨f, hf, rfl⟩ := List.mem_map.mp hk
    obtain ⟨g, hg, hid, -⟩ := exists_right (each_act hm hp st) hf
    obtain ⟨f', hf', hid', ⟨dt, answer, honce⟩, hrow⟩ := act_recalls hm hp st hg
    rw [← hid]
    exact (h.cooled f' hf' (hid'.trans hid)).stamp hrow (honce.ending.imp_right And.left)
  · obtain ⟨hown, hrow⟩ := act_elsewhere hm hp st hk
    rw [hown]
    exact congrFun hrow c.id

/-- A result, and a stamp that moves if an activation of the node ends, and else stays. -/
def Turn.Marks (c : Cooldown) (k : NodeId) (now : Float32) (Q : α → Prop) (x : Turn H α) : Prop :=
  ∀ r, Q (x r).value ∧ c.nextAvailable (x r).state.tables k =
    if exits (own k (x r).trace) then some (now + c.seconds) else c.nextAvailable r.tables k

namespace Turn
variable {Q : α → Prop} {R : β → Prop} {x : Turn H α} {f : α → Turn H β}

theorem Marks.pure {a : α} (h : Q a) : Marks c k now Q (pure a : Turn H α) := fun _ => ⟨h, rfl⟩

theorem Marks.bind (hx : Marks c k now Q x) (hf : ∀ a, Q a → Marks c k now R (f a)) :
    Marks c k now R (x >>= f) := by
  intro r
  obtain ⟨hvalue, hstamp⟩ := hx r
  obtain ⟨hvalue', hstamp'⟩ := hf _ hvalue (x r).state
  refine ⟨hvalue', ?_⟩
  rw [Traced.bind_apply, hstamp', hstamp, own_append, exits_append]
  cases exits (own k (x r).trace) <;>
    cases exits (own k (f (x r).value (x r).state).trace) <;> rfl

theorem marks_emit {e : Entry H.Note} (he : e.about = none) :
    Marks c k now (fun _ => True) (Traced.emit e : Turn H Unit) := by
  intro r
  have hown : own k [e] = [] := own_of_about_ne (by simp [he])
  refine ⟨trivial, ?_⟩
  rw [Traced.emit_apply, hown]
  rfl

end Turn

namespace Instance
variable {i : Instance H}

structure Stands (c : Cooldown) (k : NodeId) (now : Float32) (i : Instance H) : Prop where
  chilled : i.root.Chilled c k
  clock : i.context.scope.elapsed = now

def clock (i : Instance H) (dt : Float32) : Float32 :=
  if i.active then i.context.scope.elapsed + dt else i.context.scope.elapsed

theorem marks_onRoot {x : Setting → Node H → Exec H (α × Node H)} (h : i.Stands c k now)
    (hx : ∀ st, (x i.context.toSetting i.root st).value.2.Chilled c k ∧
      c.nextAvailable (x i.context.toSetting i.root st).state.tables k =
        if exits (own k (x i.context.toSetting i.root st).trace) then some (now + c.seconds)
        else c.nextAvailable st.tables k) :
    Turn.Marks c k now (fun y => y.2.Stands c k now) (i.onRoot x) := by
  intro r
  obtain ⟨hroot, hstamp⟩ := hx ⟨r, i.context.rng⟩
  refine ⟨⟨hroot, h.clock⟩, ?_⟩
  simpa [onRoot, Turn.within] using hstamp

theorem marks_execute (dt : Float32) (h : i.Stands c k now) :
    Turn.Marks c k now (fun y => y.2.Stands c k now) (i.onRoot fun s n => n.execute s dt) := by
  obtain ⟨hroot, rfl⟩ := h
  refine marks_onRoot ⟨hroot, rfl⟩ fun st => ⟨?_, ?_⟩
  · exact hroot.of_shape (Node.sound_execute _ dt hroot.sound st)
      (Node.shape_execute _ dt hroot.sound st)
  · have hstamp := act_stamp (m := .execute dt) (by simp) (t := i.rooted) hroot st
    simpa [Move.act, rooted] using hstamp

theorem marks_abortRoot (h : i.Stands c k now) :
    Turn.Marks c k now (Stands c k now) i.abortRoot := by
  obtain ⟨hroot, rfl⟩ := h
  have hmarks : Turn.Marks c k i.context.scope.elapsed
      (fun y => y.2.Stands c k i.context.scope.elapsed)
      (i.onRoot fun s n => do
        let n ← n.abort s
        pure ((), n)) := by
    refine marks_onRoot ⟨hroot, rfl⟩ fun st => ⟨?_, ?_⟩
    · simpa [Node.value_abort] using
        hroot.of_shape (Node.sound_settle hroot.sound) (Node.shape_settle i.root)
    · have hstamp := act_stamp (m := .abort) (by simp) (t := i.rooted) hroot st
      simpa [Move.act, rooted] using hstamp
  exact hmarks.bind fun y hy => .pure hy

theorem marks_abort (h : i.Stands c k now) : Turn.Marks c k now (Stands c k now) i.abort := by
  rw [abort]
  split
  · refine (marks_abortRoot h).bind fun j hj => ?_
    exact (Turn.marks_emit rfl).bind fun _ _ => (Turn.marks_emit rfl).bind fun _ _ =>
      .pure ⟨hj.chilled, hj.clock⟩
  · exact .pure h

theorem marks_restart (h : i.Stands c k now) : Turn.Marks c k now (Stands c k now) i.restart := by
  refine (marks_abortRoot h).bind fun j hj => ?_
  exact (Turn.marks_emit rfl).bind fun _ _ => (Turn.marks_emit rfl).bind fun _ _ =>
    .pure ⟨hj.chilled, hj.clock⟩

theorem marks_tick (dt : Float32) (h : i.root.Chilled c k) :
    Turn.Marks c k (i.clock dt) (fun y => y.2.Stands c k (i.clock dt)) (i.tick dt) := by
  rw [tick, clock]
  by_cases hactive : i.active = true
  · rw [if_pos hactive, if_pos hactive]
    have hbegun : Stands c k (i.context.scope.elapsed + dt)
        { i with context := i.context.beginTick dt } := ⟨h, rfl⟩
    refine (marks_execute dt hbegun).bind ?_
    rintro ⟨answer, j⟩ hj
    cases answer with
    | error stop => exact .pure hj
    | ok result =>
      dsimp only
      split
      · exact (Turn.marks_emit rfl).bind fun _ _ => (Turn.marks_emit rfl).bind fun _ _ =>
          .pure ⟨hj.chilled, hj.clock⟩
      · exact .pure hj
  · rw [if_neg hactive, if_neg hactive]
    exact .pure ⟨h, rfl⟩

/-- In a tick, the cooldown answers from its stamp and the clock of the tree. -/
theorem asked_tick (h : i.root.Chilled c k) (hactive : i.active = true) {dt : Float32}
    {r : Realm H} {f : Frame H} (hf : f ∈ i.root.frames) (hid : f.id = k) {v : View} {j : Nat}
    {passed : Bool} (hmem : .hook v (.guarded j passed) ∈ own k (i.tick dt r).trace)
    (hj : f.decorators[j]? = some (.cooldown c)) :
    passed = Cooldown.opens (i.clock dt) (c.nextAvailable r.tables k) := by
  subst hid
  obtain ⟨g, -, honce, hrow⟩ := Node.exists_execute (i.context.beginTick dt).toSetting dt h.sound
    h.distinct ⟨r, i.context.rng⟩ hf
  have htrace : own f.id (i.tick dt r).trace = own f.id (i.root.execute
      (i.context.beginTick dt).toSetting dt ⟨r, i.context.rng⟩).trace := by
    rw [(plays_tick_of_active hactive dt r).trace]
    simp [play, Move.act, rooted, Context.beginTick]
  rw [htrace] at hmem
  rw [clock, if_pos hactive]
  exact honce.asked hrow hmem hj

end Instance

def Runner.elapsed (r : Runner H) : Float32 := r.running.elim 0 (·.context.scope.elapsed)

inductive Errand (H : Host) where
  | setRoot (root : Node H) (rng : Rng)
  | setGlobal (b : BoardId)
  | start (rng : Rng)
  | startIn (context : Context)
  | update (dt : Float32)
  | stop
  /-- Between calls the host may do anything to what trees share. -/
  | outside (change : Realm H → Realm H)

namespace Errand

def act : Errand H → Runner H → Turn H (List Answer × Runner H)
  | setRoot root rng, r => do
    let r ← r.setRoot root rng
    pure ([], r)
  | setGlobal b, r => pure ([], r.setGlobal b)
  | start rng, r => do
    let (_, r) ← r.start rng
    pure ([], r)
  | startIn context, r => do
    let (_, r) ← r.startIn context
    pure ([], r)
  | update dt, r => do
    let (answer, r) ← r.update dt
    match answer with
    | .error e => pure ([.error e], r)
    | .ok none => pure ([], r)
    | .ok (some result) => pure ([.ok result], r)
  | stop, r => do
    let r ← r.stop
    pure ([], r)
  | outside change, r => do
    Traced.modify change
    pure ([], r)

/-- The clock of the tree that runs, as of the end of any activations that the call ends. -/
def clock (r : Runner H) : Errand H → Float32
  | update dt => r.running.elim 0 (·.clock dt)
  | _ => r.elapsed

end Errand

namespace Runner
variable {r : Runner H}

def follow : List (Errand H) → Runner H → Turn H (List Answer × Runner H)
  | [], r => pure ([], r)
  | e :: es, r => do
    let (answers, r) ← e.act r
    let (more, r) ← follow es r
    pure (answers ++ more, r)

def journal : List (Errand H) → Runner H → Realm H → List (Float32 × List (Entry H.Note))
  | [], _, _ => []
  | e :: es, r, realm =>
    (e.clock r, (e.act r realm).trace) ::
      journal es (e.act r realm).value.2 (e.act r realm).state

structure Chilled (c : Cooldown) (k : NodeId) (r : Runner H) : Prop where
  waiting : ∀ n ∈ r.root, n.Chilled c k
  running : ∀ i ∈ r.running, i.root.Chilled c k

theorem marks_reclaim (h : r.Chilled c k) :
    Turn.Marks c k r.elapsed (Chilled c k) r.reclaim := by
  obtain ⟨config, root, global, running⟩ := r
  cases running with
  | none => exact .pure h
  | some i =>
    have hi : i.Stands c k i.context.scope.elapsed := ⟨h.running i rfl, rfl⟩
    have hparts : Turn.Marks c k i.context.scope.elapsed (fun y => y.1.Chilled c k)
        i.intoParts := (Instance.marks_abort hi).bind fun j hj => .pure hj.chilled
    refine hparts.bind ?_
    rintro ⟨old, context⟩ hold
    cases root with
    | none => exact .pure ⟨by simpa using hold, by simp⟩
    | some n =>
      exact (Turn.marks_emit rfl).bind fun _ _ => .pure ⟨h.waiting, by simp⟩

theorem marks_startIn (context : Context) (h : r.Chilled c k) :
    Turn.Marks c k r.elapsed (fun y => y.2.Chilled c k) (r.startIn context) := by
  refine (marks_reclaim h).bind ?_
  rintro ⟨config, root, global, running⟩ h
  cases root with
  | none => exact .pure h
  | some n =>
    refine (Turn.marks_emit rfl).bind fun _ _ => .pure ⟨by simp, ?_⟩
    simpa [Instance.ofRoot] using h.waiting

theorem marks_start (rng : Rng) (h : r.Chilled c k) :
    Turn.Marks c k r.elapsed (fun y => y.2.Chilled c k) (r.start rng) := by
  have hfresh : Turn.Marks c k r.elapsed (fun _ => True)
      (freshContext r.global rng : Turn H Context) := by
    intro realm
    exact ⟨trivial, rfl⟩
  exact hfresh.bind fun context _ => marks_startIn context h

theorem marks_setRoot {root : Node H} (rng : Rng) (h : r.Chilled c k) (hroot : root.Chilled c k) :
    Turn.Marks c k r.elapsed (Chilled c k) (r.setRoot root rng) := by
  have hset : Chilled c k { r with root := some root } := ⟨by simpa using hroot, h.running⟩
  rw [setRoot]
  dsimp only
  split
  · refine (marks_start rng hset).bind ?_
    rintro ⟨started, r⟩ hr
    cases started with
    | ok u => exact .pure hr
    | error e => exact (Turn.marks_emit rfl).bind fun _ _ => .pure hr
  · exact .pure hset

theorem marks_update (dt : Float32) (h : r.Chilled c k) :
    Turn.Marks c k ((Errand.update dt).clock r) (fun y => y.2.Chilled c k) (r.update dt) := by
  obtain ⟨config, root, global, running⟩ := r
  cases running with
  | none => exact .pure h
  | some i =>
    have hkept {j : Instance H} (hj : j.root.Chilled c k) :
        Chilled c k ⟨config, root, global, some j⟩ := ⟨h.waiting, by simpa using hj⟩
    refine (Instance.marks_tick dt (h.running i rfl)).bind ?_
    rintro ⟨answer, j⟩ hj
    cases answer with
    | error stop => exact .pure (hkept hj.chilled)
    | ok result =>
      dsimp only
      split
      · exact (Instance.marks_restart hj).bind fun j hj => .pure (hkept hj.chilled)
      · exact .pure (hkept hj.chilled)

theorem marks_stop (h : r.Chilled c k) : Turn.Marks c k r.elapsed (Chilled c k) r.stop := by
  rw [stop]
  split
  · exact (marks_reclaim h).bind fun r hr => (Turn.marks_emit rfl).bind fun _ _ => .pure hr
  · exact .pure h

def Suits (c : Cooldown) (k : NodeId) : Errand H → Prop
  | .setRoot root _ => root.Chilled c k
  | .outside change => ∀ realm, c.nextAvailable (change realm).tables k =
      c.nextAvailable realm.tables k
  | _ => True

theorem marks_act (e : Errand H) (he : Suits c k e) (h : r.Chilled c k) :
    Turn.Marks c k (e.clock r) (fun y => y.2.Chilled c k) (e.act r) := by
  cases e with
  | setRoot root rng => exact (marks_setRoot rng h he).bind fun r hr => .pure hr
  | setGlobal b => exact .pure ⟨h.waiting, h.running⟩
  | start rng => exact (marks_start rng h).bind fun y hy => .pure hy
  | startIn context => exact (marks_startIn context h).bind fun y hy => .pure hy
  | update dt =>
    refine (marks_update dt h).bind ?_
    rintro ⟨answer, r⟩ hr
    match answer with
    | .error stop => exact .pure hr
    | .ok none => exact .pure hr
    | .ok (some result) => exact .pure hr
  | stop => exact (marks_stop h).bind fun r hr => .pure hr
  | outside change =>
    have hchange : Turn.Marks c k (Errand.clock r (.outside change)) (fun _ => True)
        (Traced.modify change : Turn H Unit) := fun realm => ⟨trivial, he realm⟩
    exact hchange.bind fun _ _ => .pure h

theorem stamp_follow (es : List (Errand H)) (hes : ∀ e ∈ es, Suits c k e) (h : r.Chilled c k)
    {realm : Realm H} {last : Option Float32}
    (hlast : c.nextAvailable realm.tables k = last.map (· + c.seconds)) :
    (follow es r realm).value.2.Chilled c k ∧
      c.nextAvailable (follow es r realm).state.tables k =
        (endedAt k last (journal es r realm)).map (· + c.seconds) := by
  induction es generalizing r realm last with
  | nil => exact ⟨h, hlast⟩
  | cons e es ih =>
    obtain ⟨hnext, hstamp⟩ := marks_act e (hes e (by simp)) h realm
    -- the invariant for the calls that remain, with the ending of this one if it has any
    have hlast' : c.nextAvailable (e.act r realm).state.tables k =
        (if exits (own k (e.act r realm).trace) then some (e.clock r) else last).map
          (· + c.seconds) := by
      rw [hstamp]
      split
      · rfl
      · exact hlast
    have hrest := ih (fun e he => hes e (List.mem_cons_of_mem _ he)) hnext hlast'
    simpa [follow, journal, endedAt] using hrest

end Runner

/-- Over all that a host does with a runner, a cooldown keeps the clock at which an activation of
the node ended last, with its seconds added, whichever tree that was. It lets the node through once
the clock of the tree that runs now has come to this mark, and not before. -/
theorem stamped_of_follow (c : Cooldown) (k : NodeId) (config : RunnerConfig)
    (es : List (Errand H)) (suits : ∀ e ∈ es, Runner.Suits c k e) (realm : Realm H)
    (unset : c.nextAvailable realm.tables k = none) :
    let p := Runner.follow es (.ofConfig config) realm
    let ended := endedAt k none (Runner.journal es (.ofConfig config) realm)
    c.nextAvailable p.state.tables k = ended.map (· + c.seconds) ∧
      ∀ i ∈ p.value.2.running, i.active = true → ∀ f ∈ i.root.frames, f.id = k →
        ∀ dt v j passed, .hook v (.guarded j passed) ∈ own k (i.tick dt p.state).trace →
          f.decorators[j]? = some (.cooldown c) →
          (passed = true ↔ ∀ x, ended = some x → x + c.seconds ≤ i.context.scope.elapsed + dt) := by
  intro p ended
  have hstart : (Runner.ofConfig config : Runner H).Chilled c k := ⟨by simp [Runner.ofConfig],
    by simp [Runner.ofConfig]⟩
  have hlast : c.nextAvailable realm.tables k = (none : Option Float32).map (· + c.seconds) := unset
  obtain ⟨hchilled, hstamp⟩ := Runner.stamp_follow es suits hstart hlast
  refine ⟨hstamp, fun i hi hactive f hf hid dt v j passed hmem hj => ?_⟩
  have hasked := Instance.asked_tick (hchilled.running i hi) hactive hf hid hmem hj
  rw [hasked, hstamp, Instance.clock, if_pos hactive]
  change Cooldown.opens _ (ended.map (· + c.seconds)) = true ↔ _
  cases ended with
  | none => simp [Cooldown.opens]
  | some x => simp [Cooldown.opens]

namespace Runner

def manual : RunnerConfig := ⟨false, false⟩

def errands : List (Errand Host.echo) :=
  let context : Context := ⟨Rooted.echo.setting, .ofSeed 0⟩
  [.setRoot Rooted.paused.root (.ofSeed 0), .startIn context, .update 12, .stop, .startIn context]

theorem suits_errands : ∀ e ∈ errands, Suits Rooted.pause 2 e := by
  have hsound : Rooted.paused.root.Sound := Node.sound_of_idle (by decide)
  have hroot : Rooted.paused.root.Chilled Rooted.pause 2 :=
    ⟨hsound, by decide, Rooted.cooledBy_paused⟩
  simpa [errands, Suits] using hroot

end Runner

theorem stamped_of_follow_errands :
    (∀ e ∈ Runner.errands, Runner.Suits Rooted.pause 2 e) ∧
      Rooted.pause.nextAvailable Rooted.still.tables 2 = none ∧
      Rooted.pause.nextAvailable (Runner.follow Runner.errands (.ofConfig Runner.manual)
        Rooted.still.toRealm).state.tables 2 = some (12 + 5) := by
  have hplay := stamped_of_follow Rooted.pause 2 Runner.manual Runner.errands Runner.suits_errands
    Rooted.still.toRealm rfl
  have hended : endedAt 2 none (Runner.journal Runner.errands (.ofConfig Runner.manual)
      Rooted.still.toRealm) = some 12 := by decide +kernel
  refine ⟨Runner.suits_errands, rfl, ?_⟩
  rw [hplay.1, hended]
  rfl

/-- The pause is five seconds, and the last activation has ended before the restart. Seven seconds
after the restart the node is still shut. -/
theorem pause_outlasts_restart :
    let p := Runner.follow Runner.errands (.ofConfig Runner.manual) Rooted.still.toRealm
    let q := Runner.follow [.update 7] p.value.2 p.state
    p.value.1 = [.ok .success] ∧ exits (own 2 p.trace) = true ∧ p.value.2.elapsed = 0 ∧
      Rooted.pause.seconds ≤ 0 + 7 ∧ .hook Rooted.paused.root.view (.guarded 0 false) ∈ q.trace ∧
      q.value.1 = [.ok .failure] := by
  dsimp only
  decide +kernel

end TickTree
