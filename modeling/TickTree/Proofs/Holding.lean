import TickTree.Proofs.Restarts
import TickTree.Proofs.Sessions
/-! What a runner makes of the roots that it is given. The root set last either waits or is in the
tree that runs; each start takes it, and no other, however often the runner has been stopped and
started since. -/
namespace TickTree
variable {H : Host}

namespace Node

inductive Becomes (g : Node H) : Node H → Prop
  | refl : Becomes g g
  | executed {n : Node H} (h : Becomes g n) (s : Setting) (dt : Float32) (st : Stage H) :
    Becomes g (n.execute s dt st).value.2
  | aborted {n : Node H} (h : Becomes g n) (s : Setting) (st : Stage H) :
    Becomes g (n.abort s st).value

theorem Becomes.shape_eq {g n : Node H} (h : g.Becomes n) (hg : g.Sound) :
    n.Sound ∧ n.shape = g.shape := by
  induction h with
  | refl => exact ⟨hg, rfl⟩
  | executed _ s dt st ih =>
    exact ⟨sound_execute s dt ih.1 st, (shape_execute s dt ih.1 st).trans ih.2⟩
  | aborted _ s st ih =>
    rw [value_abort]
    exact ⟨sound_settle ih.1, (shape_settle _).trans ih.2⟩

theorem Becomes.id_eq {g n : Node H} (h : g.Becomes n) (hg : g.Idle) : n.id = g.id :=
  id_eq_of_shape (h.shape_eq (sound_of_idle hg)).2

end Node

namespace Instance
variable {i : Instance H} {g : Node H}

theorem becomes_tick (h : g.Becomes i.root) (dt : Float32) (r : Realm H) :
    g.Becomes (i.tick dt r).value.2.root := by
  have hexecuted := h.executed (i.context.beginTick dt).toSetting dt ⟨r, i.context.rng⟩
  have hticks := i.tick_spec dt r
  generalize i.tick dt r = o at hticks
  cases hticks with
  | ended => exact h
  | kept _ executed =>
    rw [executed] at hexecuted
    exact hexecuted
  | completed _ executed =>
    rw [executed] at hexecuted
    exact hexecuted

theorem becomes_abortRoot (h : g.Becomes i.root) (r : Realm H) :
    g.Becomes (i.abortRoot r).value.root := by
  rw [abortRoot_apply, ← Node.value_abort]
  exact h.aborted i.context.toSetting ⟨r, i.context.rng⟩

theorem becomes_restart (h : g.Becomes i.root) (r : Realm H) :
    g.Becomes (i.restart r).value.root := becomes_abortRoot h r

theorem becomes_abort (h : g.Becomes i.root) (r : Realm H) : g.Becomes (i.abort r).value.root := by
  rw [abort]
  split
  · exact becomes_abortRoot h r
  · exact h

def update (again : Bool) (dt : Float32) (i : Instance H) : Turn H (Answer × Instance H) := do
  let (answer, i) ← i.tick dt
  match answer with
  | .error stop => pure (.error stop, i)
  | .ok result =>
    if again && result.isTerminal then do
      let i ← i.restart
      pure (.ok result, i)
    else pure (.ok result, i)

theorem update_cases (again : Bool) (dt : Float32) (i : Instance H) (r : Realm H) :
    let o := i.tick dt r
    (again = true ∧ (∃ result, o.value.1 = .ok result ∧ result.isTerminal = true) ∧
        i.update again dt r =
          let o' := o.value.2.restart o.state
          ⟨(o.value.1, o'.value), o'.state, o.trace ++ o'.trace⟩) ∨
      ((∀ result, o.value.1 = .ok result → again = true → result.isTerminal = false) ∧
        i.update again dt r = o) := by
  rw [update, Traced.bind_apply]
  generalize i.tick dt r = o
  obtain ⟨⟨answer, j⟩, r, w⟩ := o
  cases answer with
  | error stop => exact .inr ⟨by simp, by simp⟩
  | ok result =>
    by_cases h : (again && result.isTerminal) = true
    · rw [Bool.and_eq_true] at h
      exact .inl ⟨h.1, ⟨result, rfl, h.2⟩, by simp [h]⟩
    · refine .inr ⟨?_, by simp [h]⟩
      rintro _ ⟨⟩ hagain
      simpa [hagain] using h

/-- What a tick brings about and restarts keep, an update brings about. -/
theorem update_rule {P : Instance H → List (Entry H.Note) → Prop} {dt : Float32} {r : Realm H}
    (tick : P (i.tick dt r).value.2 (i.tick dt r).trace)
    (restart : ∀ j w r, P j w → P (j.restart r).value (w ++ (j.restart r).trace)) (again : Bool) :
    P (i.update again dt r).value.2 (i.update again dt r).trace := by
  obtain ⟨-, -, hupdate⟩ | ⟨-, hupdate⟩ := i.update_cases again dt r
  · rw [hupdate]
    exact restart _ _ _ tick
  · rw [hupdate]
    exact tick

theorem passes_update (h : i.Orderly) (again : Bool) (dt : Float32) (r : Realm H) :
    i.Passes (i.update again dt r).value.2 (i.update again dt r).trace :=
  update_rule (P := i.Passes) (passes_tick h dt r)
    (fun _ _ r hj => hj.trans (passes_restart hj.orderly r)) again

theorem becomes_update (h : g.Becomes i.root) (again : Bool) (dt : Float32) (r : Realm H) :
    g.Becomes (i.update again dt r).value.2.root :=
  update_rule (P := fun j _ => g.Becomes j.root) (becomes_tick h dt r)
    (fun _ _ r hj => becomes_restart hj r) again

end Instance

namespace Errand

def root? : Errand H → Option (Node H)
  | setRoot root _ => some root
  | _ => none

def quiet : Errand H → Bool
  | start _ | startIn _ | stop => false
  | _ => true

end Errand

namespace Runner

def roots (es : List (Errand H)) : List (Node H) := es.filterMap Errand.root?

def holders (r : Runner H) : List (Node H) := r.root.toList ++ r.running.toList.map (·.root)

theorem update_of_none {r : Runner H} (hr : r.running = none) (dt : Float32) (realm : Realm H) :
    r.update dt realm = ⟨(.ok none, r), realm, []⟩ := by
  rw [update, hr]
  rfl

theorem update_of_some {r : Runner H} {i : Instance H} (hr : r.running = some i) (dt : Float32)
    (realm : Realm H) :
    r.update dt realm =
      let o := i.update r.config.restartOnComplete dt realm
      ⟨(o.value.1.map some, { r with running := some o.value.2 }), o.state, o.trace⟩ := by
  rw [update, hr]
  simp only [Instance.update, Traced.bind_apply]
  generalize i.tick dt realm = o
  obtain ⟨⟨answer, j⟩, realm, w⟩ := o
  cases answer with
  | error stop => simp [Except.map]
  | ok result =>
    dsimp only
    split <;> simp [Except.map]

theorem act_update (r : Runner H) (dt : Float32) (realm : Realm H) :
    (Errand.update dt).act r realm =
      let o := r.update dt realm
      ⟨((match o.value.1 with
        | .error stop => [.error stop]
        | .ok result => result.toList.map .ok), o.value.2), o.state, o.trace⟩ := by
  simp only [Errand.act, Traced.bind_apply]
  generalize r.update dt realm = o
  obtain ⟨⟨answer, r⟩, realm, w⟩ := o
  match answer with
  | .error stop => simp
  | .ok none => simp
  | .ok (some result) => simp

inductive Keeps (config : RunnerConfig) : List (Node H) → Runner H → Prop
  | nothing {global : Option BoardId} : Keeps config [] ⟨config, none, global, none⟩
  | waiting {g n : Node H} {gs : List (Node H)} {global : Option BoardId}
    {running : Option (Instance H)} (given : g.Becomes n) (idle : n.Idle)
    (older : ∀ i ∈ running, i.Orderly ∧ ∃ h ∈ gs, h.Becomes i.root) :
    Keeps config (g :: gs) ⟨config, some n, global, running⟩
  | inside {g : Node H} {gs : List (Node H)} {global : Option BoardId} {i : Instance H}
    (given : g.Becomes i.root) (orderly : i.Orderly) :
    Keeps config (g :: gs) ⟨config, none, global, some i⟩

variable {config : RunnerConfig} {r : Runner H} {g : Node H} {gs : List (Node H)}

theorem Keeps.config_eq (h : r.Keeps config gs) : r.config = config := by
  cases h <;> rfl

theorem Keeps.running (h : r.Keeps config gs) :
    ∀ i ∈ r.running, i.Orderly ∧ ∃ h ∈ gs, h.Becomes i.root := by
  cases h with
  | nothing => simp
  | waiting _ _ older =>
    intro i hi
    obtain ⟨horderly, h, hmem, hbecomes⟩ := older i hi
    exact ⟨horderly, h, List.mem_cons_of_mem _ hmem, hbecomes⟩
  | inside given orderly =>
    rintro i ⟨⟩
    exact ⟨orderly, _, List.mem_cons_self, given⟩

theorem reclaim_spec (h : r.Keeps config gs) (realm : Realm H) :
    (∃ root, (r.reclaim realm).value = { r with root := root, running := none }) ∧
      (r.reclaim realm).value.Keeps config gs := by
  cases h with
  | nothing => exact ⟨⟨none, rfl⟩, .nothing⟩
  | @waiting _ n _ _ running given idle older =>
    cases running with
    | none => exact ⟨⟨some n, rfl⟩, .waiting given idle (by simp)⟩
    | some i => exact ⟨⟨some n, rfl⟩, .waiting given idle (by simp)⟩
  | @inside _ _ _ i given orderly =>
    have hroot := Instance.becomes_abort given realm
    obtain ⟨hended, -⟩ := Instance.completions_abort orderly realm
    have hidle := (Instance.passes_abort orderly realm).orderly.ended hended
    exact ⟨⟨some (i.abort realm).value.root, rfl⟩, .waiting hroot hidle (by simp)⟩

theorem keeps_ofConfig (config : RunnerConfig) : (ofConfig config : Runner H).Keeps config [] :=
  .nothing

theorem startIn_nothing (h : r.Keeps config []) (context : Context) (realm : Realm H) :
    r.startIn context realm = ⟨(.error .missingRoot, r), realm, []⟩ := by
  cases h with
  | nothing => rfl

theorem startIn_last (h : r.Keeps config (g :: gs)) (context : Context) (realm : Realm H) :
    ∃ n, g.Becomes n ∧ n.Idle ∧ (r.startIn context realm).value =
      (.ok (), { r with root := none, running := some (.ofRoot n context) }) := by
  obtain ⟨⟨root, hvalue⟩, hkeeps⟩ := reclaim_spec h realm
  rw [hvalue] at hkeeps
  rw [startIn, Traced.bind_apply, hvalue]
  cases hkeeps with
  | waiting given idle => exact ⟨_, given, idle, rfl⟩

def fresh (r : Runner H) (rng : Rng) (realm : Realm H) : Outcome (Realm H) (Entry H.Note) Context :=
  freshContext r.global rng realm

theorem start_eq (r : Runner H) (rng : Rng) (realm : Realm H) :
    r.start rng realm = r.startIn (r.fresh rng realm).value (r.fresh rng realm).state := by
  simp only [start, Traced.bind_apply, freshContext, fresh, List.nil_append]

theorem keeps_startIn (h : r.Keeps config gs) (context : Context) (realm : Realm H) :
    (r.startIn context realm).value.2.Keeps config gs := by
  cases gs with
  | nil =>
    rw [startIn_nothing h]
    exact h
  | cons g gs =>
    obtain ⟨n, hbecomes, hidle, hvalue⟩ := startIn_last h context realm
    rw [hvalue, ← h.config_eq]
    exact .inside hbecomes (Instance.orderly_of_idle context hidle)

theorem keeps_start (h : r.Keeps config gs) (rng : Rng) (realm : Realm H) :
    (r.start rng realm).value.2.Keeps config gs := by
  rw [start_eq]
  exact keeps_startIn h _ _

theorem setRoot_of_running (hr : r.running.isSome) (root : Node H) (rng : Rng) (realm : Realm H) :
    r.setRoot root rng realm = ⟨{ r with root := some root }, realm, []⟩ := by
  rw [setRoot, if_neg (by simp [isRunning, hr])]
  rfl

theorem Keeps.set (h : r.Keeps config gs) {root : Node H} (hroot : root.Idle) :
    Keeps config (root :: gs) { r with root := some root } := by
  rw [← h.config_eq]
  exact .waiting .refl hroot h.running

theorem keeps_setRoot (h : r.Keeps config gs) {root : Node H} (hroot : root.Idle) (rng : Rng)
    (realm : Realm H) : (r.setRoot root rng realm).value.Keeps config (root :: gs) := by
  rw [setRoot]
  dsimp only
  split
  · have hstarted := keeps_start (h.set hroot) rng realm
    rw [Traced.bind_apply]
    generalize Runner.start _ rng realm = o at hstarted
    obtain ⟨⟨started, r⟩, realm, tr⟩ := o
    cases started with
    | ok u => exact hstarted
    | error e => exact hstarted
  · exact h.set hroot

theorem Keeps.replace {i j : Instance H} (h : r.Keeps config gs) (hi : r.running = some i)
    (orderly : j.Orderly) (becomes : ∀ g : Node H, g.Becomes i.root → g.Becomes j.root) :
    Keeps config gs { r with running := some j } := by
  cases h with
  | nothing => cases hi
  | waiting given idle older =>
    subst hi
    obtain ⟨-, h, hmem, hbecomes⟩ := older i rfl
    refine .waiting given idle ?_
    rintro k ⟨⟩
    exact ⟨orderly, h, hmem, becomes h hbecomes⟩
  | inside given =>
    cases hi
    exact .inside (becomes _ given) orderly

theorem keeps_update (h : r.Keeps config gs) (dt : Float32) (realm : Realm H) :
    (r.update dt realm).value.2.Keeps config gs := by
  cases hi : r.running with
  | none =>
    rw [update_of_none hi]
    exact h
  | some i =>
    obtain ⟨horderly, -⟩ := h.running i hi
    rw [update_of_some hi]
    exact h.replace hi (Instance.passes_update horderly _ dt realm).orderly fun g hg =>
      Instance.becomes_update hg _ dt realm

theorem keeps_stop (h : r.Keeps config gs) (realm : Realm H) :
    (r.stop realm).value.Keeps config gs := by
  rw [stop]
  split
  · exact (reclaim_spec h realm).2
  · exact h

theorem keeps_act (e : Errand H) (idle : ∀ root ∈ e.root?, root.Idle) (h : r.Keeps config gs)
    (realm : Realm H) : (e.act r realm).value.2.Keeps config (e.root?.toList ++ gs) := by
  cases e with
  | setRoot root rng => exact keeps_setRoot h (idle root rfl) rng realm
  | setGlobal b =>
    cases h with
    | nothing => exact .nothing
    | waiting given idle older => exact .waiting given idle older
    | inside given orderly => exact .inside given orderly
  | start rng => exact keeps_start h rng realm
  | startIn context => exact keeps_startIn h context realm
  | update dt =>
    rw [act_update]
    exact keeps_update h dt realm
  | stop => exact keeps_stop h realm
  | outside change => exact h

theorem roots_cons (e : Errand H) (es : List (Errand H)) :
    roots (e :: es) = e.root?.toList ++ roots es := by
  rw [roots, List.filterMap_cons]
  cases e.root? <;> rfl

theorem keeps_follow (es : List (Errand H)) (idle : ∀ root ∈ roots es, root.Idle)
    (h : r.Keeps config gs) (realm : Realm H) :
    (follow es r realm).value.2.Keeps config ((roots es).reverse ++ gs) := by
  induction es generalizing r gs realm with
  | nil => exact h
  | cons e es ih =>
    rw [roots_cons] at idle ⊢
    have hstep := keeps_act e (fun root he => idle root (by simp [Option.mem_def.mp he])) h realm
    have hrest := ih (fun root hmem => idle root (List.mem_append_right _ hmem)) hstep
      (e.act r realm).state
    have hlist : e.root?.toList.reverse = e.root?.toList := by cases e.root? <;> rfl
    rw [List.reverse_append, hlist, List.append_assoc]
    simpa [follow] using hrest

theorem Keeps.once (h : r.Keeps config (g :: gs)) (idle : ∀ root ∈ g :: gs, root.Idle)
    (distinct : ((g :: gs).map Node.id).Nodup) :
    r.holders.countP (·.id = g.id) = 1 ∧ ∀ n ∈ r.holders, n.id = g.id → g.Becomes n := by
  have hg : g.Idle := idle g List.mem_cons_self
  cases h with
  | @waiting _ n _ _ running becomes _ older =>
    have hn : n.id = g.id := becomes.id_eq hg
    have holder : ∀ m ∈ running.toList.map (·.root), m.id ≠ g.id := by
      intro m hm
      obtain ⟨i, hi, rfl⟩ := List.mem_map.mp hm
      obtain ⟨-, h, hmem, hbecomes⟩ := older i (Option.mem_toList.mp hi)
      rw [hbecomes.id_eq (idle h (List.mem_cons_of_mem _ hmem))]
      exact fun he => (List.nodup_cons.mp distinct).1 (he ▸ List.mem_map_of_mem hmem)
    have hcount : (running.toList.map (·.root)).countP (·.id = g.id) = 0 :=
      List.countP_eq_zero.mpr fun m hm => by simpa using holder m hm
    refine ⟨by simp [holders, hn, hcount], fun m hm hid => ?_⟩
    obtain rfl | hm : m = n ∨ m ∈ running.toList.map (·.root) := by simpa [holders] using hm
    · exact becomes
    · exact absurd hid (holder m hm)
  | @inside _ _ _ i becomes =>
    have hi : i.root.id = g.id := becomes.id_eq hg
    refine ⟨by simp [holders, hi], fun m hm _ => ?_⟩
    obtain rfl : m = i.root := by simpa [holders] using hm
    exact becomes

theorem act_cases (e : Errand H) (quiet : e.quiet = true) (hr : r.running.isSome)
    (realm : Realm H) :
    (∃ dt, e = .update dt) ∨
      let o := e.act r realm
      o.value.2.running = r.running ∧ o.value.2.config = r.config ∧ o.trace = [] := by
  cases e with
  | setRoot root rng => exact .inr (by simp [Errand.act, setRoot_of_running hr])
  | setGlobal b => exact .inr ⟨rfl, rfl, rfl⟩
  | outside change => exact .inr ⟨rfl, rfl, rfl⟩
  | update dt => exact .inl ⟨dt, rfl⟩
  | _ => cases quiet

/-- What waits makes no difference to a tree that runs and goes on running. -/
theorem act_quiet (e : Errand H) (quiet : e.quiet = true) (hr : r.running.isSome)
    (root : Option (Node H)) (realm : Realm H) :
    let o := e.act r realm
    o.value.2.running.isSome ∧ ∃ root', e.act { r with root := root } realm =
      ⟨(o.value.1, { o.value.2 with root := root' }), o.state, o.trace⟩ := by
  cases e with
  | setRoot n rng =>
    have hset {r : Runner H} (hr : r.running.isSome) : (Errand.setRoot n rng).act r realm =
        ⟨([], { r with root := some n }), realm, []⟩ := by simp [Errand.act, setRoot_of_running hr]
    have hset' := hset (r := { r with root := root }) hr
    rw [hset hr, hset']
    exact ⟨hr, some n, rfl⟩
  | setGlobal b => exact ⟨hr, root, rfl⟩
  | outside change => exact ⟨hr, root, rfl⟩
  | update dt =>
    obtain ⟨i, hi⟩ := Option.isSome_iff_exists.mp hr
    have hupdate := update_of_some hi dt realm
    have hupdate' := update_of_some (r := { r with root := root }) hi dt realm
    rw [act_update, act_update, hupdate, hupdate']
    exact ⟨rfl, root, rfl⟩
  | _ => cases quiet

theorem follow_quiet (es : List (Errand H)) (quiet : ∀ e ∈ es, e.quiet = true)
    (hr : r.running.isSome) (root : Option (Node H)) (realm : Realm H) :
    let o := follow es r realm
    o.value.2.running.isSome ∧ ∃ root', follow es { r with root := root } realm =
      ⟨(o.value.1, { o.value.2 with root := root' }), o.state, o.trace⟩ := by
  induction es generalizing r root realm with
  | nil => exact ⟨hr, root, rfl⟩
  | cons e es ih =>
    obtain ⟨hr', root', hact⟩ := act_quiet e (quiet e (by simp)) hr root realm
    obtain ⟨hr'', root'', hrest⟩ := ih (fun e he => quiet e (List.mem_cons_of_mem _ he)) hr' root'
      (e.act r realm).state
    simp only [follow, Traced.bind_apply, Traced.pure_apply, hact, hrest]
    exact ⟨hr'', root'', rfl⟩

theorem setRoot_of_none (hr : r.running = none) (root : Node H) (rng : Rng) (realm : Realm H) :
    (r.setRoot root rng realm).value =
      if r.config.autoStart then
        { r with root := none, running := some (.ofRoot root (r.fresh rng realm).value) }
      else { r with root := some root } := by
  obtain ⟨config, waiting, global, running⟩ := r
  subst hr
  rw [setRoot]
  cases config.autoStart with
  | false => rfl
  | true => rfl

end Runner

/-- Boards and signals may have been added to a realm, and nothing else is different. -/
structure Realm.Extends (r r' : Realm H) : Prop where
  boards : ∃ more, r'.world.boards.toList = r.world.boards.toList ++ more
  signals : ∃ more, r'.world.signals.toList = r.world.signals.toList ++ more
  shared : r'.world.shared = r.world.shared
  tables : r'.tables = r.tables

namespace Runner
variable {config : RunnerConfig} {r : Runner H} {g : Node H} {gs given : List (Node H)}

theorem extends_fresh (r : Runner H) (rng : Rng) (realm : Realm H) :
    realm.Extends (r.fresh rng realm).state := by
  obtain ⟨config, root, global, running⟩ := r
  cases global with
  | none =>
    refine ⟨⟨[.empty, .empty, .empty], ?_⟩, ⟨[false], ?_⟩, rfl, rfl⟩ <;>
      simp [fresh, freshContext, World.newBoard, World.newSignal]
  | some b =>
    refine ⟨⟨[.empty, .empty], ?_⟩, ⟨[false], ?_⟩, rfl, rfl⟩ <;>
      simp [fresh, freshContext, World.newBoard, World.newSignal]

def Starts (g : Node H) (context : Context)
    (o : Outcome (Realm H) (Entry H.Note) (Except Fault Unit × Runner H)) : Prop :=
  ∃ n, g.Becomes n ∧ n.Idle ∧ o.value.1 = .ok () ∧ o.value.2.root = none ∧
    o.value.2.running = some (.ofRoot n context)

/-- How a runner keeps the roots that it has been given, in their order. -/
structure Holds (config : RunnerConfig) (given : List (Node H)) (r : Runner H) : Prop where
  /-- A start succeeds just when there has been a root. -/
  succeeds : (∀ context realm, (r.startIn context realm).value.1 = .ok () ↔ given ≠ []) ∧
    ∀ rng realm, (r.start rng realm).value.1 = .ok () ↔ given ≠ []
  /-- It starts the tree given last, with all nodes idle. -/
  takes : ∀ g ∈ given.getLast?,
    (∀ context realm, Starts g context (r.startIn context realm)) ∧
      ∀ rng realm, Starts g (r.fresh rng realm).value (r.start rng realm)
  /-- A start that fails changes nothing, apart from a context that nobody gets. -/
  fails : given = [] →
    (∀ context realm, r.startIn context realm = ⟨(.error .missingRoot, r), realm, []⟩) ∧
      ∀ rng realm, r.start rng realm =
        ⟨(.error .missingRoot, r), (r.fresh rng realm).state, []⟩ ∧
          realm.Extends (r.fresh rng realm).state
  /-- The tree given last is held once, if roots can be told apart. -/
  once : ∀ g ∈ given.getLast?, (given.map Node.id).Nodup →
    r.holders.countP (·.id = g.id) = 1 ∧ ∀ n ∈ r.holders, n.id = g.id → g.Becomes n
  /-- A root set while no tree runs is started at once, or waits, as the runner is set up to. -/
  sets : r.isRunning = false → ∀ root rng realm, (r.setRoot root rng realm).value =
    if config.autoStart then
      { r with root := none, running := some (.ofRoot root (r.fresh rng realm).value) }
    else { r with root := some root }
  /-- A root set while a tree runs makes no difference to it, now and as long as it is neither
  started over nor stopped. -/
  waits : r.isRunning = true → ∀ root rng realm,
    r.setRoot root rng realm = ⟨{ r with root := some root }, realm, []⟩ ∧
      ∀ more, (∀ e ∈ more, e.quiet = true) →
        let p := follow more r realm
        let q := follow more { r with root := some root } realm
        q.value.1 = p.value.1 ∧ q.value.2.running = p.value.2.running ∧ q.state = p.state ∧
          q.trace = p.trace ∧ p.value.2.isRunning = true

theorem starts_last (h : r.Keeps config (g :: gs)) (context : Context) (realm : Realm H) :
    Starts g context (r.startIn context realm) := by
  obtain ⟨n, hbecomes, hidle, hvalue⟩ := startIn_last h context realm
  exact ⟨n, hbecomes, hidle, by rw [hvalue], by rw [hvalue], by rw [hvalue]⟩

theorem waits_of_running (hr : r.isRunning = true) (root : Node H) (rng : Rng) (realm : Realm H) :
    r.setRoot root rng realm = ⟨{ r with root := some root }, realm, []⟩ ∧
      ∀ more, (∀ e ∈ more, e.quiet = true) →
        let p := follow more r realm
        let q := follow more { r with root := some root } realm
        q.value.1 = p.value.1 ∧ q.value.2.running = p.value.2.running ∧ q.state = p.state ∧
          q.trace = p.trace ∧ p.value.2.isRunning = true := by
  constructor
  · exact setRoot_of_running hr root rng realm
  · intro more quiet p q
    obtain ⟨hr', root', hq⟩ := follow_quiet more quiet hr (some root) realm
    have hq : q = _ := hq
    rw [hq]
    exact ⟨rfl, rfl, rfl, rfl, hr'⟩

theorem startIn_ok_iff (h : r.Keeps config given.reverse) (context : Context) (realm : Realm H) :
    (r.startIn context realm).value.1 = .ok () ↔ given ≠ [] := by
  rw [← List.reverse_ne_nil_iff]
  cases hgs : given.reverse with
  | nil => simp [startIn_nothing (hgs ▸ h)]
  | cons g gs =>
    obtain ⟨n, -, -, hok, -⟩ := starts_last (hgs ▸ h) context realm
    simp [hok]

theorem Keeps.exists_last (h : r.Keeps config given.reverse) (hg : g ∈ given.getLast?) :
    ∃ gs, given = gs ++ [g] ∧ r.Keeps config (g :: gs.reverse) := by
  obtain ⟨gs, rfl⟩ := List.getLast?_eq_some_iff.mp hg
  exact ⟨gs, rfl, by simpa using h⟩

theorem Keeps.holds (h : r.Keeps config given.reverse) (idle : ∀ root ∈ given, root.Idle) :
    r.Holds config given := by
  have htakes : ∀ g ∈ given.getLast?, ∀ context realm,
      Starts g context (r.startIn context realm) := by
    intro g hg context realm
    obtain ⟨gs, -, hkeeps⟩ := h.exists_last hg
    exact starts_last hkeeps context realm
  have hsucceeds := startIn_ok_iff h
  have hfails : given = [] → ∀ context realm,
      r.startIn context realm = ⟨(.error .missingRoot, r), realm, []⟩ := by
    rintro rfl
    exact startIn_nothing h
  refine ⟨⟨hsucceeds, fun rng realm => ?_⟩, fun g hg => ⟨htakes g hg, fun rng realm => ?_⟩,
    fun hgiven => ⟨hfails hgiven, fun rng realm => ⟨?_, extends_fresh r rng realm⟩⟩,
    fun g hg distinct => ?_, fun hr root rng realm => ?_, waits_of_running⟩
  · rw [start_eq]
    exact hsucceeds _ _
  · rw [start_eq]
    exact htakes g hg _ _
  · rw [start_eq]
    exact hfails hgiven _ _
  · obtain ⟨gs, rfl, hkeeps⟩ := h.exists_last hg
    refine hkeeps.once (fun root hmem => idle root ?_) ?_
    · simpa [or_comm] using hmem
    · have hperm : (gs ++ [g]).Perm (g :: gs.reverse) := by
        simpa using (List.reverse_perm (gs ++ [g])).symm
      exact (hperm.map Node.id).nodup_iff.mp distinct
  · rw [← h.config_eq]
    exact setRoot_of_none (by simpa [isRunning] using hr) root rng realm

end Runner

/-- Whatever callbacks do, and however often a runner is started, stopped and given roots, each
start takes the root set last, and until then this root waits or runs, and is held once. -/
theorem held_of_follow (config : RunnerConfig) (es : List (Errand H))
    (idle : ∀ root ∈ Runner.roots es, root.Idle) (realm : Realm H) :
    (Runner.follow es (.ofConfig config) realm).value.2.Holds config (Runner.roots es) := by
  have hkeeps := Runner.keeps_follow es idle (Runner.keeps_ofConfig config) realm
  rw [List.append_nil] at hkeeps
  exact hkeeps.holds idle

def Runner.handover : List (Errand Host.echo) :=
  let rng := Rng.ofSeed 0
  [.setRoot Rooted.echo.root rng, .start rng, .setRoot Rooted.paused.root rng, .update 1, .stop]

theorem held_of_follow_handover :
    let r := (Runner.follow Runner.handover (.ofConfig Runner.manual)
      Rooted.still.toRealm).value.2
    let given := Runner.roots Runner.handover
    (∀ root ∈ given, root.Idle) ∧ given.map Node.id = [3, 2] ∧
      r.holders.countP (·.id = 2) = 1 ∧
        ∀ context realm, Runner.Starts Rooted.paused.root context (r.startIn context realm) := by
  have hidle : ∀ root ∈ Runner.roots Runner.handover, root.Idle := by
    simp only [Runner.roots, Runner.handover, List.filterMap, Errand.root?]
    decide
  have hholds := held_of_follow Runner.manual Runner.handover hidle Rooted.still.toRealm
  have hlast : Rooted.paused.root ∈ (Runner.roots Runner.handover).getLast? := rfl
  have hids : (Runner.roots Runner.handover).map Node.id = [3, 2] := rfl
  refine ⟨hidle, hids, ?_, (hholds.takes _ hlast).1⟩
  exact (hholds.once _ hlast (by rw [hids]; decide)).1

end TickTree
