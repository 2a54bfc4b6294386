import TickTree.Proofs.Life
import TickTree.Proofs.Updates
/-! The trees that a runner starts, one after the other. Each has a life, which is over when the
tree is stopped, started over or dropped, and all that is told belongs to one of these lives. -/
namespace TickTree
variable {H : Host}

namespace Node
variable {g n : Node H}

structure Ready (g : Node H) : Prop where
  idle : g.Idle
  distinct : g.ids.Nodup

theorem Becomes.distinct (h : g.Becomes n) (ready : g.Ready) : n.ids.Nodup :=
  ids_eq_of_shape (h.shape_eq (sound_of_idle ready.idle)).2 ▸ ready.distinct

end Node

namespace Runner
variable {config : RunnerConfig} {r : Runner H} {gs : List (Node H)} {realm : Realm H}
  {w w' : List (Entry H.Note)} {running : Option (Instance H)} {i : Instance H}

theorem drop_of_none (hr : r.running = none) (realm : Realm H) : (r.drop realm).trace = [] := by
  rw [drop, hr]
  rfl

theorem drop_of_some (hr : r.running = some i) (realm : Realm H) :
    (r.drop realm).trace = (i.abort realm).trace := by
  rw [drop, hr]
  simp

/-- Taking a tree apart tells of it what dropping the runner would. -/
theorem told_reclaim (r : Runner H) (realm : Realm H) :
    told (r.reclaim realm).trace = told (r.drop realm).trace ∧
      starts (r.reclaim realm).trace = starts (r.drop realm).trace := by
  obtain ⟨config, root, global, running⟩ := r
  cases running with
  | none => exact ⟨rfl, rfl⟩
  | some i =>
    have hdrop := drop_of_some (r := ⟨config, root, global, some i⟩) rfl realm
    rw [hdrop]
    cases root with
    | none => simp [reclaim, Instance.intoParts]
    | some n =>
      simp only [reclaim, Instance.intoParts, Turn.report, Traced.bind_apply, told_append,
        starts_append]
      simp [told, starts, Entry.ofRunner, Entry.started?]

theorem Keeps.distinct (h : r.Keeps config gs) (ready : ∀ g ∈ gs, g.Ready) :
    ∀ i ∈ r.running, i.Orderly ∧ i.root.ids.Nodup := by
  intro i hi
  obtain ⟨horderly, g, hg, hbecomes⟩ := h.running i hi
  exact ⟨horderly, hbecomes.distinct (ready g hg)⟩

theorem starts_drop (h : r.Keeps config gs) (ready : ∀ g ∈ gs, g.Ready)
    (realm : Realm H) : starts (r.drop realm).trace = [] := by
  cases hr : r.running with
  | none =>
    rw [drop_of_none hr]
    rfl
  | some i =>
    obtain ⟨horderly, hdistinct⟩ := h.distinct ready i hr
    rw [drop_of_some hr]
    exact (Instance.proceeds_abort horderly hdistinct realm).unstarted

/-- A call that ends the tree that runs, if there is one, and may start another. -/
inductive Renews (r : Runner H) (w : List (Entry H.Note)) : Option (Instance H) → Prop
  | ended (realm : Realm H) (ends : told w = told (r.drop realm).trace)
    (unstarted : starts w = []) : Renews r w none
  | started {root : Node H} {context : Context} (realm : Realm H)
    (ends : told w = told (r.drop realm).trace) (idle : root.Idle) (distinct : root.ids.Nodup)
    (named : starts w = [root.name]) : Renews r w (some (.ofRoot root context))

theorem Renews.report (h : r.Renews w running) (hw : told w' = []) (hw' : starts w' = []) :
    r.Renews (w ++ w') running := by
  cases h with
  | ended realm ends unstarted =>
    exact .ended realm (by rw [told_append, hw, List.append_nil, ends])
      (by rw [starts_append, hw', List.append_nil, unstarted])
  | started realm ends idle distinct named =>
    exact .started realm (by rw [told_append, hw, List.append_nil, ends]) idle distinct
      (by rw [starts_append, hw', List.append_nil, named])

theorem Renews.of_running {r' : Runner H} (h : r'.Renews w running)
    (hr : r'.running = r.running) : r.Renews w running := by
  have hdrop : r'.drop = r.drop := by rw [drop, drop, hr]
  cases h with
  | ended realm ends unstarted => exact .ended realm (hdrop ▸ ends) unstarted
  | started realm ends idle distinct named =>
    exact .started realm (hdrop ▸ ends) idle distinct named

theorem renews_nothing (hr : r.running = none) (realm : Realm H) : r.Renews [] none :=
  .ended realm (by rw [drop_of_none hr]) rfl

theorem renews_startIn (h : r.Keeps config gs) (ready : ∀ g ∈ gs, g.Ready)
    (context : Context) (realm : Realm H) :
    r.Renews (r.startIn context realm).trace (r.startIn context realm).value.2.running := by
  cases gs with
  | nil =>
    rw [startIn_nothing h]
    cases h with
    | nothing => exact renews_nothing rfl realm
  | cons g gs =>
    obtain ⟨⟨root, hvalue⟩, hkeeps⟩ := reclaim_spec h realm
    obtain ⟨htold, hstarts⟩ := told_reclaim r realm
    have hunstarted := starts_drop h ready realm
    rw [hvalue] at hkeeps
    rw [startIn, Traced.bind_apply, hvalue]
    cases hkeeps with
    | @waiting _ n _ _ _ given idle =>
      have hdistinct : n.ids.Nodup := given.distinct (ready g List.mem_cons_self)
      refine .started realm ?_ idle hdistinct ?_
      · rw [told_append, htold]
        exact List.append_nil _
      · rw [starts_append, hstarts, hunstarted]
        rfl

theorem renews_start (h : r.Keeps config gs) (ready : ∀ g ∈ gs, g.Ready) (rng : Rng)
    (realm : Realm H) :
    r.Renews (r.start rng realm).trace (r.start rng realm).value.2.running := by
  rw [start_eq]
  exact renews_startIn h ready _ _

theorem renews_setRoot (h : r.Keeps config gs) {root : Node H}
    (ready : ∀ g ∈ root :: gs, g.Ready) (hr : r.running = none) (rng : Rng)
    (realm : Realm H) :
    r.Renews (r.setRoot root rng realm).trace (r.setRoot root rng realm).value.running := by
  rw [setRoot]
  dsimp only
  split
  · have hset := h.set (ready root List.mem_cons_self).idle
    have hstart := (renews_start hset ready rng realm).of_running (r := r) rfl
    rw [Traced.bind_apply]
    generalize Runner.start _ rng realm = o at hstart
    obtain ⟨⟨started, r'⟩, realm, w⟩ := o
    cases started with
    | ok u => exact hstart.report rfl rfl
    | error e => exact hstart.report rfl rfl
  · rw [Traced.pure_apply]
    dsimp only
    rw [hr]
    exact renews_nothing hr realm

theorem renews_stop (h : r.Keeps config gs) (ready : ∀ g ∈ gs, g.Ready)
    (realm : Realm H) : r.Renews (r.stop realm).trace (r.stop realm).value.running := by
  rw [stop]
  split
  · obtain ⟨⟨root, hvalue⟩, -⟩ := reclaim_spec h realm
    obtain ⟨htold, hstarts⟩ := told_reclaim r realm
    rw [Traced.bind_apply, hvalue]
    refine .report (.ended realm htold ?_) rfl rfl
    rw [hstarts, starts_drop h ready]
  · next hr =>
    have hr : r.running = none := by simpa [isRunning] using hr
    rw [Traced.pure_apply]
    dsimp only
    rw [hr]
    exact renews_nothing hr realm

theorem renews_act (e : Errand H) (h : r.Keeps config gs)
    (ready : ∀ g ∈ e.root?.toList ++ gs, g.Ready)
    (he : (e.quiet && r.isRunning) = false) (realm : Realm H) :
    r.Renews (e.act r realm).trace (e.act r realm).value.2.running := by
  have hready : ∀ g ∈ gs, g.Ready := fun g hg => ready g (List.mem_append_right _ hg)
  have hnone (hquiet : e.quiet = true) : r.running = none := by
    simpa [hquiet, isRunning] using he
  cases e with
  | setRoot root rng => exact (renews_setRoot h ready (hnone rfl) rng realm).report rfl rfl
  | setGlobal b =>
    have hr := hnone rfl
    exact hr ▸ renews_nothing hr realm
  | start rng => exact (renews_start h hready rng realm).report rfl rfl
  | startIn context => exact (renews_startIn h hready context realm).report rfl rfl
  | update dt =>
    have hr := hnone rfl
    rw [act_update, update_of_none hr]
    exact hr ▸ renews_nothing hr realm
  | stop => exact (renews_stop h hready realm).report rfl rfl
  | outside change =>
    have hr := hnone rfl
    exact hr ▸ renews_nothing hr realm

theorem proceeds_act (e : Errand H) (quiet : e.quiet = true) (hr : r.running = some i)
    (orderly : i.Orderly) (distinct : i.root.ids.Nodup) (realm : Realm H) :
    ∃ j, (e.act r realm).value.2.running = some j ∧ i.Proceeds j (e.act r realm).trace ∧
      (r.config.restartOnComplete = true → i.active = true → j.active = true) := by
  obtain ⟨dt, rfl⟩ | ⟨hrunning, -, htrace⟩ :=
    act_cases e quiet (Option.isSome_iff_exists.mpr ⟨i, hr⟩) realm
  · rw [act_update, update_of_some hr]
    refine ⟨_, rfl, Instance.proceeds_update orderly distinct _ dt realm, fun hagain hi => ?_⟩
    rw [hagain]
    exact Instance.active_update hi dt realm
  · exact ⟨i, hrunning.trans hr, htrace ▸ .refl orderly, fun _ hi => hi⟩

end Runner

def Errand.lives (e : Errand H) (r : Runner H) (realm : Realm H) (now : Option (Life H)) :
    List (Life H) × Option (Life H) :=
  let o := e.act r realm
  let grown := now.map (·.tell o.trace)
  if e.quiet && r.isRunning then ([], grown)
  else (grown.toList, o.value.2.running.map fun i => ⟨i.root, []⟩)

/-- These lives have ended in this trace, and make up all that is told in it. -/
structure Accounts (before : Option (Life H)) (w : List (Entry H.Note)) (ended : List (Life H))
    (now : Option (Life H)) : Prop where
  finished : ∀ l ∈ ended, l.Over
  told : before.toList.flatMap (·.told) ++ told w = (ended ++ now.toList).flatMap (·.told)
  started : before.toList.map (·.root.name) ++ starts w = (ended ++ now.toList).map (·.root.name)

namespace Accounts
variable {before now next : Option (Life H)} {w w' : List (Entry H.Note)}
  {ended ended' : List (Life H)} {l : Life H}

theorem refl (now : Option (Life H)) : Accounts now [] [] now := by
  constructor
  · simp
  · exact List.append_nil _
  · exact List.append_nil _

theorem trans (h : Accounts before w ended now) (h' : Accounts now w' ended' next) :
    Accounts before (w ++ w') (ended ++ ended') next := by
  refine ⟨fun l hl => ?_, ?_, ?_⟩
  · obtain hl | hl := List.mem_append.mp hl
    · exact h.finished l hl
    · exact h'.finished l hl
  · rw [told_append, ← List.append_assoc, h.told, List.append_assoc ended, List.flatMap_append,
      List.flatMap_append, List.append_assoc, h'.told]
  · rw [starts_append, ← List.append_assoc, h.started, List.append_assoc ended, List.map_append,
      List.map_append, List.append_assoc, h'.started]

theorem grow (unstarted : starts w = []) : Accounts (some l) w [] (some (l.tell w)) := by
  constructor
  · simp
  · simp [Life.tell]
  · simp [Life.tell, unstarted]

theorem renew (finished : ∀ l ∈ now, (l.tell w).Over) (silent : now = none → TickTree.told w = [])
    (fresh : ∀ l ∈ next, l.told = []) (named : starts w = next.toList.map (·.root.name)) :
    Accounts now w (now.map (·.tell w)).toList next := by
  have hfresh : next.toList.flatMap (·.told) = [] :=
    List.flatMap_eq_nil_iff.mpr fun l hl => fresh l (Option.mem_toList.mp hl)
  refine ⟨fun l hl => ?_, ?_, ?_⟩
  · obtain ⟨l, hl', rfl⟩ := Option.map_eq_some_iff.mp (Option.mem_toList.mp hl)
    exact finished l hl'
  · rw [List.flatMap_append, hfresh]
    cases now with
    | none => simpa using silent rfl
    | some l => simp [Life.tell]
  · rw [List.map_append, named]
    cases now with
    | none => simp
    | some l => simp [Life.tell]

theorem whole (h : Accounts none w ended none) :
    TickTree.told w = ended.flatMap (·.told) ∧ starts w = ended.map (·.root.name) :=
  ⟨by simpa using h.told, by simpa using h.started⟩

end Accounts

namespace Runner
variable {config : RunnerConfig} {r : Runner H} {gs : List (Node H)} {now : Option (Life H)}
  {w : List (Entry H.Note)} {running : Option (Instance H)} {realm : Realm H}

def lives : List (Errand H) → Runner H → Realm H → Option (Life H) → List (Life H) × Option (Life H)
  | [], _, _, now => ([], now)
  | e :: es, r, realm, now =>
    let (ended, now) := e.lives r realm now
    let (more, now) := lives es (e.act r realm).value.2 (e.act r realm).state now
    (ended ++ more, now)

/-- The tree that runs is the one whose life it is. Under a runner that restarts trees, it goes. -/
def Lives (config : RunnerConfig) (now : Option (Life H)) (running : Option (Instance H)) : Prop :=
  Option.Rel (fun l i => l.Leads i ∧ (config.restartOnComplete = true → i.active = true)) now
    running

theorem Lives.isSome_eq (h : Lives config now running) : now.isSome = running.isSome := by
  cases h with
  | none => rfl
  | some => rfl

theorem Lives.going (h : Lives config now running) :
    ∀ i ∈ running, i.Orderly ∧ (config.restartOnComplete = true → i.active = true) := by
  cases h with
  | none => simp
  | some hleads =>
    rintro i ⟨⟩
    exact ⟨hleads.1.orderly, hleads.2⟩

theorem over_drop {l : Life H} {i : Instance H} (h : l.Leads i) (hr : r.running = some i)
    (hw : told w = told (r.drop realm).trace) : (l.tell w).Over := by
  have hstep := Instance.proceeds_abort h.orderly (h.ids_eq ▸ h.distinct) realm
  obtain ⟨hended, -⟩ := Instance.completions_abort h.orderly realm
  have htell : l.tell w = l.tell (i.abort realm).trace := by
    rw [Life.tell, hw, drop_of_some hr, Life.tell]
  rw [htell]
  exact (h.tell hstep).over hended

theorem accounts_renew (h : Lives config now r.running) (hw : r.Renews w running) :
    let next := running.map fun i => ⟨i.root, []⟩
    Accounts now w (now.map (·.tell w)).toList next ∧ Lives config next running := by
  have hover (realm : Realm H) (ends : told w = told (r.drop realm).trace) :
      (∀ l ∈ now, (l.tell w).Over) ∧ (now = none → told w = []) := by
    rw [ends]
    generalize hrunning : r.running = running at h
    cases h with
    | none => exact ⟨by simp, fun _ => by rw [drop_of_none hrunning]; rfl⟩
    | some hleads =>
      refine ⟨?_, fun hnone => by cases hnone⟩
      rintro l ⟨⟩
      exact over_drop hleads.1 hrunning ends
  cases hw with
  | ended realm ends unstarted =>
    obtain ⟨hover, hsilent⟩ := hover realm ends
    exact ⟨.renew hover hsilent (by simp) unstarted, .none⟩
  | started realm ends idle distinct named =>
    obtain ⟨hover, hsilent⟩ := hover realm ends
    exact ⟨.renew hover hsilent (by simp) named,
      .some ⟨Life.leads_ofRoot idle distinct _, fun _ => rfl⟩⟩

theorem accounts_act (e : Errand H) (h : r.Keeps config gs)
    (ready : ∀ g ∈ e.root?.toList ++ gs, g.Ready) (living : Lives config now r.running)
    (realm : Realm H) :
    let o := e.act r realm
    let p := e.lives r realm now
    Accounts now o.trace p.1 p.2 ∧ Lives config p.2 o.value.2.running := by
  intro o p
  by_cases he : (e.quiet && r.isRunning) = true
  · have hp : p = ([], now.map (·.tell o.trace)) := if_pos he
    rw [Bool.and_eq_true] at he
    obtain ⟨i, hr⟩ := Option.isSome_iff_exists.mp he.2
    rw [hr] at living
    cases living with
    | @some l _ hleads =>
      obtain ⟨hleads, hactive⟩ := hleads
      obtain ⟨j, hrunning, hstep, hgoing⟩ := proceeds_act e he.1 hr hleads.orderly
        (hleads.ids_eq ▸ hleads.distinct) realm
      have hrunning : o.value.2.running = some j := hrunning
      rw [hp, hrunning]
      refine ⟨.grow hstep.unstarted, .some ⟨hleads.tell hstep, fun hagain => ?_⟩⟩
      exact hgoing (h.config_eq ▸ hagain) (hactive hagain)
  · have hp : p = _ := if_neg he
    rw [hp]
    exact accounts_renew living (renews_act e h ready (by simpa using he) realm)

/-- All that is told along the calls is told of the trees that run. -/
theorem accounts_follow (es : List (Errand H)) (h : r.Keeps config gs)
    (ready : ∀ g ∈ (roots es).reverse ++ gs, g.Ready)
    (living : Lives config now r.running) (realm : Realm H) :
    let o := follow es r realm
    let p := lives es r realm now
    Accounts now o.trace p.1 p.2 ∧ Lives config p.2 o.value.2.running := by
  induction es generalizing r gs now realm with
  | nil => exact ⟨.refl now, living⟩
  | cons e es ih =>
    have hready : ∀ g ∈ (roots es).reverse ++ (e.root?.toList ++ gs), g.Ready := by
      intro g hg
      refine ready g ?_
      rw [roots_cons]
      simpa [or_comm, or_assoc, or_left_comm] using hg
    have hnow : ∀ g ∈ e.root?.toList ++ gs, g.Ready := fun g hg =>
      hready g (List.mem_append_right _ hg)
    have hidle : ∀ root ∈ e.root?, root.Idle := fun root he =>
      (hnow root (by simp [Option.mem_def.mp he])).idle
    have hkeeps := keeps_act e hidle h realm
    obtain ⟨hstep, hliving⟩ := accounts_act e h hnow living realm
    obtain ⟨hrest, hliving⟩ := ih hkeeps hready hliving (e.act r realm).state
    refine ⟨?_, by simpa [follow, lives] using hliving⟩
    simpa [follow, lives] using hstep.trans hrest

theorem lives_append (es more : List (Errand H)) (r : Runner H) (realm : Realm H)
    (now : Option (Life H)) :
    lives (es ++ more) r realm now =
      let o := follow es r realm
      let p := lives es r realm now
      let q := lives more o.value.2 o.state p.2
      (p.1 ++ q.1, q.2) := by
  induction es generalizing r realm now with
  | nil => rfl
  | cons e es ih => simp [lives, follow, ih]

end Runner

/-- Whatever callbacks do, and however often a runner is started and stopped, its updates answer as
they should, and each tree that it has started is over once it has been stopped, started over or
dropped. All that is told of trees belongs to these lives, one after the other, and none of them
goes on after its end. -/
theorem lived_of_follow (config : RunnerConfig) (es : List (Errand H))
    (idle : ∀ root ∈ Runner.roots es, root.Idle)
    (distinct : ∀ root ∈ Runner.roots es, root.ids.Nodup) (realm : Realm H) :
    let o := Runner.follow es (.ofConfig config) realm
    let r := o.value.2
    let dropped := r.drop o.state
    let p := Runner.lives es (.ofConfig config) realm none
    let all := p.1 ++ (p.2.map (·.tell dropped.trace)).toList
    r.Updates config ∧ (∀ l ∈ all, l.Over) ∧
      told (o.trace ++ dropped.trace) = all.flatMap (·.told) ∧
      starts (o.trace ++ dropped.trace) = all.map (·.root.name) ∧
      p.2.isSome = r.isRunning ∧
      ∀ more, p.1 <+: (Runner.lives (es ++ more) (.ofConfig config) realm none).1 := by
  intro o r dropped p all
  have hready : ∀ g ∈ (Runner.roots es).reverse ++ [], g.Ready := by
    intro g hg
    rw [List.append_nil, List.mem_reverse] at hg
    exact ⟨idle g hg, distinct g hg⟩
  have hstart : Runner.Lives config (none : Option (Life H)) (Runner.ofConfig config).running :=
    .none
  have hkeeps : r.Keeps config ((Runner.roots es).reverse ++ []) :=
    Runner.keeps_follow es idle (Runner.keeps_ofConfig config) realm
  obtain ⟨haccounts, hliving⟩ :=
    Runner.accounts_follow es (Runner.keeps_ofConfig config) hready hstart realm
  -- with the runner, the tree that runs ends too
  have hdrop : r.Renews dropped.trace none :=
    .ended o.state rfl (Runner.starts_drop hkeeps hready o.state)
  have hall := haccounts.trans (Runner.accounts_renew hliving hdrop).1
  obtain ⟨htold, hstarted⟩ := hall.whole
  refine ⟨Runner.updates_of_going hkeeps.config_eq hliving.going, hall.finished, htold, hstarted,
    hliving.isSome_eq, fun more => ?_⟩
  rw [Runner.lives_append]
  exact List.prefix_append _ _

def Runner.relay : List (Errand Host.echo) :=
  Runner.handover ++ [.start (Rng.ofSeed 0), .update 1]

theorem lived_of_follow_relay :
    let o := Runner.follow Runner.relay (.ofConfig Runner.manual) Rooted.still.toRealm
    let dropped := o.value.2.drop o.state
    let p := Runner.lives Runner.relay (.ofConfig Runner.manual) Rooted.still.toRealm none
    let all := p.1 ++ (p.2.map (·.tell dropped.trace)).toList
    (∀ root ∈ Runner.roots Runner.relay, root.Idle) ∧
      (∀ root ∈ Runner.roots Runner.relay, root.ids.Nodup) ∧
      o.value.1 = [.ok .running, .ok .success] ∧ all.length = 2 ∧ ∀ l ∈ all, l.Over := by
  have hroots : Runner.roots Runner.relay = [Rooted.echo.root, Rooted.paused.root] := rfl
  have hidle : ∀ root ∈ Runner.roots Runner.relay, root.Idle := by
    rw [hroots]
    decide
  have hdistinct : ∀ root ∈ Runner.roots Runner.relay, root.ids.Nodup := by
    rw [hroots]
    decide
  obtain ⟨-, hover, -, hstarted, -⟩ :=
    lived_of_follow Runner.manual Runner.relay hidle hdistinct Rooted.still.toRealm
  refine ⟨hidle, hdistinct, by decide +kernel, ?_, hover⟩
  have hlength := congrArg List.length hstarted
  rw [List.length_map] at hlength
  rw [← hlength]
  decide +kernel

end TickTree
