import TickTree.Proofs.Holding
/-! What the updates of a runner answer. If trees are restarted, each result comes from a tick of
the tree that runs, and else a tree that has ended fails until it is started again. -/
namespace TickTree
variable {H : Host} {ν : Type}

theorem Nodal.going_eq (h : Nodal w) : w.filterMap Entry.going? = [] :=
  List.filterMap_eq_nil_iff.mpr fun e he => (h.silent e he).2.1

namespace Instance
variable {i : Instance H}

theorem active_update (hi : i.active = true) (dt : Float32) (r : Realm H) :
    (i.update true dt r).value.2.active = true := by
  obtain ⟨-, -, hupdate⟩ | ⟨hgoing, hupdate⟩ := i.update_cases true dt r
  · rw [hupdate]
    rfl
  · rw [hupdate]
    have hticks := i.tick_spec dt r
    generalize i.tick dt r = o at hgoing hticks
    cases hticks with
    | ended => exact hi
    | kept => exact hi
    | completed _ _ terminal =>
      rw [hgoing _ rfl rfl] at terminal
      cases terminal

theorem going_restart (h : i.Orderly) (r : Realm H) :
    (i.restart r).trace.filterMap Entry.going? = [true] := by
  obtain ⟨-, -, hnodal⟩ := passes_abortRoot h r
  simp only [restart, Traced.bind_apply, List.filterMap_append, hnodal.going_eq]
  rfl

structure Ticked (i : Instance H) (dt : Float32) (r : Realm H) (result : Status) (j : Instance H)
    (w : List (Entry H.Note)) : Prop where
  /-- The root has been executed, and the result is its own. -/
  executed : let x := i.root.execute (i.context.beginTick dt).toSetting dt ⟨r, i.context.rng⟩
    x.value.1 = .ok result ∧ x.trace <+: w
  clock : j.context.scope.elapsed = i.context.scope.elapsed + dt
  active : j.active = true
  /-- After a result that ends the tree it is restarted once. -/
  restarted : w.filterMap Entry.going? = if result.isTerminal then [false, true] else []

theorem ticked_update (h : i.Orderly) (hi : i.active = true) {dt : Float32} {r : Realm H}
    {result : Status} (answers : (i.update true dt r).value.1 = .ok result) :
    i.Ticked dt r result (i.update true dt r).value.2 (i.update true dt r).trace := by
  have hactive := active_update hi dt r
  have hticks := i.tick_spec dt r
  obtain ⟨-, ⟨result', hanswer, hterminal⟩, hupdate⟩ | ⟨hgoing, hupdate⟩ := i.update_cases true dt r
  · rw [hupdate] at answers hactive ⊢
    generalize i.tick dt r = o at answers hactive hanswer hticks
    cases hticks with
    | ended hi' => simp [hi] at hi'
    | kept _ _ going =>
      rw [going _ hanswer] at hterminal
      cases hterminal
    | @completed _ n st tr _ executed terminal =>
      cases answers
      obtain ⟨hsound, hclosed, -, hnodal, hidle⟩ := Instance.executed h.sound h.closed executed
      have horderly : Orderly { i.ticked dt n st.rng with active := false } :=
        ⟨hsound, hclosed, fun _ => hidle _ rfl terminal⟩
      refine ⟨?_, rfl, hactive, ?_⟩
      · rw [executed]
        exact ⟨rfl, _, (List.append_assoc ..).symm⟩
      · simp only [List.filterMap_append, going_restart horderly, hnodal.going_eq, terminal]
        rfl
  · rw [hupdate] at answers hactive ⊢
    generalize i.tick dt r = o at answers hactive hgoing hticks
    cases hticks with
    | ended hi' => simp [hi] at hi'
    | kept _ executed going =>
      cases answers
      obtain ⟨-, -, -, hnodal, -⟩ := Instance.executed h.sound h.closed executed
      refine ⟨?_, rfl, hactive, ?_⟩
      · rw [executed]
        exact ⟨rfl, List.prefix_rfl⟩
      · rw [hnodal.going_eq, going _ rfl]
        rfl
    | completed _ _ terminal =>
      rw [hgoing _ rfl rfl] at terminal
      cases terminal

theorem update_once (i : Instance H) (dt : Float32) (r : Realm H) :
    i.update false dt r = i.tick dt r := by
  obtain ⟨hagain, -⟩ | ⟨-, hupdate⟩ := i.update_cases false dt r
  · cases hagain
  · exact hupdate

theorem update_of_ended (hi : i.active = false) (dt : Float32) (r : Realm H) :
    i.update false dt r = ⟨(.ok .failure, i), r, []⟩ := by
  simp [update, tick, hi]

end Instance

namespace Runner
variable {config : RunnerConfig} {r : Runner H} {realm : Realm H}

structure Rests (r : Runner H) : Prop where
  once : r.config.restartOnComplete = false
  ended : ∃ i ∈ r.running, i.active = false

theorem Rests.update_eq (h : r.Rests) (dt : Float32) (realm : Realm H) :
    r.update dt realm = ⟨(.ok (some .failure), r), realm, []⟩ := by
  obtain ⟨config, root, global, running⟩ := r
  obtain ⟨hconfig, i, hr, hi⟩ := h
  have hr : running = some i := hr
  have hconfig : config.restartOnComplete = false := hconfig
  subst hr
  rw [update_of_some rfl, hconfig, Instance.update_of_ended hi]
  rfl

theorem Rests.act (h : r.Rests) (e : Errand H) (quiet : e.quiet = true) (realm : Realm H) :
    (e.act r realm).value.2.Rests := by
  obtain ⟨i, hr, hi⟩ := h.ended
  obtain ⟨dt, rfl⟩ | ⟨hrunning, hconfig, -⟩ :=
    act_cases e quiet (Option.isSome_iff_exists.mpr ⟨i, hr⟩) realm
  · rw [act_update, h.update_eq]
    exact h
  · exact ⟨hconfig ▸ h.once, i, hrunning.trans hr, hi⟩

theorem Rests.follow (es : List (Errand H)) (h : r.Rests) (quiet : ∀ e ∈ es, e.quiet = true)
    (realm : Realm H) : (follow es r realm).value.2.Rests := by
  induction es generalizing r realm with
  | nil => exact h
  | cons e es ih =>
    have hstep := h.act e (quiet e List.mem_cons_self) realm
    have hrest := ih hstep (fun e he => quiet e (List.mem_cons_of_mem _ he)) (e.act r realm).state
    simpa [Runner.follow] using hrest

theorem exists_of_update {dt : Float32} {result : Status}
    (answers : (r.update dt realm).value.1 = .ok (some result)) :
    ∃ i, r.running = some i ∧
      (i.update r.config.restartOnComplete dt realm).value.1 = .ok result := by
  cases hr : r.running with
  | none =>
    rw [update_of_none hr] at answers
    cases answers
  | some i =>
    refine ⟨i, rfl, ?_⟩
    rw [update_of_some hr] at answers
    generalize i.update r.config.restartOnComplete dt realm = o at answers ⊢
    obtain ⟨⟨answer, j⟩, realm, w⟩ := o
    cases answer with
    | error stop => cases answers
    | ok result' =>
      cases answers
      rfl

theorem rests_update {dt : Float32} {result : Status} (once : r.config.restartOnComplete = false)
    (answers : (r.update dt realm).value.1 = .ok (some result))
    (terminal : result.isTerminal = true) : (r.update dt realm).value.2.Rests := by
  obtain ⟨i, hr, hanswer⟩ := exists_of_update answers
  have hticks := i.tick_spec dt realm
  rw [once, Instance.update_once] at hanswer
  rw [update_of_some hr, once, Instance.update_once]
  generalize i.tick dt realm = o at hanswer hticks
  cases hticks with
  | ended hi => exact ⟨once, i, rfl, hi⟩
  | kept _ _ going =>
    rw [going _ hanswer] at terminal
    cases terminal
  | completed => exact ⟨once, _, rfl, rfl⟩

theorem update_none_iff (r : Runner H) (dt : Float32) (realm : Realm H) :
    (r.update dt realm).value.1 = .ok none ↔ r.isRunning = false := by
  cases hr : r.running with
  | none => simp [update_of_none hr, isRunning, hr]
  | some i =>
    rw [update_of_some hr]
    generalize i.update r.config.restartOnComplete dt realm = o
    obtain ⟨⟨answer, j⟩, realm, w⟩ := o
    cases answer with
    | error stop => simp [Except.map, isRunning, hr]
    | ok result => simp [Except.map, isRunning, hr]

/-- What the updates of a runner answer and do. -/
structure Updates (config : RunnerConfig) (r : Runner H) : Prop where
  /-- No result is what no tree answers. -/
  nothing : ∀ dt realm, (r.update dt realm).value.1 = .ok none ↔ r.isRunning = false
  /-- If trees are restarted, each result comes from a tick, and the tree goes on. -/
  again : config.restartOnComplete = true → ∀ dt realm result,
    (r.update dt realm).value.1 = .ok (some result) →
    ∃ i j, r.running = some i ∧ (r.update dt realm).value.2.running = some j ∧
      i.Ticked dt realm result j (r.update dt realm).trace
  /-- If not, updates of a tree that has ended fail and do nothing, until the next start or stop. -/
  once : config.restartOnComplete = false → ∀ dt realm result,
    (r.update dt realm).value.1 = .ok (some result) → result.isTerminal = true →
    ∀ more, (∀ e ∈ more, e.quiet = true) → ∀ realm' dt' realm'',
      let r' := (follow more (r.update dt realm).value.2 realm').value.2
      r'.update dt' realm'' = ⟨(.ok (some .failure), r'), realm'', []⟩

theorem updates_of_going (hconfig : r.config = config) (going : ∀ i ∈ r.running,
    i.Orderly ∧ (config.restartOnComplete = true → i.active = true)) : r.Updates config := by
  refine ⟨r.update_none_iff, fun hagain dt realm result answers => ?_,
    fun honce dt realm result answers terminal more quiet realm' dt' realm'' => ?_⟩
  · obtain ⟨i, hr, hanswer⟩ := exists_of_update answers
    obtain ⟨horderly, hactive⟩ := going i hr
    rw [hconfig, hagain] at hanswer
    rw [update_of_some hr, hconfig, hagain]
    exact ⟨i, _, hr, rfl, Instance.ticked_update horderly (hactive hagain) hanswer⟩
  · have hrests := rests_update (hconfig ▸ honce) answers terminal
    exact (hrests.follow more quiet realm').update_eq dt' realm''

end Runner
end TickTree
