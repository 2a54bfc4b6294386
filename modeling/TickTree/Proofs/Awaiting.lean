import TickTree.Proofs.Spells
/-! Waits and the clocks of their nodes. A wait and its node count the same time, up to a target that
is drawn where the activation starts and stays until it ends; the wait succeeds on the tick that gets
there. -/
namespace TickTree
variable {H : Host}

/-- What a wait of this duration and variance waits for if it starts with the random source as given;
nothing if there is no drawing from it. -/
def aim (duration variance : Float32) (r : Rng) : Option Float32 :=
  if 0 < variance then (r.uniform? variance).map (duration + ·.1) else some duration

theorem Wait.start_aim (w : Wait) (r : Rng) :
    (w.start r).2.1.elapsed = 0 ∧
      aim w.duration w.variance r = (w.start r).1.toOption.map fun _ => (w.start r).2.1.target := by
  unfold aim
  obtain ⟨helapsed, ⟨hpos, hstart, htarget⟩ | ⟨hpos, hr, hstart⟩ |
    ⟨x, r', hpos, hr, hstart, htarget⟩⟩ := w.start_cases r
  · simp [helapsed, hpos, hstart, htarget, Except.toOption]
  · simp [helapsed, hpos, hr, hstart, Except.toOption]
  · simp [helapsed, hpos, hr, hstart, htarget, Except.toOption]

/-- The answers of a wait over the laps of an activation: it goes on until the time gets to the
target, succeeds there, and has no lap after that. -/
def Awaits (target : Float32) (ls : List Lap) : Prop :=
  ∀ before l after, ls = before ++ l :: after →
    if target ≤ clock (before ++ [l]) then l.raw = .ok .success ∧ after = []
    else l.raw = .ok .running

section Awaits
variable {target : Float32} {ls : List Lap} {l : Lap}

theorem awaits_nil (target : Float32) : Awaits target [] := by simp [Awaits]

theorem Awaits.append (h : Awaits target ls) (going : ∀ l ∈ ls, l.raw = .ok .running)
    (hl : l.raw = .ok (if target ≤ clock (ls ++ [l]) then .success else .running)) :
    Awaits target (ls ++ [l]) := by
  intro before x after hsplit
  obtain ⟨rfl, rfl, rfl⟩ | ⟨rest, hrest, rfl⟩ := split_snoc hsplit
  · split
    · next hle => exact ⟨by rw [hl, if_pos hle], rfl⟩
    · next hle => rw [hl, if_neg hle]
  · have hx := h before x rest hrest
    split
    · next hle =>
      rw [if_pos hle, going x (by simp [hrest])] at hx
      cases hx.1
    · next hle => rwa [if_neg hle] at hx

theorem Awaits.not_le (h : Awaits target ls) (going : ∀ l ∈ ls, l.raw = .ok .running)
    (hls : ls ≠ []) : ¬ target ≤ clock ls := by
  obtain rfl | ⟨before, l, rfl⟩ := ls.eq_nil_or_concat
  · exact absurd rfl hls
  · rw [List.concat_eq_append] at h going ⊢
    intro hle
    have hlast := h before l [] rfl
    rw [if_pos hle, going l (by simp)] at hlast
    cases hlast.1

theorem Awaits.le (h : Awaits target ls) (hl : l ∈ ls) (succeeded : l.raw = .ok .success) :
    target ≤ clock ls := by
  obtain ⟨before, after, rfl⟩ := List.append_of_mem hl
  have hlap := h before l after rfl
  split at hlap
  · next hle =>
    obtain ⟨-, rfl⟩ := hlap
    exact hle
  · rw [succeeded] at hlap
    cases hlap

end Awaits

namespace Frame
variable {f g : Frame H} {n : Nat} {r : Rng} {d v : Float32}

theorem StartsAs.wait {started : Except Panic Unit} {b : Behavior H}
    (h : f.StartsAs n r started b) (made : f.behavior.make = .wait d v) :
    ∃ w, b = .wait w ∧ w.elapsed = 0 ∧ aim d v r = started.toOption.map fun _ => w.target := by
  obtain ⟨s, view, st, rfl, hstart⟩ := h
  cases hb : f.behavior with
  | wait w =>
    rw [hb] at made hstart
    cases made
    rw [Behavior.start_wait] at hstart
    cases hstart
    exact ⟨_, rfl, w.start_aim st.rng⟩
  | _ =>
    rw [hb] at made
    cases made

/-- A wait that goes on shows the time of its node, and all its laps have told it to go on. -/
structure Vigil (d v : Float32) (r : Rng) (ls : List Lap) (g : Frame H) (w : Wait) : Prop where
  behavior : g.behavior = .wait w
  elapsed : w.elapsed = g.time
  time : g.time = clock ls
  going : ∀ l ∈ ls, l.raw = .ok .running
  target : ∀ target, aim d v r = some target → w.target = target ∧ Awaits target ls

theorem vigil_begun {w : Wait} {started : Except Panic Unit} (hb : g.behavior = .wait w)
    (htime : g.time = 0) (hw : w.elapsed = 0)
    (haim : aim d v r = started.toOption.map fun _ => w.target) : g.Vigil d v r [] w where
  behavior := hb
  elapsed := hw.trans htime.symm
  time := htime
  going := by simp
  target target h := by
    rw [haim] at h
    obtain ⟨_, -, rfl⟩ := Option.map_eq_some_iff.mp h
    exact ⟨rfl, awaits_nil _⟩

variable {ls : List Lap} {w : Wait} {dt : Float32} {log : Log} {raw : Answer} {b : Behavior H}

theorem Vigil.answers (h : g.Vigil d v r ls w) (answers : g.behavior.Answers dt n log raw b) :
    raw = .ok (w.tick dt).1 ∧ b = .wait (w.tick dt).2 ∧
      (g.lapped dt raw b).time = clock (ls ++ [g.lap dt raw]) ∧
      ∀ target, aim d v r = some target → Awaits target (ls ++ [g.lap dt raw]) := by
  rw [h.behavior] at answers
  cases answers with
  | wait =>
    have htime := time_lapped h.time dt (.ok (w.tick dt).1) (.wait (w.tick dt).2)
    refine ⟨rfl, rfl, htime, fun target haim => ?_⟩
    obtain ⟨rfl, hawaits⟩ := h.target target haim
    refine hawaits.append h.going ?_
    have hsum : w.elapsed + dt = clock (ls ++ [g.lap dt (.ok (w.tick dt).1)]) := by
      rw [h.elapsed]
      exact htime
    rw [← hsum]
    rfl

theorem Vigil.lap (h : g.Vigil d v r ls w) (answers : g.behavior.Answers dt n log raw b)
    (hraw : Going raw) : (g.lapped dt raw b).Vigil d v r (ls ++ [g.lap dt raw]) (w.tick dt).2 := by
  obtain ⟨rfl, rfl, htime, hawaits⟩ := h.answers answers
  have hrunning : (w.tick dt).1 = .running := by
    rw [going_ok] at hraw
    simpa using hraw
  refine ⟨rfl, ?_, htime, ?_, fun target haim => ⟨(h.target target haim).1, hawaits target haim⟩⟩
  · exact congrArg (· + dt) h.elapsed
  · exact List.forall_mem_append.mpr ⟨h.going, List.forall_mem_singleton.mpr (by
      rw [← hrunning]
      rfl)⟩

def vigil (d v : Float32) : Regime H where
  rest _ := True
  now r ls g := ∃ w, g.Vigil d v r ls w
  whole r s := s.duration = clock s.laps ∧
    ∀ target, aim d v r = some target → Awaits target s.laps

theorem vigil_governs (n : Nat) (plain : f.Plain) (made : f.behavior.make = .wait d v) :
    (vigil d v).Governs n f where
  panics hplan _ starts := by
    obtain ⟨w, rfl, hw, haim⟩ := starts.wait ((plan_eq_iff.mp hplan).2.trans made)
    exact ⟨w, vigil_begun rfl rfl hw haim⟩
  starts hplan starts := by
    obtain ⟨w, rfl, hw, haim⟩ := starts.wait ((plan_eq_iff.mp hplan).2.trans made)
    exact ⟨w, vigil_begun rfl rfl hw haim⟩
  lap _ now answers going := by
    obtain ⟨w, h⟩ := now
    exact ⟨_, h.lap answers (going plain)⟩
  ends _ _ now answers := by
    obtain ⟨w, h⟩ := now
    obtain ⟨-, -, htime, hawaits⟩ := h.answers answers
    exact ⟨htime, hawaits⟩
  cut _ now := by
    obtain ⟨w, h⟩ := now
    exact ⟨h.time, fun target haim => (h.target target haim).2⟩
  rests _ _ := trivial

end Frame

/-- How a wait of this duration and variance goes through these calls. What it waits for comes from
the source that the call has found which starts the activation. -/
def Node.Bides (d v : Float32) (n : Node H) (hs : List (Handling H)) : Prop :=
  let m := (n.handle hs).1
  ∃ (past : List (Rng × Spell)) (r : Rng) (ls : List Lap),
    paces n.id (n.handle hs).2 = history past ++ (if m.isActive then running ls else []) ∧
    n.sources hs = past.map Prod.fst ++ (if m.isActive then [r] else []) ∧
    (∀ x ∈ past, ∀ target, aim d v x.1 = some target → Awaits target x.2.laps ∧
      (.ok .success ∈ x.2.laps.map (·.raw) → target ≤ x.2.duration)) ∧
    (m.isActive = true → ∃ w, m.frame.behavior = .wait w ∧ w.elapsed = m.view.time ∧
      ∀ target, aim d v r = some target →
        w.target = target ∧ Awaits target ls ∧ ¬ target ≤ w.elapsed)

theorem Node.bides {n : Node H} (idle : n.Idle) (distinct : n.ids.Nodup) {d v : Float32}
    (made : n.frame.behavior.make = .wait d v) (plain : n.frame.Plain) (hs : List (Handling H)) :
    n.Bides d v hs := by
  have remains := Remains.of_idle idle hs
  obtain ⟨past, r, ls, h⟩ :=
    paced_calls idle distinct (Frame.vigil_governs _ plain made) trivial hs
  refine ⟨past, r, ls, h.shown, h.sources, fun x hx target haim => ?_, fun hactive => ?_⟩
  · obtain ⟨hduration, hawaits⟩ := h.past x hx
    refine ⟨hawaits target haim, fun hsuccess => ?_⟩
    obtain ⟨l, hl, hraw⟩ := List.mem_map.mp hsuccess
    rw [hduration]
    exact (hawaits target haim).le hl hraw
  · obtain ⟨w, hw⟩ := h.now hactive
    refine ⟨w, hw.behavior, hw.elapsed, fun target haim => ?_⟩
    obtain ⟨htarget, hawaits⟩ := hw.target target haim
    refine ⟨htarget, hawaits, ?_⟩
    rw [hw.elapsed, hw.time]
    refine hawaits.not_le hw.going fun hls => ?_
    -- without a lap the start has panicked, and there was no target
    obtain ⟨g, p, b, hplan, hstarts⟩ := h.stalled hactive hls
    have hmade : Frame.plan g = n.frame.plan := hplan.trans (plan_eq_of_plans remains.plans)
    obtain ⟨_, -, -, hnone⟩ := hstarts.wait ((Frame.plan_eq_iff.mp hmade).2.trans made)
    rw [haim] at hnone
    cases hnone

/-- Whatever calls it gets, and with whatever random numbers, a wait keeps the time of its node. Each
of its activations waits for what its source gave where it started; it succeeds on the tick that gets
there and goes on before. In a run of a whole tree nothing else happens to it. -/
theorem awaits_of_play (ms : List (Move H)) {t : Rooted H} (idle : t.root.Idle)
    (distinct : t.root.ids.Nodup) (st : Stage H) {path : List Nat} {n : Node H}
    (hn : t.root.at? path = some n) {d v : Float32} (made : n.frame.behavior.make = .wait d v)
    (plain : n.frame.Plain) :
    (∀ hs, n.Bides d v hs) ∧ ∃ hs,
      (play ms t st).value.2.root.at? path = some (n.handle hs).1 ∧
      (∀ p, Only n.ids p → (play ms t st).trace.filter p = (n.handle hs).2.filter p) ∧
      paces n.id (play ms t st).trace = paces n.id (n.handle hs).2 := by
  have hdistinct : n.ids.Nodup := distinct.sublist (Node.sublist_at? hn)
  refine ⟨Node.bides (Node.idle_at? idle hn) hdistinct made plain, ?_⟩
  obtain ⟨m, hm, hunder⟩ := undergoes_play ms ⟨Node.sound_of_idle idle, distinct⟩ st hn
  obtain ⟨⟨hs, rfl, hsame⟩, -⟩ := hunder
  exact ⟨hs, hm, hsame, paces_eq_of_same hsame⟩

theorem span_drowsy : Span 2 ∧ Span 1 := by decide +kernel

def Rooted.drowsy : Rooted Host.echo :=
  { echo with root := .mk (.idle 3 "" (.wait ⟨2, 1, 2, 0, span_drowsy⟩)) [] }

/-- The first activation is cut short, and the second takes its own time. -/
theorem awaits_of_play_drowsy :
    let ms : List (Move Host.echo) := [.execute 1, .abort, .execute 1, .execute 1, .execute 1]
    let o := play ms Rooted.drowsy Rooted.still
    let n := Rooted.drowsy.root
    let lap (time : Float32) (raw : Status) : Lap := ⟨time, 1, [], .ok raw⟩
    (n.Idle ∧ n.ids.Nodup ∧ n.at? [] = some n ∧ n.frame.behavior.make = .wait 2 1 ∧
      n.frame.Plain) ∧
      paces 3 o.trace = running [lap 0 .running] ++ (.exited .failure 1 ::
        (running [lap 0 .running, lap 1 .running, lap 2 .success] ++ [.exited .success 3])) ∧
      ∃ (hs : List (Handling Host.echo)) (past : List (Rng × Spell)),
        o.value.2.root = (n.handle hs).1 ∧ paces 3 o.trace = history past ∧
        n.sources hs = past.map Prod.fst ∧ ∀ x ∈ past, ∀ target, aim 2 1 x.1 = some target →
          Awaits target x.2.laps ∧
            (.ok .success ∈ x.2.laps.map (·.raw) → target ≤ x.2.duration) := by
  intro ms o n lap
  have hidle : n.Idle := by decide
  have hdistinct : n.ids.Nodup := by decide
  have hroot : n.at? [] = some n := rfl
  have hplain : n.frame.Plain := by simp [n, Frame.Plain, Rooted.drowsy, Frame.idle]
  have hpaces : paces 3 o.trace = running [lap 0 .running] ++ (.exited .failure 1 ::
      (running [lap 0 .running, lap 1 .running, lap 2 .success] ++ [.exited .success 3])) := by
    decide +kernel
  have hidle' : o.value.2.root.isActive = false := by decide +kernel
  have h := awaits_of_play ms hidle hdistinct Rooted.still hroot rfl hplain
  rw [show play ms Rooted.drowsy Rooted.still = o from rfl] at h
  clear_value o
  obtain ⟨hbides, hs, hm, -, hshown⟩ := h
  have hm : o.value.2.root = (n.handle hs).1 := Option.some.inj hm
  obtain ⟨past, r, ls, hpast, hsources, hover, -⟩ := hbides hs
  rw [← hm, if_neg (by simp [hidle']), List.append_nil] at hpast hsources
  exact ⟨⟨hidle, hdistinct, hroot, rfl, hplain⟩, hpaces, hs, past, hm, hshown.trans hpast, hsources,
    hover⟩

end TickTree
