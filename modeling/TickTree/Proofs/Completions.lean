import TickTree.Proofs.Updates
import TickTree.Proofs.Wellbeing
/-! What the log of the sample program says of trees that complete. The program goes by the answers
of updates, and a tree that has ended answers like one that fails: without restarts it is reported
anew in every turn that follows its end. -/
namespace TickTree

section Notes
variable {H : Host} {N : H.Note → Prop}

def Habit.noting (N : H.Note → Prop) : Habit H where
  holds x := ∀ st, ∀ n ∈ notes (x st).trace, N n
  quiet h st n hn := by
    rw [(h st).2] at hn
    cases hn
  bind hx hf st n hn := by
    rw [Traced.bind_apply, notes_append] at hn
    exact (List.mem_append.mp hn).elim (hx st n) (hf _ _ n)

namespace Instance
variable (hN : (Habit.noting N).Suits (fun _ => True) (fun _ => True))
include hN

theorem noting_abortRoot (i : Instance H) (r : Realm H) :
    ∀ n ∈ notes (i.abortRoot r).trace, N n := by
  rw [abortRoot_apply]
  exact Node.habit_abort hN.toSpares trivial i.root _

theorem noting_tick (i : Instance H) (dt : Float32) (r : Realm H) :
    ∀ n ∈ notes (i.tick dt r).trace, N n := by
  let s : Setting := (i.context.beginTick dt).toSetting
  have hexecuted : ∀ n ∈ notes (i.root.execute s dt ⟨r, i.context.rng⟩).trace, N n :=
    Node.habit_execute hN trivial trivial i.root _
  have hticks := i.tick_spec dt r
  generalize i.tick dt r = o at hticks
  cases hticks with
  | ended => nofun
  | kept _ executed =>
    rw [executed] at hexecuted
    exact hexecuted
  | completed _ executed =>
    rw [executed] at hexecuted
    simpa [notes, Entry.note?] using hexecuted

theorem noting_update (i : Instance H) (again : Bool) (dt : Float32) (r : Realm H) :
    ∀ n ∈ notes (i.update again dt r).trace, N n := by
  refine update_rule (P := fun _ w => ∀ n ∈ notes w, N n) (noting_tick hN i dt r)
    (fun j w r hw n hn => ?_) again
  rw [notes_append] at hn
  refine (List.mem_append.mp hn).elim (hw n) fun hn => noting_abortRoot hN j r n ?_
  simpa [restart, notes, Turn.report, Turn.notify, Entry.note?] using hn

theorem noting_abort (i : Instance H) (r : Realm H) : ∀ n ∈ notes (i.abort r).trace, N n := by
  rw [abort]
  split
  · intro n hn
    refine noting_abortRoot hN i r n ?_
    simpa [notes, Turn.report, Turn.notify, Entry.note?] using hn
  · simp [notes]

end Instance

theorem Runner.noting_stop (hN : (Habit.noting N).Suits (fun _ => True) (fun _ => True))
    (r : Runner H) (realm : Realm H) : ∀ n ∈ notes (r.stop realm).trace, N n := by
  intro n hn
  cases hr : r.running with
  | none =>
    simp [stop, isRunning, hr, notes] at hn
  | some i =>
    refine Instance.noting_abort hN i realm n ?_
    cases hroot : r.root <;>
      simpa [stop, isRunning, hr, reclaim, hroot, Instance.intoParts, notes, Turn.report,
        Entry.note?] using hn

end Notes

namespace Npc

def Note.completion? : Note → Option LogLine
  | .completed result tick => some (completed result tick).line
  | _ => none

theorem noting_host : (Habit.noting fun n : host.Note => Note.completion? n = none).Suits
    (fun _ => True) (fun _ => True) where
  finish _ _ _ _ _ := nofun
  finished _ _ _ _ _ _ := nofun
  aborted _ _ _ _ _ := nofun
  detached _ _ _ _ _ := nofun
  start _ _ _ _ := nofun
  tick _ _ _ _ _ _ := nofun
  check _ _ _ _ := nofun
  allows _ _ _ _ _ := nofun
  modifier _ _ h := nomatch h
  attached _ _ _ _ _ := nofun
  serve l s v dt _ _ st n hn := by
    rw [Exec.reach_apply, notes_map_note] at hn
    obtain ⟨aggro, -, rfl⟩ := List.mem_map.mp hn
    rfl

namespace Demo

/-- Lines at level info by which the log says that a tree has completed. -/
def isTold (l : LogLine) : Bool := l.level = .info && l.message = "tree completed"

def told (trace : List (Entry Note)) : List LogLine :=
  (trace.filterMap (LogLine.ofEntry? fun n => some n.line)).filter isTold

theorem filter_plain {s rest : String} {c : Char} {fields : List (String × LogValue)}
    (h : s.toList.head? = some c) (hc : c ≠ 't') :
    (some (Note.plain (s ++ rest) fields)).filter isTold = none := by
  have hne : s ++ rest ≠ "tree completed" := fun heq => by
    have hhead := congrArg (fun t : String => t.toList.head?) heq
    simp only [String.toList_append, List.head?_append, h, Option.some_or] at hhead
    exact hc (Option.some.inj hhead)
  simp [isTold, Note.plain, hne]

theorem told_entry (e : Entry Note) :
    (LogLine.ofEntry? (fun n : Note => some n.line) e).filter isTold =
      e.note?.bind Note.completion? := by
  cases e with
  | hook v h => rfl
  | notice l n =>
    match l with
    | none | some .silent | some .recording => rfl
    | some .logging => cases n <;> rfl
  | report r => cases r <;> rfl
  | note n =>
    cases n with
    | ticking interval => exact filter_plain (c := 'T') rfl (by decide)
    | seeded seed =>
      cases seed with
      | none => rfl
      | some seed =>
        rw [LogLine.ofEntry?, Note.line, String.append_assoc]
        exact filter_plain (c := 'S') rfl (by decide)
    | reached n =>
      rw [LogLine.ofEntry?, Note.line, String.append_assoc]
      exact filter_plain (c := 'R') rfl (by decide)
    | _ => rfl

theorem told_eq (w : List (Entry Note)) : told w = (notes w).filterMap Note.completion? := by
  rw [told, notes, List.filter_filterMap, List.filterMap_filterMap]
  exact List.filterMap_congr fun e _ => told_entry e

theorem told_append (w w' : List (Entry Note)) : told (w ++ w') = told w ++ told w' := by
  simp only [told_eq, notes_append, List.filterMap_append]

theorem told_of_notes {w : List (Entry Note)} (h : ∀ n ∈ notes w, n.completion? = none) :
    told w = [] := by
  rw [told_eq]
  exact List.filterMap_eq_nil_iff.mpr h

theorem silent_moveWorld (dt : Float32) (d : Demo) :
    told (moveWorld dt d).trace = [] ∧ completions (moveWorld dt d).trace = [] := by
  rw [moveWorld]
  dsimp only
  cases (stepWorld dt d.world d.rng).sighted <;> exact ⟨rfl, rfl⟩

/-- What a turn does to the tree `i` that runs, and what listeners and readers of the log hear of
it. -/
inductive Turned (again : Bool) (tick : Nat) (i : Instance host) (dt : Float32) (r : Realm host)
    (w : List (Entry Note)) : Prop
  /-- The tree completes in this tick. -/
  | completed {result : Status} (before : i.active = true)
    (answers : (i.tick dt r).value.1 = .ok result)
    (after : (i.tick dt r).value.2.active = false) (heard : completions w = [result])
    (logged : told w = [(Note.completed result tick).line])
  | going (before : i.active = true) (after : (i.tick dt r).value.2.active = true)
    (heard : completions w = []) (logged : told w = [])
  /-- The tree has ended in an earlier tick. It is not touched, and reported all the same. -/
  | ended (once : again = false) (before : i.active = false) (after : i.tick dt r =
    ⟨(.ok .failure, i), r, []⟩) (heard : completions w = [])
    (logged : told w = [(Note.completed .failure tick).line])

/-- The program in its loop, over a tree that is going if trees are restarted. -/
structure Kept (again : Bool) (d : Demo) (i : Instance host) : Prop extends Going d where
  running : d.runner.running = some i
  orderly : i.Orderly
  config : d.runner.config.restartOnComplete = again
  alive : again = true → i.active = true

section Turn
variable {again : Bool} {d : Demo} {i : Instance host}

theorem completions_update (h : i.Orderly) (again : Bool) (dt : Float32) (r : Realm host) :
    completions (i.update again dt r).trace = completions (i.tick dt r).trace := by
  obtain ⟨-, -, hupdate⟩ | ⟨-, hupdate⟩ := i.update_cases again dt r
  · rw [hupdate, completions_append,
      Instance.completions_restart (Instance.passes_tick h dt r).orderly, List.append_nil]
  · rw [hupdate]

theorem answer_update (i : Instance host) (again : Bool) (dt : Float32) (r : Realm host) :
    (i.update again dt r).value.1 = (i.tick dt r).value.1 := by
  obtain ⟨-, -, hupdate⟩ | ⟨-, hupdate⟩ := i.update_cases again dt r <;> rw [hupdate]

theorem trace_turn (h : Kept again d i) (tick : Nat) {result : Status} :
    let dt := d.config.delta
    let r := (moveWorld dt d).state.realm
    (i.tick dt r).value.1 = .ok result →
    ∃ w : List (Entry Note), w = (i.update again dt r).trace ∧
      (turn tick d).trace = (moveWorld dt d).trace ++
        (w ++ if result.isTerminal then [.note (.completed result tick)] else []) ∧
      (turn tick d).state.runner =
        { d.runner with running := some (i.update again dt r).value.2 } := by
  intro dt r answers
  have hmoved : (moveWorld dt d).value = .ok () :=
    (going_moveWorld h.toGoing (delta_nonneg d.config)).1
  have hrunning : (moveWorld dt d).state.runner.running = some i := h.running
  have hconfig : (moveWorld dt d).state.runner.config.restartOnComplete = again := h.config
  rw [← answer_update i again] at answers
  simp only [turn, Traced.bind_apply, Traced.get_apply, hmoved, update, onRunner,
    Runner.update_of_some hrunning, hconfig, dt, r, answers, Except.map]
  refine ⟨_, rfl, ?_⟩
  split <;> exact ⟨rfl, rfl⟩

theorem turned_of_kept (h : Kept again d i) (tick : Nat) :
    let dt := d.config.delta
    let r := (moveWorld dt d).state.realm
    Turned again tick i dt r (turn tick d).trace ∧
      Kept again (turn tick d).state (i.update again dt r).value.2 := by
  intro dt r
  obtain ⟨-, -, hgoing⟩ := cycle_of_going h.toGoing tick
  obtain ⟨hmoved, hgoing'⟩ := going_moveWorld h.toGoing (delta_nonneg d.config)
  have hlives : Lives i := by
    obtain ⟨j, hj, hlives⟩ := h.lives
    rw [h.running] at hj
    cases hj
    exact hlives
  obtain ⟨⟨result, hresult⟩, -⟩ := lives_tick hlives hgoing'.sane (delta_nonneg d.config)
  obtain ⟨w, hw, htrace, hrunner⟩ := trace_turn h tick hresult
  obtain ⟨hsilent, hunheard⟩ := silent_moveWorld dt d
  have hlogged : told (turn tick d).trace =
      if result.isTerminal then [(Note.completed result tick).line] else [] := by
    rw [htrace, told_append, told_append, hsilent,
      told_of_notes (hw ▸ Instance.noting_update noting_host i again dt r)]
    split <;> rfl
  have hheard : completions (turn tick d).trace = completions (i.tick dt r).trace := by
    rw [htrace, completions_append, completions_append, hunheard, hw,
      ← completions_update h.orderly again dt r]
    split <;> exact List.append_nil _
  constructor
  · have hticks := i.tick_spec dt r
    generalize ho : i.tick dt r = o at hticks hresult hheard
    cases hticks with
    | ended hi =>
      cases hresult
      exact .ended (by simpa [hi] using h.alive) hi ho hheard hlogged
    | kept hi executed going =>
      cases hresult
      obtain ⟨-, -, -, hnodal, -⟩ := Instance.executed h.orderly.sound h.orderly.closed executed
      rw [going _ rfl] at hlogged
      exact .going hi (by rw [ho]; exact hi) (hheard.trans hnodal.completions_eq) hlogged
    | completed hi executed terminal =>
      cases hresult
      obtain ⟨-, -, -, hnodal, -⟩ := Instance.executed h.orderly.sound h.orderly.closed executed
      rw [terminal] at hlogged
      refine .completed hi (by rw [ho]) (by rw [ho]) ?_ hlogged
      rw [hheard, completions_append, hnodal.completions_eq]
      rfl
  · refine ⟨hgoing, by rw [hrunner], (Instance.passes_update h.orderly again dt r).orderly, ?_,
      fun hagain => ?_⟩
    · rw [hrunner]
      exact h.config
    · subst hagain
      exact Instance.active_update (h.alive rfl) dt r

end Turn

/-! ### The loop -/

section Turns
variable {d : Demo} {i : Instance host}

theorem turns_of_kept {again : Bool} (h : Kept again d i) (tick n : Nat) :
    (turns (n + 1) tick d).state = (turns n (tick + 1) (turn tick d).state).state ∧
      (turns (n + 1) tick d).trace =
        (turn tick d).trace ++ (turns n (tick + 1) (turn tick d).state).trace := by
  rw [turns_succ (cycle_of_going h.toGoing tick).1]
  exact ⟨rfl, rfl⟩

theorem kept_turns {again : Bool} (h : Kept again d i) (tick n : Nat) :
    (turns n tick d).state.config = d.config ∧ ∃ j, Kept again (turns n tick d).state j := by
  induction n generalizing d i tick with
  | zero => exact ⟨rfl, i, h⟩
  | succ n ih =>
    obtain ⟨-, hcycle, -⟩ := cycle_of_going h.toGoing tick
    obtain ⟨-, hkept⟩ := turned_of_kept h tick
    rw [(turns_of_kept h tick n).1, ← hcycle.config]
    exact ih hkept (tick + 1)

theorem told_of_again (h : Kept true d i) (tick n : Nat) :
    (told (turns n tick d).trace).length = (completions (turns n tick d).trace).length := by
  induction n generalizing d i tick with
  | zero => rfl
  | succ n ih =>
    obtain ⟨hturned, hkept⟩ := turned_of_kept h tick
    have hhere : (told (turn tick d).trace).length = (completions (turn tick d).trace).length := by
      cases hturned with
      | completed _ _ _ heard logged | going _ _ heard logged => rw [heard, logged]; rfl
      | ended once => cases once
    rw [(turns_of_kept h tick n).2, told_append, completions_append, List.length_append,
      List.length_append, hhere, ih hkept]

def failures (tick n : Nat) : List LogLine :=
  (List.range' tick n).map fun k => (Note.completed .failure k).line

theorem told_of_ended (h : Kept false d i) (hi : i.active = false) (tick n : Nat) :
    completions (turns n tick d).trace = [] ∧
      told (turns n tick d).trace = failures tick n := by
  induction n generalizing d i tick with
  | zero => exact ⟨rfl, rfl⟩
  | succ n ih =>
    obtain ⟨hturned, hkept⟩ := turned_of_kept h tick
    rw [Instance.update_once] at hkept
    cases hturned with
    | completed before | going before => simp [hi] at before
    | ended _ _ after heard logged =>
      rw [after] at hkept
      obtain ⟨hcompletions, htold⟩ := ih hkept hi (tick + 1)
      rw [(turns_of_kept h tick n).2, told_append, completions_append, heard, logged, hcompletions,
        htold]
      exact ⟨rfl, rfl⟩

/-- A tree that is not restarted completes at most once. From that turn on each is reported. -/
theorem told_of_once (h : Kept false d i) (hi : i.active = true) (tick n : Nat) :
    (completions (turns n tick d).trace = [] ∧ told (turns n tick d).trace = []) ∨
      ∃ k result, k < n ∧ completions (turns n tick d).trace = [result] ∧
        told (turns n tick d).trace =
          (Note.completed result (tick + k)).line :: failures (tick + k + 1) (n - (k + 1)) := by
  induction n generalizing d i tick with
  | zero => exact .inl ⟨rfl, rfl⟩
  | succ n ih =>
    obtain ⟨hturned, hkept⟩ := turned_of_kept h tick
    rw [Instance.update_once] at hkept
    rw [(turns_of_kept h tick n).2, told_append, completions_append]
    cases hturned with
    | ended _ before => simp [hi] at before
    | @completed result _ _ after heard logged =>
      obtain ⟨hcompletions, htold⟩ := told_of_ended hkept after (tick + 1) n
      refine .inr ⟨0, result, Nat.succ_pos n, ?_, ?_⟩
      · rw [heard, hcompletions, List.append_nil]
      · rw [logged, htold]
        rfl
    | going _ after heard logged =>
      rw [heard, logged, List.nil_append, List.nil_append]
      obtain hnone | ⟨k, result, hk, hcompletions, htold⟩ := ih hkept after (tick + 1)
      · exact .inl hnone
      · refine .inr ⟨k + 1, result, Nat.succ_lt_succ hk, hcompletions, ?_⟩
        rw [htold, Nat.add_right_comm tick 1 k, Nat.add_assoc tick k 1, Nat.succ_sub_succ]

end Turns

theorem kept_start (c : Config) (seed : UInt64) :
    ∃ begun i, start c seed (some .logging) freshBoard = .ok begun ∧ begun.state.config = c ∧
      Kept c.restartOnComplete begun.state i ∧ i.active = true ∧ told begun.trace = [] := by
  obtain ⟨begun, hstart, hconfig, hgoing⟩ := going_start c seed
  cases hstart
  exact ⟨_, _, rfl, rfl, ⟨hgoing, rfl, Instance.orderly_of_idle _ (idle_character ⟨1, 0⟩), rfl,
    fun _ => rfl⟩, rfl, rfl⟩

theorem told_depart (n : Nat) (d : Demo) : told (depart n d).trace = [] := by
  obtain ⟨w, x, hw, htrace⟩ : ∃ (w : List (Entry Note)) (x : Float32),
      w = (d.runner.stop d.realm).trace ∧
        (depart n d).trace = [.note (.reached n)] ++ (w ++ [.note (.closed x)]) :=
    ⟨_, _, rfl, by simp [depart, note, stop, onRunner]; rfl⟩
  have hstop : told w = [] := told_of_notes (hw ▸ d.runner.noting_stop noting_host d.realm)
  have hreached : told [.note (.reached n)] = [] :=
    told_of_notes (by simp [notes, Entry.note?, Note.completion?])
  rw [htrace, told_append, told_append, hstop, hreached]
  rfl

/-- With these settings and from any seed, the log says that a tree has completed in the turns in
which one does, and in those that find a tree that has ended. If trees are restarted there are no
such turns, and as many lines as completions. If not, the one completion that there can be is
followed by a line of failure in each later turn. Nowhere else does the log of the program say so. -/
theorem told_of_env (env : Variable → Option ByteArray) (seed : UInt64) :
    let c := Config.ofEnv env
    ∃ begun, start c seed (some .logging) freshBoard = .ok begun ∧
      (∀ k, let d := (turns k 0 begun.state).state
        ∃ i, d.runner.running = some i ∧ Turned c.restartOnComplete k i c.delta
          (moveWorld c.delta d).state.realm (turn k d).trace) ∧
      (∀ n, let w := (turns n 0 begun.state).trace
        (c.restartOnComplete = true → (told w).length = (completions w).length) ∧
        (c.restartOnComplete = false → (completions w = [] ∧ told w = []) ∨
          ∃ k result, k < n ∧ completions w = [result] ∧
            told w = (Note.completed result k).line :: failures (k + 1) (n - (k + 1)))) ∧
      (c.maxTicks ≠ 0 →
        told (run c seed).2 = told (turns c.maxTicks.toNat 0 begun.state).trace) := by
  intro c
  obtain ⟨begun, i, hstart, hconfig, hkept, halive, hbegun⟩ := kept_start c seed
  refine ⟨begun, hstart, fun k => ?_, fun n => ⟨fun hagain => ?_, fun honce => ?_⟩, fun _ => ?_⟩
  · obtain ⟨hc, j, hj⟩ := kept_turns hkept 0 k
    have hturned := (turned_of_kept hj k).1
    rw [hc, hconfig] at hturned
    exact ⟨j, hj.running, hturned⟩
  · exact told_of_again (hagain ▸ hkept) 0 n
  · simpa using told_of_once (honce ▸ hkept) halive 0 n
  · have hvalue := (cycles_of_going hkept.toGoing c.maxTicks.toNat 0).1
    have hopening : told (opening c) = [] :=
      told_of_notes fun x hx => by
        obtain rfl | rfl | rfl : x = .opened ∨ x = .ticking c.interval ∨ x = .seeded c.seed := by
          simpa [opening, notes, Entry.note?] using hx
        all_goals rfl
    rw [run_of_turns hstart hconfig hvalue]
    simp only [told_append, hopening, hbegun, told_depart, List.nil_append, List.append_nil]

/-- Two ticks without restarts. The tree may complete once, and the log of the program has the lines
of its turns. -/
theorem told_of_env_two :
    let env : Variable → Option ByteArray := fun
      | .tickMillis => some "1".toUTF8
      | .maxTicks => some "2".toUTF8
      | .seed => some "9".toUTF8
      | .restart => some "off".toUTF8
    let c := Config.ofEnv env
    c.restartOnComplete = false ∧ c.maxTicks ≠ 0 ∧
      ∃ begun, start c 9 (some .logging) freshBoard = .ok begun ∧
        (completions (turns 2 0 begun.state).trace).length ≤ 1 ∧
        told (run c 9).2 = told (turns c.maxTicks.toNat 0 begun.state).trace := by
  intro env c
  obtain ⟨begun, hstart, -, hturns, hrun⟩ := told_of_env env 9
  have honce : c.restartOnComplete = false := by decide +kernel
  have hticks : c.maxTicks ≠ 0 := by decide +kernel
  refine ⟨honce, hticks, begun, hstart, ?_, hrun hticks⟩
  obtain ⟨hnone, -⟩ | ⟨k, result, -, hone, -⟩ := (hturns 2).2 honce
  · rw [hnone]
    exact Nat.zero_le 1
  · rw [hone]
    exact Nat.le_refl 1

/-- In such a run the tree completes in the first turn. In the second nothing completes, and the log
says once more that the tree has. -/
theorem failure_told_of_ended : ∃ begun,
    start ⟨1, 2, some 9, false⟩ 9 (some .logging) freshBoard = .ok begun ∧
      let first := turn 0 begun.state
      let second := turn 1 first.state
      completions first.trace = [.success] ∧
        told first.trace = [(Note.completed .success 0).line] ∧
        (first.state.runner.running.map (·.active)) = some false ∧
        completions second.trace = [] ∧
        told second.trace = [(Note.completed .failure 1).line] := by
  refine ⟨_, rfl, ?_⟩
  decide +kernel

end Demo
end Npc
end TickTree
