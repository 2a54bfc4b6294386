import TickTree.Proofs.Climbing
import TickTree.Proofs.Freshness
import TickTree.Proofs.Once
import TickTree.Proofs.Spells
/-! The cadence of services. Each service of a node fires as a timer of its own says, which starts at
zero with every activation and sees nothing but the lengths of the ticks. -/
namespace TickTree
variable {H : Host}

/-- On which of these ticks a timer fires that shows `t` before them. It adds up their lengths; where
the sum gets to `least` it fires and goes back to zero, whatever the sum is in excess. -/
def fires (least : Float32) : Float32 → List Float32 → List Bool
  | _, [] => []
  | t, dt :: dts =>
    if least ≤ t + dt then true :: fires least 0 dts else false :: fires least (t + dt) dts

/-- What such a timer shows after these ticks. -/
def shows (least : Float32) : Float32 → List Float32 → Float32
  | t, [] => t
  | t, dt :: dts => if least ≤ t + dt then shows least 0 dts else shows least (t + dt) dts

section Timers
variable {least t dt : Float32} {dts dts' : List Float32}

theorem fires_append : fires least t (dts ++ dts') =
    fires least t dts ++ fires least (shows least t dts) dts' := by
  induction dts generalizing t with
  | nil => rfl
  | cons dt dts ih =>
    rw [List.cons_append, fires, fires, shows]
    split <;> simp [ih]

theorem shows_append : shows least t (dts ++ dts') = shows least (shows least t dts) dts' := by
  induction dts generalizing t with
  | nil => rfl
  | cons dt dts ih =>
    rw [List.cons_append, shows, shows]
    split <;> exact ih

theorem not_le_shows (hzero : ¬ least ≤ 0) (ht : ¬ least ≤ t) : ¬ least ≤ shows least t dts := by
  induction dts generalizing t with
  | nil => exact ht
  | cons dt dts ih =>
    rw [shows]
    split
    · exact ih hzero
    · next hsum => exact ih hsum

end Timers

/-- The threshold is the larger of the interval and the least gap, which stands in for NaN. -/
theorem Service.threshold_spec (v : Service H) :
    (v.threshold = v.interval ∨ v.threshold = epsilon) ∧ epsilon ≤ v.threshold ∧
      (v.interval.isNaN = false → v.interval ≤ v.threshold) := by
  refine ⟨(atLeast_eq_or epsilon v.interval).symm, ?_⟩
  unfold threshold atLeast
  by_cases hlt : epsilon < v.interval
  · rw [if_pos hlt]
    exact ⟨Seconds.le_of_lt hlt, Seconds.le_self⟩
  · rw [if_neg hlt]
    exact ⟨by decide +kernel, fun hnumber => Seconds.le_of_not_lt hnumber (by decide +kernel) hlt⟩

theorem Service.not_threshold_le (v : Service H) : ¬ v.threshold ≤ 0 := by
  intro hle
  have hzero : (0 : Float32) < epsilon := by decide +kernel
  have hlt := Seconds.lt_of_lt_of_le (Seconds.lt_of_lt_of_le hzero v.threshold_spec.2.1) hle
  exact irrefl_of (· < ·) (0 : Float32) hlt

namespace Attachment
variable {a : Attachment H} {as : List (Attachment H)} {dt : Float32}

theorem fires_advance : fires a.service.threshold a.timer [dt] = [(a.advance dt).1] := by
  unfold fires advance
  dsimp only
  split <;> rfl

theorem timer_advance : (a.advance dt).2.timer = shows a.service.threshold a.timer [dt] := by
  unfold shows advance
  dsimp only
  split <;> rfl

theorem mem_due {slot i : Nat} :
    slot + i ∈ due dt slot as ↔ ∃ a, as[i]? = some a ∧ (a.advance dt).1 = true := by
  induction as generalizing slot i with
  | nil => simp [due]
  | cons a as ih =>
    have hlater : slot ∉ due dt (slot + 1) as := fun h => by
      have hrange := (due_sublist dt (slot + 1) as).mem h
      simp at hrange
    cases i with
    | zero =>
      rw [due]
      split <;> simp_all
    | succ i =>
      have hne : slot + (i + 1) ≠ slot := by omega
      have hnext : slot + (i + 1) = slot + 1 + i := by omega
      rw [due, List.getElem?_cons_succ, ← ih, ← hnext]
      split <;> simp

end Attachment

/-- Each service fires in its slot as its own timer says, and services that fire on the same tick do
so in the order of their slots. -/
structure Cadenced (vs : List (Service H)) (ls : List Lap) : Prop where
  fires : ∀ (i : Nat) v, vs[i]? = some v →
    (ls.map fun l => decide (i ∈ l.fired)) = TickTree.fires v.threshold 0 (ls.map (·.dt))
  ordered : ∀ l ∈ ls, l.fired.Pairwise (· < ·) ∧ ∀ i ∈ l.fired, i < vs.length

theorem cadenced_nil (vs : List (Service H)) : Cadenced vs [] := ⟨fun _ _ _ => rfl, by simp⟩

namespace Frame
variable {f g : Frame H} {ls : List Lap}

def provided (f : Frame H) : List (Service H) := f.services.map (·.service)

theorem provided_eq_of_bare (h : f.bare = g.bare) : f.provided = g.provided := by
  have hsame : ∀ k : Frame H, k.bare.provided = k.provided := fun k => by
    simp [provided, bare, Function.comp_def, Attachment.reset]
  rw [← hsame f, h, hsame]

theorem provided_eq_of_plan (h : f.plan = g.plan) : f.provided = g.provided :=
  provided_eq_of_bare (plan_eq_iff.mp h).1

def Timers (dts : List Float32) (f : Frame H) : Prop :=
  ∀ a ∈ f.services, a.timer = shows a.service.threshold 0 dts

theorem timer_reset (as : List (Attachment H)) : ∀ a ∈ as.map Attachment.reset, a.timer = 0 := by
  intro a ha
  obtain ⟨a, -, rfl⟩ := List.mem_map.mp ha
  rfl

theorem timers_lapped {dts : List Float32} (h : g.Timers dts) (dt : Float32) (raw : Answer)
    (b : Behavior H) : (g.lapped dt raw b).Timers (dts ++ [dt]) := by
  intro a' ha'
  obtain ⟨a, ha, rfl⟩ := List.mem_map.mp ha'
  rw [Attachment.timer_advance, Attachment.service_advance, shows_append, h a ha]

theorem cadenced_lap (h : Cadenced g.provided ls) (timers : g.Timers (ls.map (·.dt)))
    (dt : Float32) (raw : Answer) : Cadenced g.provided (ls ++ [g.lap dt raw]) where
  fires i v hv := by
    obtain ⟨a, ha, rfl⟩ : ∃ a, g.services[i]? = some a ∧ a.service = v := by
      simpa [provided] using hv
    have hlap : decide (i ∈ Attachment.due dt 0 g.services) = (a.advance dt).1 := by
      have hdue : 0 + i ∈ Attachment.due dt 0 g.services ↔
          ∃ a, g.services[i]? = some a ∧ (a.advance dt).1 = true := Attachment.mem_due
      rw [Nat.zero_add, ha] at hdue
      rw [Bool.eq_iff_iff, decide_eq_true_iff, hdue]
      simp
    rw [List.map_append, List.map_append, fires_append, h.fires i _ hv,
      ← timers a (List.mem_of_getElem? ha), List.map_singleton, List.map_singleton]
    exact congrArg (_ ++ ·) (hlap ▸ Attachment.fires_advance.symm)
  ordered := by
    refine List.forall_mem_append.mpr ⟨h.ordered, List.forall_mem_singleton.mpr ⟨?_, ?_⟩⟩
    · exact (List.pairwise_lt_range' ..).sublist (Attachment.due_sublist dt 0 g.services)
    · intro i hi
      have hrange := (Attachment.due_sublist dt 0 g.services).mem hi
      simpa [provided] using hrange

def cadence (vs : List (Service H)) : Regime H where
  rest f := ∀ a ∈ f.services, a.timer = 0
  now _ ls g := Cadenced vs ls ∧ g.Timers (ls.map (·.dt))
  whole _ s := Cadenced vs s.laps

theorem cadence_governs (n : Nat) (f : Frame H) : (cadence f.provided).Governs n f where
  panics _ rest _ := ⟨cadenced_nil _, rest⟩
  starts _ _ := ⟨cadenced_nil _, timer_reset _⟩
  lap hplan now _ _ := by
    rw [← provided_eq_of_plan hplan] at now ⊢
    refine ⟨cadenced_lap now.1 now.2 _ _, ?_⟩
    rw [List.map_append]
    exact timers_lapped now.2 _ _ _
  ends _ hplan now _ := by
    rw [← provided_eq_of_plan hplan] at now ⊢
    exact cadenced_lap now.1 now.2 _ _
  cut _ now := now.1
  rests _ _ := timer_reset _

end Frame

theorem Node.frames_at? {path : List Nat} {n m : Node H} (h : n.at? path = some m) :
    m.frames ⊆ n.frames := by
  induction path generalizing n with
  | nil =>
    cases h
    exact List.Subset.refl _
  | cons i path ih =>
    obtain ⟨f, cs⟩ := n
    obtain ⟨c, hc, hm⟩ := at?_cons.mp h
    rw [frames_mk]
    exact fun g hg => List.mem_cons_of_mem _
      (List.mem_flatMap.mpr ⟨c, List.mem_of_getElem? hc, ih hm hg⟩)

/-- In every activation of a node, whatever else happens in it, each service fires on the ticks that
its own timer says, before the behavior is ticked, and between calls no timer of an active node shows
what the service waits for. -/
theorem cadence_of_play (ms : List (Move H)) {t : Rooted H} (idle : t.root.Idle)
    (rested : t.root.Rested) (distinct : t.root.ids.Nodup) (st : Stage H) {path : List Nat}
    {n : Node H} (hn : t.root.at? path = some n) :
    (∀ v ∈ n.frame.provided, (v.threshold = v.interval ∨ v.threshold = epsilon) ∧
      epsilon ≤ v.threshold ∧ (v.interval.isNaN = false → v.interval ≤ v.threshold)) ∧
    ∃ (m : Node H) (past : List Spell) (ls : List Lap),
      (play ms t st).value.2.root.at? path = some m ∧ m.frame.provided = n.frame.provided ∧
      paces n.id (play ms t st).trace =
        past.flatMap Spell.paces ++ (if m.isActive then running ls else []) ∧
      (∀ s ∈ past, Cadenced n.frame.provided s.laps) ∧
      (m.isActive = true → Cadenced n.frame.provided ls ∧ ∀ a ∈ m.frame.services,
        a.timer = shows a.service.threshold 0 (ls.map (·.dt)) ∧ ¬ a.service.threshold ≤ a.timer) := by
  have hrest : ∀ a ∈ n.frame.services, a.timer = 0 :=
    (rested n.frame (Node.frames_at? hn n.frame_mem_frames)
      (Node.isActive_of_idle (Node.idle_at? idle hn))).2
  obtain ⟨hs, past, r, ls, hm, hremains, -, h⟩ :=
    paced_play ms idle distinct st hn (Frame.cadence_governs _ n.frame) hrest
  refine ⟨fun v _ => v.threshold_spec, (n.handle hs).1, past.map Prod.snd, ls, hm, ?_, ?_, ?_,
    fun hactive => ?_⟩
  · exact Frame.provided_eq_of_plan (Node.plan_eq_of_plans hremains.plans)
  · rw [List.flatMap_map]
    exact h.shown
  · rw [List.forall_mem_map]
    exact h.past
  · obtain ⟨hcadenced, htimers⟩ := h.now hactive
    refine ⟨hcadenced, fun a ha => ⟨htimers a ha, ?_⟩⟩
    rw [htimers a ha]
    exact not_le_shows a.service.not_threshold_le a.service.not_threshold_le

def Rooted.served : Rooted Host.faulty :=
  { faulty with
    root := faulty.root.mapFrame
      ({ · with services := [.idle ⟨3, ()⟩, .idle ⟨0, ()⟩, .idle ⟨3, ()⟩] }) }

theorem cadence_of_play_served :
    let o := play [.execute 1, .execute 2, .execute 2] Rooted.served Rooted.hushed
    let n := Rooted.served.root
    let lap (dt : Float32) (fired : List Nat) : Lap :=
      ⟨0, dt, fired, .error (.failed .missingRoot)⟩
    (n.Idle ∧ n.Rested ∧ n.ids.Nodup ∧ n.at? [] = some n) ∧
      paces 4 o.trace = running [lap 1 [1], lap 2 [0, 1, 2], lap 2 [1]] ∧
      o.value.2.root.frame.services.map (·.timer) = [2, 0, 2] ∧
      ∃ (past : List Spell) (ls : List Lap), paces 4 o.trace =
          past.flatMap Spell.paces ++ running ls ∧
        Cadenced n.frame.provided ls ∧ ∀ a ∈ o.value.2.root.frame.services,
          a.timer = shows a.service.threshold 0 (ls.map (·.dt)) ∧
            ¬ a.service.threshold ≤ a.timer := by
  intro o n lap
  have hidle : n.Idle := by decide
  have hrested : n.Rested := by
    simp [n, Node.Rested, Frame.Rested, Rooted.served, Rooted.faulty, Node.mapFrame, Frame.idle,
      Attachment.idle]
  have hdistinct : n.ids.Nodup := by decide
  have hroot : n.at? [] = some n := rfl
  have hpaces : paces 4 o.trace = running [lap 1 [1], lap 2 [0, 1, 2], lap 2 [1]] := by
    decide +kernel
  have htimers : o.value.2.root.frame.services.map (·.timer) = [2, 0, 2] := by decide +kernel
  have hactive : o.value.2.root.isActive = true := by decide +kernel
  have h := cadence_of_play [.execute 1, .execute 2, .execute 2] hidle hrested hdistinct
    Rooted.hushed hroot
  rw [show play [.execute 1, .execute 2, .execute 2] Rooted.served Rooted.hushed = o from rfl] at h
  clear_value o
  obtain ⟨-, m, past, ls, hm, -, hshown, -, hnow⟩ := h
  obtain rfl : o.value.2.root = m := Option.some.inj hm
  rw [if_pos hactive] at hshown
  exact ⟨⟨hidle, hrested, hdistinct, hroot⟩, hpaces, htimers, past, ls, hshown, hnow hactive⟩

end TickTree
