import TickTree.Proofs.Chronicles
import TickTree.Proofs.Reshuffling
/-! Repeaters. Over an activation a repeater succeeds on the tick that completes the last of its
iterations, however the ticks of these iterations go, and its child starts each of them anew. -/
namespace TickTree
variable {H : Host}

def completes (lenient : Bool) (a : Answer) : Bool :=
  a = .ok .success || a = .ok .failure && lenient

def iterations (lenient : Bool) (rs : List Round) : Nat :=
  (rs.flatMap fun r => r.log.map Prod.snd).countP (completes lenient)

/-- What a repeater makes of the answer of its child, after which so many iterations are complete. -/
def verdict (limit : Option Nat) (lenient : Bool) (complete : Nat) (a : Answer) : Answer :=
  if completes lenient a then .ok (if limit = some complete then .success else .running) else a

/-- How a repeater goes through an activation. Only the last round may end it. -/
structure Repeats (limit : Option Nat) (lenient : Bool) (rs : List Round) : Prop where
  rounds : ∀ pre r post, rs = pre ++ r :: post → ∃ a, r.log = [(0, a)] ∧
    r.raw = verdict limit lenient (iterations lenient (pre ++ [r])) a
  goes : ∀ r ∈ rs.dropLast, Going r.raw

theorem iterations_append {lenient : Bool} {rs : List Round} {r : Round} {a : Answer}
    (h : r.log = [(0, a)]) : iterations lenient (rs ++ [r]) =
      if completes lenient a then iterations lenient rs + 1 else iterations lenient rs := by
  simp only [iterations, List.flatMap_append, List.countP_append, List.flatMap_singleton, h,
    List.map_cons, List.map_nil, List.countP_singleton]
  split <;> simp

namespace Repeater

/-- A repeater that has been made has a limit just when its count is positive. -/
theorem make_spec {count : Int32} {lenient : Bool} {r : Repeater} (h : make count lenient = .ok r) :
    r.limit = (if 0 < count then some count.toInt.toNat else none) ∧ r.lenient = lenient ∧
      ∀ n, r.limit = some n → 0 < n ∧ n ≤ mostCompleted := by
  rw [make] at h
  split at h
  · cases h
  · next hzero =>
    split at h
    · next hneg =>
      cases h
      rw [if_neg (Int32.lt_asymm hneg)]
      exact ⟨rfl, rfl, by simp [forever]⟩
    · next hneg =>
      cases h
      have hpos : 0 < count := Int32.lt_of_le_of_ne (Int32.not_lt.mp hneg) (Ne.symm hzero)
      rw [if_pos hpos]
      refine ⟨rfl, rfl, ?_⟩
      rintro n ⟨⟩
      have hlow := Int32.lt_iff_toInt_lt.mp hpos
      have hhigh := count.toInt_lt
      rw [show (0 : Int32).toInt = 0 from rfl] at hlow
      rw [mostCompleted, UInt32.size]
      omega

theorem counts_eq (r : Repeater) (child : Status) :
    r.counts child = completes r.lenient (.ok child) := by
  cases child <;> simp [counts, completes]

theorem step_incomplete {r : Repeater} {child : Status}
    (h : completes r.lenient (.ok child) = false) : r.step child = (child, r) := by
  rw [step, counts_eq, if_neg (by simp [h])]

theorem step_spec {r : Repeater} {k : Nat} (completed : r.completed = min k mostCompleted)
    (limit : ∀ n, r.limit = some n → k < n ∧ n ≤ mostCompleted) (child : Status) :
    let k' := if completes r.lenient (.ok child) then k + 1 else k
    (.ok (r.step child).1 : Answer) = verdict r.limit r.lenient k' (.ok child) ∧
      (r.step child).2 = { r with completed := min k' mostCompleted } := by
  intro k'
  rw [step, counts_eq, verdict]
  by_cases hc : completes r.lenient (.ok child) = true
  · have hk' : k' = k + 1 := if_pos hc
    have hadvance : r.advance = { r with completed := min k' mostCompleted } := by
      rw [advance, completed]
      congr 1
      omega
    have hdone : r.advance.isDone = true ↔ r.limit = some k' := by
      rw [hadvance, isDone, hk']
      cases hlimit : r.limit with
      | none => simp
      | some n =>
        obtain ⟨hlow, hhigh⟩ := limit n hlimit
        simp only [Option.any_some, decide_eq_true_eq, Option.some.injEq]
        omega
    simp only [if_pos hc, hdone]
    exact ⟨trivial, hadvance⟩
  · have hk' : k' = k := if_neg hc
    simp only [if_neg hc]
    refine ⟨trivial, ?_⟩
    rw [hk', ← completed]

end Repeater

structure Repeating (rs : List Round) (r : Repeater) : Prop where
  completed : r.completed = min (iterations r.lenient rs) Repeater.mostCompleted
  below : ∀ n, r.limit = some n → iterations r.lenient rs < n
  going : ∀ x ∈ rs, Going x.raw
  repeats : Repeats r.limit r.lenient rs

theorem repeats_nil (limit : Option Nat) (lenient : Bool) : Repeats limit lenient [] :=
  ⟨by simp, by simp⟩

section Round
variable {limit : Option Nat} {lenient : Bool} {rs : List Round} {x : Round} {r : Repeater}

theorem Repeats.snoc {a : Answer} (h : Repeats limit lenient rs) (going : ∀ x ∈ rs, Going x.raw)
    (log : x.log = [(0, a)])
    (raw : x.raw = verdict limit lenient (iterations lenient (rs ++ [x])) a) :
    Repeats limit lenient (rs ++ [x]) where
  rounds := by
    intro pre y post hsplit
    obtain rfl | ⟨post, z, rfl⟩ := List.eq_nil_or_concat post
    · obtain ⟨rfl, hxy⟩ := List.append_inj' hsplit rfl
      obtain rfl : x = y := List.singleton_inj.mp hxy
      exact ⟨a, log, raw⟩
    · rw [List.concat_eq_append, ← List.cons_append, ← List.append_assoc] at hsplit
      exact h.rounds pre y post (List.append_inj' hsplit rfl).1
  goes := by simpa using going

theorem Repeating.round {dt : Float32} {n : Nat} {b : Behavior H} (h : Repeating rs r)
    (hlimit : ∀ n, r.limit = some n → n ≤ Repeater.mostCompleted) (hn : n ≠ 0)
    (answers : (Behavior.repeater r).Answers dt n x.log x.raw b) :
    Repeats r.limit r.lenient (rs ++ [x]) ∧ (Going x.raw → ∃ r', b = .repeater r' ∧
      r'.limit = r.limit ∧ r'.lenient = r.lenient ∧ Repeating (rs ++ [x]) r') := by
  obtain ⟨hcompleted, hbelow, hgoing, hrepeats⟩ := h
  have hall (hx : Going x.raw) : ∀ y ∈ rs ++ [x], Going y.raw :=
    List.forall_mem_append.mpr ⟨hgoing, List.forall_mem_singleton.mpr hx⟩
  obtain ⟨log, raw⟩ := x
  cases answers with
  | repeaterNone h => exact absurd h hn
  | @repeaterStop _ stop =>
    have hround := hrepeats.snoc hgoing (x := ⟨[(0, .error stop)], .error stop⟩) rfl rfl
    have hsame : iterations r.lenient (rs ++ [⟨[(0, .error stop)], .error stop⟩]) =
        iterations r.lenient rs := (iterations_append rfl).trans (if_neg (by simp [completes]))
    exact ⟨hround, fun hx => ⟨r, rfl, rfl, rfl, by rwa [hsame], by rwa [hsame], hall hx, hround⟩⟩
  | @repeater _ child =>
    have hcount : iterations r.lenient (rs ++ [⟨[(0, .ok child)], .ok (r.step child).1⟩]) =
        if completes r.lenient (.ok child) then iterations r.lenient rs + 1
        else iterations r.lenient rs := iterations_append rfl
    obtain ⟨hraw, hstep⟩ :=
      Repeater.step_spec hcompleted (fun n hn => ⟨hbelow n hn, hlimit n hn⟩) child
    rw [← hcount] at hraw hstep
    have hround := hrepeats.snoc hgoing (x := ⟨[(0, .ok child)], .ok (r.step child).1⟩) rfl hraw
    refine ⟨hround, fun hx => ⟨_, rfl, ?_⟩⟩
    generalize hr : (r.step child).1 = raw at *
    rw [hstep]
    refine ⟨rfl, rfl, rfl, fun n hn => ?_, hall hx, hround⟩
    -- the limit has not been reached, or the tick would have been a success
    have hlt := hbelow n hn
    change iterations r.lenient _ < n
    by_cases hc : completes r.lenient (.ok child) = true
    · rw [verdict, if_pos hc] at hraw
      rw [if_pos hc] at hcount
      have hopen : n ≠ iterations r.lenient rs + 1 := by
        rintro rfl
        rw [hcount, hn, if_pos rfl] at hraw
        cases hx _ hraw
      rw [hcount]
      omega
    · rwa [hcount, if_neg hc]

end Round

theorem Behavior.eq_repeater {limit : Option Nat} {lenient : Bool} {b : Behavior H}
    (h : b.make = .repeater limit lenient) :
    ∃ r, b = .repeater r ∧ r.limit = limit ∧ r.lenient = lenient := by
  cases b with
  | repeater r =>
    cases h
    exact ⟨r, rfl, rfl, rfl⟩
  | _ => cases h

theorem Frame.course_repeater {f : Frame H} {n : Nat} {limit : Option Nat} {lenient : Bool}
    (made : f.behavior.make = .repeater limit lenient) (plain : f.Plain) (hn : n ≠ 0)
    (hlimit : ∀ n, limit = some n → 0 < n ∧ n ≤ Repeater.mostCompleted) :
    Course n f (Repeats limit lenient) (fun rs b => ∃ r, b = .repeater r ∧ r.limit = limit ∧
      r.lenient = lenient ∧ Repeating rs r) where
  start := by
    rintro g started b drawn hplan ⟨s, v, st, hvalue, htrace⟩
    obtain ⟨r, hr, rfl, rfl⟩ := Behavior.eq_repeater ((plan_eq_iff.mp hplan).2.trans made)
    rw [hr] at hvalue htrace
    cases hvalue
    exact ⟨rfl, List.map_eq_nil_iff.mp htrace.symm, _, rfl, rfl, rfl, rfl,
      fun n hn => (hlimit n hn).1, by simp, repeats_nil _ _⟩
  cut := by
    rintro rs b ⟨r, -, rfl, rfl, h⟩
    exact h.repeats
  round := by
    rintro dt rs x b b' ⟨r, rfl, rfl, rfl, h⟩ answers
    obtain ⟨hover, hgoes⟩ := h.round (fun n hn => (hlimit n hn).2) hn answers
    exact ⟨hover, fun hx => hgoes (hx plain)⟩

namespace Node

/-- One tick of a repeater: its child is executed, and an iteration that is complete leaves the child
idle. Otherwise the answer of the child is that of the repeater, whose count stays. -/
inductive Iterates (lenient : Bool) (s : Setting) (dt : Float32) (n : Node H) :
    Outcome (Stage H) (Entry H.Note) (Answer × Node H) → Prop
  | mk {c c' : Node H} {cs : List (Node H)} {a raw answer : Answer} {m : Node H}
    {st₁ st₂ st' : Stage H} {before tr after : List (Entry H.Note)} {v : View}
    (children : n.children = c :: cs) (own : Mine n.id (calls before))
    (child : c.execute s dt st₁ = ⟨(a, c'), st₂, tr⟩)
    (idle : completes lenient a = true → c'.Idle)
    (incomplete : completes lenient a = false → raw = a ∧
      (n.isActive = true → m.isActive = true → m.frame.behavior = n.frame.behavior))
    (stops : ∀ stop, raw = .error stop → answer = raw ∧ m.isActive = true)
    (keeps : m.isActive = true → m.children = c' :: cs) :
    Iterates lenient s dt n ⟨(answer, m), st', before ++ (tr ++ .hook v (.answered raw) :: after)⟩

theorem idle_of_completes {lenient : Bool} {s : Setting} {dt : Float32} {c c' : Node H}
    (sound : c.Sound) (closed : c.Closed) {st st' : Stage H} {a : Answer} {tr : List (Entry H.Note)}
    (h : c.execute s dt st = ⟨(a, c'), st', tr⟩) (hcompletes : completes lenient a = true) :
    c'.Idle := by
  have hactive := isActive_execute s dt sound st
  have hclosed := closed_execute s dt sound closed st
  rw [h] at hactive hclosed
  refine hclosed.idle ?_
  obtain ⟨r, rfl, hterminal⟩ : ∃ r, a = .ok r ∧ r ≠ .running := by
    simp only [completes, Bool.or_eq_true, Bool.and_eq_true, decide_eq_true_eq] at hcompletes
    obtain h | ⟨h, -⟩ := hcompletes
    · exact ⟨_, h, by decide⟩
    · exact ⟨_, h, by decide⟩
  simpa [hterminal] using hactive r rfl

end Node

theorem Node.iterates_execute {limit : Option Nat} {lenient : Bool} (s : Setting) (dt : Float32)
    {n : Node H} (sound : n.Sound) (closed : n.Closed)
    (made : n.frame.behavior.make = .repeater limit lenient) (hn : n.children ≠ []) (st : Stage H)
    (passed : (Frame.guards s n.frame.view 0 n.frame.decorators st).value = true) :
    n.Iterates lenient s dt (n.execute s dt st) := by
  have htick := n.tick_execute s dt sound (by rw [made]; trivial) passed
  obtain ⟨c, cs, hcs⟩ := List.exists_cons_of_ne_nil hn
  have hsound : c.Sound := sound.below c (by simp [hcs])
  have hclosed : c.Closed := closed.below c (by simp [hcs])
  generalize n.execute s dt st = o at htick ⊢
  cases htick with
  | mk made' goes own visits answers stops keeps =>
    obtain ⟨r, rfl, -, rfl⟩ := Behavior.eq_repeater (made'.trans made)
    rw [hcs] at visits
    cases answers with
    | repeaterNone h => exact absurd (List.length_eq_zero_iff.mp h) hn
    | @repeaterStop _ stop =>
      obtain ⟨c', st₁, tr₁, tr₂, hexecute, rfl, hrest⟩ := visits_head [] visits
      cases hrest
      rw [List.append_nil]
      exact .mk hcs own hexecute (fun h => by simp [completes] at h)
        (fun _ => ⟨rfl, fun hf hm => (keeps hm).2.trans (goes hf)⟩) stops fun hm => (keeps hm).1
    | @repeater _ child =>
      obtain ⟨c', st₁, tr₁, tr₂, hexecute, rfl, hrest⟩ := visits_head [] visits
      cases hrest
      rw [List.append_nil]
      refine .mk hcs own hexecute (idle_of_completes hsound hclosed hexecute) (fun h => ?_) stops
        fun hm => (keeps hm).1
      rw [Repeater.step_incomplete h] at keeps ⊢
      exact ⟨rfl, fun hf hm => (keeps hm).2.trans (goes hf)⟩

/-- In every run a repeater succeeds on the tick that completes its last iteration, and on no other.
Any negative count asks for iterations without end. -/
theorem repeats_of_play (ms : List (Move H)) {t : Rooted H} (idle : t.root.Idle)
    (distinct : t.root.ids.Nodup) (st : Stage H) {path : List Nat} {n : Node H}
    (hn : t.root.at? path = some n) {count : Int32} {lenient : Bool} {r : Repeater}
    (made : Repeater.make count lenient = .ok r)
    (repeater : n.frame.behavior.make = .repeater r.limit r.lenient) (plain : n.frame.Plain)
    (child : n.children ≠ []) :
    let limit := if 0 < count then some count.toInt.toNat else none
    (∀ c < 0, Repeater.make c lenient = .ok (.forever lenient)) ∧
    ∃ (m : Node H) (past : List (List Round)) (now : List Round),
      (play ms t st).value.2.root.at? path = some m ∧ m.kids = n.kids ∧
      beats n.id n.kids (play ms t st).trace =
        past.flatMap fullStory ++ (if m.isActive then story now else []) ∧
      (∀ rs ∈ now :: past, Repeats limit lenient rs) ∧
      (m.isActive = true → ∃ r', m.frame.behavior = .repeater r' ∧
        r'.completed = min (iterations lenient now) Repeater.mostCompleted ∧
        (∀ k, limit = some k → r'.completed < k) ∧ ∀ x ∈ now, Going x.raw) ∧
      ∀ (s : Setting) (dt : Float32) (st' : Stage H),
        ((Frame.guards s m.frame.view 0 m.frame.decorators st').value = true →
          m.Iterates lenient s dt (m.execute s dt st')) ∧
        ∀ c ∈ m.children, c.Begins s st' →
          .notice s.listener (.entered ⟨c.id, c.name, true, 0⟩ s.scope.elapsed) ∈
            (c.execute s dt st').trace := by
  intro limit
  obtain ⟨hlimit, rfl, hbounds⟩ := Repeater.make_spec made
  change r.limit = limit at hlimit
  clear_value limit
  subst hlimit
  refine ⟨fun c hc => ?_, ?_⟩
  · rw [Repeater.make, if_neg (Int32.ne_of_lt hc), if_pos hc]
  obtain ⟨hs, past, now, hm, remains, -, hstory, hpast, hnow⟩ := chronicled_play ms idle distinct st
    hn (Frame.course_repeater repeater plain (by simpa using child) hbounds)
  generalize (n.handle hs).1 = m at hm hstory hnow remains
  have hkids := Node.kids_eq_of_shape remains.shape
  have hmade := (Frame.plan_eq_iff.mp (Node.plan_eq_of_plans remains.plans)).2.trans repeater
  have hchild : m.children ≠ [] := by
    have hlength := Node.length_eq_of_kids hkids
    intro hnil
    rw [hnil] at hlength
    exact child (List.length_eq_zero_iff.mp hlength.symm)
  have hexecute (s : Setting) (dt : Float32) (st' : Stage H) := And.intro
    (Node.iterates_execute s dt remains.sound remains.closed hmade hchild st')
    fun c (_ : c ∈ m.children) (begins : c.Begins s st') => begins.entered dt
  by_cases hactive : m.isActive = true
  · obtain ⟨r', hr', hlimit', hlenient, h⟩ := hnow hactive
    refine ⟨m, past, now, hm, hkids, hstory, List.forall_mem_cons.mpr ⟨?_, hpast⟩,
      fun _ => ⟨r', hr', hlenient ▸ h.completed, fun k hk => ?_, h.going⟩, hexecute⟩
    · exact hlimit' ▸ hlenient ▸ h.repeats
    · have hbelow := h.below k (hlimit'.trans hk)
      rw [h.completed]
      omega
  · exact ⟨m, past, [], hm, hkids, by simpa [hactive] using hstory,
      List.forall_mem_cons.mpr ⟨repeats_nil _ _, hpast⟩, by simp [hactive], hexecute⟩

def Rooted.repeated : Rooted Host.echo :=
  { echo with
    root := .mk (.idle 3 "" (.repeater ⟨some 2, false, 0⟩))
      [.mk (.idle 1 "" (.action .success)) []] }

/-- The second tick completes the second iteration, and the third begins a new activation. -/
theorem repeats_of_play_repeated :
    let o := play [.execute 1, .execute 1, .execute 1] Rooted.repeated Rooted.still
    let n := Rooted.repeated.root
    let r (raw : Status) : Round := ⟨[(0, .ok .success)], .ok raw⟩
    (n.Idle ∧ n.ids.Nodup ∧ Repeater.make 2 false = .ok ⟨some 2, false, 0⟩ ∧
      n.frame.behavior.make = .repeater (some 2) false ∧ n.frame.Plain ∧ n.children ≠ []) ∧
      beats 3 [1] o.trace = fullStory [r .running, r .success] ++ story [r .running] ∧
      ∃ (past : List (List Round)) (now : List Round),
        beats 3 [1] o.trace = past.flatMap fullStory ++ story now ∧
        (∀ rs ∈ now :: past, Repeats (some 2) false rs) ∧
        ∃ r', o.value.2.root.frame.behavior = .repeater r' ∧
          r'.completed = min (iterations false now) Repeater.mostCompleted ∧ r'.completed < 2 := by
  intro o n r
  have hidle : n.Idle := by decide
  have hdistinct : n.ids.Nodup := by decide
  have hplain : n.frame.Plain := fun _ _ => rfl
  have hchild : n.children ≠ [] := by simp [n, Rooted.repeated]
  have hactive : o.value.2.root.isActive = true := by decide +kernel
  have hbeats : beats 3 [1] o.trace = fullStory [r .running, r .success] ++ story [r .running] := by
    decide +kernel
  have hroot : n.at? [] = some n := rfl
  have hmade : Repeater.make 2 false = .ok ⟨some 2, false, 0⟩ := rfl
  have h := (repeats_of_play [.execute 1, .execute 1, .execute 1] hidle hdistinct Rooted.still hroot
    hmade rfl hplain hchild).2
  rw [show play [.execute 1, .execute 1, .execute 1] Rooted.repeated Rooted.still = o from rfl] at h
  clear_value o
  obtain ⟨m, past, now, hm, -, hstory, hrounds, hcurrent, -⟩ := h
  obtain rfl : o.value.2.root = m := Option.some.inj hm
  rw [if_pos hactive] at hstory
  obtain ⟨r', hr', hcompleted, hbelow, -⟩ := hcurrent hactive
  exact ⟨⟨hidle, hdistinct, hmade, rfl, hplain, hchild⟩, hbeats, past, now, hstory, hrounds, r', hr',
    hcompleted, hbelow 2 rfl⟩

end TickTree
