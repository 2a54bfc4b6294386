import Mathlib.Data.List.Chain
import TickTree.Proofs.Chronicles
import TickTree.Proofs.Standing
/-! Selectors over whole activations. Over the ticks of an activation a selector tries its children
in order, each until it does not go on, and goes to the next one when a child fails. -/
namespace TickTree
variable {H : Host}

namespace Branch

theorem Walked.log_eq {onward : Status} {order : List Nat} {log : Log} {a : Answer} {passed : Nat}
    (h : Walked onward order log a passed) :
    ∃ last, log = (order.take passed).map (·, .ok onward) ++ last ∧
      (a = .ok onward ∧ last = [] ∧ passed = order.length ∨
        a ≠ .ok onward ∧ ∃ i, order[passed]? = some i ∧ last = [(i, a)]) := by
  induction h with
  | done => exact ⟨[], rfl, .inl ⟨rfl, rfl, rfl⟩⟩
  | stop ha => exact ⟨_, rfl, .inr ⟨ha, _, rfl, rfl⟩⟩
  | pass _ ih =>
    obtain ⟨last, rfl, ⟨ha, hlast, hpassed⟩ | ⟨ha, i, hi, hlast⟩⟩ := ih
    · exact ⟨last, rfl, .inl ⟨ha, hlast, by simp [hpassed]⟩⟩
    · exact ⟨last, rfl, .inr ⟨ha, i, by simpa using hi, hlast⟩⟩

theorem Walked.range_eq {n c : Nat} {log : Log} {a : Answer} {passed : Nat} (hc : c ≤ n)
    (h : Walked .failure ((List.range n).drop c) log a passed) :
    ∃ last, log = (List.range' c passed).map (·, .ok .failure) ++ last ∧
      (a = .ok .failure ∧ last = [] ∧ c + passed = n ∨
        a ≠ .ok .failure ∧ last = [(c + passed, a)] ∧ c + passed < n) := by
  have hle := h.passed_le
  obtain ⟨last, hlog, hlast⟩ := h.log_eq
  simp only [List.length_drop, List.length_range] at hle
  have hdrop : (List.range n).drop c = List.range' c (n - c) := by
    rw [List.range_eq_range', List.drop_range']
    simp
  have htake : (List.range' c (n - c)).take passed = List.range' c passed := by
    rw [← Nat.add_sub_cancel' hle, ← List.range'_append_1, List.take_left' List.length_range']
  rw [hdrop] at hlog hlast
  refine ⟨last, htake ▸ hlog, ?_⟩
  obtain ⟨ha, hlast, hpassed⟩ | ⟨ha, i, hi, rfl⟩ := hlast
  · rw [List.length_range'] at hpassed
    exact .inl ⟨ha, hlast, by omega⟩
  · obtain ⟨hlt, rfl⟩ := List.getElem?_eq_some_iff.mp hi
    rw [List.length_range'] at hlt
    exact .inr ⟨ha, by simp, by omega⟩

end Branch

/-- The execution of a child in an activation, in the round with this number. -/
structure Trial where
  round : Nat
  child : Nat
  answer : Answer
  deriving DecidableEq

/-- What may come next in an activation of a selector: the next child in the same round, if this one
has failed, and this one in a later round, if it goes on. Nothing comes after a success. -/
def Trial.Next (t u : Trial) : Prop :=
  t.answer = .ok .failure ∧ u.round = t.round ∧ u.child = t.child + 1 ∨
    Going t.answer ∧ t.round < u.round ∧ u.child = t.child

def Round.trials (k : Nat) (r : Round) : List Trial := r.log.map fun x => ⟨k, x.1, x.2⟩

def trials (rs : List Round) : List Trial := rs.zipIdx.flatMap fun x => x.1.trials x.2

def failures (rs : List Round) : List Nat :=
  ((trials rs).filter (·.answer = .ok .failure)).map (·.child)

/-- How a selector over `n` children goes through an activation with these rounds. -/
structure Selects (n : Nat) (rs : List Round) : Prop where
  first : ∀ t ∈ (trials rs).head?, t.child = 0
  next : (trials rs).IsChain Trial.Next
  forward : ((trials rs).map (·.child)).Pairwise (· ≤ ·)
  /-- Unless it is a failure, the answer of the selector is that of the last child of the round. -/
  answers : ∀ r ∈ rs, ∀ a, a ≠ .ok .failure →
    (r.raw = a ↔ (r.log.map Prod.snd).getLast? = some a)
  /-- It fails as soon as all of its children have failed, one after the other. -/
  fails : ∀ pre r post, rs = pre ++ r :: post →
    (r.raw = .ok .failure ↔ failures (pre ++ [r]) = List.range n)
  goes : ∀ r ∈ rs.dropLast, Going r.raw

inductive Selected (n : Nat) : List Round → Nat → Prop
  | start : Selected n [] 0
  | round {rs : List Round} {c passed : Nat} {r : Round} (h : Selected n rs c)
    (going : ∀ r ∈ rs, Going r.raw)
    (walked : Branch.Walked .failure ((List.range n).drop c) r.log r.raw passed) :
    Selected n (rs ++ [r]) (c + passed)

theorem Branch.Walked.trials {n c passed : Nat} {r : Round} (hc : c ≤ n)
    (h : Branch.Walked .failure ((List.range n).drop c) r.log r.raw passed) (k : Nat) :
    (∀ t ∈ (r.trials k).head?, t.round = k ∧ t.child = c) ∧ (r.trials k).IsChain Trial.Next := by
  obtain ⟨last, hlog, hlast⟩ := h.range_eq hc
  have hfailed : ((List.range' c passed).map fun i => (⟨k, i, .ok .failure⟩ : Trial)).IsChain
      Trial.Next := by
    rw [List.isChain_map]
    exact (List.isChain_range' c passed 1).imp fun i j hij => .inl ⟨rfl, rfl, hij⟩
  obtain ⟨-, rfl, -⟩ | ⟨-, rfl, -⟩ := hlast
  · have htrials : r.trials k = (List.range' c passed).map fun i => ⟨k, i, .ok .failure⟩ := by
      simp [Round.trials, hlog]
    rw [htrials]
    refine ⟨?_, hfailed⟩
    cases passed <;> simp [List.range'_succ]
  · have htrials : r.trials k = ((List.range' c passed).map fun i => ⟨k, i, .ok .failure⟩) ++
        [⟨k, c + passed, r.raw⟩] := by simp [Round.trials, hlog]
    rw [htrials]
    refine ⟨?_, List.isChain_append.mpr ⟨hfailed, .singleton _, ?_⟩⟩
    · cases passed <;> simp [List.range'_succ]
    · cases passed with
      | zero => simp
      | succ passed =>
        rw [List.range'_1_concat, List.map_append, List.map_singleton, List.getLast?_concat]
        rintro _ ⟨⟩ _ ⟨⟩
        exact .inl ⟨rfl, rfl, (Nat.add_assoc c passed 1).symm⟩

theorem trials_append (rs : List Round) (r : Round) :
    trials (rs ++ [r]) = trials rs ++ r.trials rs.length := by
  simp [trials, List.zipIdx_append]

theorem failures_append (rs : List Round) (r : Round) : failures (rs ++ [r]) =
    failures rs ++ ((r.trials rs.length).filter (·.answer = .ok .failure)).map (·.child) := by
  simp [failures, trials_append]

namespace Selected
variable {n c : Nat} {rs : List Round}

theorem cursor_le (h : Selected n rs c) : c ≤ n := by
  induction h with
  | start => exact Nat.zero_le n
  | @round rs c passed r _ _ walked ih =>
    have hle := walked.passed_le
    simp only [List.length_drop, List.length_range] at hle
    omega

/-- The cursor counts the failures. -/
theorem failures_eq (h : Selected n rs c) : failures rs = List.range c := by
  induction h with
  | start => rfl
  | @round rs c passed r h _ walked ih =>
    have hfailed : ((r.trials rs.length).filter (·.answer = .ok .failure)).map (·.child) =
        List.range' c passed := by
      obtain ⟨last, hlog, ⟨-, rfl, -⟩ | ⟨ha, rfl, -⟩⟩ := walked.range_eq h.cursor_le
      · simp [Round.trials, hlog, List.filter_map, Function.comp_def]
      · simp [Round.trials, hlog, List.filter_map, Function.comp_def, ha]
    rw [failures_append, ih, hfailed, List.range_eq_range', List.range_eq_range']
    have hsplit := @List.range'_append_1 0 c passed
    rwa [Nat.zero_add] at hsplit

/-- As long as the activation goes on, the last child executed is the one at the cursor. -/
theorem last (h : Selected n rs c) (going : ∀ r ∈ rs, Going r.raw) :
    ∀ t ∈ (trials rs).getLast?, Going t.answer ∧ t.round < rs.length ∧ t.child = c := by
  cases h with
  | start => simp [trials]
  | @round rs c passed r h _ walked =>
    have hr : Going r.raw := going r (by simp)
    obtain ⟨last, hlog, ⟨ha, -, -⟩ | ⟨-, rfl, -⟩⟩ := walked.range_eq h.cursor_le
    · rw [ha] at hr
      cases going_ok.mp hr
    · have htrials : r.trials rs.length = (List.range' c passed).map (⟨rs.length, ·, .ok .failure⟩) ++
          [⟨rs.length, c + passed, r.raw⟩] := by simp [Round.trials, hlog]
      rw [trials_append, htrials, ← List.append_assoc, List.getLast?_concat]
      rintro _ ⟨⟩
      exact ⟨hr, by simp, rfl⟩

theorem next (h : Selected n rs c) : (trials rs).IsChain Trial.Next := by
  induction h with
  | start => exact .nil
  | @round rs c passed r h going walked ih =>
    obtain ⟨hfirst, hchain⟩ := walked.trials h.cursor_le rs.length
    rw [trials_append, List.isChain_append]
    refine ⟨ih, hchain, fun t ht u hu => .inr ?_⟩
    obtain ⟨hgoing, hround, hchild⟩ := h.last going t ht
    obtain ⟨hround', hchild'⟩ := hfirst u hu
    exact ⟨hgoing, hround'.symm ▸ hround, hchild'.trans hchild.symm⟩

theorem first (h : Selected n rs c) : ∀ t ∈ (trials rs).head?, t.child = 0 := by
  induction h with
  | start => simp [trials]
  | @round rs c passed r h _ walked ih =>
    rw [trials_append, List.head?_append]
    cases hrs : (trials rs).head? with
    | some t => simpa [hrs] using ih
    | none =>
      have hc : c = 0 := by
        have hlength := congrArg List.length h.failures_eq
        rw [failures, List.head?_eq_none_iff.mp hrs, List.length_range] at hlength
        exact hlength.symm
      subst hc
      exact fun t ht => ((walked.trials (Nat.zero_le n) rs.length).1 t (by simpa using ht)).2

theorem exists_round (h : Selected n rs c) {pre : List Round} {r : Round} {post : List Round}
    (hrs : rs = pre ++ r :: post) : ∃ c passed, Selected n pre c ∧ (∀ r ∈ pre, Going r.raw) ∧
      Branch.Walked .failure ((List.range n).drop c) r.log r.raw passed := by
  induction h generalizing post with
  | start => simp at hrs
  | @round rs c passed r' h going walked ih =>
    obtain rfl | ⟨post, r'', rfl⟩ := List.eq_nil_or_concat post
    · obtain ⟨rfl, hr⟩ := List.append_inj' hrs rfl
      cases hr
      exact ⟨c, passed, h, going, walked⟩
    · rw [List.concat_eq_append, ← List.cons_append, ← List.append_assoc] at hrs
      obtain ⟨hrs, -⟩ := List.append_inj' hrs rfl
      exact ih hrs

theorem selects (h : Selected n rs c) : Selects n rs where
  first := h.first
  next := h.next
  forward := by
    rw [List.pairwise_map]
    have hle := h.next.imp (S := fun t u => t.child ≤ u.child) fun t u htu => by
      obtain ⟨-, -, hu⟩ | ⟨-, -, hu⟩ := htu <;> omega
    exact List.isChain_iff_pairwise.mp hle
  answers := by
    intro r hr a ha
    obtain ⟨pre, post, hrs⟩ := List.append_of_mem hr
    obtain ⟨c, passed, h, -, walked⟩ := h.exists_round hrs
    obtain ⟨last, hlog, ⟨hraw, rfl, -⟩ | ⟨hraw, rfl, -⟩⟩ := walked.range_eq h.cursor_le
    · have hfailed : ∀ b ∈ (r.log.map Prod.snd).getLast?, b = .ok .failure := by
        intro b hb
        have hmem := List.mem_of_getLast? hb
        simp only [hlog, List.append_nil, List.map_map, List.mem_map] at hmem
        obtain ⟨i, -, rfl⟩ := hmem
        rfl
      rw [hraw]
      exact ⟨fun h => absurd h.symm ha, fun h => absurd (hfailed a h) ha⟩
    · simp [hlog]
  fails := by
    rintro pre r post hrs
    obtain ⟨c, passed, h, going, walked⟩ := h.exists_round hrs
    rw [(h.round going walked).failures_eq]
    obtain ⟨last, -, ⟨hraw, -, hpassed⟩ | ⟨hraw, -, hpassed⟩⟩ := walked.range_eq h.cursor_le
    · simp [hraw, hpassed]
    · refine ⟨fun h => absurd h hraw, fun h => ?_⟩
      have hlength := congrArg List.length h
      simp only [List.length_range] at hlength
      omega
  goes := by
    cases h with
    | start => simp
    | round _ going => simpa using going

end Selected

/-- What has been shown of a selector over `n` children: activations that are over, and the one that
goes on, if there is one. -/
def Frame.Recorded (n : Nat) (f : Frame H) (bs : List Beat) : Prop :=
  ∃ (past : List (List Round)) (now : List Round) (c : Nat),
    bs = past.flatMap fullStory ++ (if f.active then story now else []) ∧
    (∀ rs ∈ past, ∃ c, Selected n rs c) ∧ Selected n now c ∧
    (f.active = true → f.behavior = .selector c ∧ ∀ r ∈ now, Going r.raw)

namespace Frame
variable {f : Frame H} {n : Nat} {bs : List Beat}

theorem recorded_nil (hf : f.active = false) : f.Recorded n [] :=
  ⟨[], [], 0, by simp [hf], by simp, .start, by simp [hf]⟩

theorem Starts.selector {started : Except Panic Unit} {b : Behavior H} {drawn : List Draw}
    (h : f.Starts n started b drawn) (made : f.behavior.make = .selector) :
    started = .ok () ∧ b = .selector 0 ∧ drawn = [] := by
  obtain ⟨s, v, st, hvalue, htrace⟩ := h
  cases hb : f.behavior with
  | selector k =>
    rw [hb] at hvalue htrace
    cases hvalue
    exact ⟨rfl, rfl, List.map_eq_nil_iff.mp htrace.symm⟩
  | _ => rw [hb] at made; cases made

theorem course_selector (made : f.behavior.make = .selector) (plain : f.Plain) :
    Course n f (fun rs => ∃ c, Selected n rs c)
      (fun rs b => ∃ c, b = .selector c ∧ Selected n rs c ∧ ∀ r ∈ rs, Going r.raw) where
  start hplan starts := by
    obtain ⟨hstarted, rfl, hdrawn⟩ := starts.selector ((plan_eq_iff.mp hplan).2.trans made)
    exact ⟨hstarted, hdrawn, 0, rfl, .start, by simp⟩
  cut := fun ⟨c, _, hrs, _⟩ => ⟨c, hrs⟩
  round := by
    rintro dt rs r b b' ⟨c, rfl, hrs, hgoing⟩ answers
    cases answers with
    | selector walked =>
      have hround := hrs.round hgoing walked
      exact ⟨⟨_, hround⟩, fun hr =>
        ⟨_, rfl, hround, List.forall_mem_append.mpr ⟨hgoing, by simpa using hr plain⟩⟩⟩

theorem recorded_iff : f.Recorded n bs ↔ f.Chronicled (fun rs => ∃ c, Selected n rs c)
    (fun rs b => ∃ c, b = .selector c ∧ Selected n rs c ∧ ∀ r ∈ rs, Going r.raw) bs := by
  constructor
  · rintro ⟨past, now, c, hbs, hpast, hnow, hcurrent⟩
    exact ⟨past, now, hbs, hpast, fun hf => ⟨c, (hcurrent hf).1, hnow, (hcurrent hf).2⟩⟩
  · rintro ⟨past, now, hbs, hpast, hnow⟩
    by_cases hf : f.active = true
    · obtain ⟨c, hb, hselected, hgoing⟩ := hnow hf
      exact ⟨past, now, c, hbs, hpast, hselected, fun _ => ⟨hb, hgoing⟩⟩
    · exact ⟨past, [], 0, by simpa [hf] using hbs, hpast, .start, fun hf' => absurd hf' hf⟩

end Frame

namespace Node

structure PlainSelector (n : Node H) : Prop where
  made : n.frame.behavior.make = .selector
  plain : n.frame.Plain

theorem recorded_handle (hs : List (Handling H)) {n : Node H} (sound : n.Sound)
    (distinct : n.ids.Nodup) (h : n.PlainSelector) {bs : List Beat}
    (hbs : n.frame.Recorded n.children.length bs) :
    (n.handle hs).1.frame.Recorded n.children.length
      (bs ++ beats n.id n.kids (n.handle hs).2) := by
  rw [Frame.recorded_iff] at hbs ⊢
  exact chronicled_handle hs sound distinct (Frame.course_selector h.made h.plain) hbs

theorem stands_handle (hs : List (Handling H)) {n : Node H} (sound : n.Sound) (hn : n.Closed)
    (hstands : n.Stands) : (n.handle hs).1.Closed ∧ (n.handle hs).1.Stands := by
  have hkeeps := handle_keeps (I := fun n => n.Sound ∧ n.Closed ∧ n.Stands)
    (fun c n h => ⟨sound_act c h.1, closed_act c h.1 h.2.1, ?_⟩) hs ⟨sound, hn, hstands⟩
  · exact hkeeps.2
  · cases c with
    | execute s dt st =>
      exact stands_execute s dt h.1 h.2.1 h.2.2 st
    | abort s st =>
      change (n.abort s st).value.Stands
      rw [value_abort]
      exact stands_settle h.2.1

end Node

/-- In every run a selector tries its children in order over each of its activations, and between
calls no child is active but the one at its cursor. -/
theorem selects_of_play (ms : List (Move H)) {t : Rooted H} (idle : t.root.Idle)
    (distinct : t.root.ids.Nodup) (st : Stage H) {path : List Nat} {n : Node H}
    (hn : t.root.at? path = some n) (selector : n.PlainSelector) :
    ∃ (m : Node H) (past : List (List Round)) (now : List Round),
      (play ms t st).value.2.root.at? path = some m ∧
      beats n.id n.kids (play ms t st).trace =
        past.flatMap fullStory ++ (if m.isActive then story now else []) ∧
      (∀ rs ∈ past, Selects n.children.length rs) ∧ Selects n.children.length now ∧
      (m.isActive = true → m.frame.behavior = .selector (failures now).length ∧
        ∀ r ∈ now, Going r.raw) ∧
      ∀ i c, m.children[i]? = some c → c.isActive = true →
        m.isActive = true ∧ i = (failures now).length := by
  have hidle : n.Idle := Node.idle_at? idle hn
  have hsound : n.Sound := Node.sound_of_idle hidle
  have hdistinct : n.ids.Nodup := distinct.sublist (Node.sublist_at? hn)
  obtain ⟨m, hm, hunder⟩ := undergoes_play ms ⟨Node.sound_of_idle idle, distinct⟩ st hn
  obtain ⟨hs, rfl, hbeats⟩ := hunder.beats_eq
  have hrecorded := Node.recorded_handle hs hsound hdistinct selector
    (Frame.recorded_nil (Node.isActive_of_idle hidle))
  rw [List.nil_append] at hrecorded
  obtain ⟨past, now, c, hstory, hpast, hnow, hcurrent⟩ := hrecorded
  have hcursor : (failures now).length = c := by rw [hnow.failures_eq, List.length_range]
  obtain ⟨hclosed, hstands⟩ := Node.stands_handle hs hsound (Node.closed_of_idle hidle)
    (Node.stands_of_idle hidle)
  refine ⟨_, past, now, hm, hbeats.trans hstory, fun rs hrs => ?_, hnow.selects,
    hcursor ▸ hcurrent, fun i child hi hchild => ?_⟩
  · obtain ⟨c, h⟩ := hpast rs hrs
    exact h.selects
  · have hactive := hclosed.isActive_of_child hi hchild
    exact ⟨hactive, hcursor ▸ (hstands c (hcurrent hactive).1 i child hi hchild).2⟩

/-- The first child has failed, and the second goes on. -/
theorem selects_of_play_echo :
    let o := play [.execute 1, .execute 1] Rooted.echo Rooted.still
    let rs : List Round := [⟨[(0, .ok .failure), (1, .ok .running)], .ok .running⟩,
      ⟨[(1, .ok .running)], .ok .running⟩]
    (Rooted.echo.root.Idle ∧ Rooted.echo.root.ids.Nodup ∧ Rooted.echo.root.PlainSelector) ∧
      o.value.2.root.isActive = true ∧ o.value.2.root.activity = [true, false, true] ∧
      beats 3 [1, 2] o.trace = story rs ∧
      ∃ (past : List (List Round)) (now : List Round),
        beats 3 [1, 2] o.trace = past.flatMap fullStory ++ story now ∧
        (∀ rs ∈ past, Selects 2 rs) ∧ Selects 2 now ∧ (failures now).length = 1 := by
  intro o rs
  have hidle : Rooted.echo.root.Idle := by decide
  have hdistinct : Rooted.echo.root.ids.Nodup := by decide
  have hselector : Rooted.echo.root.PlainSelector := ⟨rfl, fun _ _ => rfl⟩
  have hactive : o.value.2.root.isActive = true := by decide +kernel
  have hactivity : o.value.2.root.activity = [true, false, true] := by decide +kernel
  have hbeats : beats 3 [1, 2] o.trace = story rs := by decide +kernel
  have hcursor : o.value.2.root.frame.behavior.cursor = 1 := by decide +kernel
  have hroot : Rooted.echo.root.at? [] = some Rooted.echo.root := rfl
  have h := selects_of_play [.execute 1, .execute 1] hidle hdistinct Rooted.still hroot hselector
  rw [show play [.execute 1, .execute 1] Rooted.echo Rooted.still = o from rfl] at h
  clear_value o
  obtain ⟨m, past, now, hm, hstory, hpast, hnow, hcurrent, -⟩ := h
  obtain rfl : o.value.2.root = m := Option.some.inj hm
  rw [if_pos hactive] at hstory
  have hcursor' := congrArg Behavior.cursor (hcurrent hactive).1
  exact ⟨⟨hidle, hdistinct, hselector⟩, hactive, hactivity, hbeats, past, now, hstory, hpast, hnow,
    hcursor'.symm.trans hcursor⟩

end TickTree
