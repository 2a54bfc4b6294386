import TickTree.Proofs.Chronicles
import TickTree.Proofs.Reshuffling
/-! Parallel nodes. Each tick polls the children from left to right, and the votes of that tick alone
decide; what children have answered before is not kept. -/
namespace TickTree
variable {H : Host}

def Policy.outcome (success failure : Policy) (n successes failures going : Nat) : Status :=
  if n = 0 ∨ success.needed n ≤ successes then .success
  else if failure.needed n ≤ failures then .failure
  else if 0 < going then .running
  else .failure

theorem vote_eq_outcome (p q : Policy) (results : List Status) : vote p q results =
    p.outcome q results.length (results.count .success) (results.count .failure)
      (results.count .running) := by
  have hsuccess := Policy.isMet_iff (p := p) (results.count_le_length (a := .success))
  have hfailure := Policy.isMet_iff (p := q) (results.count_le_length (a := .failure))
  simp only [vote, Policy.outcome, hsuccess, hfailure]
  by_cases hn : results.length = 0 <;> simp [hn]

/-- How a tick goes from the answers of its children to its own: each of the `n` children has given
a result, or one has stopped it. -/
inductive Votes (p q : Policy) (n : Nat) : List Answer → Answer → Prop
  | counted (results : List Status) (all : results.length = n) :
    Votes p q n (results.map .ok) (.ok (p.outcome q n (results.count .success)
      (results.count .failure) (results.count .running)))
  | stopped (results : List Status) (stop : Stop) (before : results.length < n) :
    Votes p q n (results.map .ok ++ [.error stop]) (.error stop)

/-- The children have been executed in order, from the first on, and have voted. -/
def Round.Polls (p q : Policy) (n : Nat) (r : Round) : Prop :=
  ∃ as, r.log = as.zipIdx.map Prod.swap ∧ Votes p q n as r.raw

theorem zipIdx_map_swap (results : List Status) :
    (results.zipIdx.map fun x => (x.2, .ok x.1) : Log) =
      ((results.map .ok).zipIdx).map Prod.swap := by
  simp [List.zipIdx_map, Function.comp_def]

theorem Branch.RanAll.polls {n : Nat} {log : Log} {results : Except Stop (List Status)}
    (h : Branch.RanAll n log results) (p q : Policy) :
    Round.Polls p q n ⟨log, results.map (vote p q)⟩ := by
  cases h with
  | all results =>
    refine ⟨results.map .ok, zipIdx_map_swap results, ?_⟩
    have hvotes := Votes.counted (p := p) (q := q) results rfl
    rwa [← vote_eq_outcome] at hvotes
  | stop results stop more =>
    refine ⟨results.map .ok ++ [.error stop], ?_, .stopped results stop (by omega)⟩
    simp [List.zipIdx_append, zipIdx_map_swap]

/-- A vote goes on only if a child does. -/
theorem Votes.running {p q : Policy} {n : Nat} {as : List Answer}
    (h : Votes p q n as (.ok .running)) : .ok .running ∈ as := by
  generalize hraw : (.ok .running : Answer) = raw at h
  cases h with
  | stopped => cases hraw
  | counted results all =>
    have hcount : 0 < results.count .running := by
      by_contra hnone
      simp only [Policy.outcome, if_neg hnone] at hraw
      split at hraw
      · cases hraw
      · split at hraw <;> cases hraw
    exact hraw ▸ List.mem_map_of_mem (List.count_pos_iff.mp hcount)

namespace Node

inductive Polled (s : Setting) (dt : Float32) : List (Node H) → Stage H → List Answer →
    List (Node H) → Stage H → List (Entry H.Note) → Prop
  | done {st : Stage H} : Polled s dt [] st [] [] st []
  | next {c c' : Node H} {cs cs' : List (Node H)} {st st₁ st' : Stage H} {r : Status}
    {as : List Answer} {tr tr' : List (Entry H.Note)}
    (result : c.execute s dt st = ⟨(.ok r, c'), st₁, tr⟩)
    (rest : Polled s dt cs st₁ as cs' st' tr') :
    Polled s dt (c :: cs) st (.ok r :: as) (c' :: cs') st' (tr ++ tr')
  | stopped {c c' : Node H} {cs : List (Node H)} {st st' : Stage H} {stop : Stop}
    {tr : List (Entry H.Note)} (stops : c.execute s dt st = ⟨(.error stop, c'), st', tr⟩) :
    Polled s dt (c :: cs) st [.error stop] (c' :: cs) st' tr

variable {P : Law H} {s : Setting} {dt : Float32} {cs cs' : List (Node H)}
  {st st' : Stage H} {tr : List (Entry H.Note)}

theorem polled_of_visits (before : List (Node H)) {results : List Status} {last : List Answer}
    (h : Visits (P.During s dt)
      (((results.map Except.ok ++ last).zipIdx before.length).map Prod.swap)
      (before ++ cs) st cs' st' tr)
    (hlast : last = [] ∧ results.length = cs.length ∨
      ∃ stop, last = [.error stop] ∧ results.length < cs.length) :
    ∃ ds, cs' = before ++ ds ∧ Polled s dt cs st (results.map .ok ++ last) ds st' tr := by
  induction results generalizing before cs st tr with
  | nil =>
    obtain ⟨rfl, hcs⟩ | ⟨stop, rfl, hcs⟩ := hlast
    · obtain rfl : cs = [] := List.length_eq_zero_iff.mp hcs.symm
      cases h
      exact ⟨[], rfl, .done⟩
    · obtain ⟨c, cs, rfl⟩ := List.exists_cons_of_length_pos hcs
      obtain ⟨c', st₁, tr₁, tr₂, hexecute, rfl, hrest⟩ := visits_head before h
      cases hrest
      rw [List.append_nil]
      exact ⟨c' :: cs, rfl, .stopped hexecute⟩
  | cons r results ih =>
    obtain ⟨c, cs, rfl⟩ : ∃ c cs', cs = c :: cs' := List.exists_cons_of_length_pos (by
      obtain ⟨-, hcs⟩ | ⟨-, -, hcs⟩ := hlast <;> simp only [List.length_cons] at hcs <;> omega)
    obtain ⟨c', st₁, tr₁, tr₂, hexecute, rfl, hrest⟩ := visits_head before h
    obtain ⟨ds, rfl, hpolled⟩ := ih (before ++ [c']) (by simpa using hrest)
      (by simpa using hlast)
    exact ⟨c' :: ds, by simp, .next hexecute hpolled⟩

theorem polled_of_votes {p q : Policy} {as : List Answer} {raw : Answer}
    (h : Visits (P.During s dt) (as.zipIdx.map Prod.swap) cs st cs' st' tr)
    (votes : Votes p q cs.length as raw) : Polled s dt cs st as cs' st' tr := by
  cases votes with
  | counted results all =>
    obtain ⟨ds, rfl, hpolled⟩ := polled_of_visits [] (by simpa using h)
      (.inl ⟨rfl, all⟩)
    simpa using hpolled
  | stopped results stop fewer =>
    obtain ⟨ds, rfl, hpolled⟩ := polled_of_visits [] h (.inr ⟨stop, rfl, fewer⟩)
    exact hpolled

theorem Polled.exists_active {as : List Answer} (h : Polled s dt cs st as cs' st' tr)
    (sound : ∀ c ∈ cs, c.Sound) (running : .ok .running ∈ as) : ∃ c ∈ cs', c.isActive = true := by
  induction h with
  | done => cases running
  | stopped => simp at running
  | @next c c' _ _ st _ _ r _ _ _ result _ ih =>
    obtain ⟨hc, hcs⟩ := List.forall_mem_cons.mp sound
    obtain hr | hrest := List.mem_cons.mp running
    · cases hr
      have hactive := isActive_execute s dt hc st .running (by rw [result])
      rw [result] at hactive
      exact ⟨c', by simp, hactive.mpr rfl⟩
    · obtain ⟨d, hd, hactive⟩ := ih hcs hrest
      exact ⟨d, List.mem_cons_of_mem _ hd, hactive⟩

inductive Polls (p q : Policy) (s : Setting) (dt : Float32) (n : Node H) :
    Outcome (Stage H) (Entry H.Note) (Answer × Node H) → Prop
  | mk {as : List Answer} {raw answer : Answer} {cs' : List (Node H)} {m : Node H}
    {st₁ st₂ st' : Stage H} {before tr after : List (Entry H.Note)} {v : View}
    (own : Mine n.id (calls before)) (polled : Polled s dt n.children st₁ as cs' st₂ tr)
    (votes : Votes p q n.children.length as raw)
    (running : raw = .ok .running → ∃ c ∈ cs', c.isActive = true)
    (stops : ∀ stop, raw = .error stop → answer = raw ∧ m.isActive = true)
    (keeps : m.isActive = true → m.children = cs') :
    Polls p q s dt n ⟨(answer, m), st', before ++ (tr ++ .hook v (.answered raw) :: after)⟩

end Node

theorem Behavior.eq_parallel {p q : Policy} {b : Behavior H} (h : b.make = .parallel p q) :
    b = .parallel p q := by
  cases b <;> cases h
  rfl

theorem Node.polls_execute {p q : Policy} (s : Setting) (dt : Float32) {n : Node H}
    (sound : n.Sound) (parallel : n.frame.behavior = .parallel p q) (st : Stage H)
    (passed : (Frame.guards s n.frame.view 0 n.frame.decorators st).value = true) :
    n.Polls p q s dt (n.execute s dt st) := by
  have hmade : n.frame.behavior.make = .parallel p q := congrArg Behavior.make parallel
  have htick := n.tick_execute s dt sound (by rw [hmade]; trivial) passed
  generalize n.execute s dt st = o at htick ⊢
  cases htick with
  | mk made _ own visits answers stops keeps =>
    rw [Behavior.eq_parallel (made.trans hmade)] at answers
    cases answers with
    | parallel ran =>
      obtain ⟨as, rfl, hvotes⟩ := ran.polls p q
      have hpolled := polled_of_votes visits hvotes
      exact .mk own hpolled hvotes
        (fun hraw => hpolled.exists_active sound.below (hraw ▸ hvotes).running) stops
        fun h => (keeps h).1

theorem Frame.course_parallel {p q : Policy} {n : Nat} {f : Frame H}
    (parallel : f.behavior = .parallel p q) :
    Course n f (fun rs => ∀ r ∈ rs, r.Polls p q n)
      (fun rs b => b = .parallel p q ∧ ∀ r ∈ rs, r.Polls p q n) where
  start := by
    rintro g started b drawn hplan ⟨s, v, st, hvalue, htrace⟩
    have hmake : g.behavior.make = .parallel p q :=
      (plan_eq_iff.mp hplan).2.trans (congrArg Behavior.make parallel)
    rw [Behavior.eq_parallel hmake] at hvalue htrace
    cases hvalue
    exact ⟨rfl, List.map_eq_nil_iff.mp htrace.symm, rfl, by simp⟩
  cut h := h.2
  round := by
    rintro dt rs ⟨log, raw⟩ b b' ⟨rfl, hrs⟩ answers
    cases answers with
    | parallel ran =>
      have hround := List.forall_mem_append.mpr ⟨hrs, List.forall_mem_singleton.mpr (ran.polls p q)⟩
      exact ⟨hround, fun _ => ⟨rfl, hround⟩⟩

/-- In every run each tick of a parallel node executes each child once, in order, up to one that
stops it, and the votes of this tick alone decide. A child that has finished starts anew. -/
theorem polls_of_play (ms : List (Move H)) {t : Rooted H} (idle : t.root.Idle)
    (distinct : t.root.ids.Nodup) (st : Stage H) {path : List Nat} {n : Node H}
    (hn : t.root.at? path = some n) {p q : Policy} (parallel : n.frame.behavior = .parallel p q) :
    ∃ (m : Node H) (past : List (List Round)) (now : List Round),
      (play ms t st).value.2.root.at? path = some m ∧ m.kids = n.kids ∧
      beats n.id n.kids (play ms t st).trace =
        past.flatMap fullStory ++ (if m.isActive then story now else []) ∧
      (∀ rs ∈ now :: past, ∀ r ∈ rs, r.Polls p q n.children.length) ∧
      ∀ (s : Setting) (dt : Float32) (st' : Stage H),
        ((Frame.guards s m.frame.view 0 m.frame.decorators st').value = true →
          m.Polls p q s dt (m.execute s dt st')) ∧
        ∀ c ∈ m.children,
          let o := c.execute s dt st'
          (∀ r, o.value.1 = .ok r → (o.value.2.isActive = true ↔ r = .running)) ∧
          (c.Begins s st' →
            .notice s.listener (.entered ⟨c.id, c.name, true, 0⟩ s.scope.elapsed) ∈ o.trace) := by
  obtain ⟨hs, past, now, hm, remains, -, hstory, hpast, hnow⟩ :=
    chronicled_play ms idle distinct st hn (Frame.course_parallel parallel)
  generalize (n.handle hs).1 = m at hm hstory hnow remains
  have hparallel : m.frame.behavior = .parallel p q := Behavior.eq_parallel
    ((Frame.plan_eq_iff.mp (Node.plan_eq_of_plans remains.plans)).2.trans
      (congrArg Behavior.make parallel))
  have hexecute (s : Setting) (dt : Float32) (st' : Stage H) :=
    And.intro (Node.polls_execute s dt remains.sound hparallel st')
      fun c hc => And.intro (Node.isActive_execute s dt (remains.sound.below c hc) st')
        fun begins : c.Begins s st' => begins.entered dt
  have hkids := Node.kids_eq_of_shape remains.shape
  by_cases hactive : m.isActive = true
  · exact ⟨m, past, now, hm, hkids, hstory,
      List.forall_mem_cons.mpr ⟨(hnow hactive).2, hpast⟩, hexecute⟩
  · exact ⟨m, past, [], hm, hkids, by simpa [hactive] using hstory,
      List.forall_mem_cons.mpr ⟨by simp, hpast⟩, hexecute⟩

def Rooted.polled : Rooted Host.echo :=
  { echo with
    root := .mk (.idle 3 "" (.parallel .all .any))
      [.mk (.idle 1 "" (.action .success)) [], .mk (.idle 2 "" (.action .running)) []] }

/-- The leaf that has succeeded is executed again in the second tick. -/
theorem polls_of_play_polled :
    let o := play [.execute 1, .execute 1] Rooted.polled Rooted.still
    let n := Rooted.polled.root
    let r : Round := ⟨[(0, .ok .success), (1, .ok .running)], .ok .running⟩
    (n.Idle ∧ n.ids.Nodup ∧ n.frame.behavior = .parallel .all .any) ∧
      o.value.2.root.activity = [true, false, true] ∧ beats 3 [1, 2] o.trace = story [r, r] ∧
      ∃ (past : List (List Round)) (now : List Round),
        story [r, r] = past.flatMap fullStory ++ story now ∧
        (∀ rs ∈ now :: past, ∀ r ∈ rs, r.Polls .all .any 2) ∧
        ∀ s dt st, o.value.2.root.Polls .all .any s dt (o.value.2.root.execute s dt st) := by
  intro o n r
  have hidle : n.Idle := by decide
  have hdistinct : n.ids.Nodup := by decide
  have hactivity : o.value.2.root.activity = [true, false, true] := by decide +kernel
  have hactive : o.value.2.root.isActive = true := by decide +kernel
  have hdecorators : o.value.2.root.frame.decorators = [] :=
    List.isEmpty_iff.mp (by decide +kernel)
  have hbeats : beats 3 [1, 2] o.trace = story [r, r] := by decide +kernel
  have hroot : n.at? [] = some n := rfl
  have h := polls_of_play [.execute 1, .execute 1] hidle hdistinct Rooted.still hroot rfl
  rw [show play [.execute 1, .execute 1] Rooted.polled Rooted.still = o from rfl] at h
  clear_value o
  obtain ⟨m, past, now, hm, -, hstory, hrounds, hexecute⟩ := h
  obtain rfl : o.value.2.root = m := Option.some.inj hm
  rw [if_pos hactive] at hstory
  have hpolls (s : Setting) (dt : Float32) (st : Stage Host.echo) :
      o.value.2.root.Polls .all .any s dt (o.value.2.root.execute s dt st) := by
    refine (hexecute s dt st).1 ?_
    rw [hdecorators]
    rfl
  exact ⟨⟨hidle, hdistinct, rfl⟩, hactivity, hbeats, past, now, hbeats.symm.trans hstory, hrounds,
    hpolls⟩

end TickTree
