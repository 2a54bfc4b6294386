import TickTree.Proofs.Calls
import TickTree.Proofs.Walk
/-! What one execution of a node can do, part by part, and the induction over trees that goes with
it: a law that follows for a node from the same law for its children holds of every execution. -/
namespace TickTree
variable {H : Host}

namespace Behavior

def Fits (children : Nat) : Behavior H → Prop
  | selector cursor | sequence cursor => cursor ≤ children
  | randomSelector cursor order => cursor ≤ children ∧ order.Perm (List.range children)
  | _ => True

/-- How a tick of `dt` of a behavior over `n` children goes from one answer of each child executed
to its own answer. -/
inductive Answers (dt : Float32) (n : Nat) : Behavior H → Log → Answer → Behavior H → Prop
  | selector {cursor passed : Nat} {log : Log} {a : Answer}
    (h : Branch.Walked .failure ((List.range n).drop cursor) log a passed) :
    Answers dt n (.selector cursor) log a (.selector (cursor + passed))
  | randomSelector {cursor passed : Nat} {order : List Nat} {log : Log} {a : Answer}
    (h : Branch.Walked .failure (order.drop cursor) log a passed) :
    Answers dt n (.randomSelector cursor order) log a (.randomSelector (cursor + passed) order)
  | parallel {p q : Policy} {log : Log} {results : Except Stop (List Status)}
    (h : Branch.RanAll n log results) :
    Answers dt n (.parallel p q) log (results.map (vote p q)) (.parallel p q)
  | sequence {cursor passed : Nat} {log : Log} {a : Answer}
    (h : Branch.Walked .success ((List.range n).drop cursor) log a passed) :
    Answers dt n (.sequence cursor) log a (.sequence (cursor + passed))
  | relay {a : Answer} : Answers dt n .relay [(0, a)] a .relay
  | relayNone (h : n = 0) : Answers dt n .relay [] (.ok .running) .relay
  | repeater {r : Repeater} {child : Status} :
    Answers dt n (.repeater r) [(0, .ok child)] (.ok (r.step child).1) (.repeater (r.step child).2)
  | repeaterStop {r : Repeater} {stop : Stop} :
    Answers dt n (.repeater r) [(0, .error stop)] (.error stop) (.repeater r)
  | repeaterNone {r : Repeater} (h : n = 0) :
    Answers dt n (.repeater r) [] (.ok .failure) (.repeater r)
  | action {a a' : H.Action} {answer : Except Fault Status} :
    Answers dt n (.action a) [] (answer.mapError .failed) (.action a')
  | condition {c c' : H.Condition} {holds : Bool} :
    Answers dt n (.condition c) [] (.ok (.ofBool holds)) (.condition c')
  | wait {w : Wait} : Answers dt n (.wait w) [] (.ok (w.tick dt).1) (.wait (w.tick dt).2)

theorem Answers.log_answers {dt : Float32} {n : Nat} {b b' : Behavior H} {log : Log} {a : Answer}
    (h : Answers dt n b log a b') : ∀ x ∈ log, x.2 = a ∨ ∃ r, x.2 = .ok r := by
  cases h with
  | selector h | randomSelector h | sequence h => exact h.answers
  | parallel h =>
    intro x hx
    obtain ⟨stop, rfl, hx⟩ | hx := h.answers x hx
    · exact .inl hx
    · exact .inr hx
  | _ => simp

theorem Answers.fits {dt : Float32} {n : Nat} {b b' : Behavior H} {log : Log} {a : Answer}
    (h : Answers dt n b log a b') (hb : b.Fits n) : b'.Fits n := by
  cases h with
  | selector h | sequence h =>
    have := h.passed_le
    rw [List.length_drop, List.length_range] at this
    simp only [Fits] at hb ⊢
    omega
  | randomSelector h =>
    have := h.passed_le
    rw [List.length_drop, hb.2.length_eq, List.length_range] at this
    obtain ⟨hc, hp⟩ := hb
    exact ⟨by omega, hp⟩
  | _ => exact hb

theorem start_fits (s : Setting) (v : View) (n : Nat) (b : Behavior H) (st : Stage H) :
    (b.start s v n st).value.2.Fits n := by
  cases b with
  | selector cursor | sequence cursor => exact Nat.zero_le _
  | randomSelector cursor order => exact ⟨Nat.zero_le _, perm_arrange _ _⟩
  | wait w =>
    rw [start, Traced.bind_apply, Traced.get_apply]
    generalize w.start st.rng = x
    obtain ⟨started, w, rng⟩ := x
    cases started with
    | error p => trivial
    | ok u => by_cases hw : w.draws = true <;> simp [hw, Fits]
  | _ => trivial

inductive Ticks (P : Law H) (v : View) (dt : Float32) (b : Behavior H) (cs : List (Node H))
    (st : Stage H) :
    Outcome (Stage H) (Entry H.Note) (Answer × Behavior H × List (Node H)) → Prop
  | mk {raw : Answer} {b' : Behavior H} {cs' : List (Node H)} {log : Log} {st₁ st' : Stage H}
    {tr' : List (Entry H.Note)} (tr : List (Entry H.Note)) (tables : st₁.tables = st.tables)
    (own : ∀ e ∈ calls tr, ∃ cursor, e = .hook v (.resumed cursor))
    (visits : Visits P log cs st₁ cs' st' tr') (answers : Answers dt cs.length b log raw b') :
    Ticks P v dt b cs st ⟨(raw, b', cs'), st', tr ++ tr'⟩

theorem Ticks.leaf {P : Law H} {v : View} {dt : Float32} {b b' : Behavior H} {cs : List (Node H)}
    {st st' : Stage H} {raw : Answer} {tr : List (Entry H.Note)} (tables : st'.tables = st.tables)
    (own : calls tr = []) (answers : Answers dt cs.length b [] raw b') :
    Ticks P v dt b cs st ⟨(raw, b', cs), st', tr⟩ := by
  rw [← List.append_nil tr]
  exact .mk tr tables (by simp [own]) .nil answers

theorem Ticks.visit {P : Law H} {v : View} {dt : Float32} {b b' : Behavior H}
    {cs cs' : List (Node H)} {log : Log} {st st' : Stage H} {raw : Answer}
    {tr : List (Entry H.Note)} (visits : Visits P log cs st cs' st' tr)
    (answers : Answers dt cs.length b log raw b') :
    Ticks P v dt b cs st ⟨(raw, b', cs'), st', tr⟩ :=
  .mk [] rfl (by simp) visits answers

theorem nodup_drop_range (n cursor : Nat) : ((List.range n).drop cursor).Nodup :=
  List.nodup_range.sublist (List.drop_sublist _ _)

theorem tick_spec {P : Law H} (s : Setting) (v : View) (dt : Float32) {b b' : Behavior H}
    {bs bs' : List (Branch H)} (hb : b.Fits bs.length) (hP : ∀ b ∈ bs, b.Obeys P)
    {st st' : Stage H} {raw : Answer} {tr : List (Entry H.Note)}
    (h : b.tick s v dt bs st = ⟨(raw, b', bs'), st', tr⟩) :
    Ticks P v dt b (bs.map (·.node)) st ⟨(raw, b', bs'.map (·.node)), st', tr⟩ := by
  have hn : (bs.map (·.node)).length = bs.length := List.length_map ..
  have hP' : ∀ i : Nat, ∀ b, bs[i]? = some b → b.Obeys P := fun i b hi =>
    hP b (List.mem_of_getElem? hi)
  cases b with
  | selector cursor =>
    rcases hw : Branch.walk .failure cursor ((List.range bs.length).drop cursor) bs st with
      ⟨⟨a, cursor', bs₁⟩, st₁, tr₁⟩
    simp only [tick, Traced.bind_apply, hw, Traced.pure_apply, List.append_nil] at h
    obtain ⟨log, passed, hwalk, rfl, hvisits⟩ := Branch.walk_spec (nodup_drop_range _ _)
      (fun i hi => by simpa using List.mem_of_mem_drop hi) (fun i _ => hP' i) hw
    cases h
    exact .visit hvisits (.selector (by rwa [hn]))
  | randomSelector cursor order =>
    rcases hw : Branch.walk .failure cursor (order.drop cursor) bs st with
      ⟨⟨a, cursor', bs₁⟩, st₁, tr₁⟩
    simp only [tick, Traced.bind_apply, hw, Traced.pure_apply, List.append_nil] at h
    have hnodup : order.Nodup := hb.2.nodup_iff.mpr List.nodup_range
    obtain ⟨log, passed, hwalk, rfl, hvisits⟩ := Branch.walk_spec
      (hnodup.sublist (List.drop_sublist _ _))
      (fun i hi => by simpa using hb.2.mem_iff.mp (List.mem_of_mem_drop hi)) (fun i _ => hP' i) hw
    cases h
    exact .visit hvisits (.randomSelector hwalk)
  | parallel p q =>
    rcases hr : Branch.runAll bs st with ⟨⟨results, bs₁⟩, st₁, tr₁⟩
    simp only [tick, Traced.bind_apply, hr, Traced.pure_apply, List.append_nil] at h
    obtain ⟨log, hran, hvisits⟩ := Branch.runAll_spec hP hr
    cases h
    exact .visit hvisits (.parallel (by rwa [hn]))
  | sequence cursor =>
    rcases hw : Branch.walk .success cursor ((List.range bs.length).drop cursor) bs st with
      ⟨⟨a, cursor', bs₁⟩, st₁, tr₁⟩
    simp only [tick, Traced.bind_apply, Exec.hook_apply, hw, Traced.pure_apply,
      List.append_nil] at h
    obtain ⟨log, passed, hwalk, rfl, hvisits⟩ := Branch.walk_spec (nodup_drop_range _ _)
      (fun i hi => by simpa using List.mem_of_mem_drop hi) (fun i _ => hP' i) hw
    cases h
    exact .mk [.hook v (.resumed cursor)] rfl (by simp) hvisits (.sequence (by rwa [hn]))
  | relay =>
    rcases hr : Branch.runFirst bs st with ⟨⟨answer, bs₁⟩, st₁, tr₁⟩
    simp only [tick, Traced.bind_apply, hr, Traced.pure_apply, List.append_nil] at h
    cases h
    obtain ⟨rfl, rfl, hvisits⟩ | ⟨a, rfl, hvisits⟩ := Branch.runFirst_spec hP hr
    · exact .visit hvisits (.relayNone rfl)
    · exact .visit hvisits .relay
  | repeater r =>
    rcases hr : Branch.runFirst bs st with ⟨⟨answer, bs₁⟩, st₁, tr₁⟩
    simp only [tick, Traced.bind_apply, hr] at h
    obtain ⟨rfl, rfl, hvisits⟩ | ⟨a, rfl, hvisits⟩ := Branch.runFirst_spec hP hr
    · simp only [Traced.pure_apply, List.append_nil] at h
      cases h
      exact .visit hvisits (.repeaterNone rfl)
    · cases a with
      | error stop =>
        simp only [Traced.pure_apply, List.append_nil] at h
        cases h
        exact .visit hvisits .repeaterStop
      | ok child =>
        simp only [Traced.pure_apply, List.append_nil] at h
        cases h
        exact .visit hvisits .repeater
  | action a =>
    simp only [tick, Traced.bind_apply, Exec.reach_apply, Traced.pure_apply] at h
    cases h
    exact .leaf rfl (by simp) .action
  | condition c =>
    simp only [tick, Traced.bind_apply, Exec.look_apply, Traced.pure_apply] at h
    cases h
    exact .leaf rfl (by simp) .condition
  | wait w =>
    cases h
    exact .leaf rfl rfl .wait

end Behavior

namespace Frame

def aged (f : Frame H) (dt : Float32) : Frame H := { f with time := f.time + dt }

inductive Resolves (s : Setting) (dt : Float32) (f : Frame H) (cs : List (Node H)) (st : Stage H) :
    Answer → Outcome (Stage H) (Entry H.Note) (Answer × Node H) → Prop
  | stopped {stop : Stop} : Resolves s dt f cs st (.error stop) ⟨(.error stop, .mk f cs), st, []⟩
  | kept {raw : Status} {st' : Stage H} {tr : List (Entry H.Note)}
    (modified : modify s f.view dt 0 f.decorators raw st = ⟨.running, st', tr⟩) :
    Resolves s dt f cs st (.ok raw) ⟨(.ok .running, .mk (f.aged dt) cs), st', tr⟩
  | concluded {raw result : Status} {n : Node H} {st₁ st' : Stage H} {tr tr' : List (Entry H.Note)}
    (modified : modify s f.view dt 0 f.decorators raw st = ⟨result, st₁, tr⟩)
    (terminal : result.isTerminal = true)
    (concluded : (f.aged dt).conclude s result cs st₁ = ⟨n, st', tr'⟩) :
    Resolves s dt f cs st (.ok raw) ⟨(.ok result, n), st', tr ++ tr'⟩

/-- One execution of a node whose children are executed as the law says. -/
inductive Executes (P : Law H) (s : Setting) (dt : Float32) (f : Frame H) (cs : List (Node H))
    (st : Stage H) : Outcome (Stage H) (Entry H.Note) (Answer × Node H) → Prop
  | refused {n : Node H} {st₁ st' : Stage H} {tr tr' : List (Entry H.Note)}
    (guarded : guards s f.view 0 f.decorators st = ⟨false, st₁, tr⟩)
    (aborted : (Node.mk f cs).abort s st₁ = ⟨n, st', tr'⟩) :
    Executes P s dt f cs st ⟨(.ok .failure, n), st',
      .hook f.view (.executed dt) :: (tr ++ (.report (.guardedOut f.view) :: (tr' ++
        [.hook n.view (.returned (.ok .failure))])))⟩
  | panicked {p : Panic} {f' : Frame H} {st₁ st' : Stage H} {tr tr' : List (Entry H.Note)}
    (guarded : guards s f.view 0 f.decorators st = ⟨true, st₁, tr⟩)
    (activated : f.activate s cs.length st₁ = ⟨(.error p, f'), st', tr'⟩) :
    Executes P s dt f cs st ⟨(.error (.panicked p), .mk f' cs), st',
      .hook f.view (.executed dt) :: (tr ++ (tr' ++
        [.hook f'.view (.returned (.error (.panicked p)))]))⟩
  | ticked {f' : Frame H} {as : List (Attachment H)} {raw answer : Answer} {b : Behavior H}
    {cs' : List (Node H)} {n : Node H} {st₁ st₂ st₃ st₄ st' : Stage H}
    {tr₁ tr₂ tr₃ tr₄ tr₅ : List (Entry H.Note)}
    (guarded : guards s f.view 0 f.decorators st = ⟨true, st₁, tr₁⟩)
    (activated : f.activate s cs.length st₁ = ⟨(.ok (), f'), st₂, tr₂⟩)
    (served : serve s f'.view dt 0 f'.services st₂ = ⟨as, st₃, tr₃⟩)
    (fits : f'.behavior.Fits cs.length)
    (ticked : f'.behavior.Ticks P f'.view dt cs st₃ ⟨(raw, b, cs'), st₄, tr₄⟩)
    (resolved : { f' with services := as, behavior := b }.Resolves s dt cs' st₄ raw
      ⟨(answer, n), st', tr₅⟩) :
    Executes P s dt f cs st ⟨(answer, n), st',
      .hook f.view (.executed dt) :: (tr₁ ++ (tr₂ ++ (tr₃ ++ (.hook f'.view (.ticked dt) :: (tr₄ ++
        (.hook f'.view (.answered raw) :: (tr₅ ++ [.hook n.view (.returned answer)])))))))⟩

theorem activate_fits {s : Setting} {n : Nat} {f f' : Frame H} {started : Except Panic Unit}
    {st st' : Stage H} {tr : List (Entry H.Note)} (hf : f.active = true → f.behavior.Fits n)
    (h : f.activate s n st = ⟨(started, f'), st', tr⟩) : f'.behavior.Fits n := by
  rw [activate] at h
  by_cases ha : f.active = true
  · rw [if_pos ha] at h
    cases h
    exact hf ha
  · rw [if_neg ha] at h
    have hb := f.behavior.start_fits s (f.begun f.behavior).view n st
    rcases hx : f.behavior.start s (f.begun f.behavior).view n st with ⟨⟨outcome, b⟩, st₁, tr₁⟩
    rw [hx] at hb
    simp only [begun, view] at hx
    simp only [Traced.bind_apply, Exec.notify_apply, Exec.hook_apply, view, hx] at h
    cases outcome with
    | error p => cases h; exact hb
    | ok u => cases h; exact hb

theorem advance_spec {P : Law H} (s : Setting) (dt : Float32) {f : Frame H}
    {bs : List (Branch H)} (hf : f.behavior.Fits bs.length) (hP : ∀ b ∈ bs, b.Obeys P)
    (st : Stage H) :
    ∃ as raw b cs' n answer st₁ st₂ st' tr₁ tr₂ tr₃,
      serve s f.view dt 0 f.services st = ⟨as, st₁, tr₁⟩ ∧
      f.behavior.Ticks P f.view dt (bs.map (·.node)) st₁ ⟨(raw, b, cs'), st₂, tr₂⟩ ∧
      { f with services := as, behavior := b }.Resolves s dt cs' st₂ raw ⟨(answer, n), st', tr₃⟩ ∧
      f.advance s dt bs st = ⟨(answer, n), st', tr₁ ++ (.hook f.view (.ticked dt) :: (tr₂ ++
        (.hook f.view (.answered raw) :: tr₃)))⟩ := by
  rcases hs : serve s f.view dt 0 f.services st with ⟨as, st₁, tr₁⟩
  rcases ht : f.behavior.tick s f.view dt bs st₁ with ⟨⟨raw, b, bs'⟩, st₂, tr₂⟩
  have hticks := Behavior.tick_spec s f.view dt hf hP ht
  cases raw with
  | error stop =>
    refine ⟨as, _, b, _, _, _, st₁, st₂, st₂, tr₁, tr₂, [], rfl, hticks, .stopped, ?_⟩
    simp only [view] at hs ht ⊢
    simp only [advance, Traced.bind_apply, Exec.hook_apply, view, hs, ht, Traced.pure_apply]
    simp
  | ok raw =>
    rcases hm : modify s f.view dt 0 f.decorators raw st₂ with ⟨result, st₃, tr₃⟩
    by_cases hr : result.isTerminal = true
    · rcases hc : ({ f with services := as, behavior := b }.aged dt).conclude s result
        (bs'.map Branch.node) st₃ with ⟨n, st₄, tr₄⟩
      refine ⟨as, _, b, _, _, _, st₁, st₂, st₄, tr₁, tr₂, tr₃ ++ tr₄, rfl, hticks,
        .concluded hm hr hc, ?_⟩
      simp only [view, aged] at hs ht hm hc ⊢
      simp only [advance, Traced.bind_apply, Exec.hook_apply, view, hs, ht, hm, hr, hc,
        Traced.pure_apply, if_true]
      simp
    · obtain rfl : result = .running := by simpa using hr
      refine ⟨as, _, b, _, _, _, st₁, st₂, st₃, tr₁, tr₂, tr₃, rfl, hticks, .kept hm, ?_⟩
      simp only [view] at hs ht hm ⊢
      simp only [advance, Traced.bind_apply, Exec.hook_apply, view, hs, ht, hm, hr]
      simp [aged]

theorem execute_spec {P : Law H} (s : Setting) (dt : Float32) {f : Frame H}
    {bs : List (Branch H)} (hf : f.active = true → f.behavior.Fits bs.length)
    (hP : ∀ b ∈ bs, b.Obeys P) (st : Stage H) :
    f.Executes P s dt (bs.map (·.node)) st (f.execute s dt bs st) := by
  have hlen : (bs.map (·.node)).length = bs.length := List.length_map ..
  rcases hg : guards s f.view 0 f.decorators st with ⟨passed, st₁, tr₁⟩
  cases passed with
  | false =>
    rcases ha : (Node.mk f (bs.map (·.node))).abort s st₁ with ⟨n, st₂, tr₂⟩
    have h : f.Executes P s dt (bs.map (·.node)) st _ := .refused hg ha
    simpa [execute, run, hg, ha] using h
  | true =>
    rcases ha : f.activate s bs.length st₁ with ⟨⟨started, f'⟩, st₂, tr₂⟩
    have ha' := ha
    rw [← hlen] at ha'
    cases started with
    | error p =>
      have h : f.Executes P s dt (bs.map (·.node)) st _ := .panicked hg ha'
      simpa [execute, run, hg, ha] using h
    | ok u =>
      have hfits := activate_fits hf ha
      obtain ⟨as, raw, b, cs', n, answer, st₃, st₄, st₅, tr₃, tr₄, tr₅, hs, ht, hr, hadvance⟩ :=
        advance_spec s dt hfits hP st₂
      have h := Executes.ticked hg ha' hs (by rwa [hlen]) ht hr
      simpa [execute, run, hg, ha, hadvance] using h

end Frame

namespace Node

def Sound (n : Node H) : Prop :=
  n.All fun f cs => f.active = true → f.behavior.Fits cs.length

theorem sound_of_idle {n : Node H} (h : n.Idle) : n.Sound :=
  all_of_idle (fun f cs hf _ ha => by simp [hf] at ha) h

end Node

abbrev Law.During (P : Law H) (s : Setting) (dt : Float32) : Law H := fun n st o =>
  P n st o ∧ n.Sound ∧ o = n.execute s dt st

/-- A law holds of all executions if it holds of those whose children obey it. -/
theorem Node.execute_rule {P : Law H} {s : Setting} {dt : Float32}
    (step : ∀ f cs st o, (mk f cs).Sound → o = (mk f cs).execute s dt st →
      f.Executes (P.During s dt) s dt cs st o → P (mk f cs) st o)
    {n : Node H} (h : n.Sound) (st : Stage H) : P n st (n.execute s dt st) := by
  induction n generalizing st with
  | mk f cs ih =>
    obtain ⟨hf, hcs⟩ := all_mk.mp h
    refine step f cs st _ h rfl ?_
    -- a branch holds the execution of its child, which obeys the law by induction
    have hP : ∀ b ∈ branches s dt cs, b.Obeys (P.During s dt) := by
      refine forall_mem_branches.mpr fun c hc st => ?_
      exact ⟨ih c hc (hcs c hc) st, hcs c hc, rfl⟩
    have := Frame.execute_spec s dt (by rwa [length_branches]) hP st (f := f)
    rwa [map_node_branches] at this

end TickTree
