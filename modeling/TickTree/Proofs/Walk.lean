import TickTree.Proofs.Frames
import TickTree.Node.Execute
/-! Which children a behavior executes in one tick, in which order, and how their answers make its
own. Each child is executed at most once, so that every execution starts from the child as it
stood before the tick. -/
namespace TickTree
variable {H : Host}

/-- A property of single executions: the node and the stage before, and the outcome. -/
abbrev Law (H : Host) :=
  Node H → Stage H → Outcome (Stage H) (Entry H.Note) (Answer × Node H) → Prop

abbrev Log := List (Nat × Answer)

/-- Children at different positions are executed one after the other, each as the law says. -/
inductive Visits (P : Law H) :
    Log → List (Node H) → Stage H → List (Node H) → Stage H → List (Entry H.Note) → Prop
  | nil {cs : List (Node H)} {st : Stage H} : Visits P [] cs st cs st []
  | cons {i : Nat} {a : Answer} {c c' : Node H} {log : Log} {cs cs' : List (Node H)}
    {st st₁ st₂ : Stage H} {tr tr' : List (Entry H.Note)}
    (fresh : i ∉ log.map Prod.fst) (child : cs[i]? = some c) (law : P c st ⟨(a, c'), st₁, tr⟩)
    (rest : Visits P log (cs.set i c') st₁ cs' st₂ tr') :
    Visits P ((i, a) :: log) cs st cs' st₂ (tr ++ tr')

namespace Node

theorem exists_split {cs : List (Node H)} {i : Nat} {c : Node H} (h : cs[i]? = some c) :
    ∃ before after, cs = before ++ c :: after ∧
      ∀ c', cs.set i c' = before ++ c' :: after := by
  induction cs generalizing i with
  | nil => simp at h
  | cons d cs ih =>
    cases i with
    | zero =>
      obtain rfl : d = c := by simpa using h
      exact ⟨[], cs, rfl, fun _ => rfl⟩
    | succ i =>
      obtain ⟨before, after, rfl, hset⟩ := ih (by simpa using h)
      exact ⟨d :: before, after, rfl, fun c' => by simp [hset]⟩

end Node

namespace Visits
variable {P : Law H} {log : Log} {cs cs' : List (Node H)} {st st' : Stage H}
  {tr : List (Entry H.Note)}

theorem length_eq (h : Visits P log cs st cs' st' tr) : cs'.length = cs.length := by
  induction h with
  | nil => rfl
  | cons _ _ _ _ ih => simpa using ih

theorem shift (h : Visits P log cs st cs' st' tr) (c : Node H) :
    Visits P (log.map fun x => (x.1 + 1, x.2)) (c :: cs) st (c :: cs') st' tr := by
  induction h with
  | nil => exact .nil
  | cons fresh child law _ ih =>
    refine .cons ?_ (by simpa using child) law (by simpa using ih)
    simpa [List.mem_map] using fresh

theorem forall_mem {q : Node H → Prop} (hq : ∀ c st o, P c st o → q c → q o.value.2)
    (h : Visits P log cs st cs' st' tr)
    (hcs : ∀ c ∈ cs, q c) : ∀ c ∈ cs', q c := by
  induction h with
  | nil => exact hcs
  | cons _ child law _ ih =>
    refine ih fun c hc => ?_
    obtain hc | rfl := List.mem_or_eq_of_mem_set hc
    · exact hcs c hc
    · exact hq _ _ _ law (hcs _ (List.mem_of_getElem? child))

theorem map_eq {α : Type} {g : Node H → α} (hg : ∀ c st o, P c st o → g o.value.2 = g c)
    (h : Visits P log cs st cs' st' tr) :
    cs'.map g = cs.map g := by
  induction h with
  | nil => rfl
  | @cons i a c c' _ _ _ _ _ _ _ _ _ child law _ ih =>
    obtain ⟨before, after, rfl, hset⟩ := Node.exists_split child
    rw [ih, hset]
    simp [hg _ _ _ law]

end Visits

namespace Branch

def Obeys (P : Law H) (b : Branch H) : Prop := ∀ st, P b.node st (b.run st)

/-- A walk over `order` passes positions while they answer `onward`. -/
inductive Walked (onward : Status) : List Nat → Log → Answer → Nat → Prop
  | done : Walked onward [] [] (.ok onward) 0
  | stop {i : Nat} {order : List Nat} {a : Answer} (h : a ≠ .ok onward) :
    Walked onward (i :: order) [(i, a)] a 0
  | pass {i : Nat} {order : List Nat} {log : Log} {a : Answer} {passed : Nat}
    (h : Walked onward order log a passed) :
    Walked onward (i :: order) ((i, .ok onward) :: log) a (passed + 1)

theorem Walked.mem_order {onward : Status} {order : List Nat} {log : Log} {a : Answer}
    {passed : Nat} (h : Walked onward order log a passed) :
    ∀ i ∈ log.map Prod.fst, i ∈ order := by
  induction h with
  | done => simp
  | stop => simp
  | pass _ ih =>
    intro j hj
    obtain rfl | hj := List.mem_cons.mp hj
    · simp
    · exact List.mem_cons_of_mem _ (ih j hj)

theorem Walked.answers {onward : Status} {order : List Nat} {log : Log} {a : Answer}
    {passed : Nat} (h : Walked onward order log a passed) :
    ∀ x ∈ log, x.2 = a ∨ ∃ r, x.2 = .ok r := by
  induction h with
  | done => simp
  | stop => simp
  | pass _ ih =>
    intro x hx
    obtain rfl | hx := List.mem_cons.mp hx
    · exact .inr ⟨_, rfl⟩
    · exact ih x hx

theorem Walked.passed_le {onward : Status} {order : List Nat} {log : Log} {a : Answer}
    {passed : Nat} (h : Walked onward order log a passed) : passed ≤ order.length := by
  induction h with
  | done => simp
  | stop => simp
  | pass _ ih => simpa using ih

theorem walk_spec {P : Law H} {onward : Status} {cursor : Nat} {order : List Nat}
    {bs : List (Branch H)} (hnodup : order.Nodup) (hlt : ∀ i ∈ order, i < bs.length)
    (hP : ∀ i ∈ order, ∀ b, bs[i]? = some b → b.Obeys P) {st st' : Stage H} {a : Answer}
    {cursor' : Nat} {bs' : List (Branch H)} {tr : List (Entry H.Note)}
    (h : walk onward cursor order bs st = ⟨(a, cursor', bs'), st', tr⟩) :
    ∃ log passed, Walked onward order log a passed ∧ cursor' = cursor + passed ∧
      Visits P log (bs.map (·.node)) st (bs'.map (·.node)) st' tr := by
  induction order generalizing cursor bs st tr with
  | nil =>
    cases h
    exact ⟨[], 0, .done, rfl, .nil⟩
  | cons i order ih =>
    obtain ⟨hi, hnodup⟩ := List.nodup_cons.mp hnodup
    obtain ⟨b, hb⟩ : ∃ b, bs[i]? = some b := ⟨_, List.getElem?_eq_getElem (hlt i (by simp))⟩
    have hlaw := hP i (by simp) b hb st
    have hnode : (bs.map (·.node))[i]? = some b.node := by simp [hb]
    rw [walk, hb] at h
    rcases hr : b.run st with ⟨⟨answer, n⟩, st₁, tr₁⟩
    rw [hr] at hlaw
    have hset : (bs.set i (b.done n)).map (·.node) = (bs.map (·.node)).set i n := by
      rw [List.map_set]; rfl
    simp only [Traced.bind_apply, hr] at h
    by_cases ha : answer = .ok onward
    · -- the positions still to come are untouched by the branch just executed
      subst ha
      rw [if_pos rfl] at h
      have hP' : ∀ j ∈ order, ∀ b', (bs.set i (b.done n))[j]? = some b' → b'.Obeys P := by
        intro j hj b' hb'
        have hij : i ≠ j := fun e => hi (e ▸ hj)
        rw [List.getElem?_set_ne hij] at hb'
        exact hP j (List.mem_cons_of_mem _ hj) b' hb'
      rcases hw : walk onward (cursor + 1) order (bs.set i (b.done n)) st₁ with ⟨x, st₂, tr₂⟩
      rw [hw] at h
      cases h
      obtain ⟨log, passed, hwalk, rfl, hvisits⟩ := ih hnodup
        (fun j hj => by simpa using hlt j (List.mem_cons_of_mem _ hj)) hP' hw
      rw [hset] at hvisits
      exact ⟨_, passed + 1, .pass hwalk, by omega,
        .cons (fun hm => hi (hwalk.mem_order i hm)) hnode hlaw hvisits⟩
    · rw [if_neg ha] at h
      cases h
      refine ⟨[(i, a)], 0, .stop ha, rfl, ?_⟩
      rw [hset]
      exact .cons (by simp) hnode hlaw .nil

inductive RanAll : Nat → Log → Except Stop (List Status) → Prop
  | all (results : List Status) :
    RanAll results.length (results.zipIdx.map fun x => (x.2, .ok x.1)) (.ok results)
  | stop (results : List Status) (stop : Stop) (more : Nat) :
    RanAll (results.length + 1 + more)
      (results.zipIdx.map (fun x => (x.2, .ok x.1)) ++ [(results.length, .error stop)])
      (.error stop)

theorem RanAll.answers {n : Nat} {log : Log} {res : Except Stop (List Status)}
    (h : RanAll n log res) : ∀ x ∈ log, (∃ stop, res = .error stop ∧ x.2 = .error stop) ∨
      ∃ r, x.2 = .ok r := by
  intro x hx
  cases h with
  | all =>
    obtain ⟨y, -, rfl⟩ := List.mem_map.mp hx
    exact .inr ⟨y.1, rfl⟩
  | stop =>
    obtain hx | hx := List.mem_append.mp hx
    · obtain ⟨y, -, rfl⟩ := List.mem_map.mp hx
      exact .inr ⟨y.1, rfl⟩
    · rw [List.mem_singleton.mp hx]
      exact .inl ⟨_, rfl, rfl⟩

theorem RanAll.cons {n : Nat} {log : Log} {res : Except Stop (List Status)} (r : Status)
    (h : RanAll n log res) :
    RanAll (n + 1) ((0, .ok r) :: log.map fun x => (x.1 + 1, x.2)) (res.map (r :: ·)) := by
  cases h with
  | all results =>
    have h := RanAll.all (r :: results)
    simpa [List.zipIdx_cons, List.zipIdx_succ, Function.comp_def, Except.map] using h
  | stop results stop more =>
    have h := RanAll.stop (r :: results) stop more
    simp only [List.length_cons] at h
    rw [show results.length + 1 + 1 + more = results.length + 1 + more + 1 by omega] at h
    simpa [List.zipIdx_cons, List.zipIdx_succ, Function.comp_def, Except.map] using h

theorem runAll_spec {P : Law H} {bs : List (Branch H)} (hP : ∀ b ∈ bs, b.Obeys P)
    {st st' : Stage H} {res : Except Stop (List Status)} {bs' : List (Branch H)}
    {tr : List (Entry H.Note)} (h : runAll bs st = ⟨(res, bs'), st', tr⟩) :
    ∃ log, RanAll bs.length log res ∧
      Visits P log (bs.map (·.node)) st (bs'.map (·.node)) st' tr := by
  induction bs generalizing st res bs' tr with
  | nil =>
    cases h
    exact ⟨[], .all [], .nil⟩
  | cons b bs ih =>
    have hlaw := hP b (by simp) st
    rcases hr : b.run st with ⟨⟨answer, n⟩, st₁, tr₁⟩
    rw [hr] at hlaw
    simp only [runAll, Traced.bind_apply, hr] at h
    cases answer with
    | error stop =>
      cases h
      refine ⟨[(0, .error stop)], ?_, .cons (by simp) (by simp) hlaw .nil⟩
      have h := RanAll.stop [] stop bs.length
      simpa [Nat.add_comm] using h
    | ok r =>
      rcases ha : runAll bs st₁ with ⟨⟨res₁, bs₁⟩, st₂, tr₂⟩
      simp only [Traced.bind_apply, ha] at h
      cases h
      obtain ⟨log, hran, hvisits⟩ := ih (fun b hb => hP b (List.mem_cons_of_mem _ hb)) ha
      refine ⟨_, hran.cons r, ?_⟩
      rw [Traced.pure_apply, List.append_nil]
      exact .cons (by simp) (by simp) hlaw (hvisits.shift n)

theorem runFirst_spec {P : Law H} {bs : List (Branch H)} (hP : ∀ b ∈ bs, b.Obeys P)
    {st st' : Stage H} {res : Option Answer} {bs' : List (Branch H)}
    {tr : List (Entry H.Note)} (h : runFirst bs st = ⟨(res, bs'), st', tr⟩) :
    (bs = [] ∧ res = none ∧ Visits P [] [] st (bs'.map (·.node)) st' tr) ∨
      ∃ a, res = some a ∧ Visits P [(0, a)] (bs.map (·.node)) st (bs'.map (·.node)) st' tr := by
  cases bs with
  | nil =>
    cases h
    exact .inl ⟨rfl, rfl, .nil⟩
  | cons b bs =>
    have hlaw := hP b (by simp) st
    rcases hr : b.run st with ⟨⟨answer, n⟩, st₁, tr₁⟩
    rw [hr] at hlaw
    simp only [runFirst, Traced.bind_apply, hr] at h
    cases h
    exact .inr ⟨_, rfl, .cons (by simp) (by simp) hlaw .nil⟩

end Branch
end TickTree
