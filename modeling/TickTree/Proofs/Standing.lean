import TickTree.Proofs.Firmness
import TickTree.Proofs.Upholding
/-! Where selectors stand. Of the children of a selector at most the one at its cursor is active, and
a tick begins with that child. -/
namespace TickTree
variable {H : Host}

namespace Branch

theorem Walked.last {onward : Status} {order : List Nat} {log : Log} {a : Answer} {passed : Nat}
    (h : Walked onward order log a passed) {i : Nat} {b : Answer} (hi : (i, b) ∈ log)
    (hb : b ≠ .ok onward) : order[passed]? = some i := by
  induction h with
  | done => cases hi
  | stop =>
    obtain ⟨rfl, rfl⟩ : i = _ ∧ b = _ := by simpa using hi
    rfl
  | pass _ ih =>
    obtain hi | hi := List.mem_cons.mp hi
    · cases hi
      exact absurd rfl hb
    · exact ih hi

theorem Walked.first {onward : Status} {i : Nat} {order : List Nat} {log : Log} {a : Answer}
    {passed : Nat} (h : Walked onward (i :: order) log a passed) : i ∈ log.map Prod.fst := by
  cases h <;> simp

theorem walk_outside (onward : Status) {i : Nat} {order : List Nat} (hi : i ∉ order)
    (bs : List (Branch H)) (cursor : Nat) (st : Stage H) :
    (walk onward cursor order bs st).value.2.2[i]? = bs[i]? := by
  induction order generalizing bs cursor st with
  | nil => rfl
  | cons j order ih =>
    obtain ⟨hij, hi⟩ := List.ne_and_not_mem_of_not_mem_cons hi
    rw [walk]
    cases bs[j]? with
    | none => rfl
    | some b =>
      have hset (c : Branch H) : (bs.set j c)[i]? = bs[i]? := List.getElem?_set_ne (Ne.symm hij)
      dsimp only
      rw [Traced.bind_apply]
      dsimp only
      split
      · exact (ih hi _ _ _).trans (hset _)
      · exact hset _

end Branch

namespace Node

def Stands (n : Node H) : Prop := ∀ cursor, n.frame.behavior = .selector cursor →
  ∀ i c, n.children[i]? = some c → c.isActive = true → n.isActive = true ∧ i = cursor

theorem stands_of_inactive {n : Node H} (h : ∀ c ∈ n.children, c.isActive = false) : n.Stands := by
  intro cursor _ i c hi hc
  rw [h c (List.mem_of_getElem? hi)] at hc
  cases hc

theorem Closed.inactive {f : Frame H} {cs : List (Node H)} (h : (mk f cs).Closed)
    (hf : f.active = false) : ∀ c ∈ cs, c.isActive = false := (all_mk.mp h).1 hf

theorem Closed.isActive_of_child {n : Node H} (h : n.Closed) {i : Nat} {c : Node H}
    (hi : n.children[i]? = some c) (hc : c.isActive = true) : n.isActive = true := by
  obtain ⟨f, cs⟩ := n
  by_contra hf
  rw [h.inactive (by simpa [isActive] using hf) c (List.mem_of_getElem? hi)] at hc
  cases hc

theorem stands_of_idle {n : Node H} (h : n.Idle) : n.Stands := by
  obtain ⟨f, cs⟩ := n
  exact stands_of_inactive fun c hc => isActive_of_idle (h.below c hc)

theorem stands_settle {n : Node H} (h : n.Closed) : n.settle.Stands := by
  refine stands_of_inactive fun c hc => ?_
  cases hn : n.settle with
  | mk f cs =>
    have hclosed : (mk f cs).Closed := hn ▸ closed_settle h
    have hidle : f.active = false := by
      have := n.isActive_settle
      rw [hn] at this
      exact this
    rw [hn] at hc
    exact hclosed.inactive hidle c hc

theorem stands_execute (s : Setting) (dt : Float32) {n : Node H} (h : n.Sound) (hn : n.Closed)
    (hstands : n.Stands) (st : Stage H) : (n.execute s dt st).value.2.Stands := by
  let P : Law H := fun n _ o => n.Closed → n.Stands → o.value.2.Stands
  refine execute_rule (P := P) (fun f cs st o hs _ h hn hstands => ?_) h st hn hstands
  cases h with
  | refused guarded aborted =>
    obtain ⟨rfl, -⟩ := abort_eq aborted
    exact stands_settle hn
  | panicked guarded activated =>
    obtain ⟨h, -⟩ | ⟨_, _, _, -, hidle, -⟩ := Frame.activate_spec activated
    · cases h
    · exact stands_of_inactive (hn.inactive hidle)
  | @ticked f' as raw answer b cs' n st₁ st₂ st₃ st₄ st' tr₁ tr₂ tr₃ tr₄ tr₅ guarded activated
      served fits ticked resolved =>
    obtain ⟨hbehavior, hactive, hchildren⟩ | ⟨-, hchildren⟩ := resolved.children
    swap
    · refine stands_of_inactive fun c hc => ?_
      rw [hchildren] at hc
      obtain ⟨c, -, rfl⟩ := List.mem_map.mp hc
      exact c.isActive_settle
    obtain ⟨-, hop⟩ | ⟨_, _, _, h, -⟩ := Frame.activate_spec activated
    swap
    · cases h
    intro cursor hcursor i c' hi hc'
    obtain rfl : b = .selector cursor := hbehavior.symm.trans hcursor
    have hchild : cs'[i]? = some c' := by rwa [hchildren] at hi
    refine ⟨hactive.trans hop.active_eq, ?_⟩
    cases ticked with
    | @mk _ _ _ log _ _ _ _ _ _ visits answers =>
      generalize hb : f'.behavior = b at answers
      cases answers with
      | @selector cursor passed _ _ walked =>
        have hlt : i < cs.length := visits.length_eq ▸ (List.getElem?_eq_some_iff.mp hchild).1
        obtain ⟨c, hc⟩ : ∃ c, cs[i]? = some c := ⟨_, List.getElem?_eq_getElem hlt⟩
        obtain ⟨hunvisited, hsame⟩ | ⟨st, o, ⟨-, hsound, rfl⟩, hlog, hnew⟩ := visits.visited hc
        · -- the child has been left alone, although the walk begins with the one that is active
          obtain rfl : c = c' := Option.some.inj (hsame.symm.trans hchild)
          have hf : f.active = true := by
            by_contra hidle
            rw [hn.inactive (by simpa using hidle) c (List.mem_of_getElem? hc)] at hc'
            cases hc'
          rw [Frame.activate_of_active hf] at activated
          cases activated
          obtain ⟨-, rfl⟩ := hstands cursor hb i c hc hc'
          have hdrop : (List.range cs.length).drop i = i :: (List.range cs.length).drop (i + 1) := by
            rw [List.drop_eq_getElem_cons (by simpa using hlt)]
            simp
          rw [hdrop] at walked
          exact absurd walked.first hunvisited
        · -- the child has been executed and goes on, so the walk has ended there
          obtain rfl : _ = c' := Option.some.inj (hnew.symm.trans hchild)
          have hunfailed : (c.execute s dt st).value.1 ≠ .ok .failure := by
            intro hfailed
            cases (isActive_execute s dt hsound st _ hfailed).mp hc'
          have hlast := walked.last hlog hunfailed
          rw [List.getElem?_drop] at hlast
          obtain ⟨_, hposition⟩ := List.getElem?_eq_some_iff.mp hlast
          simpa using hposition.symm

end Node

structure Frame.Front (f : Frame H) : Prop where
  active : f.active = true
  decorators : f.decorators = []
  services : f.services = []
  behavior : f.behavior = .selector 0

section Front
variable {f : Frame H} {c : Node H} {cs : List (Node H)} {s : Setting} {dt : Float32} {st : Stage H}

theorem Frame.Front.trace (hf : f.Front) {e : Entry H.Note} (he : e ∈ (c.execute s dt st).trace) :
    e ∈ ((Node.mk f (c :: cs)).execute s dt st).trace := by
  obtain ⟨id, name, ds, as, b, active, time⟩ := f
  obtain ⟨rfl, rfl, rfl, rfl⟩ := hf
  simp [Node.execute, Node.branches, Frame.execute, Frame.run, Frame.guards, Frame.activate,
    Frame.advance, Frame.serve, Behavior.tick, Branch.walk, List.range_succ_eq_map, he]

/-- Unless the child fails, its answer is that of the selector. -/
theorem Frame.Front.execute (hf : f.Front) (c : Node H) (cs : List (Node H)) (s : Setting)
    (dt : Float32) (st : Stage H) :
    let x := c.execute s dt st
    let o := (Node.mk f (c :: cs)).execute s dt st
    match x.value.1 with
    | .ok .running =>
      o.value = (.ok .running, .mk (f.aged dt) (x.value.2 :: cs)) ∧ o.state = x.state
    | .ok .success =>
      o.value.1 = .ok .success ∧ (∃ g, o.value.2 = .mk g ((x.value.2 :: cs).map Node.settle)) ∧
        o.state = ((f.aged dt).conclude s .success (x.value.2 :: cs) x.state).state
    | .ok .failure => ∃ m ∈ o.value.2.children[0]?, m = x.value.2 ∨ m = x.value.2.settle
    | .error stop => o.value.1 = .error stop := by
  obtain ⟨id, name, ds, as, b, active, time⟩ := f
  obtain ⟨rfl, rfl, rfl, rfl⟩ := hf
  rcases hx : c.execute s dt st with ⟨⟨answer, n⟩, st', tr⟩
  have hgoing : Status.running.isTerminal = false := rfl
  have hended : Status.success.isTerminal = true := rfl
  rcases answer with stop | _ | _ | _
  all_goals
    simp [Node.execute, Node.branches, Frame.execute, Frame.run, Frame.guards, Frame.activate,
      Frame.advance, Frame.serve, Behavior.tick, List.range_succ_eq_map, Branch.walk, hx,
      Frame.modify, Branch.done, hended, hgoing, Frame.value_conclude, Frame.aged]
  -- the child has failed, and the walk goes on behind it
  have hbehind : 0 ∉ (List.range cs.length).map Nat.succ := by simp
  have hfirst := Branch.walk_outside .failure hbehind
    (⟨n, c.execute s dt⟩ :: Node.branches s dt cs) 1 st'
  generalize Branch.walk .failure 1 ((List.range cs.length).map Nat.succ)
    (⟨n, c.execute s dt⟩ :: Node.branches s dt cs) st' = o at hfirst ⊢
  obtain ⟨⟨_ | r, cursor, bs⟩, st₁, tr₁⟩ := o
  all_goals have hfirst : bs[0]? = some ⟨n, c.execute s dt⟩ := hfirst
  · exact ⟨n, by simp [hfirst], .inl rfl⟩
  · by_cases hr : r.isTerminal = true
    · exact ⟨n.settle, by simp [hr, hfirst, Frame.value_conclude], .inr rfl⟩
    · exact ⟨n, by simp [hr, hfirst], .inl rfl⟩

end Front
end TickTree
