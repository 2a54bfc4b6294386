import TickTree.Proofs.Sessions
/-! Passing along children: what a selector does in one tick is to run the children that are left
until one of them does not fail. Passing along two lists is passing along the first and then, if
none of it stopped, along the second. -/
namespace TickTree
variable {H : Host}

def Going (a : Answer) : Prop := ∀ r, a = .ok r → r = .running

theorem going_ok {r : Status} : Going (.ok r) ↔ r.isTerminal = false := by
  rw [Status.isTerminal_eq_false]
  exact ⟨fun h => h r rfl, fun h r' hr => (Except.ok.inj hr) ▸ h⟩

theorem going_error (stop : Stop) : Going (.error stop) := nofun

namespace Branch
variable {onward : Status}

/-- Runs the branches in order while they answer `onward`, and counts those that did. -/
def pass (onward : Status) : List (Branch H) → Exec H (Answer × Nat × List (Branch H))
  | [] => pure (.ok onward, 0, [])
  | b :: bs => do
    let (answer, n) ← b.run
    if answer = .ok onward then do
      let (answer, passed, bs) ← pass onward bs
      pure (answer, passed + 1, b.done n :: bs)
    else pure (answer, 0, b.done n :: bs)

theorem walk_range (passed rest : List (Branch H)) :
    walk onward passed.length (List.range' passed.length rest.length) (passed ++ rest) = (do
      let (answer, k, rest) ← pass onward rest
      pure (answer, passed.length + k, passed ++ rest)) := by
  induction rest generalizing passed with
  | nil => simp [walk, pass]
  | cons b bs ih =>
    have hb : (passed ++ b :: bs)[passed.length]? = some b := by simp
    rw [List.length_cons, List.range'_succ, walk, hb, pass, bind_assoc]
    refine bind_congr fun o => ?_
    obtain ⟨answer, n⟩ := o
    have hset : (passed ++ b :: bs).set passed.length (b.done n) =
        (passed ++ [b.done n]) ++ bs := by simp
    dsimp only
    rw [hset]
    by_cases ha : answer = .ok onward
    · rw [if_pos ha, if_pos ha]
      have hrest := ih (passed ++ [b.done n])
      rw [List.length_append, List.length_singleton] at hrest
      rw [hrest, bind_assoc]
      refine bind_congr fun o => ?_
      have hcount : passed.length + 1 + o.2.1 = passed.length + (o.2.1 + 1) := by omega
      simp [hcount]
    · rw [if_neg ha, if_neg ha]
      simp

theorem walk_eq_pass (passed rest : List (Branch H)) :
    walk onward passed.length ((List.range (passed ++ rest).length).drop passed.length)
        (passed ++ rest) = (do
      let (answer, k, rest) ← pass onward rest
      pure (answer, passed.length + k, passed ++ rest)) := by
  rw [← walk_range, List.range_eq_range', List.drop_range']
  simp

theorem pass_append (bs bs' : List (Branch H)) :
    pass onward (bs ++ bs') = (do
      let (answer, k, bs) ← pass onward bs
      if answer = .ok onward then do
        let (answer, k', bs') ← pass onward bs'
        pure (answer, k + k', bs ++ bs')
      else pure (answer, k, bs ++ bs')) := by
  induction bs with
  | nil => simp [pass]
  | cons b bs ih =>
    rw [List.cons_append, pass, pass, bind_assoc]
    refine bind_congr fun o => ?_
    obtain ⟨answer, n⟩ := o
    by_cases ha : answer = .ok onward
    · simp only [if_pos ha, ih, bind_assoc]
      refine bind_congr fun o => ?_
      obtain ⟨answer, k, bs⟩ := o
      by_cases ha : answer = .ok onward
      · simp only [ha, if_true, bind_assoc, pure_bind, List.cons_append]
        refine bind_congr fun o => ?_
        rw [Nat.add_right_comm]
      · simp [ha]
    · simp [ha]

/-- One tick of a selector passes along the children from its cursor on. -/
theorem tick_selector (s : Setting) (v : View) (dt : Float32) (passed rest : List (Branch H)) :
    (Behavior.selector passed.length).tick s v dt (passed ++ rest) = (do
      let (answer, k, rest) ← pass .failure rest
      pure (answer, .selector (passed.length + k), passed ++ rest)) := by
  rw [Behavior.tick, walk_eq_pass, bind_assoc]
  rfl

/-- A branch shows by its answer whether it goes on. -/
def Honest (b : Branch H) : Prop :=
  ∀ st r, (b.run st).value.1 = .ok r → ((b.run st).value.2.isActive = true ↔ r = .running)

theorem honest_branches {s : Setting} {dt : Float32} {cs : List (Node H)}
    (h : ∀ c ∈ cs, c.Sound) : ∀ b ∈ Node.branches s dt cs, b.Honest := by
  refine Node.forall_mem_branches.mpr fun c hc st r => ?_
  exact Node.isActive_execute s dt (h c hc) st r

structure Waiting (bs : List (Branch H)) : Prop where
  honest : ∀ b ∈ bs, b.Honest
  idle : ∀ i b, bs[i]? = some b → b.node.isActive = true → i = 0

/-- How far passing along branches has got. If only the first could be active, now only the one
that stopped can be, and is not if its answer is terminal. -/
structure Passed (bs : List (Branch H)) (o : Answer × Nat × List (Branch H)) : Prop where
  length : o.2.2.length = bs.length
  passed_le : o.2.1 ≤ bs.length
  failed_iff : o.1 = .ok .failure ↔ o.2.1 = bs.length
  active : Waiting bs → ∀ i b, o.2.2[i]? = some b → b.node.isActive = true →
    i = o.2.1 ∧ Going o.1

theorem Waiting.inactive {b : Branch H} {bs : List (Branch H)} (h : Waiting (b :: bs)) :
    ∀ (i : Nat) (b' : Branch H), bs[i]? = some b' → b'.node.isActive = false := by
  intro i b' hi
  refine Bool.eq_false_iff.mpr fun hactive => ?_
  have := h.idle (i + 1) b' (by simpa using hi) hactive
  omega

theorem passed_pass (bs : List (Branch H)) (st : Stage H) :
    Passed bs (pass .failure bs st).value := by
  induction bs generalizing st with
  | nil => exact ⟨rfl, Nat.le_refl 0, by simp [pass], by simp [pass]⟩
  | cons b bs ih =>
    rw [pass, Traced.bind_apply]
    dsimp only
    by_cases ha : (b.run st).value.1 = .ok .failure
    · rw [if_pos ha]
      obtain ⟨hlength, hle, hfailed, hactive⟩ := ih (b.run st).state
      refine ⟨by simpa using hlength, by simpa using hle, by simpa using hfailed, ?_⟩
      intro h i b' hi hb'
      cases i with
      | zero =>
        obtain rfl : b.done (b.run st).value.2 = b' := by simpa using hi
        have hrunning := (h.honest b (by simp) st .failure ha).mp hb'
        cases hrunning
      | succ i =>
        have hlater : Waiting bs := ⟨fun b hb => h.honest b (List.mem_cons_of_mem _ hb),
          fun i b' hi hb' => by simp [h.inactive i b' hi] at hb'⟩
        simpa using hactive hlater i b' (by simpa using hi) hb'
    · rw [if_neg ha]
      refine ⟨rfl, Nat.zero_le _, by simpa using ha, ?_⟩
      intro h i b' hi hb'
      cases i with
      | zero =>
        obtain rfl : b.done (b.run st).value.2 = b' := by simpa using hi
        exact ⟨rfl, fun r hr => (h.honest b (by simp) st r hr).mp hb'⟩
      | succ i =>
        rw [h.inactive i b' (by simpa using hi)] at hb'
        cases hb'

end Branch
end TickTree
