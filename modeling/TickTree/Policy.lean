import TickTree.Status
/-! How a parallel node turns the votes of its children into one result. -/
namespace TickTree

inductive Policy where
  | any
  | all
  | threshold (votes : Nat)
  deriving DecidableEq

/-- The votes needed from `total` children. A threshold of zero counts as one. -/
def Policy.needed (total : Nat) : Policy → Nat
  | any => 1
  | all => total
  | threshold votes => max votes 1

/-- All children means exactly all of them; the other policies are also met by more votes. -/
def Policy.isMet (votes total : Nat) : Policy → Bool
  | any => 0 < votes
  | all => votes = total
  | threshold least => max least 1 ≤ votes

def Policy.text : Policy → String
  | any => "Any"
  | all => "All"
  | threshold votes => "Threshold(" ++ toString votes ++ ")"

/-- Success is decided before failure, and a node without children succeeds. -/
def vote (success failure : Policy) (votes : List Status) : Status :=
  let total := votes.length
  if total = 0 then .success
  else if success.isMet (votes.count .success) total then .success
  else if failure.isMet (votes.count .failure) total then .failure
  else if 0 < votes.count .running then .running
  else .failure

theorem Policy.isMet_iff {p : Policy} {votes total : Nat} (h : votes ≤ total) :
    p.isMet votes total = true ↔ p.needed total ≤ votes := by
  cases p <;> simp only [isMet, needed, decide_eq_true_eq] <;> omega

end TickTree
