import TickTree.Node.Execute
import TickTree.Proofs.Frames
/-! Judgments about two computations side by side. The loops of behaviors keep every judgment that
goes through answers and sequencing. -/
namespace TickTree
variable {H : Host} {α β α' β' : Type}

def SameAnswer (N : Node H → Node H → Prop) (x y : Answer × Node H) : Prop :=
  x.1 = y.1 ∧ N x.2 y.2

/-- What may be said of two computations whose values are related. -/
structure Judgment (H : Host) where
  holds : ∀ {α β : Type}, (α → β → Prop) → Exec H α → Exec H β → Prop
  pure : ∀ {α β : Type} {R : α → β → Prop} {a : α} {b : β}, R a b →
    holds R (Pure.pure a) (Pure.pure b)
  bind : ∀ {α β α' β' : Type} {R : α → β → Prop} {Q : α' → β' → Prop} {x : Exec H α} {y : Exec H β}
    {f : α → Exec H α'} {g : β → Exec H β'}, holds R x y →
    (∀ a b, R a b → holds Q (f a) (g b)) → holds Q (x >>= f) (y >>= g)

namespace Judgment
variable {J : Judgment H} {N : Node H → Node H → Prop} {Q : α' → β' → Prop}
  {bs bs' : List (Branch H)}

theorem seq {x y : Exec H α} {f : α → Exec H α'} {g : α → Exec H β'} (h : J.holds Eq x y)
    (hf : ∀ a, J.holds Q (f a) (g a)) : J.holds Q (x >>= f) (y >>= g) := by
  refine J.bind h fun a b hab => ?_
  rw [← hab]
  exact hf a

def Twin (J : Judgment H) (N : Node H → Node H → Prop) (b b' : Branch H) : Prop :=
  N b.node b'.node ∧ J.holds (SameAnswer N) b.run b'.run

theorem Twin.done {b b' : Branch H} {n n' : Node H} (h : J.Twin N b b') (hn : N n n') :
    J.Twin N (b.done n) (b'.done n') := ⟨hn, h.2⟩

theorem twin_nodes (h : List.Forall₂ (J.Twin N) bs bs') :
    List.Forall₂ N (bs.map (·.node)) (bs'.map (·.node)) := by
  rw [List.forall₂_map_left_iff, List.forall₂_map_right_iff]
  exact h.imp fun _ _ h => h.1

theorem twin_branches {s s' : Setting} {dt : Float32} {cs ds : List (Node H)}
    (h : List.Forall₂ (fun c d => N c d ∧
      J.holds (SameAnswer N) (c.execute s dt) (d.execute s' dt)) cs ds) :
    List.Forall₂ (J.Twin N) (Node.branches s dt cs) (Node.branches s' dt ds) := by
  rw [Node.branches_eq_map, Node.branches_eq_map, List.forall₂_map_left_iff,
    List.forall₂_map_right_iff]
  exact h

theorem walk (onward : Status) (cursor : Nat) (order : List Nat)
    (h : List.Forall₂ (J.Twin N) bs bs') :
    J.holds (fun x y => x.1 = y.1 ∧ x.2.1 = y.2.1 ∧ List.Forall₂ (J.Twin N) x.2.2 y.2.2)
      (Branch.walk onward cursor order bs) (Branch.walk onward cursor order bs') := by
  induction order generalizing cursor bs bs' with
  | nil => exact J.pure ⟨rfl, rfl, h⟩
  | cons i order ih =>
    rw [Branch.walk, Branch.walk]
    obtain ⟨hb, hb'⟩ | ⟨b, b', hb, hb', htwin⟩ := forall₂_at h i
    · rw [hb, hb', h.length_eq]
      exact J.pure ⟨rfl, rfl, h⟩
    · rw [hb, hb']
      refine J.bind htwin.2 ?_
      rintro ⟨answer, n⟩ ⟨_, n'⟩ ⟨rfl, hn⟩
      have hset := forall₂_set h i (htwin.done hn)
      by_cases ha : answer = .ok onward
      · simp only [if_pos ha]
        exact ih (cursor + 1) hset
      · simp only [if_neg ha]
        exact J.pure ⟨rfl, rfl, hset⟩

theorem runAll (h : List.Forall₂ (J.Twin N) bs bs') :
    J.holds (fun x y => x.1 = y.1 ∧ List.Forall₂ (J.Twin N) x.2 y.2)
      (Branch.runAll bs) (Branch.runAll bs') := by
  induction h with
  | nil => exact J.pure ⟨rfl, .nil⟩
  | cons h hrest ih =>
    refine J.bind h.2 ?_
    rintro ⟨answer, n⟩ ⟨_, n'⟩ ⟨rfl, hn⟩
    cases answer with
    | error stop => exact J.pure ⟨rfl, .cons (h.done hn) hrest⟩
    | ok r =>
      refine J.bind ih ?_
      rintro ⟨results, cs⟩ ⟨_, ds⟩ ⟨rfl, hcs⟩
      exact J.pure ⟨rfl, .cons (h.done hn) hcs⟩

theorem runFirst (h : List.Forall₂ (J.Twin N) bs bs') :
    J.holds (fun x y => x.1 = y.1 ∧ List.Forall₂ (J.Twin N) x.2 y.2)
      (Branch.runFirst bs) (Branch.runFirst bs') := by
  cases h with
  | nil => exact J.pure ⟨rfl, .nil⟩
  | cons h hrest =>
    refine J.bind h.2 ?_
    rintro ⟨answer, n⟩ ⟨_, n'⟩ ⟨rfl, hn⟩
    exact J.pure ⟨rfl, .cons (h.done hn) hrest⟩

/-- One tick of a behavior over branches that run alike, in settings that may differ. -/
theorem tick {s s' : Setting} {v : View} {dt : Float32} (b : Behavior H)
    (hook : ∀ h, J.holds Eq (Exec.hook v h : Exec H Unit) (Exec.hook v h))
    (action : ∀ a, J.holds Eq (Exec.reach (H.tick a s.scope dt) : Exec H _)
      (Exec.reach (H.tick a s'.scope dt)))
    (condition : ∀ c, J.holds Eq (Exec.look (H.check c s.scope) : Exec H _)
      (Exec.look (H.check c s'.scope)))
    (h : List.Forall₂ (J.Twin N) bs bs') :
    J.holds (fun x y => x.1 = y.1 ∧ x.2.1 = y.2.1 ∧ List.Forall₂ (J.Twin N) x.2.2 y.2.2)
      (b.tick s v dt bs) (b.tick s' v dt bs') := by
  cases b with
  | selector cursor =>
    rw [Behavior.tick, Behavior.tick, h.length_eq]
    refine J.bind (walk _ _ _ h) ?_
    rintro ⟨answer, cursor, cs⟩ ⟨_, _, ds⟩ ⟨rfl, rfl, hcs⟩
    exact J.pure ⟨rfl, rfl, hcs⟩
  | randomSelector cursor order =>
    refine J.bind (walk _ _ _ h) ?_
    rintro ⟨answer, cursor, cs⟩ ⟨_, _, ds⟩ ⟨rfl, rfl, hcs⟩
    exact J.pure ⟨rfl, rfl, hcs⟩
  | parallel p q =>
    refine J.bind (runAll h) ?_
    rintro ⟨results, cs⟩ ⟨_, ds⟩ ⟨rfl, hcs⟩
    exact J.pure ⟨rfl, rfl, hcs⟩
  | sequence cursor =>
    rw [Behavior.tick, Behavior.tick, h.length_eq]
    refine seq (hook _) fun _ => J.bind (walk _ _ _ h) ?_
    rintro ⟨answer, cursor, cs⟩ ⟨_, _, ds⟩ ⟨rfl, rfl, hcs⟩
    exact J.pure ⟨rfl, rfl, hcs⟩
  | relay =>
    refine J.bind (runFirst h) ?_
    rintro ⟨answer, cs⟩ ⟨_, ds⟩ ⟨rfl, hcs⟩
    exact J.pure ⟨rfl, rfl, hcs⟩
  | repeater r =>
    refine J.bind (runFirst h) ?_
    rintro ⟨answer, cs⟩ ⟨_, ds⟩ ⟨rfl, hcs⟩
    match answer with
    | none => exact J.pure ⟨rfl, rfl, hcs⟩
    | some (.error stop) => exact J.pure ⟨rfl, rfl, hcs⟩
    | some (.ok child) => exact J.pure ⟨rfl, rfl, hcs⟩
  | action a => exact seq (action a) fun _ => J.pure ⟨rfl, rfl, h⟩
  | condition c => exact seq (condition c) fun _ => J.pure ⟨rfl, rfl, h⟩
  | wait w => exact J.pure ⟨rfl, rfl, h⟩

end Judgment
end TickTree
