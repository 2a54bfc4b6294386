import TickTree.Proofs.Splicing
/-! Two cursors and one. A selector stands at one of its children, and so does the selector among
them; where the children of the inner one are among those of the outer one instead, one cursor says
both. A tick of the outer selector takes such places to such places. -/
namespace TickTree
variable {H : Host} {q : NodeId}

open Vantage (apart)

/-- Where the outer selector stands, if the inner one comes after `a` children, has `c` of its own
and `b` after it, and where it stands once these are its own. -/
def Places (g : Frame H) (a c b i j : Nat) : Prop :=
  i ≤ a ∧ (i < a → g.active = false) ∧ j = i + g.place ∨
    g.active = false ∧ ∃ d, d ≤ b ∧ i = a + 1 + d ∧ j = a + c + d

/-- Where the first list has an inner selector, the second has its children. While the outer one is
active, the cursors suit. -/
inductive Spliced (q : NodeId) (active : Prop) (i j : Nat) : List (Node H) → List (Node H) → Prop
  | mk {g : Frame H} {xs qs ys : List (Node H)} (inner : Inner q g qs)
    (idle : ¬active → g.active = false)
    (places : active → Places g xs.length qs.length ys.length i j) :
    Spliced q active i j (xs ++ .mk g qs :: ys) (xs ++ qs ++ ys)

namespace Branch
variable (s : Setting) (dt : Float32) {g : Frame H} {xs ys bs : List (Branch H)} {i j : Nat}

def Meets (q : NodeId) (xs xs' : List (Node H)) (i j : Nat)
    (o o' : Answer × Nat × List (Branch H)) : Prop :=
  o.1 = o'.1 ∧ Spliced q (Going o.1) (i + o.2.1) (j + o'.2.1) (xs ++ o.2.2.map (·.node))
    (xs' ++ o'.2.2.map (·.node))

def nested (g : Frame H) (bs : List (Branch H)) : Branch H :=
  ⟨.mk g (bs.map (·.node)), g.execute s dt bs⟩

theorem sim_pass (inner : Inner q g (bs.map (·.node))) (honest : ∀ b ∈ bs, b.Honest)
    (xs : List (Node H)) (ys : List (Branch H)) :
    (apart H q).Sim
      (Meets q xs (xs ++ (bs.take g.place).map (·.node)) xs.length (xs.length + g.place))
      (pass .failure (nested s dt g bs :: ys)) (pass .failure (bs.drop g.place ++ ys)) := by
  have hle := inner.place_le
  rw [List.length_map] at hle
  rw [pass, pass_append]
  refine (Inner.sim_execute inner honest).bind ?_
  rintro ⟨answer, n⟩ ⟨_, k, rest⟩ ⟨rfl, hp, g', hn, hinner, hstands⟩
  dsimp only at hp hn hinner hstands ⊢
  subst hn
  have hlength : (bs.take g.place ++ rest).length = bs.length := (Inner.length_passed hle hp).1
  by_cases ha : answer = .ok .failure
  -- the inner selector has failed, all its children are passed, and both go on after it
  · have hended : g'.active = false := hstands.ended fun h => by simpa [ha] using h _ ha
    have hk : k = (bs.drop g.place).length := hp.failed_iff.mp ha
    rw [List.length_drop] at hk
    simp only [ha, if_true]
    refine (Vantage.sim_same (passed_pass ys)).bind ?_
    rintro ⟨answer', d, ys'⟩ _ ⟨rfl, hp'⟩
    refine .pure ⟨rfl, ?_⟩
    have hpast : Places g' xs.length ((bs.take g.place ++ rest).map (·.node)).length
        (ys'.map (·.node)).length (xs.length + (d + 1)) (xs.length + g.place + (k + d)) := by
      refine .inr ⟨hended, d, ?_, by omega, ?_⟩
      · rw [List.length_map, hp'.length]
        exact hp'.passed_le
      · rw [List.length_map, hlength]
        omega
    have hspliced : Spliced q (Going answer') _ _ _ _ :=
      .mk hinner (fun _ => hended) fun _ => hpast
    simpa [done] using hspliced
  -- it has stopped the outer one, which stays at it, and its own cursor has moved
  · simp only [ha, if_false]
    refine .pure ⟨rfl, ?_⟩
    have hat (h : Going answer) : Places g' xs.length
        ((bs.take g.place ++ rest).map (·.node)).length (ys.map (·.node)).length xs.length
        (xs.length + g.place + k) :=
      .inl ⟨Nat.le_refl _, by omega, by rw [hstands.going h, Nat.add_assoc]⟩
    have hspliced : Spliced q (Going answer) _ _ _ _ := .mk hinner hstands.ended hat
    simpa [done] using hspliced

theorem sim_pass_before (inner : Inner q g (bs.map (·.node))) (honest : ∀ b ∈ bs, b.Honest)
    (idle : g.active = false) (xs : List (Node H)) (zs ys : List (Branch H)) :
    (apart H q).Sim (Meets q xs xs xs.length xs.length)
      (pass .failure (zs ++ nested s dt g bs :: ys)) (pass .failure (zs ++ (bs ++ ys))) := by
  rw [pass_append, pass_append]
  refine (Vantage.sim_same (passed_pass zs)).bind ?_
  rintro ⟨answer, k, zs'⟩ _ ⟨rfl, hp⟩
  have hlength : zs'.length = zs.length := hp.length
  by_cases ha : answer = .ok .failure
  · obtain rfl : k = zs.length := hp.failed_iff.mp ha
    have hpass := sim_pass s dt inner honest (xs ++ zs'.map (·.node)) ys
    simp only [Frame.place_of_idle idle, List.take_zero, List.drop_zero, List.map_nil,
      List.append_nil, Nat.add_zero, List.length_append, List.length_map, hlength] at hpass
    simp only [ha, if_true]
    refine hpass.bind ?_
    rintro ⟨answer, n, rest⟩ ⟨_, n', rest'⟩ ⟨rfl, hmeets⟩
    exact .pure ⟨rfl, by simpa [Nat.add_assoc] using hmeets⟩
  · simp only [ha, if_false]
    refine .pure ⟨rfl, ?_⟩
    have hle : k ≤ zs.length := hp.passed_le
    have hbefore : Places g (xs ++ zs'.map (·.node)).length (bs.map (·.node)).length
        (ys.map (·.node)).length (xs.length + k) (xs.length + k) := by
      refine .inl ⟨?_, fun _ => idle, by rw [Frame.place_of_idle idle]; rfl⟩
      rw [List.length_append, List.length_map]
      omega
    have hspliced : Spliced q (Going answer) _ _ _ _ :=
      .mk inner (fun _ => idle) fun _ => hbefore
    simpa [nested] using hspliced

theorem sim_pass_past {g : Frame H} {qs : List (Node H)} (inner : Inner q g qs)
    (idle : g.active = false) (xs ys : List (Node H)) (zs : List (Branch H)) :
    (apart H q).Sim (Meets q (xs ++ .mk g qs :: ys) (xs ++ qs ++ ys)
        (xs.length + 1 + ys.length) (xs.length + qs.length + ys.length))
      (pass .failure zs) (pass .failure zs) := by
  rw [← bind_pure (pass .failure zs)]
  refine (Vantage.sim_same (passed_pass zs)).bind ?_
  rintro ⟨answer, k, zs'⟩ _ ⟨rfl, hp⟩
  refine .pure ⟨rfl, ?_⟩
  have hpast : Places g xs.length qs.length (ys ++ zs'.map (·.node)).length
      (xs.length + 1 + ys.length + k) (xs.length + qs.length + ys.length + k) := by
    refine .inr ⟨idle, ys.length + k, ?_, by omega, by omega⟩
    have hle := hp.passed_le
    rw [← hp.length] at hle
    rw [List.length_append, List.length_map]
    exact Nat.add_le_add_left hle _
  have hspliced : Spliced q (Going answer) _ _ _ _ :=
    .mk inner (fun _ => idle) fun _ => hpast
  simpa using hspliced

theorem exists_cut (h : i ≤ bs.length) : ∃ bs₁ bs₂, bs = bs₁ ++ bs₂ ∧ i = bs₁.length :=
  ⟨bs.take i, bs.drop i, (List.take_append_drop i bs).symm, (List.length_take_of_le h).symm⟩

def Ticked (q : NodeId) (o o' : Answer × Behavior H × List (Branch H)) : Prop :=
  o.1 = o'.1 ∧ ∃ i j, o.2.1 = .selector i ∧ o'.2.1 = .selector j ∧
    Spliced q (Going o.1) i j (o.2.2.map (·.node)) (o'.2.2.map (·.node))

theorem sim_tick_of_pass {v : View} (bs bs' : List (Branch H)) {rest rest' : List (Branch H)}
    (h : (apart H q).Sim
      (Meets q (bs.map (·.node)) (bs'.map (·.node)) bs.length bs'.length)
      (pass .failure rest) (pass .failure rest')) :
    (apart H q).Sim (Ticked q) ((Behavior.selector bs.length).tick s v dt (bs ++ rest))
      ((Behavior.selector bs'.length).tick s v dt (bs' ++ rest')) := by
  rw [tick_selector, tick_selector]
  refine h.bind ?_
  rintro ⟨answer, n, rest⟩ ⟨_, n', rest'⟩ ⟨rfl, hmeets⟩
  exact .pure ⟨rfl, _, _, rfl, rfl, by simpa using hmeets⟩

theorem sim_tick {v : View} (inner : Inner q g (bs.map (·.node))) (honest : ∀ b ∈ bs, b.Honest)
    (places : Places g xs.length bs.length ys.length i j) :
    (apart H q).Sim (Ticked q)
      ((Behavior.selector i).tick s v dt (xs ++ nested s dt g bs :: ys))
      ((Behavior.selector j).tick s v dt (xs ++ bs ++ ys)) := by
  have hle := inner.place_le
  rw [List.length_map] at hle
  obtain ⟨hi, idle, rfl⟩ | ⟨idle, d, hd, rfl, rfl⟩ := places
  · obtain rfl | hi : i = xs.length ∨ i < xs.length := by omega
    · have hpass := sim_pass s dt inner honest (xs.map (·.node)) ys
      have htick := sim_tick_of_pass s dt (v := v) xs (xs ++ bs.take g.place)
        (by simpa [List.length_take_of_le hle] using hpass)
      rw [List.append_assoc, ← List.append_assoc (bs.take g.place), List.take_append_drop,
        List.length_append, List.length_take_of_le hle] at htick
      simpa using htick
    · obtain ⟨xs₁, xs₂, rfl, rfl⟩ := exists_cut (Nat.le_of_lt hi)
      rw [Frame.place_of_idle (idle hi)]
      have hpass := sim_pass_before s dt inner honest (idle hi) (xs₁.map (·.node)) xs₂ ys
      have htick := sim_tick_of_pass s dt (v := v) xs₁ xs₁ (by simpa using hpass)
      simpa using htick
  · obtain ⟨ys₁, ys₂, rfl, rfl⟩ := exists_cut hd
    have hpass := sim_pass_past inner idle (xs.map (·.node)) (ys₁.map (·.node)) ys₂
    have htick := sim_tick_of_pass s dt (v := v) (xs ++ nested s dt g bs :: ys₁)
      (xs ++ bs ++ ys₁) (by simpa [nested, Nat.add_assoc, Nat.add_comm 1] using hpass)
    simpa [Nat.add_assoc, Nat.add_comm 1] using htick

end Branch

namespace Spliced
variable {p p' : Prop} {i j : Nat} {cs ds : List (Node H)} {s : Setting}

theorem of_idle (h : Spliced q p i j cs ds) (hp : ¬p) (hp' : ¬p') (i' j' : Nat) :
    Spliced q p' i' j' cs ds := by
  cases h with
  | mk inner idle places => exact .mk inner (fun _ => idle hp) fun h => absurd h hp'

theorem of_iff (h : Spliced q p i j cs ds) (hp : p ↔ p') : Spliced q p' i j cs ds := propext hp ▸ h

theorem start (h : Spliced q p i j cs ds) (hp : ¬p) : Spliced q True 0 0 cs ds := by
  cases h with
  | mk inner idle places =>
    have hg := idle hp
    refine .mk inner (fun h => absurd trivial h) fun _ => ?_
    exact .inl ⟨Nat.zero_le _, fun _ => hg, by rw [Frame.place_of_idle hg]⟩

theorem sim_abortAll (h : Spliced q p i j cs ds) :
    (apart H q).Sim (Spliced q False 0 0) (Node.abortAll s cs) (Node.abortAll s ds) := by
  cases h with
  | mk inner idle places =>
    rw [List.append_assoc, Node.abortAll_append, Node.abortAll_append, Node.abortAll_append,
      Node.abortAll]
    simp only [bind_assoc, pure_bind]
    refine (Vantage.sim_refl _).seq fun xs => inner.sim_abort.bind ?_
    rintro n qs ⟨g, hg, rfl, inner⟩
    refine (Vantage.sim_refl _).seq fun ys => .pure ?_
    rw [← List.append_assoc]
    exact .mk inner (fun _ => hg) False.elim

end Spliced

end TickTree
