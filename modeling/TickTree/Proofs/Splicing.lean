import TickTree.Proofs.Passing
import TickTree.Proofs.Vantage
/-! A bare selector within a selector. Whoever does not see the inner one sees its children among
those of the outer: executing it is passing along them from where it has got to. -/
namespace TickTree
variable {H : Host} {α β γ : Type} {q : NodeId}

namespace Vantage

def apart (H : Host) (q : NodeId) : Vantage H :=
  ⟨Option.guard fun e => e.about ≠ some q, Eq, H.respects_eq⟩

theorem see_apart (w : List (Entry H.Note)) :
    w.filterMap (apart H q).see = w.filter fun e => e.about ≠ some q := by
  rw [← List.filterMap_eq_filter]
  rfl

theorem settings_rfl {V : Vantage H} {s : Setting} : V.Settings s s := ⟨rfl, fun _ => rfl⟩

theorem stages_apart {st st' : Stage H} : (apart H q).Stages st st' ↔ st = st' := by
  obtain ⟨⟨w, t⟩, rng⟩ := st
  obtain ⟨⟨w', t'⟩, rng'⟩ := st'
  simp [Stages, Realms, apart]

theorem sim_refl (x : Exec H α) : (apart H q).Sim Eq x x := by
  intro st st' hst
  obtain rfl := stages_apart.mp hst
  exact ⟨rfl, stages_apart.mpr rfl, rfl⟩

theorem sim_same {P : α → Prop} {x : Exec H α} (hP : ∀ st, P (x st).value) :
    (apart H q).Sim (fun a b => a = b ∧ P a) x x := (sim_refl x).and hP

/-- What comes after the common part on the left must do nothing that is seen. -/
theorem sim_rest {V : Vantage H} {P : α → β → Prop} {R : γ → β → Prop} {x : Exec H α}
    {y : Exec H β} {f : α → Exec H γ} (h : V.Sim P x y)
    (hf : ∀ a b, P a b → V.Sim R (f a) (pure b)) : V.Sim R (x >>= f) y := by
  rw [← bind_pure y]
  exact h.bind hf

end Vantage

open Vantage (apart)

def Exec.Aside (q : NodeId) (a : α) (x : Exec H α) : Prop :=
  ∀ st, (x st).value = a ∧ (x st).state = st ∧ ∀ e ∈ (x st).trace, e.about = some q

namespace Exec
variable {a : α} {b : β} {x : Exec H α} {f : α → Exec H β}

theorem Aside.pure (a : α) : Aside q a (pure a : Exec H α) := fun _ => ⟨rfl, rfl, by simp⟩

theorem Aside.bind (h : Aside q a x) (hf : Aside q b (f a)) : Aside q b (x >>= f) := by
  intro st
  obtain ⟨hvalue, hstate, htrace⟩ := h st
  obtain ⟨hvalue', hstate', htrace'⟩ := hf st
  rw [Traced.bind_apply, hvalue, hstate]
  refine ⟨hvalue', hstate', fun e he => ?_⟩
  rcases List.mem_append.mp he with he | he
  · exact htrace e he
  · exact htrace' e he

theorem aside_hook {v : View} (hv : v.id = q) (h : Hook) : Aside q () (hook v h : Exec H Unit) :=
  fun _ => ⟨rfl, rfl, by simp [hv]⟩

theorem Aside.skip {R : β → γ → Prop} {y : Exec H γ} (h : Aside q a x)
    (hf : (apart H q).Sim R (f a) y) : (apart H q).Sim R (x >>= f) y := by
  intro st st' hst
  obtain ⟨hvalue, hstate, htrace⟩ := h st
  obtain ⟨hvalue', hstate', htrace'⟩ := hf st st' hst
  have hunseen : (x st).trace.filterMap (apart H q).see = [] := by
    rw [Vantage.see_apart, List.filter_eq_nil_iff]
    exact fun e he => by simp [htrace e he]
  rw [Traced.bind_apply, hvalue, hstate]
  refine ⟨hvalue', hstate', ?_⟩
  rw [List.filterMap_append, hunseen, List.nil_append, htrace']

theorem Aside.skip_last {R : α → γ → Prop} {c : γ} (h : Aside q a x) (hc : R a c) :
    (apart H q).Sim R x (Pure.pure c) := by
  rw [← bind_pure x]
  exact h.skip (.pure hc)

end Exec

def Frame.place (f : Frame H) : Nat := if f.active then f.behavior.cursor else 0

theorem Frame.place_of_idle {f : Frame H} (h : f.active = false) : f.place = 0 := by
  simp [place, h]

def Frame.bareSelector (id : NodeId) (name : String) (cursor : Nat) (active : Bool)
    (time : Float32) : Frame H := ⟨id, name, [], [], .selector cursor, active, time⟩

namespace Frame
variable {id : NodeId} {name : String} {k : Nat} {active : Bool} {time : Float32} {s : Setting}

theorem aside_abort : Exec.Aside id (bareSelector id name k false 0)
    (Frame.abort s (bareSelector id name k active time : Frame H)) := fun _ =>
  ⟨rfl, rfl, by simp [Frame.abort, bareSelector, tellAborted, endActivation, detach, view]⟩

theorem aside_activate (n : Nat) : ∃ time',
    Exec.Aside id (.ok (), bareSelector id name (bareSelector id name k active time : Frame H).place
        true time')
      (activate s n (bareSelector id name k active time : Frame H)) := by
  cases active with
  | true => exact ⟨time, .pure _⟩
  | false =>
    exact ⟨0, fun _ => ⟨rfl, rfl, by
      simp [activate, bareSelector, Behavior.start, attach, view]⟩⟩

theorem aside_conclude (r : Status) {cs : List (Node H)} (h : ∀ c ∈ cs, c.isActive = false) :
    Exec.Aside id (.mk (bareSelector id name 0 false 0) cs)
      (conclude s r (bareSelector id name k active time) cs) := by
  rw [conclude, Node.abortAll_of_idle s h]
  exact fun _ => ⟨rfl, rfl, by
    simp [bareSelector, Behavior.finish, endActivation, detach, tellFinished, view]⟩

end Frame

/-- A selector over these children, with neither decorators nor services. Only the child at its
cursor can be active, and only while it is active itself. -/
structure Inner (q : NodeId) (g : Frame H) (qs : List (Node H)) : Prop where
  bare : ∃ name k active time, g = .bareSelector q name k active time
  place_le : g.place ≤ qs.length
  active : ∀ i c, qs[i]? = some c → c.isActive = true → g.active = true ∧ i = g.place

namespace Inner
variable {g : Frame H} {qs : List (Node H)} {s : Setting}

theorem inactive (h : Inner q g qs) (hg : g.active = false) : ∀ c ∈ qs, c.isActive = false := by
  intro c hc
  obtain ⟨i, hi⟩ := List.mem_iff_getElem?.mp hc
  refine Bool.eq_false_iff.mpr fun hactive => ?_
  rw [(h.active i c hi hactive).1] at hg
  cases hg

theorem of_ended {name : String} {k : Nat} {time : Float32}
    (hqs : ∀ c ∈ qs, c.isActive = false) : Inner q (.bareSelector q name k false time) qs :=
  ⟨⟨name, k, false, time, rfl⟩, Nat.zero_le _, fun i c hi hactive => by
    rw [hqs c (List.mem_of_getElem? hi)] at hactive
    cases hactive⟩

theorem sim_abort (h : Inner q g qs) :
    (apart H q).Sim (fun n cs => ∃ g', g'.active = false ∧ n = .mk g' cs ∧ Inner q g' cs)
      ((Node.mk g qs).abort s) (Node.abortAll s qs) := by
  rw [Node.abort]
  by_cases hg : g.active = true
  · rw [if_pos hg]
    have hsettled : ∀ st, ∀ c ∈ (Node.abortAll s qs st).value, c.isActive = false := by
      intro st c hc
      rw [Node.value_abortAll] at hc
      obtain ⟨c, -, rfl⟩ := List.mem_map.mp hc
      exact Node.isActive_settle c
    refine Vantage.sim_rest (Vantage.sim_same
      (P := fun cs : List (Node H) => ∀ c ∈ cs, c.isActive = false) hsettled) ?_
    rintro cs _ ⟨rfl, hcs⟩
    obtain ⟨⟨name, k, active, time, rfl⟩, -, -⟩ := h
    refine Exec.Aside.skip_last (Frame.aside_abort.bind (.pure _)) ?_
    exact ⟨_, rfl, rfl, .of_ended hcs⟩
  · have hg : g.active = false := by simpa using hg
    rw [if_neg (by simp [hg]), Node.abortAll_of_idle s (h.inactive hg)]
    exact .pure ⟨g, hg, rfl, h⟩

/-- Where the inner selector stands after it has answered, having passed so many more children. -/
structure Stands (g g' : Frame H) (o : Answer × Nat × List (Branch H)) : Prop where
  ended : ¬Going o.1 → g'.active = false
  going : Going o.1 → g'.place = g.place + o.2.1

section Passed
variable {dt : Float32} {k n : Nat} {raw : Answer} {bs rest : List (Branch H)}

/-- Having passed along the children from the cursor on, only the one that stopped can be active. -/
theorem active_passed (hk : k ≤ bs.length) (honest : ∀ b ∈ bs, b.Honest)
    (idle : ∀ i b, bs[i]? = some b → b.node.isActive = true → i = k)
    (hp : Branch.Passed (bs.drop k) (raw, n, rest)) (i : Nat) (c : Node H)
    (hi : ((bs.take k ++ rest).map (·.node))[i]? = some c) (hc : c.isActive = true) :
    i = k + n ∧ Going raw := by
  rw [List.getElem?_map] at hi
  obtain ⟨b, hb, rfl⟩ := Option.map_eq_some_iff.mp hi
  have htake : (bs.take k).length = k := List.length_take_of_le hk
  by_cases hik : i < k
  · rw [List.getElem?_append_left (by omega), List.getElem?_take_of_lt hik] at hb
    have := idle i b hb hc
    omega
  · have hwaiting : Branch.Waiting (bs.drop k) := by
      refine ⟨fun b hb => honest b (List.mem_of_mem_drop hb), fun i b hi hb => ?_⟩
      rw [List.getElem?_drop] at hi
      have := idle (k + i) b hi hb
      omega
    rw [List.getElem?_append_right (by omega), htake] at hb
    obtain ⟨hn, hgoing⟩ : i - k = n ∧ _ := hp.active hwaiting (i - k) b hb hc
    exact ⟨by omega, hgoing⟩

theorem length_passed (hk : k ≤ bs.length) (hp : Branch.Passed (bs.drop k) (raw, n, rest)) :
    (bs.take k ++ rest).length = bs.length ∧ k + n ≤ bs.length := by
  have hlength := hp.length
  have hle := hp.passed_le
  simp only [List.length_append, List.length_take, List.length_drop] at hlength hle ⊢
  omega

theorem sim_advance {name : String} {time : Float32} (hk : k ≤ bs.length)
    (honest : ∀ b ∈ bs, b.Honest)
    (idle : ∀ i b, bs[i]? = some b → b.node.isActive = true → i = k) :
    let g : Frame H := .bareSelector q name k true time
    (apart H q).Sim (fun o o' => o.1 = o'.1 ∧ Branch.Passed (bs.drop k) o' ∧
        ∃ g', o.2 = .mk g' ((bs.take k ++ o'.2.2).map (·.node)) ∧
          Inner q g' ((bs.take k ++ o'.2.2).map (·.node)) ∧ Stands g g' o')
      (g.advance s dt bs) (Branch.pass .failure (bs.drop k)) := by
  intro g
  have htick : (Behavior.selector k).tick s g.view dt bs =
      Branch.pass .failure (bs.drop k) >>= fun o =>
        pure (o.1, .selector (k + o.2.1), bs.take k ++ o.2.2) := by
    have hselector := Branch.tick_selector s g.view dt (bs.take k) (bs.drop k)
    rwa [List.take_append_drop, List.length_take_of_le hk] at hselector
  refine Exec.Aside.skip (a := []) (.pure _) (Exec.Aside.skip (Exec.aside_hook rfl _) ?_)
  change (apart H q).Sim _ ((Behavior.selector k).tick s g.view dt bs >>= _) _
  rw [htick, bind_assoc]
  refine Vantage.sim_rest (Vantage.sim_same (Branch.passed_pass (bs.drop k))) ?_
  rintro ⟨raw, n, rest⟩ _ ⟨rfl, hp⟩
  rw [pure_bind]
  have hactive := active_passed hk honest idle hp
  obtain ⟨hlength, hle⟩ := length_passed hk hp
  have hgoing (time' : Float32) : Inner q (.bareSelector q name (k + n) true time')
      ((bs.take k ++ rest).map (·.node)) := by
    refine ⟨⟨name, k + n, true, time', rfl⟩, ?_, fun i c hi hc => ⟨rfl, (hactive i c hi hc).1⟩⟩
    rw [List.length_map, hlength]
    exact hle
  refine Exec.Aside.skip (Exec.aside_hook rfl _) ?_
  cases raw with
  | error stop =>
    exact .pure ⟨rfl, hp, _, rfl, hgoing time, fun h => absurd (going_error stop) h, fun _ => rfl⟩
  | ok r =>
    refine Exec.Aside.skip (.pure r) ?_
    dsimp only
    by_cases hr : r.isTerminal = true
    · rw [if_pos hr]
      have hstops : ¬Going (.ok r) := by simp [going_ok, hr]
      have hended : ∀ c ∈ (bs.take k ++ rest).map (·.node), c.isActive = false := by
        intro c hc
        obtain ⟨i, hi⟩ := List.mem_iff_getElem?.mp hc
        exact Bool.eq_false_iff.mpr fun hactive' => hstops (hactive i c hi hactive').2
      refine Exec.Aside.skip_last ((Frame.aside_conclude r hended).bind (.pure _)) ?_
      exact ⟨rfl, hp, _, rfl, .of_ended hended, fun _ => rfl, fun h => absurd h hstops⟩
    · rw [if_neg hr]
      have hgoes : Going (.ok r) := by simpa [going_ok] using hr
      exact .pure ⟨rfl, hp, _, rfl, hgoing (time + dt), fun h => absurd hgoes h, fun _ => rfl⟩

theorem sim_execute {g : Frame H} (h : Inner q g (bs.map (·.node)))
    (honest : ∀ b ∈ bs, b.Honest) :
    (apart H q).Sim (fun o o' => o.1 = o'.1 ∧ Branch.Passed (bs.drop g.place) o' ∧
        ∃ g', o.2 = .mk g' ((bs.take g.place ++ o'.2.2).map (·.node)) ∧
          Inner q g' ((bs.take g.place ++ o'.2.2).map (·.node)) ∧ Stands g g' o')
      (g.execute s dt bs) (Branch.pass .failure (bs.drop g.place)) := by
  obtain ⟨⟨name, k, active, time, rfl⟩, hle, hactive⟩ := h
  rw [List.length_map] at hle
  have idle : ∀ i b, bs[i]? = some b → b.node.isActive = true →
      i = (Frame.bareSelector q name k active time : Frame H).place := by
    intro i b hi hb
    exact (hactive i b.node (by rw [List.getElem?_map, hi]; rfl) hb).2
  let g : Frame H := .bareSelector q name k active time
  obtain ⟨time', hactivate⟩ : ∃ time',
      Exec.Aside q (.ok (), .bareSelector q name g.place true time') (g.activate s bs.length) :=
    Frame.aside_activate bs.length
  refine Exec.Aside.skip (Exec.aside_hook rfl _) ?_
  refine Vantage.sim_rest (Exec.Aside.skip (.pure true) (hactivate.skip
    (sim_advance hle honest idle))) ?_
  rintro ⟨answer, n⟩ o ⟨rfl, hp, g', rfl, hinner, hstands⟩
  have hid : g'.view.id = q := by
    obtain ⟨_, _, _, _, rfl⟩ := hinner.bare
    rfl
  refine Exec.Aside.skip_last ((Exec.aside_hook hid _).bind (.pure _)) ?_
  exact ⟨rfl, hp, g', rfl, hinner, hstands.ended, hstands.going⟩

end Passed

end Inner
end TickTree
