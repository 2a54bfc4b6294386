import TickTree.Proofs.Visit
/-! Which entries of a trace come from which child. The entries about the nodes below a child all
come from one execution of the child, if it has been executed, and there are none if it has not. -/
namespace TickTree
variable {H : Host} {ν : Type}

def Within (ks : List NodeId) (tr : List (Entry ν)) : Prop :=
  ∀ e ∈ tr, ∀ k, e.about = some k → k ∈ ks

def Only (ks : List NodeId) (p : Entry ν → Bool) : Prop :=
  ∀ e, p e = true → ∃ k ∈ ks, e.about = some k

section Within
variable {ks js : List NodeId} {tr tr' : List (Entry ν)} {p : Entry ν → Bool}

theorem within_append : Within ks (tr ++ tr') ↔ Within ks tr ∧ Within ks tr' := by
  simp [Within, or_imp, forall_and]

theorem Within.mono (h : Within ks tr) (hsub : ∀ k ∈ ks, k ∈ js) : Within js tr :=
  fun e he k hk => hsub k (h e he k hk)

theorem Mine.within {k : NodeId} (h : Mine k tr) (hk : k ∈ ks) : Within ks tr := by
  intro e he j hj
  obtain rfl : k = j := Option.some.inj ((h e he).symm.trans hj)
  exact hk

theorem within_calls : Within ks (calls tr) ↔ Within ks tr := by
  refine ⟨fun h e he k hk => h e (List.mem_filter.mpr ⟨he, ?_⟩) k hk, fun h e he =>
    h e (List.mem_of_mem_filter he)⟩
  cases e with
  | note x => cases hk
  | _ => rfl

theorem Within.filter_eq_nil (h : Within ks tr) (hp : Only js p) (disjoint : ∀ k ∈ js, k ∉ ks) :
    tr.filter p = [] := by
  refine List.filter_eq_nil_iff.mpr fun e he hpe => ?_
  obtain ⟨k, hk, habout⟩ := hp e hpe
  exact disjoint k hk (h e he k habout)

def Nodal (tr : List (Entry ν)) : Prop := ∀ e ∈ calls tr, e.about.isSome

theorem nodal_append : Nodal (tr ++ tr') ↔ Nodal tr ∧ Nodal tr' := by
  simp [Nodal, or_imp, forall_and]

theorem nodal_flatMap {α : Type} {f : α → List (Entry ν)} {xs : List α}
    (h : ∀ x ∈ xs, Nodal (f x)) : Nodal (xs.flatMap f) := by
  intro e he
  obtain ⟨he, hnote⟩ := List.mem_filter.mp he
  obtain ⟨x, hx, he⟩ := List.mem_flatMap.mp he
  exact h x hx e (List.mem_filter.mpr ⟨he, hnote⟩)

theorem nodal_calls : Nodal (calls tr) ↔ Nodal tr := by
  rw [Nodal, calls, calls, List.filter_filter]
  simp [Nodal, calls]

theorem Mine.nodal {k : NodeId} (h : Mine k tr) : Nodal tr := fun e he => by
  simp [h e (List.mem_of_mem_filter he)]

theorem only_own {k : NodeId} (hk : k ∈ ks) : Only ks fun e : Entry ν => e.about = some k :=
  fun _ he => ⟨k, hk, of_decide_eq_true he⟩

theorem Within.own_eq_nil {k : NodeId} (h : Within ks tr) (hk : k ∉ ks) : own k tr = [] :=
  h.filter_eq_nil (only_own (List.mem_singleton.mpr rfl)) (by simpa using hk)

end Within

namespace Node

theorem nodup_ids_cons {c : Node H} {cs : List (Node H)} (h : ((c :: cs).flatMap ids).Nodup) :
    c.ids.Nodup ∧ (cs.flatMap ids).Nodup ∧ ∀ k ∈ c.ids, k ∉ cs.flatMap ids := by
  rw [List.flatMap_cons, List.nodup_append] at h
  exact ⟨h.1, h.2.1, fun k hk hk' => h.2.2 k hk k hk' rfl⟩

theorem ids_disjoint {cs : List (Node H)} (hn : (cs.flatMap ids).Nodup) {i j : Nat} {c d : Node H}
    (hc : cs[i]? = some c) (hd : cs[j]? = some d) (hij : i ≠ j) : ∀ k ∈ c.ids, k ∉ d.ids := by
  induction cs generalizing i j with
  | nil => simp at hc
  | cons e cs ih =>
    obtain ⟨-, hcs, hdisjoint⟩ := nodup_ids_cons hn
    have hlater {m : Nat} {x : Node H} (hx : cs[m]? = some x) : ∀ k ∈ x.ids, k ∈ cs.flatMap ids :=
      fun k hk => List.mem_flatMap.mpr ⟨x, List.mem_of_getElem? hx, hk⟩
    cases i with
    | zero =>
      cases j with
      | zero => exact absurd rfl hij
      | succ j =>
        obtain rfl : e = c := by simpa using hc
        exact fun k hk hk' => hdisjoint k hk (hlater (by simpa using hd) k hk')
    | succ i =>
      cases j with
      | zero =>
        obtain rfl : e = d := by simpa using hd
        exact fun k hk hk' => hdisjoint k hk' (hlater (by simpa using hc) k hk)
      | succ j => exact ih hcs (by simpa using hc) (by simpa using hd) (by omega)

theorem within_sweep (s : Setting) (n : Node H) : Within n.ids (n.sweep s) := by
  induction n with
  | mk f cs ih =>
    rw [sweep_mk, ids_mk, within_append]
    refine ⟨?_, (f.mine_sweep s).within (by simp)⟩
    split
    · intro e he k hk
      obtain ⟨c, hc, he⟩ := List.mem_flatMap.mp he
      exact List.mem_cons_of_mem _ (List.mem_flatMap.mpr ⟨c, hc, ih c hc e he k hk⟩)
    · simp [Within]

theorem within_sweeps (s : Setting) (cs : List (Node H)) :
    Within (cs.flatMap ids) (cs.flatMap (sweep s)) := by
  intro e he k hk
  obtain ⟨c, hc, he⟩ := List.mem_flatMap.mp he
  exact List.mem_flatMap.mpr ⟨c, hc, within_sweep s c e he k hk⟩

theorem nodal_sweep (s : Setting) (n : Node H) : Nodal (n.sweep s) := by
  induction n with
  | mk f cs ih =>
    rw [sweep_mk, nodal_append]
    refine ⟨?_, (f.mine_sweep s).nodal⟩
    split
    · exact nodal_flatMap ih
    · simp [Nodal]

theorem nodal_abort (s : Setting) (n : Node H) (st : Stage H) : Nodal (n.abort s st).trace := by
  rw [← nodal_calls, calls_abort]
  exact n.nodal_sweep s

theorem filter_sweeps {s : Setting} {cs : List (Node H)} (hn : (cs.flatMap ids).Nodup) {c : Node H}
    (hc : c ∈ cs) {p : Entry H.Note → Bool} (hp : Only c.ids p) :
    (cs.flatMap (sweep s)).filter p = (c.sweep s).filter p := by
  induction cs with
  | nil => simp at hc
  | cons d cs ih =>
    obtain ⟨-, hcs, hdisjoint⟩ := nodup_ids_cons hn
    rw [List.flatMap_cons, List.filter_append]
    obtain rfl | hc := List.mem_cons.mp hc
    · rw [(within_sweeps s cs).filter_eq_nil hp hdisjoint, List.append_nil]
    · have hd : ∀ k ∈ c.ids, k ∉ d.ids := fun k hk hk' =>
        hdisjoint k hk' (List.mem_flatMap.mpr ⟨c, hc, hk⟩)
      rw [(within_sweep s d).filter_eq_nil hp hd, ih hcs hc, List.nil_append]

end Node

/-- Executions that write about the nodes of their tree only, and keep them. -/
def Law.Local (P : Law H) : Prop :=
  ∀ n st o, P n st o → Within n.ids o.trace ∧ o.value.2.ids = n.ids

namespace Visits
variable {P : Law H} {log : Log} {cs cs' : List (Node H)} {st st' : Stage H}
  {tr : List (Entry H.Note)}

theorem flatMap_ids_eq (hP : P.Local) (h : Visits P log cs st cs' st' tr) :
    cs'.flatMap Node.ids = cs.flatMap Node.ids := by
  rw [List.flatMap_def, List.flatMap_def, h.map_eq fun n st o h => (hP n st o h).2]

theorem within (hP : P.Local) (h : Visits P log cs st cs' st' tr) :
    Within (cs.flatMap Node.ids) tr := by
  induction h with
  | nil => simp [Within]
  | @cons i a c c' log cs cs' st st₁ st₂ tr tr' _ child law _ ih =>
    obtain ⟨htr, hids⟩ := hP _ _ _ law
    obtain ⟨before, after, rfl, hset⟩ := Node.exists_split child
    rw [hset] at ih
    refine within_append.mpr ⟨htr.mono fun k hk => by simp [hk], ?_⟩
    simpa [show c'.ids = c.ids from hids] using ih

theorem nodal (hP : ∀ n st o, P n st o → Nodal o.trace) (h : Visits P log cs st cs' st' tr) :
    Nodal tr := by
  induction h with
  | nil => simp [Nodal]
  | cons _ _ law _ ih => exact nodal_append.mpr ⟨hP _ _ _ law, ih⟩

/-- Each child is either left alone or executed once. -/
theorem share (hP : P.Local) (h : Visits P log cs st cs' st' tr)
    (hn : (cs.flatMap Node.ids).Nodup) (i : Nat) {c : Node H} (hc : cs[i]? = some c) :
    (i ∉ log.map Prod.fst ∧ cs'[i]? = some c ∧ ∀ p, Only c.ids p → tr.filter p = []) ∨
    ∃ a st o, (i, a) ∈ log ∧ P c st o ∧ o.value.1 = a ∧ cs'[i]? = some o.value.2 ∧
      ∀ p, Only c.ids p → tr.filter p = o.trace.filter p := by
  induction h generalizing c with
  | nil => exact .inl ⟨by simp, hc, fun _ _ => rfl⟩
  | @cons j a d d' log cs cs' st st₁ st₂ tr tr' fresh child law _ ih =>
    obtain ⟨htr, hids⟩ := hP _ _ _ law
    have hids : d'.ids = d.ids := hids
    have hn' : ((cs.set j d').flatMap Node.ids).Nodup := by
      obtain ⟨before, after, rfl, hset⟩ := Node.exists_split child
      rw [hset]
      simpa [hids] using hn
    by_cases hij : i = j
    · -- the child executed now is not among those executed later
      subst hij
      obtain rfl : d = c := Option.some.inj (child.symm.trans hc)
      have hi : (cs.set i d')[i]? = some d' :=
        List.getElem?_set_self (List.getElem?_eq_some_iff.mp child).1
      obtain ⟨-, hsame, hnone⟩ | ⟨b, _, _, hb, -⟩ := ih hn' hi
      · refine .inr ⟨a, st, _, by simp, law, rfl, hsame, fun p hp => ?_⟩
        rw [List.filter_append, hnone p (hids.symm ▸ hp), List.append_nil]
      · exact absurd (List.mem_map_of_mem hb) fresh
    · have hi : (cs.set j d')[i]? = some c := by rwa [List.getElem?_set_ne (Ne.symm hij)]
      have hnil {p : Entry H.Note → Bool} (hp : Only c.ids p) : tr.filter p = [] :=
        htr.filter_eq_nil hp (Node.ids_disjoint hn hc child hij)
      obtain ⟨hlog, hsame, hnone⟩ | ⟨b, s, o, hb, hlaw, ha, hsame, hfilter⟩ := ih hn' hi
      · refine .inl ⟨by simpa [hij] using hlog, hsame, fun p hp => ?_⟩
        rw [List.filter_append, hnil hp, hnone p hp, List.nil_append]
      · refine .inr ⟨b, s, o, List.mem_cons_of_mem _ hb, hlaw, ha, hsame, fun p hp => ?_⟩
        rw [List.filter_append, hnil hp, hfilter p hp, List.nil_append]

theorem forall₂ (hP : P.Local) (h : Visits P log cs st cs' st' tr)
    (hn : (cs.flatMap Node.ids).Nodup) {R : Node H → Node H → Prop}
    (left : ∀ c ∈ cs, (∀ p, Only c.ids p → tr.filter p = []) → R c c)
    (executed : ∀ c ∈ cs, ∀ i a st o, (i, a) ∈ log → P c st o → o.value.1 = a →
      (∀ p, Only c.ids p → tr.filter p = o.trace.filter p) → R c o.value.2) :
    List.Forall₂ R cs cs' := by
  refine List.forall₂_iff_get.mpr ⟨h.length_eq.symm, fun i hi hi' => ?_⟩
  have hc : cs[i]? = some (cs.get ⟨i, hi⟩) := List.getElem?_eq_getElem hi
  have hc' : cs'[i]? = some (cs'.get ⟨i, hi'⟩) := List.getElem?_eq_getElem hi'
  have hmem : cs.get ⟨i, hi⟩ ∈ cs := List.get_mem ..
  obtain ⟨-, hsame, hnone⟩ | ⟨a, st, o, hlog, hlaw, ha, hsame, hfilter⟩ := h.share hP hn i hc
  · rw [hc'] at hsame
    rw [Option.some.inj hsame]
    exact left _ hmem hnone
  · rw [hc'] at hsame
    rw [Option.some.inj hsame]
    exact executed _ hmem i a st o hlog hlaw ha hfilter

end Visits

namespace Node

/-- An execution changes neither the nodes of a tree nor what is attached to them. -/
theorem shape_execute (s : Setting) (dt : Float32) {n : Node H} (h : n.Sound) (st : Stage H) :
    (n.execute s dt st).value.2.shape = n.shape := by
  refine execute_rule (P := fun n _ o => o.value.2.shape = n.shape) (fun f cs st o _ _ h => ?_) h st
  cases Frame.unfolds h with
  | @mk w₁ w₂ w₃ f' _ _ cs₁ cs₂ _ _ _ _ _ _ visit visits _ teardown =>
    have hcs : cs₂.map shape = cs.map shape :=
      (teardown.map_eq shape_settle).trans (visits.map_eq fun _ _ _ h => h.1)
    change (mk f' cs₂).mapFrames Frame.bare = (mk f cs).mapFrames Frame.bare
    rw [mapFrames_mk, mapFrames_mk, visit.bare_eq]
    exact congrArg _ hcs

theorem within_execute (s : Setting) (dt : Float32) {n : Node H} (h : n.Sound) (st : Stage H) :
    Within n.ids (n.execute s dt st).trace := by
  refine execute_rule (P := fun n _ o => Within n.ids o.trace) (fun f cs st o _ _ h => ?_) h st
  have hlocal : (Law.During (fun n _ o => Within n.ids o.trace) s dt : Law H).Local := by
    rintro n st o ⟨h, hsound, rfl⟩
    exact ⟨h, ids_eq_of_shape (shape_execute s dt hsound st)⟩
  cases Frame.unfolds h with
  | @mk w₁ w₂ w₃ f' _ _ cs₁ cs₂ _ _ _ tr trc swept visit visits _ teardown trace
      mine₁ mine₂ mine₃ =>
    have hf : f.id ∈ (mk f cs).ids := by simp
    have hsub : ∀ k ∈ cs.flatMap ids, k ∈ (mk f cs).ids := fun k hk => by
      rw [ids_mk]
      exact List.mem_cons_of_mem _ hk
    have hswept : Within (cs.flatMap ids) swept := by
      rw [← visits.flatMap_ids_eq hlocal]
      cases teardown with
      | kept => simp [Within]
      | swept => exact within_sweeps s cs₁
    rw [← within_calls, trace]
    simp only [within_append]
    exact ⟨mine₁.within hf, within_calls.mpr ((visits.within hlocal).mono hsub), mine₂.within hf,
      hswept.mono hsub, mine₃.within hf⟩

theorem nodal_execute (s : Setting) (dt : Float32) {n : Node H} (h : n.Sound) (st : Stage H) :
    Nodal (n.execute s dt st).trace := by
  refine execute_rule (P := fun _ _ o => Nodal o.trace) (fun f cs st o _ _ h => ?_) h st
  cases Frame.unfolds h with
  | @mk w₁ w₂ w₃ f' _ _ cs₁ cs₂ _ _ _ tr trc swept visit visits _ teardown trace
      mine₁ mine₂ mine₃ =>
    have hswept : Nodal swept := by
      cases teardown with
      | kept => simp [Nodal]
      | swept => exact nodal_flatMap fun c _ => c.nodal_sweep s
    rw [← nodal_calls, trace]
    simp only [nodal_append]
    exact ⟨mine₁.nodal, nodal_calls.mpr (visits.nodal fun _ _ _ h => h.1), mine₂.nodal, hswept,
      mine₃.nodal⟩

theorem local_execute (P : Law H) (s : Setting) (dt : Float32) :
    (P.During s dt).Local := by
  rintro n st o ⟨-, hsound, rfl⟩
  exact ⟨within_execute s dt hsound st, ids_eq_of_shape (shape_execute s dt hsound st)⟩

end Node
end TickTree
