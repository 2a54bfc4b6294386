import TickTree.Proofs.Run
/-! Activations are nested. At every point of a trace the activation of a child is open only while
that of its parent is, and so no activation outlives the one that it belongs to. -/
namespace TickTree
variable {H : Host} {ν : Type}

namespace Node

mutual
def edges : Node H → List (NodeId × NodeId)
  | mk f cs => edgesAll f.id cs

def edgesAll (parent : NodeId) : List (Node H) → List (NodeId × NodeId)
  | [] => []
  | c :: cs => (parent, c.id) :: edges c ++ edgesAll parent cs
end

theorem edgesAll_eq_flatMap (k : NodeId) (cs : List (Node H)) :
    edgesAll k cs = cs.flatMap fun c => (k, c.id) :: c.edges := by
  induction cs with
  | nil => rfl
  | cons c cs ih => rw [edgesAll, ih, List.flatMap_cons]

theorem mem_edges_mk {x : NodeId × NodeId} {f : Frame H} {cs : List (Node H)} :
    x ∈ (mk f cs).edges ↔ ∃ c ∈ cs, x = (f.id, c.id) ∨ x ∈ c.edges := by
  rw [edges, edgesAll_eq_flatMap, List.mem_flatMap]
  simp

theorem ids_of_mem_edges {x : NodeId × NodeId} {n : Node H} (h : x ∈ n.edges) :
    x.1 ∈ n.ids ∧ x.2 ∈ n.ids := by
  induction n with
  | mk f cs ih =>
    rw [ids_mk, List.mem_cons, List.mem_cons, List.mem_flatMap, List.mem_flatMap]
    obtain ⟨c, hc, rfl | hx⟩ := mem_edges_mk.mp h
    · exact ⟨.inl rfl, .inr ⟨c, hc, c.id_mem_ids⟩⟩
    · obtain ⟨h₁, h₂⟩ := ih c hc hx
      exact ⟨.inr ⟨c, hc, h₁⟩, .inr ⟨c, hc, h₂⟩⟩

theorem edges_shape (n : Node H) : n.shape.edges = n.edges := by
  induction n with
  | mk f cs ih =>
    rw [shape, mapFrames_mk, edges, edges, edgesAll_eq_flatMap, edgesAll_eq_flatMap,
      List.flatMap_map]
    refine List.flatMap_congr fun c hc => ?_
    rw [← ih c hc, ← id_shape c]
    rfl

theorem edges_eq_of_shape {n m : Node H} (h : n.shape = m.shape) : n.edges = m.edges := by
  rw [← edges_shape n, h, edges_shape]

/-- The open activations are those that the frames show, none of them without its parent's. -/
structure Tidy (a : NodeId → Bool) (n : Node H) : Prop where
  shows : ∀ f ∈ n.frames, f.active = a f.id
  closed : ∀ x ∈ n.edges, a x.2 = true → a x.1 = true

def Closed (n : Node H) : Prop := n.All fun f cs => f.active = false → ∀ c ∈ cs, c.isActive = false

theorem tidy_mk {a : NodeId → Bool} {f : Frame H} {cs : List (Node H)} :
    Tidy a (mk f cs) ↔
      f.active = a f.id ∧ ∀ c ∈ cs, (a c.id = true → a f.id = true) ∧ Tidy a c := by
  constructor
  · rintro ⟨hshows, hclosed⟩
    refine ⟨hshows f (by simp), fun c hc => ⟨?_, fun g hg => hshows g ?_, fun x hx => ?_⟩⟩
    · exact hclosed (f.id, c.id) (mem_edges_mk.mpr ⟨c, hc, .inl rfl⟩)
    · simpa using Or.inr ⟨c, hc, hg⟩
    · exact hclosed x (mem_edges_mk.mpr ⟨c, hc, .inr hx⟩)
  · rintro ⟨hf, hcs⟩
    refine ⟨fun g hg => ?_, fun x hx => ?_⟩
    · rw [frames_mk, List.mem_cons, List.mem_flatMap] at hg
      obtain rfl | ⟨c, hc, hg⟩ := hg
      · exact hf
      · exact (hcs c hc).2.shows g hg
    · obtain ⟨c, hc, rfl | hx⟩ := mem_edges_mk.mp hx
      · exact (hcs c hc).1
      · exact (hcs c hc).2.closed x hx

namespace Tidy
variable {a a' : NodeId → Bool} {n : Node H}

theorem isActive_eq (h : Tidy a n) : n.isActive = a n.id := h.shows n.frame n.frame_mem_frames

theorem congr (h : Tidy a n) (ha : ∀ k ∈ n.ids, a' k = a k) : Tidy a' n := by
  refine ⟨fun f hf => ?_, fun x hx => ?_⟩
  · rw [ha f.id (List.mem_map_of_mem hf)]
    exact h.shows f hf
  · obtain ⟨h₁, h₂⟩ := ids_of_mem_edges hx
    rw [ha _ h₁, ha _ h₂]
    exact h.closed x hx

theorem closed_node (h : Tidy a n) : n.Closed := by
  induction n with
  | mk f cs ih =>
    obtain ⟨hf, hcs⟩ := tidy_mk.mp h
    refine .mk (fun hidle c hc => ?_) fun c hc => ih c hc (hcs c hc).2
    rw [(hcs c hc).2.isActive_eq]
    exact Bool.eq_false_iff.mpr fun hc' => by simp [hf, (hcs c hc).1 hc'] at hidle

end Tidy

theorem tidy_of_idle {n : Node H} (h : n.Idle) : Tidy (fun _ => false) n :=
  ⟨h, by simp⟩

theorem idle_mk {f : Frame H} {cs : List (Node H)} (hf : f.active = false)
    (hcs : ∀ c ∈ cs, c.Idle) : (mk f cs).Idle := by
  intro g hg
  rw [frames_mk, List.mem_cons, List.mem_flatMap] at hg
  obtain rfl | ⟨c, hc, hg⟩ := hg
  · exact hf
  · exact hcs c hc g hg

theorem Closed.idle {n : Node H} (h : n.Closed) (hn : n.isActive = false) : n.Idle := by
  induction n with
  | mk f cs ih =>
    obtain ⟨hf, hcs⟩ := all_mk.mp h
    exact idle_mk hn fun c hc => ih c hc (hcs c hc) (hf hn c hc)

theorem Closed.idle_settle {n : Node H} (h : n.Closed) : n.settle.Idle := by
  induction n with
  | mk f cs ih =>
    obtain ⟨hf, hcs⟩ := all_mk.mp h
    rw [settle_mk]
    refine idle_mk f.active_settle fun c hc => ?_
    split at hc
    · obtain ⟨c, hm, rfl⟩ := List.mem_map.mp hc
      exact ih c hm (hcs c hm)
    · next hidle => exact Closed.idle (hcs c hc) (hf (by simpa using hidle) c hc)

end Node

/-- At every point of a trace the child of the edge is open only while the parent is. -/
def Nested (a : NodeId → Bool) (x : NodeId × NodeId) (tr : List (Entry ν)) : Prop :=
  ∀ pre, pre <+: tr → opened a pre x.2 = true → opened a pre x.1 = true

def both (x : NodeId × NodeId) (tr : List (Entry ν)) : List (Entry ν) :=
  tr.filter fun e => e.about = some x.1 ∨ e.about = some x.2

section Nested
variable {a : NodeId → Bool} {x : NodeId × NodeId} {tr tr' : List (Entry ν)}

theorem nested_of_parent (h : Steady x.1 tr) (ha : a x.1 = true) : Nested a x tr := by
  intro pre hp _
  rw [opened_of_steady (h.of_prefix hp), ha]

theorem nested_of_child (h : Steady x.2 tr) (ha : a x.2 = false) : Nested a x tr := by
  intro pre hp hc
  rw [opened_of_steady (h.of_prefix hp), ha] at hc
  cases hc

theorem nested_nil (h : a x.2 = true → a x.1 = true) : Nested a x ([] : List (Entry ν)) := by
  intro pre hp
  obtain rfl : pre = [] := List.prefix_nil.mp hp
  exact h

theorem nested_append :
    Nested a x (tr ++ tr') ↔ Nested a x tr ∧ Nested (opened a tr) x tr' := by
  constructor
  · intro h
    refine ⟨fun pre hp => h pre (hp.trans (List.prefix_append _ _)), fun pre hp => ?_⟩
    have := h (tr ++ pre) ((List.prefix_append_right_inj tr).mpr hp)
    rwa [opened_append] at this
  · rintro ⟨h, h'⟩ pre hp
    obtain hp' | ⟨pre', rfl⟩ := List.prefix_or_prefix_of_prefix hp (List.prefix_append tr tr')
    · exact h pre hp'
    · rw [opened_append]
      exact h' pre' ((List.prefix_append_right_inj tr).mp hp)

theorem opened_both (pre : List (Entry ν)) :
    opened a (both x pre) x.1 = opened a pre x.1 ∧
      opened a (both x pre) x.2 = opened a pre x.2 := by
  constructor <;> rw [opened, opened, own, own, both, List.filter_filter] <;>
    exact congrArg _ (List.filter_congr fun e _ => by
      by_cases h : e.about = some x.1 <;> simp [h])

theorem nested_both : Nested a x (both x tr) ↔ Nested a x tr := by
  constructor
  · intro h pre hp
    obtain ⟨h₁, h₂⟩ := opened_both (a := a) (x := x) pre
    rw [← h₁, ← h₂]
    exact h (both x pre) (hp.filter _)
  · intro h pre hp
    obtain ⟨whole, hwhole, rfl⟩ := List.prefix_filter_iff.mp hp
    obtain ⟨h₁, h₂⟩ := opened_both (a := a) (x := x) whole
    change opened a (both x whole) x.2 = true → opened a (both x whole) x.1 = true
    rw [h₁, h₂]
    exact h whole hwhole

theorem nested_congr (h : both x tr = both x tr') : Nested a x tr ↔ Nested a x tr' := by
  rw [← nested_both, h, nested_both]

@[simp] theorem both_append : both x (tr ++ tr') = both x tr ++ both x tr' := List.filter_append ..

theorem both_eq_nil (h₁ : own x.1 tr = []) (h₂ : own x.2 tr = []) : both x tr = [] := by
  rw [own, List.filter_eq_nil_iff] at h₁ h₂
  refine List.filter_eq_nil_iff.mpr fun e he => ?_
  simpa using ⟨by simpa using h₁ e he, by simpa using h₂ e he⟩

theorem both_calls : both x (calls tr) = both x tr := by
  rw [both, calls, List.filter_filter]
  refine List.filter_congr fun e _ => ?_
  cases e <;> simp [Entry.isNote, Entry.about]

end Nested

namespace Node

theorem shows_of_tracks {a : NodeId → Bool} {tr : List (Entry H.Note)} {fs gs : List (Frame H)}
    (h : Each Frame.activity.holds tr fs gs) (hfs : ∀ f ∈ fs, f.active = a f.id) :
    ∀ g ∈ gs, g.active = opened a tr g.id := by
  intro g hg
  obtain ⟨f, hf, hid, hactive⟩ := exists_left h hg
  rw [hid, opened, ← hfs f hf]
  exact hactive

/-- An edge whose ends are written about in turns: the parent opens before entries about the child,
stays open between them, and closes only after the child has. -/
theorem nested_edge {a : NodeId → Bool} {p k : NodeId} {w₁ c₁ w₂ c₂ w₃ : List (Entry ν)}
    (h₁ : own k w₁ = []) (h₂ : own k w₂ = []) (h₃ : own k w₃ = []) (hc₁ : own p c₁ = [])
    (hc₂ : own p c₂ = []) (below : a k = true → a p = true) (already : a p = true → Steady p w₁)
    (opens : opened a w₁ p = true) (quiet : Steady p w₂)
    (ends : opened a (c₁ ++ c₂) k = false ∨ Steady p w₃) :
    Nested a (p, k) (w₁ ++ (c₁ ++ (w₂ ++ (c₂ ++ w₃)))) := by
  have hc₁ := steady_of_own_eq_nil hc₁
  have hc₂ := steady_of_own_eq_nil hc₂
  have open₁ : opened (opened a w₁) c₁ p = true := by rw [opened_of_steady hc₁, opens]
  have open₂ : opened (opened (opened a w₁) c₁) w₂ p = true := by
    rw [opened_of_steady quiet, open₁]
  have open₃ : opened (opened (opened (opened a w₁) c₁) w₂) c₂ p = true := by
    rw [opened_of_steady hc₂, open₂]
  rw [nested_append, nested_append, nested_append, nested_append]
  refine ⟨?_, nested_of_parent hc₁ opens, nested_of_parent quiet open₁,
    nested_of_parent hc₂ open₂, ?_⟩
  · by_cases hp : a p = true
    · exact nested_of_parent (already hp) hp
    · have hk : a k = false := Bool.eq_false_iff.mpr fun hk => hp (below hk)
      exact nested_of_child (steady_of_own_eq_nil h₁) hk
  · obtain hk | h := ends
    · refine nested_of_child (steady_of_own_eq_nil h₃) ?_
      rw [← hk]
      simp [opened, h₁, h₂]
    · exact nested_of_parent h open₃

theorem steady_of_quiet {k : NodeId} {w : List (Entry ν)} (h : ∀ e ∈ w, e.turn = none) :
    Steady k w := fun e he => h e (List.mem_of_mem_filter he)

theorem nested_around {a : NodeId → Bool} {f : Frame H} {cs : List (Node H)}
    {tr : List (Entry H.Note)} (w₁ c₁ w₂ c₂ w₃ : List (Entry H.Note))
    (hn : (mk f cs).ids.Nodup) (h : Tidy a (mk f cs))
    (trace : ∀ x, both x tr = both x (w₁ ++ (c₁ ++ (w₂ ++ (c₂ ++ w₃)))))
    (mine₁ : Mine f.id w₁) (mine₂ : Mine f.id w₂) (mine₃ : Mine f.id w₃)
    (within₁ : Within (cs.flatMap ids) c₁) (within₂ : Within (cs.flatMap ids) c₂)
    (already : f.active = true → ∀ e ∈ w₁, e.turn = none)
    (opens : openAfter f.active w₁ = true ∨ f.active = false ∧ c₁ = [] ∧ c₂ = [])
    (quiet : ∀ e ∈ w₂, e.turn = none)
    (ends : (∀ c ∈ cs, opened a (c₁ ++ c₂) c.id = false) ∨ ∀ e ∈ w₃, e.turn = none)
    (inner : ∀ c ∈ cs, ∀ x ∈ c.edges, Nested a x (c₁ ++ c₂)) :
    ∀ x ∈ (mk f cs).edges, Nested a x tr := by
  obtain ⟨hf, hcs⟩ := tidy_mk.mp h
  obtain ⟨hout, -⟩ := nodup_mk hn
  have hchild {c : Node H} (hc : c ∈ cs) {k : NodeId} (hk : k ∈ c.ids) {w : List (Entry H.Note)}
      (hw : Mine f.id w) : own k w = [] :=
    own_eq_nil hw fun e => hout (List.mem_flatMap.mpr ⟨c, hc, e ▸ hk⟩)
  intro x hx
  rw [nested_congr (trace x)]
  obtain ⟨c, hmem, rfl | hx⟩ := mem_edges_mk.mp hx
  · have hid := c.id_mem_ids
    obtain hopen | ⟨hidle, rfl, rfl⟩ := opens
    · refine nested_edge (hchild hmem hid mine₁) (hchild hmem hid mine₂) (hchild hmem hid mine₃)
        (within₁.own_eq_nil hout) (within₂.own_eq_nil hout) (hcs c hmem).1 ?_ ?_
        (steady_of_quiet quiet) ?_
      · exact fun ha => steady_of_quiet (already (hf ▸ ha))
      · rwa [opened, own_eq_self mine₁, ← hf]
      · exact ends.imp (fun h => h c hmem) steady_of_quiet
    · have hshut : a c.id = false :=
        Bool.eq_false_iff.mpr fun hc => by simp [hf, (hcs c hmem).1 hc] at hidle
      refine nested_of_child (steady_of_own_eq_nil ?_) hshut
      simp [hchild hmem hid mine₁, hchild hmem hid mine₂, hchild hmem hid mine₃]
  · obtain ⟨hx₁, hx₂⟩ := ids_of_mem_edges hx
    have hnil {w : List (Entry H.Note)} (hw : Mine f.id w) : both x w = [] :=
      both_eq_nil (hchild hmem hx₁ hw) (hchild hmem hx₂ hw)
    refine (nested_congr ?_).mpr (inner c hmem x hx)
    simp [hnil mine₁, hnil mine₂, hnil mine₃]

theorem Tidy.after {a : NodeId → Bool} {tr : List (Entry H.Note)} {n n' : Node H} (h : Tidy a n)
    (tracks : Each Frame.activity.holds tr n.frames n'.frames) (hs : n'.shape = n.shape)
    (nested : ∀ x ∈ n.edges, Nested a x tr) : Tidy (opened a tr) n' := by
  refine ⟨shows_of_tracks tracks h.shows, fun x hx => ?_⟩
  rw [edges_eq_of_shape hs] at hx
  exact nested x hx tr List.prefix_rfl

theorem both_of_filter {tr tr' : List (Entry H.Note)} {c : Node H}
    (h : ∀ p, Only c.ids p → tr.filter p = tr'.filter p) {x : NodeId × NodeId} (hx : x ∈ c.edges) :
    both x tr = both x tr' := by
  obtain ⟨h₁, h₂⟩ := ids_of_mem_edges hx
  refine h _ fun e he => ?_
  obtain he | he := of_decide_eq_true he
  · exact ⟨x.1, h₁, he⟩
  · exact ⟨x.2, h₂, he⟩

theorem opened_of_filter {tr tr' : List (Entry H.Note)} {c : Node H}
    (h : ∀ p, Only c.ids p → tr.filter p = tr'.filter p) (a : NodeId → Bool) :
    ∀ k ∈ c.ids, opened a tr k = opened a tr' k := fun k hk =>
  congrArg (openAfter (a k)) (h _ (only_own hk))

theorem sweeps_nested {a : NodeId → Bool} {s : Setting} {cs : List (Node H)}
    (hn : (cs.flatMap ids).Nodup)
    (h : ∀ c ∈ cs, c.ids.Nodup → ∀ x ∈ c.edges, Nested a x (c.sweep s)) :
    ∀ c ∈ cs, ∀ x ∈ c.edges, Nested a x (cs.flatMap (sweep s)) := by
  intro c hc x hx
  have hboth := both_of_filter (fun p hp => filter_sweeps (s := s) hn hc hp) hx
  exact (nested_congr hboth).mpr (h c hc ((List.nodup_flatMap.mp hn).1 c hc) x hx)

theorem sweeps_shut {a : NodeId → Bool} {s : Setting} {cs : List (Node H)}
    (hn : (cs.flatMap ids).Nodup) (h : ∀ c ∈ cs, Tidy a c) :
    ∀ c ∈ cs, opened a (cs.flatMap (sweep s)) c.id = false := by
  intro c hc
  have htracks := sweep_tracks Frame.activity s ((List.nodup_flatMap.mp hn).1 c hc)
  have hshows := shows_of_tracks htracks (h c hc).shows c.settle.frame c.settle.frame_mem_frames
  have hid : c.settle.id = c.id := id_eq_of_shape (shape_settle c)
  rw [opened_of_filter (fun p hp => filter_sweeps (s := s) hn hc hp) a c.id c.id_mem_ids, ← hid]
  exact hshows.symm.trans c.isActive_settle

/-- An abort closes activations from the leaves up. -/
theorem sweep_nested {a : NodeId → Bool} (s : Setting) {n : Node H} (hn : n.ids.Nodup)
    (h : Tidy a n) : ∀ x ∈ n.edges, Nested a x (n.sweep s) := by
  induction n with
  | mk f cs ih =>
    obtain ⟨hf, hcs⟩ := tidy_mk.mp h
    obtain ⟨-, hn'⟩ := nodup_mk hn
    rw [sweep_mk]
    by_cases hactive : f.active = true
    · rw [if_pos hactive]
      refine nested_around [] [] [] (cs.flatMap (sweep s)) (f.sweep s) hn h (fun _ => rfl)
        (mine_nil _) (mine_nil _) (f.mine_sweep s) (by simp [Within]) (within_sweeps s cs) (by simp)
        (.inl hactive) (by simp) (.inl ?_) ?_
      · exact sweeps_shut hn' fun c hc => (hcs c hc).2
      · exact sweeps_nested hn' fun c hc hnc => ih c hc hnc (hcs c hc).2
    · rw [if_neg hactive, f.sweep_of_idle s (by simpa using hactive)]
      exact fun x hx => nested_nil (h.closed x hx)

def NestedLaw : Law H := fun n _ o =>
  n.ids.Nodup → ∀ a, Tidy a n → ∀ x ∈ n.edges, Nested a x o.trace

theorem visits_nested {s : Setting} {dt : Float32} {log : Log} {cs cs' : List (Node H)}
    {st st' : Stage H} {tr : List (Entry H.Note)}
    (h : Visits (NestedLaw.During s dt) log cs st cs' st' tr) (hn : (cs.flatMap ids).Nodup)
    {a : NodeId → Bool} (htidy : ∀ c ∈ cs, Tidy a c) :
    List.Forall₂ (fun c c' => (∀ x ∈ c.edges, Nested a x tr) ∧ c'.shape = c.shape ∧
      Tidy (opened a tr) c') cs cs' := by
  refine h.forall₂ (local_execute _ s dt) hn (fun c hc hnone => ?_) ?_
  · have hc := htidy c hc
    have hnone' : ∀ p, Only c.ids p → tr.filter p = [].filter p := hnone
    refine ⟨fun x hx => ?_, rfl, hc.congr fun k hk => opened_of_filter hnone' a k hk⟩
    exact (nested_congr (both_of_filter hnone' hx)).mpr (nested_nil (hc.closed x hx))
  · rintro c hc i answer st o - ⟨hlaw, hsound, rfl⟩ - hsame
    have hnc := (List.nodup_flatMap.mp hn).1 c hc
    have hnested := hlaw hnc a (htidy c hc)
    have hshape := shape_execute s dt hsound st
    have htracks := execute_tracks Frame.activity s dt hsound hnc st trivial
    refine ⟨fun x hx => ?_, hshape, ?_⟩
    · exact (nested_congr (both_of_filter hsame hx)).mpr (hnested x hx)
    · refine ((htidy c hc).after htracks hshape hnested).congr fun k hk => ?_
      exact opened_of_filter hsame a k (ids_eq_of_shape hshape ▸ hk)

theorem execute_nested (s : Setting) (dt : Float32) {n : Node H} (h : n.Sound) (st : Stage H) :
    NestedLaw n st (n.execute s dt st) := by
  refine execute_rule (fun f cs st o _ _ h hn a htidy => ?_) h st
  obtain ⟨-, hcs⟩ := nodup_mk hn
  obtain ⟨hf, hchildren⟩ := tidy_mk.mp htidy
  cases Frame.unfolds h with
  | @mk w₁ w₂ w₃ f' answer log cs₁ cs₂ st₁ st₂ st' tr trc swept visit visits answers teardown trace
      mine₁ mine₂ mine₃ already opens quiet =>
    have hlocal := local_execute (NestedLaw (H := H)) s dt
    have hids := visits.flatMap_ids_eq hlocal
    have hvisits := visits_nested visits hcs fun c hc => (hchildren c hc).2
    -- the children between their executions and their aborts
    have htidy₁ : ∀ c ∈ cs₁, Tidy (opened a trc) c := fun c hc => by
      obtain ⟨-, -, -, -, h⟩ := exists_left hvisits hc
      exact h
    refine nested_around _ _ _ _ _ hn htidy (fun x => ?_) mine₁ mine₂ mine₃
      (within_calls.mpr (visits.within hlocal)) (hids ▸ teardown.within) already ?_ quiet ?_ ?_
    · rw [← trace, both_calls]
    · exact opens.imp_right fun ⟨hidle, htrc, hswept⟩ => ⟨hidle, by rw [htrc]; rfl, hswept⟩
    · cases teardown with
      | kept quiet => exact .inr quiet
      | swept =>
        refine .inl fun c hc => ?_
        obtain ⟨d, hd, -, hdc, -⟩ := exists_right hvisits hc
        rw [opened_append, opened_calls, ← id_eq_of_shape hdc]
        exact sweeps_shut (hids ▸ hcs) htidy₁ d hd
    · intro c hc x hx
      obtain ⟨d, hd, hnested, hdc, -⟩ := exists_right hvisits hc
      rw [nested_append, opened_calls]
      refine ⟨(nested_congr both_calls).mpr (hnested x hx), ?_⟩
      rw [← edges_eq_of_shape hdc] at hx
      cases teardown with
      | kept => exact nested_nil ((htidy₁ d hd).closed x hx)
      | swept =>
        refine sweeps_nested (hids ▸ hcs) (fun c hc hnc => ?_) d hd x hx
        exact sweep_nested s hnc (htidy₁ c hc)

end Node

theorem act_nested (m : Move H) {t : Rooted H} (h : t.Proper) (st : Stage H) {a : NodeId → Bool}
    (htidy : t.root.Tidy a) :
    ∀ x ∈ t.root.edges, Nested a x (m.act t st).trace := by
  cases m with
  | execute dt =>
    simpa [Move.act] using Node.execute_nested t.setting dt h.sound st h.distinct a htidy
  | abort =>
    intro x hx
    have hsweep := Node.sweep_nested t.setting h.distinct htidy x hx
    rw [← Node.calls_abort t.setting t.root st, nested_congr both_calls] at hsweep
    simpa [Move.act] using hsweep
  | beginTick dt => exact fun x hx => nested_nil (htidy.closed x hx)
  | outside change => exact fun x hx => nested_nil (htidy.closed x hx)

def isOpen (tr : List (Entry ν)) : NodeId → Bool := opened (fun _ => false) tr

theorem play_nested (ms : List (Move H)) {t : Rooted H} (h : t.Proper) (st : Stage H)
    {a : NodeId → Bool} (htidy : t.root.Tidy a) :
    (∀ x ∈ t.root.edges, Nested a x (play ms t st).trace) ∧
      (play ms t st).value.2.root.Tidy (opened a (play ms t st).trace) := by
  refine (play_rule (I := Rooted.Proper) (R := fun t _ tr u => ∀ a, t.root.Tidy a →
    u.root.edges = t.root.edges ∧ (∀ x ∈ t.root.edges, Nested a x tr) ∧ u.root.Tidy (opened a tr))
    (fun m _ st h => proper_act m h st) ?_ ?_ ?_ ms h st a htidy).2
  · exact fun t a htidy => ⟨rfl, fun x hx => nested_nil (htidy.closed x hx), htidy⟩
  · intro t u v _ _ tr tr' h h' a htidy
    obtain ⟨hedges, hnested, htidy⟩ := h a htidy
    obtain ⟨hedges', hnested', htidy'⟩ := h' _ htidy
    refine ⟨hedges'.trans hedges, fun x hx => nested_append.mpr ⟨hnested x hx, ?_⟩, ?_⟩
    · exact hnested' x (hedges ▸ hx)
    · rwa [opened_append]
  · intro m t st h a htidy
    have hshape := shape_act m h.sound st
    have hnested := act_nested m h st htidy
    have htracks := act_tracks Frame.activity m h st fun _ _ => trivial
    exact ⟨Node.edges_eq_of_shape hshape, hnested, htidy.after htracks hshape hnested⟩

/-- Whatever callbacks do, no activation outlives that of the parent: not within a run, not after an
operation, and not after a result that ends the activation of the root. -/
theorem nested_of_play (ms : List (Move H)) {t : Rooted H} (idle : t.root.Idle)
    (distinct : t.root.ids.Nodup) (st : Stage H) :
    let o := play ms t st
    let t' := o.value.2
    (∀ pre, pre <+: o.trace → ∀ x ∈ t.root.edges, isOpen pre x.2 = true → isOpen pre x.1 = true) ∧
      t'.root.edges = t.root.edges ∧ (∀ f ∈ t'.root.frames, f.active = isOpen o.trace f.id) ∧
      t'.root.Closed ∧
      (∀ dt r st', (t'.root.execute t'.setting dt st').value.1 = .ok r →
        ((t'.root.execute t'.setting dt st').value.2.isActive = true ↔ r = .running) ∧
        (r.isTerminal = true → (t'.root.execute t'.setting dt st').value.2.Idle)) ∧
      ∀ st', (t'.root.abort t'.setting st').value.Idle := by
  intro o t'
  have hproper : t.Proper := ⟨Node.sound_of_idle idle, distinct⟩
  have hshape := shape_play ms hproper.sound st
  obtain ⟨hnested, htidy⟩ := play_nested ms hproper st (Node.tidy_of_idle idle)
  have hclosed := htidy.closed_node
  refine ⟨fun pre hp x hx => hnested x hx pre hp, Node.edges_eq_of_shape hshape, htidy.shows,
    hclosed, fun dt r st' hr => ?_, fun st' => ?_⟩
  · have hproper' := proper_play ms hproper st
    have hactive := Node.isActive_execute t'.setting dt hproper'.sound st' r hr
    have hclosed' := (play_nested [.execute dt] hproper' st' htidy).2.closed_node
    refine ⟨hactive, fun hterminal => Node.Closed.idle ?_ ?_⟩
    · simpa [play, Move.act] using hclosed'
    · refine Bool.eq_false_iff.mpr fun h => ?_
      rw [hactive.mp h] at hterminal
      cases hterminal
  · rw [Node.value_abort]
    exact hclosed.idle_settle

theorem nested_of_play_echo :
    let o := play [.execute 1] Rooted.echo Rooted.still
    (Rooted.echo.root.Idle ∧ Rooted.echo.root.ids.Nodup) ∧ isOpen o.trace 3 = true ∧
      ∀ pre, pre <+: o.trace → ∀ x ∈ Rooted.echo.root.edges,
        isOpen pre x.2 = true → isOpen pre x.1 = true :=
  ⟨by decide, by decide +kernel, (nested_of_play _ (by decide) (by decide) _).1⟩

end TickTree
