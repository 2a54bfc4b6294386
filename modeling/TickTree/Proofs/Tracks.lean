import Mathlib.Data.List.Nodup
import TickTree.Proofs.Shares
/-! An execution of a tree visits each frame at most once and may abort it afterwards. Laws of
single frames, which relate a frame, the entries about it and the frame after them, hold of whole
trees. -/
namespace TickTree
variable {H : Host}

namespace Frame

inductive Swept (s : Setting) (f : Frame H) : List (Entry H.Note) → Frame H → Prop
  | missed : Swept s f [] f
  | reached : Swept s f (f.sweep s) f.settle

inductive Once (s : Setting) (dt : Float32) (answer : Answer) (f : Frame H) :
    List (Entry H.Note) → Frame H → Prop
  | missed {w : List (Entry H.Note)} {g : Frame H} (after : f.Swept s w g) :
    Once s dt answer f w g
  | visited {a : Answer} {w w' : List (Entry H.Note)} {g g' : Frame H}
    (visit : f.Visit s dt a w g) (ha : a = answer ∨ ∃ r, a = .ok r) (after : g.Swept s w' g') :
    Once s dt answer f (w ++ w') g'

variable {s : Setting} {dt : Float32} {f g g' : Frame H} {w w' : List (Entry H.Note)}

theorem Swept.trans (h : f.Swept s w g) (h' : g.Swept s w' g') : f.Swept s (w ++ w') g' := by
  cases h with
  | missed => exact h'
  | reached =>
    have hidle := f.active_settle
    cases h' with
    | missed =>
      rw [List.append_nil]
      exact .reached
    | reached =>
      rw [sweep_of_idle s hidle, settle_of_idle hidle, List.append_nil]
      exact .reached

theorem Once.trans_swept {answer : Answer} (h : f.Once s dt answer w g) (h' : g.Swept s w' g') :
    f.Once s dt answer (w ++ w') g' := by
  cases h with
  | missed after => exact .missed (after.trans h')
  | visited visit ha after =>
    rw [List.append_assoc]
    exact .visited visit ha (after.trans h')

theorem Once.mono {a answer : Answer} (h : f.Once s dt a w g)
    (ha : a = answer ∨ ∃ r, a = .ok r) : f.Once s dt answer w g := by
  cases h with
  | missed after => exact .missed after
  | visited visit hb after =>
    refine .visited visit ?_ after
    obtain rfl | hb := hb
    · exact ha
    · exact .inr hb

theorem Swept.of_idle (h : f.Swept s w g) (hf : f.active = false) : w = [] ∧ g = f := by
  cases h with
  | missed => exact ⟨rfl, rfl⟩
  | reached => exact ⟨f.sweep_of_idle s hf, settle_of_idle hf⟩

theorem Swept.bare_eq (h : f.Swept s w g) : g.bare = f.bare := by
  cases h with
  | missed => rfl
  | reached => exact f.bare_settle

theorem Once.bare_eq {answer : Answer} (h : f.Once s dt answer w g) : g.bare = f.bare := by
  cases h with
  | missed after => exact after.bare_eq
  | visited visit _ after => exact after.bare_eq.trans visit.bare_eq

end Frame

/-- Each frame is related to its successor through the entries about it. -/
def Each (R : Frame H → List (Entry H.Note) → Frame H → Prop) (tr : List (Entry H.Note)) :
    List (Frame H) → List (Frame H) → Prop :=
  List.Forall₂ fun f g => g.id = f.id ∧ R f (own f.id tr) g

namespace Each
variable {R S T : Frame H → List (Entry H.Note) → Frame H → Prop} {tr tr' : List (Entry H.Note)}
  {fs gs hs : List (Frame H)}

theorem imp (h : Each R tr fs gs) (hRS : ∀ f w g, R f w g → S f w g) : Each S tr fs gs :=
  List.Forall₂.imp (fun _ _ h => ⟨h.1, hRS _ _ _ h.2⟩) h

theorem trans (hRST : ∀ f w g w' g', R f w g → S g w' g' → T f (w ++ w') g')
    (h : Each R tr fs gs) (h' : Each S tr' gs hs) : Each T (tr ++ tr') fs hs := by
  induction h generalizing hs with
  | nil =>
    cases h'
    exact .nil
  | cons h _ ih =>
    cases h' with
    | cons h' hrest =>
      refine .cons ⟨h'.1.trans h.1, ?_⟩ (ih hrest)
      rw [own_append]
      exact hRST _ _ _ _ _ h.2 (h.1 ▸ h'.2)

theorem congr (h : Each R tr fs gs) (ho : ∀ f ∈ fs, own f.id tr' = own f.id tr) :
    Each R tr' fs gs := by
  induction h with
  | nil => exact .nil
  | @cons f g _ _ h _ ih =>
    refine .cons ⟨h.1, ?_⟩ (ih fun f hf => ho f (List.mem_cons_of_mem _ hf))
    rw [ho f (by simp)]
    exact h.2

theorem stay (hR : ∀ f, R f [] f) (ho : ∀ f ∈ fs, own f.id tr = []) : Each R tr fs fs := by
  refine List.forall₂_same.mpr fun f hf => ⟨rfl, ?_⟩
  rw [ho f hf]
  exact hR f

end Each

namespace Node
variable {R : Frame H → List (Entry H.Note) → Frame H → Prop} {s : Setting} {dt : Float32}

theorem each_children {cs cs' : List (Node H)} {tr : List (Entry H.Note)}
    (h : List.Forall₂ (fun c c' => Each R tr c.frames c'.frames) cs cs') :
    Each R tr (cs.flatMap frames) (cs'.flatMap frames) := List.rel_flatMap h fun _ _ h => h

theorem map_id_flatMap (cs : List (Node H)) :
    (cs.flatMap frames).map (·.id) = cs.flatMap ids := List.map_flatMap ..

theorem own_of_filter {tr tr' : List (Entry H.Note)} {c : Node H}
    (h : ∀ p, Only c.ids p → tr.filter p = tr'.filter p) :
    ∀ f ∈ c.frames, own f.id tr = own f.id tr' := fun _ hf =>
  h _ (only_own (List.mem_map_of_mem hf))

theorem nodup_mk {f : Frame H} {cs : List (Node H)} (hn : (mk f cs).ids.Nodup) :
    f.id ∉ cs.flatMap ids ∧ (cs.flatMap ids).Nodup := by
  rw [ids_mk] at hn
  exact List.nodup_cons.mp hn

theorem each_around {f f' : Frame H} {cs cs' : List (Node H)}
    {tr : List (Entry H.Note)} (w₁ c₁ w₂ c₂ w₃ : List (Entry H.Note)) (hn : (mk f cs).ids.Nodup)
    (trace : ∀ k, own k tr = own k (w₁ ++ (c₁ ++ (w₂ ++ (c₂ ++ w₃)))))
    (mine₁ : Mine f.id w₁) (mine₂ : Mine f.id w₂) (mine₃ : Mine f.id w₃)
    (within₁ : Within (cs.flatMap ids) c₁) (within₂ : Within (cs.flatMap ids) c₂)
    (hid : f'.id = f.id) (here : R f (w₁ ++ (w₂ ++ w₃)) f')
    (below : Each R (c₁ ++ c₂) (cs.flatMap frames) (cs'.flatMap frames)) :
    Each R tr (mk f cs).frames (mk f' cs').frames := by
  obtain ⟨hout, -⟩ := nodup_mk hn
  rw [frames_mk, frames_mk]
  refine .cons ⟨hid, ?_⟩ (below.congr fun g hg => ?_)
  · rw [trace]
    simpa [own_eq_self mine₁, own_eq_self mine₂, own_eq_self mine₃, within₁.own_eq_nil hout,
      within₂.own_eq_nil hout] using here
  · have hg : g.id ∈ cs.flatMap ids := by
      rw [← map_id_flatMap]
      exact List.mem_map_of_mem hg
    have hne : f.id ≠ g.id := fun e => hout (e ▸ hg)
    rw [trace]
    simp [own_eq_nil mine₁ hne, own_eq_nil mine₂ hne, own_eq_nil mine₃ hne]

theorem sweeps_each {s : Setting} {cs : List (Node H)} (hn : (cs.flatMap ids).Nodup)
    (h : ∀ c ∈ cs, c.ids.Nodup → Each (Frame.Swept s) (c.sweep s) c.frames c.settle.frames) :
    Each (Frame.Swept s) (cs.flatMap (sweep s)) (cs.flatMap frames)
      ((cs.map settle).flatMap frames) := by
  refine each_children ?_
  rw [List.forall₂_map_right_iff]
  refine List.forall₂_same.mpr fun c hc => ?_
  exact (h c hc ((List.nodup_flatMap.mp hn).1 c hc)).congr (own_of_filter fun p hp =>
    filter_sweeps hn hc hp)

theorem sweep_each (s : Setting) {n : Node H} (hn : n.ids.Nodup) :
    Each (Frame.Swept s) (n.sweep s) n.frames n.settle.frames := by
  induction n with
  | mk f cs ih =>
    obtain ⟨hout, hcs⟩ := nodup_mk hn
    rw [settle_mk, sweep_mk]
    by_cases hf : f.active = true
    · rw [if_pos hf, if_pos hf]
      have hbelow := sweeps_each hcs ih
      refine each_around [] [] [] (cs.flatMap (sweep s)) (f.sweep s) hn (fun _ => rfl) (mine_nil _)
        (mine_nil _) (f.mine_sweep s) (by simp [Within]) (within_sweeps s cs) f.id_settle .reached
        hbelow
    · have hf : f.active = false := by simpa using hf
      rw [if_neg (by simp [hf]), if_neg (by simp [hf]), f.settle_of_idle hf, f.sweep_of_idle s hf]
      exact .stay (fun _ => .missed) fun _ _ => rfl

theorem Teardown.each {cs cs' : List (Node H)} {swept after : List (Entry H.Note)}
    (h : Teardown s cs swept cs' after) (hn : (cs.flatMap ids).Nodup) :
    Each (Frame.Swept s) swept (cs.flatMap frames) (cs'.flatMap frames) := by
  cases h with
  | kept => exact .stay (fun _ => .missed) fun _ _ => rfl
  | swept => exact sweeps_each hn fun c _ hc => sweep_each s hc

theorem Teardown.within {cs cs' : List (Node H)} {swept after : List (Entry H.Note)}
    (h : Teardown s cs swept cs' after) : Within (cs.flatMap ids) swept := by
  cases h with
  | kept => simp [Within]
  | swept => exact within_sweeps s cs

def OnceLaw (s : Setting) (dt : Float32) : Law H := fun n _ o =>
  n.ids.Nodup → Each (Frame.Once s dt o.value.1) o.trace n.frames o.value.2.frames

theorem visits_each {log : Log} {answer : Answer} {cs cs' : List (Node H)} {st st' : Stage H}
    {tr : List (Entry H.Note)} (h : Visits ((OnceLaw s dt).During s dt) log cs st cs' st' tr)
    (answers : ∀ x ∈ log, x.2 = answer ∨ ∃ r, x.2 = .ok r) (hn : (cs.flatMap ids).Nodup) :
    Each (Frame.Once s dt answer) tr (cs.flatMap frames) (cs'.flatMap frames) := by
  refine each_children (h.forall₂ (local_execute _ s dt) hn (fun c hc hnone => ?_) ?_)
  · exact .stay (fun _ => .missed .missed) fun f hf => hnone _ (only_own (List.mem_map_of_mem hf))
  · rintro c hc i a st o hlog ⟨hlaw, -, -⟩ rfl hsame
    have honce := hlaw ((List.nodup_flatMap.mp hn).1 c hc)
    exact (honce.imp fun f w g h => h.mono (answers _ hlog)).congr (own_of_filter hsame)

theorem execute_once (s : Setting) (dt : Float32) {n : Node H} (h : n.Sound) (st : Stage H) :
    OnceLaw s dt n st (n.execute s dt st) := by
  refine execute_rule (fun f cs st o _ _ h hn => ?_) h st
  obtain ⟨-, hcs⟩ := nodup_mk hn
  cases Frame.unfolds h with
  | @mk w₁ w₂ w₃ f' answer log cs₁ cs₂ st₁ st₂ st' tr trc swept visit visits answers teardown trace
      mine₁ mine₂ mine₃ =>
    -- children are visited at most once by their executions, and swept at most once after that
    have hlocal := local_execute (OnceLaw (H := H) s dt) s dt
    have hids := visits.flatMap_ids_eq hlocal
    have hvisits := (visits_each visits answers hcs).congr fun f _ => own_calls f.id trc
    have hteardown := teardown.each (hids ▸ hcs)
    refine each_around _ _ _ _ _ hn (own_congr trace) mine₁ mine₂ mine₃
      (within_calls.mpr (visits.within hlocal)) (hids ▸ teardown.within) visit.id_eq ?_ ?_
    · rw [← List.append_nil (w₁ ++ _)]
      exact .visited visit (.inl rfl) .missed
    · exact hvisits.trans (fun _ _ _ _ _ h h' => h.trans_swept h') hteardown

end Node

/-- A relation that frames keep in every visit with an answer covered, and in every abort. -/
structure FrameLaw (H : Host) where
  covers : Answer → Prop
  covers_ok : ∀ r, covers (.ok r)
  holds : Frame H → List (Entry H.Note) → Frame H → Prop
  refl : ∀ f, holds f [] f
  trans : ∀ {f w g w' h}, holds f w g → holds g w' h → holds f (w ++ w') h
  forced : ∀ s f, f.active = true → holds f (f.forced s) f.ended
  visit : ∀ {s dt f a w f'}, f.Visit s dt a w f' → covers a → holds f w f'

namespace FrameLaw
variable (L : FrameLaw H) {s : Setting} {dt : Float32} {f g : Frame H} {w : List (Entry H.Note)}

theorem of_swept (h : f.Swept s w g) : L.holds f w g := by
  cases h with
  | missed => exact L.refl f
  | reached =>
    unfold Frame.sweep Frame.settle
    by_cases hf : f.active = true
    · rw [if_pos hf, if_pos hf]
      exact L.forced s f hf
    · rw [if_neg hf, if_neg hf]
      exact L.refl f

theorem of_once {answer : Answer} (h : f.Once s dt answer w g) (hc : L.covers answer) :
    L.holds f w g := by
  cases h with
  | missed after => exact L.of_swept after
  | visited visit ha after =>
    refine L.trans (L.visit visit ?_) (L.of_swept after)
    obtain rfl | ⟨r, rfl⟩ := ha
    · exact hc
    · exact L.covers_ok r

theorem each_trans {tr tr' : List (Entry H.Note)} {fs gs hs : List (Frame H)}
    (h : Each L.holds tr fs gs) (h' : Each L.holds tr' gs hs) : Each L.holds (tr ++ tr') fs hs :=
  Each.trans (R := L.holds) (S := L.holds) (fun _ _ _ _ _ h h' => L.trans h h') h h'

end FrameLaw

namespace Node

theorem sweep_tracks (L : FrameLaw H) (s : Setting) {n : Node H} (hn : n.ids.Nodup) :
    Each L.holds (n.sweep s) n.frames n.settle.frames :=
  (sweep_each s hn).imp fun _ _ _ h => L.of_swept h

theorem execute_tracks (L : FrameLaw H) (s : Setting) (dt : Float32) {n : Node H} (h : n.Sound)
    (hn : n.ids.Nodup) (st : Stage H) (hc : L.covers (n.execute s dt st).value.1) :
    Each L.holds (n.execute s dt st).trace n.frames (n.execute s dt st).value.2.frames :=
  (execute_once s dt h st hn).imp fun _ _ _ h => L.of_once h hc

end Node
end TickTree
