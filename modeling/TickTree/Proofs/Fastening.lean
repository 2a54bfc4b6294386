import TickTree.Proofs.Phases
/-! Which services of a node are attached. The start of an activation attaches all of them and its
end detaches all of them, so that none is attached but in an activation. -/
namespace TickTree
variable {H : Host} {ν : Type}

def switched (t : Entry ν → Option Bool) (b : Bool) (w : List (Entry ν)) : Bool :=
  w.foldl (fun b e => (t e).getD b) b

section Switched
variable {t : Entry ν → Option Bool} {b : Bool} {w w' : List (Entry ν)}

@[simp] theorem switched_nil : switched t b ([] : List (Entry ν)) = b := rfl

@[simp] theorem switched_cons (e : Entry ν) :
    switched t b (e :: w) = switched t ((t e).getD b) w := rfl

@[simp] theorem switched_append : switched t b (w ++ w') = switched t (switched t b w) w' :=
  List.foldl_append

theorem switched_still (h : ∀ e ∈ w, t e = none) : switched t b w = b := by
  induction w generalizing b with
  | nil => rfl
  | cons e w ih =>
    rw [switched_cons, h e (by simp)]
    exact ih fun e he => h e (List.mem_cons_of_mem _ he)

theorem exists_off (h : switched t true w = false) : ∃ e ∈ w, t e = some false := by
  induction w with
  | nil => cases h
  | cons e w ih =>
    rw [switched_cons] at h
    match he : t e with
    | some false => exact ⟨e, by simp, he⟩
    | none | some true =>
      rw [he] at h
      obtain ⟨e', he', hoff⟩ := ih h
      exact ⟨e', List.mem_cons_of_mem _ he', hoff⟩

end Switched

def Entry.clasp (slot : Nat) : Entry ν → Option Bool
  | hook _ (.attached i) => if i = slot then some true else none
  | hook _ (.detached i) => if i = slot then some false else none
  | _ => none

theorem Entry.eq_detached {slot : Nat} {e : Entry ν} (h : e.clasp slot = some false) :
    ∃ v, e = .hook v (.detached slot) := by
  match e with
  | .hook v (.detached i) =>
    rw [clasp] at h
    split at h
    · next hi => exact ⟨v, by rw [hi]⟩
    · cases h
  | .hook _ (.attached i) =>
    rw [clasp] at h
    split at h
    · cases h
    · cases h

namespace OfPhase
variable {p : Phase} {w : List (Entry H.Note)}

theorem clasp (hw : OfPhase p w) (hopened : p ≠ .opened) (hsettled : p ≠ .settled) (slot : Nat) :
    ∀ e ∈ w, e.clasp slot = none := by
  intro e he
  match e with
  | .hook v (.attached i) => exact absurd (hw v _ he).symm hopened
  | .hook v (.detached i) => exact absurd (hw v _ he).symm hsettled
  | .hook _ (.executed _) | .hook _ (.guarded ..) | .hook _ .started | .hook _ (.drew _)
  | .hook _ (.serviced ..) | .hook _ (.ticked _) | .hook _ (.resumed _) | .hook _ (.answered _)
  | .hook _ (.modified ..) | .hook _ (.terminated _) | .hook _ (.finished ..)
  | .hook _ (.aborted _) | .hook _ (.returned _) | .notice .. | .report _ | .note _ => rfl

end OfPhase

namespace Frame
variable {s : Setting} {dt : Float32} {f f' g : Frame H} {w op : List (Entry H.Note)} {slot : Nat}
  {b : Bool}

theorem clasp_slots {v : View} {h : Nat → Hook} {c : Bool} (first n : Nat)
    (hc : ∀ i, (.hook v (h i) : Entry H.Note).clasp slot = if i = slot then some c else none) :
    switched (Entry.clasp slot) b (slots v h first n : List (Entry H.Note)) =
      if first ≤ slot ∧ slot < first + n then c else b := by
  induction n generalizing first b with
  | zero => rw [if_neg (by omega), slots_zero, switched_nil]
  | succ n ih =>
    rw [slots_succ, switched_cons, hc, ih]
    by_cases hfirst : first = slot
    · rw [if_neg (by omega), if_pos hfirst, if_pos (by omega)]
      rfl
    · rw [if_neg hfirst]
      exact if_congr (by omega) rfl rfl

theorem clasp_closing (result : Status) (h : b = true → slot < f.services.length) :
    switched (Entry.clasp slot) b (f.closing s result) = false := by
  have hslots : switched (Entry.clasp slot) b
      (slots f.view .detached 0 f.services.length : List (Entry H.Note)) = _ :=
    clasp_slots 0 f.services.length fun _ => rfl
  rw [closing, switched_append, hslots]
  split
  · rfl
  · next hout =>
    cases b with
    | false => rfl
    | true => exact absurd ⟨Nat.zero_le _, by simpa using h rfl⟩ hout

theorem clasp_forced (h : b = true → slot < f.services.length) :
    switched (Entry.clasp slot) b (f.forced s) = false := by
  have haborted : ∀ e ∈ (slots f.view .aborted 0 f.decorators.length : List (Entry H.Note)),
      e.clasp slot = none := by
    simp only [mem_slots]
    rintro e ⟨i, -, rfl⟩
    rfl
  rw [forced, switched_append, switched_append, switched_still haborted, clasp_closing .failure h]
  rfl

/-- Which services of a frame are attached shows in its activation. -/
def Clasps (f g : Frame H) (w : List (Entry H.Note)) : Prop :=
  g.services.length = f.services.length ∧ ∀ slot b,
    (b = true → f.active = true ∧ slot < f.services.length) →
      switched (Entry.clasp slot) b w = true → g.active = true ∧ slot < g.services.length

theorem Clasps.trans {w' : List (Entry H.Note)} (h : f.Clasps f' w) (h' : f'.Clasps g w') :
    f.Clasps g (w ++ w') := by
  refine ⟨h'.1.trans h.1, fun slot b hb hon => ?_⟩
  rw [switched_append] at hon
  exact h'.2 slot _ (h.2 slot b hb) hon

theorem clasps_still (services : g.services.length = f.services.length)
    (active : f.active = true → g.active = true) (h : ∀ slot, ∀ e ∈ w, e.clasp slot = none) :
    f.Clasps g w := by
  refine ⟨services, fun slot b hb hon => ?_⟩
  rw [switched_still (h slot)] at hon
  obtain ⟨hf, hslot⟩ := hb hon
  exact ⟨active hf, services ▸ hslot⟩

theorem clasps_off (services : g.services.length = f.services.length)
    (h : ∀ slot b, (b = true → slot < f.services.length) →
      switched (Entry.clasp slot) b w = false) : f.Clasps g w := by
  refine ⟨services, fun slot b hb hon => ?_⟩
  rw [h slot b fun hb' => (hb hb').2] at hon
  cases hon

theorem clasps_forced (s : Setting) (f : Frame H) : f.Clasps f.ended (f.forced s) :=
  clasps_off (List.length_map _) fun _ _ => clasp_forced

theorem Opens.clasps (h : f.Opens s op g) : f.Clasps g op := by
  cases h with
  | already => exact clasps_still rfl (fun hf => hf) (by simp)
  | @fresh c drawn hf =>
    refine ⟨List.length_map _, fun slot b hb hon => ⟨rfl, ?_⟩⟩
    have hstart : ∀ e ∈ f.start s drawn, e.clasp slot = none := by
      simp only [start, List.mem_cons, List.mem_map]
      rintro e (rfl | rfl | ⟨d, -, rfl⟩) <;> rfl
    have hattached : switched (Entry.clasp slot) b (slots (f.begun c).view .attached 0
        f.services.length : List (Entry H.Note)) = _ :=
      clasp_slots 0 f.services.length fun _ => rfl
    rw [switched_append, switched_still hstart, hattached] at hon
    split at hon
    · next hslot =>
      simpa using hslot.2
    · have hactive := (hb hon).1
      rw [hf] at hactive
      cases hactive

theorem Modified.clasp {slot i : Nat} {ds : List (Decorator H)} {r r' : Status} {hs : List Hook}
    (h : Modified dt i ds r hs r') (v : View) :
    ∀ e ∈ (hs.map (.hook v) : List (Entry H.Note)), e.clasp slot = none := by
  intro e he
  obtain ⟨hook, hhook, rfl⟩ := List.mem_map.mp he
  obtain ⟨j, before, after, rfl⟩ := h.exists_eq hook hhook
  rfl

theorem Settles.clasps {raw answer : Answer} (h : f.Settles s dt raw answer w g) :
    f.Clasps g w := by
  cases h with
  | stopped => exact clasps_still rfl (fun hf => hf) (by simp)
  | kept modified => exact clasps_still rfl (fun hf => hf) fun _ => modified.clasp f.view
  | @concluded raw result hs c modified =>
    refine clasps_off (List.length_map _) fun slot b hb => ?_
    have hfinished : ∀ e ∈ (slots (f.aged dt).ended.view (.finished · result) 0
        f.decorators.length : List (Entry H.Note)), e.clasp slot = none := by
      simp only [mem_slots]
      rintro e ⟨i, -, rfl⟩
      rfl
    rw [switched_append, switched_cons, switched_append, switched_still hfinished,
      switched_still (modified.clasp f.view)]
    exact clasp_closing result hb

theorem clasps_sweep (s : Setting) (f : Frame H) : f.Clasps f.settle (f.sweep s) := by
  unfold sweep settle
  split
  · exact f.clasps_forced s
  · exact clasps_still rfl (fun hf => hf) (by simp)

theorem Visit.clasps {answer : Answer} (h : f.Visit s dt answer w g) : f.Clasps g w := by
  cases h with
  | @refused gs guards =>
    have hgs := (phase_guards guards).clasp (by decide) (by decide)
    have hbefore : f.Clasps f (.hook f.view (.executed dt) ::
        (gs ++ [.report (.guardedOut f.view)])) :=
      clasps_still rfl (fun hf => hf) fun slot => by
        simpa [or_imp, forall_and, Entry.clasp] using hgs slot
    have hafter : f.settle.Clasps f.settle [.hook f.settle.view (.returned (.ok .failure))] :=
      clasps_still rfl (fun hf => hf) (by simp [Entry.clasp])
    simpa using hbefore.trans ((f.clasps_sweep s).trans hafter)
  | @panicked gs p c drawn guards idle =>
    have hgs := (phase_guards guards).clasp (by decide) (by decide)
    refine clasps_still rfl (fun _ => rfl) fun slot => ?_
    simpa [or_imp, forall_and, start, Entry.clasp] using hgs slot
  | @ticked gs op rs w f₁ _ _ _ raw _ c guards opens resumes _ settles =>
    have hgs := (phase_guards guards).clasp (by decide) (by decide)
    have hrs := (phase_resumed resumes).clasp (by decide) (by decide)
    let f₂ : Frame H := { f₁ with services := Attachment.advanceAll dt f₁.services, behavior := c }
    have hbefore : f.Clasps f (.hook f.view (.executed dt) :: gs) :=
      clasps_still rfl (fun hf => hf) fun slot => by
        simpa [or_imp, forall_and, Entry.clasp] using hgs slot
    have hticked : f₁.Clasps f₂ ((Attachment.due dt 0 f₁.services).map
        (fun i => .hook f₁.view (.serviced i dt)) ++
          (.hook f₁.view (.ticked dt) :: (rs ++ [.hook f₁.view (.answered raw)]))) :=
      clasps_still (List.length_map _) (fun hf => hf) fun slot => by
        simpa [or_imp, forall_and, Entry.clasp] using hrs slot
    have hafter : g.Clasps g [.hook g.view (.returned answer)] :=
      clasps_still rfl (fun hf => hf) (by simp [Entry.clasp])
    simpa using hbefore.trans (opens.clasps.trans (hticked.trans (settles.clasps.trans hafter)))

/-- The law of services: none is attached but in an activation. -/
def fastening : FrameLaw H where
  covers _ := True
  covers_ok _ := trivial
  holds f w g := f.Clasps g w
  refl f := clasps_still rfl (fun hf => hf) (by simp)
  trans h h' := h.trans h'
  forced s f _ := f.clasps_forced s
  visit h _ := h.clasps

end Frame
end TickTree
