import TickTree.Proofs.Execution
/-! One execution of a node taken apart: what it is for the frame of the node, and what happens to
the children in between. -/
namespace TickTree
variable {H : Host}

namespace Frame

inductive Settles (s : Setting) (dt : Float32) (f : Frame H) :
    Answer → Answer → List (Entry H.Note) → Frame H → Prop
  | stopped {stop : Stop} : Settles s dt f (.error stop) (.error stop) [] f
  | kept {raw : Status} {hs : List Hook} (modified : Modified dt 0 f.decorators raw hs .running) :
    Settles s dt f (.ok raw) (.ok .running) (hs.map (.hook f.view)) (f.aged dt)
  | concluded {raw result : Status} {hs : List Hook} {b : Behavior H}
    (modified : Modified dt 0 f.decorators raw hs result) (terminal : result.isTerminal = true) :
    Settles s dt f (.ok raw) (.ok result)
      (hs.map (.hook f.view) ++ (.hook (f.aged dt).view (.terminated result) ::
        ((f.aged dt).closing s result ++
          slots (f.aged dt).ended.view (.finished · result) 0 f.decorators.length)))
      { (f.aged dt).ended with behavior := b }

/-- One execution of a node as far as it concerns the frame: the answer, the entries about the
frame, and the frame after it. -/
inductive Visit (s : Setting) (dt : Float32) (f : Frame H) :
    Answer → List (Entry H.Note) → Frame H → Prop
  | refused {gs : List (Entry H.Note)}
    (guards : ∀ e ∈ gs, ∃ i passed, e = .hook f.view (.guarded i passed)) :
    Visit s dt f (.ok .failure) (.hook f.view (.executed dt) :: (gs ++
      (.report (.guardedOut f.view) :: (f.sweep s ++
        [.hook f.settle.view (.returned (.ok .failure))])))) f.settle
  | panicked {gs : List (Entry H.Note)} {p : Panic} {b : Behavior H} (drawn : List Draw)
    (guards : ∀ e ∈ gs, ∃ i passed, e = .hook f.view (.guarded i passed))
    (idle : f.active = false)
    (passed : gs = slots f.view (.guarded · true) 0 f.decorators.length) :
    Visit s dt f (.error (.panicked p)) (.hook f.view (.executed dt) :: (gs ++ (f.start s drawn ++
      [.hook (f.begun b).view (.returned (.error (.panicked p)))]))) (f.begun b)
  | ticked {gs op rs w : List (Entry H.Note)} {f' f'' : Frame H} {n : Nat} {log : Log}
    {raw answer : Answer} {b : Behavior H}
    (guards : ∀ e ∈ gs, ∃ i passed, e = .hook f.view (.guarded i passed)) (opens : f.Opens s op f')
    (resumes : ∀ e ∈ rs, ∃ cursor, e = .hook f'.view (.resumed cursor))
    (answers : f'.behavior.Answers dt n log raw b)
    (settles : { f' with services := Attachment.advanceAll dt f'.services, behavior := b }.Settles
      s dt raw answer w f'')
    (passed : gs = slots f.view (.guarded · true) 0 f.decorators.length) :
    Visit s dt f answer (.hook f.view (.executed dt) :: (gs ++ (op ++
      ((Attachment.due dt 0 f'.services).map (fun i => .hook f'.view (.serviced i dt)) ++
        (.hook f'.view (.ticked dt) :: (rs ++ (.hook f'.view (.answered raw) :: (w ++
          [.hook f''.view (.returned answer)])))))))) f''

theorem Settles.id_eq {s : Setting} {dt : Float32} {f f' : Frame H} {raw answer : Answer}
    {w : List (Entry H.Note)} (h : f.Settles s dt raw answer w f') : f'.id = f.id := by
  cases h <;> rfl

theorem Settles.answer_eq {s : Setting} {dt : Float32} {f f' : Frame H} {raw answer : Answer}
    {w : List (Entry H.Note)} (h : f.Settles s dt raw answer w f') :
    raw = answer ∨ ∃ r, raw = .ok r := by
  cases h with
  | stopped => exact .inl rfl
  | kept => exact .inr ⟨_, rfl⟩
  | concluded => exact .inr ⟨_, rfl⟩

theorem Opens.id_eq {s : Setting} {f f' : Frame H} {op : List (Entry H.Note)}
    (h : f.Opens s op f') : f'.id = f.id := by
  cases h <;> rfl

theorem Opens.bare_eq {s : Setting} {f f' : Frame H} {op : List (Entry H.Note)}
    (h : f.Opens s op f') : f'.bare = f.bare := by
  cases h with
  | already => rfl
  | fresh => simp [bare, begun, Function.comp_def, Attachment.reset]

theorem Settles.bare_eq {s : Setting} {dt : Float32} {f f' : Frame H} {raw answer : Answer}
    {w : List (Entry H.Note)} (h : f.Settles s dt raw answer w f') : f'.bare = f.bare := by
  cases h with
  | stopped => rfl
  | kept => rfl
  | concluded => simp [aged, ended, bare, Function.comp_def, Attachment.reset]

theorem Settles.fits {s : Setting} {dt : Float32} {f f' : Frame H} {raw answer : Answer}
    {w : List (Entry H.Note)} {n : Nat} (h : f.Settles s dt raw answer w f')
    (hf : f.behavior.Fits n) : f'.active = true → f'.behavior.Fits n := by
  cases h with
  | stopped => exact fun _ => hf
  | kept => exact fun _ => hf
  | concluded => exact fun ha => by simp [ended] at ha

theorem bare_served (f : Frame H) (dt : Float32) (b : Behavior H) :
    { f with services := Attachment.advanceAll dt f.services, behavior := b }.bare = f.bare := by
  simp [bare]

theorem mine_start (s : Setting) (f : Frame H) (drawn : List Draw) :
    Mine f.id (f.start s drawn) := by
  have : Mine f.id (drawn.map fun d => (.hook ⟨f.id, f.name, true, 0⟩ (.drew d) : Entry H.Note)) :=
    mine_map_hook ⟨f.id, f.name, true, 0⟩ .drew drawn
  simpa [start] using this

theorem Opens.mine {s : Setting} {f f' : Frame H} {op : List (Entry H.Note)}
    (h : f.Opens s op f') : Mine f.id op := by
  cases h with
  | already => simp
  | @fresh b drawn =>
    exact mine_append.mpr ⟨f.mine_start s drawn,
      mine_slots (f.begun b).view .attached 0 f.services.length⟩

theorem openAfter_closing (b : Bool) (s : Setting) (r : Status) (f : Frame H) :
    openAfter b (f.closing s r) = false := by simp [closing, Entry.turn]

theorem openAfter_forced (b : Bool) (s : Setting) (f : Frame H) :
    openAfter b (f.forced s) = false := by simp [forced, openAfter_closing, Entry.turn]

theorem openAfter_sweep (s : Setting) (f : Frame H) :
    openAfter f.active (f.sweep s) = f.settle.active := by
  unfold sweep
  split
  · rw [openAfter_forced, active_settle]
  · next h => simpa using h

theorem openAfter_start (b : Bool) (s : Setting) (f : Frame H) (drawn : List Draw) :
    openAfter b (f.start s drawn) = true := by simp [start, Entry.turn]

theorem Opens.openAfter_eq {s : Setting} {f f' : Frame H} {op : List (Entry H.Note)}
    (h : f.Opens s op f') : openAfter f.active op = true := by
  cases h with
  | already hf => exact hf
  | fresh => simp [openAfter_start]

theorem Opens.eq_nil {s : Setting} {f f' : Frame H} {op : List (Entry H.Note)}
    (h : f.Opens s op f') (hf : f.active = true) : op = [] := by
  cases h with
  | already => rfl
  | fresh hf' => simp [hf] at hf'

theorem Opens.active_eq {s : Setting} {f f' : Frame H} {op : List (Entry H.Note)}
    (h : f.Opens s op f') : f'.active = true := by
  cases h with
  | already hf => exact hf
  | fresh => rfl

theorem Visit.bare_eq {s : Setting} {dt : Float32} {f f' : Frame H} {answer : Answer}
    {w : List (Entry H.Note)} (h : f.Visit s dt answer w f') : f'.bare = f.bare := by
  cases h with
  | refused => exact f.bare_settle
  | panicked => rfl
  | ticked _ opens _ _ settles => rw [settles.bare_eq, bare_served, opens.bare_eq]

theorem Visit.id_eq {s : Setting} {dt : Float32} {f f' : Frame H} {answer : Answer}
    {w : List (Entry H.Note)} (h : f.Visit s dt answer w f') : f'.id = f.id := by
  change f'.bare.id = f.bare.id
  rw [h.bare_eq]

end Frame

namespace Node

inductive Teardown (s : Setting) (cs : List (Node H)) :
    List (Entry H.Note) → List (Node H) → List (Entry H.Note) → Prop
  | kept {after : List (Entry H.Note)} (quiet : ∀ e ∈ after, e.turn = none) :
    Teardown s cs [] cs after
  | swept {after : List (Entry H.Note)} :
    Teardown s cs (cs.flatMap (sweep s)) (cs.map settle) after

namespace Teardown
variable {s : Setting} {cs cs' : List (Node H)} {swept after : List (Entry H.Note)}

theorem length_eq (h : Teardown s cs swept cs' after) : cs'.length = cs.length := by
  cases h with
  | kept => rfl
  | swept => exact List.length_map _

theorem map_eq {α : Type} {g : Node H → α} (hg : ∀ c, g c.settle = g c)
    (h : Teardown s cs swept cs' after) : cs'.map g = cs.map g := by
  cases h with
  | kept => rfl
  | swept =>
    rw [List.map_map]
    exact List.map_congr_left fun c _ => hg c

theorem forall_mem {q : Node H → Prop} (hq : ∀ c, q c → q c.settle)
    (h : Teardown s cs swept cs' after) (hcs : ∀ c ∈ cs, q c) : ∀ c ∈ cs', q c := by
  cases h with
  | kept => exact hcs
  | swept =>
    intro c hc
    obtain ⟨c, hm, rfl⟩ := List.mem_map.mp hc
    exact hq c (hcs c hm)

end Teardown

theorem Teardown.snoc {s : Setting} {cs cs' : List (Node H)} {swept after : List (Entry H.Note)}
    (h : Teardown s cs swept cs' after) {e : Entry H.Note} (he : e.turn = none) :
    Teardown s cs swept cs' (after ++ [e]) := by
  cases h with
  | swept => exact .swept
  | kept quiet =>
    refine .kept fun d hd => ?_
    obtain hd | hd := List.mem_append.mp hd
    · exact quiet d hd
    · rwa [List.mem_singleton.mp hd]

theorem teardown_settle (s : Setting) (f : Frame H) (cs : List (Node H)) :
    ∃ swept cs', (mk f cs).settle = mk f.settle cs' ∧ (mk f cs).sweep s = swept ++ f.sweep s ∧
      Teardown s cs swept cs' (f.sweep s) ∧ (f.active = false → swept = []) := by
  rw [settle_mk, sweep_mk]
  by_cases hf : f.active = true
  · rw [if_pos hf, if_pos hf]
    exact ⟨_, _, rfl, rfl, .swept, by simp [hf]⟩
  · rw [if_neg hf, if_neg hf, f.sweep_of_idle s (by simpa using hf)]
    exact ⟨_, _, rfl, rfl, .kept (by simp), fun _ => rfl⟩

/-- What follows the answer of the behavior, seen from the frame and from its children. -/
theorem resolves_spec {s : Setting} {dt : Float32} {f : Frame H} {cs : List (Node H)}
    {st st' : Stage H} {raw answer : Answer} {n : Node H} {tr : List (Entry H.Note)}
    (h : f.Resolves s dt cs st raw ⟨(answer, n), st', tr⟩) :
    ∃ f' cs' w₁ swept w₂, n = .mk f' cs' ∧ calls tr = w₁ ++ (swept ++ w₂) ∧
      f.Settles s dt raw answer (w₁ ++ w₂) f' ∧ Teardown s cs swept cs' w₂ ∧
      (∀ e ∈ w₁, ∃ v h, v.id = f.id ∧ e = .hook v h) ∧ Mine f.id w₂ := by
  cases h with
  | stopped => exact ⟨f, cs, [], [], [], rfl, rfl, .stopped, .kept (by simp), by simp, by simp⟩
  | kept modified =>
    obtain ⟨hs, htr, hmod⟩ := Frame.modify_spec modified
    refine ⟨f.aged dt, cs, hs.map (.hook f.view), [], [], rfl, by simpa using htr, ?_,
      .kept (by simp), ?_, by simp⟩
    · simpa using Frame.Settles.kept (s := s) hmod
    · simp [Frame.view]
  | @concluded _ result _ _ _ _ _ modified terminal concluded =>
    obtain ⟨hs, htr, hmod⟩ := Frame.modify_spec modified
    obtain ⟨⟨b, hvalue⟩, htrace⟩ := (f.aged dt).conclude_spec s result cs _
    rw [concluded] at hvalue htrace
    refine ⟨{ (f.aged dt).ended with behavior := b }, cs.map settle,
      hs.map (.hook f.view) ++ [.hook (f.aged dt).view (.terminated result)],
      cs.flatMap (sweep s), (f.aged dt).closing s result ++
        slots (f.aged dt).ended.view (.finished · result) 0 f.decorators.length,
      hvalue, ?_, ?_, .swept, ?_, ?_⟩
    · simp [htr, htrace, Frame.aged]
    · simpa using Frame.Settles.concluded (s := s) (b := b) hmod terminal
    · simp only [List.mem_append, List.mem_map, List.mem_singleton]
      rintro e (⟨h, -, rfl⟩ | rfl)
      · exact ⟨_, h, rfl, rfl⟩
      · exact ⟨_, _, rfl, rfl⟩
    · exact mine_append.mpr ⟨(f.aged dt).mine_closing s result, mine_slots _ _ _ _⟩

end Node

/-- One execution: a visit of the frame, in whose midst first some children are executed, and then
all of them may be aborted. -/
inductive Frame.Unfolds (P : Law H) (s : Setting) (dt : Float32) (f : Frame H)
    (cs : List (Node H)) : Outcome (Stage H) (Entry H.Note) (Answer × Node H) → Prop
  | mk (w₁ w₂ w₃ : List (Entry H.Note)) {f' : Frame H} {answer : Answer} {log : Log}
    {cs₁ cs₂ : List (Node H)} {st₁ st₂ st' : Stage H} {tr trc swept : List (Entry H.Note)}
    (visit : f.Visit s dt answer (w₁ ++ (w₂ ++ w₃)) f')
    (visits : Visits P log cs st₁ cs₁ st₂ trc)
    (answers : ∀ x ∈ log, x.2 = answer ∨ ∃ r, x.2 = .ok r)
    (teardown : Node.Teardown s cs₁ swept cs₂ w₃)
    (trace : calls tr = w₁ ++ (calls trc ++ (w₂ ++ (swept ++ w₃))))
    (mine₁ : Mine f.id w₁) (mine₂ : Mine f.id w₂) (mine₃ : Mine f.id w₃)
    (already : f.active = true → ∀ e ∈ w₁, e.turn = none)
    (opens : openAfter f.active w₁ = true ∨ f.active = false ∧ trc = [] ∧ swept = [])
    (quiet : ∀ e ∈ w₂, e.turn = none)
    (fits : (f.active = true → f.behavior.Fits cs.length) →
      f'.active = true → f'.behavior.Fits cs₂.length) :
    Unfolds P s dt f cs ⟨(answer, .mk f' cs₂), st', tr⟩

namespace Frame

theorem mine_guards {v : View} {gs : List (Entry H.Note)}
    (h : ∀ e ∈ gs, ∃ i passed, e = .hook v (.guarded i passed)) :
    Mine v.id gs ∧ ∀ e ∈ gs, e.turn = none := by
  refine mine_hooks fun e he => ?_
  obtain ⟨i, passed, rfl⟩ := h e he
  exact ⟨v, _, rfl, rfl⟩

theorem mine_resumed {v : View} {rs : List (Entry H.Note)}
    (h : ∀ e ∈ rs, ∃ cursor, e = .hook v (.resumed cursor)) :
    Mine v.id rs ∧ ∀ e ∈ rs, e.turn = none := by
  refine mine_hooks fun e he => ?_
  obtain ⟨cursor, rfl⟩ := h e he
  exact ⟨v, _, rfl, rfl⟩

theorem passed_of_guarded {s : Setting} {f : Frame H} {st st' : Stage H} {tr : List (Entry H.Note)}
    (guarded : guards s f.view 0 f.decorators st = ⟨true, st', tr⟩) :
    calls tr = slots f.view (.guarded · true) 0 f.decorators.length := by
  have hpassed : (guards s f.view 0 f.decorators st).value = true := by rw [guarded]
  have htrace := guards_passed hpassed
  rwa [guarded] at htrace

section Unfolds
variable {P : Law H} {s : Setting} {dt : Float32} {f f' : Frame H} {cs : List (Node H)}
  {st st₁ st' : Stage H} {tr tr' : List (Entry H.Note)}

theorem unfolds_refused {n : Node H}
    (guarded : guards s f.view 0 f.decorators st = ⟨false, st₁, tr⟩)
    (aborted : (Node.mk f cs).abort s st₁ = ⟨n, st', tr'⟩) :
    f.Unfolds P s dt cs ⟨(.ok .failure, n), st',
      .hook f.view (.executed dt) :: (tr ++ (.report (.guardedOut f.view) :: (tr' ++
        [.hook n.view (.returned (.ok .failure))])))⟩ := by
  have hgs := calls_guards guarded
  obtain ⟨hmine, hquiet⟩ := mine_guards hgs
  obtain ⟨rfl, htrace⟩ := Node.abort_eq aborted
  obtain ⟨swept, cs', hsettle, hsweep, hteardown, hkept⟩ := Node.teardown_settle s f cs
  have hquiet₁ : ∀ e ∈ Entry.hook f.view (.executed dt) :: (calls tr ++
      [.report (.guardedOut f.view)]), e.turn = none := by
    simpa [or_imp, forall_and, Entry.turn] using hquiet
  rw [hsweep] at htrace
  rw [hsettle]
  have hvisit : f.Visit s dt _ _ f.settle := .refused hgs
  have hvisits : Visits P [] cs st cs st [] := .nil
  refine .mk (.hook f.view (.executed dt) :: (calls tr ++ [.report (.guardedOut f.view)])) [] _
    (by simpa using hvisit) hvisits (by simp) (hteardown.snoc rfl) (by simp [htrace]) ?_
    (mine_nil _) ?_ (fun _ => hquiet₁) ?_ (by simp) (by simp)
  · simpa [view] using hmine
  · simpa [view] using f.mine_sweep s
  · rw [openAfter_quiet hquiet₁]
    by_cases hf : f.active = true
    · exact .inl hf
    · have hf : f.active = false := by simpa using hf
      exact .inr ⟨hf, rfl, hkept hf⟩

theorem unfolds_panicked {p : Panic}
    (guarded : guards s f.view 0 f.decorators st = ⟨true, st₁, tr⟩)
    (activated : f.activate s cs.length st₁ = ⟨(.error p, f'), st', tr'⟩) :
    f.Unfolds P s dt cs ⟨(.error (.panicked p), .mk f' cs), st',
      .hook f.view (.executed dt) :: (tr ++ (tr' ++
        [.hook f'.view (.returned (.error (.panicked p)))]))⟩ := by
  have hgs := calls_guards guarded
  obtain ⟨hmine, -⟩ := mine_guards hgs
  have hfits := fun hf => activate_fits hf activated
  obtain ⟨h, -⟩ | ⟨_, b, drawn, h, hf, rfl, htr'⟩ := activate_spec activated
  · cases h
  · cases h
    have hvisit : f.Visit s dt (.error (.panicked p)) _ (f.begun b) :=
      .panicked drawn hgs hf (passed_of_guarded guarded)
    have hvisits : Visits P [] cs st cs st [] := .nil
    refine .mk (.hook f.view (.executed dt) :: (calls tr ++ (f.start s drawn ++
        [.hook (f.begun b).view (.returned (.error (.panicked p)))]))) [] []
      (by simpa using hvisit) hvisits (by simp) (.kept (by simp)) (by simp [htr']) ?_ (mine_nil _)
      (mine_nil _) (by simp [hf]) (.inr ⟨hf, rfl, rfl⟩) (by simp) (fun h _ => hfits h)
    simpa [view, begun, f.mine_start] using hmine

/-- The frame's own part of a tick lies before, between and after what happens to the children. -/
theorem unfolds_ticked {as : List (Attachment H)} {raw answer : Answer} {b : Behavior H}
    {cs' : List (Node H)} {n : Node H} {st₂ st₃ st₄ : Stage H}
    {tr₁ tr₂ tr₃ tr₄ tr₅ : List (Entry H.Note)}
    (guarded : guards s f.view 0 f.decorators st = ⟨true, st₁, tr₁⟩)
    (activated : f.activate s cs.length st₁ = ⟨(.ok (), f'), st₂, tr₂⟩)
    (served : serve s f'.view dt 0 f'.services st₂ = ⟨as, st₃, tr₃⟩)
    (fits : f'.behavior.Fits cs.length)
    (ticked : f'.behavior.Ticks P f'.view dt cs st₃ ⟨(raw, b, cs'), st₄, tr₄⟩)
    (resolved : { f' with services := as, behavior := b }.Resolves s dt cs' st₄ raw
      ⟨(answer, n), st', tr₅⟩) :
    f.Unfolds P s dt cs ⟨(answer, n), st',
      .hook f.view (.executed dt) :: (tr₁ ++ (tr₂ ++ (tr₃ ++ (.hook f'.view (.ticked dt) :: (tr₄ ++
        (.hook f'.view (.answered raw) :: (tr₅ ++ [.hook n.view (.returned answer)])))))))⟩ := by
  have hgs := calls_guards guarded
  have hguards : Mine f.id (calls tr₁) ∧ ∀ e ∈ calls tr₁, e.turn = none := mine_guards hgs
  obtain ⟨-, hop⟩ | ⟨_, _, _, h, -⟩ := activate_spec activated
  swap
  · cases h
  obtain ⟨has, htr₃⟩ := serve_spec s f'.view dt 0 f'.services st₂
  rw [served] at has htr₃
  obtain rfl : as = Attachment.advanceAll dt f'.services := has
  cases ticked with
  | @mk _ _ _ log st₀ _ trc tr₀ tables resumes visits answers =>
    obtain ⟨f'', cs'', w₁, swept, w₂, rfl, htr₅, hsettles, hteardown, hw₁, hw₂⟩ :=
      Node.resolves_spec resolved
    have hid := hop.id_eq
    have hresumes : Mine f.id (calls tr₀) ∧ ∀ e ∈ calls tr₀, e.turn = none := by
      rw [← hid]
      exact mine_resumed resumes
    have hserved : Mine f.id ((Attachment.due dt 0 f'.services).map
        fun i => (.hook f'.view (.serviced i dt) : Entry H.Note)) := by
      rw [← hid]
      exact mine_map_hook f'.view _ _
    have hbefore : Mine f.id w₁ ∧ ∀ e ∈ w₁, e.turn = none := by
      rw [← hid]
      exact mine_hooks hw₁
    -- a child that stops the tick passes its own answer on to the node
    have hlog : ∀ x ∈ log, x.2 = answer ∨ ∃ r, x.2 = .ok r := by
      intro x hx
      obtain hx | hx := answers.log_answers x hx
      · obtain rfl | ⟨r, rfl⟩ := hsettles.answer_eq
        · exact .inl hx
        · exact .inr ⟨r, hx⟩
      · exact .inr hx
    refine .mk (.hook f.view (.executed dt) :: (calls tr₁ ++ (calls tr₂ ++
        ((Attachment.due dt 0 f'.services).map (fun i => .hook f'.view (.serviced i dt)) ++
          (.hook f'.view (.ticked dt) :: calls tr₀)))))
      (.hook f'.view (.answered raw) :: w₁) _
      (by simpa using
        Visit.ticked hgs hop resumes answers hsettles (passed_of_guarded guarded)) visits hlog
      (hteardown.snoc rfl) (by simp [htr₃, htr₅]) ?_ ?_ ?_ ?_ (.inl ?_) ?_ fun _ => ?_
    · simp [hguards.1, hop.mine, hserved, hresumes.1, hid]
    · simp [hid, hbefore.1]
    · simpa [hsettles.id_eq, hid] using hw₂
    · intro hf
      simp only [hop.eq_nil hf, List.nil_append]
      simpa [or_imp, forall_and, Entry.turn] using ⟨hguards.2, hresumes.2⟩
    · simp [openAfter_quiet hguards.2, hop.openAfter_eq, openAfter_quiet hresumes.2, Entry.turn]
    · simpa [Entry.turn] using hbefore.2
    · rw [hteardown.length_eq, visits.length_eq]
      exact hsettles.fits (answers.fits fits)

end Unfolds

theorem unfolds {P : Law H} {s : Setting} {dt : Float32} {f : Frame H} {cs : List (Node H)}
    {st : Stage H} {o : Outcome (Stage H) (Entry H.Note) (Answer × Node H)}
    (h : f.Executes P s dt cs st o) : f.Unfolds P s dt cs o := by
  cases h with
  | refused guarded aborted => exact unfolds_refused guarded aborted
  | panicked guarded activated => exact unfolds_panicked guarded activated
  | ticked guarded activated served fits ticked resolved =>
    exact unfolds_ticked guarded activated served fits ticked resolved

end Frame
end TickTree
