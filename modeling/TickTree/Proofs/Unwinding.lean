import TickTree.Proofs.Sessions
/-! Errors unwind cleanly. The error of a callback passes up through the nodes on its way to the
root, and nothing else is called after it. These nodes stay active, with the time that they had, and
an abort ends their activations. -/
namespace TickTree
variable {H : Host} {ν : Type}

def Entry.settles : Entry ν → Bool
  | hook _ h => match h with
    | .modified .. | .terminated _ | .detached _ | .finished .. | .aborted _ => true
    | _ => false
  | notice _ (.exited ..) | notice _ (.aborted _) => true
  | _ => false

namespace Frame

/-- An activation that an error passes through. It may have begun just before. -/
structure Held (f g : Frame H) : Prop where
  id : g.id = f.id
  active : g.active = true
  time : g.time = if f.active then f.time else 0

/-- What an error calls on its way up through these frames, the last of which it comes from. -/
def passing (stop : Stop) (gs : List (Frame H)) : List (Entry H.Note) :=
  gs.reverse.flatMap fun g =>
    [.hook g.view (.answered (.error stop)), .hook g.view (.returned (.error stop))]

theorem passing_cons (stop : Stop) (g : Frame H) (gs : List (Frame H)) :
    passing stop (g :: gs) = passing stop gs ++
      [.hook g.view (.answered (.error stop)), .hook g.view (.returned (.error stop))] := by
  simp [passing]

variable {s : Setting} {dt : Float32} {f f' g : Frame H} {w op : List (Entry H.Note)} {e : Fault}

theorem Opens.held (h : f.Opens s op f') : f.Held f' := by
  cases h with
  | already hf => exact ⟨rfl, hf, by simp [hf]⟩
  | fresh hf => exact ⟨rfl, rfl, by simp [hf, begun]⟩

theorem Opens.settles_eq (h : f.Opens s op f') : ∀ x ∈ op, x.settles = false := by
  cases h with
  | already => simp
  | fresh =>
    simp only [start, List.mem_append, List.mem_cons, List.mem_map, mem_slots]
    rintro x ((rfl | rfl | ⟨d, -, rfl⟩) | ⟨i, -, rfl⟩) <;> rfl

theorem count_sweep (s : Setting) (f : Frame H) :
    (f.sweep s).countP (·.turn = some false) = if f.active then 1 else 0 := by
  unfold sweep
  split
  · simp [forced, closing, slots, Entry.turn, List.countP_map, Function.comp_def]
  · rfl

theorem Visit.settles_eq (h : f.Visit s dt (.error (.failed e)) w g) :
    ∀ x ∈ w, x.settles = false := by
  cases h with
  | ticked guards opens resumes _ settles =>
    cases settles
    intro x hx
    simp only [List.nil_append, List.mem_cons, List.mem_append, List.mem_map,
      List.not_mem_nil, or_false] at hx
    obtain rfl | hx | hx | ⟨i, -, rfl⟩ | rfl | hx | rfl | rfl := hx
    · rfl
    · obtain ⟨i, passed, rfl⟩ := guards x hx
      rfl
    · exact opens.settles_eq x hx
    · rfl
    · rfl
    · obtain ⟨cursor, rfl⟩ := resumes x hx
      rfl
    · rfl
    · rfl

end Frame

namespace Branch

theorem Walked.stopped {onward : Status} {order : List Nat} {log : Log} {stop : Stop}
    {passed : Nat} (h : Walked onward order log (.error stop) passed) :
    ∃ before i, log = before ++ [(i, .error stop)] := by
  generalize ha : (.error stop : Answer) = a at h
  induction h with
  | done => cases ha
  | stop => exact ⟨[], _, rfl⟩
  | pass _ ih =>
    obtain ⟨before, i, rfl⟩ := ih ha
    exact ⟨_ :: before, i, rfl⟩

theorem RanAll.stopped {n : Nat} {log : Log} {stop : Stop} (h : RanAll n log (.error stop)) :
    ∃ before i, log = before ++ [(i, .error stop)] := by
  cases h with
  | stop => exact ⟨_, _, rfl⟩

end Branch

/-- A behavior that stops is an action, or the last child that it has executed has stopped. -/
theorem Behavior.Answers.stopped {dt : Float32} {n : Nat} {b b' : Behavior H} {log : Log}
    {stop : Stop} (h : Answers dt n b log (.error stop) b') :
    ((∃ a, b = .action a) ∧ log = []) ∨ ∃ before i, log = before ++ [(i, .error stop)] := by
  generalize ha : (.error stop : Answer) = answer at h
  cases h with
  | selector h | randomSelector h | sequence h =>
    subst ha
    exact .inr h.stopped
  | @parallel p q log results h =>
    cases results with
    | error stop' =>
      cases ha
      exact .inr h.stopped
    | ok results => cases ha
  | relay =>
    subst ha
    exact .inr ⟨[], 0, rfl⟩
  | repeaterStop =>
    cases ha
    exact .inr ⟨[], 0, rfl⟩
  | action => exact .inl ⟨⟨_, rfl⟩, rfl⟩
  | _ => cases ha

namespace Visits
variable {P : Law H} {log : Log} {i : Nat} {a : Answer} {cs cs' : List (Node H)} {st st' : Stage H}
  {tr : List (Entry H.Note)}

theorem last (h : Visits P (log ++ [(i, a)]) cs st cs' st' tr) :
    ∃ cs₁ c c' st₁ tr₁ tr₂, Visits P log cs st cs₁ st₁ tr₁ ∧ i ∉ log.map Prod.fst ∧
      cs₁[i]? = some c ∧ cs' = cs₁.set i c' ∧ P c st₁ ⟨(a, c'), st', tr₂⟩ ∧ tr = tr₁ ++ tr₂ := by
  induction log generalizing cs st tr with
  | nil =>
    cases h with
    | cons _ child law rest =>
      cases rest
      exact ⟨cs, _, _, st, [], _, .nil, by simp, child, rfl, law, by simp⟩
  | cons x log ih =>
    rw [List.cons_append] at h
    cases h with
    | cons fresh child law rest =>
      obtain ⟨cs₁, c, c', st₁, tr₁, tr₂, hvisits, hi, hc, rfl, hlaw, rfl⟩ := ih rest
      simp only [List.map_append, List.mem_append, not_or] at fresh
      refine ⟨cs₁, c, c', st₁, _, tr₂, .cons fresh.1 child law hvisits, ?_, hc, rfl, hlaw,
        (List.append_assoc ..).symm⟩
      simp only [List.map_cons, List.map_nil, List.mem_singleton] at fresh
      simp only [List.map_cons, List.mem_cons, not_or]
      exact ⟨Ne.symm fresh.2, hi⟩

theorem final (hP : P.Local) (hn : (cs.flatMap Node.ids).Nodup)
    (h : Visits P (log ++ [(i, a)]) cs st cs' st' tr) :
    ∃ c c' st₁ tr₁ tr₂, cs[i]? = some c ∧ cs'[i]? = some c' ∧ P c st₁ ⟨(a, c'), st', tr₂⟩ ∧
      tr = tr₁ ++ tr₂ ∧ ∀ p, Only c.ids p → tr₁.filter p = [] := by
  obtain ⟨cs₁, c, c', st₁, tr₁, tr₂, hvisits, hi, hc, rfl, hlaw, rfl⟩ := h.last
  have hlt : i < cs₁.length := (List.getElem?_eq_some_iff.mp hc).1
  have hlt' : i < cs.length := hvisits.length_eq ▸ hlt
  have hi' : cs[i]? = some cs[i] := List.getElem?_eq_getElem hlt'
  obtain ⟨-, hsame, hnone⟩ | ⟨_, _, _, hmem, -⟩ := hvisits.share hP hn i hi'
  · obtain rfl : c = cs[i] := Option.some.inj (hc.symm.trans hsame)
    exact ⟨cs[i], c', st₁, tr₁, tr₂, hi', List.getElem?_set_self hlt, hlaw, rfl, hnone⟩
  · exact absurd (List.mem_map_of_mem hmem) hi

end Visits

namespace Node

def trail? : List Nat → Node H → Option (List (Frame H))
  | [], n => some [n.frame]
  | i :: path, mk f cs => (cs[i]?).bind fun c => (trail? path c).map (f :: ·)

theorem trail?_cons {i : Nat} {path : List Nat} {f : Frame H} {cs : List (Node H)} {c : Node H}
    {fs : List (Frame H)} (hc : cs[i]? = some c) (h : c.trail? path = some fs) :
    (mk f cs).trail? (i :: path) = some (f :: fs) := by
  simp [trail?, hc, h]

theorem mem_frames_of_trail? {path : List Nat} {n : Node H} {fs : List (Frame H)}
    (h : n.trail? path = some fs) : ∀ f ∈ fs, f ∈ n.frames := by
  induction path generalizing n fs with
  | nil =>
    cases h
    simpa using n.frame_mem_frames
  | cons i path ih =>
    cases n with
    | mk f cs =>
      obtain ⟨c, hc, h⟩ := Option.bind_eq_some_iff.mp h
      obtain ⟨gs, hgs, rfl⟩ := Option.map_eq_some_iff.mp h
      intro g hg
      rw [frames_mk]
      obtain rfl | hg := List.mem_cons.mp hg
      · exact List.mem_cons_self
      · exact List.mem_cons_of_mem _
          (List.mem_flatMap.mpr ⟨c, List.mem_of_getElem? hc, ih hgs g hg⟩)

/-- An execution that the error of a callback ends: `fs` are the frames on the way from the root to
the node of the callback, and `gs` these frames after the execution. -/
structure Unwinds (s : Setting) (dt : Float32) (e : Fault) (n : Node H)
    (o : Outcome (Stage H) (Entry H.Note) (Answer × Node H)) (fs gs : List (Frame H)) : Prop where
  way : ∃ path, n.trail? path = some fs ∧ o.value.2.trail? path = some gs
  held : List.Forall₂ Frame.Held fs gs
  /-- The callback answers with the error, and leaves its notes and the world; after it the error
  just passes up. -/
  raised : ∃ a a' reach g before, gs.getLast? = some g ∧ g.behavior = .action a' ∧
    (H.tick a s.scope dt reach).value = (.error e, a') ∧
    (H.tick a s.scope dt reach).state = ⟨o.state.world, o.state.rng⟩ ∧
    o.trace = before ++ (.hook g.view (.ticked dt) ::
      ((H.tick a s.scope dt reach).trace.map .note ++ Frame.passing (.failed e) gs))
  spared : ∀ g ∈ gs, ∀ x ∈ own g.id o.trace, x.settles = false

theorem visit_execute (s : Setting) (dt : Float32) {n : Node H} (h : n.Sound) (hn : n.ids.Nodup)
    (st : Stage H) :
    n.frame.Visit s dt (n.execute s dt st).value.1 (own n.id (n.execute s dt st).trace)
      (n.execute s dt st).value.2.frame := by
  let P : Law H := fun n _ o => n.ids.Nodup →
    n.frame.Visit s dt o.value.1 (own n.id o.trace) o.value.2.frame
  refine execute_rule (P := P) (fun f cs st o _ _ h hn => ?_) h st hn
  obtain ⟨hout, -⟩ := nodup_mk hn
  cases Frame.unfolds h with
  | @mk w₁ w₂ w₃ f' answer log cs₁ cs₂ st₁ st₂ st' tr trc swept visit visits _ teardown trace
      mine₁ mine₂ mine₃ =>
    have hlocal := local_execute P s dt
    have hids := visits.flatMap_ids_eq hlocal
    have hswept : own f.id swept = [] := (hids ▸ teardown.within).own_eq_nil hout
    have hown : own f.id tr = w₁ ++ (w₂ ++ w₃) := by
      rw [own_congr trace]
      simp [own_eq_self mine₁, own_eq_self mine₂, own_eq_self mine₃, hswept,
        (visits.within hlocal).own_eq_nil hout]
    exact hown ▸ visit

end Node

namespace Frame
variable {s : Setting} {dt : Float32} {f f' : Frame H} {st st₁ st₂ st₃ : Stage H}
  {as : List (Attachment H)} {tr₀ tr₁ tr₂ tr₃ : List (Entry H.Note)}

theorem mine_before {n : Nat} (guarded : guards s f.view 0 f.decorators st = ⟨true, st₁, tr₁⟩)
    (activated : f.activate s n st₁ = ⟨(.ok (), f'), st₂, tr₂⟩)
    (served : serve s f'.view dt 0 f'.services st₂ = ⟨as, st₃, tr₃⟩)
    (resumes : ∀ e ∈ calls tr₀, ∃ cursor, e = .hook f'.view (.resumed cursor)) :
    f.Held f' ∧ Mine f.id (calls (.hook f.view (.executed dt) :: (tr₁ ++ (tr₂ ++ (tr₃ ++
      (.hook f'.view (.ticked dt) :: tr₀)))))) := by
  obtain ⟨-, hop⟩ | ⟨_, _, _, h, -⟩ := activate_spec activated
  swap
  · cases h
  have hid : f'.id = f.id := hop.id_eq
  have hguards : Mine f.id (calls tr₁) := (mine_guards (calls_guards guarded)).1
  have hserved : Mine f.id (calls tr₃) := by
    have htr₃ := (serve_spec s f'.view dt 0 f'.services st₂).2
    rw [served] at htr₃
    rw [htr₃, ← hid]
    exact mine_map_hook f'.view _ _
  have hresumes : Mine f.id (calls tr₀) := hid ▸ (mine_resumed resumes).1
  exact ⟨hop.held, by simp [hguards, hop.mine, hserved, hresumes, hid]⟩

theorem execute_eq {bs : List (Branch H)}
    (guarded : guards s f.view 0 f.decorators st = ⟨true, st₁, tr₁⟩)
    (activated : f.activate s bs.length st₁ = ⟨(.ok (), f'), st₂, tr₂⟩) :
    f.execute s dt bs st =
      let o := f'.advance s dt bs st₂
      ⟨o.value, o.state, .hook f.view (.executed dt) :: (tr₁ ++ (tr₂ ++ (o.trace ++
        [.hook o.value.2.view (.returned o.value.1)])))⟩ := by
  simp [execute, run, guarded, activated]

theorem advance_raises {a : H.Action} {stop : Stop} {bs : List (Branch H)}
    (served : serve s f.view dt 0 f.services st = ⟨as, st₁, tr₁⟩)
    (action : f.behavior = .action a) (h : (f.advance s dt bs st).value.1 = .error stop) :
    let o := H.tick a s.scope dt ⟨st₁.world, st₁.rng⟩
    let g := { f with services := as, behavior := .action o.value.2 }
    ∃ e, stop = .failed e ∧ o.value.1 = .error e ∧
      f.advance s dt bs st = ⟨(.error stop, .mk g (bs.map (·.node))),
        { st₁ with world := o.state.world, rng := o.state.rng },
        tr₁ ++ (.hook f.view (.ticked dt) ::
          (o.trace.map .note ++ [.hook g.view (.answered (.error stop))]))⟩ := by
  rcases ho : H.tick a s.scope dt ⟨st₁.world, st₁.rng⟩ with ⟨⟨answer, a'⟩, reach, notes⟩
  have htick : f.behavior.tick s f.view dt bs st₁ = ⟨(answer.mapError .failed, .action a', bs),
      { st₁ with world := reach.world, rng := reach.rng }, notes.map .note⟩ := by
    simp [action, Behavior.tick, ho]
  simp only [view] at served htick
  cases answer with
  | ok status =>
    simp only [advance, Traced.bind_apply, Exec.hook_apply, view, served, htick,
      Except.mapError] at h
    split at h <;> cases h
  | error e =>
    have hadvance : f.advance s dt bs st =
        ⟨(.error (.failed e), .mk { f with services := as, behavior := .action a' }
          (bs.map (·.node))), { st₁ with world := reach.world, rng := reach.rng },
        tr₁ ++ (.hook f.view (.ticked dt) ::
          (notes.map .note ++ [.hook f.view (.answered (.error (.failed e)))]))⟩ := by
      simp [advance, view, served, htick, Except.mapError]
    rw [hadvance] at h
    cases h
    exact ⟨e, rfl, rfl, hadvance⟩

end Frame

namespace Node

section Unwinds
variable {s : Setting} {dt : Float32} {e : Fault} {f f' g : Frame H} {cs cs' : List (Node H)}
  {st st₁ st₂ st₃ : Stage H} {tr w : List (Entry H.Note)}

theorem unwinds_raised {as : List (Attachment H)} {tr₁ tr₂ tr₃ : List (Entry H.Note)}
    {a : H.Action} (held : f.Held f')
    (guarded : Frame.guards s f.view 0 f.decorators st = ⟨true, st₁, tr₁⟩)
    (activated : f.activate s cs.length st₁ = ⟨(.ok (), f'), st₂, tr₂⟩)
    (served : Frame.serve s f'.view dt 0 f'.services st₂ = ⟨as, st₃, tr₃⟩)
    (action : f'.behavior = .action a)
    (he : ((mk f cs).execute s dt st).value.1 = .error (.failed e))
    (spared : ∀ x ∈ own f.id ((mk f cs).execute s dt st).trace, x.settles = false) :
    ∃ g, (mk f cs).Unwinds s dt e ((mk f cs).execute s dt st) [f] [g] := by
  have hlen : (branches s dt cs).length = cs.length := length_branches s dt cs
  have hexecute : (mk f cs).execute s dt st = _ := Frame.execute_eq guarded (hlen ▸ activated)
  rw [hexecute] at he spared ⊢
  obtain ⟨e', he', hanswer, hadvance⟩ := Frame.advance_raises served action he
  cases he'
  rw [hadvance] at spared ⊢
  let o := H.tick a s.scope dt ⟨st₃.world, st₃.rng⟩
  let g : Frame H := { f' with services := as, behavior := .action o.value.2 }
  refine ⟨g, ⟨[], rfl, rfl⟩, .cons ⟨held.id, held.active, held.time⟩ .nil, ?_, ?_⟩
  · refine ⟨a, o.value.2, ⟨st₃.world, st₃.rng⟩, g, .hook f.view (.executed dt) ::
      (tr₁ ++ (tr₂ ++ tr₃)), rfl, rfl, Prod.ext hanswer rfl, rfl, ?_⟩
    simp [Frame.passing, o, g, Node.view, Frame.view]
  · intro g' hg' x hx
    obtain rfl : g' = g := by simpa using hg'
    refine spared x ?_
    rw [← held.id]
    exact hx

theorem unwinds_passed {c c' : Node H} {i : Nat} {fs gs : List (Frame H)} {answer : Answer}
    (before : List (Entry H.Note)) (held : f.Held g) (hc : cs[i]? = some c)
    (hc' : cs'[i]? = some c')
    (h : c.Unwinds s dt e ⟨(answer, c'), st, tr⟩ fs gs)
    (trace : w = before ++ (tr ++ Frame.passing (.failed e) [g]))
    (outside : ∀ k ∈ c'.ids, g.id ≠ k ∧ own k before = [])
    (spared : ∀ x ∈ own g.id w, x.settles = false) :
    (mk f cs).Unwinds s dt e ⟨(answer, mk g cs'), st, w⟩ (f :: fs) (g :: gs) := by
  obtain ⟨⟨path, hfs, hgs⟩, hheld, ⟨a, a', reach, g', tr₁, hlast, hg', hvalue, hstate, htr⟩,
    hspared⟩ := h
  refine ⟨⟨i :: path, trail?_cons hc hfs, trail?_cons hc' hgs⟩, .cons held hheld, ?_, ?_⟩
  · refine ⟨a, a', reach, g', before ++ tr₁, ?_, hg', hvalue, hstate, ?_⟩
    · rw [List.getLast?_cons, hlast]
      rfl
    · rw [trace]
      simp only at htr
      rw [htr, Frame.passing_cons _ g gs]
      simp [Frame.passing]
  · intro x hx
    obtain rfl | hx := List.mem_cons.mp hx
    · exact spared
    · obtain ⟨hne, hbefore⟩ := outside x.id (List.mem_map_of_mem (mem_frames_of_trail? hgs x hx))
      have hpassing : own x.id (Frame.passing (.failed e) [g]) = [] :=
        own_eq_nil (j := g.id) (by simp [Frame.passing]) hne
      rw [trace, own_append, own_append, hbefore, hpassing, List.append_nil]
      exact hspared x hx

end Unwinds

def UnwindLaw (s : Setting) (dt : Float32) : Law H := fun n _ o =>
  n.ids.Nodup → ∀ e, o.value.1 = .error (.failed e) → ∃ fs gs, n.Unwinds s dt e o fs gs

/-- Every error of a callback leaves the tree by the way that leads to the callback. -/
theorem execute_unwinds (s : Setting) (dt : Float32) {n : Node H} (h : n.Sound) (st : Stage H) :
    UnwindLaw s dt n st (n.execute s dt st) := by
  refine execute_rule (fun f cs st o hsound ho h hn e he => ?_) h st
  have hspared : ∀ x ∈ own f.id o.trace, x.settles = false := by
    have hvisit := visit_execute s dt hsound hn st
    rw [← ho, he] at hvisit
    exact hvisit.settles_eq
  obtain ⟨hout, hcs⟩ := nodup_mk hn
  cases h with
  | refused => cases he
  | panicked => cases he
  | @ticked f' as raw answer b cs' n st₁ st₂ st₃ st₄ st' tr₁ tr₂ tr₃ tr₄ tr₅ guarded activated
      served fits ticked resolved =>
    cases resolved with
    | kept => cases he
    | concluded => cases he
    | stopped =>
      cases he
      cases ticked with
      | @mk _ _ _ log st₀ _ trc tr₀ tables resumes visits answers =>
        obtain ⟨hheld, hmine⟩ := Frame.mine_before guarded activated served resumes
        obtain ⟨⟨a, hb⟩, rfl⟩ | ⟨before, i, rfl⟩ := answers.stopped
        · rw [ho]
          have he := congrArg (fun o => o.value.1) ho
          obtain ⟨g, hunwinds⟩ := unwinds_raised hheld guarded activated served hb he.symm
            (ho ▸ hspared)
          exact ⟨_, _, hunwinds⟩
        · have hlocal := local_execute (UnwindLaw (H := H) s dt) s dt
          obtain ⟨c, c', st₅, tr₆, tr₇, hc, hc', hlaw, rfl, hnone⟩ := visits.final hlocal hcs
          have hmem : c ∈ cs := List.mem_of_getElem? hc
          have hids : c'.ids = c.ids := (hlocal _ _ _ hlaw).2
          obtain ⟨fs, gs, hunwinds⟩ := hlaw.1 ((List.nodup_flatMap.mp hcs).1 c hmem) e rfl
          let before := .hook f.view (.executed dt) :: (tr₁ ++ (tr₂ ++ (tr₃ ++
            (.hook f'.view (.ticked dt) :: tr₀))))
          let g : Frame H := { f' with services := as, behavior := b }
          have hheld : f.Held g := ⟨hheld.id, hheld.active, hheld.time⟩
          refine ⟨_, _, unwinds_passed (before ++ tr₆) hheld hc hc' hunwinds ?_ ?_ ?_⟩
          · simp [before, Frame.passing, Frame.view, Node.view]
          · intro k hk
            rw [hids] at hk
            have hne : f.id ≠ k := fun h => hout (h ▸ List.mem_flatMap.mpr ⟨c, hmem, hk⟩)
            have hbefore : own k (calls before) = [] := own_eq_nil hmine hne
            have hearlier : own k tr₆ = [] := hnone _ (only_own hk)
            exact ⟨hheld.id ▸ hne, by rw [own_append, ← own_calls, hbefore, hearlier]; rfl⟩
          · intro x hx
            exact hspared x (hheld.id ▸ hx)

/-- An abort that ends every activation of the tree, each of them once. -/
structure Clears (s : Setting) (n : Node H) (o : Outcome (Stage H) (Entry H.Note) (Node H)) :
    Prop where
  idle : o.value.Idle
  calls : ∀ f ∈ n.frames, own f.id o.trace = f.sweep s
  once : ∀ f ∈ n.frames,
    (own f.id o.trace).countP (·.turn = some false) = if f.active then 1 else 0

theorem abort_clears (s : Setting) {n : Node H} (hn : n.ids.Nodup) (h : n.Closed) (st : Stage H) :
    n.Clears s (n.abort s st) := by
  have hidle : (n.abort s st).value.Idle := n.value_abort s st ▸ h.idle_settle
  have hcalls : ∀ f ∈ n.frames, own f.id (n.abort s st).trace = f.sweep s := by
    intro f hf
    obtain ⟨g, hg, -, hswept⟩ := exists_right (sweep_each s hn) hf
    have hown : own f.id (n.abort s st).trace = own f.id (n.sweep s) :=
      own_congr (n.calls_abort s st) f.id
    rw [hown]
    generalize own f.id (n.sweep s) = w at hswept
    cases hswept with
    | missed => exact (f.sweep_of_idle s (h.idle_settle f hg)).symm
    | reached => rfl
  refine ⟨hidle, hcalls, fun f hf => ?_⟩
  rw [hcalls f hf]
  exact f.count_sweep s

end Node

theorem Instance.tick_stopped {i : Instance H} {dt : Float32} {r : Realm H} {stop : Stop}
    (h : (i.tick dt r).value.1 = .error stop) :
    let o := i.root.execute (i.context.beginTick dt).toSetting dt ⟨r, i.context.rng⟩
    i.active = true ∧ o.value.1 = .error stop ∧ i.tick dt r =
      ⟨(.error stop, i.ticked dt o.value.2 o.state.rng), o.state.toRealm, o.trace⟩ := by
  intro o
  have hticks := i.tick_spec dt r
  generalize i.tick dt r = p at h hticks
  cases hticks with
  | ended => cases h
  | completed => cases h
  | kept hi executed =>
    cases h
    have ho : o = _ := executed
    exact ⟨hi, by rw [ho], by rw [ho]⟩

/-- Whatever callbacks do, the error of one of them leaves a tree by the way from the callback up to
the root. A later abort ends what is left open, and a tick that stops leaves the tree going. -/
theorem unwound_of_play (ms : List (Move H)) {t : Rooted H} (idle : t.root.Idle)
    (distinct : t.root.ids.Nodup) (st : Stage H) :
    let u := (play ms t st).value.2
    (∀ dt st' e, let o := u.root.execute u.setting dt st'
      o.value.1 = .error (.failed e) →
        (∃ fs gs, u.root.Unwinds u.setting dt e o fs gs) ∧
        ∀ more st₁ st₂, let v := (play more { u with root := o.value.2 } st₁).value.2
          v.root.Clears v.setting (v.root.abort v.setting st₂)) ∧
      ∀ (i : Instance H) dt r e, i.root = u.root → (i.tick dt r).value.1 = .error (.failed e) →
        let o := i.root.execute (i.context.beginTick dt).toSetting dt ⟨r, i.context.rng⟩
        let j := (i.tick dt r).value.2
        o.value.1 = .error (.failed e) ∧ j.root = o.value.2 ∧ (i.tick dt r).trace = o.trace ∧
          (∃ fs gs, i.root.Unwinds (i.context.beginTick dt).toSetting dt e o fs gs) ∧
          j.active = true ∧ j.context.scope.elapsed = i.context.scope.elapsed + dt ∧
          ∀ x ∈ calls (i.tick dt r).trace, ∃ k ∈ i.root.ids, x.about = some k := by
  intro u
  have hproper : u.Proper := proper_play ms ⟨Node.sound_of_idle idle, distinct⟩ st
  have hclosed : u.root.Closed :=
    closed_play ms (Node.sound_of_idle idle) (Node.closed_of_idle idle) st
  constructor
  · intro dt st' e o he
    refine ⟨Node.execute_unwinds u.setting dt hproper.sound st' hproper.distinct e he, ?_⟩
    intro more st₁ st₂ v
    let u' : Rooted H := { u with root := o.value.2 }
    have hproper' : u'.Proper := by simpa [Move.act] using proper_act (.execute dt) hproper st'
    have hclosed' : u'.root.Closed := Node.closed_execute u.setting dt hproper.sound hclosed st'
    exact Node.abort_clears v.setting (proper_play more hproper' st₁).distinct
      (closed_play more hproper'.sound hclosed' st₁) st₂
  · intro i dt r e hroot he o j
    obtain ⟨hactive, hanswer, htick⟩ := Instance.tick_stopped he
    have hsound : i.root.Sound := hroot ▸ hproper.sound
    have hdistinct : i.root.ids.Nodup := hroot ▸ hproper.distinct
    have hj : j = _ := congrArg (fun o => o.value.2) htick
    have htrace : (i.tick dt r).trace = o.trace := congrArg (fun o => o.trace) htick
    refine ⟨hanswer, congrArg Instance.root hj, htrace, ?_, congrArg Instance.active hj ▸ hactive,
      congrArg (fun j => j.context.scope.elapsed) hj, fun x hx => ?_⟩
    · exact Node.execute_unwinds _ dt hsound _ hdistinct e hanswer
    · rw [htrace] at hx
      obtain ⟨k, hk⟩ := Option.isSome_iff_exists.mp (Node.nodal_execute _ dt hsound _ x hx)
      exact ⟨k, Node.within_execute _ dt hsound _ x (List.mem_of_mem_filter hx) k hk, hk⟩

def Host.faulty : Host :=
  { Host.echo with
    Action := Except Fault Status
    start := fun a _ => pure a
    tick := fun a _ _ => pure (a, a)
    finish := fun a _ _ => pure a }

namespace Rooted

def faulty : Rooted Host.faulty where
  setting := echo.setting
  root :=
    let leaf (id : NodeId) (answer : Except Fault Status) : Node Host.faulty :=
      .mk (.idle id "" (.action answer)) []
    .mk (.idle 4 "" (.selector 0))
      [leaf 1 (.ok .failure), leaf 2 (.error .missingRoot), leaf 3 (.ok .success)]

def hushed : Stage Host.faulty := ⟨⟨⟨#[], #[], ()⟩, .empty⟩, .ofSeed 0⟩

end Rooted

theorem unwound_of_play_faulty :
    let t := Rooted.faulty
    let o := t.root.execute t.setting 1 Rooted.hushed
    (t.root.Idle ∧ t.root.ids.Nodup) ∧ o.value.1 = .error (.failed .missingRoot) ∧
      (∃ fs gs, t.root.Unwinds t.setting 1 .missingRoot o fs gs) ∧
      o.value.2.Clears t.setting (o.value.2.abort t.setting o.state) := by
  have hidle : Rooted.faulty.root.Idle := by decide
  have hdistinct : Rooted.faulty.root.ids.Nodup := by decide
  have hanswer : (Rooted.faulty.root.execute Rooted.faulty.setting 1 Rooted.hushed).value.1 =
      .error (.failed .missingRoot) := by decide +kernel
  obtain ⟨hunwinds, hclears⟩ := (unwound_of_play [] hidle hdistinct Rooted.hushed).1 1
    Rooted.hushed .missingRoot hanswer
  exact ⟨⟨hidle, hdistinct⟩, hanswer, hunwinds, hclears [] Rooted.hushed _⟩

end TickTree
