import TickTree.Node.Execute
import TickTree.Proofs.Sweep
/-! What each part of an execution calls, apart from the executions of children. -/
namespace TickTree
variable {H : Host}

namespace Attachment

def due (dt : Float32) (slot : Nat) : List (Attachment H) → List Nat
  | [] => []
  | a :: as => if (a.advance dt).1 then slot :: due dt (slot + 1) as else due dt (slot + 1) as

def advanceAll (dt : Float32) (as : List (Attachment H)) : List (Attachment H) :=
  as.map fun a => (a.advance dt).2

theorem service_advance (a : Attachment H) (dt : Float32) :
    (a.advance dt).2.service = a.service := by
  unfold advance
  dsimp only
  split <;> rfl

@[simp] theorem map_reset_advanceAll (dt : Float32) (as : List (Attachment H)) :
    (advanceAll dt as).map reset = as.map reset := by
  simp [advanceAll, Function.comp_def, reset, service_advance]

end Attachment

def Decorator.modifies : Decorator H → Bool
  | cooldown _ => false
  | timeout _ | inverter => true
  | custom d => (H.modifier d).isSome

theorem Decorator.isSome_modifier (s : Setting) (v : View) (dt : Float32) (r : Status)
    (d : Decorator H) : (d.modifier s v dt r).isSome = d.modifies := by
  cases d with
  | custom d => exact Option.isSome_map
  | _ => rfl

theorem Decorator.calls_modifier {s : Setting} {v : View} {dt : Float32} {r : Status}
    {d : Decorator H} {x : Exec H Status} (h : d.modifier s v dt r = some x) (st : Stage H) :
    calls (x st).trace = [] := by
  cases d with
  | cooldown c => cases h
  | timeout o => cases h; rfl
  | inverter => cases h; rfl
  | custom d =>
    obtain ⟨g, -, rfl⟩ := Option.map_eq_some_iff.mp h
    simp

namespace Frame

/-- The hooks of modifiers, in the order of their slots, that take one result to another. -/
inductive Modified (dt : Float32) : Nat → List (Decorator H) → Status → List Hook → Status → Prop
  | nil {slot : Nat} {r : Status} : Modified dt slot [] r [] r
  | skip {slot : Nat} {d : Decorator H} {ds : List (Decorator H)} {r r' : Status} {hs : List Hook}
    (hd : d.modifies = false) (h : Modified dt (slot + 1) ds r hs r') :
    Modified dt slot (d :: ds) r hs r'
  | step {slot : Nat} {d : Decorator H} {ds : List (Decorator H)} {r after r' : Status}
    {hs : List Hook} (hd : d.modifies = true) (h : Modified dt (slot + 1) ds after hs r') :
    Modified dt slot (d :: ds) r (.modified slot dt r after :: hs) r'

theorem Modified.exists_eq {dt : Float32} {slot : Nat} {ds : List (Decorator H)} {r r' : Status}
    {hs : List Hook} (h : Modified dt slot ds r hs r') :
    ∀ h ∈ hs, ∃ i before after, h = .modified i dt before after := by
  induction h with
  | nil => simp
  | skip _ _ ih => exact ih
  | step _ _ ih => exact List.forall_mem_cons.mpr ⟨⟨_, _, _, rfl⟩, ih⟩

def begun (f : Frame H) (b : Behavior H) : Frame H :=
  { f with active := true, time := 0, behavior := b }

def start (s : Setting) (f : Frame H) (drawn : List Draw) : List (Entry H.Note) :=
  let v : View := ⟨f.id, f.name, true, 0⟩
  .notice s.listener (.entered v s.scope.elapsed) :: .hook v .started ::
    drawn.map fun d => .hook v (.drew d)

/-- An activation is going on, or it starts. -/
inductive Opens (s : Setting) (f : Frame H) : List (Entry H.Note) → Frame H → Prop
  | already (hf : f.active = true) : Opens s f [] f
  | fresh {b : Behavior H} {drawn : List Draw} (hf : f.active = false) :
    Opens s f (f.start s drawn ++ slots (f.begun b).view .attached 0 f.services.length)
      { f.begun b with services := f.services.map Attachment.reset }

theorem calls_guards {s : Setting} {v : View} {slot : Nat} {ds : List (Decorator H)}
    {st st' : Stage H} {ok : Bool} {tr : List (Entry H.Note)}
    (h : guards s v slot ds st = ⟨ok, st', tr⟩) :
    ∀ e ∈ calls tr, ∃ i passed, e = .hook v (.guarded i passed) := by
  induction ds generalizing slot st ok st' tr with
  | nil =>
    obtain ⟨rfl, rfl, rfl⟩ := Outcome.mk.inj h
    simp
  | cons d ds ih =>
    have hd : calls (d.allows s v st).trace = [] := by
      cases d with
      | custom d => simp [Decorator.allows]
      | _ => rfl
    rw [guards, Traced.bind_apply, Traced.bind_apply] at h
    obtain ⟨-, -, rfl⟩ := Outcome.mk.inj h
    simp only [calls_append, hd, List.nil_append, Exec.hook_apply, calls_hook, calls_nil]
    intro e he
    obtain rfl | he := List.mem_cons.mp he
    · exact ⟨slot, _, rfl⟩
    · split at he
      · exact ih rfl e he
      · simp at he

theorem guards_passed {s : Setting} {v : View} {slot : Nat} {ds : List (Decorator H)}
    {st : Stage H} (h : (guards s v slot ds st).value = true) :
    calls (guards s v slot ds st).trace = slots v (.guarded · true) slot ds.length := by
  induction ds generalizing slot st with
  | nil => rfl
  | cons d ds ih =>
    have hd : calls (d.allows s v st).trace = [] := by
      cases d with
      | custom d => simp [Decorator.allows]
      | _ => rfl
    rw [guards, Traced.bind_apply, Traced.bind_apply] at h ⊢
    cases hpassed : (d.allows s v st).value with
    | false =>
      rw [hpassed] at h
      cases h
    | true =>
      rw [hpassed] at h
      have hrest : (guards s v (slot + 1) ds (d.allows s v st).state).value = true := h
      simp [hd, ih hrest, slots_succ]

theorem calls_attach (s : Setting) (v : View) (slot : Nat) (as : List (Attachment H))
    (st : Stage H) : calls (attach s v slot as st).trace = slots v .attached slot as.length := by
  induction as generalizing slot st with
  | nil => rfl
  | cons a as ih => simp [attach, ih, slots_succ]

theorem calls_tellFinished (s : Setting) (v : View) (r : Status) (slot : Nat)
    (ds : List (Decorator H)) (st : Stage H) :
    calls (tellFinished s v r slot ds st).trace = slots v (.finished · r) slot ds.length := by
  induction ds generalizing slot st with
  | nil => rfl
  | cons d ds ih =>
    have hd : calls (d.finished s v r st).trace = [] := by
      cases d with
      | cooldown c => unfold Decorator.finished; split <;> rfl
      | custom d => simp [Decorator.finished]
      | _ => rfl
    simp [tellFinished, ih, hd, slots_succ]

theorem serve_spec (s : Setting) (v : View) (dt : Float32) (slot : Nat)
    (as : List (Attachment H)) (st : Stage H) :
    (serve s v dt slot as st).value = Attachment.advanceAll dt as ∧
      calls (serve s v dt slot as st).trace =
        (Attachment.due dt slot as).map fun i => .hook v (.serviced i dt) := by
  induction as generalizing slot st with
  | nil => exact ⟨rfl, rfl⟩
  | cons a as ih =>
    rw [serve, Attachment.due]
    by_cases hd : (a.advance dt).1 = true <;> simp [hd, ih, Attachment.advanceAll]

theorem modify_spec {s : Setting} {v : View} {dt : Float32} {slot : Nat}
    {ds : List (Decorator H)} {r r' : Status} {st st' : Stage H} {tr : List (Entry H.Note)}
    (h : modify s v dt slot ds r st = ⟨r', st', tr⟩) :
    ∃ hs, calls tr = hs.map (.hook v) ∧ Modified dt slot ds r hs r' := by
  induction ds generalizing slot r st st' tr with
  | nil =>
    obtain ⟨rfl, rfl, rfl⟩ := Outcome.mk.inj h
    exact ⟨[], rfl, .nil⟩
  | cons d ds ih =>
    rw [modify] at h
    have hd := d.isSome_modifier s v dt r
    cases hm : d.modifier s v dt r with
    | none =>
      rw [hm] at h hd
      obtain ⟨hs, htr, hmod⟩ := ih h
      exact ⟨hs, htr, .skip hd.symm hmod⟩
    | some x =>
      rw [hm] at h hd
      obtain ⟨rfl, rfl, rfl⟩ := Outcome.mk.inj h
      obtain ⟨hs, htr, hmod⟩ := ih (Eq.refl (modify s v dt (slot + 1) ds (x st).value (x st).state))
      refine ⟨.modified slot dt r (x st).value :: hs, ?_, .step hd.symm hmod⟩
      simp [Decorator.calls_modifier hm, ← htr]

end Frame

namespace Behavior

theorem calls_shuffle (v : View) (n : Nat) (st : Stage H) :
    ∃ drawn : List Draw, calls (shuffle v n st).trace = drawn.map fun d => .hook v (.drew d) := by
  refine ⟨((st.rng.draws (n - 1)).1.zipIdx).map fun x => .upTo (n - 1 - x.2) x.1, ?_⟩
  simp [shuffle, Function.comp_def]

theorem calls_start (s : Setting) (v : View) (n : Nat) (b : Behavior H) (st : Stage H) :
    ∃ drawn : List Draw, calls (b.start s v n st).trace = drawn.map fun d => .hook v (.drew d) := by
  cases b with
  | randomSelector cursor order =>
    obtain ⟨drawn, h⟩ := calls_shuffle v n st
    exact ⟨drawn, by simp [start, h]⟩
  | wait w =>
    rw [start, Traced.bind_apply, Traced.get_apply]
    generalize w.start st.rng = x
    obtain ⟨started, w, rng⟩ := x
    cases started with
    | error p => exact ⟨[], rfl⟩
    | ok u =>
      by_cases hw : w.draws = true
      · exact ⟨[.uniform w.variance], by simp [hw]⟩
      · exact ⟨[], by simp [hw]⟩
  | action a => exact ⟨[], by simp [start]⟩
  | _ => exact ⟨[], rfl⟩

theorem calls_finish (s : Setting) (r : Status) (b : Behavior H) (st : Stage H) :
    calls (b.finish s r st).trace = [] := by
  cases b with
  | action a => simp [finish]
  | _ => rfl

end Behavior

namespace Frame

theorem activate_spec {s : Setting} {n : Nat} {f f' : Frame H} {started : Except Panic Unit}
    {st st' : Stage H} {tr : List (Entry H.Note)}
    (h : f.activate s n st = ⟨(started, f'), st', tr⟩) :
    (started = .ok () ∧ f.Opens s (calls tr) f') ∨
    (∃ p b drawn, started = .error p ∧ f.active = false ∧ f' = f.begun b ∧
      calls tr = f.start s drawn) := by
  rw [activate] at h
  by_cases hf : f.active = true
  · rw [if_pos hf] at h
    cases h
    exact .inl ⟨rfl, .already hf⟩
  · rw [if_neg hf] at h
    have hf : f.active = false := by simpa using hf
    obtain ⟨drawn, hdrawn⟩ := f.behavior.calls_start s (f.begun f.behavior).view n st
    rcases hx : f.behavior.start s (f.begun f.behavior).view n st with ⟨⟨outcome, b⟩, st₁, tr₁⟩
    rw [hx] at hdrawn
    simp only [begun, view] at hx
    simp only [Traced.bind_apply, Exec.notify_apply, Exec.hook_apply, view, hx] at h
    cases outcome with
    | error p =>
      cases h
      refine .inr ⟨p, b, drawn, rfl, hf, rfl, ?_⟩
      simpa [start, begun, view] using hdrawn
    | ok u =>
      cases h
      refine .inl ⟨rfl, ?_⟩
      have ho : f.Opens s (f.start s drawn ++ slots (f.begun b).view .attached 0 f.services.length)
          { f.begun b with services := f.services.map Attachment.reset } := .fresh hf
      simpa [calls_attach, start, hdrawn, begun, view] using ho

/-- The calls of a natural end, with the aborts of children between its own. -/
theorem conclude_spec (s : Setting) (r : Status) (f : Frame H) (cs : List (Node H))
    (st : Stage H) :
    (∃ b, (f.conclude s r cs st).value =
      .mk { f.ended with behavior := b } (cs.map Node.settle)) ∧
    calls (f.conclude s r cs st).trace =
      .hook f.view (.terminated r) :: (cs.flatMap (Node.sweep s) ++ (f.closing s r ++
        slots f.ended.view (.finished · r) 0 f.decorators.length)) := by
  rw [conclude]
  constructor
  · simp only [Traced.bind_apply, Node.value_abortAll, value_endActivation]
    exact ⟨_, rfl⟩
  · simp only [Traced.bind_apply, Exec.hook_apply, Traced.pure_apply, calls_append, calls_hook,
      Behavior.calls_finish, Node.calls_abortAll, calls_endActivation, calls_tellFinished]
    simp [closing, ended, view]

end Frame
end TickTree
