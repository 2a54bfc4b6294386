import TickTree.Proofs.Practices
/-! What may be said of single computations. A habit is what the engine's own steps have and what
goes through sequencing; if the callbacks have it, executions and aborts of whole trees have it. -/
namespace TickTree
variable {H : Host} {α β : Type} {ν : Type}

def Entry.note? : Entry ν → Option ν
  | .note n => some n
  | _ => none

def notes (w : List (Entry ν)) : List ν := w.filterMap Entry.note?

theorem notes_append (w w' : List (Entry ν)) : notes (w ++ w') = notes w ++ notes w' :=
  List.filterMap_append

@[simp] theorem notes_map_note (xs : List ν) : notes (xs.map .note) = xs := by
  simp [notes, List.filterMap_map, Function.comp_def, Entry.note?]

def Exec.Quiet (x : Exec H α) : Prop :=
  ∀ st, (x st).state.world = st.world ∧ notes (x st).trace = []

theorem Entry.note?_of_isSmall {e : Entry ν} (h : e.isSmall = true) : e.note? = none := by
  cases e <;> simp_all [isSmall, note?]

theorem Exec.Small.quiet {x : Exec H α} (h : x.Small) : x.Quiet := fun st =>
  ⟨(h st).1, List.filterMap_eq_nil_iff.mpr fun e he => Entry.note?_of_isSmall ((h st).2.2 e he)⟩

/-- What quiet computations have and sequencing keeps. -/
structure Habit (H : Host) where
  holds : ∀ {α : Type}, Exec H α → Prop
  quiet : ∀ {α : Type} {x : Exec H α}, x.Quiet → holds x
  bind : ∀ {α β : Type} {x : Exec H α} {f : α → Exec H β}, holds x → (∀ a, holds (f a)) →
    holds (x >>= f)

namespace Habit
variable {C : Scope → Prop} {D : Float32 → Prop} (J : Habit H)

theorem pure (a : α) : J.holds (Pure.pure a : Exec H α) := J.quiet fun _ => ⟨rfl, rfl⟩

theorem last {x : Exec H α} {b : α → β} (hx : J.holds x) :
    J.holds (x >>= fun a => Pure.pure (b a)) := J.bind hx fun _ => J.pure _

theorem after {x : Exec H Unit} {f : Unit → Exec H β} (hx : x.Quiet) (hf : J.holds (f ())) :
    J.holds (x >>= f) := J.bind (J.quiet hx) fun _ => hf

structure Spares (C : Scope → Prop) : Prop where
  finish : ∀ a s x, C s → J.holds (Exec.reach (H.finish a s x))
  finished : ∀ d s v x, C s → J.holds (Exec.look (H.finished d s v x))
  aborted : ∀ d s v, C s → J.holds (Exec.look (H.aborted d s v))
  detached : ∀ l s v, C s → J.holds (Exec.reach (H.detached l s v))

structure Suits (C : Scope → Prop) (D : Float32 → Prop) : Prop extends J.Spares C where
  start : ∀ a s, C s → J.holds (Exec.reach (H.start a s))
  tick : ∀ a s dt, C s → D dt → J.holds (Exec.reach (H.tick a s dt))
  check : ∀ c s, C s → J.holds (Exec.look (H.check c s))
  allows : ∀ d s v, C s → J.holds (Exec.look (H.allows d s v))
  modifier : ∀ d f, H.modifier d = some f → ∀ s v dt x, C s → D dt →
    J.holds (Exec.look (f s v dt x))
  attached : ∀ l s v, C s → J.holds (Exec.reach (H.attached l s v))
  serve : ∀ l s v dt, C s → D dt → J.holds (Exec.reach (H.serve l s v dt))

variable {J} {s : Setting} {dt : Float32}

def Spares.ending (hJ : J.Spares C) (hs : C s.scope) : Ending H s where
  holds := J.holds
  small h := J.quiet h.quiet
  bind := J.bind
  finish a r := hJ.finish a s.scope r hs
  finished d v r := hJ.finished d s.scope v r hs
  aborted d v := hJ.aborted d s.scope v hs
  detached l v := hJ.detached l s.scope v hs

def Suits.practice (hJ : J.Suits C D) (hs : C s.scope) (hdt : D dt) : Practice H s dt where
  toEnding := hJ.toSpares.ending hs
  tick a := hJ.tick a s.scope dt hs hdt
  check c := hJ.check c s.scope hs
  allows d v := hJ.allows d s.scope v hs
  modifier d f hf v r := hJ.modifier d f hf s.scope v dt r hs hdt
  serve l v := hJ.serve l s.scope v dt hs hdt

end Habit

variable {J : Habit H} {C : Scope → Prop} {D : Float32 → Prop} {s : Setting} {dt : Float32}

theorem Node.habit_abort (hJ : J.Spares C) (hs : C s.scope) (n : Node H) : J.holds (n.abort s) :=
  (hJ.ending hs).abort n

theorem Frame.habit_conclude (hJ : J.Spares C) (hs : C s.scope) (result : Status) (f : Frame H)
    (cs : List (Node H)) : J.holds (f.conclude s result cs) := (hJ.ending hs).conclude result f cs

section Start
variable (hJ : J.Suits C D) (hs : C s.scope)
include hJ hs

theorem Frame.habit_attach (v : View) (slot : Nat) (as : List (Attachment H)) :
    J.holds (attach s v slot as) := by
  induction as generalizing slot with
  | nil => exact J.pure ()
  | cons a as ih =>
    refine J.after (fun _ => ⟨rfl, rfl⟩) (J.bind ?_ fun _ => ih (slot + 1))
    exact hJ.attached a.service.label s.scope v hs

theorem Behavior.habit_start (v : View) (n : Nat) (b : Behavior H) : J.holds (b.start s v n) := by
  cases b with
  | action a => exact J.last (hJ.start a s.scope hs)
  | wait w =>
    refine J.quiet fun st => ?_
    rw [start, Traced.bind_apply, Traced.get_apply]
    rcases w.start st.rng with ⟨_ | ⟨⟩, w', r⟩
    · exact ⟨rfl, rfl⟩
    · by_cases hdraws : w'.draws = true <;> simp [hdraws, notes, Entry.note?]
  | randomSelector cursor order =>
    refine J.last (J.quiet fun st => ⟨rfl, ?_⟩)
    simp [shuffle, notes, List.filterMap_map, Function.comp_def, Entry.note?]
  | _ => exact J.quiet fun _ => ⟨rfl, rfl⟩

theorem Frame.habit_activate (n : Nat) (f : Frame H) : J.holds (f.activate s n) := by
  rw [activate]
  split
  · exact J.pure _
  · refine J.after (fun _ => ⟨rfl, rfl⟩) (J.after (fun _ => ⟨rfl, rfl⟩) ?_)
    refine J.bind (Behavior.habit_start hJ hs _ n f.behavior) fun o => ?_
    obtain ⟨_ | ⟨⟩, b⟩ := o
    · exact J.pure _
    · exact J.last (habit_attach hJ hs _ 0 _)

end Start

theorem Node.habit_execute (hJ : J.Suits C D) (hs : C s.scope) (hdt : D dt) (n : Node H) :
    J.holds (n.execute s dt) :=
  (hJ.practice hs hdt).execute
    (all_of_forall (fun f cs => Frame.habit_activate hJ hs cs.length f) n)

end TickTree
