import TickTree.Node.Execute
import TickTree.Proofs.Frames
/-! What goes through sequencing. If the callbacks have it, and the starts of activations, then
aborts and executions of whole trees have it: all other steps are small ones. -/
namespace TickTree
variable {H : Host} {α β : Type} {ν : Type}

def Entry.isSmall : Entry ν → Bool
  | .note _ | .notice _ (.entered ..) | .hook _ (.drew _) => false
  | _ => true

def Exec.Small (x : Exec H α) : Prop := ∀ st, (x st).state.world = st.world ∧
  (x st).state.rng = st.rng ∧ ∀ e ∈ (x st).trace, e.isSmall = true

structure Ending (H : Host) (s : Setting) where
  holds : ∀ {α : Type}, Exec H α → Prop
  small : ∀ {α : Type} {x : Exec H α}, x.Small → holds x
  bind : ∀ {α β : Type} {x : Exec H α} {f : α → Exec H β}, holds x → (∀ a, holds (f a)) →
    holds (x >>= f)
  finish : ∀ a r, holds (Exec.reach (H.finish a s.scope r))
  finished : ∀ d v r, holds (Exec.look (H.finished d s.scope v r))
  aborted : ∀ d v, holds (Exec.look (H.aborted d s.scope v))
  detached : ∀ l v, holds (Exec.reach (H.detached l s.scope v))

/-- What the callbacks of ticks of `dt` have as well. The starts of activations are left out. -/
structure Practice (H : Host) (s : Setting) (dt : Float32) extends Ending H s where
  tick : ∀ a, holds (Exec.reach (H.tick a s.scope dt))
  check : ∀ c, holds (Exec.look (H.check c s.scope))
  allows : ∀ d v, holds (Exec.look (H.allows d s.scope v))
  modifier : ∀ d f, H.modifier d = some f → ∀ v r, holds (Exec.look (f s.scope v dt r))
  serve : ∀ l v, holds (Exec.reach (H.serve l s.scope v dt))

namespace Ending
variable {s : Setting} (P : Ending H s)

theorem pure (a : α) : P.holds (Pure.pure a : Exec H α) :=
  P.small fun _ => ⟨rfl, rfl, by simp⟩

theorem last {x : Exec H α} {b : α → β} (hx : P.holds x) :
    P.holds (x >>= fun a => Pure.pure (b a)) := P.bind hx fun _ => P.pure _

theorem hook (v : View) {h : Hook} (hh : ∀ d, h ≠ .drew d) :
    P.holds (Exec.hook v h : Exec H Unit) :=
  P.small fun _ => ⟨rfl, rfl, by cases h <;> simp_all [Entry.isSmall]⟩

theorem after_hook {v : View} {h : Hook} {f : Unit → Exec H β} (hh : ∀ d, h ≠ .drew d)
    (hf : P.holds (f ())) : P.holds (Exec.hook v h >>= f) :=
  P.bind (P.hook v hh) fun _ => hf

theorem modifyTables (f : Tables → Tables) : P.holds (Exec.modifyTables f : Exec H Unit) :=
  P.small fun _ => ⟨rfl, rfl, by simp⟩

theorem tellAborted (v : View) (slot : Nat) (ds : List (Decorator H)) :
    P.holds (Frame.tellAborted s v slot ds) := by
  induction ds generalizing slot with
  | nil => exact P.pure ()
  | cons d ds ih =>
    refine P.after_hook nofun (P.bind ?_ fun _ => ih (slot + 1))
    cases d with
    | custom d => exact P.aborted d v
    | cooldown c => exact P.modifyTables _
    | timeout o => exact P.modifyTables _
    | inverter => exact P.pure ()

theorem detach (v : View) (slot : Nat) (as : List (Attachment H)) :
    P.holds (Frame.detach s v slot as) := by
  induction as generalizing slot with
  | nil => exact P.pure ()
  | cons a as ih =>
    exact P.after_hook nofun (P.bind (P.detached a.service.label v) fun _ => ih (slot + 1))

theorem endActivation (r : Status) (f : Frame H) : P.holds (f.endActivation s r) :=
  P.bind (P.detach f.view 0 f.services) fun _ =>
    P.last (P.small fun _ => ⟨rfl, rfl, by simp [Entry.isSmall]⟩)

theorem abortFrame (f : Frame H) : P.holds (f.abort s) :=
  P.bind (P.tellAborted f.view 0 f.decorators) fun _ => P.bind (P.endActivation .failure f) fun _ =>
    P.last (P.small fun _ => ⟨rfl, rfl, by simp [Entry.isSmall]⟩)

theorem abortAll {cs : List (Node H)} (h : ∀ c ∈ cs, P.holds (c.abort s)) :
    P.holds (Node.abortAll s cs) := by
  induction cs with
  | nil => exact P.pure []
  | cons c cs ih =>
    exact P.bind (h c (by simp)) fun _ => P.last (ih fun c hc => h c (List.mem_cons_of_mem _ hc))

theorem abort (n : Node H) : P.holds (n.abort s) := by
  induction n with
  | mk f cs ih =>
    rw [Node.abort]
    split
    · exact P.bind (P.abortAll ih) fun _ => P.last (P.abortFrame f)
    · exact P.pure _

theorem behavior_finish (r : Status) (b : Behavior H) : P.holds (b.finish s r) := by
  cases b with
  | action a => exact P.last (P.finish a r)
  | _ => exact P.pure _

theorem tellFinished (v : View) (r : Status) (slot : Nat) (ds : List (Decorator H)) :
    P.holds (Frame.tellFinished s v r slot ds) := by
  induction ds generalizing slot with
  | nil => exact P.pure ()
  | cons d ds ih =>
    refine P.after_hook nofun (P.bind ?_ fun _ => ih (slot + 1))
    cases d with
    | custom d => exact P.finished d v r
    | cooldown c =>
      rw [Decorator.finished]
      split
      · exact P.modifyTables _
      · exact P.pure ()
    | timeout o => exact P.modifyTables _
    | inverter => exact P.pure ()

theorem conclude (r : Status) (f : Frame H) (cs : List (Node H)) : P.holds (f.conclude s r cs) := by
  refine P.after_hook nofun (P.bind (P.behavior_finish r f.behavior) fun b => ?_)
  refine P.bind (P.abortAll fun c _ => P.abort c) fun cs => ?_
  exact P.bind (P.endActivation r _) fun f => P.last (P.tellFinished _ r 0 _)

end Ending

namespace Practice
variable {s : Setting} {dt : Float32} (P : Practice H s dt)

theorem guards (v : View) (slot : Nat) (ds : List (Decorator H)) :
    P.holds (Frame.guards s v slot ds) := by
  induction ds generalizing slot with
  | nil => exact P.pure true
  | cons d ds ih =>
    refine P.bind ?_ fun passed => P.after_hook nofun ?_
    · cases d with
      | custom d => exact P.allows d v
      | cooldown c => exact P.small fun _ => ⟨rfl, rfl, by simp [Decorator.allows]⟩
      | timeout o => exact P.pure true
      | inverter => exact P.pure true
    · split
      · exact ih (slot + 1)
      · exact P.pure false

theorem serveAll (v : View) (slot : Nat) (as : List (Attachment H)) :
    P.holds (Frame.serve s v dt slot as) := by
  induction as generalizing slot with
  | nil => exact P.pure []
  | cons a as ih =>
    rw [Frame.serve]
    dsimp only
    split
    · exact P.after_hook nofun (P.bind (P.serve _ v) fun _ => P.last (ih (slot + 1)))
    · exact P.last (ih (slot + 1))

theorem modify (v : View) (slot : Nat) (ds : List (Decorator H)) (r : Status) :
    P.holds (Frame.modify s v dt slot ds r) := by
  induction ds generalizing slot r with
  | nil => exact P.pure r
  | cons d ds ih =>
    rw [Frame.modify]
    split
    · exact ih (slot + 1) r
    · next x hx =>
      refine P.bind ?_ fun after => P.after_hook nofun (ih (slot + 1) after)
      cases d with
      | custom d =>
        obtain ⟨f, hf, rfl⟩ := Option.map_eq_some_iff.mp hx
        exact P.modifier d f hf v r
      | cooldown c => cases hx
      | timeout o =>
        cases hx
        exact P.small fun _ => ⟨rfl, rfl, by simp⟩
      | inverter =>
        cases hx
        exact P.pure _

section Branches
variable {bs : List (Branch H)} (h : ∀ b ∈ bs, P.holds b.run)
include h

theorem walk (onward : Status) (cursor : Nat) (order : List Nat) :
    P.holds (Branch.walk onward cursor order bs) := by
  induction order generalizing cursor bs with
  | nil => exact P.pure _
  | cons i order ih =>
    rw [Branch.walk]
    split
    · exact P.pure _
    · next b hb =>
      have hb := h b (List.mem_of_getElem? hb)
      refine P.bind hb fun o => ?_
      dsimp only
      split
      · refine ih (fun b' hb' => ?_) (cursor + 1)
        obtain hb' | rfl := List.mem_or_eq_of_mem_set hb'
        · exact h b' hb'
        · exact hb
      · exact P.pure _

theorem runAll : P.holds (Branch.runAll bs) := by
  induction bs with
  | nil => exact P.pure _
  | cons b bs ih =>
    refine P.bind (h b (by simp)) fun o => ?_
    obtain ⟨_ | result, n⟩ := o
    · exact P.pure _
    · exact P.last (ih fun b hb => h b (List.mem_cons_of_mem _ hb))

theorem runFirst : P.holds (Branch.runFirst bs) := by
  cases bs with
  | nil => exact P.pure _
  | cons b bs => exact P.last (h b (by simp))

theorem behavior_tick (v : View) (b : Behavior H) : P.holds (b.tick s v dt bs) := by
  cases b with
  | selector cursor | randomSelector cursor order => exact P.last (P.walk h _ _ _)
  | parallel p q => exact P.last (P.runAll h)
  | sequence cursor => exact P.after_hook nofun (P.last (P.walk h _ _ _))
  | relay => exact P.last (P.runFirst h)
  | repeater r =>
    refine P.bind (P.runFirst h) fun o => ?_
    obtain ⟨_ | _ | child, bs⟩ := o <;> exact P.pure _
  | action a => exact P.last (P.tick a)
  | condition c => exact P.last (P.check c)
  | wait w => exact P.pure _

theorem advance (f : Frame H) : P.holds (f.advance s dt bs) := by
  refine P.bind (P.serveAll f.view 0 f.services) fun as => P.after_hook nofun ?_
  refine P.bind (P.behavior_tick h _ f.behavior) fun o => P.after_hook nofun ?_
  obtain ⟨_ | raw, b, bs⟩ := o
  · exact P.pure _
  · refine P.bind (P.modify _ 0 _ raw) fun result => ?_
    dsimp only
    split
    · exact P.last (P.conclude result _ _)
    · exact P.pure _

theorem executeFrame {f : Frame H} (start : P.holds (f.activate s bs.length)) :
    P.holds (f.execute s dt bs) := by
  have hrun : P.holds (f.run s dt bs) := by
    refine P.bind (P.guards f.view 0 f.decorators) fun passed => ?_
    split
    · refine P.bind start fun o => ?_
      obtain ⟨_ | ⟨⟩, f⟩ := o
      · exact P.pure _
      · exact P.advance h f
    · exact P.bind (P.small fun _ => ⟨rfl, rfl, by simp [Entry.isSmall]⟩) fun _ =>
        P.last (P.abort _)
  exact P.after_hook nofun (P.bind hrun fun o => P.after_hook nofun (P.pure _))

end Branches

/-- Executions of whole trees have it, if the starts of activations in them do. -/
theorem execute {n : Node H} (start : n.All fun f cs => P.holds (f.activate s cs.length)) :
    P.holds (n.execute s dt) := by
  induction n with
  | mk f cs ih =>
    obtain ⟨hf, hcs⟩ := Node.all_mk.mp start
    refine P.executeFrame (Node.forall_mem_branches.mpr fun c hc => ih c hc (hcs c hc)) ?_
    rwa [Node.length_branches]

end Practice
end TickTree
