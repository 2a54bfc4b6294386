import TickTree.Proofs.Groves
import TickTree.Proofs.Vantage
/-! Nobody who watches a run takes part in it. Whoever listens to the contexts of trees, the trees
do the same; and where no callback looks at signals, neither does it matter when they go on and
off. -/
namespace TickTree
variable {H : Host} {α β : Type}

/-- What a host does with many trees, when it also puts them together further, sets them going anew,
and works signals. -/
inductive Chore (H : Host) where
  | deed (d : Deed H)
  /-- Changes the node that a path in a tree leads to, unless the node refuses. -/
  | edit (tree : Nat) (path : List Nat) (change : Node H → Except Fault (Node H))
  /-- Takes a tree apart and makes a new one of its parts. -/
  | renew (tree : Nat)
  /-- Asks for cancellation, or takes that back. -/
  | signal (s : SignalId) (on : Bool)

namespace Chore

def act : Chore H → List (Instance H) →
    Turn H (List (Except Fault (List Answer)) × List (Instance H))
  | deed d, g => do
    let (answers, g) ← d.act g
    pure ([.ok answers], g)
  | edit tree path change, g =>
    match g[tree]? with
    | none => pure ([.ok []], g)
    | some i =>
      match i.root.at? path with
      | none => pure ([.ok []], g)
      | some n =>
        match change n with
        | .error e => pure ([.error e], g)
        | .ok n =>
          let root := (i.root.modifyAt? (fun _ => n) path).getD i.root
          pure ([.ok []], g.set tree { i with root := root })
  | renew tree, g =>
    match g[tree]? with
    | none => pure ([.ok []], g)
    | some i => do
      let (root, context) ← i.intoParts
      pure ([.ok []], g.set tree (.ofRoot root context))
  | signal s on, g => do
    Traced.modify fun r => { r with world := r.world.putSignal s on }
    pure ([], g)

def isSignal : Chore H → Bool
  | signal .. => true
  | _ => false

end Chore

def toil : List (Chore H) → List (Instance H) →
    Turn H (List (Except Fault (List Answer)) × List (Instance H))
  | [], g => pure ([], g)
  | c :: cs, g => do
    let (outcomes, g) ← c.act g
    let (more, g) ← toil cs g
    pure (outcomes ++ more, g)

namespace Vantage
variable {V : Vantage H} {R : α → β → Prop} {c c' : Context} {i i' : Instance H}
  {g g' : List (Instance H)}

abbrev Turns (V : Vantage H) (R : α → β → Prop) (x : Turn H α) (y : Turn H β) : Prop :=
  Traced.Resembles V.Realms V.see R x y

structure Contexts (V : Vantage H) (c c' : Context) : Prop where
  settings : V.Settings c.toSetting c'.toSetting
  rng : c.rng = c'.rng

structure Instances (V : Vantage H) (i i' : Instance H) : Prop where
  root : i.root = i'.root
  context : V.Contexts i.context i'.context
  active : i.active = i'.active

theorem Contexts.beginTick (h : V.Contexts c c') (dt : Float32) :
    V.Contexts (c.beginTick dt) (c'.beginTick dt) :=
  ⟨⟨congrArg (·.beginTick dt) h.settings.scope, h.settings.listener⟩, h.rng⟩

theorem Contexts.withRng (h : V.Contexts c c') (rng : Rng) :
    V.Contexts { c with rng := rng } { c' with rng := rng } :=
  ⟨⟨h.settings.scope, h.settings.listener⟩, rfl⟩

theorem Instances.view_eq (h : V.Instances i i') : i.view = i'.view := by
  rw [Instance.view, Instance.view, h.root, h.active, h.context.settings.scope]

theorem eq_of_over {n m : Node H} (h : Node.Over Eq n m) : n = m := by
  obtain ⟨f, cs⟩ := n
  obtain ⟨g, ds⟩ := m
  obtain ⟨rfl, hcs⟩ := h
  rw [List.forall₂_eq_eq_eq] at hcs
  exact congrArg _ hcs

section Trees
variable {s s' : Setting} (hs : V.Settings s s')
include hs

theorem sim_abort_tree (n : Node H) : V.Sim Eq (n.abort s) (n.abort s') := by
  induction n with
  | mk f cs ih =>
    have hcs : List.Forall₂ (fun c d => c = d ∧ V.Sim Eq (c.abort s) (d.abort s')) cs cs :=
      List.forall₂_same.mpr fun c hc => ⟨rfl, ih c hc⟩
    exact (sim_abort hs hcs).imp fun _ _ => eq_of_over

theorem sim_execute_tree (dt : Float32) (n : Node H) :
    V.Sim (SameAnswer Eq) (n.execute s dt) (n.execute s' dt) := by
  have habort (n m : Node H) (h : n = m) : V.Sim Eq (n.abort s) (m.abort s') := by
    rw [← h]
    exact sim_abort_tree hs n
  induction n with
  | mk f cs ih =>
    have hcs : List.Forall₂ (fun c d => c = d ∧
        V.Sim (SameAnswer Eq) (c.execute s dt) (d.execute s' dt)) cs cs :=
      List.forall₂_same.mpr fun c hc => ⟨rfl, ih c hc⟩
    exact (sim_execute hs habort hcs).imp fun _ _ h => ⟨h.1, eq_of_over h.2⟩

end Trees

theorem turns_report (h : V.Instances i i') (r : String → Report) :
    V.Turns Eq (Turn.report (r i.root.name)) (Turn.report (r i'.root.name)) := by
  rw [h.root]
  exact .emit rfl

theorem turns_notify (h : V.Instances i i') (n : TreeView → Notice) :
    V.Turns Eq (Turn.notify i.context.toSetting (n i.view))
      (Turn.notify i'.context.toSetting (n i'.view)) := by
  rw [h.view_eq]
  exact .emit (h.context.settings.listener _)

theorem turns_onRoot (h : V.Instances i i') {x : Setting → Node H → Exec H (α × Node H)}
    (hx : ∀ s s' n, V.Settings s s' → V.Sim (fun a b => a.1 = b.1 ∧ a.2 = b.2) (x s n) (x s' n)) :
    V.Turns (fun a b => a.1 = b.1 ∧ V.Instances a.2 b.2) (i.onRoot x) (i'.onRoot x) := by
  intro r r' hr
  have hroot := hx _ _ i.root h.context.settings ⟨r, i.context.rng⟩ ⟨r', i.context.rng⟩ ⟨hr, rfl⟩
  obtain ⟨⟨ha, hn⟩, ⟨hrealm, hrng⟩, htrace⟩ := hroot
  rw [Instance.onRoot, Instance.onRoot, ← h.root]
  simp only [Turn.within, ← h.context.rng, Traced.bind_apply, Traced.pure_apply, List.append_nil]
  refine ⟨⟨ha, hn, ?_, h.active⟩, hrealm, htrace⟩
  rw [hrng]
  exact h.context.withRng _

theorem turns_execute (h : V.Instances i i') (dt : Float32) :
    V.Turns (fun a b => a.1 = b.1 ∧ V.Instances a.2 b.2) (i.onRoot fun s n => n.execute s dt)
      (i'.onRoot fun s n => n.execute s dt) :=
  turns_onRoot h fun _ _ n hs => sim_execute_tree hs dt n

theorem turns_abortRoot (h : V.Instances i i') :
    V.Turns V.Instances i.abortRoot i'.abortRoot := by
  have habort : V.Turns (fun a b => a.1 = b.1 ∧ V.Instances a.2 b.2)
      (i.onRoot fun s n => do
        let n ← n.abort s
        pure ((), n))
      (i'.onRoot fun s n => do
        let n ← n.abort s
        pure ((), n)) :=
    turns_onRoot h fun _ _ n hs => (sim_abort_tree hs n).seq fun _ => .pure ⟨rfl, rfl⟩
  exact habort.bind fun a b hab => .pure hab.2

theorem turns_tick (h : V.Instances i i') (dt : Float32) :
    V.Turns (fun a b => a.1 = b.1 ∧ V.Instances a.2 b.2) (i.tick dt) (i'.tick dt) := by
  rw [Instance.tick, Instance.tick]
  by_cases ha : i.active = true
  · rw [if_pos ha, if_pos (h.active ▸ ha)]
    have hbegun : V.Instances { i with context := i.context.beginTick dt }
        { i' with context := i'.context.beginTick dt } := ⟨h.root, h.context.beginTick dt, h.active⟩
    refine (turns_execute hbegun dt).bind ?_
    rintro ⟨answer, j⟩ ⟨_, j'⟩ ⟨rfl, hj⟩
    cases answer with
    | error stop => exact .pure ⟨rfl, hj⟩
    | ok result =>
      dsimp only
      split
      · have hended : V.Instances { j with active := false } { j' with active := false } :=
          ⟨hj.root, hj.context, rfl⟩
        refine (turns_report hended (.completed · result)).seq fun _ => ?_
        exact (turns_notify hended (.completed · result)).seq fun _ => .pure ⟨rfl, hended⟩
      · exact .pure ⟨rfl, hj⟩
  · rw [if_neg ha, if_neg (h.active ▸ ha)]
    exact .pure ⟨rfl, h⟩

theorem turns_restart (h : V.Instances i i') : V.Turns V.Instances i.restart i'.restart := by
  refine (turns_abortRoot h).bind fun j j' hj => ?_
  have hgoing : V.Instances { j with active := true } { j' with active := true } :=
    ⟨hj.root, hj.context, rfl⟩
  refine (turns_report hgoing .restarted).seq fun _ => ?_
  exact (turns_notify hgoing .restarted).seq fun _ => .pure hgoing

theorem turns_finish (h : V.Instances i i') : V.Turns V.Instances i.abort i'.abort := by
  rw [Instance.abort, Instance.abort, ← h.active]
  split
  · refine (turns_abortRoot h).bind fun j j' hj => ?_
    have hended : V.Instances { j with active := false } { j' with active := false } :=
      ⟨hj.root, hj.context, rfl⟩
    refine (turns_report hended .aborted).seq fun _ => ?_
    exact (turns_notify hended (.completed · .failure)).seq fun _ => .pure hended
  · exact .pure h

/-- The same deed, in which nothing decides that does not look the same. -/
inductive Deeds (V : Vantage H) : Deed H → Deed H → Prop
  | call {tree : Nat} {c : Call H} (h : ∀ choose, c ≠ .enter choose) :
    V.Deeds (.on tree c) (.on tree c)
  | enter {tree : Nat} {choose choose' : List Context → Context}
    (h : ∀ cs cs', List.Forall₂ V.Contexts cs cs' → V.Contexts (choose cs) (choose' cs')) :
    V.Deeds (.on tree (.enter choose)) (.on tree (.enter choose'))
  | outside {change : World H.State → World H.State}
    (h : ∀ w w', V.world w w' → V.world (change w) (change w')) :
    V.Deeds (.outside change) (.outside change)

inductive Chores (V : Vantage H) : Chore H → Chore H → Prop
  | deed {d d' : Deed H} (h : V.Deeds d d') : V.Chores (.deed d) (.deed d')
  | edit {tree : Nat} {path : List Nat} {change : Node H → Except Fault (Node H)} :
    V.Chores (.edit tree path change) (.edit tree path change)
  | renew {tree : Nat} : V.Chores (.renew tree) (.renew tree)
  | signal {s : SignalId} {on : Bool}
    (h : ∀ w w', V.world w w' → V.world (w.putSignal s on) (w'.putSignal s on)) :
    V.Chores (.signal s on) (.signal s on)

theorem turns_call {c : Call H} (hc : ∀ choose, c ≠ .enter choose) (cs cs' : List Context)
    (h : V.Instances i i') :
    V.Turns (fun a b => a.1 = b.1 ∧ V.Instances a.2 b.2) (c.act cs i) (c.act cs' i') := by
  cases c with
  | execute dt =>
    refine (turns_execute h dt).bind ?_
    rintro ⟨answer, j⟩ ⟨_, j'⟩ ⟨rfl, hj⟩
    exact .pure ⟨rfl, hj⟩
  | abort => exact (turns_abortRoot h).bind fun j j' hj => .pure ⟨rfl, hj⟩
  | beginTick dt => exact .pure ⟨rfl, h.root, h.context.beginTick dt, h.active⟩
  | tick dt =>
    refine (turns_tick h dt).bind ?_
    rintro ⟨answer, j⟩ ⟨_, j'⟩ ⟨rfl, hj⟩
    exact .pure ⟨rfl, hj⟩
  | restart => exact (turns_restart h).bind fun j j' hj => .pure ⟨rfl, hj⟩
  | finish => exact (turns_finish h).bind fun j j' hj => .pure ⟨rfl, hj⟩
  | enter choose => exact absurd rfl (hc choose)

theorem turns_modify {change : World H.State → World H.State}
    (h : ∀ w w', V.world w w' → V.world (change w) (change w')) :
    V.Turns Eq (Traced.modify fun r => { r with world := change r.world } : Turn H Unit)
      (Traced.modify fun r => { r with world := change r.world }) :=
  fun _ _ hr => ⟨rfl, ⟨h _ _ hr.1, hr.2⟩, rfl⟩

theorem turns_deed {d d' : Deed H} (hd : V.Deeds d d') (h : List.Forall₂ V.Instances g g') :
    V.Turns (fun a b => a.1 = b.1 ∧ List.Forall₂ V.Instances a.2 b.2) (d.act g) (d'.act g') := by
  cases hd with
  | @call tree c hc =>
    rw [Deed.act, Deed.act]
    obtain ⟨hi, hi'⟩ | ⟨i, i', hi, hi', htwin⟩ := forall₂_at h tree
    · rw [hi, hi']
      exact .pure ⟨rfl, h⟩
    · rw [hi, hi']
      refine (turns_call hc _ _ htwin).bind ?_
      rintro ⟨answers, j⟩ ⟨_, j'⟩ ⟨rfl, hj⟩
      exact .pure ⟨rfl, forall₂_set h tree hj⟩
  | @enter tree choose choose' hc =>
    have hcontexts : List.Forall₂ V.Contexts (g.map (·.context)) (g'.map (·.context)) := by
      rw [List.forall₂_map_left_iff, List.forall₂_map_right_iff]
      exact h.imp fun _ _ h => h.context
    rw [Deed.act, Deed.act]
    obtain ⟨hi, hi'⟩ | ⟨i, i', hi, hi', htwin⟩ := forall₂_at h tree
    · rw [hi, hi']
      exact .pure ⟨rfl, h⟩
    · rw [hi, hi']
      exact .pure ⟨rfl, forall₂_set h tree ⟨htwin.root, hc _ _ hcontexts, htwin.active⟩⟩
  | outside hc => exact (turns_modify hc).seq fun _ => .pure ⟨rfl, h⟩

theorem turns_act {c c' : Chore H} (hc : V.Chores c c') (h : List.Forall₂ V.Instances g g') :
    V.Turns (fun a b => a.1 = b.1 ∧ List.Forall₂ V.Instances a.2 b.2) (c.act g) (c'.act g') := by
  cases hc with
  | deed hd =>
    refine (turns_deed hd h).bind ?_
    rintro ⟨answers, g⟩ ⟨_, g'⟩ ⟨rfl, h⟩
    exact .pure ⟨rfl, h⟩
  | @edit tree path change =>
    rw [Chore.act, Chore.act]
    obtain ⟨hi, hi'⟩ | ⟨i, i', hi, hi', htwin⟩ := forall₂_at h tree
    · rw [hi, hi']
      exact .pure ⟨rfl, h⟩
    · rw [hi, hi']
      dsimp only
      rw [← htwin.root]
      cases i.root.at? path with
      | none => exact .pure ⟨rfl, h⟩
      | some n =>
        dsimp only
        cases change n with
        | error e => exact .pure ⟨rfl, h⟩
        | ok n => exact .pure ⟨rfl, forall₂_set h tree ⟨rfl, htwin.context, htwin.active⟩⟩
  | @renew tree =>
    rw [Chore.act, Chore.act]
    obtain ⟨hi, hi'⟩ | ⟨i, i', hi, hi', htwin⟩ := forall₂_at h tree
    · rw [hi, hi']
      exact .pure ⟨rfl, h⟩
    · rw [hi, hi']
      have hparts : V.Turns (fun a b => a.1 = b.1 ∧ V.Contexts a.2 b.2) i.intoParts i'.intoParts :=
        (turns_finish htwin).bind fun j j' hj => .pure ⟨hj.root, hj.context⟩
      refine hparts.bind ?_
      rintro ⟨root, context⟩ ⟨_, context'⟩ ⟨rfl, hcontext⟩
      exact .pure ⟨rfl, forall₂_set h tree ⟨rfl, hcontext, rfl⟩⟩
  | signal hc => exact (turns_modify hc).seq fun _ => .pure ⟨rfl, h⟩

theorem turns_toil {xs ys : List (Chore H)} (hc : List.Forall₂ V.Chores xs ys)
    (h : List.Forall₂ V.Instances g g') :
    V.Turns (fun a b => a.1 = b.1 ∧ List.Forall₂ V.Instances a.2 b.2) (toil xs g)
      (toil ys g') := by
  induction hc generalizing g g' with
  | nil => exact .pure ⟨rfl, h⟩
  | cons hc _ ih =>
    refine (turns_act hc h).bind ?_
    rintro ⟨outcomes, g⟩ ⟨_, g'⟩ ⟨rfl, h⟩
    refine (ih h).bind ?_
    rintro ⟨more, g⟩ ⟨_, g'⟩ ⟨rfl, h⟩
    exact .pure ⟨rfl, h⟩

end Vantage

def Entry.hush {ν : Type} : Entry ν → Entry ν
  | .notice _ n => .notice none n
  | e => e

def Context.hush (c : Context) : Context := { c with listener := none }

def Instance.hush (i : Instance H) : Instance H := { i with context := i.context.hush }

def World.mute {τ : Type} (w : World τ) : World τ := { w with signals := #[] }

/-- No callback looks at signals. -/
def Host.Deaf (H : Host) : Prop := H.Respects fun w w' => w.mute = w'.mute

namespace Chore

inductive Alike : Chore H → Chore H → Prop
  | same {c : Chore H} (h : ∀ tree choose, c ≠ .deed (.on tree (.enter choose))) : Alike c c
  | enter {tree : Nat} {choose choose' : List Context → Context}
    (h : ∀ cs cs', cs.map Context.hush = cs'.map Context.hush →
      (choose cs).hush = (choose' cs').hush) :
    Alike (.deed (.on tree (.enter choose))) (.deed (.on tree (.enter choose')))

def Deaf : Chore H → Prop
  | .deed (.outside change) => ∀ w w', w.mute = w'.mute → (change w).mute = (change w').mute
  | _ => True

end Chore

namespace Vantage
variable {c c' : Context} {g g' : List (Instance H)}

def hushed (H : Host) : Vantage H := ⟨fun e => some e.hush, Eq, H.respects_eq⟩

def muted (h : H.Deaf) : Vantage H := ⟨some, fun w w' => w.mute = w'.mute, h⟩

theorem contexts_hushed : (hushed H).Contexts c c' ↔ c.hush = c'.hush := by
  obtain ⟨⟨scope, l⟩, rng⟩ := c
  obtain ⟨⟨scope', l'⟩, rng'⟩ := c'
  constructor
  · rintro ⟨⟨hscope, -⟩, hrng⟩
    simp_all [Context.hush]
  · intro h
    simp only [Context.hush, Context.mk.injEq, Setting.mk.injEq, and_true] at h
    exact ⟨⟨h.1, fun _ => rfl⟩, h.2⟩

theorem instances_hushed :
    List.Forall₂ (hushed H).Instances g g' ↔ g.map Instance.hush = g'.map Instance.hush := by
  have heach (i i' : Instance H) : (hushed H).Instances i i' ↔ i.hush = i'.hush := by
    rw [Instance.hush, Instance.hush, Instance.mk.injEq, ← contexts_hushed (H := H)]
    exact ⟨fun h => ⟨h.root, h.context, h.active⟩, fun h => ⟨h.1, h.2.1, h.2.2⟩⟩
  rw [← List.forall₂_eq_eq_eq, List.forall₂_map_left_iff, List.forall₂_map_right_iff]
  exact ⟨fun h => h.imp fun i i' => (heach i i').mp, fun h => h.imp fun i i' => (heach i i').mpr⟩

theorem chores_hushed {x y : Chore H} (h : x.Alike y) : (hushed H).Chores x y := by
  cases h with
  | same h =>
    cases x with
    | deed d =>
      cases d with
      | on tree c => exact .deed (.call fun choose e => h tree choose (by rw [e]))
      | outside change => exact .deed (.outside fun w w' (hw : w = w') => congrArg change hw)
    | edit tree path change => exact .edit
    | renew tree => exact .renew
    | signal s on => exact .signal fun w w' (hw : w = w') => congrArg (World.putSignal · s on) hw
  | enter h =>
    refine .deed (.enter fun cs cs' hcs => contexts_hushed.mpr (h cs cs' ?_))
    rw [← List.forall₂_eq_eq_eq, List.forall₂_map_left_iff, List.forall₂_map_right_iff]
    exact hcs.imp fun _ _ h => contexts_hushed.mp h

variable (hdeaf : H.Deaf)

theorem contexts_muted : (muted hdeaf).Contexts c c' ↔ c = c' := by
  obtain ⟨⟨scope, l⟩, rng⟩ := c
  obtain ⟨⟨scope', l'⟩, rng'⟩ := c'
  constructor
  · rintro ⟨⟨hscope, hlistener⟩, hrng⟩
    have hnotice := hlistener (.aborted ⟨0, "", false, 0⟩)
    simp_all [muted]
  · intro h
    cases h
    exact ⟨⟨rfl, fun _ => rfl⟩, rfl⟩

theorem instances_muted : List.Forall₂ (muted hdeaf).Instances g g' ↔ g = g' := by
  have heach (i i' : Instance H) : (muted hdeaf).Instances i i' ↔ i = i' := by
    obtain ⟨root, context, active⟩ := i
    obtain ⟨root', context', active'⟩ := i'
    rw [Instance.mk.injEq, ← contexts_muted hdeaf]
    exact ⟨fun h => ⟨h.root, h.context, h.active⟩, fun h => ⟨h.1, h.2.1, h.2.2⟩⟩
  rw [← List.forall₂_eq_eq_eq]
  exact ⟨fun h => h.imp fun i i' => (heach i i').mp, fun h => h.imp fun i i' => (heach i i').mpr⟩

theorem chores_muted {x : Chore H} (h : x.Deaf) : (muted hdeaf).Chores x x := by
  match x with
  | .deed (.on tree (.enter choose)) =>
    refine .deed (.enter fun cs cs' hcs => (contexts_muted hdeaf).mpr (congrArg choose ?_))
    rw [← List.forall₂_eq_eq_eq]
    exact hcs.imp fun _ _ => (contexts_muted hdeaf).mp
  | .deed (.on tree (.execute _)) | .deed (.on tree .abort) | .deed (.on tree (.beginTick _))
  | .deed (.on tree (.tick _)) | .deed (.on tree .restart) | .deed (.on tree .finish) =>
    exact .deed (.call (by simp))
  | .deed (.outside change) => exact .deed (.outside h)
  | .edit tree path change => exact .edit
  | .renew tree => exact .renew
  | .signal s on => exact .signal fun w w' hw => hw

/-- Chores on signals may as well be left out. -/
theorem turns_filter (xs : List (Chore H)) (hxs : ∀ x ∈ xs, x.Deaf) (g : List (Instance H)) :
    (muted hdeaf).Turns Eq (toil xs g) (toil (xs.filter fun x => !x.isSignal) g) := by
  induction xs generalizing g with
  | nil => exact .pure rfl
  | cons x xs ih =>
    obtain ⟨hx, hrest⟩ := List.forall_mem_cons.mp hxs
    by_cases hsignal : x.isSignal = true
    · rw [List.filter_cons_of_neg (by simpa using hsignal)]
      cases x with
      | signal s on =>
        -- the signal is out of sight, so the rest starts from realms that look the same
        intro r r' hr
        have hlater := ih hrest g { r with world := r.world.putSignal s on } r' hr
        simpa [toil, Chore.act] using hlater
      | _ => cases hsignal
    · rw [List.filter_cons_of_pos (by simpa using hsignal)]
      have hact := turns_act (chores_muted hdeaf hx) ((instances_muted hdeaf).mpr (Eq.refl g))
      refine hact.bind ?_
      rintro ⟨outcomes, g⟩ ⟨_, g'⟩ ⟨rfl, h⟩
      obtain rfl : g = g' := (instances_muted hdeaf).mp h
      exact (ih hrest g).seq fun _ => .pure rfl

end Vantage

/-- Whoever listens, trees answer the same and become the same, and the same is told. If callbacks
do not look at signals, it is also all the same where among the chores signals go on and off. -/
theorem inert_of_toil :
    (∀ (xs ys : List (Chore H)) (g g' : List (Instance H)) (r : Realm H),
      List.Forall₂ Chore.Alike xs ys → g.map Instance.hush = g'.map Instance.hush →
      let o := toil xs g r
      let o' := toil ys g' r
      o.value.1 = o'.value.1 ∧ o.value.2.map Instance.hush = o'.value.2.map Instance.hush ∧
        o.state = o'.state ∧ o.trace.map Entry.hush = o'.trace.map Entry.hush) ∧
    (H.Deaf → ∀ (xs : List (Chore H)) (g : List (Instance H)) (r : Realm H),
      (∀ x ∈ xs, x.Deaf) →
      let o := toil xs g r
      let o' := toil (xs.filter fun x => !x.isSignal) g r
      o.value = o'.value ∧ o.state.world.mute = o'.state.world.mute ∧
        o.state.tables = o'.state.tables ∧ o.trace = o'.trace) := by
  constructor
  · intro xs ys g g' r hxs hg
    have hchores : List.Forall₂ (Vantage.hushed H).Chores xs ys :=
      hxs.imp fun _ _ h => Vantage.chores_hushed h
    obtain ⟨⟨hvalue, hgrove⟩, ⟨hworld, htables⟩, htrace⟩ :=
      Vantage.turns_toil hchores (Vantage.instances_hushed.mpr hg) r r ⟨rfl, rfl⟩
    refine ⟨hvalue, Vantage.instances_hushed.mp hgrove, ?_, ?_⟩
    · exact congrArg₂ Realm.mk hworld htables
    · simpa [Vantage.hushed] using htrace
  · intro hdeaf xs g r hxs
    obtain ⟨hvalue, ⟨hworld, htables⟩, htrace⟩ :=
      Vantage.turns_filter hdeaf xs hxs g r r ⟨rfl, rfl⟩
    exact ⟨hvalue, hworld, htables, by simpa [Vantage.muted] using htrace⟩

/-- Of two hosts one listens and the other does not, and one asks for cancellation on the way. -/
theorem inert_of_toil_echo :
    let root := Rooted.echo.root
    let quiet : Instance Host.echo := .ofRoot root ⟨Rooted.echo.setting, .ofSeed 0⟩
    let heard : Instance Host.echo :=
      .ofRoot root ⟨{ Rooted.echo.setting with listener := some .recording }, .ofSeed 0⟩
    let tick : Chore Host.echo := .deed (.on 0 (.tick 1))
    let chores := [tick, .signal ⟨0⟩ true, tick]
    let r := Rooted.still.toRealm
    [quiet].map Instance.hush = [heard].map Instance.hush ∧ Host.echo.Deaf ∧
      (toil chores [heard] r).value.1 = (toil chores [quiet] r).value.1 ∧
      (toil chores [quiet] r).value = (toil [tick, tick] [quiet] r).value := by
  intro root quiet heard tick chores r
  have hdeaf : Host.echo.Deaf :=
    ⟨fun _ _ => .pure rfl, fun _ _ _ => .pure rfl, fun _ _ _ => .pure rfl, fun _ _ => .pure rfl,
      fun _ _ _ => .pure rfl, nofun, fun _ _ _ _ => .pure rfl, fun _ _ _ => .pure rfl,
      fun _ _ _ => .pure rfl, fun _ _ _ _ => .pure rfl, fun _ _ _ => .pure rfl⟩
  have hlisteners := inert_of_toil.1 chores chores [heard] [quiet] r
    (List.forall₂_same.mpr fun x hx => .same (by
      rintro tree choose rfl
      simp [chores, tick] at hx)) rfl
  have hsignals := inert_of_toil.2 hdeaf chores [quiet] r (by simp [chores, tick, Chore.Deaf])
  exact ⟨rfl, hdeaf, hlisteners.1, hsignals.1⟩

end TickTree
