import TickTree.Proofs.Groves
import TickTree.Proofs.Simulation
/-! Groves whose trees are in lockstep cannot be told apart. -/
namespace TickTree
variable {H : Host} {α β : Type}

abbrev Turn.Sim (T : Tables → Tables → Prop) (R : α → β → Prop) (x : Turn H α) (y : Turn H β) :
    Prop := Traced.Sim (Realm.Match T) R x y

namespace Turn
variable {T : Tables → Tables → Prop} {R : α → β → Prop}

theorem sim_emit (e : Entry H.Note) : Sim T Eq (Traced.emit e : Turn H Unit) (Traced.emit e) :=
  fun _ _ h => ⟨rfl, h, rfl⟩

theorem sim_within (c : Context) {x : Setting → Exec H α} {y : Setting → Exec H β}
    (h : Exec.Sim T R (x c.toSetting) (y c.toSetting)) :
    Sim T (fun a b => R a.1 b.1 ∧ a.2 = b.2) (within c x) (within c y) := by
  intro r r' hr
  obtain ⟨hvalue, ⟨hrealm, hrng⟩, htrace⟩ := h ⟨r, c.rng⟩ ⟨r', c.rng⟩ ⟨hr, rfl⟩
  exact ⟨⟨hvalue, by simp [within, hrng]⟩, hrealm, htrace⟩

end Turn

structure Instance.Twin (N : Node H → Node H → Prop) (i i' : Instance H) : Prop where
  root : N i.root i'.root
  context : i.context = i'.context
  active : i.active = i'.active

namespace Lockstep
variable {T : Tables → Tables → Prop} {F : Frame H → Frame H → Prop} {N : Node H → Node H → Prop}
  {i i' : Instance H} {g g' : List (Instance H)}

open Turn (Sim)

theorem activity_eq (L : Lockstep T F N) {n m : Node H} (h : N n m) : n.activity = m.activity := by
  refine L.induct (motive := fun n m => n.activity = m.activity) (fun f g cs ds hf hcs => ?_) h
  rw [Node.activity_mk, Node.activity_mk, L.active_eq hf]
  congr 1
  induction hcs with
  | nil => rfl
  | cons hc _ ih => rw [List.flatMap_cons, List.flatMap_cons, hc.2, ih]

theorem name_eq (L : Lockstep T F N) {n m : Node H} (h : N n m) : n.name = m.name :=
  congrArg View.name (L.view_eq h)

theorem treeView_eq (L : Lockstep T F N) (h : i.Twin N i') : i.view = i'.view := by
  rw [Instance.view, Instance.view, L.name_eq h.root, h.active, h.context, L.activity_eq h.root]

theorem onRoot (h : i.Twin N i') {x y : Setting → Node H → Exec H (α × Node H)}
    (hxy : ∀ s n m, N n m → Exec.Sim T (fun a b => a.1 = b.1 ∧ N a.2 b.2) (x s n) (y s m)) :
    Sim T (fun a b => a.1 = b.1 ∧ a.2.Twin N b.2) (i.onRoot x) (i'.onRoot y) := by
  rw [Instance.onRoot, Instance.onRoot, ← h.context]
  refine (Turn.sim_within i.context (hxy _ _ _ h.root)).bind ?_
  rintro ⟨⟨a, n⟩, context⟩ ⟨⟨_, m⟩, _⟩ ⟨⟨rfl, hn⟩, rfl⟩
  exact .pure ⟨rfl, hn, rfl, h.active⟩

theorem onExecute (L : Lockstep T F N) (h : i.Twin N i') (dt : Float32) :
    Sim T (fun a b => a.1 = b.1 ∧ a.2.Twin N b.2) (i.onRoot fun s n => n.execute s dt)
      (i'.onRoot fun s n => n.execute s dt) := onRoot h fun _ _ _ hn => L.execute hn

theorem abortRoot (L : Lockstep T F N) (h : i.Twin N i') :
    Sim T (Instance.Twin N) i.abortRoot i'.abortRoot := by
  have habort : Sim T (fun a b => a.1 = b.1 ∧ a.2.Twin N b.2)
      (i.onRoot fun s n => do
        let n ← n.abort s
        pure ((), n))
      (i'.onRoot fun s n => do
        let n ← n.abort s
        pure ((), n)) :=
    onRoot h fun _ _ _ hn => (L.abort hn).bind fun _ _ hn => .pure ⟨rfl, hn⟩
  exact habort.bind fun a b hab => .pure hab.2

theorem report (L : Lockstep T F N) (h : i.Twin N i') (r : String → Report) :
    Sim T Eq (Turn.report (r i.root.name) : Turn H Unit) (Turn.report (r i'.root.name)) := by
  rw [L.name_eq h.root]
  exact Turn.sim_emit _

theorem notify (L : Lockstep T F N) (h : i.Twin N i') (n : TreeView → Notice) :
    Sim T Eq (Turn.notify i.context.toSetting (n i.view) : Turn H Unit)
      (Turn.notify i'.context.toSetting (n i'.view)) := by
  rw [h.context, L.treeView_eq h]
  exact Turn.sim_emit _

theorem tick (L : Lockstep T F N) (h : i.Twin N i') (dt : Float32) :
    Sim T (fun a b => a.1 = b.1 ∧ a.2.Twin N b.2) (i.tick dt) (i'.tick dt) := by
  rw [Instance.tick, Instance.tick]
  by_cases ha : i.active = true
  · rw [if_pos ha, if_pos (h.active ▸ ha)]
    have hbegun : Instance.Twin N { i with context := i.context.beginTick dt }
        { i' with context := i'.context.beginTick dt } := ⟨h.root, by rw [h.context], h.active⟩
    refine (L.onExecute hbegun dt).bind ?_
    rintro ⟨answer, j⟩ ⟨_, j'⟩ ⟨rfl, hj⟩
    cases answer with
    | error stop => exact .pure ⟨rfl, hj⟩
    | ok result =>
      dsimp only
      split
      · have hended : Instance.Twin N { j with active := false } { j' with active := false } :=
          ⟨hj.root, hj.context, rfl⟩
        refine (L.report hended (.completed · result)).seq fun _ => ?_
        exact (L.notify hended (.completed · result)).seq fun _ => .pure ⟨rfl, hended⟩
      · exact .pure ⟨rfl, hj⟩
  · rw [if_neg ha, if_neg (h.active ▸ ha)]
    exact .pure ⟨rfl, h⟩

theorem restart (L : Lockstep T F N) (h : i.Twin N i') :
    Sim T (Instance.Twin N) i.restart i'.restart := by
  refine (L.abortRoot h).bind fun j j' hj => ?_
  have hgoing : Instance.Twin N { j with active := true } { j' with active := true } :=
    ⟨hj.root, hj.context, rfl⟩
  refine (L.report hgoing .restarted).seq fun _ => ?_
  exact (L.notify hgoing .restarted).seq fun _ => .pure hgoing

theorem finish (L : Lockstep T F N) (h : i.Twin N i') :
    Sim T (Instance.Twin N) i.abort i'.abort := by
  rw [Instance.abort, Instance.abort]
  by_cases ha : i.active = true
  · rw [if_pos ha, if_pos (h.active ▸ ha)]
    refine (L.abortRoot h).bind fun j j' hj => ?_
    have hended : Instance.Twin N { j with active := false } { j' with active := false } :=
      ⟨hj.root, hj.context, rfl⟩
    refine (L.report hended .aborted).seq fun _ => ?_
    exact (L.notify hended (.completed · .failure)).seq fun _ => .pure hended
  · rw [if_neg ha, if_neg (h.active ▸ ha)]
    exact .pure h

theorem call (L : Lockstep T F N) (contexts : List Context) (c : Call H) (h : i.Twin N i') :
    Sim T (fun a b => a.1 = b.1 ∧ a.2.Twin N b.2) (c.act contexts i) (c.act contexts i') := by
  cases c with
  | execute dt =>
    refine (L.onExecute h dt).bind ?_
    rintro ⟨answer, j⟩ ⟨_, j'⟩ ⟨rfl, hj⟩
    exact .pure ⟨rfl, hj⟩
  | abort => exact (L.abortRoot h).bind fun j j' hj => .pure ⟨rfl, hj⟩
  | beginTick dt => exact .pure ⟨rfl, h.root, by rw [h.context], h.active⟩
  | tick dt =>
    refine (L.tick h dt).bind ?_
    rintro ⟨answer, j⟩ ⟨_, j'⟩ ⟨rfl, hj⟩
    exact .pure ⟨rfl, hj⟩
  | restart => exact (L.restart h).bind fun j j' hj => .pure ⟨rfl, hj⟩
  | finish => exact (L.finish h).bind fun j j' hj => .pure ⟨rfl, hj⟩
  | enter choose => exact .pure ⟨rfl, h.root, rfl, h.active⟩

theorem deed (L : Lockstep T F N) (d : Deed H) (h : List.Forall₂ (Instance.Twin N) g g') :
    Sim T (fun a b => a.1 = b.1 ∧ List.Forall₂ (Instance.Twin N) a.2 b.2) (d.act g) (d.act g') := by
  cases d with
  | on tree c =>
    have hcontexts : g.map (·.context) = g'.map (·.context) := by
      induction h with
      | nil => rfl
      | cons h _ ih => rw [List.map_cons, List.map_cons, h.context, ih]
    rw [Deed.act, Deed.act, hcontexts]
    obtain ⟨hi, hi'⟩ | ⟨i, i', hi, hi', htwin⟩ := forall₂_at h tree
    · rw [hi, hi']
      exact .pure ⟨rfl, h⟩
    · rw [hi, hi']
      refine (L.call _ c htwin).bind ?_
      rintro ⟨answers, j⟩ ⟨_, j'⟩ ⟨rfl, hj⟩
      exact .pure ⟨rfl, forall₂_set h tree hj⟩
  | outside change =>
    have hchange : Sim T Eq
        (Traced.modify fun r => { r with world := change r.world } : Turn H Unit)
        (Traced.modify fun r => { r with world := change r.world }) := fun r r' hr =>
      ⟨rfl, ⟨congrArg change hr.1, hr.2⟩, rfl⟩
    exact hchange.seq fun _ => .pure ⟨rfl, h⟩

theorem tend (L : Lockstep T F N) (ds : List (Deed H))
    (h : List.Forall₂ (Instance.Twin N) g g') :
    Sim T (fun a b => a.1 = b.1 ∧ List.Forall₂ (Instance.Twin N) a.2 b.2)
      (TickTree.tend ds g) (TickTree.tend ds g') := by
  induction ds generalizing g g' with
  | nil => exact .pure ⟨rfl, h⟩
  | cons d ds ih =>
    refine (L.deed d h).bind ?_
    rintro ⟨answers, g⟩ ⟨_, g'⟩ ⟨rfl, h⟩
    refine (ih h).bind ?_
    rintro ⟨more, g⟩ ⟨_, g'⟩ ⟨rfl, h⟩
    exact .pure ⟨rfl, h⟩

end Lockstep
end TickTree
