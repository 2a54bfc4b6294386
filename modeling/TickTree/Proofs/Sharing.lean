import Mathlib.Data.Nat.Pairing
import TickTree.Proofs.Cooldowns
import TickTree.Proofs.Twins
/-! Sharing decorators. What a decorator remembers of one node has nothing to do with any other
node, so that trees whose nodes share decorators run like trees whose nodes have copies of their
own. -/
namespace TickTree
variable {H : Host}

namespace Decorator

def withKey (i : DecoratorId) : Decorator H → Decorator H
  | cooldown c => cooldown { c with id := i }
  | timeout o => timeout { o with id := i }
  | inverter => inverter
  | custom d => custom d

/-- A copy of each decorator from `slot` on, with a key of its own. -/
def unshare (key : Nat → DecoratorId) (slot : Nat) : List (Decorator H) → List (Decorator H)
  | [] => []
  | d :: ds => d.withKey (key slot) :: unshare key (slot + 1) ds

def remembers (t : Tables) (k : NodeId) : Decorator H → Option Float32
  | cooldown c => c.nextAvailable t k
  | timeout o => o.elapsed t k
  | inverter | custom _ => none

theorem remembers_eq (t : Tables) (k : NodeId) (d : Decorator H) :
    d.remembers t k = d.id?.bind (t.row k) := by
  cases d <;> rfl

theorem id?_withKey (i : DecoratorId) (d : Decorator H) :
    (d.withKey i).id? = d.id?.map fun _ => i := by
  cases d <;> rfl

theorem getElem?_unshare (key : Nat → DecoratorId) (slot : Nat) (ds : List (Decorator H))
    (j : Nat) : (unshare key slot ds)[j]? = ds[j]?.map (·.withKey (key (slot + j))) := by
  induction ds generalizing slot j with
  | nil => rfl
  | cons d ds ih =>
    cases j with
    | zero => rfl
    | succ j =>
      have hslot : slot + 1 + j = slot + (j + 1) := by omega
      simpa [unshare, hslot] using ih (slot + 1) j

end Decorator

def Frame.unshare (key : NodeId → Nat → DecoratorId) (f : Frame H) : Frame H :=
  { f with decorators := Decorator.unshare (key f.id) 0 f.decorators }

def Frame.memory (t : Tables) (f : Frame H) : List (Option Float32) :=
  f.decorators.map (·.remembers t f.id)

def Node.unshare (key : NodeId → Nat → DecoratorId) (n : Node H) : Node H :=
  n.mapFrames (Frame.unshare key)

def Instance.unshare (key : NodeId → Nat → DecoratorId) (i : Instance H) : Instance H :=
  { i with root := i.root.unshare key }

variable {key : NodeId → Nat → DecoratorId} {D : NodeId → List (Decorator H)} {t t' : Tables}

/-- The decorators on a node have different keys, and so have their copies. -/
structure Keyed (key : NodeId → Nat → DecoratorId) (D : NodeId → List (Decorator H)) : Prop where
  own : ∀ k, Function.Injective (key k)
  once : ∀ k, ((D k).filterMap Decorator.id?).Nodup

/-- Of each node, the copies remember what the decorators do. -/
def Mirrors (key : NodeId → Nat → DecoratorId) (D : NodeId → List (Decorator H))
    (t t' : Tables) : Prop :=
  ∀ k j d i, (D k)[j]? = some d → d.id? = some i → t'.row k (key k j) = t.row k i

def Tables.Puts (t : Tables) (i : DecoratorId) (n : NodeId) (x : Option Float32) (t₁ : Tables) :
    Prop := ∀ k, t₁.row k = if k = n then Function.update (t.row k) i x else t.row k

theorem puts_insert (t : Tables) (i : DecoratorId) (n : NodeId) (x : Float32) :
    t.Puts i n (some x) (t.insert i n x) := t.row_insert i n x

theorem puts_erase (t : Tables) (i : DecoratorId) (n : NodeId) :
    t.Puts i n none (t.erase i n) := t.row_erase i n

theorem puts_modify (o : Timeout) (n : NodeId) (dt : Float32) (r : Status) (t : Tables) :
    t.Puts o.id n (o.count dt r (t.row n o.id)).2 (o.modify n dt r t).2 := by
  intro k
  rw [(o.modify_eq n dt r t).2 k]
  by_cases hk : k = n
  · rw [hk]
  · rw [if_neg hk, if_neg hk]

/-- No other decorator on the node has this key. -/
theorem slot_eq {ds : List (Decorator H)} (h : (ds.filterMap Decorator.id?).Nodup) {j j' : Nat}
    {d d' : Decorator H} {i : DecoratorId} (hj : ds[j]? = some d) (hj' : ds[j']? = some d')
    (hi : d.id? = some i) (hi' : d'.id? = some i) : j = j' := by
  induction ds generalizing j j' with
  | nil => simp at hj
  | cons e ds ih =>
    have hrest : (ds.filterMap Decorator.id?).Nodup :=
      h.sublist ((List.sublist_cons_self e ds).filterMap _)
    have hfirst {m : Nat} {d' : Decorator H} (he : e.id? = some i) (hm : ds[m]? = some d')
        (hd' : d'.id? = some i) : False := by
      rw [List.filterMap_cons_some he] at h
      exact (List.nodup_cons.mp h).1 (List.mem_filterMap.mpr ⟨d', List.mem_of_getElem? hm, hd'⟩)
    cases j with
    | zero =>
      obtain rfl : e = d := by simpa using hj
      cases j' with
      | zero => rfl
      | succ j' => exact (hfirst hi (by simpa using hj') hi').elim
    | succ j =>
      cases j' with
      | zero =>
        obtain rfl : e = d' := by simpa using hj'
        exact (hfirst hi' (by simpa using hj) hi).elim
      | succ j' => exact congrArg Nat.succ (ih hrest (by simpa using hj) (by simpa using hj'))

theorem Mirrors.puts (hk : Keyed key D) (h : Mirrors key D t t') {n : NodeId} {j : Nat}
    {d : Decorator H} {i : DecoratorId} (hd : (D n)[j]? = some d) (hi : d.id? = some i)
    {x : Option Float32} {t₁ t₁' : Tables} (ht : t.Puts i n x t₁)
    (ht' : t'.Puts (key n j) n x t₁') : Mirrors key D t₁ t₁' := by
  intro k j' d' i' hd' hi'
  rw [ht k, ht' k]
  by_cases hkn : k = n
  · subst hkn
    rw [if_pos rfl, if_pos rfl]
    -- the copies of other slots have other keys, and so have the decorators that they copy
    by_cases hj : j' = j
    · subst hj
      obtain rfl : d' = d := Option.some.inj (hd'.symm.trans hd)
      obtain rfl : i' = i := Option.some.inj (hi'.symm.trans hi)
      rw [Function.update_self, Function.update_self]
    · have hkeys : key k j' ≠ key k j := fun e => hj (hk.own k e)
      have hids : i' ≠ i := fun e => hj (slot_eq (hk.once k) hd' hd hi' (e ▸ hi))
      rw [Function.update_of_ne hkeys, Function.update_of_ne hids]
      exact h k j' d' i' hd' hi'
  · rw [if_neg hkn, if_neg hkn]
    exact h k j' d' i' hd' hi'

open Exec (Sim)

theorem Exec.sim_modifyTables {T : Tables → Tables → Prop} {p q : Tables → Tables}
    (h : ∀ t t', T t t' → T (p t) (q t')) :
    Sim T Eq (modifyTables p : Exec H Unit) (modifyTables q) := fun _ _ hs =>
  ⟨rfl, ⟨⟨hs.1.1, h _ _ hs.1.2⟩, hs.2⟩, rfl⟩

namespace Decorator
variable {s : Setting} {v : View} {d : Decorator H} {j : Nat}

theorem sim_allows (h : (D v.id)[j]? = some d) :
    Sim (Mirrors key D) Eq (d.allows s v) ((d.withKey (key v.id j)).allows s v) := by
  cases d with
  | cooldown c =>
    intro st st' hst
    have hrow := hst.1.2 v.id j _ c.id h rfl
    refine ⟨?_, hst, rfl⟩
    change c.allows st.tables v.id s.scope.elapsed =
      Cooldown.allows { c with id := key v.id j } st'.tables v.id s.scope.elapsed
    rw [Cooldown.allows_eq, Cooldown.allows_eq, hrow]
  | timeout o => exact .pure rfl
  | inverter => exact .pure rfl
  | custom d => exact Exec.blind_look _ _

theorem sim_modifier (hk : Keyed key D) {dt : Float32} {r : Status} (h : (D v.id)[j]? = some d) :
    Option.Rel (Sim (Mirrors key D) Eq) (d.modifier s v dt r)
      ((d.withKey (key v.id j)).modifier s v dt r) := by
  cases d with
  | cooldown c => exact .none
  | timeout o =>
    refine .some fun st st' hst => ?_
    have hrow := hst.1.2 v.id j _ o.id h rfl
    have hseen : (Timeout.modify { o with id := key v.id j } v.id dt r st'.tables).1 =
        (o.modify v.id dt r st.tables).1 := by
      rw [(Timeout.modify_eq _ v.id dt r _).1, (Timeout.modify_eq o v.id dt r _).1, hrow]
      rfl
    have hputs := puts_modify { o with id := key v.id j } v.id dt r st'.tables
    rw [hrow] at hputs
    have hmirrors := hst.1.2.puts hk h rfl (puts_modify o v.id dt r st.tables) hputs
    exact ⟨hseen.symm, ⟨⟨hst.1.1, hmirrors⟩, hst.2⟩, rfl⟩
  | inverter => exact .some (.pure rfl)
  | custom d =>
    simp only [modifier, withKey]
    cases H.modifier d with
    | none => exact .none
    | some g => exact .some (Exec.blind_look _ _)

theorem sim_finished (hk : Keyed key D) {r : Status} (h : (D v.id)[j]? = some d) :
    Sim (Mirrors key D) Eq (d.finished s v r) ((d.withKey (key v.id j)).finished s v r) := by
  cases d with
  | cooldown c =>
    simp only [finished, withKey]
    split
    · exact Exec.sim_modifyTables fun t t' ht =>
        ht.puts hk h rfl (puts_insert t c.id v.id _) (puts_insert t' (key v.id j) v.id _)
    · exact .pure rfl
  | timeout o =>
    exact Exec.sim_modifyTables fun t t' ht =>
      ht.puts hk h rfl (puts_erase t o.id v.id) (puts_erase t' (key v.id j) v.id)
  | inverter => exact .pure rfl
  | custom d => exact Exec.blind_look _ _

theorem sim_aborted (hk : Keyed key D) (h : (D v.id)[j]? = some d) :
    Sim (Mirrors key D) Eq (d.aborted s v) ((d.withKey (key v.id j)).aborted s v) := by
  cases d with
  | cooldown c =>
    exact Exec.sim_modifyTables fun t t' ht =>
      ht.puts hk h rfl (puts_insert t c.id v.id _) (puts_insert t' (key v.id j) v.id _)
  | timeout o =>
    exact Exec.sim_modifyTables fun t t' ht =>
      ht.puts hk h rfl (puts_erase t o.id v.id) (puts_erase t' (key v.id j) v.id)
  | inverter => exact .pure rfl
  | custom d => exact Exec.blind_look _ _

end Decorator

namespace Frame
variable {s : Setting} {v : View} {slot : Nat} {ds : List (Decorator H)}

theorem sim_guards (h : (D v.id).drop slot = ds) :
    Sim (Mirrors key D) Eq (guards s v slot ds)
      (guards s v slot (Decorator.unshare (key v.id) slot ds)) := by
  induction ds generalizing slot with
  | nil => exact .pure rfl
  | cons d ds ih =>
    obtain ⟨hd, hds⟩ := getElem?_of_drop_eq h
    refine (Decorator.sim_allows hd).seq fun passed => (Exec.blind_hook _ _ _).seq fun _ => ?_
    cases passed with
    | true => exact ih hds
    | false => exact .pure rfl

theorem sim_modify (hk : Keyed key D) {dt : Float32} {r : Status} (h : (D v.id).drop slot = ds) :
    Sim (Mirrors key D) Eq (modify s v dt slot ds r)
      (modify s v dt slot (Decorator.unshare (key v.id) slot ds) r) := by
  induction ds generalizing slot r with
  | nil => exact .pure rfl
  | cons d ds ih =>
    obtain ⟨hd, hds⟩ := getElem?_of_drop_eq h
    have hstep : Option.Rel (Sim (Mirrors key D) Eq) (d.modifier s v dt r)
        ((d.withKey (key v.id slot)).modifier s v dt r) := Decorator.sim_modifier hk hd
    rw [modify, Decorator.unshare, modify]
    generalize d.modifier s v dt r = x at hstep
    generalize (d.withKey (key v.id slot)).modifier s v dt r = y at hstep
    cases hstep with
    | none => exact ih hds
    | some hxy => exact hxy.seq fun after => (Exec.blind_hook _ _ _).seq fun _ => ih hds

theorem sim_tellFinished (hk : Keyed key D) {r : Status} (h : (D v.id).drop slot = ds) :
    Sim (Mirrors key D) Eq (tellFinished s v r slot ds)
      (tellFinished s v r slot (Decorator.unshare (key v.id) slot ds)) := by
  induction ds generalizing slot with
  | nil => exact .pure rfl
  | cons d ds ih =>
    obtain ⟨hd, hds⟩ := getElem?_of_drop_eq h
    exact (Exec.blind_hook _ _ _).seq fun _ => (Decorator.sim_finished hk hd).seq fun _ => ih hds

theorem sim_tellAborted (hk : Keyed key D) (h : (D v.id).drop slot = ds) :
    Sim (Mirrors key D) Eq (tellAborted s v slot ds)
      (tellAborted s v slot (Decorator.unshare (key v.id) slot ds)) := by
  induction ds generalizing slot with
  | nil => exact .pure rfl
  | cons d ds ih =>
    obtain ⟨hd, hds⟩ := getElem?_of_drop_eq h
    exact (Exec.blind_hook _ _ _).seq fun _ => (Decorator.sim_aborted hk hd).seq fun _ => ih hds

theorem interchangeable_unshare (hk : Keyed key D) {f : Frame H} (h : f.Wears D) :
    Interchangeable (Mirrors key D) f.id f.decorators (f.unshare key).decorators := by
  have hdrop {v : View} (hv : v.id = f.id) : (D v.id).drop 0 = f.decorators := by
    rw [hv]
    exact h
  have hcopy {v : View} (hv : v.id = f.id) :
      (f.unshare key).decorators = Decorator.unshare (key v.id) 0 f.decorators := by
    rw [hv]
    rfl
  constructor
  · intro s v hv
    rw [hcopy hv]
    exact sim_guards (hdrop hv)
  · intro s v dt r hv
    rw [hcopy hv]
    exact sim_modify hk (hdrop hv)
  · intro s v r hv
    rw [hcopy hv]
    exact sim_tellFinished hk (hdrop hv)
  · intro s v hv
    rw [hcopy hv]
    exact sim_tellAborted hk (hdrop hv)

theorem sim_activate (s : Setting) (n : Nat) {f : Frame H} (h : f.Wears D) :
    Sim (Mirrors key D) (fun x y => x.1 = y.1 ∧ x.2.Wears D ∧ x.2.unshare key = y.2)
      (f.activate s n) ((f.unshare key).activate s n) := by
  rw [activate, activate]
  by_cases hf : f.active = true
  · rw [if_pos hf, if_pos (show (f.unshare key).active = true from hf)]
    exact .pure ⟨rfl, h, rfl⟩
  · rw [if_neg hf, if_neg (show ¬(f.unshare key).active = true from hf)]
    refine (Exec.blind_notify _ _ _).seq fun _ => (Exec.blind_hook _ _ _).seq fun _ => ?_
    refine (f.behavior.blind_start _ _ _ _).seq ?_
    rintro ⟨started, b⟩
    cases started with
    | error p => exact .pure ⟨rfl, h, rfl⟩
    | ok u => exact (blind_attach _ _ _ _ _).seq fun _ => .pure ⟨rfl, h, rfl⟩

end Frame

namespace Node

theorem unshare_mk (f : Frame H) (cs : List (Node H)) :
    (mk f cs).unshare key = mk (f.unshare key) (cs.map (unshare key)) :=
  mapFrames_mk (Frame.unshare key) f cs

theorem unshare_lockstep (hk : Keyed key D) :
    Lockstep (Mirrors key D) (fun f g : Frame H => f.Wears D ∧ f.unshare key = g)
      (fun n m => n.Wears D ∧ n.unshare key = m) where
  node {f g cs ds} := by
    have hcs : List.Forall₂ (fun n m : Node H => n.Wears D ∧ n.unshare key = m) cs ds ↔
        (∀ c ∈ cs, c.Wears D) ∧ cs.map (unshare key) = ds := by
      rw [List.forall₂_and_left, ← List.forall₂_eq_eq_eq, List.forall₂_map_left_iff]
    rw [wears_mk, unshare_mk, mk.injEq, hcs]
    tauto
  view h := by rw [← h.2]; rfl
  decorators h := by
    rw [← h.2]
    exact Frame.interchangeable_unshare hk h.1
  active h _ := by rw [← h.2]; rfl
  change h _ as b a t := ⟨h.1, by rw [← h.2]; rfl⟩
  activate s n h := by
    rw [← h.2]
    exact Frame.sim_activate s n h.1

end Node

theorem Frame.memory_unshare {f : Frame H} :
    (f.unshare key).memory t' = f.memory t ↔
      ∀ j d i, f.decorators[j]? = some d → d.id? = some i →
        t'.row f.id (key f.id j) = t.row f.id i := by
  have hslot (j : Nat) : ((f.unshare key).memory t')[j]? =
      f.decorators[j]?.map fun d => (d.withKey (key f.id j)).remembers t' f.id := by
    rw [memory, unshare, List.getElem?_map, Decorator.getElem?_unshare, Option.map_map,
      Nat.zero_add]
    rfl
  rw [List.ext_getElem?_iff]
  refine forall_congr' fun j => ?_
  rw [hslot, memory, List.getElem?_map]
  cases f.decorators[j]? with
  | none => simp
  | some d =>
    have hremembers : (d.withKey (key f.id j)).remembers t' f.id =
        d.id?.bind fun _ => t'.row f.id (key f.id j) := by
      rw [Decorator.remembers_eq, Decorator.id?_withKey, Option.bind_map]
      rfl
    rw [Option.map_some, Option.map_some, Option.some.injEq, hremembers, Decorator.remembers_eq]
    constructor
    · rintro h _ i ⟨⟩ hi
      simpa [hi] using h
    · intro h
      cases hd : d.id? with
      | none => rfl
      | some i => exact h d i rfl hd

theorem mirrors_attire {fs : List (Frame H)}
    (h : ∀ f ∈ fs, (f.unshare key).memory t' = f.memory t) :
    Mirrors key (Frame.attire fs) t t' := by
  intro k j d i hd hi
  obtain hnone | ⟨f, hf, rfl, hattire⟩ := Frame.attire_cases fs k
  · simp [hnone] at hd
  · rw [hattire] at hd
    exact Frame.memory_unshare.mp (h f hf) j d i hd hi

theorem keyed_attire (own : ∀ k, Function.Injective (key k)) {fs : List (Frame H)}
    (once : ∀ f ∈ fs, (f.decorators.filterMap Decorator.id?).Nodup) :
    Keyed key (Frame.attire fs) := by
  refine ⟨own, fun k => ?_⟩
  obtain hnone | ⟨f, hf, -, hattire⟩ := Frame.attire_cases fs k
  · rw [hnone]
    exact List.nodup_nil
  · rw [hattire]
    exact once f hf

theorem Instance.twins_unshare {g g' : List (Instance H)}
    (h : List.Forall₂ (Twin fun n m : Node H => n.Wears D ∧ n.unshare key = m) g g') :
    g.map (·.unshare key) = g' ∧ ∀ i ∈ g, i.root.Wears D := by
  induction h with
  | nil => simp
  | @cons i i' g g' h _ ih =>
    obtain ⟨hmap, hwears⟩ := ih
    have hi : i.unshare key = i' := by
      obtain ⟨root, context, active⟩ := i
      obtain ⟨root', context', active'⟩ := i'
      obtain ⟨⟨-, rfl⟩, rfl, rfl⟩ := h
      rfl
    exact ⟨by rw [List.map_cons, hi, hmap], List.forall_mem_cons.mpr ⟨h.root.1, hwears⟩⟩

/-- Sharing is not to be seen. Each node of the grove gets decorators of its own, one for each that
is attached to it, and then the same deeds give the same answers, trace and world, the same trees up
to the keys of their decorators, and the same memory of every node. -/
theorem unshare_of_tend (key : NodeId → Nat → DecoratorId)
    (own : ∀ k, Function.Injective (key k)) (ds : List (Deed H)) (g : List (Instance H))
    (distinct : (g.flatMap (·.root.ids)).Nodup)
    (once : ∀ i ∈ g, ∀ f ∈ i.root.frames, (f.decorators.filterMap Decorator.id?).Nodup)
    (r : Realm H) (t' : Tables)
    (same : ∀ i ∈ g, ∀ f ∈ i.root.frames, (f.unshare key).memory t' = f.memory r.tables) :
    let o := tend ds g r
    let o' := tend ds (g.map (·.unshare key)) { r with tables := t' }
    o'.value = (o.value.1, o.value.2.map (·.unshare key)) ∧ o'.trace = o.trace ∧
      o'.state.world = o.state.world ∧
      ∀ i ∈ o.value.2, ∀ f ∈ i.root.frames,
        (f.unshare key).memory o'.state.tables = f.memory o.state.tables := by
  intro o o'
  let fs := g.flatMap (·.root.frames)
  have hmem {i : Instance H} (hi : i ∈ g) {f : Frame H} (hf : f ∈ i.root.frames) : f ∈ fs :=
    List.mem_flatMap.mpr ⟨i, hi, hf⟩
  have hids : (fs.map (·.id)).Nodup := by
    rw [List.map_flatMap]
    exact distinct
  have hforall {p : Frame H → Prop} (h : ∀ i ∈ g, ∀ f ∈ i.root.frames, p f) : ∀ f ∈ fs, p f := by
    intro f hf
    obtain ⟨i, hi, hf⟩ := List.mem_flatMap.mp hf
    exact h i hi f hf
  have hkeyed : Keyed key (Frame.attire fs) := keyed_attire own (hforall once)
  have hmirrors : Mirrors key (Frame.attire fs) r.tables t' := mirrors_attire (hforall same)
  have htwins : List.Forall₂ (Instance.Twin fun n m : Node H =>
      n.Wears (Frame.attire fs) ∧ n.unshare key = m) g (g.map (·.unshare key)) := by
    rw [List.forall₂_map_right_iff, List.forall₂_same]
    exact fun i hi => ⟨⟨fun f hf => Frame.wears_attire hids f (hmem hi hf), rfl⟩, rfl, rfl⟩
  obtain ⟨⟨hanswers, htrees⟩, ⟨hworld, htables⟩, htrace⟩ :=
    (Node.unshare_lockstep hkeyed).tend ds htwins r { r with tables := t' } ⟨rfl, hmirrors⟩
  obtain ⟨hcopies, hwears⟩ := Instance.twins_unshare htrees
  refine ⟨Prod.ext hanswers.symm hcopies.symm, htrace.symm, hworld.symm, fun i hi f hf => ?_⟩
  refine Frame.memory_unshare.mpr fun j d i' hd hi' => ?_
  have hf := hwears i hi f hf
  exact htables f.id j d i' (hf ▸ hd) hi'

def Instance.sharers : List (Instance Host.echo) :=
  [2, 3].map fun k => .ofRoot (Rooted.paused.root.mapFrame ({ · with id := k }))
    ⟨Rooted.echo.setting, .ofSeed 0⟩

/-- The first tree is shut after its tick, and the second still runs. -/
theorem unshare_of_tend_paused :
    let ds : List (Deed Host.echo) := [.on 0 (.tick 1), .on 0 (.tick 1), .on 1 (.tick 1)]
    let r : Realm Host.echo := Rooted.still.toRealm
    let o := tend ds Instance.sharers r
    let o' := tend ds (Instance.sharers.map (·.unshare Nat.pair)) { r with tables := .empty }
    (Instance.sharers.flatMap (·.root.ids)).Nodup ∧
      (∀ i ∈ Instance.sharers, ∀ f ∈ i.root.frames,
        (f.decorators.filterMap Decorator.id?).Nodup) ∧
      (∀ i ∈ Instance.sharers, ∀ f ∈ i.root.frames,
        (f.unshare Nat.pair).memory .empty = f.memory r.tables) ∧
      o'.value.1 = o.value.1 ∧ o'.trace = o.trace ∧
      o.value.1 = [.ok .success, .ok .failure, .ok .success] := by
  intro ds r o o'
  have hown : ∀ k, Function.Injective (Nat.pair k) := fun k i j h => (Nat.pair_eq_pair.mp h).2
  have hdistinct : (Instance.sharers.flatMap (·.root.ids)).Nodup := by decide
  have honce : ∀ i ∈ Instance.sharers, ∀ f ∈ i.root.frames,
      (f.decorators.filterMap Decorator.id?).Nodup := by decide
  have hsame : ∀ i ∈ Instance.sharers, ∀ f ∈ i.root.frames,
      (f.unshare Nat.pair).memory .empty = f.memory r.tables := by decide
  have hanswers : o.value.1 = [.ok .success, .ok .failure, .ok .success] := by decide +kernel
  obtain ⟨hvalue, htrace, -⟩ :=
    unshare_of_tend Nat.pair hown ds Instance.sharers hdistinct honce r .empty hsame
  exact ⟨hdistinct, honce, hsame, by rw [hvalue], htrace, hanswers⟩

end TickTree
