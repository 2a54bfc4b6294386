import TickTree.Instance
import TickTree.Proofs.Telling
/-! Groves: many trees in one world, called in any order, each in a context that may be its own or
that of others. For the nodes of a tree, a call on it is a run of moves, and calls on other trees
are nothing at all. -/
namespace TickTree
variable {H : Host}

inductive Call (H : Host) where
  /-- Executes the root, whether or not the tree is going. -/
  | execute (dt : Float32)
  /-- Aborts the root. -/
  | abort
  | beginTick (dt : Float32)
  | tick (dt : Float32)
  | restart
  | finish
  /-- From now on the tree is in this context, which may be one of those that exist. -/
  | enter (choose : List Context → Context)

def Call.act (contexts : List Context) :
    Call H → Instance H → Turn H (List Answer × Instance H)
  | execute dt, i => do
    let (answer, i) ← i.onRoot fun s n => n.execute s dt
    pure ([answer], i)
  | abort, i => do
    let i ← i.abortRoot
    pure ([], i)
  | beginTick dt, i => pure ([], { i with context := i.context.beginTick dt })
  | tick dt, i => do
    let (answer, i) ← i.tick dt
    pure ([answer], i)
  | restart, i => do
    let i ← i.restart
    pure ([], i)
  | finish, i => do
    let i ← i.abort
    pure ([], i)
  | enter choose, i => pure ([], { i with context := choose contexts })

inductive Deed (H : Host) where
  | on (tree : Nat) (call : Call H)
  /-- Between calls the host may do anything to the world. -/
  | outside (change : World H.State → World H.State)

def Deed.act : Deed H → List (Instance H) → Turn H (List Answer × List (Instance H))
  | on tree call, g =>
    match g[tree]? with
    | none => pure ([], g)
    | some i => do
      let (answers, i) ← call.act (g.map (·.context)) i
      pure (answers, g.set tree i)
  | outside change, g => do
    Traced.modify fun r => { r with world := change r.world }
    pure ([], g)

def tend : List (Deed H) → List (Instance H) → Turn H (List Answer × List (Instance H))
  | [], g => pure ([], g)
  | d :: ds, g => do
    let (answers, g) ← d.act g
    let (more, g) ← tend ds g
    pure (answers ++ more, g)

/-- Nothing is called on nodes of other trees, and nothing that is remembered of them changes. -/
theorem play_elsewhere (ms : List (Move H)) (inside : ∀ change, .outside change ∉ ms)
    {t : Rooted H} (h : t.Proper) (st : Stage H) {k : NodeId} (hk : k ∉ t.root.ids) :
    own k (play ms t st).trace = [] ∧ (play ms t st).state.tables.row k = st.tables.row k := by
  induction ms generalizing t st with
  | nil => exact ⟨rfl, rfl⟩
  | cons m ms ih =>
    have hm : ∀ change, m ≠ .outside change := fun change e => inside change (by simp [e])
    obtain ⟨hown, hrow⟩ := act_elsewhere hm h st hk
    have hids := Node.ids_eq_of_shape (shape_act m h.sound st)
    obtain ⟨hown', hrow'⟩ := ih (fun change he => inside change (List.mem_cons_of_mem _ he))
      (proper_act m h st) (m.act t st).state (hids ▸ hk)
    rw [play_cons]
    exact ⟨by rw [own_append, hown, hown']; rfl, hrow'.trans hrow⟩

namespace Instance

def rooted (i : Instance H) : Rooted H := ⟨i.context.toSetting, i.root⟩

/-- The nodes of the tree, what is remembered of them and what is called on them are as if the host
had made these moves with the root. -/
structure Plays (i : Instance H) (r : Realm H) (ms : List (Move H)) (j : Instance H) (r' : Realm H)
    (w : List (Entry H.Note)) : Prop where
  inside : ∀ change, .outside change ∉ ms
  root : j.root = (play ms i.rooted ⟨r, i.context.rng⟩).value.2.root
  realm : r' = (play ms i.rooted ⟨r, i.context.rng⟩).state.toRealm
  trace : ∀ k, own k w = own k (play ms i.rooted ⟨r, i.context.rng⟩).trace

variable {i j j' : Instance H} {r r' : Realm H} {ms : List (Move H)} {w w' : List (Entry H.Note)}

theorem Plays.remark (h : i.Plays r ms j r' w) (hj : j'.root = j.root)
    (hw : ∀ e ∈ w', e.about = none) : i.Plays r ms j' r' (w ++ w') := by
  have hown (k : NodeId) : own k w' = [] := own_of_about_ne fun e he => by simp [hw e he]
  exact ⟨h.inside, hj.trans h.root, h.realm, fun k => by
    rw [own_append, hown, List.append_nil, h.trace]⟩

theorem Plays.idle (hj : j.root = i.root) : i.Plays r [] j r [] :=
  ⟨by simp, hj, rfl, fun _ => rfl⟩

theorem plays_execute (i : Instance H) (dt : Float32) (r : Realm H) :
    let o := i.onRoot (fun s n => n.execute s dt) r
    i.Plays r [.execute dt] o.value.2 o.state o.trace :=
  ⟨by simp, rfl, rfl, fun k => by simp [onRoot, Turn.within, play, Move.act, rooted]⟩

theorem plays_abortRoot (i : Instance H) (r : Realm H) :
    let o := i.abortRoot r
    i.Plays r [.abort] o.value o.state o.trace :=
  ⟨by simp, rfl, rfl, fun k => by simp [abortRoot, onRoot, Turn.within, play, Move.act, rooted]⟩

theorem plays_restart (i : Instance H) (r : Realm H) :
    let o := i.restart r
    i.Plays r [.abort] o.value o.state o.trace :=
  (i.plays_abortRoot r).remark rfl (by simp [Turn.report, Turn.notify, Entry.about])

theorem plays_abort (i : Instance H) (r : Realm H) :
    ∃ ms, i.Plays r ms (i.abort r).value (i.abort r).state (i.abort r).trace := by
  rw [abort]
  split
  · exact ⟨[.abort], (i.plays_abortRoot r).remark rfl
      (by simp [Turn.report, Turn.notify, Entry.about])⟩
  · exact ⟨[], .idle rfl⟩

theorem plays_tick_of_active (hactive : i.active = true) (dt : Float32) (r : Realm H) :
    let o := i.tick dt r
    i.Plays r [.beginTick dt, .execute dt] o.value.2 o.state o.trace := by
  let begun : Instance H := { i with context := i.context.beginTick dt }
  rcases ho : begun.onRoot (fun s n => n.execute s dt) r with ⟨⟨answer, j⟩, r', w⟩
  have hplays : i.Plays r [.beginTick dt, .execute dt] j r' w := by
    have hexecuted := begun.plays_execute dt r
    rw [ho] at hexecuted
    refine ⟨by simp, hexecuted.root, hexecuted.realm, fun k => (hexecuted.trace k).trans ?_⟩
    rw [play_cons (.beginTick dt)]
    rfl
  rw [tick, if_pos hactive, Traced.bind_apply, ho]
  cases answer with
  | error stop => exact hplays.remark rfl (by simp)
  | ok result =>
    dsimp only
    split
    · exact hplays.remark rfl (by simp [Turn.report, Turn.notify, Entry.about])
    · exact hplays.remark rfl (by simp)

theorem plays_tick (i : Instance H) (dt : Float32) (r : Realm H) :
    ∃ ms, i.Plays r ms (i.tick dt r).value.2 (i.tick dt r).state (i.tick dt r).trace := by
  by_cases hactive : i.active = true
  · exact ⟨_, plays_tick_of_active hactive dt r⟩
  · rw [tick, if_neg hactive]
    exact ⟨[], .idle rfl⟩

theorem plays_call (contexts : List Context) (c : Call H) (i : Instance H) (r : Realm H) :
    let o := c.act contexts i r
    ∃ ms, i.Plays r ms o.value.2 o.state o.trace := by
  cases c with
  | execute dt => exact ⟨_, (i.plays_execute dt r).remark rfl (by simp)⟩
  | abort => exact ⟨_, (i.plays_abortRoot r).remark rfl (by simp)⟩
  | beginTick dt => exact ⟨[], .idle rfl⟩
  | tick dt =>
    obtain ⟨ms, h⟩ := i.plays_tick dt r
    exact ⟨ms, h.remark rfl (by simp)⟩
  | restart => exact ⟨_, (i.plays_restart r).remark rfl (by simp)⟩
  | finish =>
    obtain ⟨ms, h⟩ := i.plays_abort r
    exact ⟨ms, h.remark rfl (by simp)⟩
  | enter choose => exact ⟨[], .idle rfl⟩

end Instance

theorem deed_cases (d : Deed H) (g : List (Instance H)) (r : Realm H) :
    let o := d.act g r
    (o.value.2 = g ∧ o.state.tables = r.tables ∧ o.trace = []) ∨
      ∃ g₁ i g₂ j ms, g = g₁ ++ i :: g₂ ∧ o.value.2 = g₁ ++ j :: g₂ ∧
        i.Plays r ms j o.state o.trace := by
  cases d with
  | on tree c =>
    rw [Deed.act]
    cases hi : g[tree]? with
    | none => exact .inl ⟨rfl, rfl, rfl⟩
    | some i =>
      right
      obtain ⟨hlt, hget⟩ := List.getElem?_eq_some_iff.mp hi
      obtain ⟨ms, hplays⟩ := Instance.plays_call (g.map (·.context)) c i r
      let j := (c.act (g.map (·.context)) i r).value.2
      have hset : ∃ g₁ g₂, g = g₁ ++ g[tree] :: g₂ ∧ g₁.length = tree ∧
          g.set tree j = g₁ ++ j :: g₂ := List.exists_of_set hlt
      obtain ⟨g₁, g₂, hg, -, hset⟩ := hset
      rw [hget] at hg
      exact ⟨g₁, i, g₂, j, ms, hg, hset, hplays.remark rfl (by simp)⟩
  | outside change => exact .inl ⟨rfl, rfl, rfl⟩

theorem roots_tend {I : Node H → Prop}
    (execute : ∀ n s dt st, I n → I (n.execute s dt st).value.2) (settle : ∀ n, I n → I n.settle)
    (ds : List (Deed H)) {g : List (Instance H)} (h : ∀ i ∈ g, I i.root) (r : Realm H) :
    ∀ i ∈ (tend ds g r).value.2, I i.root := by
  induction ds generalizing g r with
  | nil => exact h
  | cons d ds ih =>
    refine ih (g := (d.act g r).value.2) ?_ (d.act g r).state
    obtain ⟨htrees, -⟩ | ⟨g₁, i, g₂, j, ms, rfl, htrees, hplays⟩ := deed_cases d g r
    · rwa [htrees]
    · rw [htrees]
      intro i' hi'
      obtain hi' | rfl | hi' : i' ∈ g₁ ∨ i' = j ∨ i' ∈ g₂ := by simpa using hi'
      · exact h i' (by simp [hi'])
      · rw [hplays.root]
        exact play_keeps (I := fun t => I t.root) (fun m _ st ht => act_root execute settle m ht st)
          ms (h i (by simp)) _
      · exact h i' (by simp [hi'])

/-- Sound trees whose nodes can all be told apart. -/
structure Planted (g : List (Instance H)) : Prop where
  sound : ∀ i ∈ g, i.root.Sound
  distinct : (g.flatMap (·.root.ids)).Nodup

namespace Planted
variable {g g₁ g₂ : List (Instance H)} {i j : Instance H}

theorem proper (h : Planted g) (hi : i ∈ g) : i.rooted.Proper :=
  ⟨h.sound i hi, (List.nodup_flatMap.mp h.distinct).1 i hi⟩

theorem apart (h : Planted (g₁ ++ i :: g₂)) (hj : j ∈ g₁ ∨ j ∈ g₂) {k : NodeId}
    (hk : k ∈ j.root.ids) : k ∉ i.root.ids := by
  have hperm : (g₁ ++ i :: g₂).Perm (i :: (g₁ ++ g₂)) := List.perm_middle
  have hdistinct := (hperm.flatMap_right (·.root.ids)).nodup_iff.mp h.distinct
  rw [List.flatMap_cons] at hdistinct
  intro hki
  refine List.disjoint_of_nodup_append hdistinct hki (List.mem_flatMap.mpr ⟨j, ?_, hk⟩)
  exact List.mem_append.mpr hj

theorem replace (h : Planted (g₁ ++ i :: g₂)) (sound : j.root.Sound)
    (hids : j.root.ids = i.root.ids) : Planted (g₁ ++ j :: g₂) := by
  obtain ⟨hsound, hdistinct⟩ := h
  refine ⟨fun i' hi' => ?_, ?_⟩
  · obtain hi' | rfl | hi' : i' ∈ g₁ ∨ i' = j ∨ i' ∈ g₂ := by simpa using hi'
    · exact hsound i' (by simp [hi'])
    · exact sound
    · exact hsound i' (by simp [hi'])
  · rw [List.flatMap_append, List.flatMap_cons] at hdistinct ⊢
    rwa [hids]

end Planted

section Rule
variable {k : NodeId} {P : Frame H → Row → List (Entry H.Note) → Prop} {g : List (Instance H)}
  {r : Realm H} {w : List (Entry H.Note)}

def Kept (k : NodeId) (P : Frame H → Row → List (Entry H.Note) → Prop) : Prop :=
  ∀ (ms : List (Move H)) (t : Rooted H) (st : Stage H) (w : List (Entry H.Note)),
    (∀ change, .outside change ∉ ms) → t.Proper →
    (∀ f ∈ t.root.frames, f.id = k → P f (st.tables.row k) w) →
    ∀ f ∈ (play ms t st).value.2.root.frames, f.id = k →
      P f ((play ms t st).state.tables.row k) (w ++ own k (play ms t st).trace)

theorem deed_rule (keep : Kept k P) (d : Deed H) (hg : Planted g)
    (h : ∀ i ∈ g, ∀ f ∈ i.root.frames, f.id = k → P f (r.tables.row k) w) :
    let o := d.act g r
    Planted o.value.2 ∧ ∀ i ∈ o.value.2, ∀ f ∈ i.root.frames, f.id = k →
      P f (o.state.tables.row k) (w ++ own k o.trace) := by
  intro o
  obtain ⟨htrees, htables, htrace⟩ | ⟨g₁, i, g₂, j, ms, rfl, htrees, hplays⟩ := deed_cases d g r
  · rw [htrees, htables, htrace, own_nil, List.append_nil]
    exact ⟨hg, h⟩
  · have hi : i ∈ g₁ ++ i :: g₂ := by simp
    have hproper : i.rooted.Proper := hg.proper hi
    let st : Stage H := ⟨r, i.context.rng⟩
    have hj : j.root.Sound := hplays.root ▸ (proper_play ms hproper st).sound
    have hids : j.root.ids = i.root.ids :=
      hplays.root ▸ Node.ids_eq_of_shape (shape_play ms hproper.sound st)
    rw [htrees]
    refine ⟨hg.replace hj hids, fun i' hi' f hf hid => ?_⟩
    rw [hplays.trace, hplays.realm]
    -- another tree has the node, so that this one has not
    have hother (hi' : i' ∈ g₁ ∨ i' ∈ g₂) : P f ((play ms i.rooted st).state.tables.row k)
        (w ++ own k (play ms i.rooted st).trace) := by
      have hk : k ∉ i.root.ids := hg.apart hi' (hid ▸ List.mem_map_of_mem hf)
      obtain ⟨hown, hrow⟩ := play_elsewhere ms hplays.inside hproper st hk
      rw [hown, hrow, List.append_nil]
      refine h i' ?_ f hf hid
      rcases hi' with hi' | hi' <;> simp [hi']
    obtain hi' | rfl | hi' : i' ∈ g₁ ∨ i' = j ∨ i' ∈ g₂ := by simpa using hi'
    · exact hother (.inl hi')
    · exact keep ms i.rooted st w hplays.inside hproper (h i hi) f (hplays.root ▸ hf) hid
    · exact hother (.inr hi')

theorem tend_rule (keep : Kept k P) (ds : List (Deed H)) (hg : Planted g)
    (h : ∀ i ∈ g, ∀ f ∈ i.root.frames, f.id = k → P f (r.tables.row k) w) :
    let o := tend ds g r
    Planted o.value.2 ∧ ∀ i ∈ o.value.2, ∀ f ∈ i.root.frames, f.id = k →
      P f (o.state.tables.row k) (w ++ own k o.trace) := by
  induction ds generalizing g r w with
  | nil =>
    rw [tend]
    exact ⟨hg, by simpa using h⟩
  | cons d ds ih =>
    obtain ⟨hplanted, hkept⟩ := deed_rule keep d hg h
    have hrest := ih hplanted hkept
    simpa [tend] using hrest

end Rule
end TickTree
