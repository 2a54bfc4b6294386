import TickTree.Proofs.Run
/-! A node on its own. Its parent, or the host, executes and aborts it, in whatever setting and stage
it is then. In a run of a whole tree nothing else happens to a node, and the entries about the nodes
below it, and about the node itself, are those of these calls. -/
namespace TickTree
variable {H : Host}

inductive Handling (H : Host) where
  | execute (s : Setting) (dt : Float32) (st : Stage H)
  | abort (s : Setting) (st : Stage H)

def Handling.act : Handling H → Node H →
    Outcome (Stage H) (Entry H.Note) (Option Answer × Node H)
  | execute s dt st, n =>
    let o := n.execute s dt st
    ⟨(some o.value.1, o.value.2), o.state, o.trace⟩
  | abort s st, n =>
    let o := n.abort s st
    ⟨(none, o.value), o.state, o.trace⟩

theorem Only.filter_calls {ν : Type} {ks : List NodeId} {p : Entry ν → Bool} (hp : Only ks p)
    (tr : List (Entry ν)) : (calls tr).filter p = tr.filter p := by
  rw [calls, List.filter_filter]
  refine List.filter_congr fun e _ => ?_
  cases e with
  | note x =>
    have hx : p (.note x) = false := by
      by_contra h
      obtain ⟨k, -, hk⟩ := hp _ (by simpa using h)
      cases hk
    simp [hx]
  | _ => simp [Entry.isNote]

theorem Only.mono {ν : Type} {ks js : List NodeId} {p : Entry ν → Bool} (hp : Only ks p)
    (hsub : ∀ k ∈ ks, k ∈ js) : Only js p := fun e he =>
  (hp e he).imp fun k hk => ⟨hsub k hk.1, hk.2⟩

/-! ### Readings

What is read off a trace entry by entry, when only entries about some nodes tell anything. -/

section Readings
variable {ν β : Type} {r : Entry ν → Option β} {ks js : List NodeId}

theorem filterMap_filter_isSome (r : Entry ν → Option β) (tr : List (Entry ν)) :
    (tr.filter fun e => (r e).isSome).filterMap r = tr.filterMap r := by
  rw [List.filterMap_filter]
  refine List.filterMap_congr fun e _ => ?_
  cases h : r e <;> simp

namespace Only

theorem filterMap_calls (hr : Only ks fun e => (r e).isSome) (tr : List (Entry ν)) :
    (calls tr).filterMap r = tr.filterMap r := by
  rw [← filterMap_filter_isSome, hr.filter_calls, filterMap_filter_isSome]

/-- Of entries about nodes among which the reading sees only one, the entries about that one tell
all. -/
theorem filterMap_own (hr : Only ks fun e => (r e).isSome) {tr : List (Entry ν)} (h : Within js tr)
    {m : NodeId} (seen : ∀ k ∈ ks, k ∈ js → k = m) :
    (own m tr).filterMap r = tr.filterMap r := by
  rw [own, List.filterMap_filter]
  refine List.filterMap_congr fun e he => ?_
  split
  · rfl
  · next hm =>
    cases hread : r e with
    | none => rfl
    | some b =>
      obtain ⟨k, hk, habout⟩ := hr e (by simp [hread])
      obtain rfl := seen k hk (h e he k habout)
      simp [habout] at hm

theorem filterMap_eq (hr : Only ks fun e => (r e).isSome) {tr tr' : List (Entry ν)}
    (same : ∀ p, Only ks p → tr.filter p = tr'.filter p) : tr.filterMap r = tr'.filterMap r := by
  rw [← filterMap_filter_isSome r tr, same _ hr, filterMap_filter_isSome]

end Only
end Readings

namespace Node

def handle : List (Handling H) → Node H → Node H × List (Entry H.Note)
  | [], n => (n, [])
  | h :: hs, n =>
    let o := h.act n
    let rest := handle hs o.value.2
    (rest.1, o.trace ++ rest.2)

theorem handle_append (hs hs' : List (Handling H)) (n : Node H) :
    n.handle (hs ++ hs') = ((handle hs' (n.handle hs).1).1,
      (n.handle hs).2 ++ (handle hs' (n.handle hs).1).2) := by
  induction hs generalizing n with
  | nil => rfl
  | cons h hs ih => simp [handle, ih]

theorem handle_keeps {I : Node H → Prop} (keep : ∀ (h : Handling H) n, I n → I (h.act n).value.2)
    (hs : List (Handling H)) {n : Node H} (h : I n) : I (n.handle hs).1 := by
  induction hs generalizing n with
  | nil => exact h
  | cons c hs ih => exact ih (keep c n h)

theorem sound_act (h : Handling H) {n : Node H} (hn : n.Sound) : (h.act n).value.2.Sound := by
  cases h with
  | execute s dt st => exact sound_execute s dt hn st
  | abort s st =>
    change (n.abort s st).value.Sound
    rw [value_abort]
    exact sound_settle hn

theorem shape_act (h : Handling H) {n : Node H} (hn : n.Sound) :
    (h.act n).value.2.shape = n.shape := by
  cases h with
  | execute s dt st => exact shape_execute s dt hn st
  | abort s st =>
    change (n.abort s st).value.shape = n.shape
    rw [value_abort, shape_settle]

/-- Calls lead from one tree to the other, and what a trace says of the tree is theirs. -/
structure Undergoes (n : Node H) (tr : List (Entry H.Note)) (m : Node H) : Prop where
  calls : ∃ hs, (n.handle hs).1 = m ∧ ∀ p, Only n.ids p → tr.filter p = (n.handle hs).2.filter p
  ids : m.ids = n.ids

namespace Undergoes
variable {n m k : Node H} {tr tr' : List (Entry H.Note)}

theorem refl (h : ∀ p, Only n.ids p → tr.filter p = []) : n.Undergoes tr n :=
  ⟨⟨[], rfl, fun p hp => (h p hp).trans rfl⟩, rfl⟩

theorem trans (h : n.Undergoes tr m) (h' : m.Undergoes tr' k) : n.Undergoes (tr ++ tr') k := by
  obtain ⟨⟨hs, rfl, htr⟩, hids⟩ := h
  obtain ⟨⟨hs', rfl, htr'⟩, hids'⟩ := h'
  refine ⟨⟨hs ++ hs', by rw [handle_append], fun p hp => ?_⟩, hids'.trans hids⟩
  rw [handle_append, List.filter_append, List.filter_append, htr p hp, htr' p (hids ▸ hp)]

theorem congr (h : n.Undergoes tr m) (hsame : ∀ p, Only n.ids p → tr'.filter p = tr.filter p) :
    n.Undergoes tr' m := by
  obtain ⟨⟨hs, hm, htr⟩, hids⟩ := h
  exact ⟨⟨hs, hm, fun p hp => (hsame p hp).trans (htr p hp)⟩, hids⟩

theorem execute (h : n.Sound) (s : Setting) (dt : Float32) (st : Stage H) :
    n.Undergoes (n.execute s dt st).trace (n.execute s dt st).value.2 :=
  ⟨⟨[.execute s dt st], rfl, fun p _ => by simp [handle, Handling.act]⟩,
    ids_eq_of_shape (shape_execute s dt h st)⟩

theorem settle (n : Node H) (s : Setting) (st : Stage H) : n.Undergoes (n.sweep s) n.settle := by
  refine ⟨⟨[.abort s st], value_abort s n st, fun p hp => ?_⟩, ids_eq_of_shape n.shape_settle⟩
  rw [← calls_abort s n st, hp.filter_calls]
  simp [handle, Handling.act]

end Undergoes

/-! ### Nodes of a tree -/

theorem at?_cons {f : Frame H} {cs : List (Node H)} {i : Nat} {path : List Nat} {m : Node H} :
    (mk f cs).at? (i :: path) = some m ↔ ∃ c, cs[i]? = some c ∧ c.at? path = some m :=
  Option.bind_eq_some_iff

theorem sublist_at? {path : List Nat} {n m : Node H} (h : n.at? path = some m) :
    m.ids.Sublist n.ids := by
  induction path generalizing n with
  | nil =>
    cases h
    exact List.Sublist.refl _
  | cons i path ih =>
    obtain ⟨f, cs⟩ := n
    obtain ⟨c, hc, hm⟩ := at?_cons.mp h
    have hbelow : c.ids.Sublist (cs.flatMap ids) :=
      List.sublist_flatten_of_mem (List.mem_map_of_mem (List.mem_of_getElem? hc))
    rw [ids_mk]
    exact ((ih hm).trans hbelow).cons _

theorem idle_at? {path : List Nat} {n m : Node H} (hn : n.Idle) (h : n.at? path = some m) :
    m.Idle := by
  induction path generalizing n with
  | nil =>
    cases h
    exact hn
  | cons i path ih =>
    obtain ⟨f, cs⟩ := n
    obtain ⟨c, hc, hm⟩ := at?_cons.mp h
    exact ih (hn.below c (List.mem_of_getElem? hc)) hm

theorem undergoes_settle (s : Setting) (st : Stage H) {path : List Nat} {n m : Node H}
    (hn : n.ids.Nodup) (h : n.at? path = some m) :
    ∃ m', n.settle.at? path = some m' ∧ m.Undergoes (n.sweep s) m' := by
  induction path generalizing n with
  | nil =>
    cases h
    exact ⟨_, rfl, .settle _ s st⟩
  | cons i path ih =>
    obtain ⟨f, cs⟩ := n
    obtain ⟨c, hc, hm⟩ := at?_cons.mp h
    obtain ⟨hout, hcs⟩ := nodup_mk hn
    have hmem := List.mem_of_getElem? hc
    have hsub := (sublist_at? hm).subset
    rw [settle_mk, sweep_mk]
    by_cases hf : f.active = true
    · obtain ⟨m', hm', hunder⟩ := ih ((List.nodup_flatMap.mp hcs).1 c hmem) hm
      rw [if_pos hf, if_pos hf]
      refine ⟨m', at?_cons.mpr ⟨c.settle, by simp [hc], hm'⟩, hunder.congr fun p hp => ?_⟩
      have hframe : (f.sweep s).filter p = [] :=
        ((f.mine_sweep s).within (List.mem_singleton.mpr rfl)).filter_eq_nil hp fun k hk hk' =>
          hout (List.mem_singleton.mp hk' ▸ List.mem_flatMap.mpr ⟨c, hmem, hsub hk⟩)
      rw [List.filter_append, hframe, List.append_nil, filter_sweeps hcs hmem (hp.mono hsub)]
    · have hf : f.active = false := by simpa using hf
      rw [if_neg (by simp [hf]), if_neg (by simp [hf]), f.settle_of_idle hf, f.sweep_of_idle s hf]
      exact ⟨m, h, .refl fun _ _ => rfl⟩

theorem undergoes_execute (s : Setting) (dt : Float32) {n : Node H} (hs : n.Sound)
    (hn : n.ids.Nodup) (st : Stage H) {path : List Nat} {m : Node H} (h : n.at? path = some m) :
    ∃ m', (n.execute s dt st).value.2.at? path = some m' ∧
      m.Undergoes (n.execute s dt st).trace m' := by
  let P : Law H := fun n _ o => n.ids.Nodup → ∀ path m, n.at? path = some m →
    ∃ m', o.value.2.at? path = some m' ∧ m.Undergoes o.trace m'
  refine execute_rule (P := P) (fun f cs st o hsound ho h hn path m hm => ?_) hs st hn path m h
  cases path with
  | nil =>
    cases hm
    exact ⟨_, rfl, ho ▸ .execute hsound s dt st⟩
  | cons i path =>
    obtain ⟨c, hc, hm⟩ := at?_cons.mp hm
    obtain ⟨hout, hcs⟩ := nodup_mk hn
    have hmem := List.mem_of_getElem? hc
    have hsub := (sublist_at? hm).subset
    cases Frame.unfolds h with
    | @mk w₁ w₂ w₃ f' answer log cs₁ cs₂ st₁ st₂ st' tr trc swept visit visits answers teardown
        trace mine₁ mine₂ mine₃ =>
      have hlocal := local_execute P s dt
      have hids := visits.flatMap_ids_eq hlocal
      -- first the child is executed, or left alone
      obtain ⟨c₁, hc₁, m₁, hm₁, hunder₁⟩ : ∃ c₁, cs₁[i]? = some c₁ ∧ ∃ m₁,
          c₁.at? path = some m₁ ∧ m.Undergoes trc m₁ := by
        obtain ⟨-, hsame, hnone⟩ | ⟨a, st, o, -, ⟨hlaw, -, -⟩, -, hnew, hshare⟩ :=
          visits.share hlocal hcs i hc
        · exact ⟨c, hsame, m, hm, .refl fun p hp => hnone p (hp.mono hsub)⟩
        · obtain ⟨m₁, hm₁, hunder⟩ := hlaw ((List.nodup_flatMap.mp hcs).1 c hmem) path m hm
          exact ⟨_, hnew, m₁, hm₁, hunder.congr fun p hp => hshare p (hp.mono hsub)⟩
      have hmem₁ := List.mem_of_getElem? hc₁
      have hsub₁ := (sublist_at? hm₁).subset
      have hcs₁ : (cs₁.flatMap ids).Nodup := hids ▸ hcs
      -- then it is aborted, or left alone
      obtain ⟨m₂, hm₂, hunder₂⟩ : ∃ m₂, (mk f' cs₂).at? (i :: path) = some m₂ ∧
          m₁.Undergoes swept m₂ := by
        cases teardown with
        | kept => exact ⟨m₁, at?_cons.mpr ⟨c₁, hc₁, hm₁⟩, .refl fun _ _ => rfl⟩
        | swept =>
          obtain ⟨m₂, hm₂, hunder⟩ :=
            undergoes_settle s st ((List.nodup_flatMap.mp hcs₁).1 c₁ hmem₁) hm₁
          exact ⟨m₂, at?_cons.mpr ⟨c₁.settle, by simp [hc₁], hm₂⟩, hunder.congr fun p hp =>
            filter_sweeps hcs₁ hmem₁ (hp.mono hsub₁)⟩
      refine ⟨m₂, hm₂, (hunder₁.trans hunder₂).congr fun p hp => ?_⟩
      have hnone {w : List (Entry H.Note)} (hw : Mine f.id w) : w.filter p = [] :=
        (hw.within (List.mem_singleton.mpr rfl)).filter_eq_nil hp fun k hk hk' =>
          hout (List.mem_singleton.mp hk' ▸ List.mem_flatMap.mpr ⟨c, hmem, hsub hk⟩)
      rw [← hp.filter_calls tr, trace]
      simp only [List.filter_append, hnone mine₁, hnone mine₂, hnone mine₃, hp.filter_calls,
        List.nil_append, List.append_nil]

end Node

theorem undergoes_act (m : Move H) {t : Rooted H} (h : t.Proper) (st : Stage H) {path : List Nat}
    {n : Node H} (hn : t.root.at? path = some n) :
    ∃ n', (m.act t st).value.2.root.at? path = some n' ∧ n.Undergoes (m.act t st).trace n' := by
  cases m with
  | execute dt =>
    simpa [Move.act] using Node.undergoes_execute t.setting dt h.sound h.distinct st hn
  | abort =>
    obtain ⟨n', hn', hunder⟩ := Node.undergoes_settle t.setting st h.distinct hn
    refine ⟨n', by simpa [Move.act, Node.value_abort] using hn', hunder.congr fun p hp => ?_⟩
    rw [← Node.calls_abort t.setting t.root st, hp.filter_calls]
    simp [Move.act]
  | beginTick dt => exact ⟨n, hn, .refl fun _ _ => rfl⟩
  | outside change => exact ⟨n, hn, .refl fun _ _ => rfl⟩

/-- In a run nothing happens to a node but executions and aborts. -/
theorem undergoes_play (ms : List (Move H)) {t : Rooted H} (h : t.Proper) (st : Stage H)
    {path : List Nat} {n : Node H} (hn : t.root.at? path = some n) :
    ∃ n', (play ms t st).value.2.root.at? path = some n' ∧
      n.Undergoes (play ms t st).trace n' := by
  refine play_rule (I := Rooted.Proper) (R := fun t _ tr u => ∀ path n, t.root.at? path = some n →
    ∃ n', u.root.at? path = some n' ∧ n.Undergoes tr n') (fun m _ st h => proper_act m h st) ?_ ?_ ?_
    ms h st path n hn
  · exact fun t path n hn => ⟨n, hn, .refl fun _ _ => rfl⟩
  · intro t u v _ _ _ _ h h' path n hn
    obtain ⟨m, hm, hunder⟩ := h path n hn
    obtain ⟨k, hk, hunder'⟩ := h' path m hm
    exact ⟨k, hk, hunder.trans hunder'⟩
  · exact fun m t st h path n hn => undergoes_act m h st hn

end TickTree
