import TickTree.Proofs.Laps
/-! Activations as spells of laps. A node goes through one after the other; what holds where an
activation starts, and lap by lap from there on, holds of every activation of every run. The time of a
node is what the laps of its activation that gave a result add up to. -/
namespace TickTree
variable {H : Host}

/-- What is to hold of a node at rest, of the laps of an activation that goes on, with the random
source at its start, and of an activation that is over. -/
structure Regime (H : Host) where
  rest : Frame H → Prop
  now : Rng → List Lap → Frame H → Prop
  whole : Rng → Spell → Prop

structure Regime.Governs (R : Regime H) (n : Nat) (f : Frame H) : Prop where
  panics : ∀ {g : Frame H} {r : Rng} {p : Panic} {b : Behavior H}, g.plan = f.plan → R.rest g →
    g.StartsAs n r (.error p) b → R.now r [] (g.begun b)
  starts : ∀ {g : Frame H} {r : Rng} {b : Behavior H}, g.plan = f.plan →
    g.StartsAs n r (.ok ()) b → R.now r [] (g.opened b)
  lap : ∀ {g : Frame H} {r : Rng} {ls : List Lap} {dt : Float32} {log : Log} {raw : Answer}
    {b : Behavior H}, g.plan = f.plan → R.now r ls g → g.behavior.Answers dt n log raw b →
      (f.Plain → Going raw) → R.now r (ls ++ [g.lap dt raw]) (g.lapped dt raw b)
  ends : ∀ {g : Frame H} {r : Rng} {ls : List Lap} {dt : Float32} {log : Log} {raw : Status}
    {b : Behavior H} (result : Status), g.plan = f.plan → R.now r ls g →
      g.behavior.Answers dt n log (.ok raw) b →
        R.whole r ⟨ls ++ [g.lap dt (.ok raw)], result, g.time + dt⟩
  cut : ∀ {g : Frame H} {r : Rng} {ls : List Lap}, g.plan = f.plan → R.now r ls g →
    R.whole r ⟨ls, .failure, g.time⟩
  rests : ∀ (g : Frame H) (b : Behavior H), R.rest { g.ended with behavior := b }

def history (past : List (Rng × Spell)) : List Pace := past.flatMap fun x => x.2.paces

namespace Frame
variable {n : Nat} {f g k : Frame H} {R : Regime H} {ps new op : List Pace} {rs : List Rng}
  {past : List (Rng × Spell)} {r r' : Rng} {ls : List Lap}

/-- What has been shown of a node so far: activations that are over, and one that goes on, if the
node is active. Only where the start has panicked an activation has no lap. -/
structure Paced (R : Regime H) (n : Nat) (f : Frame H) (ps : List Pace) (rs : List Rng)
    (past : List (Rng × Spell)) (r : Rng) (ls : List Lap) : Prop where
  shown : ps = history past ++ if f.active then running ls else []
  sources : rs = past.map Prod.fst ++ if f.active then [r] else []
  past : ∀ x ∈ past, R.whole x.1 x.2
  now : f.active = true → R.now r ls f
  idle : f.active = false → R.rest f
  stalled : f.active = true → ls = [] →
    ∃ g p b, Frame.plan g = f.plan ∧ g.StartsAs n r (.error p) b

theorem StartsAs.make_eq {started : Except Panic Unit} {b : Behavior H}
    (h : f.StartsAs n r started b) : b.make = f.behavior.make := by
  obtain ⟨s, v, st, -, hstart⟩ := h
  have hmake := f.behavior.make_start s v n st
  rwa [hstart] at hmake

theorem OpensAs.plan_eq (h : f.OpensAs n r op g) : g.plan = f.plan := by
  refine plan_eq_iff.mpr ⟨h.bare_eq, ?_⟩
  cases h with
  | already => rfl
  | fresh hf starts => exact starts.make_eq

theorem paced_idle (n : Nat) (r : Rng) (hf : f.active = false)
    (hpast : ∀ x ∈ past, R.whole x.1 x.2) (hrest : R.rest f) :
    f.Paced R n (history past) (past.map Prod.fst) past r [] where
  shown := by simp [hf]
  sources := by simp [hf]
  past := hpast
  now := by simp [hf]
  idle _ := hrest
  stalled := by simp [hf]

theorem paced_ended (n : Nat) (hf : f.active = false) (hpast : ∀ x ∈ past, R.whole x.1 x.2)
    {s : Spell} (hs : R.whole r s) (hrest : R.rest f) :
    f.Paced R n (history past ++ s.paces) (past.map Prod.fst ++ [r]) (past ++ [(r, s)]) r [] := by
  have hover : ∀ x ∈ past ++ [(r, s)], R.whole x.1 x.2 :=
    List.forall_mem_append.mpr ⟨hpast, by simpa using hs⟩
  simpa [history] using paced_idle n r hf hover hrest

namespace Paced

theorem cut (h : f.Paced R n ps rs past r ls) (governs : R.Governs n k) (hplan : f.plan = k.plan) :
    ∃ past r ls, f.settle.Paced R n (ps ++ if f.active then [.exited .failure f.time] else []) rs
      past r ls := by
  obtain ⟨rfl, rfl, hpast, hnow, hidle, -⟩ := h
  have hsettled := f.active_settle
  cases hf : f.active with
  | true =>
    have hwhole := governs.cut hplan (hnow hf)
    have hrest : R.rest f.settle := by
      rw [settle, if_pos hf]
      exact governs.rests f f.behavior
    exact ⟨_, r, [], by simpa [Spell.paces] using paced_ended n hsettled hpast hwhole hrest⟩
  | false =>
    rw [settle_of_idle hf]
    exact ⟨past, r, [], by simpa using paced_idle n r hf hpast (hidle hf)⟩

theorem current (h : f.Paced R n ps rs past r ls) (governs : R.Governs n k)
    (hplan : f.plan = k.plan) (opens : f.OpensAs n r' op g) :
    ∃ r ls, ps ++ op = history past ++ running ls ∧
      rs ++ (if .entered ∈ op then [r'] else []) = past.map Prod.fst ++ [r] ∧ R.now r ls g := by
  obtain ⟨rfl, rfl, -, hnow, -, -⟩ := h
  cases opens with
  | already hf => exact ⟨r, ls, by simp [hf], by simp [hf], hnow hf⟩
  | fresh hf starts =>
    exact ⟨r', [], by simp [hf, running], by simp [hf], governs.starts hplan starts⟩

theorem stint (h : f.Paced R n ps rs past r ls) (governs : R.Governs n k)
    (hplan : f.plan = k.plan) (hs : f.Stint n r' new g) :
    ∃ past r ls, g.Paced R n (ps ++ new) (rs ++ if .entered ∈ new then [r'] else [])
      past r ls := by
  cases hs with
  | cut =>
    have hquiet : Pace.entered ∉ (if f.active then [Pace.exited .failure f.time] else []) := by
      split <;> simp
    rw [if_neg hquiet, List.append_nil]
    exact h.cut governs hplan
  | @panicked p b idle starts =>
    obtain ⟨rfl, rfl, hpast, -, hidle, -⟩ := h
    have hsame : f.plan = (f.begun b).plan := plan_eq_iff.mpr ⟨rfl, starts.make_eq.symm⟩
    refine ⟨past, r', [], ?_, ?_, hpast, fun _ => governs.panics hplan (hidle idle) starts, ?_,
      fun _ _ => ⟨f, p, b, hsame, starts⟩⟩
    · simp [idle, begun, running]
    · simp [idle, begun]
    · intro hbegun
      cases hbegun
  | @kept _ g dt log raw b opens answers going =>
    obtain ⟨r, ls, hps, hrs, hnow⟩ := h.current governs hplan opens
    have hactive : (g.lapped dt raw b).active = true := opens.active_eq
    have hlap := governs.lap (opens.plan_eq.trans hplan) hnow answers fun plain =>
      going (plain.of_plan hplan)
    refine ⟨past, r, ls ++ [g.lap dt raw], ?_, ?_, h.past, fun _ => hlap, ?_, ?_⟩
    · rw [if_pos hactive, running_append, ← List.append_assoc, hps, List.append_assoc]
    · simpa [hactive, Lap.entered_notMem_paces] using hrs
    · simp [hactive]
    · simp
  | @ended op g dt log raw result b b' opens answers =>
    obtain ⟨r, ls, hps, hrs, hnow⟩ := h.current governs hplan opens
    have hwhole := governs.ends result (opens.plan_eq.trans hplan) hnow answers
    have hover := paced_ended n rfl h.past hwhole (governs.rests (g.lapped dt (.ok raw) b) b')
    rw [← hrs, Spell.paces, running_append] at hover
    have hshown (w : List Pace) : ps ++ (op ++ w) = history past ++ (running ls ++ w) := by
      rw [← List.append_assoc, hps, List.append_assoc]
    rw [hshown, ← List.append_assoc (running ls)]
    exact ⟨_, r, [], by simpa [Lap.entered_notMem_paces] using hover⟩

end Paced
end Frame

def Handling.rng : Handling H → Rng
  | execute _ _ st | abort _ st => st.rng

namespace Node
variable {R : Regime H}

theorem stint_act (h : Handling H) {n : Node H} (sound : n.Sound) (hn : n.ids.Nodup) :
    n.frame.Stint n.children.length h.rng (paces n.id (h.act n).trace) (h.act n).value.2.frame := by
  cases h with
  | execute s dt st => exact stint_execute s dt sound hn st
  | abort s st =>
    obtain ⟨f, cs⟩ := n
    have hcut : f.Stint cs.length st.rng (paces f.id ((mk f cs).sweep s)) f.settle := by
      rw [paces_sweep (nodup_mk hn).1]
      exact .cut
    rw [← calls_abort s (mk f cs) st, paces_calls] at hcut
    change f.Stint cs.length st.rng (paces f.id ((mk f cs).abort s st).trace)
      ((mk f cs).abort s st).value.frame
    rwa [value_abort, settle_mk]

def sources : List (Handling H) → Node H → List Rng
  | [], _ => []
  | h :: hs, n =>
    (if .entered ∈ paces n.id (h.act n).trace then [h.rng] else []) ++ sources hs (h.act n).value.2

theorem paced_handle {k : Frame H} {m : Nat} (governs : R.Governs m k) (hs : List (Handling H))
    {n : Node H} (sound : n.Sound) (distinct : n.ids.Nodup) (hplan : n.frame.plan = k.plan)
    (hkids : n.children.length = m) {ps : List Pace} {rs : List Rng}
    (h : ∃ past r ls, n.frame.Paced R m ps rs past r ls) :
    ∃ past r ls, (n.handle hs).1.frame.Paced R m (ps ++ paces n.id (n.handle hs).2)
      (rs ++ n.sources hs) past r ls := by
  induction hs generalizing n ps rs with
  | nil => simpa [handle, sources] using h
  | cons c hs ih =>
    obtain ⟨past, r, ls, h⟩ := h
    have hshape := shape_act c sound
    have hstep := h.stint governs hplan (hkids ▸ stint_act c sound distinct)
    have hrest := ih (n := (c.act n).value.2) (sound_act c sound)
      (ids_eq_of_shape hshape ▸ distinct)
      ((plan_eq_of_plans (plans_act c sound)).trans hplan)
      ((length_eq_of_kids (kids_eq_of_shape hshape)).trans hkids) hstep
    rw [id_eq_of_shape hshape] at hrest
    simpa [handle, sources] using hrest

/-- Whatever calls it gets, an idle node goes through its activations as a regime that governs it
says. -/
theorem paced_calls {n : Node H} (idle : n.Idle) (distinct : n.ids.Nodup)
    (governs : R.Governs n.children.length n.frame) (rest : R.rest n.frame)
    (hs : List (Handling H)) :
    ∃ past r ls, (n.handle hs).1.frame.Paced R n.children.length (paces n.id (n.handle hs).2)
      (n.sources hs) past r ls := by
  have hnone (r : Rng) : n.frame.Paced R n.children.length [] [] [] r [] :=
    Frame.paced_idle _ r (isActive_of_idle idle) (List.forall_mem_nil _) rest
  have h := paced_handle governs hs (sound_of_idle idle) distinct rfl rfl
    ⟨[], .ofSeed 0, [], hnone _⟩
  simpa using h

end Node

theorem paces_eq_of_same {n : Node H} {w w' : List (Entry H.Note)}
    (same : ∀ p, Only n.ids p → w.filter p = w'.filter p) : paces n.id w = paces n.id w' := by
  rw [paces, own, same _ (only_own n.id_mem_ids)]
  rfl

theorem paced_play (ms : List (Move H)) {t : Rooted H} (idle : t.root.Idle)
    (distinct : t.root.ids.Nodup) (st : Stage H) {path : List Nat} {n : Node H}
    (hn : t.root.at? path = some n) {R : Regime H}
    (governs : R.Governs n.children.length n.frame) (rest : R.rest n.frame) :
    ∃ hs past r ls, (play ms t st).value.2.root.at? path = some (n.handle hs).1 ∧
      n.Remains (n.handle hs).1 ∧
      (∀ p, Only n.ids p → (play ms t st).trace.filter p = (n.handle hs).2.filter p) ∧
      (n.handle hs).1.frame.Paced R n.children.length (paces n.id (play ms t st).trace)
        (n.sources hs) past r ls := by
  have hidle : n.Idle := Node.idle_at? idle hn
  obtain ⟨m, hm, hunder⟩ := undergoes_play ms ⟨Node.sound_of_idle idle, distinct⟩ st hn
  obtain ⟨hs, rfl, hsame⟩ := hunder.calls
  obtain ⟨past, r, ls, h⟩ := Node.paced_calls hidle (distinct.sublist (Node.sublist_at? hn)) governs
    rest hs
  rw [← paces_eq_of_same hsame] at h
  exact ⟨hs, past, r, ls, hm, .of_idle hidle hs, hsame, h⟩

/-! ### Time -/

theorem split_snoc {α : Type} {xs before after : List α} {x y : α}
    (h : xs ++ [y] = before ++ x :: after) :
    (before = xs ∧ x = y ∧ after = []) ∨ ∃ rest, xs = before ++ x :: rest ∧ after = rest ++ [y] := by
  obtain rfl | ⟨rest, z, rfl⟩ := after.eq_nil_or_concat
  · obtain ⟨rfl, hx⟩ := List.append_inj' h rfl
    exact .inl ⟨rfl, (List.cons.inj hx).1.symm, rfl⟩
  · rw [List.concat_eq_append, ← List.cons_append, ← List.append_assoc] at h
    obtain ⟨hxs, hy⟩ := List.append_inj' h rfl
    obtain rfl := (List.cons.inj hy).1
    exact .inr ⟨rest, hxs, List.concat_eq_append⟩

/-- Before every lap the time is what the laps before it add up to. -/
def Tallied (ls : List Lap) : Prop :=
  ∀ before l after, ls = before ++ l :: after → l.time = clock before

theorem tallied_append {ls : List Lap} {l : Lap} (h : Tallied ls) (hl : l.time = clock ls) :
    Tallied (ls ++ [l]) := by
  intro before x after hsplit
  obtain ⟨rfl, rfl, -⟩ | ⟨rest, hrest, -⟩ := split_snoc hsplit
  · exact hl
  · exact h before x rest hrest

namespace Frame

theorem time_lapped {g : Frame H} {ls : List Lap} (h : g.time = clock ls) (dt : Float32)
    (raw : Answer) (b : Behavior H) : (g.lapped dt raw b).time = clock (ls ++ [g.lap dt raw]) := by
  rw [clock_append, ← h]
  rfl

def tally : Regime H where
  rest _ := True
  now _ ls g := g.time = clock ls ∧ Tallied ls
  whole _ s := s.duration = clock s.laps ∧ Tallied s.laps

theorem tally_governs (n : Nat) (f : Frame H) : tally.Governs n f where
  panics _ _ _ := ⟨rfl, by simp [Tallied]⟩
  starts _ _ := ⟨rfl, by simp [Tallied]⟩
  lap _ now _ _ := ⟨time_lapped now.1 _ _ _, tallied_append now.2 now.1⟩
  ends {_ _ _ dt _ raw b} _ _ now _ := ⟨time_lapped now.1 dt (.ok raw) b, tallied_append now.2 now.1⟩
  cut _ now := now
  rests _ _ := trivial

end Frame

/-- The duration that the end of an activation reports, and at any point of a run the time of an
active node, is what the deltas of those of its ticks add up to that have given a result. -/
theorem clocked_of_play (ms : List (Move H)) {t : Rooted H} (idle : t.root.Idle)
    (distinct : t.root.ids.Nodup) (st : Stage H) {path : List Nat} {n : Node H}
    (hn : t.root.at? path = some n) :
    ∃ (m : Node H) (past : List Spell) (ls : List Lap),
      (play ms t st).value.2.root.at? path = some m ∧
      paces n.id (play ms t st).trace =
        past.flatMap Spell.paces ++ (if m.isActive then running ls else []) ∧
      (∀ s ∈ past, s.duration = clock s.laps ∧ Tallied s.laps) ∧
      (m.isActive = true → m.view.time = clock ls ∧ Tallied ls) := by
  obtain ⟨hs, past, r, ls, hm, -, -, h⟩ :=
    paced_play ms idle distinct st hn (Frame.tally_governs _ n.frame) trivial
  refine ⟨(n.handle hs).1, past.map Prod.snd, ls, hm, ?_, ?_, h.now⟩
  · rw [List.flatMap_map]
    exact h.shown
  · rw [List.forall_mem_map]
    exact h.past

/-- Ticks that the leaf's error passes through take no time. -/
theorem clocked_of_play_faulty :
    let o := play [.execute 1, .execute 2, .abort] Rooted.faulty Rooted.hushed
    let n := Rooted.faulty.root
    let ls : List Lap := [⟨0, 1, [], .error (.failed .missingRoot)⟩,
      ⟨0, 2, [], .error (.failed .missingRoot)⟩]
    (n.Idle ∧ n.ids.Nodup ∧ n.at? [] = some n) ∧
      paces 4 o.trace = running ls ++ [.exited .failure 0] ∧
      ∃ past : List Spell, paces 4 o.trace = past.flatMap Spell.paces ∧
        ∀ s ∈ past, s.duration = clock s.laps ∧ Tallied s.laps := by
  intro o n ls
  have hidle : n.Idle := by decide
  have hdistinct : n.ids.Nodup := by decide
  have hroot : n.at? [] = some n := rfl
  have hpaces : paces 4 o.trace = running ls ++ [.exited .failure 0] := by decide +kernel
  have hidle' : o.value.2.root.isActive = false := by decide +kernel
  have h := clocked_of_play [.execute 1, .execute 2, .abort] hidle hdistinct Rooted.hushed hroot
  rw [show play [.execute 1, .execute 2, .abort] Rooted.faulty Rooted.hushed = o from rfl] at h
  clear_value o
  obtain ⟨m, past, ls', hm, hshown, hpast, -⟩ := h
  obtain rfl : o.value.2.root = m := Option.some.inj hm
  rw [if_neg (by simp [hidle']), List.append_nil] at hshown
  exact ⟨⟨hidle, hdistinct, hroot⟩, hpaces, past, hshown, hpast⟩

end TickTree
