import TickTree.Proofs.Selection
/-! Random selectors in the order that they have drawn. While an activation goes on, a random
selector is a selector over its children in that order. -/
namespace TickTree
variable {H : Host} {α β : Type}

def pick (p : List Nat) (xs : List α) : List α := p.filterMap (xs[·]?)

section Pick
variable {p : List Nat} {xs : List α}

@[simp] theorem pick_nil (xs : List α) : pick [] xs = [] := rfl

theorem pick_cons {i : Nat} (hi : i < xs.length) : pick (i :: p) xs = xs[i] :: pick p xs := by
  rw [pick, List.filterMap_cons, List.getElem?_eq_getElem hi]
  rfl

theorem pick_map (f : α → β) (p : List Nat) (xs : List α) :
    pick p (xs.map f) = (pick p xs).map f := by
  simp [pick, List.map_filterMap]

theorem getElem?_pick (h : ∀ i ∈ p, i < xs.length) (j : Nat) :
    (pick p xs)[j]? = p[j]?.bind (xs[·]?) := by
  induction p generalizing j with
  | nil => rfl
  | cons i p ih =>
    have hi := h i List.mem_cons_self
    rw [pick_cons hi]
    cases j with
    | zero => simp [List.getElem?_eq_getElem hi]
    | succ j => simpa using ih (fun k hk => h k (List.mem_cons_of_mem _ hk)) j

theorem length_pick (h : ∀ i ∈ p, i < xs.length) : (pick p xs).length = p.length := by
  induction p with
  | nil => rfl
  | cons i p ih =>
    rw [pick_cons (h i List.mem_cons_self), List.length_cons, List.length_cons,
      ih fun k hk => h k (List.mem_cons_of_mem _ hk)]

theorem pick_drop (xs : List α) (c : Nat) : pick ((List.range xs.length).drop c) xs = xs.drop c := by
  refine List.ext_getElem? fun j => ?_
  have hlt : ∀ i ∈ (List.range xs.length).drop c, i < xs.length := fun i hi =>
    List.mem_range.mp (List.mem_of_mem_drop hi)
  rw [getElem?_pick hlt, List.getElem?_drop, List.getElem?_drop]
  by_cases hj : c + j < xs.length
  · simp [hj]
  · simp [hj]

theorem perm_pick (h : p.Perm (List.range xs.length)) : (pick p xs).Perm xs := by
  have hall := pick_drop xs 0
  rw [List.drop_zero, List.drop_zero] at hall
  have hperm := h.filterMap (xs[·]?)
  rwa [← pick, ← pick, hall] at hperm

theorem pick_set (hn : p.Nodup) (h : ∀ i ∈ p, i < xs.length) {i j : Nat} (hj : p[j]? = some i)
    (x : α) : pick p (xs.set i x) = (pick p xs).set j x := by
  have hset : ∀ k ∈ p, k < (xs.set i x).length := by simpa using h
  obtain ⟨hlt, rfl⟩ := List.getElem?_eq_some_iff.mp hj
  refine List.ext_getElem? fun k => ?_
  rw [getElem?_pick hset, List.getElem?_set, getElem?_pick h, length_pick h]
  by_cases hjk : j = k
  · subst hjk
    simp [hlt, h _ (List.getElem_mem hlt)]
  · rw [if_neg hjk]
    cases hk : p[k]? with
    | none => rfl
    | some m =>
      obtain ⟨hk', rfl⟩ := List.getElem?_eq_some_iff.mp hk
      have hne : p[j] ≠ p[k] := fun h => hjk ((hn.getElem_inj_iff).mp h)
      simp [hne]

end Pick

namespace Branch
variable {p : List Nat} {bs : List (Branch H)}

theorem walk_pick (onward : Status) (hn : p.Nodup) (h : ∀ i ∈ p, i < bs.length) (cursor : Nat)
    {order : List Nat} (horder : ∀ j ∈ order, j < p.length) :
    walk onward cursor order (pick p bs) =
      (fun o => (o.1, o.2.1, pick p o.2.2)) <$> walk onward cursor (pick order p) bs := by
  induction order generalizing cursor bs with
  | nil => simp [walk]
  | cons j order ih =>
    have hj := horder j List.mem_cons_self
    have hi := h p[j] (List.getElem_mem hj)
    have hget : (pick p bs)[j]? = some bs[p[j]] := by
      rw [getElem?_pick h, List.getElem?_eq_getElem hj]
      exact List.getElem?_eq_getElem hi
    rw [pick_cons hj, walk, walk, hget, List.getElem?_eq_getElem hi, map_bind]
    refine bind_congr fun o => ?_
    have hset := pick_set hn h (List.getElem?_eq_getElem hj) (bs[p[j]].done o.2)
    dsimp only
    rw [← hset]
    by_cases ha : o.1 = .ok onward
    · rw [if_pos ha, if_pos ha]
      exact ih (by simpa using h) _ fun k hk => horder k (List.mem_cons_of_mem _ hk)
    · rw [if_neg ha, if_neg ha, map_pure]

end Branch

def Behavior.ordered : Behavior H → Behavior H
  | randomSelector cursor _ => selector cursor
  | b => b

theorem Behavior.tick_ordered {p : List Nat} {bs : List (Branch H)}
    (hp : p.Perm (List.range bs.length)) (s : Setting) (v : View) (dt : Float32) (c : Nat) :
    (selector c).tick s v dt (pick p bs) =
      (fun o => (o.1, o.2.1.ordered, pick p o.2.2)) <$> (randomSelector c p).tick s v dt bs := by
  have hn : p.Nodup := hp.nodup_iff.mpr List.nodup_range
  have hlt : ∀ i ∈ p, i < bs.length := fun i hi => List.mem_range.mp (hp.mem_iff.mp hi)
  have horder : ∀ j ∈ (List.range (pick p bs).length).drop c, j < p.length := by
    intro j hj
    rw [length_pick hlt] at hj
    exact List.mem_range.mp (List.mem_of_mem_drop hj)
  have hwalk := Branch.walk_pick .failure hn hlt c horder
  rw [length_pick hlt, pick_drop] at hwalk
  rw [tick, tick, length_pick hlt, hwalk, map_bind, bind_map_left]
  refine bind_congr fun o => ?_
  rw [map_pure]
  rfl

namespace Node
variable {s : Setting} {dt : Float32} {p : List Nat} {cs : List (Node H)}

def Lone (cs : List (Node H)) : Prop :=
  ∃ k, ∀ (i : Nat) (c : Node H), cs[i]? = some c → c.isActive = true → i = k

theorem abortAll_lone {k : Nat} (h : ∀ (i : Nat) (c : Node H), cs[i]? = some c →
    c.isActive = true → i = k) {c : Node H} (hc : cs[k]? = some c) :
    abortAll s cs = (cs.set k ·) <$> c.abort s := by
  induction cs generalizing k with
  | nil => cases hc
  | cons d cs ih =>
    rw [abortAll]
    cases k with
    | zero =>
      obtain rfl : d = c := by simpa using hc
      have hrest : ∀ c ∈ cs, c.isActive = false := by
        intro c hc
        obtain ⟨i, hi⟩ := List.mem_iff_getElem?.mp hc
        refine Bool.eq_false_iff.mpr fun hactive => ?_
        cases h (i + 1) c (by simpa using hi) hactive
      simp only [abortAll_of_idle s hrest, pure_bind, List.set_cons_zero]
      exact bind_pure_comp ..
    | succ k =>
      have hd : d.isActive = false := Bool.eq_false_iff.mpr fun hactive => by
        cases h 0 d rfl hactive
      have hrest := ih (fun i c hi hactive => Nat.succ.inj (h (i + 1) c (by simpa using hi) hactive))
        (by simpa using hc)
      rw [abort_of_idle s hd, pure_bind, hrest, bind_map_left]
      exact bind_pure_comp ..

theorem abortAll_pick (hp : p.Perm (List.range cs.length)) (h : Lone cs) :
    abortAll s (pick p cs) = pick p <$> abortAll s cs := by
  have hn : p.Nodup := hp.nodup_iff.mpr List.nodup_range
  have hlt : ∀ i ∈ p, i < cs.length := fun i hi => List.mem_range.mp (hp.mem_iff.mp hi)
  obtain ⟨k, hk⟩ := h
  cases hc : cs[k]? with
  | none =>
    have hidle : ∀ c ∈ cs, c.isActive = false := by
      intro c hmem
      obtain ⟨i, hi⟩ := List.mem_iff_getElem?.mp hmem
      refine Bool.eq_false_iff.mpr fun hactive => ?_
      rw [← hk i c hi hactive, hi] at hc
      cases hc
    rw [abortAll_of_idle s hidle,
      abortAll_of_idle s fun c hc => hidle c ((perm_pick hp).mem_iff.mp hc), map_pure]
  | some c =>
    have hkp : k ∈ p := hp.mem_iff.mpr (List.mem_range.mpr (List.getElem?_eq_some_iff.mp hc).1)
    obtain ⟨j, hj⟩ := List.mem_iff_getElem?.mp hkp
    have hget : (pick p cs)[j]? = some c := by rw [getElem?_pick hlt, hj]; exact hc
    have hlone : ∀ (i : Nat) (d : Node H), (pick p cs)[i]? = some d → d.isActive = true →
        i = j := by
      intro i d hi hactive
      rw [getElem?_pick hlt] at hi
      obtain ⟨m, hm, hd⟩ := Option.bind_eq_some_iff.mp hi
      obtain rfl := hk m d hd hactive
      obtain ⟨hi', hm⟩ := List.getElem?_eq_some_iff.mp hm
      obtain ⟨hj', hj⟩ := List.getElem?_eq_some_iff.mp hj
      exact hn.getElem_inj_iff.mp (hm.trans hj.symm)
    rw [abortAll_lone hlone hget, abortAll_lone hk hc, ← comp_map]
    exact congrArg (· <$> c.abort s) (funext fun d => (pick_set hn hlt hj d).symm)

theorem lone_of_pick (hp : p.Perm (List.range cs.length)) (h : Lone (pick p cs)) : Lone cs := by
  have hlt : ∀ i ∈ p, i < cs.length := fun i hi => List.mem_range.mp (hp.mem_iff.mp hi)
  obtain ⟨j, hj⟩ := h
  refine ⟨p[j]?.getD 0, fun i c hi hactive => ?_⟩
  have hip : i ∈ p := hp.mem_iff.mpr (List.mem_range.mpr (List.getElem?_eq_some_iff.mp hi).1)
  obtain ⟨m, hm⟩ := List.mem_iff_getElem?.mp hip
  have hget : (pick p cs)[m]? = some c := by rw [getElem?_pick hlt, hm]; exact hi
  rw [← hj m c hget hactive, hm]
  rfl

end Node

def Frame.ordered (f : Frame H) : Frame H := { f with behavior := f.behavior.ordered }

/-- The selector whose children are listed in this order. -/
def Node.along (p : List Nat) : Node H → Node H
  | mk f cs => mk f.ordered (pick p cs)

@[simp] theorem Node.along_mk (p : List Nat) (f : Frame H) (cs : List (Node H)) :
    (Node.mk f cs).along p = .mk f.ordered (pick p cs) := rfl

@[simp] theorem Node.view_along (p : List Nat) (n : Node H) : (n.along p).view = n.view := by
  cases n
  rfl

theorem Traced.bind_congr_of {σ ε α β : Type} {P : α → Prop} {x : Traced σ ε α}
    {f g : α → Traced σ ε β} (hx : ∀ s, P (x s).value) (h : ∀ a, P a → f a = g a) :
    x >>= f = x >>= g := by
  funext s
  rw [bind_apply, bind_apply, h _ (hx s)]

section Ordered
variable {s : Setting} {dt : Float32} {r : Status} {p : List Nat} {f : Frame H}
  {cs : List (Node H)} {bs : List (Branch H)} {c : Nat} {o : List Nat}

theorem Frame.endActivation_ordered (s : Setting) (r : Status) (f : Frame H) :
    f.ordered.endActivation s r = Frame.ordered <$> f.endActivation s r := by
  funext st
  rw [Traced.map_apply]
  rfl

theorem Frame.abort_ordered (s : Setting) (f : Frame H) :
    f.ordered.abort s = Frame.ordered <$> f.abort s := by
  funext st
  rw [Traced.map_apply]
  rfl

theorem Node.abort_along (hp : p.Perm (List.range cs.length)) (h : Lone cs) :
    ((mk f cs).along p).abort s = along p <$> (mk f cs).abort s := by
  rw [along_mk, abort, abort, show f.ordered.active = f.active from rfl]
  by_cases hf : f.active = true
  · rw [if_pos hf, if_pos hf, abortAll_pick hp h, f.abort_ordered, bind_map_left, map_bind]
    refine bind_congr fun cs => ?_
    rw [bind_map_left, map_bind]
    exact bind_congr fun g => by rw [map_pure]; rfl
  · rw [if_neg hf, if_neg hf, map_pure]
    rfl

theorem Frame.conclude_ordered (hb : f.behavior = .randomSelector c o)
    (hp : p.Perm (List.range cs.length)) (h : Node.Lone cs) :
    f.ordered.conclude s r (pick p cs) = Node.along p <$> f.conclude s r cs := by
  have hb' : f.ordered.behavior = .selector c := by rw [ordered, hb]; rfl
  rw [conclude, conclude, hb, hb', map_bind]
  refine bind_congr fun _ => ?_
  simp only [Behavior.finish, pure_bind]
  rw [Node.abortAll_pick hp h, bind_map_left, map_bind]
  refine bind_congr fun cs => ?_
  rw [show ({ f.ordered with behavior := .selector 0 } : Frame H) =
    ({ f with behavior := .randomSelector 0 [] } : Frame H).ordered from rfl,
    endActivation_ordered, bind_map_left, map_bind]
  refine bind_congr fun g => ?_
  rw [map_bind]
  exact bind_congr fun _ => by rw [map_pure]; rfl

theorem Branch.length_walk (onward : Status) (cursor : Nat) (order : List Nat)
    (bs : List (Branch H)) (st : Stage H) :
    (walk onward cursor order bs st).value.2.2.length = bs.length := by
  induction order generalizing cursor bs st with
  | nil => rfl
  | cons i order ih =>
    rw [walk]
    cases bs[i]? with
    | none => rfl
    | some b =>
      dsimp only
      rw [Traced.bind_apply]
      dsimp only
      split
      · rw [ih, List.length_set]
      · exact List.length_set

/-- After a tick of a selector only the child at its cursor can be active. -/
theorem Behavior.lone_tick (honest : ∀ b ∈ bs, b.Honest) (hc : c ≤ bs.length)
    (idle : ∀ (i : Nat) (b : Branch H), bs[i]? = some b → b.node.isActive = true → i = c)
    (v : View) (st : Stage H) :
    Node.Lone (((selector c).tick s v dt bs st).value.2.2.map (·.node)) := by
  have htick := Branch.tick_selector s v dt (bs.take c) (bs.drop c)
  rw [List.take_append_drop, List.length_take_of_le hc] at htick
  have hp := Branch.passed_pass (bs.drop c) st
  rw [htick, Traced.bind_apply]
  exact ⟨_, fun i d hi hd => (Inner.active_passed hc honest idle hp i d hi hd).1⟩

theorem Frame.advance_ordered (hb : f.behavior = .randomSelector c p)
    (hp : p.Perm (List.range bs.length))
    (lone : ∀ v st, Node.Lone
      (((Behavior.selector c).tick s v dt (pick p bs) st).value.2.2.map (·.node))) :
    f.ordered.advance s dt (pick p bs) =
      (fun o => (o.1, o.2.along p)) <$> f.advance s dt bs := by
  have hb' : f.ordered.behavior = .selector c := by rw [ordered, hb]; rfl
  rw [advance, advance, map_bind]
  refine bind_congr fun as => ?_
  rw [map_bind]
  refine bind_congr fun _ => ?_
  dsimp only
  rw [hb, hb', Behavior.tick_ordered hp, bind_map_left, map_bind]
  refine Traced.bind_congr_of (P := fun o => o.2.2.length = bs.length ∧
    (∃ c, o.2.1 = .randomSelector c p) ∧ Node.Lone (pick p (o.2.2.map (·.node)))) ?_ ?_
  · intro st
    have hlone := lone f.view st
    rw [Behavior.tick_ordered hp, Traced.map_apply] at hlone
    refine ⟨Branch.length_walk _ _ _ _ _, ⟨_, rfl⟩, ?_⟩
    rw [pick_map]
    exact hlone
  · rintro ⟨raw, b, bs'⟩ ⟨hlength, ⟨c', rfl⟩, hlone⟩
    have hp' : p.Perm (List.range (bs'.map (·.node)).length) := by
      rwa [List.length_map, hlength]
    rw [map_bind]
    refine bind_congr fun _ => ?_
    cases raw with
    | error stop => rw [map_pure, Node.along_mk, pick_map]; rfl
    | ok raw =>
      rw [map_bind]
      refine bind_congr fun result => ?_
      dsimp only
      by_cases hr : result.isTerminal = true
      · let g : Frame H :=
          { f with services := as, behavior := .randomSelector c' p, time := f.time + dt }
        have hconclude : g.ordered.conclude s result (pick p (bs'.map (·.node))) =
            Node.along p <$> g.conclude s result (bs'.map (·.node)) :=
          conclude_ordered rfl hp' (Node.lone_of_pick hp' hlone)
        rw [pick_map] at hconclude
        rw [if_pos hr, if_pos hr, map_bind]
        change g.ordered.conclude s result ((pick p bs').map (·.node)) >>=
          (fun n => (pure (.ok result, n) : Exec H (Answer × Node H))) = _
        rw [hconclude, bind_map_left]
        exact bind_congr fun n => (map_pure ..).symm
      · rw [if_neg hr, if_neg hr, map_pure, Node.along_mk, pick_map]
        rfl

theorem Frame.run_ordered (hf : f.active = true) (hb : f.behavior = .randomSelector c p)
    (hp : p.Perm (List.range bs.length)) (h : Node.Lone (bs.map (·.node)))
    (lone : ∀ v st, Node.Lone
      (((Behavior.selector c).tick s v dt (pick p bs) st).value.2.2.map (·.node))) :
    f.ordered.run s dt (pick p bs) = (fun o => (o.1, o.2.along p)) <$> f.run s dt bs := by
  have hp' : p.Perm (List.range (bs.map (·.node)).length) := by rwa [List.length_map]
  rw [run, run, map_bind]
  refine bind_congr fun passed => ?_
  cases passed with
  | true =>
    have hactive (m : Nat) : f.ordered.activate s m = pure (.ok (), f.ordered) :=
      activate_of_active (f := f.ordered) hf s m
    simp only [if_true, hactive, activate_of_active hf, pure_bind]
    exact advance_ordered hb hp lone
  | false =>
    simp only [Bool.false_eq_true, if_false, map_bind]
    refine bind_congr fun _ => ?_
    have habort := Node.abort_along (s := s) (f := f) hp' h
    rw [Node.along_mk, pick_map] at habort
    rw [habort, bind_map_left]
    exact bind_congr fun n => (map_pure ..).symm

theorem Frame.execute_ordered (hf : f.active = true) (hb : f.behavior = .randomSelector c p)
    (hp : p.Perm (List.range bs.length)) (h : Node.Lone (bs.map (·.node)))
    (lone : ∀ v st, Node.Lone
      (((Behavior.selector c).tick s v dt (pick p bs) st).value.2.2.map (·.node))) :
    f.ordered.execute s dt (pick p bs) = (fun o => (o.1, o.2.along p)) <$> f.execute s dt bs := by
  rw [execute, execute, map_bind]
  refine bind_congr fun _ => ?_
  rw [run_ordered hf hb hp h lone, bind_map_left, map_bind]
  refine bind_congr fun o => ?_
  dsimp only
  rw [map_bind, Node.view_along]
  exact bind_congr fun _ => (map_pure ..).symm

end Ordered

namespace Node
variable {n : Node H} {p : List Nat} {s : Setting} {dt : Float32}

/-- An activation of a random selector that goes on in this order. -/
structure Tries (p : List Nat) (n : Node H) : Prop where
  active : n.isActive = true
  behavior : ∃ c, n.frame.behavior = .randomSelector c p
  /-- At most the child at the cursor is active. -/
  stands : (n.along p).Stands

theorem Tries.perm (h : n.Tries p) (sound : n.Sound) : p.Perm (List.range n.children.length) := by
  obtain ⟨f, cs⟩ := n
  obtain ⟨hactive, ⟨c, hb⟩, -⟩ := h
  have hfits := (all_mk.mp sound).1 hactive
  rw [show f.behavior = _ from hb] at hfits
  exact hfits.2

theorem mem_of_mem_pick {cs : List (Node H)} {c : Node H} (h : c ∈ pick p cs) : c ∈ cs := by
  obtain ⟨i, -, hi⟩ := List.mem_filterMap.mp h
  exact List.mem_of_getElem? hi

theorem Tries.sound_along (h : n.Tries p) (sound : n.Sound) : (n.along p).Sound := by
  have hp := h.perm sound
  obtain ⟨f, cs⟩ := n
  obtain ⟨hactive, ⟨c, hb⟩, -⟩ := h
  obtain ⟨hfits, hcs⟩ := all_mk.mp sound
  replace hp : p.Perm (List.range cs.length) := hp
  replace hb : f.behavior = .randomSelector c p := hb
  refine .mk (fun hf => ?_) fun d hd => hcs d (mem_of_mem_pick hd)
  rw [Frame.ordered, hb, (perm_pick hp).length_eq]
  have hle := hfits hf
  rw [hb] at hle
  exact hle.1

theorem closed_along (h : n.Closed) : (n.along p).Closed := by
  obtain ⟨f, cs⟩ := n
  obtain ⟨hf, hcs⟩ := all_mk.mp h
  exact .mk (fun hidle d hd => hf hidle d (mem_of_mem_pick hd)) fun d hd =>
    hcs d (mem_of_mem_pick hd)

theorem pick_branches (p : List Nat) (s : Setting) (dt : Float32) (cs : List (Node H)) :
    branches s dt (pick p cs) = pick p (branches s dt cs) := by
  rw [branches_eq_map, branches_eq_map, pick_map]

theorem Tries.execute_along (h : n.Tries p) (sound : n.Sound) (s : Setting) (dt : Float32) :
    (n.along p).execute s dt = (fun o => (o.1, o.2.along p)) <$> n.execute s dt := by
  have hp := h.perm sound
  have hsound := h.sound_along sound
  obtain ⟨f, cs⟩ := n
  obtain ⟨hactive, ⟨c, hb⟩, hstands⟩ := h
  replace hb : f.behavior = .randomSelector c p := hb
  have hb' : f.ordered.behavior = .selector c := by rw [Frame.ordered, hb]; rfl
  have hlone : ∀ (i : Nat) (d : Node H), (pick p cs)[i]? = some d → d.isActive = true → i = c :=
    fun i d hi hd => (hstands c hb' i d hi hd).2
  obtain ⟨hfits, hcs⟩ := all_mk.mp hsound
  have hc : c ≤ (branches s dt (pick p cs)).length := by
    have hle := hfits hactive
    rw [hb'] at hle
    rwa [length_branches]
  rw [along_mk, execute, execute, pick_branches]
  refine Frame.execute_ordered hactive hb (by rwa [length_branches]) ?_ fun v st => ?_
  · rw [map_node_branches]
    exact lone_of_pick hp ⟨c, hlone⟩
  · rw [← pick_branches]
    refine Behavior.lone_tick (Branch.honest_branches hcs) hc (fun i b hi hactive => ?_) v st
    refine hlone i b.node ?_ hactive
    rw [← map_node_branches s dt (pick p cs), List.getElem?_map, hi]
    rfl

theorem Tries.abort_along (h : n.Tries p) (sound : n.Sound) (s : Setting) :
    (n.along p).abort s = along p <$> n.abort s := by
  have hp := h.perm sound
  obtain ⟨f, cs⟩ := n
  obtain ⟨-, ⟨c, hb⟩, hstands⟩ := h
  replace hb : f.behavior = .randomSelector c p := hb
  have hb' : f.ordered.behavior = .selector c := by rw [Frame.ordered, hb]; rfl
  exact Node.abort_along hp (lone_of_pick hp ⟨c, fun i d hi hd => (hstands c hb' i d hi hd).2⟩)

end Node

theorem Frame.Resolves.answers {P : Law H} {s : Setting} {dt : Float32} {v : View} {f : Frame H}
    {b : Behavior H} {cs cs' : List (Node H)} {st st₁ st₂ : Stage H} {raw answer : Answer}
    {n : Node H} {tr tr' : List (Entry H.Note)}
    (resolved : f.Resolves s dt cs' st₁ raw ⟨(answer, n), st₂, tr'⟩)
    (ticked : b.Ticks P v dt cs st ⟨(raw, f.behavior, cs'), st₁, tr⟩)
    (hactive : n.isActive = true) :
    ∃ log raw, b.Answers dt cs.length log raw n.frame.behavior := by
  rw [resolved.keeps hactive]
  cases ticked with
  | mk _ _ _ _ answers => exact ⟨_, _, answers⟩

theorem Frame.Executes.answers {P : Law H} {s : Setting} {dt : Float32} {f : Frame H}
    {cs : List (Node H)} {st : Stage H}
    {o : Outcome (Stage H) (Entry H.Note) (Answer × Node H)} (h : f.Executes P s dt cs st o)
    (hf : f.active = true) (hactive : o.value.2.isActive = true) :
    ∃ log raw, f.behavior.Answers dt cs.length log raw o.value.2.frame.behavior := by
  cases h with
  | refused guarded aborted =>
    obtain ⟨rfl, -⟩ := Node.abort_eq aborted
    cases (Node.isActive_settle _).symm.trans hactive
  | panicked guarded activated =>
    rw [activate_of_active hf] at activated
    cases activated
  | ticked guarded activated served fits ticked resolved =>
    rw [activate_of_active hf] at activated
    cases activated
    exact resolved.answers ticked hactive

theorem Frame.advance_answers {s : Setting} {dt : Float32} {f : Frame H} {bs : List (Branch H)}
    {st : Stage H} (hf : f.behavior.Fits bs.length)
    (hactive : (f.advance s dt bs st).value.2.isActive = true) :
    ∃ log raw, f.behavior.Answers dt bs.length log raw
      (f.advance s dt bs st).value.2.frame.behavior := by
  let P : Law H := fun _ _ _ => True
  obtain ⟨as, raw, b, cs', n, answer, st₁, st₂, st₃, tr₁, tr₂, tr₃, -, ticked, resolved, heq⟩ :=
    advance_spec s dt (P := P) hf (fun _ _ _ => trivial) st
  rw [heq] at hactive ⊢
  have hanswers := resolved.answers ticked hactive
  rwa [List.length_map] at hanswers

structure Matching (p : List Nat) (o o' : Outcome (Stage H) (Entry H.Note) (α × Node H)) : Prop where
  answer : o'.value.1 = o.value.1
  node : o'.value.2 = o.value.2.along p
  state : o'.state = o.state
  trace : o'.trace = o.trace

namespace Node
variable {n : Node H} {p : List Nat}

/-- The order is kept until the activation ends. -/
theorem Tries.execute (h : n.Tries p) (sound : n.Sound) (closed : n.Closed) (s : Setting)
    (dt : Float32) (st : Stage H) (hactive : (n.execute s dt st).value.2.isActive = true) :
    (n.execute s dt st).value.2.Tries p := by
  refine ⟨hactive, ?_, ?_⟩
  · let P : Law H := fun n _ o => n.Tries p → o.value.2.isActive = true →
      ∃ c, o.value.2.frame.behavior = .randomSelector c p
    refine execute_rule (P := P) (fun f cs st o _ _ h htries hactive => ?_) sound st h hactive
    obtain ⟨hf, ⟨c, hb⟩, -⟩ := htries
    obtain ⟨log, raw, hanswers⟩ := h.answers hf hactive
    rw [show f.behavior = _ from hb] at hanswers
    generalize o.value.2.frame.behavior = b at hanswers
    cases hanswers
    exact ⟨_, rfl⟩
  · have hstands := stands_execute s dt (h.sound_along sound) (closed_along closed) h.stands st
    rwa [h.execute_along sound, Traced.map_apply] at hstands

theorem Tries.act (h : n.Tries p) (sound : n.Sound) (closed : n.Closed) (c : Handling H)
    (hactive : (c.act n).value.2.isActive = true) : (c.act n).value.2.Tries p := by
  cases c with
  | execute s dt st => exact h.execute sound closed s dt st hactive
  | abort s st =>
    change (n.abort s st).value.isActive = true at hactive
    rw [value_abort, isActive_settle] at hactive
    cases hactive

theorem Tries.matching (h : n.Tries p) (sound : n.Sound) (c : Handling H) :
    Matching p (c.act n) (c.act (n.along p)) := by
  cases c with
  | execute s dt st =>
    have heq := congrFun (h.execute_along sound s dt) st
    rw [Traced.map_apply] at heq
    simp only [Handling.act, heq]
    exact ⟨rfl, rfl, rfl, rfl⟩
  | abort s st =>
    have heq := congrFun (h.abort_along sound s) st
    rw [Traced.map_apply] at heq
    simp only [Handling.act, heq]
    exact ⟨rfl, rfl, rfl, rfl⟩

def Lasts : List (Handling H) → Node H → Prop
  | [], n => n.isActive = true
  | h :: hs, n => n.isActive = true ∧ Lasts hs (h.act n).value.2

theorem Tries.handle {hs : List (Handling H)} {n : Node H} (lasts : n.Lasts hs)
    (h : n.Tries p) (sound : n.Sound) (closed : n.Closed) :
    (n.handle hs).1.Tries p ∧ (n.handle hs).1.Sound ∧
      ((n.along p).handle hs).1 = (n.handle hs).1.along p := by
  induction hs generalizing n with
  | nil => exact ⟨h, sound, rfl⟩
  | cons c hs ih =>
    obtain ⟨-, lasts⟩ := lasts
    have hactive : (c.act n).value.2.isActive = true := by
      cases hs with
      | nil => exact lasts
      | cons => exact lasts.1
    have hnext := ih lasts (h.act sound closed c hactive) (sound_act c sound)
      (closed_act c sound closed)
    simp only [Node.handle, (h.matching sound c).node]
    exact hnext

end Node

end TickTree
