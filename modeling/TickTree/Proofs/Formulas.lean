import TickTree.Proofs.Sessions
/-! Trees of conditions compute formulas: a tree that only asks conditions and combines what they
say answers within one tick whether its formula holds, in whatever order children are tried. -/
namespace TickTree
variable {H : Host} {α β : Type} {B : Array Board}

/-- Over these boards the result has the property, and the boards stay as they are. -/
def Exec.Yields (B : Array Board) (Q : α → Prop) (x : Exec H α) : Prop :=
  ∀ st, st.world.boards = B → Q (x st).value ∧ (x st).state.world.boards = B

namespace Exec
variable {P Q : α → Prop} {R : β → Prop} {x : Exec H α} {f : α → Exec H β}

theorem Yields.pure {a : α} (h : Q a) : Yields B Q (pure a : Exec H α) := fun _ hst => ⟨h, hst⟩

theorem Yields.bind (hx : Yields B Q x) (hf : ∀ a, Q a → Yields B R (f a)) :
    Yields B R (x >>= f) := by
  intro st hst
  obtain ⟨hvalue, hboards⟩ := hx st hst
  exact hf _ hvalue _ hboards

theorem Yields.imp (hx : Yields B P x) (h : ∀ a, P a → Q a) : Yields B Q x := fun st hst =>
  ⟨h _ (hx st hst).1, (hx st hst).2⟩

theorem yields_still (hworld : ∀ st, (x st).state.world = st.world) (hQ : ∀ st, Q (x st).value) :
    Yields B Q x := fun st hst => ⟨hQ st, by rw [hworld, hst]⟩

theorem Yields.after {x : Exec H Unit} {f : Unit → Exec H β}
    (hworld : ∀ st, (x st).state.world = st.world) (hf : Yields B R (f ())) :
    Yields B R (x >>= f) :=
  (yields_still (Q := fun _ => True) hworld fun _ => trivial).bind fun _ _ => hf

end Exec

open Exec (Yields)

/-- A condition that the boards decide. Asking it leaves them alone. -/
def Host.Decides (H : Host) (s : Scope) (c : H.Condition) (truth : Array Board → Bool) : Prop :=
  ∀ w, (H.check c s w).value.1 = truth w.boards ∧ (H.check c s w).state.boards = w.boards

namespace Behavior

def Logical : Behavior H → Prop
  | selector _ | randomSelector .. | parallel .. | condition _ => True
  | _ => False

/-- What the behavior makes of the verdicts on its children, if conditions hold as `truth` says. -/
def verdict (truth : H.Condition → Bool) (votes : List Bool) : Behavior H → Bool
  | selector _ | randomSelector .. => votes.any id
  | parallel success _ => votes.isEmpty || success.needed votes.length ≤ votes.count true
  | condition c => truth c
  | _ => false

inductive Begins (children : Nat) : Behavior H → Behavior H → Prop
  | selector {cursor : Nat} : Begins children (.selector cursor) (.selector 0)
  | randomSelector {cursor : Nat} {order order' : List Nat}
    (h : order'.Perm (List.range children)) :
    Begins children (.randomSelector cursor order) (.randomSelector 0 order')
  | parallel {p q : Policy} : Begins children (.parallel p q) (.parallel p q)
  | condition {c : H.Condition} : Begins children (.condition c) (.condition c)

end Behavior

/-- A node of a formula: it asks or combines, and its decorators negate. -/
structure Frame.Logical (f : Frame H) : Prop where
  services : f.services = []
  decorators : ∀ d ∈ f.decorators, d = .inverter
  behavior : f.behavior.Logical

def negated (ds : List (Decorator H)) (v : Bool) : Bool := ds.foldl (fun v _ => !v) v

mutual
def Node.holds (truth : H.Condition → Bool) : Node H → Bool
  | mk f cs => negated f.decorators (f.behavior.verdict truth (holdsAll truth cs))

def Node.holdsAll (truth : H.Condition → Bool) : List (Node H) → List Bool
  | [] => []
  | c :: cs => holds truth c :: holdsAll truth cs
end

theorem Node.holdsAll_eq_map (truth : H.Condition → Bool) (cs : List (Node H)) :
    holdsAll truth cs = cs.map (holds truth) := by
  induction cs with
  | nil => rfl
  | cons c cs ih => rw [holdsAll, ih, List.map_cons]

/-- Votes that are all terminal are decided by the policy for success alone. -/
theorem vote_ofBool (p q : Policy) (vs : List Bool) : vote p q (vs.map Status.ofBool) =
    .ofBool (vs.isEmpty || p.needed vs.length ≤ vs.count true) := by
  have hsuccess : (vs.map Status.ofBool).count .success = vs.count true := by
    induction vs with
    | nil => rfl
    | cons v vs ih => cases v <;> simp [Status.ofBool, ih]
  have hrunning : (vs.map Status.ofBool).count .running = 0 := by
    rw [List.count_eq_zero, List.mem_map]
    rintro ⟨v, -, hv⟩
    cases v <;> cases hv
  have hmet := Policy.isMet_iff (p := p) (List.count_le_length : vs.count true ≤ vs.length)
  rw [vote, List.length_map, hsuccess, hrunning]
  cases vs with
  | nil => rfl
  | cons v vs =>
    by_cases hp : p.needed (v :: vs).length ≤ (v :: vs).count true
    · rw [if_neg (by simp), if_pos (hmet.mpr hp), decide_eq_true hp]
      rfl
    · have hunmet := fun h => hp (hmet.mp h)
      rw [if_neg (by simp), if_neg hunmet, decide_eq_false hp]
      simp [Status.ofBool]

namespace Frame
variable {s : Setting} {v : View} {slot : Nat} {ds : List (Decorator H)}

theorem yields_guards (hds : ∀ d ∈ ds, d = .inverter) :
    Yields B (· = true) (guards s v slot ds) := by
  induction ds generalizing slot with
  | nil => exact .pure rfl
  | cons d ds ih =>
    obtain ⟨rfl, hrest⟩ := List.forall_mem_cons.mp hds
    refine Yields.bind (Q := (· = true)) (.pure rfl) ?_
    rintro _ rfl
    exact .after (fun _ => rfl) (ih hrest)

theorem yields_modify {dt : Float32} (hds : ∀ d ∈ ds, d = .inverter) (b : Bool) :
    Yields B (· = .ofBool (negated ds b)) (modify s v dt slot ds (.ofBool b)) := by
  induction ds generalizing slot b with
  | nil => exact .pure rfl
  | cons d ds ih =>
    obtain ⟨rfl, hrest⟩ := List.forall_mem_cons.mp hds
    have hinverted : (Status.ofBool b).invert = .ofBool (!b) := Status.invert_ofBool b
    refine Yields.bind (Q := (· = .ofBool (!b))) (.pure hinverted) ?_
    rintro _ rfl
    exact .after (fun _ => rfl) (ih hrest (!b))

theorem world_tellFinished {result : Status} (hds : ∀ d ∈ ds, d = .inverter) (st : Stage H) :
    (tellFinished s v result slot ds st).state.world = st.world := by
  induction ds generalizing slot with
  | nil => rfl
  | cons d ds ih =>
    obtain ⟨rfl, hrest⟩ := List.forall_mem_cons.mp hds
    exact ih hrest

theorem yields_activate {f : Frame H} (hf : f.Logical) (idle : f.active = false) (n : Nat) :
    Yields B (fun o => o.1 = .ok () ∧ ∃ b, f.behavior.Begins n b ∧
      o.2 = { f with active := true, time := 0, behavior := b }) (f.activate s n) := by
  obtain ⟨id, name, ds, as, b, active, time⟩ := f
  obtain ⟨rfl, hds, hb⟩ := hf
  obtain rfl : active = false := idle
  rw [activate, if_neg (by simp)]
  refine .after (fun _ => rfl) (.after (fun _ => rfl) ?_)
  cases b with
  | selector cursor => exact .pure ⟨rfl, _, .selector, rfl⟩
  | parallel p q => exact .pure ⟨rfl, _, .parallel, rfl⟩
  | condition c => exact .pure ⟨rfl, _, .condition, rfl⟩
  | randomSelector cursor order =>
    exact Exec.yields_still (fun _ => rfl) fun _ =>
      ⟨rfl, _, .randomSelector (perm_arrange _ _), rfl⟩
  | _ => cases hb

end Frame

def Branch.Yields (B : Array Board) (v : Bool) (b : Branch H) : Prop :=
  b.node.Idle ∧ Exec.Yields B (fun o => o.1 = .ok (.ofBool v) ∧ o.2.Idle) b.run

namespace Branch
variable {vs : List Bool} {bs : List (Branch H)}

theorem yields_walk (h : List.Forall₂ (Branch.Yields B) vs bs) (cursor : Nat) {order : List Nat}
    (inside : ∀ i ∈ order, i < bs.length) :
    Exec.Yields B (fun o => o.1 = .ok (.ofBool (order.any fun i => vs[i]?.getD false)) ∧
      List.Forall₂ (Branch.Yields B) vs o.2.2) (walk .failure cursor order bs) := by
  induction order generalizing cursor bs with
  | nil => exact .pure ⟨rfl, h⟩
  | cons i order ih =>
    obtain ⟨hi, hrest⟩ := List.forall_mem_cons.mp inside
    obtain ⟨-, hb⟩ | ⟨v, b, hv, hb, hyields⟩ := forall₂_at h i
    · rw [List.getElem?_eq_none_iff] at hb
      omega
    rw [walk, hb, List.any_cons, hv, Option.getD_some]
    refine hyields.2.bind ?_
    rintro ⟨answer, n⟩ ⟨rfl, hidle⟩
    have hset : List.Forall₂ (Branch.Yields B) vs (bs.set i (b.done n)) := by
      have hvs : vs.set i v = vs := by
        obtain ⟨hlt, rfl⟩ := List.getElem?_eq_some_iff.mp hv
        exact List.set_getElem_self hlt
      have hdone : Branch.Yields B v (b.done n) := ⟨hidle, hyields.2⟩
      exact hvs ▸ forall₂_set h i hdone
    cases v with
    | true =>
      dsimp only
      rw [if_neg (by decide)]
      exact .pure ⟨rfl, hset⟩
    | false =>
      dsimp only
      rw [if_pos (by decide), Bool.false_or]
      exact ih hset (cursor + 1) (by simpa using hrest)

theorem yields_runAll (h : List.Forall₂ (Branch.Yields B) vs bs) :
    Exec.Yields B (fun o => o.1 = .ok (vs.map Status.ofBool) ∧
      List.Forall₂ (Branch.Yields B) vs o.2) (runAll bs) := by
  induction h with
  | nil => exact .pure ⟨rfl, .nil⟩
  | cons h _ ih =>
    refine h.2.bind ?_
    rintro ⟨answer, n⟩ ⟨rfl, hidle⟩
    refine ih.bind ?_
    rintro ⟨results, bs⟩ ⟨rfl, hbs⟩
    exact .pure ⟨rfl, .cons ⟨hidle, h.2⟩ hbs⟩

end Branch

/-- Whether one of the verdicts is positive does not depend on the order in which they are read. -/
theorem any_order {vs : List Bool} {order : List Nat} (h : order.Perm (List.range vs.length)) :
    (order.any fun i => vs[i]?.getD false) = vs.any id := by
  have hrange : (List.range vs.length).map (fun i => vs[i]?.getD false) = vs := by
    refine List.ext_getElem (by simp) fun i hi _ => ?_
    simp only [List.length_map, List.length_range] at hi
    simp [hi]
  calc (order.any fun i => vs[i]?.getD false)
      = (List.range vs.length).any fun i => vs[i]?.getD false := h.any_eq
    _ = ((List.range vs.length).map fun i => vs[i]?.getD false).any id := by simp [List.any_map]
    _ = vs.any id := by rw [hrange]

theorem Behavior.yields_tick {s : Setting} {v : View} {dt : Float32} {b b' : Behavior H}
    {vs : List Bool} {bs : List (Branch H)} {truth : H.Condition → Array Board → Bool}
    (decides : ∀ c, b = .condition c → H.Decides s.scope c (truth c))
    (begins : b.Begins bs.length b') (h : List.Forall₂ (Branch.Yields B) vs bs) :
    Yields B (fun o => o.1 = .ok (.ofBool (b.verdict (truth · B) vs)) ∧ o.2.1.Logical ∧
      List.Forall₂ (Branch.Yields B) vs o.2.2) (b'.tick s v dt bs) := by
  cases begins with
  | selector =>
    refine (Branch.yields_walk h 0 (by simp)).bind ?_
    rintro ⟨answer, cursor, bs'⟩ ⟨rfl, hbs⟩
    refine .pure ⟨?_, trivial, hbs⟩
    rw [List.drop_zero, ← h.length_eq, any_order (.refl _)]
    rfl
  | @randomSelector _ _ order horder =>
    have inside : ∀ i ∈ order, i < bs.length := fun i hi =>
      List.mem_range.mp (horder.mem_iff.mp hi)
    refine (Branch.yields_walk h 0 inside).bind ?_
    rintro ⟨answer, cursor, bs'⟩ ⟨rfl, hbs⟩
    refine .pure ⟨?_, trivial, hbs⟩
    rw [any_order (h.length_eq ▸ horder)]
    rfl
  | @parallel p q =>
    refine (Branch.yields_runAll h).bind ?_
    rintro ⟨results, bs'⟩ ⟨rfl, hbs⟩
    exact .pure ⟨congrArg Except.ok (vote_ofBool p q vs), trivial, hbs⟩
  | @condition c =>
    have hcheck : Yields B (fun o => o.1 = truth c B) (Exec.look (H.check c s.scope)) := by
      intro st hst
      obtain ⟨hvalue, hboards⟩ := decides c rfl st.world
      exact ⟨by simpa [hst] using hvalue, by simpa [hst] using hboards⟩
    refine hcheck.bind ?_
    rintro ⟨holds, c'⟩ rfl
    exact .pure ⟨rfl, trivial, h⟩

namespace Frame
variable {s : Setting} {dt : Float32} {f : Frame H}

theorem world_conclude {result : Status} (hf : f.Logical) {cs : List (Node H)}
    (idle : ∀ c ∈ cs, c.Idle) (st : Stage H) :
    (f.conclude s result cs st).state.world = st.world := by
  obtain ⟨id, name, ds, as, b, active, time⟩ := f
  obtain ⟨rfl, hds, hb⟩ := hf
  rw [conclude, Node.abortAll_of_idle s fun c hc => Node.isActive_of_idle (idle c hc)]
  cases b with
  | selector | randomSelector | parallel | condition => exact world_tellFinished hds _
  | _ => cases hb

variable {vs : List Bool} {bs : List (Branch H)} {truth : H.Condition → Array Board → Bool}

theorem yields_advance {b : Behavior H} (services : f.services = [])
    (decorators : ∀ d ∈ f.decorators, d = .inverter) (begins : b.Begins bs.length f.behavior)
    (decides : ∀ c, b = .condition c → H.Decides s.scope c (truth c))
    (h : List.Forall₂ (Branch.Yields B) vs bs) :
    Yields B (fun o => o.1 = .ok (.ofBool (negated f.decorators (b.verdict (truth · B) vs))))
      (f.advance s dt bs) := by
  obtain ⟨id, name, ds, as, b₁, active, time⟩ := f
  obtain rfl : as = [] := services
  refine Yields.bind (Q := (· = [])) (.pure rfl) ?_
  rintro _ rfl
  refine .after (fun _ => rfl) ((Behavior.yields_tick decides begins h).bind ?_)
  rintro ⟨raw, b₂, bs'⟩ ⟨rfl, hb₂, hbs⟩
  refine .after (fun _ => rfl) ((yields_modify decorators _).bind ?_)
  rintro _ rfl
  dsimp only
  rw [if_pos (Status.isTerminal_ofBool _)]
  have hidle : ∀ c ∈ bs'.map (·.node), c.Idle := by
    intro c hc
    obtain ⟨b, hb, rfl⟩ := List.mem_map.mp hc
    obtain ⟨v, -, hyields⟩ := exists_left hbs hb
    exact hyields.1
  have hlogical : Frame.Logical (H := H) ⟨id, name, ds, [], b₂, active, time + dt⟩ :=
    ⟨rfl, decorators, hb₂⟩
  refine Yields.bind (Q := fun _ => True) (Exec.yields_still (fun st => ?_) fun _ => trivial)
    fun _ _ => .pure rfl
  exact world_conclude hlogical hidle st

theorem yields_execute (hf : f.Logical) (idle : f.active = false)
    (decides : ∀ c, f.behavior = .condition c → H.Decides s.scope c (truth c))
    (h : List.Forall₂ (Branch.Yields B) vs bs) :
    Yields B (fun o => o.1 = .ok (.ofBool (negated f.decorators (f.behavior.verdict (truth · B) vs))))
      (f.execute s dt bs) := by
  have hrun : Yields B (fun o =>
      o.1 = .ok (.ofBool (negated f.decorators (f.behavior.verdict (truth · B) vs))))
      (f.run s dt bs) := by
    refine (yields_guards hf.decorators).bind ?_
    rintro _ rfl
    refine (yields_activate hf idle bs.length).bind ?_
    rintro ⟨started, f'⟩ ⟨rfl, b, hbegins, rfl⟩
    exact yields_advance hf.services hf.decorators hbegins decides h
  refine .after (fun _ => rfl) (hrun.bind fun o ho => ?_)
  exact .after (fun _ => rfl) (.pure ho)

end Frame

/-- A tree of conditions answers whether its formula holds. -/
theorem Node.yields_execute {s : Setting} (dt : Float32)
    {truth : H.Condition → Array Board → Bool} {n : Node H} (idle : n.Idle)
    (logical : ∀ f ∈ n.frames, f.Logical)
    (decides : ∀ f ∈ n.frames, ∀ c, f.behavior = .condition c → H.Decides s.scope c (truth c)) :
    Yields B (fun o => o.1 = .ok (.ofBool (n.holds (truth · B))) ∧ o.2.Idle) (n.execute s dt) := by
  induction n with
  | mk f cs ih =>
    have hf : f ∈ (mk f cs).frames := frame_mem_frames _
    have hcs (c : Node H) (hc : c ∈ cs) {g : Frame H} (hg : g ∈ c.frames) :
        g ∈ (mk f cs).frames := by
      rw [frames_mk]
      exact List.mem_cons_of_mem _ (List.mem_flatMap.mpr ⟨c, hc, hg⟩)
    have hbranches : List.Forall₂ (Branch.Yields B) (holdsAll (truth · B) cs) (branches s dt cs) := by
      rw [holdsAll_eq_map, branches_eq_map, List.forall₂_map_left_iff, List.forall₂_map_right_iff,
        List.forall₂_same]
      intro c hc
      exact ⟨idle.below c hc, ih c hc (idle.below c hc) (fun g hg => logical g (hcs c hc hg))
        fun g hg => decides g (hcs c hc hg)⟩
    intro st hst
    have hyields : Yields B _ (f.execute s dt (branches s dt cs)) :=
      Frame.yields_execute (logical f hf) (idle f hf) (decides f hf) hbranches
    obtain ⟨hanswer, hboards⟩ := hyields st hst
    refine ⟨⟨hanswer, ?_⟩, hboards⟩
    exact idle_execute (sound_of_idle idle) (closed_of_idle idle) hanswer (Status.isTerminal_ofBool _)

/-- Whatever random numbers there are to draw, one execution of a tree of conditions answers whether
its formula holds of the boards, leaves the tree idle, and leaves the boards as they are. -/
theorem formula_of_execute {truth : H.Condition → Array Board → Bool} {n : Node H} (idle : n.Idle)
    (logical : ∀ f ∈ n.frames, f.Logical) {s : Setting}
    (decides : ∀ f ∈ n.frames, ∀ c, f.behavior = .condition c → H.Decides s.scope c (truth c))
    (dt : Float32) (st : Stage H) :
    let o := n.execute s dt st
    o.value.1 = .ok (.ofBool (n.holds (truth · st.world.boards))) ∧ o.value.2.Idle ∧
      o.state.world.boards = st.world.boards ∧
      ∀ rng, (n.execute s dt { st with rng := rng }).value.1 = o.value.1 := by
  intro o
  obtain ⟨⟨hanswer, hidle⟩, hboards⟩ :=
    Node.yields_execute dt idle logical decides st rfl
  refine ⟨hanswer, hidle, hboards, fun rng => ?_⟩
  have hother := Node.yields_execute dt idle logical decides { st with rng := rng } rfl
  exact hother.1.1.trans hanswer.symm

def Host.reader : Host :=
  { Host.echo with
    Condition := UInt32
    check := fun key s w => ⟨((w.board s.own).getD key .bool false, key), w, []⟩ }

def Frame.asking (id : NodeId) (key : UInt32) : Frame Host.reader :=
  Frame.idle (H := Host.reader) id "" (.condition key)

/-- Not the first key, or at least two of these: the second key, and either key. -/
def Rooted.formula : Rooted Host.reader where
  setting := Rooted.echo.setting
  root := .mk (Frame.idle 1 "" (.randomSelector 0 []))
    [.mk { Frame.asking 2 1 with decorators := [.inverter] } [],
     .mk (Frame.idle 3 "" (.parallel (.threshold 2) .any))
      [.mk (Frame.asking 4 2) [], .mk (Frame.idle 5 "" (.selector 0))
        [.mk (Frame.asking 6 1) [], .mk (Frame.asking 7 2) []]]]

theorem formula_of_execute_reader :
    let t := Rooted.formula
    let board := (Board.empty.reset 1 .bool true).reset 2 .bool true
    let st : Stage Host.reader := ⟨⟨⟨#[.empty, .empty, board], #[], ()⟩, .empty⟩, .ofSeed 7⟩
    t.root.Idle ∧ (∀ f ∈ t.root.frames, f.Logical) ∧
      (t.root.execute t.setting 1 st).value.1 = .ok .success := by
  intro t board st
  let truth (key : UInt32) (boards : Array Board) : Bool :=
    (boards[2]?.getD Board.empty).getD key .bool false
  have hidle : t.root.Idle := by decide
  have hlogical : ∀ f ∈ t.root.frames, f.Logical := by
    intro f hf
    simp only [t, Rooted.formula, Node.frames_mk, List.flatMap_cons, List.flatMap_nil,
      List.append_nil, List.mem_cons, List.mem_append, List.not_mem_nil, or_false] at hf
    rcases hf with rfl | rfl | rfl | rfl | rfl | rfl | rfl <;>
      exact ⟨rfl, by simp [Frame.idle, Frame.asking], trivial⟩
  have hdecides : ∀ f ∈ t.root.frames, ∀ c, f.behavior = .condition c →
      Host.reader.Decides t.setting.scope c (truth c) := fun _ _ _ _ _ => ⟨rfl, rfl⟩
  have hholds : t.root.holds (truth · st.world.boards) = true := by decide +kernel
  obtain ⟨hanswer, -⟩ := formula_of_execute hidle hlogical hdecides 1 st
  exact ⟨hidle, hlogical, by rw [hanswer, hholds]; rfl⟩

end TickTree
