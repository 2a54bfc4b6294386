import TickTree.Proofs.Beats
/-! What one tick of a node does with its children, and chronicles: what has been shown of a node,
activation by activation. What the ticks of a behavior keep within an activation holds of every
activation of every run. -/
namespace TickTree
variable {H : Host}

def story (rs : List Round) : List Beat := .begun :: rs.flatMap Round.beats

def fullStory (rs : List Round) : List Beat := story rs ++ [.ended]

theorem story_append (rs : List Round) (r : Round) : story (rs ++ [r]) = story rs ++ r.beats := by
  simp [story]

theorem fullStory_append (rs : List Round) (r : Round) :
    fullStory (rs ++ [r]) = story rs ++ (r.beats ++ [.ended]) := by
  rw [fullStory, story_append, List.append_assoc]

/-- How a node over `n` children, planned as `f`, goes through an activation: what holds of the
rounds of one that is over, and of the rounds and the behavior of one that goes on. Activations of it
start without a panic and without random numbers. -/
structure Course (n : Nat) (f : Frame H) (whole : List Round → Prop)
    (now : List Round → Behavior H → Prop) : Prop where
  start : ∀ {g : Frame H} {started : Except Panic Unit} {b : Behavior H} {drawn : List Draw},
    g.plan = f.plan → g.Starts n started b drawn → started = .ok () ∧ drawn = [] ∧ now [] b
  cut : ∀ {rs : List Round} {b : Behavior H}, now rs b → whole rs
  round : ∀ {dt : Float32} {rs : List Round} {r : Round} {b b' : Behavior H}, now rs b →
    b.Answers dt n r.log r.raw b' →
      whole (rs ++ [r]) ∧ ((f.Plain → Going r.raw) → now (rs ++ [r]) b')

namespace Frame
variable {f g : Frame H} {n : Nat} {bs new : List Beat} {whole : List Round → Prop}
  {now : List Round → Behavior H → Prop}

def Chronicled (whole : List Round → Prop) (now : List Round → Behavior H → Prop) (f : Frame H)
    (bs : List Beat) : Prop :=
  ∃ (past : List (List Round)) (rs : List Round),
    bs = past.flatMap fullStory ++ (if f.active then story rs else []) ∧
    (∀ rs ∈ past, whole rs) ∧ (f.active = true → now rs f.behavior)

theorem chronicled_idle (now : List Round → Behavior H → Prop) (past : List (List Round))
    (hpast : ∀ rs ∈ past, whole rs)
    (hf : f.active = false) : f.Chronicled whole now (past.flatMap fullStory) :=
  ⟨past, [], by simp [hf], hpast, by simp [hf]⟩

theorem Plain.of_plan (h : f.Plain) (hplan : g.plan = f.plan) : g.Plain := fun d hd =>
  h d (decorators_eq_of_bare (plan_eq_iff.mp hplan).1 ▸ hd)

namespace Chronicled

theorem cut {k : Frame H} (h : g.Chronicled whole now bs) (course : Course n k whole now) :
    g.settle.Chronicled whole now (bs ++ if g.active then [.ended] else []) := by
  obtain ⟨past, rs, rfl, hpast, hnow⟩ := h
  have hidle := g.active_settle
  by_cases hg : g.active = true
  · have hwhole := chronicled_idle now (past ++ [rs]) (List.forall_mem_append.mpr
      ⟨hpast, by simpa using course.cut (hnow hg)⟩) hidle
    simpa [hg, fullStory] using hwhole
  · simpa [hg] using chronicled_idle now past hpast hidle

theorem current {k : Frame H} (h : g.Chronicled whole now bs) (course : Course n k whole now)
    (hplan : g.plan = k.plan) {b : Behavior H} {drawn : List Draw}
    (starts : g.active = false → g.Starts n (.ok ()) b drawn)
    (goes : g.active = true → b = g.behavior) :
    ∃ (past : List (List Round)) (rs : List Round),
      bs ++ (if g.active then [] else .begun :: drawn.map .drew) =
        past.flatMap fullStory ++ story rs ∧ (∀ rs ∈ past, whole rs) ∧ now rs b := by
  obtain ⟨past, rs, rfl, hpast, hnow⟩ := h
  by_cases hg : g.active = true
  · exact ⟨past, rs, by simp [hg], hpast, (goes hg) ▸ hnow hg⟩
  · have hg : g.active = false := by simpa using hg
    obtain ⟨-, rfl, hstart⟩ := course.start hplan (starts hg)
    exact ⟨past, [], by simp [hg, story], hpast, hstart⟩

theorem pulse {k : Frame H} (h : f.Chronicled whole now bs) (course : Course n k whole now)
    (hplan : f.plan = k.plan) (hp : f.Pulse n new g) : g.Chronicled whole now (bs ++ new) := by
  cases hp with
  | cut => exact h.cut course
  | panicked idle starts => cases (course.start hplan starts).1
  | @ticked dt b b' drawn r g starts goes answers keeps ends =>
    obtain ⟨past, rs, hbs, hpast, hnow⟩ := h.current course hplan starts goes
    obtain ⟨hover, hgoes⟩ := course.round hnow answers
    rw [← List.append_assoc, hbs]
    by_cases hg : g.active = true
    · have hgoing (plain : k.Plain) : Going r.raw := by
        by_contra hr
        rw [ends (plain.of_plan hplan) hr] at hg
        cases hg
      exact ⟨past, rs ++ [r], by simp [hg, story_append], hpast, fun _ => keeps hg ▸ hgoes hgoing⟩
    · have hwhole := chronicled_idle now (past ++ [rs ++ [r]])
        (List.forall_mem_append.mpr ⟨hpast, by simpa using hover⟩) (f := g) (by simpa using hg)
      simpa [hg, fullStory_append] using hwhole

end Chronicled
end Frame

namespace Node

theorem Sound.below {n : Node H} (h : n.Sound) : ∀ c ∈ n.children, c.Sound := by
  obtain ⟨f, cs⟩ := n
  exact (all_mk.mp h).2

theorem Closed.below {n : Node H} (h : n.Closed) : ∀ c ∈ n.children, c.Closed := by
  obtain ⟨f, cs⟩ := n
  exact (all_mk.mp h).2

theorem visits_head {P : Law H} {s : Setting} {dt : Float32} (before : List (Node H))
    {cs cs' : List (Node H)} {c : Node H} {a : Answer} {log : Log} {st st' : Stage H}
    {tr : List (Entry H.Note)}
    (h : Visits (P.During s dt) ((before.length, a) :: log) (before ++ c :: cs) st cs' st' tr) :
    ∃ c' st₁ tr₁ tr₂, c.execute s dt st = ⟨(a, c'), st₁, tr₁⟩ ∧ tr = tr₁ ++ tr₂ ∧
      Visits (P.During s dt) log (before ++ c' :: cs) st₁ cs' st' tr₂ := by
  cases h with
  | cons fresh child law rest =>
    obtain rfl : c = _ := by simpa using child
    exact ⟨_, _, _, _, law.2.2.symm, rfl, by simpa using rest⟩

/-- The tick of a node that its guards let through. Its behavior, which `b` is before the tick,
executes children and answers. What it leaves stays as long as the node goes on. -/
inductive Tick (s : Setting) (dt : Float32) (n : Node H) :
    Outcome (Stage H) (Entry H.Note) (Answer × Node H) → Prop
  | mk {b b' : Behavior H} {log : Log} {raw answer : Answer} {cs' : List (Node H)} {m : Node H}
    {st₁ st₂ st' : Stage H} {before tr after : List (Entry H.Note)} {v : View}
    (made : b.make = n.frame.behavior.make) (goes : n.isActive = true → b = n.frame.behavior)
    (own : Mine n.id (calls before))
    (visits : Visits (Law.During (fun _ _ _ => True) s dt) log n.children st₁ cs' st₂ tr)
    (answers : b.Answers dt n.children.length log raw b')
    (stops : ∀ stop, raw = .error stop → answer = raw ∧ m.isActive = true)
    (keeps : m.isActive = true → m.children = cs' ∧ m.frame.behavior = b') :
    Tick s dt n ⟨(answer, m), st', before ++ (tr ++ .hook v (.answered raw) :: after)⟩

theorem tick_execute (s : Setting) (dt : Float32) {n : Node H} (sound : n.Sound)
    (smooth : n.frame.behavior.make.Smooth) {st : Stage H}
    (passed : (Frame.guards s n.frame.view 0 n.frame.decorators st).value = true) :
    n.Tick s dt (n.execute s dt st) := by
  obtain ⟨f, cs⟩ := n
  obtain ⟨hf, hcs⟩ := all_mk.mp sound
  have hbranches : ∀ b ∈ branches s dt cs, b.Obeys (Law.During (fun _ _ _ => True) s dt) :=
    forall_mem_branches.mpr fun c hc st => ⟨trivial, hcs c hc, rfl⟩
  have h := Frame.execute_spec s dt (by rwa [length_branches]) hbranches st (f := f)
  rw [map_node_branches] at h
  change (mk f cs).Tick s dt (f.execute s dt (branches s dt cs) st)
  generalize f.execute s dt (branches s dt cs) st = o at h
  cases h with
  | refused guarded => cases (congrArg Outcome.value guarded).symm.trans passed
  | @panicked p f' st₁ st' tr tr' guarded activated =>
    have hok := f.activate_ok smooth s cs.length st₁
    rw [activated] at hok
    cases hok
  | @ticked f' as raw answer b cs' m st₁ st₂ st₃ st₄ st' tr₁ tr₂ tr₃ tr₄ tr₅ guarded activated
      served fits ticked resolved =>
    have hmade := f.make_activate s cs.length st₁
    rw [activated] at hmade
    cases ticked with
    | @mk _ _ _ log st₀ _ trc tr₀ tables resumes visits answers =>
      obtain ⟨hheld, hmine⟩ := Frame.mine_before guarded activated served resumes
      have hstops : ∀ stop, raw = .error stop → answer = raw ∧ m.isActive = true := by
        rintro stop rfl
        cases resolved
        exact ⟨rfl, hheld.active⟩
      have hkeeps : m.isActive = true → m.children = cs' ∧ m.frame.behavior = b := by
        intro hactive
        obtain ⟨hb, -, hchildren⟩ | ⟨hidle, -⟩ := resolved.children
        · exact ⟨hchildren, hb⟩
        · cases hidle.symm.trans hactive
      obtain ⟨-, -, hgoes, -⟩ := Frame.opens_of_activate activated []
      have htick : (mk f cs).Tick s dt ⟨(answer, m), st', _ ++ (trc ++
          .hook f'.view (.answered raw) :: (tr₅ ++ [.hook m.view (.returned answer)]))⟩ :=
        .mk hmade hgoes hmine visits answers hstops hkeeps
      simpa using htick

structure Remains (n m : Node H) : Prop where
  sound : m.Sound
  closed : m.Closed
  shape : m.shape = n.shape
  plans : m.plans = n.plans

theorem Remains.of_idle {n : Node H} (idle : n.Idle) (hs : List (Handling H)) :
    n.Remains (n.handle hs).1 :=
  handle_keeps (fun c _ h => ⟨sound_act c h.sound, closed_act c h.sound h.closed,
    (shape_act c h.sound).trans h.shape, (plans_act c h.sound).trans h.plans⟩) hs
    ⟨sound_of_idle idle, closed_of_idle idle, rfl, rfl⟩

variable {whole : List Round → Prop} {now : List Round → Behavior H → Prop}

theorem chronicled_handle (hs : List (Handling H)) {n : Node H} (sound : n.Sound)
    (distinct : n.ids.Nodup) (course : Course n.children.length n.frame whole now) {bs : List Beat}
    (hbs : n.frame.Chronicled whole now bs) :
    (n.handle hs).1.frame.Chronicled whole now (bs ++ beats n.id n.kids (n.handle hs).2) :=
  shown_handle (fun hplan hbs hp => hbs.pulse course hplan hp) hs sound distinct hbs

end Node

/-- In every run a node goes through its activations as its course says, and nothing but calls on it
happens to it. -/
theorem chronicled_play (ms : List (Move H)) {t : Rooted H} (idle : t.root.Idle)
    (distinct : t.root.ids.Nodup) (st : Stage H) {path : List Nat} {n : Node H}
    (hn : t.root.at? path = some n) {whole : List Round → Prop}
    {now : List Round → Behavior H → Prop} (course : Course n.children.length n.frame whole now) :
    ∃ (hs : List (Handling H)) (past : List (List Round)) (rs : List Round),
      (play ms t st).value.2.root.at? path = some (n.handle hs).1 ∧ n.Remains (n.handle hs).1 ∧
      (∀ p, Only n.ids p → (play ms t st).trace.filter p = (n.handle hs).2.filter p) ∧
      beats n.id n.kids (play ms t st).trace =
        past.flatMap fullStory ++ (if (n.handle hs).1.isActive then story rs else []) ∧
      (∀ rs ∈ past, whole rs) ∧
      ((n.handle hs).1.isActive = true → now rs (n.handle hs).1.frame.behavior) := by
  have hidle : n.Idle := Node.idle_at? idle hn
  obtain ⟨m, hm, hunder⟩ := undergoes_play ms ⟨Node.sound_of_idle idle, distinct⟩ st hn
  obtain ⟨hs, rfl, hsame⟩ := hunder.calls
  have hnone : n.frame.Chronicled whole now [] :=
    Frame.chronicled_idle now [] (by simp) (Node.isActive_of_idle hidle)
  obtain ⟨past, rs, hstory, hpast, hnow⟩ := Node.chronicled_handle hs (Node.sound_of_idle hidle)
    (distinct.sublist (Node.sublist_at? hn)) course hnone
  exact ⟨hs, past, rs, hm, .of_idle hidle hs, hsame, (Node.beats_eq_of_same hsame).trans hstory,
    hpast, hnow⟩

end TickTree
