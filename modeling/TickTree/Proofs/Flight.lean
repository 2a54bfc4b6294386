import TickTree.Npc.Demo
import TickTree.Proofs.Character
import TickTree.Proofs.Standing
/-! Flight. In every tick that finds health low flight goes on, until health is safe or the signal
asks for cancellation. A tick that finds health no longer low ends flight, be it safe or not. -/
namespace TickTree.Npc

theorem health_flee {σ : Type} {s : Scope} {w : World σ}
    (h : health (w.board s.global) < lowHealth) (hc : w.isCancelled s.signal = false)
    (dt : Float32) :
    health ((flee s dt w).2.board s.global) = regained dt (w.board s.global) := by
  have hindex : s.global.index < w.boards.size := by
    by_contra hout
    rw [World.board, Array.getElem?_eq_none (Nat.le_of_not_lt hout)] at h
    exact absurd h (by decide +kernel)
  rw [flee_of_hurt h, if_neg (by simp [hc])]
  dsimp only
  rw [World.board_putBoard hindex, if_pos rfl, health, Board.getD, Board.get?_eq, Board.slot?_reset,
    if_pos rfl]
  rfl

def isFleeing (n : Node host) : Bool := (n.at? [0]).any (·.isActive)

def called (id : NodeId) (tr : List (Entry host.Note)) : List Hook := tr.filterMap fun
  | .hook v h => if v.id = id then some h else none
  | _ => none

theorem mem_called {id : NodeId} {tr : List (Entry host.Note)} {h : Hook} {v : View}
    (hv : v.id = id) (hh : .hook v h ∈ tr) : h ∈ called id tr :=
  List.mem_filterMap.mpr ⟨_, hh, if_pos hv⟩

theorem called_subset {id : NodeId} {tr tr' : List (Entry host.Note)} (h : ∀ e ∈ tr, e ∈ tr') :
    called id tr ⊆ called id tr' := List.filterMap_subset _ h

def Acted (id : NodeId) (dt : Float32) (answer : Answer) (tr : List (Entry host.Note)) : Prop :=
  .ticked dt ∈ called id tr ∧ .answered answer ∈ called id tr

structure Round where
  change : World host.State → World host.State
  dt : Float32

/-- The course of a flight over these rounds, in which a tick finds and leaves a board. -/
def Flight (id : NodeId) : List Round → Instance host → Realm host → Prop
  | [], _, _ => True
  | c :: rounds, i, r =>
    let s := (i.context.beginTick c.dt).scope
    let w := c.change r.world
    let o := i.tick c.dt { r with world := w }
    let found := w.board s.global
    let left := o.state.world.board s.global
    if health found < lowHealth then
      if w.isCancelled s.signal then
        Acted id c.dt (.ok .failure) o.trace ∧ isFleeing o.value.2.root = false
      else
        health left = regained c.dt found ∧
          if safeHealth ≤ health left then
            Acted id c.dt (.ok .success) o.trace ∧ o.value.1 = .ok .success ∧
              isFleeing o.value.2.root = false
          else
            Acted id c.dt (.ok .running) o.trace ∧ o.value.1 = .ok .running ∧
              isFleeing o.value.2.root = true ∧ Flight id rounds o.value.2 o.state
    else Hook.guarded 0 false ∈ called id o.trace ∧ isFleeing o.value.2.root = false

/-- What the runs of the character keep of the way it is built and stands. -/
structure Upright (ids : Supply) (n : Node host) : Prop where
  sound : n.Sound
  closed : n.Closed
  stands : n.Stands
  shape : n.shape = (character ids).shape
  plans : n.plans = (character ids).plans

variable {ids : Supply} {n : Node host}

theorem upright_execute (n : Node host) (s : Setting) (dt : Float32) (st : Stage host)
    (h : Upright ids n) : Upright ids (n.execute s dt st).value.2 :=
  ⟨Node.sound_execute s dt h.sound st, Node.closed_execute s dt h.sound h.closed st,
    Node.stands_execute s dt h.sound h.closed h.stands st,
    (Node.shape_execute s dt h.sound st).trans h.shape,
    (Node.plans_execute s dt h.sound st).trans h.plans⟩

theorem upright_settle (n : Node host) (h : Upright ids n) : Upright ids n.settle :=
  ⟨Node.sound_settle h.sound, Node.closed_settle h.closed, Node.stands_settle h.closed,
    n.shape_settle.trans h.shape, n.plans_settle.trans h.plans⟩

theorem upright_character (ids : Supply) : Upright ids (character ids) := by
  have hidle := idle_character ids
  have hclosed := Node.closed_of_idle hidle
  exact ⟨Node.sound_of_idle hidle, hclosed,
    Node.stands_of_inactive (hclosed.inactive rfl), rfl, rfl⟩

theorem Upright.parts (h : Upright ids n) : ∃ f g cs, n = .mk f (.mk g [] :: cs) ∧
    f.decorators = [] ∧ f.services = [] ∧ f.behavior.make = .selector ∧ Fleer g ∧
    g.id = ids.node := by
  obtain ⟨-, -, -, hshape, hplans⟩ := h
  obtain ⟨f, _ | ⟨⟨g, ds⟩, cs⟩⟩ := n
  all_goals simp [Node.shape, character] at hshape
  obtain ⟨hf, ⟨hg, rfl⟩, -⟩ := hshape
  simp only [character, Node.plans_mk, List.flatMap_cons, List.flatMap_nil, List.cons_append,
    List.cons.injEq] at hplans
  obtain ⟨hroot, hbranch, -⟩ := hplans
  have hid : g.bare.id = (fleer ids.node).bare.id := by rw [hg]
  exact ⟨f, g, cs, rfl, Frame.decorators_eq_of_bare hf, Frame.services_eq_nil_of_bare hf rfl,
    (Frame.plan_eq_iff.mp hroot).2, (fleer_fleer ids.node).of_plan hbranch, hid⟩

theorem isFleeing_eq {m : Node host} (h : n.children[0]? = some m) :
    isFleeing n = m.isActive := by
  obtain ⟨f, cs⟩ := n
  have h : cs[0]? = some m := h
  simp [isFleeing, Node.at?, h]

theorem Upright.front (h : Upright ids n) (hn : isFleeing n = true) : ∃ f g cs,
    n = .mk f (.mk g [] :: cs) ∧ f.Front ∧ Fleer g ∧ g.id = ids.node ∧
    (Node.mk g []).Sound := by
  obtain ⟨f, g, cs, rfl, hdecorators, hservices, hmake, hg, hid⟩ := h.parts
  obtain ⟨cursor, hcursor⟩ : ∃ cursor, f.behavior = .selector cursor := by
    cases hb : f.behavior with
    | selector cursor => exact ⟨cursor, rfl⟩
    | _ => rw [hb] at hmake; cases hmake
  obtain ⟨hactive, rfl⟩ := h.stands cursor hcursor 0 (.mk g []) rfl hn
  exact ⟨f, g, cs, rfl, ⟨hactive, hdecorators, hservices, hcursor⟩, hg, hid,
    (Node.all_mk.mp h.sound).2 _ (by simp)⟩

section Execute
variable (h : Upright ids n) (hn : isFleeing n = true) (s : Setting) (dt : Float32)
  (st : Stage host)
include h hn

theorem Upright.refused (hhealth : ¬ health (st.world.board s.scope.global) < lowHealth) :
    let o := n.execute s dt st
    Hook.guarded 0 false ∈ called ids.node o.trace ∧ isFleeing o.value.2 = false := by
  obtain ⟨f, g, cs, rfl, hf, hg, hid, -⟩ := h.front hn
  obtain ⟨hvalue, htrace⟩ := @execute_refused g [] s dt st hg hhealth
  refine ⟨mem_called hid (hf.trace htrace), ?_⟩
  have hroot := hf.execute (.mk g []) cs s dt st
  simp only [hvalue] at hroot
  obtain ⟨m, hm, rfl | rfl⟩ := hroot
  · exact (isFleeing_eq hm).trans (Node.isActive_settle _)
  · exact (isFleeing_eq hm).trans (Node.isActive_settle _)

/-- While health is low the action is ticked. Unless it has been cancelled its answer is that of the
whole tree, and flight goes on just when the answer says so. -/
theorem Upright.acted (hhealth : health (st.world.board s.scope.global) < lowHealth) :
    let o := n.execute s dt st
    ∃ answer, (flee s.scope dt st.world).1 = .ok answer ∧ Acted ids.node dt (.ok answer) o.trace ∧
      isFleeing o.value.2 = decide (answer = .running) ∧
      (answer ≠ .failure → o.value.1 = .ok answer ∧
        o.state.world = (flee s.scope dt st.world).2) := by
  obtain ⟨f, g, cs, rfl, hf, hg, hid, hsound⟩ := h.front hn
  obtain ⟨hanswer, hworld, hticked, hanswered⟩ := @execute_hurt g [] s dt st hg hhealth
  obtain ⟨answer, hflee⟩ := flee_ok hhealth dt
  have hanswer : ((Node.mk g []).execute s dt st).value.1 = .ok answer := by
    rw [hanswer, hflee]
    rfl
  rw [hanswer] at hanswered
  have hactive := Node.isActive_execute s dt hsound st answer hanswer
  have hroot := hf.execute (.mk g []) cs s dt st
  simp only [hanswer] at hroot
  refine ⟨answer, hflee,
    ⟨mem_called hid (hf.trace hticked), mem_called hid (hf.trace hanswered)⟩, ?_⟩
  cases answer with
  | running =>
    obtain ⟨hvalue, hstate⟩ := hroot
    rw [hvalue, hstate]
    exact ⟨(isFleeing_eq rfl).trans (hactive.mpr rfl), fun _ => ⟨rfl, hworld⟩⟩
  | success =>
    obtain ⟨hvalue, ⟨f', hnode⟩, hstate⟩ := hroot
    rw [hvalue, hnode, hstate]
    exact ⟨(isFleeing_eq rfl).trans (Node.isActive_settle _),
      fun _ => ⟨rfl, (world_conclude ..).trans hworld⟩⟩
  | failure =>
    obtain ⟨m, hm, hmeq⟩ := hroot
    refine ⟨(isFleeing_eq hm).trans ?_, fun h => absurd rfl h⟩
    obtain rfl | rfl := hmeq
    · simpa using hactive
    · exact Node.isActive_settle _

end Execute

section Tick
variable {i : Instance host} (h : Upright ids i.root) (hactive : i.active = true)
  (hn : isFleeing i.root = true) (dt : Float32) (r : Realm host)
include h hactive hn

theorem refused_of_tick
    (hhealth : ¬ health (r.world.board (i.context.beginTick dt).scope.global) < lowHealth) :
    let o := i.tick dt r
    Hook.guarded 0 false ∈ called ids.node o.trace ∧ isFleeing o.value.2.root = false := by
  obtain ⟨-, hroot, -, htrace, -⟩ := i.tick_of_active hactive dt r
  obtain ⟨hguarded, hended⟩ := h.refused hn _ dt ⟨r, i.context.rng⟩ hhealth
  exact ⟨called_subset htrace hguarded, hroot ▸ hended⟩

theorem acted_of_tick
    (hhealth : health (r.world.board (i.context.beginTick dt).scope.global) < lowHealth) :
    let o := i.tick dt r
    let fled := flee (i.context.beginTick dt).scope dt r.world
    ∃ answer, fled.1 = .ok answer ∧ Acted ids.node dt (.ok answer) o.trace ∧
      isFleeing o.value.2.root = decide (answer = .running) ∧
      (answer ≠ .failure → o.value.1 = .ok answer ∧ o.state.world = fled.2) := by
  obtain ⟨hvalue, hroot, hstate, htrace, -⟩ := i.tick_of_active hactive dt r
  obtain ⟨answer, hflee, ⟨hticked, hanswered⟩, hfleeing, hdone⟩ :=
    h.acted hn _ dt ⟨r, i.context.rng⟩ hhealth
  refine ⟨answer, hflee, ⟨called_subset htrace hticked, called_subset htrace hanswered⟩,
    hroot ▸ hfleeing, fun hanswer => ?_⟩
  obtain ⟨hroot, hworld⟩ := hdone hanswer
  exact ⟨hvalue.trans hroot, hstate ▸ hworld⟩

end Tick

theorem flight_of_upright {i : Instance host} (h : Upright ids i.root) (hactive : i.active = true)
    (hn : isFleeing i.root = true) (rounds : List Round) (r : Realm host) :
    Flight ids.node rounds i r := by
  induction rounds generalizing i r with
  | nil => trivial
  | cons c rounds ih =>
    rw [Flight]
    have hrefused := refused_of_tick h hactive hn c.dt { r with world := c.change r.world }
    have hacted := acted_of_tick h hactive hn c.dt { r with world := c.change r.world }
    obtain ⟨-, hroot, -, -, hgoing, -⟩ :=
      i.tick_of_active hactive c.dt { r with world := c.change r.world }
    dsimp only at hrefused hacted
    split
    · next hurt =>
      obtain ⟨answer, hflee, hacted, hfleeing, hdone⟩ := hacted hurt
      rw [flee_of_hurt hurt] at hflee
      split
      · next hcancelled =>
        rw [if_pos hcancelled] at hflee
        cases hflee
        exact ⟨hacted, hfleeing⟩
      · next hgoes =>
        rw [if_neg hgoes] at hflee
        obtain rfl := Except.ok.inj hflee
        obtain ⟨hvalue, hworld⟩ := hdone (by split <;> nofun)
        have hleft := health_flee hurt (by simpa using hgoes) c.dt
        rw [← hworld] at hleft
        refine ⟨hleft, ?_⟩
        rw [hleft]
        split
        · next hsafe =>
          rw [if_pos hsafe] at hacted hvalue hfleeing
          exact ⟨hacted, hvalue, hfleeing⟩
        · next hunsafe =>
          rw [if_neg hunsafe] at hacted hvalue hfleeing
          exact ⟨hacted, hvalue, hfleeing, ih (hroot ▸ upright_execute _ _ _ _ h)
            (hgoing hvalue) hfleeing _⟩
    · next hhealth => exact hrefused hhealth

/-- The tree of the character can be built. Whatever a host does with it and with the world, in any
context: once the branch that flees is in an activation, the following ticks of the tree take the
course of a flight. -/
theorem flight_of_tend (ids : Supply) (context : Context) (ds : List (Deed host))
    (r : Realm host) : ∃ root, ((tree parts).run ids).1 = .ok root ∧
      let o := tend ds [Instance.ofRoot root context] r
      ∀ i ∈ o.value.2, i.active = true → isFleeing i.root = true →
        ∀ rounds, Flight ids.node rounds i o.state := by
  refine ⟨character ids, run_tree ids, fun i hi hactive hn rounds => ?_⟩
  have hstart : ∀ j ∈ [Instance.ofRoot (character ids) context], Upright ids j.root := by
    intro j hj
    rw [List.mem_singleton.mp hj]
    exact upright_character ids
  have hroots := roots_tend upright_execute upright_settle ds hstart r
  exact flight_of_upright (hroots i hi) hactive hn rounds _

/-- With a health of 10 the character is in flight after one tick. -/
theorem flight_of_tend_hurt :
    let o := tend [.on 0 (.tick 0.5)] [Instance.ofRoot (character ⟨1, 0⟩) alone] hurtRealm
    ∃ i ∈ o.value.2, i.active = true ∧ isFleeing i.root = true ∧
      ∀ rounds, Flight 1 rounds i o.state := by
  intro o
  obtain ⟨root, hroot, hflight⟩ := flight_of_tend ⟨1, 0⟩ alone [.on 0 (.tick 0.5)] hurtRealm
  obtain rfl : character ⟨1, 0⟩ = root := Except.ok.inj hroot
  have hlength : 0 < o.value.2.length := by decide +kernel
  have hfleeing : ∀ i ∈ o.value.2, i.active = true ∧ isFleeing i.root = true := by decide +kernel
  obtain ⟨i, hi⟩ := List.exists_mem_of_length_pos hlength
  obtain ⟨hactive, hn⟩ := hfleeing i hi
  exact ⟨i, hi, hactive, hn, hflight i hi hactive hn⟩

/-- A run of the sample program, with an enemy in sight. Flight has won health back up to 52. Then
the guard ends it at 34, and the action is not ticked again. -/
theorem flight_ends_unsafe : ∃ begun,
    Demo.start ⟨1200, 0, some 6, true⟩ 6 none Demo.freshBoard = .ok begun ∧
      let d := (Demo.turns 4 0 begun.state).state
      let o := Demo.turn 4 d
      let d' := o.state
      (d.runner.running.any fun i => isFleeing i.root) = true ∧ health d.world = 52 ∧
        called 1 o.trace =
          [.executed 1.2, .guarded 0 false, .aborted 0, .returned (.ok .failure)] ∧
        (d'.runner.running.any fun i => isFleeing i.root) = false ∧ health d'.world = 34 := by
  refine ⟨_, rfl, ?_⟩
  decide +kernel

end TickTree.Npc
