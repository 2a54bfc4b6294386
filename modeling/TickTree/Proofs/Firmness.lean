import TickTree.Proofs.Groves
/-! Trees that never stop and trees that never fail. What a node is made as stays over any run. A
tree gives a result as long as its leaves do, and a selector that has still to come to a child that
does not fail does not fail. -/
namespace TickTree
variable {H : Host}

inductive Make where
  | selector
  | randomSelector
  | parallel (success failure : Policy)
  | sequence
  | relay
  | repeater (limit : Option Nat) (lenient : Bool)
  | action
  | condition
  | wait (duration variance : Float32)

/-- A behavior made so stops only where a child of it does. -/
def Make.Smooth : Make → Prop
  | action => False
  | wait _ variance => 0 < variance → (Rng.scale? variance).isSome
  | _ => True

def Make.Waits : Make → Prop
  | wait .. => True
  | _ => False

def Make.Selects : Make → Prop
  | selector | randomSelector => True
  | _ => False

theorem Wait.start_span (w : Wait) (r : Rng) :
    (w.start r).2.1.duration = w.duration ∧ (w.start r).2.1.variance = w.variance := by
  rw [start]
  dsimp only
  split
  · split <;> exact ⟨rfl, rfl⟩
  · exact ⟨rfl, rfl⟩

/-- A wait starts over with its duration as the target, to which a number is added if there is a
variance to draw it from. -/
theorem Wait.start_cases (w : Wait) (r : Rng) : (w.start r).2.1.elapsed = 0 ∧
    (¬ 0 < w.variance ∧ (w.start r).1 = .ok () ∧ (w.start r).2.1.target = w.duration ∨
      0 < w.variance ∧ r.uniform? w.variance = none ∧ (w.start r).1 = .error .rangeOverflow ∨
      ∃ x r', 0 < w.variance ∧ r.uniform? w.variance = some (x, r') ∧ (w.start r).1 = .ok () ∧
        (w.start r).2.1.target = w.duration + x) := by
  by_cases hpos : 0 < w.variance
  · rcases hr : r.uniform? w.variance with _ | ⟨x, r'⟩ <;> simp [start, draws, hpos, hr]
  · simp [start, draws, hpos]

theorem Wait.start_ok {w : Wait} (h : 0 < w.variance → (Rng.scale? w.variance).isSome) (r : Rng) :
    (w.start r).1 = .ok () := by
  obtain ⟨-, ⟨-, hstart, -⟩ | ⟨hpos, hr, -⟩ | ⟨x, r', -, -, hstart, -⟩⟩ := w.start_cases r
  · exact hstart
  · simp [Rng.uniform?, ← Option.not_isSome_iff_eq_none, h hpos] at hr
  · exact hstart

theorem Branch.Walked.ok {onward : Status} {order : List Nat} {log : Log} {a : Answer}
    {passed : Nat} (h : Branch.Walked onward order log a passed)
    (hlog : ∀ x ∈ log, ∃ r, x.2 = .ok r) : ∃ r, a = .ok r := by
  induction h with
  | done => exact ⟨_, rfl⟩
  | @stop i _ a _ => exact hlog (i, a) (by simp)
  | pass _ ih => exact ih fun x hx => hlog x (List.mem_cons_of_mem _ hx)

theorem Branch.Walked.ahead {onward : Status} {order : List Nat} {log : Log} {a : Answer}
    {passed : Nat} (h : Branch.Walked onward order log a passed) {k : Nat} (hk : k ∈ order)
    (hlog : ∀ b, (k, b) ∈ log → b ≠ .ok onward) : a ≠ .ok onward ∧ k ∈ order.drop passed := by
  induction h with
  | done => cases hk
  | stop ha => exact ⟨ha, hk⟩
  | @pass i order log a passed _ ih =>
    obtain rfl | hk := List.mem_cons.mp hk
    · exact absurd rfl (hlog _ (by simp))
    · exact ih hk fun b hb => hlog b (List.mem_cons_of_mem _ hb)

namespace Behavior

def make : Behavior H → Make
  | selector _ => .selector
  | randomSelector .. => .randomSelector
  | parallel p q => .parallel p q
  | sequence _ => .sequence
  | relay => .relay
  | repeater r => .repeater r.limit r.lenient
  | action _ => .action
  | condition _ => .condition
  | wait w => .wait w.duration w.variance

variable {s : Setting} {v : View} {n : Nat} {dt : Float32} {b b' : Behavior H} {log : Log}
  {a : Answer}

theorem start_wait (w : Wait) (st : Stage H) :
    ((wait w).start s v n st).value =
      ((w.start st.rng).1, .wait (w.start st.rng).2.1) := by
  rw [start, Traced.bind_apply, Traced.get_apply]
  rcases w.start st.rng with ⟨⟨p⟩ | ⟨⟩, w', r⟩
  · rfl
  · by_cases hdraws : w'.draws = true <;> simp [hdraws]

theorem make_start (s : Setting) (v : View) (n : Nat) (b : Behavior H) (st : Stage H) :
    (b.start s v n st).value.2.make = b.make := by
  cases b with
  | wait w =>
    obtain ⟨hduration, hvariance⟩ := w.start_span st.rng
    rw [start_wait, make, make, hduration, hvariance]
  | _ => rfl

theorem start_ok (hb : b.make.Smooth) (st : Stage H) : (b.start s v n st).value.1 = .ok () := by
  cases b with
  | wait w =>
    rw [start_wait]
    exact w.start_ok hb st.rng
  | _ => rfl

theorem make_finish (s : Setting) (r : Status) (b : Behavior H) (st : Stage H) :
    (b.finish s r st).value.make = b.make := by
  cases b <;> rfl

theorem Answers.make_eq (h : b.Answers dt n log a b') : b'.make = b.make := by
  cases h with
  | @repeater r child =>
    simp only [make, Repeater.step]
    split <;> rfl
  | _ => rfl

theorem Answers.ok (h : b.Answers dt n log a b') (hb : b.make.Smooth)
    (hlog : ∀ x ∈ log, ∃ r, x.2 = .ok r) : ∃ r, a = .ok r := by
  cases h with
  | selector h | randomSelector h | sequence h => exact h.ok hlog
  | parallel h =>
    cases h with
    | all results => exact ⟨_, rfl⟩
    | stop results stop more =>
      obtain ⟨r, hr⟩ := hlog (results.length, .error stop) (by simp)
      cases hr
  | @relay a => exact hlog (0, a) (by simp)
  | @repeaterStop r stop =>
    obtain ⟨r, hr⟩ := hlog (0, .error stop) (by simp)
    cases hr
  | action => exact hb.elim
  | _ => exact ⟨_, rfl⟩

theorem Answers.waits (h : b.Answers dt n log a b') (hb : b.make.Waits) : a ≠ .ok .failure := by
  cases h with
  | @wait w =>
    simp only [Wait.tick]
    split <;> simp
  | _ => exact hb.elim

/-- The positions that a selector has still to come to, over so many children. -/
def ahead (n : Nat) : Behavior H → List Nat
  | selector cursor => (List.range n).drop cursor
  | randomSelector cursor order => order.drop cursor
  | _ => []

variable {k : Nat}

theorem ahead_start (hb : b.make.Selects) (hk : k < n) (st : Stage H) :
    k ∈ (b.start s v n st).value.2.ahead n := by
  cases b with
  | selector cursor => exact List.mem_range.mpr hk
  | randomSelector cursor order => exact (perm_arrange n _).mem_iff.mpr (List.mem_range.mpr hk)
  | _ => cases hb

/-- A selector that has still to come to a child that does not fail does not fail in this tick, nor
does it pass the child. -/
theorem Answers.firm (h : b.Answers dt n log a b') (hb : b.make.Selects) (hk : k ∈ b.ahead n)
    (hlog : ∀ c, (k, c) ∈ log → c ≠ .ok .failure) : a ≠ .ok .failure ∧ k ∈ b'.ahead n := by
  cases h with
  | selector h | randomSelector h =>
    obtain ⟨ha, hk⟩ := h.ahead hk hlog
    rw [List.drop_drop] at hk
    exact ⟨ha, hk⟩
  | _ => cases hb

end Behavior

namespace Visits
variable {P : Law H} {log : Log} {cs cs' : List (Node H)} {st st' : Stage H}
  {tr : List (Entry H.Note)}

theorem visited (h : Visits P log cs st cs' st' tr) {i : Nat} {c : Node H} (hc : cs[i]? = some c) :
    (i ∉ log.map Prod.fst ∧ cs'[i]? = some c) ∨
      ∃ st o, P c st o ∧ (i, o.value.1) ∈ log ∧ cs'[i]? = some o.value.2 := by
  induction h generalizing c with
  | nil => exact .inl ⟨by simp, hc⟩
  | @cons j a d d' log cs cs' st st₁ st₂ tr tr' fresh child law _ ih =>
    by_cases hij : i = j
    · subst hij
      obtain rfl : d = c := Option.some.inj (child.symm.trans hc)
      have hi : (cs.set i d')[i]? = some d' :=
        List.getElem?_set_self (List.getElem?_eq_some_iff.mp child).1
      obtain ⟨-, hsame⟩ | ⟨_, _, _, hb, -⟩ := ih hi
      · exact .inr ⟨_, _, law, by simp, hsame⟩
      · exact absurd (List.mem_map_of_mem hb) fresh
    · have hi : (cs.set j d')[i]? = some c := by rwa [List.getElem?_set_ne (Ne.symm hij)]
      obtain ⟨hlog, hsame⟩ | ⟨s, o, hlaw, hb, hsame⟩ := ih hi
      · exact .inl ⟨by simpa [hij] using hlog, hsame⟩
      · exact .inr ⟨s, o, hlaw, List.mem_cons_of_mem _ hb, hsame⟩

theorem exists_of_log (h : Visits P log cs st cs' st' tr) :
    ∀ x ∈ log, ∃ c st o, cs[x.1]? = some c ∧ P c st o ∧ o.value.1 = x.2 := by
  induction h with
  | nil => simp
  | @cons j a d d' log cs cs' st st₁ st₂ tr tr' fresh child law _ ih =>
    intro x hx
    obtain rfl | hx := List.mem_cons.mp hx
    · exact ⟨d, _, _, child, law, rfl⟩
    · obtain ⟨c, st, o, hc, hlaw, ho⟩ := ih x hx
      have hne : j ≠ x.1 := fun hj => fresh (hj ▸ List.mem_map_of_mem hx)
      rw [List.getElem?_set_ne hne] at hc
      exact ⟨c, st, o, hc, hlaw, ho⟩

end Visits

namespace Frame
variable {s : Setting} {dt : Float32} {f : Frame H} {n : Nat}

theorem activate_of_active (hf : f.active = true) (s : Setting) (n : Nat) :
    f.activate s n = pure (.ok (), f) := if_pos hf

theorem activate_of_idle (hf : f.active = false) (s : Setting) (n : Nat) (st : Stage H) :
    ∃ v, (f.activate s n st).value.1 = (f.behavior.start s v n st).value.1 ∧
      (f.activate s n st).value.2.behavior = (f.behavior.start s v n st).value.2 := by
  refine ⟨{ f.view with active := true, time := 0 }, ?_⟩
  rw [activate, if_neg (by simp [hf])]
  simp only [Traced.bind_apply, Exec.notify_apply, Exec.hook_apply, view]
  rcases f.behavior.start s ⟨f.id, f.name, true, 0⟩ n st with ⟨⟨_ | _, b⟩, st', tr⟩
  · exact ⟨rfl, rfl⟩
  · exact ⟨rfl, rfl⟩

theorem make_activate (s : Setting) (n : Nat) (f : Frame H) (st : Stage H) :
    (f.activate s n st).value.2.behavior.make = f.behavior.make := by
  cases hf : f.active with
  | true => rw [activate_of_active hf]; rfl
  | false =>
    obtain ⟨v, -, hb⟩ := activate_of_idle hf s n st
    rw [hb, Behavior.make_start]

theorem activate_ok (hf : f.behavior.make.Smooth) (s : Setting) (n : Nat) (st : Stage H) :
    (f.activate s n st).value.1 = .ok () := by
  cases ha : f.active with
  | true => rw [activate_of_active ha]; rfl
  | false =>
    obtain ⟨v, hstarted, -⟩ := activate_of_idle ha s n st
    rw [hstarted, Behavior.start_ok hf]

theorem ahead_activate {k : Nat} (hf : f.behavior.make.Selects) (hk : k < n)
    (ahead : f.active = true → k ∈ f.behavior.ahead n) (s : Setting) (st : Stage H) :
    k ∈ (f.activate s n st).value.2.behavior.ahead n := by
  cases ha : f.active with
  | true => rw [activate_of_active ha]; exact ahead ha
  | false =>
    obtain ⟨v, -, hb⟩ := activate_of_idle ha s n st
    rw [hb]
    exact Behavior.ahead_start hf hk st

def plan (f : Frame H) : Frame H × Make := (f.bare, f.behavior.make)

theorem plan_eq_iff {f g : Frame H} :
    f.plan = g.plan ↔ f.bare = g.bare ∧ f.behavior.make = g.behavior.make := Prod.ext_iff

theorem services_eq_nil_of_bare {f g : Frame H} (h : f.bare = g.bare) (hg : g.services = []) :
    f.services = [] := by
  have hservices : f.bare.services = g.bare.services := by rw [h]
  simpa [bare, hg] using hservices

@[simp] theorem behavior_settle (f : Frame H) : f.settle.behavior = f.behavior := by
  unfold settle; split <;> rfl

theorem plan_settle (f : Frame H) : f.settle.plan = f.plan :=
  plan_eq_iff.mpr ⟨f.bare_settle, by rw [behavior_settle]⟩

theorem value_conclude (s : Setting) (r : Status) (f : Frame H) (cs : List (Node H))
    (st : Stage H) : (f.conclude s r cs st).value =
      .mk { f.ended with behavior := (f.behavior.finish s r st).value } (cs.map Node.settle) := by
  rw [conclude]
  simp only [Traced.bind_apply, Exec.hook_apply, Node.value_abortAll, value_endActivation]
  rfl

theorem Executes.plan_eq {P : Law H} {cs : List (Node H)} {st : Stage H}
    {o : Outcome (Stage H) (Entry H.Note) (Answer × Node H)} (h : f.Executes P s dt cs st o) :
    o.value.2.frame.plan = f.plan := by
  cases h with
  | refused guarded aborted =>
    obtain ⟨rfl, -⟩ := Node.abort_eq aborted
    rw [Node.settle_mk]
    exact f.plan_settle
  | @panicked p f' st₁ _ _ _ guarded activated =>
    obtain ⟨h, -⟩ | ⟨_, b, _, -, -, hf', -⟩ := activate_spec activated
    · cases h
    · have hmake := f.make_activate s cs.length st₁
      rw [activated] at hmake
      subst hf'
      exact plan_eq_iff.mpr ⟨rfl, hmake⟩
  | @ticked f' as raw answer b cs' n st₁ st₂ st₃ st₄ st' tr₁ tr₂ tr₃ tr₄ tr₅ guarded activated
      served fits ticked resolved =>
    have hmake := f.make_activate s cs.length st₁
    obtain ⟨has, -⟩ := serve_spec s f'.view dt 0 f'.services st₂
    rw [activated] at hmake
    rw [served] at has
    obtain rfl : as = Attachment.advanceAll dt f'.services := has
    obtain ⟨-, hop⟩ | ⟨_, _, _, h, -⟩ := activate_spec activated
    swap
    · cases h
    have hbare : { f' with services := Attachment.advanceAll dt f'.services, behavior := b }.bare =
        f.bare := (bare_served f' dt b).trans hop.bare_eq
    have hb : b.make = f.behavior.make := by
      cases ticked with
      | mk _ _ _ _ answers => exact answers.make_eq.trans hmake
    cases resolved with
    | stopped => exact plan_eq_iff.mpr ⟨hbare, hb⟩
    | kept => exact plan_eq_iff.mpr ⟨hbare, hb⟩
    | @concluded raw result n st₅ st₆ _ _ modified terminal concluded =>
      have hvalue := value_conclude s result
        ({ f' with services := Attachment.advanceAll dt f'.services, behavior := b }.aged dt) cs' st₅
      rw [concluded] at hvalue
      obtain rfl := hvalue
      refine plan_eq_iff.mpr ⟨?_, (Behavior.make_finish ..).trans hb⟩
      exact (bare_ended _).trans hbare

def Sure (p : Frame H × Make) : Prop := ∀ (f : Frame H) (cs : List (Node H)) (s : Setting)
  (dt : Float32) (st : Stage H), f.plan = p → ∃ r, ((Node.mk f cs).execute s dt st).value.1 = .ok r

theorem Resolves.ok {cs : List (Node H)} {st : Stage H} {r : Status}
    {o : Outcome (Stage H) (Entry H.Note) (Answer × Node H)} (h : f.Resolves s dt cs st (.ok r) o) :
    ∃ r, o.value.1 = .ok r := by
  cases h <;> exact ⟨_, rfl⟩

end Frame

namespace Node

def plans (n : Node H) : List (Frame H × Make) := n.frames.map Frame.plan

theorem plans_mk (f : Frame H) (cs : List (Node H)) :
    (mk f cs).plans = f.plan :: cs.flatMap plans := by
  rw [plans, frames_mk, List.map_cons, List.map_flatMap]
  rfl

theorem plans_settle (n : Node H) : n.settle.plans = n.plans := by
  induction n with
  | mk f cs ih =>
    rw [settle_mk, plans_mk, plans_mk, Frame.plan_settle]
    split
    · rw [List.flatMap_map]
      exact congrArg _ (List.flatMap_congr ih)
    · rfl

theorem plans_execute (s : Setting) (dt : Float32) {n : Node H} (h : n.Sound) (st : Stage H) :
    (n.execute s dt st).value.2.plans = n.plans := by
  let P : Law H := fun n _ o => o.value.2.plans = n.plans
  refine execute_rule (P := P) (fun f cs st o _ _ h => ?_) h st
  have hplan := h.plan_eq
  cases Frame.unfolds h with
  | @mk _ _ _ f' _ _ cs₁ cs₂ _ _ _ _ _ _ visit visits _ teardown =>
    have hvisits : cs₁.map plans = cs.map plans := visits.map_eq fun _ _ _ h => h.1
    have hteardown : cs₂.map plans = cs₁.map plans := teardown.map_eq plans_settle
    change (mk f' cs₂).plans = _
    rw [plans_mk, plans_mk, List.flatMap_def, List.flatMap_def, hteardown, hvisits]
    exact congrArg (· :: _) hplan

section Planned
variable {p : Frame H × Make → Nat → Prop}

theorem all_settle {n : Node H} (h : n.All fun f cs => p f.plan cs.length) :
    n.settle.All fun f cs => p f.plan cs.length := by
  induction n with
  | mk f cs ih =>
    obtain ⟨hf, hcs⟩ := all_mk.mp h
    rw [settle_mk]
    split
    · refine .mk (by rwa [Frame.plan_settle, List.length_map]) fun c hc => ?_
      obtain ⟨c, hm, rfl⟩ := List.mem_map.mp hc
      exact ih c hm (hcs c hm)
    · exact .mk (by rwa [Frame.plan_settle]) hcs

theorem all_execute (s : Setting) (dt : Float32) {n : Node H} (h : n.Sound)
    (hn : n.All fun f cs => p f.plan cs.length) (st : Stage H) :
    (n.execute s dt st).value.2.All fun f cs => p f.plan cs.length := by
  let P : Law H := fun n _ o => (n.All fun f cs => p f.plan cs.length) →
    o.value.2.All fun f cs => p f.plan cs.length
  refine execute_rule (P := P) (fun f cs st o _ _ h hn => ?_) h st hn
  obtain ⟨hf, hcs⟩ := all_mk.mp hn
  have hplan := h.plan_eq
  cases Frame.unfolds h with
  | @mk _ _ _ f' _ _ cs₁ cs₂ _ _ _ _ _ _ visit visits _ teardown =>
    have hplan : f'.plan = f.plan := hplan
    refine .mk ?_ (teardown.forall_mem (fun c => all_settle) ?_)
    · rwa [hplan, teardown.length_eq, visits.length_eq]
    · exact visits.forall_mem (fun _ _ _ h hc => h.1 hc) hcs

end Planned

def Sure (n : Node H) : Prop := ∀ p ∈ n.plans, p.2.Smooth ∨ Frame.Sure p

theorem sure_mk {f : Frame H} {cs : List (Node H)} :
    (mk f cs).Sure ↔ (f.behavior.make.Smooth ∨ Frame.Sure f.plan) ∧ ∀ c ∈ cs, c.Sure := by
  rw [Sure, plans_mk, List.forall_mem_cons]
  refine and_congr_right fun _ => ?_
  simp only [List.mem_flatMap, Sure]
  exact ⟨fun h c hc p hp => h p ⟨c, hc, hp⟩, fun h p ⟨c, hc, hp⟩ => h c hc p hp⟩

theorem execute_ok (s : Setting) (dt : Float32) {n : Node H} (h : n.Sound) (hn : n.Sure)
    (st : Stage H) : ∃ r, (n.execute s dt st).value.1 = .ok r := by
  let P : Law H := fun n _ o => n.Sure → ∃ r, o.value.1 = .ok r
  refine execute_rule (P := P) (fun f cs st o _ ho h hn => ?_) h st hn
  obtain ⟨hf, hcs⟩ := sure_mk.mp hn
  obtain hf | hf := hf
  swap
  · rw [ho]
    exact hf f cs s dt st rfl
  cases h with
  | refused => exact ⟨_, rfl⟩
  | @panicked p f' st₁ _ _ _ guarded activated =>
    have hok := Frame.activate_ok hf s cs.length st₁
    rw [activated] at hok
    cases hok
  | @ticked f' as raw answer b cs' n st₁ st₂ st₃ st₄ st' tr₁ tr₂ tr₃ tr₄ tr₅ guarded activated
      served fits ticked resolved =>
    have hmake := f.make_activate s cs.length st₁
    rw [activated] at hmake
    have hraw : ∃ r, raw = .ok r := by
      cases ticked with
      | mk _ _ _ visits answers =>
        refine answers.ok (by rwa [hmake]) fun x hx => ?_
        obtain ⟨c, st, o, hc, hlaw, ho⟩ := visits.exists_of_log x hx
        rw [← ho]
        exact hlaw.1 (hcs c (List.mem_of_getElem? hc))
    obtain ⟨r, rfl⟩ := hraw
    exact resolved.ok

/-- Trees that do not fail: waits, and selectors that have still to come to a tree that does not
fail. No decorator changes what they answer. -/
inductive Firm : Node H → Prop
  | waits {f : Frame H} {cs : List (Node H)} (plain : f.decorators = [])
    (made : f.behavior.make.Waits) : Firm (.mk f cs)
  | selects {f : Frame H} {cs : List (Node H)} {k : Nat} {c : Node H} (plain : f.decorators = [])
    (made : f.behavior.make.Selects) (child : cs[k]? = some c) (firm : Firm c)
    (ahead : f.active = true → k ∈ f.behavior.ahead cs.length) : Firm (.mk f cs)

theorem firm_settle {n : Node H} (h : n.Firm) : n.settle.Firm := by
  induction h with
  | @waits f cs plain made =>
    rw [settle_mk]
    refine .waits ((Frame.decorators_eq_of_bare f.bare_settle).trans plain) ?_
    rwa [Frame.behavior_settle]
  | @selects f cs k c plain made child firm ahead ih =>
    rw [settle_mk]
    have hplain := (Frame.decorators_eq_of_bare f.bare_settle).trans plain
    have hmade : f.settle.behavior.make.Selects := by rwa [Frame.behavior_settle]
    split
    · have hchild : (cs.map settle)[k]? = some c.settle := by rw [List.getElem?_map, child]; rfl
      exact .selects hplain hmade hchild ih (by simp)
    · exact .selects hplain hmade child firm (by simp)

end Node

namespace Frame
variable {s : Setting} {dt : Float32} {f : Frame H} {cs : List (Node H)} {st : Stage H}

theorem Resolves.plain {raw : Answer} {o : Outcome (Stage H) (Entry H.Note) (Answer × Node H)}
    (h : f.Resolves s dt cs st raw o) (plain : f.decorators = []) : o.value.1 = raw := by
  cases h with
  | stopped => rfl
  | kept modified =>
    rw [plain] at modified
    cases modified
    rfl
  | concluded modified =>
    rw [plain] at modified
    cases modified
    rfl

/-- What follows the answer of the behavior leaves the children of a node that stays active as they
are, and aborts those of a node that does not. -/
theorem Resolves.children {raw : Answer} {o : Outcome (Stage H) (Entry H.Note) (Answer × Node H)}
    (h : f.Resolves s dt cs st raw o) :
    (o.value.2.frame.behavior = f.behavior ∧ o.value.2.isActive = f.active ∧
        o.value.2.children = cs) ∨
      o.value.2.isActive = false ∧ o.value.2.children = cs.map Node.settle := by
  cases h with
  | stopped => exact .inl ⟨rfl, rfl, rfl⟩
  | kept => exact .inl ⟨rfl, rfl, rfl⟩
  | @concluded raw result n st₁ st' _ _ _ _ concluded =>
    have hvalue := value_conclude s result (f.aged dt) cs st₁
    rw [concluded] at hvalue
    obtain rfl := hvalue
    exact .inr ⟨rfl, rfl⟩

end Frame

namespace Node

/-- An execution of a tree that does not fail does not fail, and neither will the tree it leaves. -/
theorem firm_execute (s : Setting) (dt : Float32) {n : Node H} (h : n.Sound) (hn : n.Firm)
    (st : Stage H) :
    (n.execute s dt st).value.1 ≠ .ok .failure ∧ (n.execute s dt st).value.2.Firm := by
  let P : Law H := fun n _ o => n.Firm → o.value.1 ≠ .ok .failure ∧ o.value.2.Firm
  refine execute_rule (P := P) (fun f cs st o _ _ h hn => ?_) h st hn
  have hplan := h.plan_eq
  rcases o with ⟨⟨answer, ⟨g, ds⟩⟩, st', tr⟩
  obtain ⟨hbare, hmake⟩ := Frame.plan_eq_iff.mp hplan
  have hdecorators : g.decorators = f.decorators := Frame.decorators_eq_of_bare hbare
  have plain : f.decorators = [] := by cases hn <;> assumption
  cases h with
  | refused guarded =>
    rw [plain] at guarded
    cases guarded
  | @panicked p _ st₁ _ _ _ guarded activated =>
    refine ⟨nofun, ?_⟩
    cases hn with
    | waits _ made => exact .waits (hdecorators.trans plain) (hmake ▸ made)
    | @selects _ _ k c _ made child firm ahead =>
      have hk := Frame.ahead_activate made (List.getElem?_eq_some_iff.mp child).1 ahead s st₁
      rw [activated] at hk
      exact .selects (hdecorators.trans plain) (hmake ▸ made) child firm fun _ => hk
  | @ticked f' as raw _ b cs' _ st₁ st₂ st₃ st₄ _ tr₁ tr₂ tr₃ tr₄ tr₅ guarded activated served fits
      ticked resolved =>
    have hmade := f.make_activate s cs.length st₁
    rw [activated] at hmade
    obtain ⟨-, hop⟩ | ⟨_, _, _, h, -⟩ := Frame.activate_spec activated
    swap
    · cases h
    have hplain : f'.decorators = [] := (Frame.decorators_eq_of_bare hop.bare_eq).trans plain
    have hanswer : answer = raw := resolved.plain hplain
    subst hanswer
    cases ticked with
    | @mk _ _ _ log st₀ _ trc tr₀ tables own visits answers =>
      cases hn with
      | waits _ made =>
        exact ⟨answers.waits (hmade ▸ made), .waits (hdecorators.trans plain) (hmake ▸ made)⟩
      | @selects _ _ k c _ made child firm ahead =>
        have hk := Frame.ahead_activate made (List.getElem?_eq_some_iff.mp child).1 ahead s st₁
        rw [activated] at hk
        -- the child does not fail, so it is still to come, and it does not fail after this tick
        obtain ⟨hunfailed, c', hc', hfirm⟩ : (∀ a, (k, a) ∈ log → a ≠ .ok .failure) ∧
            ∃ c', cs'[k]? = some c' ∧ c'.Firm := by
          refine ⟨fun a ha => ?_, ?_⟩
          · obtain ⟨d, _, _, hd, hlaw, rfl⟩ := visits.exists_of_log _ ha
            obtain rfl : c = d := Option.some.inj (child.symm.trans hd)
            exact (hlaw.1 firm).1
          · obtain ⟨-, hsame⟩ | ⟨_, _, hlaw, -, hnew⟩ := visits.visited child
            · exact ⟨c, hsame, firm⟩
            · exact ⟨_, hnew, (hlaw.1 firm).2⟩
        obtain ⟨ha, hk'⟩ := answers.firm (hmade ▸ made) hk hunfailed
        have hselects : g.behavior.make.Selects := hmake ▸ made
        refine ⟨ha, ?_⟩
        obtain ⟨hbehavior, -, hchildren⟩ | ⟨hidle, hchildren⟩ := resolved.children
        · obtain rfl : g.behavior = b := hbehavior
          obtain rfl : ds = cs' := hchildren
          rw [← visits.length_eq] at hk'
          exact .selects (hdecorators.trans plain) hselects hc' hfirm fun _ => hk'
        · obtain rfl : ds = cs'.map settle := hchildren
          have hsettled : (cs'.map settle)[k]? = some c'.settle := by
            rw [List.getElem?_map, hc']
            rfl
          have hidle : g.active = false := hidle
          exact .selects (hdecorators.trans plain) hselects hsettled (firm_settle hfirm)
            (by simp [hidle])

end Node
end TickTree
