import TickTree.Proofs.Firmness
import TickTree.Proofs.Flattening
import TickTree.Proofs.Handling
import TickTree.Proofs.Unwinding
/-! The beats of a node: where its activations begin and end, its ticks, the children executed in
them, and what these and the node itself answer. They are read off a trace; what one call on a node
adds to them follows from what the node is. -/
namespace TickTree
variable {H : Host} {ν : Type}

inductive Beat where
  | begun
  | drew (d : Draw)
  | ticked
  /-- The child at this position has answered. -/
  | child (i : Nat) (a : Answer)
  /-- The behavior has answered. -/
  | answered (raw : Answer)
  | ended
  deriving DecidableEq

def Entry.beat? (k : NodeId) (kids : List NodeId) : Entry ν → Option Beat
  | .notice _ (.entered v _) => if v.id = k then some .begun else none
  | .notice _ (.exited v _ _) => if v.id = k then some .ended else none
  | .hook v (.drew d) => if v.id = k then some (.drew d) else none
  | .hook v (.ticked _) => if v.id = k then some .ticked else none
  | .hook v (.answered raw) => if v.id = k then some (.answered raw) else none
  | .hook v (.returned a) => if v.id ∈ kids then some (.child (kids.idxOf v.id) a) else none
  | _ => none

def beats (k : NodeId) (kids : List NodeId) (tr : List (Entry ν)) : List Beat :=
  tr.filterMap (Entry.beat? k kids)

section Read
variable {k : NodeId} {kids : List NodeId} {tr tr' : List (Entry ν)}

@[simp] theorem beats_nil : beats k kids ([] : List (Entry ν)) = [] := rfl

@[simp] theorem beats_append : beats k kids (tr ++ tr') = beats k kids tr ++ beats k kids tr' :=
  List.filterMap_append

theorem beats_cons (e : Entry ν) :
    beats k kids (e :: tr) = (e.beat? k kids).toList ++ beats k kids tr := by
  cases h : e.beat? k kids <;> simp [beats, h]

theorem beats_eq_nil (h : ∀ e ∈ tr, e.beat? k kids = none) : beats k kids tr = [] :=
  List.filterMap_eq_nil_iff.mpr h

theorem only_beat : Only (k :: kids) fun e : Entry ν => (e.beat? k kids).isSome := by
  intro e he
  cases e with
  | hook v h =>
    cases h with
    | returned a =>
      have hv : v.id ∈ kids := by
        by_contra hv
        simp [Entry.beat?, hv] at he
      exact ⟨v.id, List.mem_cons_of_mem _ hv, rfl⟩
    | drew | ticked | answered =>
      have hv : v.id = k := by
        by_contra hv
        simp [Entry.beat?, hv] at he
      exact ⟨v.id, by simp [hv], rfl⟩
    | _ => cases he
  | notice l n =>
    cases n with
    | entered v t | exited v r t =>
      have hv : v.id = k := by
        by_contra hv
        simp [Entry.beat?, hv] at he
      exact ⟨v.id, by simp [hv], rfl⟩
    | _ => cases he
  | _ => cases he

@[simp] theorem beats_calls : beats k kids (calls tr) = beats k kids tr :=
  only_beat.filterMap_calls tr

end Read

namespace Frame
variable {k : NodeId} {kids : List NodeId} {s : Setting} {dt : Float32} {f g : Frame H}

@[simp] theorem beats_slots {v : View} {h : Nat → Hook} (n : Nat)
    (dull : ∀ i, (.hook v (h i) : Entry ν).beat? k kids = none) :
    beats k kids (slots v h 0 n : List (Entry ν)) = [] := by
  refine beats_eq_nil fun e he => ?_
  obtain ⟨i, -, rfl⟩ := mem_slots.mp he
  exact dull i

theorem beats_guards {v : View} {gs : List (Entry H.Note)}
    (h : ∀ e ∈ gs, ∃ i passed, e = .hook v (.guarded i passed)) : beats k kids gs = [] := by
  refine beats_eq_nil fun e he => ?_
  obtain ⟨i, passed, rfl⟩ := h e he
  rfl

theorem beats_guarded {v : View} {slot : Nat} {ds : List (Decorator H)} {st st' : Stage H}
    {passed : Bool} {tr : List (Entry H.Note)}
    (guarded : guards s v slot ds st = ⟨passed, st', tr⟩) : beats k kids tr = [] := by
  rw [← beats_calls]
  exact beats_guards (calls_guards guarded)

theorem beats_resumed {v : View} {rs : List (Entry H.Note)}
    (h : ∀ e ∈ rs, ∃ cursor, e = .hook v (.resumed cursor)) : beats k kids rs = [] := by
  refine beats_eq_nil fun e he => ?_
  obtain ⟨cursor, rfl⟩ := h e he
  rfl

@[simp] theorem beats_serviced (v : View) (slots : List Nat) :
    beats k kids (slots.map fun i => (.hook v (.serviced i dt) : Entry ν)) = [] :=
  beats_eq_nil (by simp [Entry.beat?])

theorem beats_served {v : View} {slot : Nat} {as as' : List (Attachment H)} {st st' : Stage H}
    {tr : List (Entry H.Note)} (served : serve s v dt slot as st = ⟨as', st', tr⟩) :
    beats k kids tr = [] := by
  have htr := (serve_spec s v dt slot as st).2
  rw [served] at htr
  rw [← beats_calls, htr, beats_serviced]

theorem beats_drawn (v : View) (drawn : List Draw) :
    beats v.id kids (drawn.map fun d => (.hook v (.drew d) : Entry ν)) = drawn.map .drew := by
  induction drawn with
  | nil => rfl
  | cons d drawn ih => simp [beats_cons, ih, Entry.beat?]

theorem beats_start (s : Setting) (drawn : List Draw) (hk : f.id ≠ k) :
    beats k kids (f.start s drawn) = [] := by
  refine beats_eq_nil fun e he => ?_
  obtain rfl | rfl | ⟨d, -, rfl⟩ : _ ∨ _ ∨ _ := by simpa [start] using he
  all_goals simp [Entry.beat?, hk]

theorem beats_closing (s : Setting) (r : Status) (f : Frame H) :
    beats k kids (f.closing s r) = if f.id = k then [.ended] else [] := by
  rw [closing, beats_append, beats_slots _ fun _ => rfl, beats_cons]
  by_cases hk : f.id = k <;> simp [Entry.beat?, view, hk]

theorem beats_sweep (s : Setting) (f : Frame H) :
    beats k kids (f.sweep s) = if f.active = true ∧ f.id = k then [.ended] else [] := by
  unfold sweep
  by_cases hf : f.active = true
  · rw [if_pos hf, forced, beats_append, beats_append, beats_slots _ fun _ => rfl, beats_closing,
      beats_cons]
    by_cases hk : f.id = k <;> simp [Entry.beat?, hf, hk]
  · rw [if_neg hf, if_neg fun h => hf h.1, beats_nil]

theorem beats_opens {op : List (Entry H.Note)} (h : f.Opens s op g) (hk : f.id ≠ k) :
    beats k kids op = [] := by
  cases h with
  | already hf => rfl
  | fresh hf => rw [beats_append, beats_start s _ hk, beats_slots _ fun _ => rfl, List.nil_append]

theorem Modified.beats_eq {slot : Nat} {ds : List (Decorator H)} {before after : Status}
    {hs : List Hook} (h : Modified dt slot ds before hs after) (v : View) :
    beats k kids (hs.map (.hook v) : List (Entry ν)) = [] := by
  refine beats_eq_nil fun e he => ?_
  obtain ⟨hook, hhook, rfl⟩ := List.mem_map.mp he
  obtain ⟨i, a, b, rfl⟩ := h.exists_eq hook hhook
  rfl

theorem beats_settles {raw answer : Answer} {w : List (Entry H.Note)}
    (h : f.Settles s dt raw answer w g) (hf : f.active = true) :
    beats k kids w = if g.active = false ∧ f.id = k then [.ended] else [] := by
  cases h with
  | stopped => simp [hf]
  | kept modified => rw [modified.beats_eq]; simp [aged, hf]
  | concluded modified =>
    rw [beats_append, modified.beats_eq, beats_cons, beats_append, beats_closing,
      beats_slots _ fun _ => rfl]
    by_cases hk : f.id = k <;> simp [Entry.beat?, ended, aged, hk]

theorem Visit.beats_child {answer : Answer} {w : List (Entry H.Note)} (h : f.Visit s dt answer w g)
    (hk : f.id ≠ k) (hkid : f.id ∈ kids) :
    beats k kids w = [.child (kids.idxOf f.id) answer] := by
  cases h with
  | refused guards =>
    simp [beats_cons, beats_guards guards, beats_sweep, Entry.beat?, view, hk, hkid]
  | panicked drawn guards =>
    simp [beats_cons, beats_guards guards, beats_start s drawn hk, Entry.beat?, view, begun,
      hkid]
  | @ticked gs op rs w f' _ n log raw answer b guards opens resumes answers settles =>
    have hid : f'.id = f.id := opens.id_eq
    have hid' : g.id = f.id := settles.id_eq.trans hid
    have hsettles : beats k kids w = [] := by
      rw [beats_settles settles opens.active_eq, if_neg]
      simp [hid, hk]
    simp [beats_cons, beats_guards guards, beats_opens opens hk, beats_resumed resumes, hsettles,
      Entry.beat?, view, hid, hid', hk, hkid]

end Frame

namespace Node
variable {f : Frame H} {cs cs' : List (Node H)} {s : Setting} {dt : Float32}

def kids (n : Node H) : List NodeId := n.children.map (·.id)

@[simp] theorem kids_mk (f : Frame H) (cs : List (Node H)) : (mk f cs).kids = cs.map (·.id) := rfl

theorem sublist_kids (cs : List (Node H)) : (cs.map (·.id)).Sublist (cs.flatMap ids) := by
  induction cs with
  | nil => exact List.Sublist.refl _
  | cons c cs ih =>
    obtain ⟨g, ds⟩ := c
    rw [List.map_cons, List.flatMap_cons, ids_mk, List.cons_append]
    exact (ih.trans (List.sublist_append_right _ _)).cons_cons _

theorem beats_sweep_other {k : NodeId} {kids : List NodeId} {n : Node H} (hk : k ∉ n.ids) :
    beats k kids (n.sweep s) = [] := by
  induction n with
  | mk g ds ih =>
    rw [ids_mk] at hk
    obtain ⟨hg, hds⟩ := List.ne_and_not_mem_of_not_mem_cons hk
    have hbelow : beats k kids (ds.flatMap (sweep s)) = [] := beats_eq_nil fun e he => by
      obtain ⟨d, hd, he⟩ := List.mem_flatMap.mp he
      have hd := ih d hd fun hkd => hds (List.mem_flatMap.mpr ⟨d, hd, hkd⟩)
      exact List.filterMap_eq_nil_iff.mp hd e he
    have hframe : beats k kids (g.sweep s) = [] := by
      rw [Frame.beats_sweep, if_neg fun h => hg h.2.symm]
    rw [sweep_mk, beats_append, hframe, List.append_nil]
    split
    · exact hbelow
    · rfl

theorem seen_child (hn : (mk f cs).ids.Nodup) {i : Nat} {c : Node H} (hc : cs[i]? = some c) :
    c.id ≠ f.id ∧ (cs.map (·.id)).idxOf c.id = i ∧
      ∀ k ∈ f.id :: cs.map (·.id), k ∈ c.ids → k = c.id := by
  obtain ⟨hout, hcs⟩ := nodup_mk hn
  have hmem := List.mem_of_getElem? hc
  have hbelow : ∀ k ∈ c.ids, k ∈ cs.flatMap ids := fun k hk => List.mem_flatMap.mpr ⟨c, hmem, hk⟩
  refine ⟨fun h => hout (h ▸ hbelow c.id c.id_mem_ids), ?_, fun k hk hkc => ?_⟩
  · have hkids : (cs.map (·.id)).Nodup := hcs.sublist (sublist_kids cs)
    have hi : (cs.map (·.id))[i]? = some c.id := by simp [hc]
    obtain ⟨hlt, hget⟩ := List.getElem?_eq_some_iff.mp hi
    have hidx := hkids.idxOf_getElem i hlt
    rwa [hget] at hidx
  · obtain rfl | hk := List.mem_cons.mp hk
    · exact absurd (hbelow _ hkc) hout
    · obtain ⟨m, hm⟩ := List.getElem?_of_mem hk
      obtain ⟨d, hd, rfl⟩ : ∃ d, cs[m]? = some d ∧ d.id = k := by simpa using hm
      by_cases him : m = i
      · subst him
        rw [Option.some.inj (hc.symm.trans hd)]
      · exact absurd hkc (ids_disjoint hcs hd hc him _ d.id_mem_ids)

theorem beats_execute_child (hn : (mk f cs).ids.Nodup) {i : Nat} {c : Node H}
    (hc : cs[i]? = some c) (hs : c.Sound) (st : Stage H) :
    beats f.id (cs.map (·.id)) (c.execute s dt st).trace =
      [.child i (c.execute s dt st).value.1] := by
  obtain ⟨-, hcs⟩ := nodup_mk hn
  have hmem := List.mem_of_getElem? hc
  have hnc : c.ids.Nodup := (List.nodup_flatMap.mp hcs).1 c hmem
  obtain ⟨hne, hidx, hseen⟩ := seen_child hn hc
  have hvisit : beats f.id (cs.map (·.id)) (own c.id (c.execute s dt st).trace) =
      [.child ((cs.map (·.id)).idxOf c.id) (c.execute s dt st).value.1] :=
    (visit_execute s dt hs hnc st).beats_child hne (List.mem_map_of_mem (f := Node.id) hmem)
  rw [hidx] at hvisit
  exact (only_beat.filterMap_own (within_execute s dt hs st) hseen).symm.trans hvisit

end Node

/-- Executions of children that each tell a reading one thing tell it these, in order. The entries of
all of them are as `q` says. -/
theorem Visits.filterMap_eq {P : Law H} {s : Setting} {dt : Float32} {log : Log}
    {cs cs' : List (Node H)} {st st' : Stage H} {tr : List (Entry H.Note)}
    (h : Visits (P.During s dt) log cs st cs' st' tr) {β : Type} {r : Entry H.Note → Option β}
    {g : Nat → Answer → β} {q : Entry H.Note → Prop} (hq : ∀ e ∈ tr, q e)
    (tells : ∀ i ∈ log.map Prod.fst, ∀ c st, cs[i]? = some c → c.Sound →
      (∀ e ∈ (c.execute s dt st).trace, q e) →
        (c.execute s dt st).trace.filterMap r = [g i (c.execute s dt st).value.1]) :
    tr.filterMap r = log.map fun x => g x.1 x.2 := by
  induction h with
  | nil => rfl
  | @cons i a c c' log cs cs' st st₁ st₂ tr tr' fresh child law _ ih =>
    obtain ⟨-, hsound, ho⟩ := law
    obtain ⟨hq, hq'⟩ := List.forall_mem_append.mp hq
    have hchild := tells i (by simp) c st child hsound
    rw [← ho] at hchild
    -- a child executed later stands as it did before
    have hrest := ih hq' fun j hj d st hd =>
      tells j (List.mem_cons_of_mem _ hj) d st (by
        have hij : i ≠ j := fun hij => fresh (hij ▸ hj)
        rwa [List.getElem?_set_ne hij] at hd)
    rw [List.filterMap_append, hchild hq, hrest]
    rfl

theorem Visits.beats_eq {P : Law H} {s : Setting} {dt : Float32} {f : Frame H} {log : Log}
    {cs cs' : List (Node H)} {st st' : Stage H} {tr : List (Entry H.Note)}
    (h : Visits (P.During s dt) log cs st cs' st' tr) (hn : (Node.mk f cs).ids.Nodup) :
    beats f.id (cs.map (·.id)) tr = log.map fun x => .child x.1 x.2 :=
  h.filterMap_eq (q := fun _ => True) (by simp) fun _ _ _ st hc hsound _ =>
    Node.beats_execute_child hn hc hsound st

/-- One tick of an activation: the children executed in it, and what the behavior has answered. -/
structure Round where
  log : Log
  raw : Answer
  deriving DecidableEq

def Round.beats (r : Round) : List Beat :=
  .ticked :: (r.log.map (fun x => .child x.1 x.2) ++ [.answered r.raw])

def Frame.Starts (n : Nat) (f : Frame H) (started : Except Panic Unit) (b : Behavior H)
    (drawn : List Draw) : Prop :=
  ∃ s v st, (f.behavior.start s v n st).value = (started, b) ∧
    calls (f.behavior.start s v n st).trace = drawn.map fun d => .hook v (.drew d)

/-- What one call shows of a node with so many children. The activation is cut short, if there is
one; the start of one panics; or there is a round, and an activation may begin before it and be over
after it. -/
inductive Frame.Pulse (n : Nat) (f : Frame H) : List Beat → Frame H → Prop
  | cut : Pulse n f (if f.active then [.ended] else []) f.settle
  | panicked {p : Panic} {b : Behavior H} {drawn : List Draw} (idle : f.active = false)
    (starts : f.Starts n (.error p) b drawn) :
    Pulse n f (.begun :: drawn.map .drew) (f.begun b)
  | ticked {dt : Float32} {b b' : Behavior H} {drawn : List Draw} {r : Round} {g : Frame H}
    (starts : f.active = false → f.Starts n (.ok ()) b drawn)
    (goes : f.active = true → b = f.behavior) (answers : b.Answers dt n r.log r.raw b')
    (keeps : g.active = true → g.behavior = b')
    (ends : f.Plain → ¬Going r.raw → g.active = false) :
    Pulse n f ((if f.active then [] else .begun :: drawn.map .drew) ++ (r.beats ++
      if g.active then [] else [.ended])) g

namespace Frame
variable {s : Setting} {dt : Float32} {f f' : Frame H} {n : Nat} {st st' : Stage H}

theorem starts_of_activate {started : Except Panic Unit} {tr : List (Entry H.Note)}
    (h : f.activate s n st = ⟨(started, f'), st', tr⟩) (hf : f.active = false)
    (kids : List NodeId) :
    ∃ drawn, f.Starts n started f'.behavior drawn ∧
      beats f.id kids tr = .begun :: drawn.map .drew := by
  obtain ⟨drawn, hdrawn⟩ := f.behavior.calls_start s ⟨f.id, f.name, true, 0⟩ n st
  rcases hx : f.behavior.start s ⟨f.id, f.name, true, 0⟩ n st with ⟨⟨outcome, b⟩, st₁, tr₁⟩
  rw [hx] at hdrawn
  have hstarts : f.Starts n outcome b drawn := ⟨s, _, st, by rw [hx], by rw [hx]; exact hdrawn⟩
  have hbeats : beats f.id kids tr₁ = drawn.map .drew := by
    rw [← beats_calls, hdrawn]
    exact beats_drawn ⟨f.id, f.name, true, 0⟩ drawn
  rw [activate, if_neg (by simp [hf])] at h
  simp only [Traced.bind_apply, Exec.notify_apply, Exec.hook_apply, view, hx] at h
  refine ⟨drawn, ?_⟩
  cases outcome with
  | error p =>
    cases h
    exact ⟨hstarts, by simp [beats_cons, hbeats, Entry.beat?]⟩
  | ok u =>
    have hattached (v : View) (as : List (Attachment H)) (st : Stage H) :
        beats f.id kids (attach s v 0 as st).trace = [] := by
      rw [← beats_calls, calls_attach, beats_slots _ fun _ => rfl]
    cases h
    exact ⟨hstarts, by simp [beats_cons, hbeats, hattached, Entry.beat?]⟩

theorem opens_of_activate {tr : List (Entry H.Note)}
    (h : f.activate s n st = ⟨(.ok (), f'), st', tr⟩) (kids : List NodeId) :
    ∃ drawn, (f.active = false → f.Starts n (.ok ()) f'.behavior drawn) ∧
      (f.active = true → f'.behavior = f.behavior) ∧
      beats f.id kids tr = if f.active then [] else .begun :: drawn.map .drew := by
  cases hf : f.active with
  | true =>
    rw [activate_of_active hf] at h
    cases h
    exact ⟨[], by simp, fun _ => rfl, rfl⟩
  | false =>
    obtain ⟨drawn, hstarts, hbegun⟩ := starts_of_activate h hf kids
    exact ⟨drawn, fun _ => hstarts, by simp, by simpa using hbegun⟩

theorem Resolves.keeps {cs : List (Node H)} {raw answer : Answer} {m : Node H}
    {tr : List (Entry H.Note)} (h : f.Resolves s dt cs st raw ⟨(answer, m), st', tr⟩)
    (hactive : m.isActive = true) : m.frame.behavior = f.behavior := by
  obtain ⟨hb, -, -⟩ | ⟨hidle, -⟩ := h.children
  · exact hb
  · cases hidle.symm.trans hactive

/-- Without modifiers of the host's own, an answer that does not go on ends the activation. -/
theorem Resolves.ends {cs : List (Node H)} {raw : Answer}
    {o : Outcome (Stage H) (Entry H.Note) (Answer × Node H)} (h : f.Resolves s dt cs st raw o)
    (plain : f.Plain) (hraw : ¬Going raw) : o.value.2.isActive = false := by
  cases h with
  | stopped => exact absurd (going_error _) hraw
  | @kept raw _ _ modified =>
    have hterminal : raw.isTerminal = true := by
      rwa [going_ok, Bool.not_eq_false] at hraw
    have hresult : (modify s f.view dt 0 f.decorators _ st).value.isTerminal = true :=
      isTerminal_modify plain hterminal st
    rw [modified] at hresult
    cases hresult
  | @concluded _ _ _ _ _ _ _ _ _ concluded =>
    obtain ⟨⟨b, hvalue⟩, -⟩ := (f.aged dt).conclude_spec s _ cs _
    rw [concluded] at hvalue
    subst hvalue
    rfl

end Frame

namespace Node
variable {f : Frame H} {cs cs' : List (Node H)} {s : Setting} {dt : Float32}

theorem beats_sweeps {kids : List NodeId} (hout : f.id ∉ cs.flatMap ids) :
    beats f.id kids (cs.flatMap (sweep s)) = [] := beats_eq_nil fun e he => by
  obtain ⟨c, hc, he⟩ := List.mem_flatMap.mp he
  have hother : beats f.id kids (c.sweep s) = [] := beats_sweep_other fun hk =>
    hout (List.mem_flatMap.mpr ⟨c, hc, hk⟩)
  exact List.filterMap_eq_nil_iff.mp hother e he

theorem beats_sweep (hn : (mk f cs).ids.Nodup) : beats f.id (cs.map (·.id)) ((mk f cs).sweep s) =
    if f.active then [.ended] else [] := by
  obtain ⟨hout, -⟩ := nodup_mk hn
  rw [sweep_mk, beats_append, Frame.beats_sweep]
  by_cases hf : f.active = true <;> simp [hf, beats_sweeps hout]

theorem beats_resolves {f : Frame H} {raw answer : Answer} {n : Node H} {st st' : Stage H}
    {tr : List (Entry H.Note)} (h : f.Resolves s dt cs st raw ⟨(answer, n), st', tr⟩)
    (hf : f.active = true) (hout : f.id ∉ cs.flatMap ids) {kids : List NodeId} :
    beats f.id kids tr = if n.frame.active then [] else [.ended] := by
  obtain ⟨g, cs', w₁, swept, w₂, rfl, htr, hsettles, hteardown, -, -⟩ := resolves_spec h
  have hswept : beats f.id kids swept = [] := by
    cases hteardown with
    | kept => rfl
    | swept => exact beats_sweeps hout
  have hown : beats f.id kids (w₁ ++ w₂) =
      if g.active = false ∧ f.id = f.id then [.ended] else [] :=
    Frame.beats_settles hsettles hf
  rw [beats_append] at hown
  rw [← beats_calls, htr, beats_append, beats_append, hswept, List.nil_append, hown]
  by_cases hg : g.active = true <;> simp [hg]

theorem pulse_execute (s : Setting) (dt : Float32) {n : Node H} (h : n.Sound) (hn : n.ids.Nodup)
    (st : Stage H) :
    n.frame.Pulse n.children.length (beats n.id n.kids (n.execute s dt st).trace)
      (n.execute s dt st).value.2.frame := by
  let P : Law H := fun n _ o => n.ids.Nodup →
    n.frame.Pulse n.children.length (beats n.id n.kids o.trace) o.value.2.frame
  refine execute_rule (P := P) (fun f cs st o _ _ h hn => ?_) h st hn
  obtain ⟨hout, -⟩ := nodup_mk hn
  have hkids : f.id ∉ cs.map (·.id) := fun hk => hout ((sublist_kids cs).subset hk)
  change f.Pulse cs.length (beats f.id (cs.map (·.id)) o.trace) o.value.2.frame
  cases h with
  | @refused n st₁ st' tr tr' guarded aborted =>
    obtain ⟨rfl, htrace⟩ := abort_eq aborted
    have hid : (mk f cs).settle.view.id = f.id := by rw [settle_mk]; exact f.id_settle
    have hswept : beats f.id (cs.map (·.id)) tr' = if f.active then [.ended] else [] := by
      rw [← beats_calls, htrace, beats_sweep hn]
    rw [settle_mk] at hid ⊢
    simpa [beats_cons, Frame.beats_guarded guarded, hswept, Entry.beat?, hid, hkids] using
      Frame.Pulse.cut (n := cs.length) (f := f)
  | @panicked p f' st₁ st' tr tr' guarded activated =>
    obtain ⟨h, -⟩ | ⟨_, b, drawn, -, hf, rfl, htr⟩ := Frame.activate_spec activated
    · cases h
    obtain ⟨drawn, hstarts, hbegun⟩ := Frame.starts_of_activate activated hf (cs.map (·.id))
    simpa [beats_cons, Frame.beats_guarded guarded, hbegun, Entry.beat?, Frame.begun, Frame.view,
      hkids] using Frame.Pulse.panicked (n := cs.length) hf hstarts
  | @ticked f' as raw answer b cs' n st₁ st₂ st₃ st₄ st' tr₁ tr₂ tr₃ tr₄ tr₅ guarded activated
      served fits ticked resolved =>
    obtain ⟨drawn, hstarts, hgoes, hopened⟩ :=
      Frame.opens_of_activate activated (cs.map (·.id))
    obtain ⟨-, hop⟩ | ⟨_, _, _, h, -⟩ := Frame.activate_spec activated
    swap
    · cases h
    have hid : f'.id = f.id := hop.id_eq
    cases ticked with
    | @mk _ _ _ log st₀ _ trc tr₀ tables resumes visits answers =>
      have hids : cs'.flatMap ids = cs.flatMap ids := visits.flatMap_ids_eq (local_execute P s dt)
      have hresumed : beats f.id (cs.map (·.id)) tr₀ = [] := by
        rw [← beats_calls]
        exact Frame.beats_resumed resumes
      have hresolved : beats f.id (cs.map (·.id)) tr₅ = if n.frame.active then [] else [.ended] := by
        rw [← hid]
        exact beats_resolves resolved hop.active_eq (by rw [hids, hid]; exact hout)
      have hn' : n.view.id = f.id := by
        obtain ⟨g, cs'', _, _, _, rfl, -, hsettles, -⟩ := resolves_spec resolved
        exact hsettles.id_eq.trans hid
      have hbeats := visits.beats_eq hn
      have hends : f.Plain → ¬Going raw → n.frame.active = false := fun plain hraw =>
        resolved.ends (fun d hd => plain d (Frame.decorators_eq_of_bare hop.bare_eq ▸ hd)) hraw
      have h := Frame.Pulse.ticked (r := ⟨log, raw⟩) hstarts hgoes answers resolved.keeps hends
      simpa [beats_cons, Frame.beats_guarded guarded, hopened, Frame.beats_served served, hresumed,
        hbeats, hresolved, hid, Entry.beat?, hkids, hn', Round.beats] using h

theorem pulse_act (h : Handling H) {n : Node H} (sound : n.Sound) (hn : n.ids.Nodup) :
    n.frame.Pulse n.children.length (beats n.id n.kids (h.act n).trace) (h.act n).value.2.frame := by
  cases h with
  | execute s dt st => exact pulse_execute s dt sound hn st
  | abort s st =>
    obtain ⟨f, cs⟩ := n
    have hbeats := beats_sweep (s := s) hn
    rw [← calls_abort s (mk f cs) st, beats_calls] at hbeats
    change f.Pulse cs.length (beats f.id (cs.map (·.id)) ((mk f cs).abort s st).trace)
      ((mk f cs).abort s st).value.frame
    rw [hbeats, value_abort, settle_mk]
    exact .cut

theorem kids_eq_of_shape {n m : Node H} (h : n.shape = m.shape) : n.kids = m.kids := by
  obtain ⟨f, cs⟩ := n
  obtain ⟨g, ds⟩ := m
  rw [shape, shape, mapFrames_mk, mapFrames_mk] at h
  have hkids := congrArg kids h
  simp only [kids_mk, List.map_map] at hkids
  have hid : (Node.id ∘ mapFrames Frame.bare : Node H → NodeId) = Node.id := funext id_shape
  rwa [hid] at hkids

theorem plans_act (h : Handling H) {n : Node H} (hn : n.Sound) :
    (h.act n).value.2.plans = n.plans := by
  cases h with
  | execute s dt st => exact plans_execute s dt hn st
  | abort s st =>
    change (n.abort s st).value.plans = n.plans
    rw [value_abort, plans_settle]

theorem closed_act (h : Handling H) {n : Node H} (sound : n.Sound) (closed : n.Closed) :
    (h.act n).value.2.Closed := by
  cases h with
  | execute s dt st => exact closed_execute s dt sound closed st
  | abort s st =>
    change (n.abort s st).value.Closed
    rw [value_abort]
    exact closed_settle closed

theorem plan_eq_of_plans {n m : Node H} (h : n.plans = m.plans) : n.frame.plan = m.frame.plan := by
  obtain ⟨f, cs⟩ := n
  obtain ⟨g, ds⟩ := m
  rw [plans_mk, plans_mk] at h
  exact (List.cons.inj h).1

theorem length_eq_of_kids {n m : Node H} (h : n.kids = m.kids) :
    n.children.length = m.children.length := by
  have hlength := congrArg List.length h
  rwa [kids, List.length_map, kids, List.length_map] at hlength

theorem shown_handle {R : Frame H → List Beat → Prop} {n : Node H}
    (step : ∀ {f g : Frame H} {bs new : List Beat}, f.plan = n.frame.plan → R f bs →
      f.Pulse n.children.length new g → R g (bs ++ new))
    (hs : List (Handling H)) (sound : n.Sound) (distinct : n.ids.Nodup) {bs : List Beat}
    (hbs : R n.frame bs) : R (n.handle hs).1.frame (bs ++ beats n.id n.kids (n.handle hs).2) := by
  induction hs generalizing n bs with
  | nil => simpa [handle] using hbs
  | cons c hs ih =>
    have hshape := shape_act c sound
    have hkids := kids_eq_of_shape hshape
    have hplan := plan_eq_of_plans (plans_act c sound)
    have hrest := ih (n := (c.act n).value.2)
      (fun hf hbs hp => step (hf.trans hplan) hbs (length_eq_of_kids hkids ▸ hp))
      (sound_act c sound) (ids_eq_of_shape hshape ▸ distinct)
      (step rfl hbs (pulse_act c sound distinct))
    rw [id_eq_of_shape hshape, hkids] at hrest
    simpa [handle] using hrest

theorem only_kids {β : Type} {n : Node H} {r : Entry H.Note → Option β}
    (hr : Only (n.id :: n.kids) fun e => (r e).isSome) : Only n.ids fun e => (r e).isSome := by
  obtain ⟨f, cs⟩ := n
  refine hr.mono ?_
  rw [ids_mk]
  exact List.cons_subset_cons _ (sublist_kids cs).subset

theorem beats_eq_of_same {n : Node H} {tr tr' : List (Entry H.Note)}
    (same : ∀ p, Only n.ids p → tr.filter p = tr'.filter p) :
    beats n.id n.kids tr = beats n.id n.kids tr' := (only_kids only_beat).filterMap_eq same

theorem Undergoes.beats_eq {n m : Node H} {tr : List (Entry H.Note)} (h : n.Undergoes tr m) :
    ∃ hs, (n.handle hs).1 = m ∧ beats n.id n.kids tr = beats n.id n.kids (n.handle hs).2 :=
  h.calls.imp fun _ h => ⟨h.1, beats_eq_of_same h.2⟩

end Node

end TickTree
