import TickTree.Proofs.Practices
import TickTree.Proofs.Awaiting
/-! Random numbers. Where callbacks draw none, a run draws them at the starts of activations only,
in the order in which these begin. -/
namespace TickTree
variable {H : Host} {α β : Type} {ν : Type}

inductive Ask where
  /-- A number from zero to the bound. -/
  | upTo (bound : Nat)
  | uniform (bound : Float32)

def Make.asks (children : Nat) : Make → List Ask
  | randomSelector => ((List.range (children - 1)).map fun i => .upTo (i + 1)).reverse
  | wait _ variance => if 0 < variance then [.uniform variance] else []
  | _ => []

/-- A node is entered, or a number is drawn for it. -/
inductive Dealing where
  | entered (k : NodeId)
  | drew (k : NodeId) (draw : Draw)
  deriving DecidableEq

def Ask.draw (k : NodeId) : Ask → Traced Rng Dealing Unit
  | upTo bound, r => ⟨(), (r.upTo bound).2, [.drew k (.upTo bound (r.upTo bound).1)]⟩
  | uniform bound, r =>
    match r.uniform? bound with
    | none => ⟨(), r, []⟩
    | some (_, r) => ⟨(), r, [.drew k (.uniform bound)]⟩

def Ask.drawAll (k : NodeId) : List Ask → Traced Rng Dealing Unit
  | [] => pure ()
  | a :: as => do
    a.draw k
    drawAll k as

/-- These nodes are entered one after the other, and each at once gets what it asks for. -/
def account (asks : NodeId → List Ask) : List NodeId → Traced Rng Dealing Unit
  | [] => pure ()
  | k :: ks => do
    Traced.emit (.entered k)
    Ask.drawAll k (asks k)
    account asks ks

theorem account_append (asks : NodeId → List Ask) (ks ks' : List NodeId) :
    account asks (ks ++ ks') = account asks ks >>= fun _ => account asks ks' := by
  induction ks with
  | nil => rw [List.nil_append, account, pure_bind]
  | cons k ks ih => simp only [List.cons_append, account, ih, bind_assoc]

namespace Entry

def dealing? : Entry ν → Option Dealing
  | notice _ (.entered v _) => some (.entered v.id)
  | hook v (.drew d) => some (.drew v.id d)
  | _ => none

def entrant? : Entry ν → Option NodeId
  | notice _ (.entered v _) => some v.id
  | _ => none

theorem of_isSmall {e : Entry ν} (h : e.isSmall = true) :
    e.dealing? = none ∧ e.entrant? = none := by
  match e with
  | notice _ (.exited ..) | notice _ (.aborted _) | notice _ (.completed ..)
  | notice _ (.restarted _) | report _ => exact ⟨rfl, rfl⟩
  | hook _ h => cases h <;> simp_all [isSmall, dealing?, entrant?]

end Entry

def dealings (w : List (Entry ν)) : List Dealing := w.filterMap Entry.dealing?

def entrants (w : List (Entry ν)) : List NodeId := w.filterMap Entry.entrant?

@[simp] theorem dealings_append (w w' : List (Entry ν)) :
    dealings (w ++ w') = dealings w ++ dealings w' := List.filterMap_append

@[simp] theorem entrants_append (w w' : List (Entry ν)) :
    entrants (w ++ w') = entrants w ++ entrants w' := List.filterMap_append

/-- What is drawn over a trace, and the source after it, are as the nodes entered ask for. -/
def Pays (asks : NodeId → List Ask) (w : List (Entry ν)) (r r' : Rng) : Prop :=
  account asks (entrants w) r = ⟨(), r', dealings w⟩

namespace Pays
variable {asks : NodeId → List Ask} {w w' : List (Entry ν)} {r r' r'' : Rng}

theorem append (h : Pays asks w r r') (h' : Pays asks w' r' r'') : Pays asks (w ++ w') r r'' := by
  rw [Pays, entrants_append, account_append, Traced.bind_apply, h, h', dealings_append]

theorem of_silent (h : ∀ e ∈ w, e.dealing? = none ∧ e.entrant? = none) : Pays asks w r r := by
  have hdealings : dealings w = [] := List.filterMap_eq_nil_iff.mpr fun e he => (h e he).1
  have hentrants : entrants w = [] := List.filterMap_eq_nil_iff.mpr fun e he => (h e he).2
  rw [Pays, hdealings, hentrants]
  rfl

theorem nil : Pays asks ([] : List (Entry ν)) r r := rfl

theorem source_eq (h : Pays asks w r r') (none : ∀ k ∈ entrants w, asks k = []) : r' = r := by
  have hidle : ∀ ks : List NodeId, (∀ k ∈ ks, asks k = []) → (account asks ks r).state = r := by
    intro ks hks
    induction ks with
    | nil => rfl
    | cons k ks ih =>
      obtain ⟨hk, hks⟩ := List.forall_mem_cons.mp hks
      rw [account, hk]
      exact ih hks
  have hstate := hidle _ none
  rw [h] at hstate
  exact hstate

end Pays

/-- Callbacks of this host draw no random numbers. -/
structure Host.Sober (H : Host) : Prop where
  start : ∀ a s r, (H.start a s r).state.rng = r.rng
  tick : ∀ a s dt r, (H.tick a s dt r).state.rng = r.rng
  finish : ∀ a s x r, (H.finish a s x r).state.rng = r.rng
  attached : ∀ l s v r, (H.attached l s v r).state.rng = r.rng
  serve : ∀ l s v dt r, (H.serve l s v dt r).state.rng = r.rng
  detached : ∀ l s v r, (H.detached l s v r).state.rng = r.rng

/-- The computation draws what the nodes that it enters ask for. -/
def Exec.Spends (asks : NodeId → List Ask) (x : Exec H α) : Prop :=
  ∀ st, Pays asks (x st).trace st.rng (x st).state.rng

namespace Exec
variable {asks : NodeId → List Ask} {x : Exec H α}

theorem Spends.bind {f : α → Exec H β} (hx : Spends asks x) (hf : ∀ a, Spends asks (f a)) :
    Spends asks (x >>= f) := fun st => (hx st).append (hf _ _)

theorem spends_small (h : x.Small) : Spends asks x := fun st => by
  rw [(h st).2.1]
  exact .of_silent fun e he => Entry.of_isSmall ((h st).2.2 e he)

theorem spends_look (x : Traced (World H.State) H.Note α) : Spends asks (look x : Exec H α) :=
  fun _ => .of_silent (by simp [Entry.dealing?, Entry.entrant?])

theorem spends_reach {x : Traced (Reach H.State) H.Note α} (h : ∀ r, (x r).state.rng = r.rng) :
    Spends asks (reach x : Exec H α) := fun st => by
  rw [reach_apply, h]
  exact .of_silent (by simp [Entry.dealing?, Entry.entrant?])

end Exec

section Sober
variable (sober : H.Sober) (asks : NodeId → List Ask) (s : Setting)

def Host.Sober.ending : Ending H s where
  holds := Exec.Spends asks
  small := Exec.spends_small
  bind := Exec.Spends.bind
  finish a x := Exec.spends_reach (sober.finish a s.scope x)
  finished _ _ _ := Exec.spends_look _
  aborted _ _ := Exec.spends_look _
  detached l v := Exec.spends_reach (sober.detached l s.scope v)

def Host.Sober.practice (dt : Float32) : Practice H s dt where
  toEnding := sober.ending asks s
  tick a := Exec.spends_reach (sober.tick a s.scope dt)
  check _ := Exec.spends_look _
  allows _ _ := Exec.spends_look _
  modifier _ _ _ _ _ := Exec.spends_look _
  serve l v := Exec.spends_reach (sober.serve l s.scope v dt)

end Sober

/-! ### The start of an activation -/

theorem drawAll_order (k : NodeId) (n i : Nat) (r : Rng) :
    Ask.drawAll k ((List.range i).map fun i => .upTo (i + 1)).reverse r =
      ⟨(), (r.draws i).2,
        ((r.draws i).1.zipIdx n).map fun x => .drew k (.upTo (i + n - x.2) x.1)⟩ := by
  induction i generalizing n r with
  | zero => rfl
  | succ i ih =>
    have hbound : i + (n + 1) = i + 1 + n := by omega
    rw [List.range_succ, List.map_append, List.map_singleton, List.reverse_append,
      List.reverse_singleton, List.singleton_append, Ask.drawAll, Traced.bind_apply]
    simp only [Ask.draw, ih (n + 1), Rng.draws, List.zipIdx_cons, List.map_cons, hbound]
    simp

namespace Behavior
variable {s : Setting} {v : View} {n : Nat}

theorem start_drawAll (sober : H.Sober) (b : Behavior H) (st : Stage H) :
    let o := b.start s v n st
    Ask.drawAll v.id (b.make.asks n) st.rng = ⟨(), o.state.rng, dealings o.trace⟩ ∧
      entrants o.trace = [] := by
  cases b with
  | action a =>
    have hrng := sober.start a s.scope ⟨st.world, st.rng⟩
    simp [start, make, Make.asks, Ask.drawAll, dealings, entrants, List.filterMap_map,
      Function.comp_def, Entry.dealing?, Entry.entrant?, hrng]
  | randomSelector cursor order =>
    have horder := drawAll_order v.id 0 (n - 1) st.rng
    simp [start, make, Make.asks, horder, shuffle, dealings, entrants, List.filterMap_map,
      Function.comp_def, Entry.dealing?, Entry.entrant?]
  | wait w =>
    rw [start, make, Make.asks]
    by_cases hpos : 0 < w.variance
    · rcases hr : st.rng.uniform? w.variance with _ | ⟨x, r⟩ <;>
        simp [hpos, hr, Wait.start, Wait.draws, Ask.drawAll, Ask.draw, dealings, entrants,
          Entry.dealing?, Entry.entrant?]
    · simp [hpos, Wait.start, Wait.draws, Ask.drawAll, dealings, entrants]
  | _ => exact ⟨rfl, rfl⟩

end Behavior

namespace Frame
variable {asks : NodeId → List Ask} {s : Setting}

theorem spends_attach (sober : H.Sober) (v : View) (slot : Nat) (as : List (Attachment H)) :
    Exec.Spends asks (attach s v slot as) := by
  induction as generalizing slot with
  | nil => exact (sober.ending asks s).pure ()
  | cons a as ih =>
    refine (sober.ending asks s).after_hook nofun (Exec.Spends.bind ?_ fun _ => ih (slot + 1))
    exact Exec.spends_reach (sober.attached a.service.label s.scope v)

/-- The entry of a node and the start of its behavior: what the node asks for is drawn, before all
that comes after. -/
theorem spends_begin (sober : H.Sober) {f : Frame H} {n : Nat} {elapsed : Float32}
    {rest : Except Panic Unit × Behavior H → Exec H α} (h : asks f.id = f.behavior.make.asks n)
    (hrest : ∀ o, Exec.Spends asks (rest o)) : Exec.Spends asks (do
      Exec.notify s (.entered f.view elapsed)
      Exec.hook f.view .started
      let o ← f.behavior.start s f.view n
      rest o) := by
  intro st
  obtain ⟨hdraws, hentrants⟩ := Behavior.start_drawAll (s := s) (v := f.view) (n := n) sober
    f.behavior st
  rw [id_view, ← h] at hdraws
  simp only [Traced.bind_apply, Exec.notify_apply, Exec.hook_apply]
  generalize f.behavior.start s f.view n st = o at hdraws hentrants ⊢
  have hnodes : entrants (.notice s.listener (.entered f.view elapsed) ::
      .hook f.view .started :: o.trace) = [f.id] := congrArg (f.id :: ·) hentrants
  have hdealings : dealings (.notice s.listener (.entered f.view elapsed) ::
      .hook f.view .started :: o.trace) = .entered f.id :: dealings o.trace := rfl
  have hbegin : Pays asks (.notice s.listener (.entered f.view elapsed) ::
      .hook f.view .started :: o.trace) st.rng o.state.rng := by
    rw [Pays, hnodes, hdealings, account, Traced.bind_apply, Traced.emit_apply, Traced.bind_apply,
      hdraws]
    simp [account]
  exact hbegin.append (hrest o.value o.state)

theorem spends_activate (sober : H.Sober) {f : Frame H} {n : Nat}
    (h : asks f.id = f.behavior.make.asks n) : Exec.Spends asks (f.activate s n) := by
  rw [activate]
  split
  · exact (sober.ending asks s).pure _
  · refine spends_begin sober h fun o => ?_
    obtain ⟨_ | ⟨⟩, b⟩ := o
    · exact (sober.ending asks s).pure _
    · exact (sober.ending asks s).last (spends_attach sober _ 0 _)

end Frame

namespace Node

mutual
/-- What the node of this id asks for when an activation of it starts. -/
def requests : Node H → NodeId → List Ask
  | mk f cs, k => (if f.id = k then f.behavior.make.asks cs.length else []) ++ requestsAll cs k

def requestsAll : List (Node H) → NodeId → List Ask
  | [], _ => []
  | c :: cs, k => requests c k ++ requestsAll cs k
end

theorem requestsAll_eq_flatMap (cs : List (Node H)) (k : NodeId) :
    requestsAll cs k = cs.flatMap fun c => c.requests k := by
  induction cs with
  | nil => rfl
  | cons c cs ih => rw [requestsAll, ih, List.flatMap_cons]

theorem requests_mk (f : Frame H) (cs : List (Node H)) (k : NodeId) : (mk f cs).requests k =
    (if f.id = k then f.behavior.make.asks cs.length else []) ++
      cs.flatMap fun c => c.requests k := by
  rw [requests, requestsAll_eq_flatMap]

theorem requests_of_notMem {n : Node H} {k : NodeId} (hk : k ∉ n.ids) : n.requests k = [] := by
  induction n with
  | mk f cs ih =>
    rw [ids_mk, List.mem_cons, List.mem_flatMap, not_or] at hk
    obtain ⟨hf, hcs⟩ := hk
    rw [requests_mk, if_neg (Ne.symm hf), List.nil_append, List.flatMap_eq_nil_iff]
    exact fun c hc => ih c hc fun hkc => hcs ⟨c, hc, hkc⟩

theorem flatMap_requests {cs : List (Node H)} (distinct : (cs.flatMap ids).Nodup) {c : Node H}
    (hc : c ∈ cs) {k : NodeId} (hk : k ∈ c.ids) :
    (cs.flatMap fun c => c.requests k) = c.requests k := by
  induction cs with
  | nil => cases hc
  | cons d cs ih =>
    rw [List.flatMap_cons] at distinct ⊢
    obtain ⟨-, hrest, hapart⟩ := List.nodup_append'.mp distinct
    obtain rfl | hc := List.mem_cons.mp hc
    · have hnone : (cs.flatMap fun c => c.requests k) = [] :=
        List.flatMap_eq_nil_iff.mpr fun d hd =>
          requests_of_notMem fun hkd => hapart hk (List.mem_flatMap.mpr ⟨d, hd, hkd⟩)
      rw [hnone, List.append_nil]
    · have hkd : k ∉ d.ids := fun hkd => hapart hkd (List.mem_flatMap.mpr ⟨c, hc, hk⟩)
      rw [requests_of_notMem hkd, List.nil_append, ih hrest hc]

def Asks (asks : NodeId → List Ask) (n : Node H) : Prop :=
  n.All fun f cs => asks f.id = f.behavior.make.asks cs.length

/-- Where nodes can be told apart, each asks for what it is made to ask for. -/
theorem asks_requests {n : Node H} (distinct : n.ids.Nodup) : n.Asks n.requests := by
  suffices h : n.All fun f cs =>
      f.id ∈ n.ids ∧ n.requests f.id = f.behavior.make.asks cs.length from h.imp fun _ _ h => h.2
  induction n with
  | mk f cs ih =>
    rw [ids_mk, List.nodup_cons] at distinct
    obtain ⟨hf, hcs⟩ := distinct
    have hnone : (cs.flatMap fun c => c.requests f.id) = [] :=
      List.flatMap_eq_nil_iff.mpr fun c hc =>
        requests_of_notMem fun hk => hf (List.mem_flatMap.mpr ⟨c, hc, hk⟩)
    refine .mk ⟨by simp, by rw [requests_mk, if_pos rfl, hnone, List.append_nil]⟩ fun c hc => ?_
    refine (ih c hc ((List.nodup_flatMap.mp hcs).1 c hc)).imp fun g ds ⟨hg, hasks⟩ => ?_
    have hmem : g.id ∈ cs.flatMap ids := List.mem_flatMap.mpr ⟨c, hc, hg⟩
    have hne : f.id ≠ g.id := fun h => hf (h ▸ hmem)
    refine ⟨by rw [ids_mk]; exact List.mem_cons_of_mem _ hmem, ?_⟩
    rw [requests_mk, if_neg hne, List.nil_append, flatMap_requests hcs hc hg, hasks]

variable {asks : NodeId → List Ask}

theorem asks_settle {n : Node H} (h : n.Asks asks) : n.settle.Asks asks :=
  all_settle (p := fun p n => asks p.1.id = p.2.asks n) h

theorem asks_execute (s : Setting) (dt : Float32) {n : Node H} (h : n.Sound) (hn : n.Asks asks)
    (st : Stage H) : (n.execute s dt st).value.2.Asks asks :=
  all_execute (p := fun p n => asks p.1.id = p.2.asks n) s dt h hn st

theorem spends_execute (sober : H.Sober) {n : Node H} (h : n.Asks asks) (s : Setting)
    (dt : Float32) : Exec.Spends asks (n.execute s dt) :=
  (sober.practice asks s dt).execute (h.imp fun _ _ h => Frame.spends_activate sober h)

theorem spends_abort (sober : H.Sober) (asks : NodeId → List Ask) (s : Setting) (n : Node H) :
    Exec.Spends asks (n.abort s) := (sober.ending asks s).abort n

theorem rng_abort (sober : H.Sober) (s : Setting) (n : Node H) (st : Stage H) :
    (n.abort s st).state.rng = st.rng :=
  (spends_abort sober (fun _ => []) s n st).source_eq fun _ _ => rfl

end Node

/-! ### Runs -/

section Runs
variable {asks : NodeId → List Ask}

def Move.Frugal : Move H → Prop
  | outside change => ∀ st, (change st).rng = st.rng
  | _ => True

theorem pays_act (sober : H.Sober) {m : Move H} (hm : m.Frugal) {t : Rooted H}
    (h : t.root.Asks asks) (st : Stage H) :
    Pays asks (m.act t st).trace st.rng (m.act t st).state.rng := by
  cases m with
  | execute dt => simpa [Move.act] using Node.spends_execute sober h t.setting dt st
  | abort => simpa [Move.act] using Node.spends_abort sober asks t.setting t.root st
  | beginTick dt => exact .nil
  | outside change =>
    simp only [Move.act, Traced.bind_apply, Traced.modify_apply, Traced.pure_apply,
      List.append_nil, hm st]
    exact .nil

theorem asks_act (m : Move H) {t : Rooted H} (h : t.root.Sound ∧ t.root.Asks asks) (st : Stage H) :
    (m.act t st).value.2.root.Sound ∧ (m.act t st).value.2.root.Asks asks :=
  act_root (I := fun n => n.Sound ∧ n.Asks asks)
    (fun _ s dt st h => ⟨Node.sound_execute s dt h.1 st, Node.asks_execute s dt h.1 h.2 st⟩)
    (fun _ h => ⟨Node.sound_settle h.1, Node.asks_settle h.2⟩) m h st

theorem pays_play (sober : H.Sober) {ms : List (Move H)} (hms : ∀ m ∈ ms, m.Frugal) {t : Rooted H}
    (h : t.root.Sound ∧ t.root.Asks asks) (st : Stage H) :
    Pays asks (play ms t st).trace st.rng (play ms t st).state.rng := by
  induction ms generalizing t st with
  | nil => exact .nil
  | cons m ms ih =>
    obtain ⟨hm, hms⟩ := List.forall_mem_cons.mp hms
    rw [play_cons]
    exact (pays_act sober hm h.2 st).append (ih hms (asks_act m h st) _)

namespace Instance
variable {i : Instance H}

theorem pays_tick (sober : H.Sober) (h : i.root.Asks asks) (dt : Float32) (r : Realm H) :
    let o := i.tick dt r
    Pays asks o.trace i.context.rng o.value.2.context.rng := by
  have hspends := Node.spends_execute sober h (i.context.beginTick dt).toSetting dt
    ⟨r, i.context.rng⟩
  have hticks := i.tick_spec dt r
  generalize i.tick dt r = o at hticks
  cases hticks with
  | ended => exact .nil
  | kept _ executed => rwa [executed] at hspends
  | completed _ executed =>
    rw [executed] at hspends
    exact hspends.append (.of_silent (by simp [Entry.dealing?, Entry.entrant?]))

theorem pays_abortRoot (sober : H.Sober) (asks : NodeId → List Ask) (i : Instance H)
    (r : Realm H) : let o := i.abortRoot r
    Pays asks o.trace i.context.rng o.value.context.rng := by
  rw [abortRoot_apply]
  exact Node.spends_abort sober asks _ _ _

theorem pays_order (sober : H.Sober) (m : Order H) (h : i.root.Asks asks) (r : Realm H) :
    let o := m.act i r
    Pays asks o.trace i.context.rng o.value.2.context.rng := by
  cases m with
  | tick dt => simpa [Order.act] using pays_tick sober h dt r
  | restart =>
    have habort := pays_abortRoot sober asks i r
    simp only [Order.act, restart, Traced.bind_apply, Traced.pure_apply, List.append_nil]
    exact habort.append (.of_silent (by simp [Turn.report, Turn.notify, Entry.dealing?,
      Entry.entrant?]))
  | abort =>
    have habort := pays_abortRoot sober asks i r
    simp only [Order.act, Instance.abort]
    split
    · simp only [Traced.bind_apply, Traced.pure_apply, List.append_nil]
      exact habort.append (.of_silent (by simp [Turn.report, Turn.notify, Entry.dealing?,
        Entry.entrant?]))
    · exact .nil
  | outside change => exact .nil

theorem asks_order (m : Order H) (h : i.root.Sound ∧ i.root.Asks asks) (r : Realm H) :
    (m.act i r).value.2.root.Sound ∧ (m.act i r).value.2.root.Asks asks := by
  have hsettle : i.root.settle.Sound ∧ i.root.settle.Asks asks :=
    ⟨Node.sound_settle h.1, Node.asks_settle h.2⟩
  cases m with
  | tick dt =>
    have hsound := Node.sound_execute (i.context.beginTick dt).toSetting dt h.1 ⟨r, i.context.rng⟩
    have hasks := Node.asks_execute (i.context.beginTick dt).toSetting dt h.1 h.2
      ⟨r, i.context.rng⟩
    have hticks := i.tick_spec dt r
    simp only [Order.act, Traced.bind_apply, Traced.pure_apply]
    generalize i.tick dt r = o at hticks
    cases hticks with
    | ended => exact h
    | kept _ executed | completed _ executed =>
      rw [executed] at hsound hasks
      exact ⟨hsound, hasks⟩
  | restart => simpa [Order.act, restart, abortRoot_apply] using hsettle
  | abort =>
    simp only [Order.act, Instance.abort]
    split
    · simpa [abortRoot_apply] using hsettle
    · exact h
  | outside change => exact h

theorem pays_attend (sober : H.Sober) (ms : List (Order H))
    (h : i.root.Sound ∧ i.root.Asks asks) (r : Realm H) :
    let o := attend ms i r
    Pays asks o.trace i.context.rng o.value.2.context.rng := by
  induction ms generalizing i r with
  | nil => exact .nil
  | cons m ms ih =>
    simp only [attend, Traced.bind_apply, Traced.pure_apply, List.append_nil]
    exact (pays_order sober m h.2 r).append (ih (asks_order m h r) _)

end Instance

end Runs

/-- Where callbacks draw no random numbers, a run draws them where an activation starts and nowhere
else: a random selector one for every position of its order from the last down to the second, a wait
with a variance one, and other nodes none. They are drawn as the nodes are entered, each from where
the one before has left the source. -/
theorem draws_of_play (sober : H.Sober) {root : Node H} (idle : root.Idle)
    (distinct : root.ids.Nodup) :
    (root.All fun f cs => root.requests f.id = f.behavior.make.asks cs.length) ∧
      (∀ (setting : Setting) (ms : List (Move H)) (st : Stage H), (∀ m ∈ ms, m.Frugal) →
        let o := play ms ⟨setting, root⟩ st
        let n := o.value.2.root
        account root.requests (entrants o.trace) st.rng = ⟨(), o.state.rng, dealings o.trace⟩ ∧
          (∀ s st, (n.abort s st).state.rng = st.rng) ∧
          ∀ s dt st, (∀ k ∈ entrants (n.execute s dt st).trace, root.requests k = []) →
            (n.execute s dt st).state.rng = st.rng) ∧
      ∀ (context : Context) (ms : List (Order H)) (r : Realm H),
        let o := Instance.attend ms (.ofRoot root context) r
        account root.requests (entrants o.trace) context.rng =
          ⟨(), o.value.2.context.rng, dealings o.trace⟩ := by
  have hasks := Node.asks_requests distinct
  have hroot : root.Sound ∧ root.Asks root.requests := ⟨Node.sound_of_idle idle, hasks⟩
  refine ⟨hasks, fun setting ms st hms => ?_, fun context ms r => ?_⟩
  · have hend := play_keeps (I := fun t => t.root.Sound ∧ t.root.Asks root.requests)
      (fun m _ st h => asks_act m h st) ms (t := ⟨setting, root⟩) hroot st
    exact ⟨pays_play sober hms hroot st, fun s st => Node.rng_abort sober s _ st,
      fun s dt st none => (Node.spends_execute sober hend.2 s dt st).source_eq none⟩
  · exact Instance.pays_attend (i := .ofRoot root context) sober ms hroot r

theorem Host.echo_sober : Host.echo.Sober :=
  ⟨fun _ _ _ => rfl, fun _ _ _ _ => rfl, fun _ _ _ _ => rfl, fun _ _ _ _ => rfl,
    fun _ _ _ _ _ => rfl, fun _ _ _ _ => rfl⟩

def Rooted.restless : Rooted Host.echo :=
  { echo with
    root := .mk (.idle 4 "" (.randomSelector 0 []))
      [.mk (.idle 1 "" (.action .failure)) [], Rooted.drowsy.root] }

/-- The selector draws its order, and the wait its time when the selector comes to it. Neither the
second tick nor the abort draws anything. -/
theorem draws_of_play_restless :
    let root := Rooted.restless.root
    let ms : List (Move Host.echo) := [.execute 1, .execute 1, .abort]
    let o := play ms ⟨Rooted.echo.setting, root⟩ Rooted.still
    let drawn : List Dealing := [.entered 4, .drew 4 (.upTo 1 1), .entered 1, .entered 3,
      .drew 3 (.uniform 1)]
    (Host.echo.Sober ∧ root.Idle ∧ root.ids.Nodup ∧ ∀ m ∈ ms, m.Frugal) ∧
      (entrants o.trace = [4, 1, 3] ∧ dealings o.trace = drawn) ∧
      account root.requests [4, 1, 3] Rooted.still.rng = ⟨(), o.state.rng, drawn⟩ := by
  intro root ms o drawn
  have hidle : root.Idle := by decide
  have hdistinct : root.ids.Nodup := by decide
  have hfrugal : ∀ m ∈ ms, m.Frugal := by simp [ms, Move.Frugal]
  have htold : entrants o.trace = [4, 1, 3] ∧ dealings o.trace = drawn := by decide +kernel
  obtain ⟨-, hplay, -⟩ := draws_of_play Host.echo_sober hidle hdistinct
  obtain ⟨haccount, -⟩ := hplay Rooted.echo.setting ms Rooted.still hfrugal
  rw [show play ms ⟨Rooted.echo.setting, root⟩ Rooted.still = o from rfl] at haccount
  clear_value o
  rw [htold.1, htold.2] at haccount
  exact ⟨⟨Host.echo_sober, hidle, hdistinct, hfrugal⟩, htold, haccount⟩

end TickTree
