import TickTree.Proofs.Reshuffling
/-! Laps: the ticks of a node as its clocks see them. An activation is read off a trace lap by lap,
with the services that fire and the duration that its end reports. What laps keep holds of every
activation of every run. -/
namespace TickTree
variable {H : Host} {ν : Type}

inductive Pace where
  | entered
  | fired (slot : Nat) (dt : Float32)
  /-- The behavior is ticked, at this time of the activation. -/
  | ticked (time dt : Float32)
  | answered (raw : Answer)
  | exited (result : Status) (duration : Float32)
  deriving DecidableEq

def Entry.pace? : Entry ν → Option Pace
  | .notice _ (.entered ..) => some .entered
  | .notice _ (.exited _ result duration) => some (.exited result duration)
  | .hook _ (.serviced slot dt) => some (.fired slot dt)
  | .hook v (.ticked dt) => some (.ticked v.time dt)
  | .hook _ (.answered raw) => some (.answered raw)
  | _ => none

def paces (k : NodeId) (tr : List (Entry ν)) : List Pace := (own k tr).filterMap Entry.pace?

section Read
variable {k : NodeId} {tr tr' : List (Entry ν)}

@[simp] theorem paces_nil : paces k ([] : List (Entry ν)) = [] := rfl

@[simp] theorem paces_append : paces k (tr ++ tr') = paces k tr ++ paces k tr' := by
  simp [paces]

theorem paces_cons {e : Entry ν} (he : e.about = some k) :
    paces k (e :: tr) = e.pace?.toList ++ paces k tr := by
  cases h : e.pace? <;> simp [paces, own, he, h]

@[simp] theorem paces_calls : paces k (calls tr) = paces k tr := by
  rw [paces, own_calls, paces]

theorem paces_eq_nil (h : ∀ e ∈ tr, e.pace? = none) : paces k tr = [] :=
  List.filterMap_eq_nil_iff.mpr fun e he => h e (List.mem_of_mem_filter he)

theorem paces_of_own (h : own k tr = []) : paces k tr = [] := by
  rw [paces, h, List.filterMap_nil]

theorem paces_slots {v : View} {h : Nat → Hook} (n : Nat)
    (dull : ∀ i, (.hook v (h i) : Entry ν).pace? = none) :
    paces k (slots v h 0 n : List (Entry ν)) = [] := by
  refine paces_eq_nil fun e he => ?_
  obtain ⟨i, -, rfl⟩ := mem_slots.mp he
  exact dull i

theorem paces_fired (v : View) (dt : Float32) (slots : List Nat) :
    paces v.id (slots.map fun i => (.hook v (.serviced i dt) : Entry ν)) =
      slots.map (.fired · dt) := by
  rw [paces, own_eq_self (mine_map_hook v (.serviced · dt) slots), List.filterMap_map]
  exact List.filterMap_eq_map (f := (Pace.fired · dt)) ▸ rfl

end Read

/-- One tick of an activation: the time before it, its length, the services fired just before the
behavior is ticked, and what the behavior answers. -/
structure Lap where
  time : Float32
  dt : Float32
  fired : List Nat
  raw : Answer
  deriving DecidableEq

namespace Lap

def paces (l : Lap) : List Pace :=
  l.fired.map (.fired · l.dt) ++ [.ticked l.time l.dt, .answered l.raw]

/-- A lap counts if the behavior has given a result. -/
def counted (l : Lap) : Option Float32 :=
  match l.raw with
  | .ok _ => some l.dt
  | .error _ => none

theorem entered_notMem_paces (l : Lap) : Pace.entered ∉ l.paces := by simp [paces]

end Lap

def clock (ls : List Lap) : Float32 := (ls.filterMap Lap.counted).foldl (· + ·) 0

theorem clock_append (ls : List Lap) (l : Lap) :
    clock (ls ++ [l]) = l.counted.elim (clock ls) (clock ls + ·) := by
  cases h : l.counted <;> simp [clock, h]

def running (ls : List Lap) : List Pace := .entered :: ls.flatMap Lap.paces

theorem running_append (ls : List Lap) (l : Lap) : running (ls ++ [l]) = running ls ++ l.paces := by
  simp [running]

/-- An activation that is over, with what its end reports. -/
structure Spell where
  laps : List Lap
  result : Status
  duration : Float32

def Spell.paces (s : Spell) : List Pace := running s.laps ++ [.exited s.result s.duration]

namespace Frame

def StartsAs (n : Nat) (r : Rng) (f : Frame H) (started : Except Panic Unit) (b : Behavior H) :
    Prop :=
  ∃ s v st, st.rng = r ∧ (f.behavior.start s v n st).value = (started, b)

def opened (b : Behavior H) (f : Frame H) : Frame H :=
  { f.begun b with services := f.services.map Attachment.reset }

def lap (dt : Float32) (raw : Answer) (f : Frame H) : Lap :=
  ⟨f.time, dt, Attachment.due dt 0 f.services, raw⟩

def lapped (dt : Float32) (raw : Answer) (b : Behavior H) (f : Frame H) : Frame H :=
  { f with services := Attachment.advanceAll dt f.services, behavior := b,
           time := (f.lap dt raw).counted.elim f.time (f.time + ·) }

inductive OpensAs (n : Nat) (r : Rng) (f : Frame H) : List Pace → Frame H → Prop
  | already (hf : f.active = true) : OpensAs n r f [] f
  | fresh {b : Behavior H} (hf : f.active = false) (starts : f.StartsAs n r (.ok ()) b) :
    OpensAs n r f [.entered] (f.opened b)

/-- What one call tells the clocks of a node with so many children, and the frame after it. The
activation is cut short, if there is one; the start of one panics; or there is a lap, after which
the activation goes on or is over. -/
inductive Stint (n : Nat) (r : Rng) (f : Frame H) : List Pace → Frame H → Prop
  | cut : Stint n r f (if f.active then [.exited .failure f.time] else []) f.settle
  | panicked {p : Panic} {b : Behavior H} (idle : f.active = false)
    (starts : f.StartsAs n r (.error p) b) : Stint n r f [.entered] (f.begun b)
  | kept {op : List Pace} {g : Frame H} {dt : Float32} {log : Log} {raw : Answer} {b : Behavior H}
    (opens : f.OpensAs n r op g) (answers : g.behavior.Answers dt n log raw b)
    (going : f.Plain → Going raw) : Stint n r f (op ++ (g.lap dt raw).paces) (g.lapped dt raw b)
  | ended {op : List Pace} {g : Frame H} {dt : Float32} {log : Log} {raw result : Status}
    {b b' : Behavior H} (opens : f.OpensAs n r op g)
    (answers : g.behavior.Answers dt n log (.ok raw) b) :
    Stint n r f (op ++ ((g.lap dt (.ok raw)).paces ++ [.exited result (g.time + dt)]))
      { (g.lapped dt (.ok raw) b).ended with behavior := b' }

section Shown
variable {s : Setting} {dt : Float32} {f f' g : Frame H} {n : Nat} {st st' : Stage H}
  {tr : List (Entry H.Note)} {k : NodeId}

theorem paces_guarded {v : View} {slot : Nat} {ds : List (Decorator H)} {passed : Bool}
    (guarded : guards s v slot ds st = ⟨passed, st', tr⟩) : paces k tr = [] := by
  rw [← paces_calls]
  refine paces_eq_nil fun e he => ?_
  obtain ⟨i, passed, rfl⟩ := calls_guards guarded e he
  rfl

theorem paces_served {v : View} {slot : Nat} {as as' : List (Attachment H)}
    (served : serve s v dt slot as st = ⟨as', st', tr⟩) :
    paces v.id tr = (Attachment.due dt slot as).map (.fired · dt) := by
  have htr := (serve_spec s v dt slot as st).2
  rw [served] at htr
  rw [← paces_calls, htr, paces_fired]

theorem paces_closing (s : Setting) (result : Status) (f : Frame H) :
    paces f.id (f.closing s result) = [.exited result f.time] := by
  rw [closing, paces_append, paces_slots _ fun _ => rfl, paces_cons rfl]
  rfl

theorem paces_sweep (s : Setting) (f : Frame H) :
    paces f.id (f.sweep s) = if f.active then [.exited .failure f.time] else [] := by
  unfold sweep
  split
  · rw [forced, paces_append, paces_append, paces_slots _ fun _ => rfl, paces_closing,
      paces_cons rfl]
    rfl
  · rfl

theorem paces_concluding (s : Setting) (result : Status) (f : Frame H) (n : Nat) :
    paces f.id (.hook f.view (.terminated result) :: (f.closing s result ++
      slots f.ended.view (.finished · result) 0 n)) = [.exited result f.time] := by
  rw [paces_cons rfl, paces_append, paces_closing, paces_slots _ fun _ => rfl]
  rfl

theorem paces_start (s : Setting) (f : Frame H) (drawn : List Draw) :
    paces f.id (f.start s drawn) = [.entered] := by
  have hdrawn : paces f.id (drawn.map fun d =>
      (.hook ⟨f.id, f.name, true, 0⟩ (.drew d) : Entry H.Note)) = [] :=
    paces_eq_nil (by simp [Entry.pace?])
  rw [start, paces_cons rfl, paces_cons rfl, hdrawn]
  rfl

theorem Modified.paces_eq {slot : Nat} {ds : List (Decorator H)} {before after : Status}
    {hs : List Hook} (h : Modified dt slot ds before hs after) (v : View) :
    paces k (hs.map (.hook v) : List (Entry ν)) = [] := by
  refine paces_eq_nil fun e he => ?_
  obtain ⟨hook, hhook, rfl⟩ := List.mem_map.mp he
  obtain ⟨i, a, b, rfl⟩ := h.exists_eq hook hhook
  rfl

theorem startsAs_of_activate {started : Except Panic Unit} (hf : f.active = false)
    (h : f.activate s n st = ⟨(started, f'), st', tr⟩) :
    f.StartsAs n st.rng started f'.behavior := by
  obtain ⟨v, hstarted, hb⟩ := activate_of_idle hf s n st
  rw [h] at hstarted hb
  exact ⟨s, v, st, rfl, Prod.ext hstarted.symm hb.symm⟩

theorem opensAs_of_activate (h : f.activate s n st = ⟨(.ok (), f'), st', tr⟩) :
    f.OpensAs n st.rng (paces f.id tr) f' := by
  obtain ⟨-, hop⟩ | ⟨_, _, _, h, -⟩ := activate_spec h
  swap
  · cases h
  rw [← paces_calls]
  generalize calls tr = op at hop
  cases hop with
  | already hf => exact .already hf
  | @fresh b drawn hf =>
    rw [paces_append, paces_start, paces_slots _ fun _ => rfl]
    exact .fresh hf (startsAs_of_activate hf h)

theorem OpensAs.id_eq {r : Rng} {op : List Pace} (h : f.OpensAs n r op g) : g.id = f.id := by
  cases h <;> rfl

theorem OpensAs.active_eq {r : Rng} {op : List Pace} (h : f.OpensAs n r op g) :
    g.active = true := by
  cases h with
  | already hf => exact hf
  | fresh => rfl

theorem OpensAs.bare_eq {r : Rng} {op : List Pace} (h : f.OpensAs n r op g) : g.bare = f.bare := by
  cases h with
  | already => rfl
  | fresh => simp [bare, opened, begun, Function.comp_def, Attachment.reset]

theorem Settles.stint {r : Rng} {op : List Pace} {log : Log} {raw answer : Answer} {b : Behavior H}
    {w : List (Entry H.Note)} (opens : f.OpensAs n r op g)
    (answers : g.behavior.Answers dt n log raw b)
    (settles : { g with services := Attachment.advanceAll dt g.services, behavior := b }.Settles
      s dt raw answer w f')
    (ends : f.Plain → ¬Going raw → f'.active = false) :
    f.Stint n r (op ++ ((g.lap dt raw).paces ++ paces f.id w)) f' := by
  have hactive := opens.active_eq
  have hid := opens.id_eq
  have hgoing (hf' : f'.active = true) (plain : f.Plain) : Going raw := by
    by_contra hraw
    rw [ends plain hraw] at hf'
    cases hf'
  cases settles with
  | stopped =>
    rw [paces_nil, List.append_nil]
    exact .kept opens answers (hgoing hactive)
  | kept modified =>
    rw [modified.paces_eq, List.append_nil]
    exact .kept opens answers (hgoing hactive)
  | concluded modified =>
    rw [paces_append, modified.paces_eq, List.nil_append, ← hid]
    exact (paces_concluding s _ _ _).symm ▸ .ended opens answers

end Shown
end Frame

namespace Node
variable {s : Setting} {dt : Float32} {f : Frame H} {cs : List (Node H)}

theorem paces_sweep (hout : f.id ∉ cs.flatMap ids) :
    paces f.id ((mk f cs).sweep s) = if f.active then [.exited .failure f.time] else [] := by
  have hbelow : paces f.id (cs.flatMap (sweep s)) = [] :=
    paces_of_own ((within_sweeps s cs).own_eq_nil hout)
  rw [sweep_mk, paces_append, Frame.paces_sweep]
  split
  · rw [hbelow, List.nil_append]
  · rfl

/-- What an execution tells the clocks of a node. -/
theorem stint_execute (s : Setting) (dt : Float32) {n : Node H} (h : n.Sound) (hn : n.ids.Nodup)
    (st : Stage H) :
    n.frame.Stint n.children.length st.rng (paces n.id (n.execute s dt st).trace)
      (n.execute s dt st).value.2.frame := by
  let P : Law H := fun n st o => n.ids.Nodup →
    n.frame.Stint n.children.length st.rng (paces n.id o.trace) o.value.2.frame
  refine execute_rule (P := P) (fun f cs st o _ _ h hn => ?_) h st hn
  obtain ⟨hout, -⟩ := nodup_mk hn
  have hrng {st' : Stage H} {passed : Bool} {tr : List (Entry H.Note)}
      (guarded : Frame.guards s f.view 0 f.decorators st = ⟨passed, st', tr⟩) :
      st'.rng = st.rng := by
    have h := Frame.rng_guards s f.view 0 f.decorators st
    rwa [guarded] at h
  change f.Stint cs.length st.rng (paces f.id o.trace) o.value.2.frame
  cases h with
  | @refused n st₁ st' tr tr' guarded aborted =>
    obtain ⟨rfl, htrace⟩ := abort_eq aborted
    have hid : (mk f cs).settle.view.id = f.id := by rw [settle_mk]; exact f.id_settle
    have hswept : paces f.id tr' = if f.active then [.exited .failure f.time] else [] := by
      rw [← paces_calls, htrace, paces_sweep hout]
    have hreturned : paces f.id [(.hook (mk f cs).settle.view (.returned (.ok .failure)) :
        Entry H.Note)] = [] := by
      rw [← hid, paces_cons rfl]
      rfl
    have h : f.Stint cs.length st.rng _ _ := .cut
    rw [paces_cons rfl, paces_append, Frame.paces_guarded guarded, paces_cons rfl, paces_append,
      hswept, hreturned, settle_mk]
    simpa [Entry.pace?] using h
  | @panicked p f' st₁ st' tr tr' guarded activated =>
    obtain ⟨h, -⟩ | ⟨_, b, drawn, -, hf, rfl, htr⟩ := Frame.activate_spec activated
    · cases h
    have hstarts := Frame.startsAs_of_activate hf activated
    have hreturned : paces f.id [(.hook (f.begun b).view (.returned (.error (.panicked p))) :
        Entry H.Note)] = [] := paces_cons rfl
    rw [hrng guarded] at hstarts
    rw [paces_cons rfl, paces_append, Frame.paces_guarded guarded, paces_append, ← paces_calls,
      htr, Frame.paces_start, hreturned]
    exact .panicked hf hstarts
  | @ticked f' as raw answer b cs' n st₁ st₂ st₃ st₄ st' tr₁ tr₂ tr₃ tr₄ tr₅ guarded activated
      served fits ticked resolved =>
    have hopens := Frame.opensAs_of_activate activated
    rw [hrng guarded] at hopens
    have hid : f'.id = f.id := hopens.id_eq
    cases ticked with
    | @mk _ _ _ log st₀ _ trc tr₀ tables resumes visits answers =>
      have hids : cs'.flatMap ids = cs.flatMap ids := visits.flatMap_ids_eq (local_execute P s dt)
      have hout' : f.id ∉ cs'.flatMap ids := hids ▸ hout
      obtain ⟨g, cs'', w₁, swept, w₂, rfl, htr₅, hsettles, hteardown, -, -⟩ :=
        resolves_spec resolved
      obtain ⟨has, -⟩ := Frame.serve_spec s f'.view dt 0 f'.services st₂
      rw [served] at has
      obtain rfl : as = Attachment.advanceAll dt f'.services := has
      have hbelow : paces f.id trc = [] :=
        paces_of_own ((visits.within (local_execute P s dt)).own_eq_nil hout)
      have hresumed : paces f.id tr₀ = [] := by
        rw [← paces_calls]
        refine paces_eq_nil fun e he => ?_
        obtain ⟨cursor, rfl⟩ := resumes e he
        rfl
      have hresolved : paces f.id tr₅ = paces f.id (w₁ ++ w₂) := by
        have hswept : paces f.id swept = [] := paces_of_own (hteardown.within.own_eq_nil hout')
        rw [← paces_calls, htr₅, paces_append, paces_append, hswept, List.nil_append,
          paces_append]
      have hserved := Frame.paces_served served
      rw [Frame.id_view, hid] at hserved
      have hview (h : Hook) (tr : List (Entry H.Note)) : paces f.id (.hook f'.view h :: tr) =
          (Entry.hook f'.view h : Entry H.Note).pace?.toList ++ paces f.id tr :=
        paces_cons (congrArg some hid)
      have hreturned : paces f.id [(.hook (mk g cs'').view (.returned answer) : Entry H.Note)] =
          [] := paces_cons (congrArg some (hsettles.id_eq.trans hid))
      have hends (plain : f.Plain) (hraw : ¬Going raw) : g.active = false :=
        resolved.ends (fun d hd => plain d (Frame.decorators_eq_of_bare hopens.bare_eq ▸ hd)) hraw
      have h := hsettles.stint hopens answers hends
      rw [paces_cons rfl, paces_append, Frame.paces_guarded guarded, paces_append, paces_append,
        hserved, hview, paces_append, paces_append, hresumed, hbelow, hview, paces_append,
        hresolved, hreturned]
      simpa [Entry.pace?, Lap.paces, Frame.lap, Frame.view] using h

end Node
end TickTree
