import Mathlib.Data.List.Perm.Subperm
import TickTree.Proofs.Run
/-! What one execution of a root comes to. It ends, by the recursion of `execute` on the tree, and
until then each node is executed, ticked and served at most once, and its time goes on at most
once. -/
namespace TickTree
variable {H : Host} {ν : Type}

inductive Demand where
  | executed
  | ticked
  | serviced (slot : Nat)
  deriving DecidableEq

def Hook.demand : Hook → Option Demand
  | executed _ => some .executed
  | ticked _ => some .ticked
  | serviced i _ => some (.serviced i)
  | _ => none

def Entry.demand : Entry ν → Option (NodeId × Demand)
  | hook v h => h.demand.map (v.id, ·)
  | _ => none

def demands (w : List (Entry ν)) : List (NodeId × Demand) := w.filterMap Entry.demand

def Entry.time : Entry ν → Option Float32
  | hook v _ | notice _ (.entered v _) | notice _ (.exited v _ _) | notice _ (.aborted v)
  | report (.guardedOut v) => some v.time
  | _ => none

/-- Entries that show a clock which stands, goes back to zero, or goes on by `dt`, the last at most
`n` times. -/
inductive Clock (dt : Float32) : Nat → Float32 → List (Entry ν) → Float32 → Prop
  | stop {n : Nat} {a : Float32} : Clock dt n a [] a
  | shows {n : Nat} {a b : Float32} {e : Entry ν} {w : List (Entry ν)} (he : e.time = some a)
    (h : Clock dt n a w b) : Clock dt n a (e :: w) b
  | reset {n : Nat} {a b : Float32} {w : List (Entry ν)} (h : Clock dt n 0 w b) : Clock dt n a w b
  | goes {n : Nat} {a b : Float32} {w : List (Entry ν)} (h : Clock dt n (a + dt) w b) :
    Clock dt (n + 1) a w b

section Demands
variable {w w' : List (Entry ν)}

@[simp] theorem demands_nil : demands ([] : List (Entry ν)) = [] := rfl

@[simp] theorem demands_append (w w' : List (Entry ν)) :
    demands (w ++ w') = demands w ++ demands w' := List.filterMap_append

theorem demands_cons (e : Entry ν) (w : List (Entry ν)) :
    demands (e :: w) = e.demand.toList ++ demands w := by
  cases h : e.demand <;> simp [demands, h]

theorem demands_eq_nil (h : ∀ e ∈ w, e.demand = none) : demands w = [] :=
  List.filterMap_eq_nil_iff.mpr h

theorem demands_own (k : NodeId) (w : List (Entry ν)) :
    demands (own k w) = (demands w).filter (·.1 = k) := by
  rw [demands, own, List.filterMap_filter, demands, List.filter_filterMap]
  congr 1
  funext e
  cases e with
  | hook v h =>
    cases hr : h.demand with
    | none => simp [Entry.demand, hr]
    | some r => by_cases hk : v.id = k <;> simp [Entry.demand, hr, hk, Option.filter]
  | _ => simp [Entry.demand]

theorem nodup_demands (h : ∀ k, (demands (own k w)).Nodup) : (demands w).Nodup := by
  refine List.nodup_iff_count_le_one.mpr fun x => ?_
  have hx := List.nodup_iff_count_le_one.mp (h x.1) x
  rwa [demands_own, List.count_filter (by simp)] at hx

/-- Without repetition, no more nodes are executed than there are. -/
theorem executed_le {ks : List NodeId} (hn : (demands w).Nodup) (hw : Within ks w) :
    (demands w).countP (·.2 = .executed) ≤ ks.length := by
  have hsame : ∀ x ∈ (demands w).filter (·.2 = .executed), x.2 = .executed := fun x hx => by
    simpa using List.of_mem_filter hx
  have hids : (((demands w).filter (·.2 = .executed)).map (·.1)).Nodup :=
    (hn.filter _).map_on fun x hx y hy h => Prod.ext h ((hsame x hx).trans (hsame y hy).symm)
  have hsub : ((demands w).filter (·.2 = .executed)).map (·.1) ⊆ ks := by
    intro k hk
    obtain ⟨x, hx, rfl⟩ := List.mem_map.mp hk
    obtain ⟨e, he, hreq⟩ := List.mem_filterMap.mp (List.mem_of_mem_filter hx)
    cases e with
    | hook v h =>
      obtain ⟨r, -, rfl⟩ := Option.map_eq_some_iff.mp hreq
      exact hw _ he _ rfl
    | _ => cases hreq
  have hle := (List.subperm_of_subset hids hsub).length_le
  rwa [List.length_map, ← List.countP_eq_length_filter] at hle

end Demands

namespace Attachment

theorem due_sublist (dt : Float32) (slot : Nat) (as : List (Attachment H)) :
    (due dt slot as).Sublist (List.range' slot as.length) := by
  induction as generalizing slot with
  | nil => exact List.nil_sublist _
  | cons a as ih =>
    rw [due, List.length_cons, List.range'_succ]
    split
    · exact (ih (slot + 1)).cons_cons slot
    · exact (ih (slot + 1)).cons slot

theorem nodup_due (dt : Float32) (slot : Nat) (as : List (Attachment H)) :
    (due dt slot as).Nodup := (List.nodup_range' ..).sublist (due_sublist dt slot as)

end Attachment

namespace Clock
variable {dt a b c : Float32} {n m : Nat} {w w' : List (Entry ν)}

theorem mono (h : Clock dt n a w b) (hnm : n ≤ m) : Clock dt m a w b := by
  induction h generalizing m with
  | stop => exact .stop
  | shows he _ ih => exact .shows he (ih hnm)
  | reset _ ih => exact .reset (ih hnm)
  | goes _ ih =>
    obtain ⟨m, rfl⟩ : ∃ k, m = k + 1 := ⟨m - 1, by omega⟩
    exact .goes (ih (by omega))

theorem trans (h : Clock dt n a w b) (h' : Clock dt m b w' c) :
    Clock dt (n + m) a (w ++ w') c := by
  induction h with
  | stop => exact h'.mono (by omega)
  | shows he _ ih => exact .shows he (ih h')
  | reset _ ih => exact .reset (ih h')
  | goes _ ih =>
    rw [Nat.add_right_comm]
    exact .goes (ih h')

theorem before (h : Clock dt 0 a w b) (h' : Clock dt n b w' c) : Clock dt n a (w ++ w') c := by
  simpa using h.trans h'

theorem still (h : ∀ e ∈ w, e.time = some a) : Clock dt 0 a w a := by
  induction w with
  | nil => exact .stop
  | cons e w ih => exact .shows (h e (by simp)) (ih fun e he => h e (List.mem_cons_of_mem _ he))

theorem hooks {α : Type} (v : View) (h : α → Hook) (xs : List α) :
    Clock dt 0 v.time (xs.map fun x => (.hook v (h x) : Entry ν)) v.time := by
  refine still fun e he => ?_
  obtain ⟨x, -, rfl⟩ := List.mem_map.mp he
  rfl

end Clock

namespace Frame
variable {s : Setting} {dt : Float32} {f f' : Frame H} {w : List (Entry H.Note)}

theorem demands_map_hook {α : Type} (v : View) {h : α → Hook} {xs : List α}
    (hh : ∀ x ∈ xs, (h x).demand = none) :
    demands (xs.map fun x => (.hook v (h x) : Entry ν)) = [] := by
  refine demands_eq_nil fun e he => ?_
  obtain ⟨x, hx, rfl⟩ := List.mem_map.mp he
  simp [Entry.demand, hh x hx]

theorem demands_closing (s : Setting) (r : Status) (f : Frame H) :
    demands (f.closing s r) = [] := by
  rw [closing, demands_append, slots, demands_map_hook _ fun _ _ => rfl]
  rfl

theorem demands_sweep (s : Setting) (f : Frame H) : demands (f.sweep s) = [] := by
  unfold sweep
  split
  · rw [forced, demands_append, demands_append, slots, demands_map_hook _ fun _ _ => rfl,
      demands_closing]
    rfl
  · rfl

theorem demands_start (s : Setting) (f : Frame H) (drawn : List Draw) :
    demands (f.start s drawn) = [] := by
  rw [start, demands_cons, demands_cons, demands_map_hook _ fun _ _ => rfl]
  rfl

theorem Opens.demands_eq {op : List (Entry H.Note)} (h : f.Opens s op f') : demands op = [] := by
  cases h with
  | already => rfl
  | fresh =>
    rw [demands_append, demands_start, slots, demands_map_hook _ fun _ _ => rfl]
    rfl

theorem Modified.demands_eq {slot : Nat} {ds : List (Decorator H)} {r r' : Status}
    {hs : List Hook} (h : Modified dt slot ds r hs r') (v : View) :
    demands (hs.map fun h => (.hook v h : Entry ν)) = [] := by
  refine demands_map_hook v fun h' hh => ?_
  obtain ⟨i, before, after, rfl⟩ := h.exists_eq h' hh
  rfl

theorem Settles.demands_eq {raw answer : Answer} (h : f.Settles s dt raw answer w f') :
    demands w = [] := by
  cases h with
  | stopped => rfl
  | kept modified => exact modified.demands_eq f.view
  | concluded modified =>
    rw [demands_append, modified.demands_eq, demands_cons, demands_append, demands_closing,
      slots, demands_map_hook _ fun _ _ => rfl]
    rfl

theorem demands_served (v : View) (is : List Nat) :
    demands (is.map fun i => (.hook v (.serviced i dt) : Entry ν)) =
      is.map fun i => (v.id, .serviced i) := by
  induction is with
  | nil => rfl
  | cons i is ih =>
    rw [List.map_cons, demands_cons, ih]
    rfl

theorem demands_guards {v : View} {gs : List (Entry H.Note)}
    (h : ∀ e ∈ gs, ∃ i passed, e = .hook v (.guarded i passed)) : demands gs = [] := by
  refine demands_eq_nil fun e he => ?_
  obtain ⟨i, passed, rfl⟩ := h e he
  rfl

theorem Visit.demands_eq {answer : Answer} (h : f.Visit s dt answer w f') :
    demands w = [(f.id, .executed)] ∨ ∃ is : List Nat, is.Nodup ∧ demands w =
      (f.id, .executed) :: (is.map (fun i => (f.id, .serviced i)) ++ [(f.id, .ticked)]) := by
  cases h with
  | refused guards =>
    left
    simp [demands_cons, demands_guards guards, demands_sweep, Entry.demand, Hook.demand, view]
  | panicked drawn guards =>
    left
    simp [demands_cons, demands_guards guards, demands_start, Entry.demand, Hook.demand, view]
  | @ticked gs op rs w f₁ f₂ _ _ _ _ _ guards opens resumes _ settles =>
    right
    have hresumed : demands rs = [] := by
      refine demands_eq_nil fun e he => ?_
      obtain ⟨cursor, rfl⟩ := resumes e he
      rfl
    refine ⟨Attachment.due dt 0 f₁.services, Attachment.nodup_due dt 0 f₁.services, ?_⟩
    simp [demands_cons, demands_guards guards, opens.demands_eq, demands_served, hresumed,
      settles.demands_eq, opens.id_eq, Entry.demand, Hook.demand, view]

theorem Visit.nodup_demands {answer : Answer} (h : f.Visit s dt answer w f') :
    (demands w).Nodup := by
  obtain h | ⟨is, his, h⟩ := h.demands_eq
  · rw [h]
    exact List.nodup_singleton _
  · have hserved : (is.map fun i => (f.id, Demand.serviced i)).Nodup :=
      his.map fun i j hij => by simpa using hij
    rw [h, List.nodup_cons, List.nodup_append]
    refine ⟨by simp, hserved, List.nodup_singleton _, ?_⟩
    simp

theorem clock_guards {gs : List (Entry H.Note)}
    (h : ∀ e ∈ gs, ∃ i passed, e = .hook f.view (.guarded i passed)) :
    Clock dt 0 f.time gs f.time := by
  refine .still fun e he => ?_
  obtain ⟨i, passed, rfl⟩ := h e he
  rfl

theorem clock_resumed {rs : List (Entry H.Note)}
    (h : ∀ e ∈ rs, ∃ cursor, e = .hook f.view (.resumed cursor)) :
    Clock dt 0 f.time rs f.time := by
  refine .still fun e he => ?_
  obtain ⟨cursor, rfl⟩ := h e he
  rfl

theorem clock_closing (s : Setting) (r : Status) (f : Frame H) :
    Clock dt 0 f.time (f.closing s r) f.time :=
  (Clock.hooks f.view .detached _).before (.shows rfl .stop)

theorem clock_sweep (s : Setting) (f : Frame H) : Clock dt 0 f.time (f.sweep s) f.settle.time := by
  unfold sweep settle
  split
  · rw [forced, List.append_assoc]
    exact (Clock.hooks f.view .aborted _).before
      ((f.clock_closing s .failure).before (.reset (.shows rfl .stop)))
  · exact .stop

theorem clock_start (s : Setting) (f : Frame H) (drawn : List Draw) :
    Clock dt 0 f.time (f.start s drawn) 0 :=
  .reset (.shows rfl (.shows rfl (Clock.hooks ⟨f.id, f.name, true, 0⟩ .drew drawn)))

theorem Opens.clock {op : List (Entry H.Note)} (h : f.Opens s op f') :
    Clock dt 0 f.time op f'.time := by
  cases h with
  | already => exact .stop
  | @fresh b drawn =>
    exact (f.clock_start s drawn).before (Clock.hooks (f.begun b).view .attached _)

theorem Settles.clock {raw answer : Answer} (h : f.Settles s dt raw answer w f') :
    Clock dt 1 f.time w f'.time := by
  cases h with
  | stopped => exact .stop
  | @kept _ hs =>
    have haged : Clock dt 1 f.time ([] : List (Entry H.Note)) (f.aged dt).time := .goes .stop
    rw [← List.append_nil (hs.map _)]
    exact (Clock.hooks f.view (fun h => h) hs).before haged
  | @concluded _ result hs =>
    have hended : Clock dt 0 (f.aged dt).time (slots (f.aged dt).ended.view (.finished · result) 0
        f.decorators.length : List (Entry H.Note)) (f.aged dt).ended.time :=
      .reset (.hooks (f.aged dt).ended.view (.finished · result) _)
    have hlater := ((f.aged dt).clock_closing s result).before hended
    exact (Clock.hooks f.view (fun h => h) hs).before (.goes (.shows rfl hlater))

theorem Visit.clock {answer : Answer} (h : f.Visit s dt answer w f') :
    Clock dt 1 f.time w f'.time := by
  cases h with
  | refused guards =>
    exact .shows rfl ((clock_guards guards).before
      (.shows rfl ((f.clock_sweep s).before (.shows rfl .stop))))
  | panicked drawn guards =>
    exact .shows rfl ((clock_guards guards).before
      ((f.clock_start s drawn).before (.shows rfl .stop)))
  | @ticked _ _ rs w f₁ _ _ _ raw _ _ guards opens resumes _ settles =>
    have hreturned : Clock dt 0 f'.time
        ([.hook f'.view (.returned answer)] : List (Entry H.Note)) f'.time := .shows rfl .stop
    have hanswered : Clock dt 1 f₁.time (rs ++ (.hook f₁.view (.answered raw) :: (w ++
        [.hook f'.view (.returned answer)]))) f'.time :=
      (clock_resumed resumes).before (.shows rfl (settles.clock.trans hreturned))
    have hserved : Clock dt 0 f₁.time ((Attachment.due dt 0 f₁.services).map
        fun i => (.hook f₁.view (.serviced i dt) : Entry H.Note)) f₁.time := .hooks f₁.view _ _
    exact .shows rfl ((clock_guards guards).before (opens.clock.before
      (hserved.before (.shows rfl hanswered))))

theorem Swept.demands_eq (h : f.Swept s w f') : demands w = [] := by
  cases h with
  | missed => rfl
  | reached => exact f.demands_sweep s

theorem Once.nodup_demands {answer : Answer} (h : f.Once s dt answer w f') :
    (demands w).Nodup := by
  cases h with
  | missed after =>
    rw [after.demands_eq]
    exact List.nodup_nil
  | visited visit _ after =>
    rw [demands_append, after.demands_eq, List.append_nil]
    exact visit.nodup_demands

theorem Swept.clock (h : f.Swept s w f') : Clock dt 0 f.time w f'.time := by
  cases h with
  | missed => exact .stop
  | reached => exact f.clock_sweep s

theorem Once.clock {answer : Answer} (h : f.Once s dt answer w f') :
    Clock dt 1 f.time w f'.time := by
  cases h with
  | missed after => exact after.clock.mono (by omega)
  | visited visit _ after => exact visit.clock.trans after.clock

end Frame

namespace Node

theorem nodup_demands_execute (s : Setting) (dt : Float32) {n : Node H} (h : n.Sound)
    (hn : n.ids.Nodup) (st : Stage H) : (demands (n.execute s dt st).trace).Nodup := by
  refine nodup_demands fun k => ?_
  by_cases hk : k ∈ n.ids
  · obtain ⟨f, hf, rfl⟩ := List.mem_map.mp hk
    obtain ⟨f', -, -, honce⟩ := exists_right (execute_once s dt h st hn) hf
    exact honce.nodup_demands
  · rw [(within_execute s dt h st).own_eq_nil hk]
    exact List.nodup_nil

end Node

/-- At whatever point of a run the root is executed next, each node is executed, ticked and served
at most once, so that there are no more executions than nodes, and its time goes on at most once. -/
theorem once_of_play (ms : List (Move H)) {t : Rooted H} (hidle : t.root.Idle)
    (hn : t.root.ids.Nodup) (st st' : Stage H) (dt : Float32) :
    let u := (play ms t st).value.2
    let o := u.root.execute u.setting dt st'
    (demands o.trace).Nodup ∧
      (demands o.trace).countP (·.2 = .executed) ≤ t.root.frames.length ∧
      Each (fun f w g => Clock dt 1 f.time w g.time) o.trace u.root.frames
        o.value.2.frames := by
  intro u o
  have hu : u.Proper := proper_play ms ⟨Node.sound_of_idle hidle, hn⟩ st
  have honce := Node.execute_once u.setting dt hu.sound st' hu.distinct
  have hdemands : (demands o.trace).Nodup :=
    Node.nodup_demands_execute u.setting dt hu.sound hu.distinct st'
  have hwithin : Within t.root.ids o.trace := by
    rw [← Node.ids_eq_of_shape (shape_play ms (Node.sound_of_idle hidle) st)]
    exact Node.within_execute u.setting dt hu.sound st'
  refine ⟨hdemands, ?_, honce.imp fun _ _ _ h => h.clock⟩
  rw [← List.length_map (·.id)]
  exact executed_le hdemands hwithin

/-- The second execution of the sample tree resumes its selector at the leaf that goes on. -/
theorem once_of_play_echo :
    Rooted.echo.root.Idle ∧ Rooted.echo.root.ids.Nodup ∧
      let u := (play [.execute 1] Rooted.echo Rooted.still).value.2
      let o := u.root.execute u.setting 1 Rooted.still
      (demands o.trace).Nodup ∧ (demands o.trace).countP (·.2 = .executed) ≤ 3 := by
  have hidle : Rooted.echo.root.Idle := by decide
  have hn : Rooted.echo.root.ids.Nodup := by decide
  have honce := once_of_play [.execute 1] hidle hn Rooted.still Rooted.still 1
  exact ⟨hidle, hn, honce.1, honce.2.1⟩

end TickTree
