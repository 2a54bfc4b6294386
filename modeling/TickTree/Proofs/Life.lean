import TickTree.Proofs.Fastening
import TickTree.Proofs.Holding
/-! The life of a tree: what has been told of it since it was started. Once the tree has ended, its
completion is the last of it, all activations have been ended and all services detached. -/
namespace TickTree
variable {H : Host} {ν : Type}

namespace Entry

def ofRunner : Entry ν → Bool
  | report (.started _) | report .stopped | report (.replaced _) | report (.autoStartFailed _) =>
    true
  | _ => false

def started? : Entry ν → Option String
  | report (.started name) => some name
  | _ => none

theorem eq_exited {e : Entry ν} (h : e.turn = some false) :
    ∃ l v result duration, e = .notice l (.exited v result duration) := by
  cases e with
  | notice l n =>
    cases n with
    | exited v result duration => exact ⟨l, v, result, duration, rfl⟩
    | _ => cases h
  | _ => cases h

end Entry

def told (w : List (Entry ν)) : List (Entry ν) := w.filter fun e => !e.ofRunner

def starts (w : List (Entry ν)) : List String := w.filterMap Entry.started?

section Told
variable {w w' : List (Entry ν)}

theorem told_append : told (w ++ w') = told w ++ told w' := List.filter_append ..

theorem starts_append : starts (w ++ w') = starts w ++ starts w' := List.filterMap_append

theorem own_told (k : NodeId) (w : List (Entry ν)) : own k (told w) = own k w := by
  rw [own, told, List.filter_filter]
  refine List.filter_congr fun e _ => ?_
  cases e with
  | report r => cases r <;> simp [Entry.ofRunner, Entry.about]
  | _ => simp [Entry.ofRunner]

theorem Nodal.starts_eq (h : Nodal w) : starts w = [] := by
  refine List.filterMap_eq_nil_iff.mpr fun e he => ?_
  match e with
  | .report (.started name) => cases h _ (List.mem_filter.mpr ⟨he, rfl⟩)
  | .report .stopped | .report (.replaced _) | .report (.autoStartFailed _)
  | .report (.guardedOut _) | .report (.completed ..) | .report (.restarted _)
  | .report (.aborted _) | .hook .. | .notice .. | .note _ => rfl

/-- What entries about a node turn on and leave off, a later entry about the node turns off. -/
theorem exists_off_later {k : NodeId} {t : Entry ν → Option Bool} {before after : List (Entry ν)}
    {e : Entry ν} (about : e.about = some k) (on : t e = some true)
    (h : switched t false (own k (before ++ e :: after)) = false) :
    ∃ e' ∈ after, e'.about = some k ∧ t e' = some false := by
  have hown : own k (e :: after) = e :: own k after := List.filter_cons_of_pos (by simp [about])
  rw [own_append, hown, switched_append, switched_cons, on] at h
  obtain ⟨e', he', hoff⟩ := exists_off h
  obtain ⟨hmem, hk⟩ := List.mem_filter.mp he'
  exact ⟨e', hmem, of_decide_eq_true hk, hoff⟩

end Told

def Completed (w : List (Entry ν)) : Prop :=
  ∃ before l v result, w = before ++ [.notice l (.completed v result)]

theorem Completed.append {w w' : List (Entry ν)} (h : Completed w') : Completed (w ++ w') := by
  obtain ⟨before, l, v, result, rfl⟩ := h
  exact ⟨w ++ before, l, v, result, by rw [List.append_assoc]⟩

theorem Completed.told {w : List (Entry ν)} (h : Completed w) : Completed (told w) := by
  obtain ⟨before, l, v, result, rfl⟩ := h
  exact ⟨TickTree.told before, l, v, result, told_append⟩

namespace Instance
variable {i j k : Instance H} {r r' : Realm H} {ms : List (Move H)} {w w' : List (Entry H.Note)}

theorem Plays.tracks (L : FrameLaw H) (covers : ∀ a, L.covers a) (h : i.Plays r ms j r' w)
    (hi : i.rooted.Proper) : Each L.holds w i.root.frames j.root.frames := by
  rw [h.root]
  exact (play_tracks L ms hi ⟨r, i.context.rng⟩ fun a _ => covers a).congr fun f _ => h.trace f.id

theorem Plays.within (h : i.Plays r ms j r' w) (hi : i.rooted.Proper) : Within i.root.ids w := by
  intro e he k hk
  by_contra hout
  obtain ⟨hown, -⟩ := play_elsewhere ms h.inside hi ⟨r, i.context.rng⟩ hout
  have hmem : e ∈ own k w := List.mem_filter.mpr ⟨he, by simpa using hk⟩
  rw [h.trace, hown] at hmem
  cases hmem

/-- What operations tell of an instance: what becomes of its activations and services, and last of
all its completion if they end it. -/
structure Proceeds (i j : Instance H) (w : List (Entry H.Note)) : Prop where
  passes : i.Passes j w
  activity : Each Frame.activity.holds w i.root.frames j.root.frames
  fastening : Each Frame.fastening.holds w i.root.frames j.root.frames
  within : Within i.root.ids w
  last : j.active = false → i.active = false ∧ w = [] ∨ Completed w
  unstarted : starts w = []

namespace Proceeds

theorem refl (h : i.Orderly) : i.Proceeds i [] :=
  ⟨.refl h, .stay Frame.activity.refl fun _ _ => rfl, .stay Frame.fastening.refl fun _ _ => rfl,
    by simp [Within], fun hi => .inl ⟨hi, rfl⟩, rfl⟩

theorem of_plays (distinct : i.root.ids.Nodup) (orderly : i.Orderly) (passes : i.Passes j w)
    (plays : i.Plays r ms j r' w)
    (last : j.active = false → i.active = false ∧ w = [] ∨ Completed w)
    (unstarted : starts w = []) : i.Proceeds j w :=
  have hproper : i.rooted.Proper := ⟨orderly.sound, distinct⟩
  ⟨passes, plays.tracks _ (fun _ => trivial) hproper, plays.tracks _ (fun _ => trivial) hproper,
    plays.within hproper, last, unstarted⟩

theorem ids_eq (h : i.Proceeds j w) : j.root.ids = i.root.ids :=
  Node.ids_eq_of_shape h.passes.shape

theorem trans (h : i.Proceeds j w) (h' : j.Proceeds k w') : i.Proceeds k (w ++ w') := by
  refine ⟨h.passes.trans h'.passes, Frame.activity.each_trans h.activity h'.activity,
    Frame.fastening.each_trans h.fastening h'.fastening,
    within_append.mpr ⟨h.within, h.ids_eq ▸ h'.within⟩, fun hk => ?_, ?_⟩
  · obtain ⟨hj, rfl⟩ | hlast := h'.last hk
    · rw [List.append_nil]
      exact h.last hj
    · exact .inr hlast.append
  · rw [starts_append, h.unstarted, h'.unstarted]
    rfl

end Proceeds

theorem proceeds_tick (h : i.Orderly) (distinct : i.root.ids.Nodup) (dt : Float32) (r : Realm H) :
    i.Proceeds (i.tick dt r).value.2 (i.tick dt r).trace := by
  obtain ⟨ms, hplays⟩ := i.plays_tick dt r
  have hpasses := passes_tick h dt r
  have hticks := i.tick_spec dt r
  generalize i.tick dt r = o at hplays hpasses hticks
  cases hticks with
  | ended => exact .refl h
  | kept hi executed =>
    obtain ⟨-, -, -, hnodal, -⟩ := Instance.executed h.sound h.closed executed
    refine .of_plays distinct h hpasses hplays (fun hj => ?_) hnodal.starts_eq
    rw [show i.active = false from hj] at hi
    cases hi
  | completed hi executed =>
    obtain ⟨-, -, -, hnodal, -⟩ := Instance.executed h.sound h.closed executed
    refine .of_plays distinct h hpasses hplays (fun _ => .inr ?_) ?_
    · exact .append ⟨[_], _, _, _, rfl⟩
    · rw [starts_append, hnodal.starts_eq]
      rfl

theorem proceeds_restart (h : i.Orderly) (distinct : i.root.ids.Nodup) (r : Realm H) :
    i.Proceeds (i.restart r).value (i.restart r).trace := by
  obtain ⟨-, -, hnodal⟩ := passes_abortRoot h r
  refine .of_plays distinct h (passes_restart h r) (i.plays_restart r) (fun hj => ?_) ?_
  · cases hj
  · simp only [restart, Traced.bind_apply, starts_append, hnodal.starts_eq]
    rfl

theorem proceeds_abort (h : i.Orderly) (distinct : i.root.ids.Nodup) (r : Realm H) :
    i.Proceeds (i.abort r).value (i.abort r).trace := by
  obtain ⟨ms, hplays⟩ := i.plays_abort r
  have hpasses := passes_abort h r
  obtain ⟨-, -, hnodal⟩ := passes_abortRoot h r
  rw [abort] at hplays hpasses ⊢
  split at hplays
  · next hi =>
    rw [if_pos hi] at hpasses ⊢
    simp only [Traced.bind_apply, Turn.report, Turn.notify] at hplays hpasses ⊢
    refine .of_plays distinct h hpasses hplays (fun _ => .inr ?_) ?_
    · exact .append ⟨[_], _, _, _, rfl⟩
    · simp only [starts_append, hnodal.starts_eq]
      rfl
  · next hi =>
    rw [if_neg hi]
    exact .refl h

theorem proceeds_update (h : i.Orderly) (distinct : i.root.ids.Nodup) (again : Bool) (dt : Float32)
    (r : Realm H) : i.Proceeds (i.update again dt r).value.2 (i.update again dt r).trace :=
  update_rule (P := i.Proceeds) (proceeds_tick h distinct dt r) (fun _ _ r hj =>
    hj.trans (proceeds_restart hj.passes.orderly (hj.ids_eq ▸ distinct) r)) again

end Instance

/-- A tree that a runner has started, by its root, and what has been told of it since. -/
structure Life (H : Host) where
  root : Node H
  told : List (Entry H.Note)

namespace Life
variable {l : Life H} {i j : Instance H} {w : List (Entry H.Note)}

def tell (l : Life H) (w : List (Entry H.Note)) : Life H :=
  { l with told := l.told ++ TickTree.told w }

structure Leads (l : Life H) (i : Instance H) : Prop where
  idle : l.root.Idle
  distinct : l.root.ids.Nodup
  orderly : i.Orderly
  shape : i.root.shape = l.root.shape
  activity : Each Frame.activity.holds l.told l.root.frames i.root.frames
  fastening : Each Frame.fastening.holds l.told l.root.frames i.root.frames
  within : Within l.root.ids l.told
  last : i.active = false → Completed l.told

theorem leads_ofRoot {root : Node H} (idle : root.Idle) (distinct : root.ids.Nodup)
    (context : Context) : Leads ⟨root, []⟩ (.ofRoot root context) :=
  ⟨idle, distinct, Instance.orderly_of_idle context idle, rfl,
    .stay Frame.activity.refl fun _ _ => rfl, .stay Frame.fastening.refl fun _ _ => rfl,
    by simp [Within], by simp [Instance.ofRoot]⟩

theorem Leads.ids_eq (h : l.Leads i) : i.root.ids = l.root.ids := Node.ids_eq_of_shape h.shape

theorem Leads.tell (h : l.Leads i) (step : i.Proceeds j w) : (l.tell w).Leads j := by
  have hown (k : NodeId) : own k (l.told ++ TickTree.told w) = own k (l.told ++ w) := by
    rw [own_append, own_told, own_append]
  have hwithin : Within l.root.ids (TickTree.told w) := fun e he =>
    h.ids_eq ▸ step.within e (List.mem_of_mem_filter he)
  refine ⟨h.idle, h.distinct, step.passes.orderly, step.passes.shape.trans h.shape, ?_, ?_,
    within_append.mpr ⟨h.within, hwithin⟩, fun hj => ?_⟩
  · exact (Frame.activity.each_trans h.activity step.activity).congr fun f _ => hown f.id
  · exact (Frame.fastening.each_trans h.fastening step.fastening).congr fun f _ => hown f.id
  · obtain ⟨hi, rfl⟩ | hlast := step.last hj
    · simpa [Life.tell, TickTree.told] using h.last hi
    · exact hlast.told.append

/-- The tree is over: it has completed, what had been opened of it is closed, and all of this has
been told. -/
structure Over (l : Life H) : Prop where
  /-- Its completion is the last that is told of it. -/
  completed : Completed l.told
  /-- Each activation of a node has been ended. -/
  exited : ∀ (before after : List (Entry H.Note)) (listener : Option Listener) (v : View)
    (elapsed : Float32), l.told = before ++ .notice listener (.entered v elapsed) :: after →
    ∃ (listener' : Option Listener) (v' : View) (result : Status) (duration : Float32),
      v'.id = v.id ∧ .notice listener' (.exited v' result duration) ∈ after
  /-- Each service that had been attached to a node has been detached. -/
  detached : ∀ (before after : List (Entry H.Note)) (v : View) (slot : Nat),
    l.told = before ++ .hook v (.attached slot) :: after →
    ∃ v' : View, v'.id = v.id ∧ .hook v' (.detached slot) ∈ after
  /-- No other nodes are told of. -/
  within : Within l.root.ids l.told

theorem Leads.exists_frame {L : FrameLaw H} (h : l.Leads i)
    (hL : Each L.holds l.told l.root.frames i.root.frames) {e : Entry H.Note} (he : e ∈ l.told)
    {k : NodeId} (hk : e.about = some k) :
    ∃ f g : Frame H, f ∈ l.root.frames ∧ g ∈ i.root.frames ∧ L.holds f (own k l.told) g := by
  obtain ⟨f, hf, rfl⟩ := List.mem_map.mp (h.within e he k hk)
  obtain ⟨g, hg, -, hholds⟩ := exists_right hL hf
  exact ⟨f, g, hf, hg, hholds⟩

theorem Leads.over (h : l.Leads i) (ended : i.active = false) : l.Over := by
  have hidle : i.root.Idle := h.orderly.ended ended
  constructor
  case completed => exact h.last ended
  case within => exact h.within
  case exited =>
    intro before after listener v elapsed htold
    obtain ⟨f, g, hf, hg, hholds⟩ := h.exists_frame h.activity
      (e := .notice listener (.entered v elapsed)) (by simp [htold]) rfl
    have hoff : switched Entry.turn false (own v.id l.told) = false := by
      have hactive : g.active = openAfter f.active (own v.id l.told) := hholds
      rw [hidle g hg, h.idle f hf] at hactive
      exact hactive.symm
    rw [htold] at hoff
    obtain ⟨e, he, habout, hturn⟩ := exists_off_later rfl rfl hoff
    obtain ⟨listener', v', result, duration, rfl⟩ := Entry.eq_exited hturn
    exact ⟨listener', v', result, duration, Option.some.inj habout, he⟩
  case detached =>
    intro before after v slot htold
    obtain ⟨f, g, hf, hg, -, hslots⟩ := h.exists_frame h.fastening
      (e := .hook v (.attached slot)) (by simp [htold]) rfl
    have hoff : switched (Entry.clasp slot) false (own v.id l.told) = false := by
      refine Bool.eq_false_iff.mpr fun hon => ?_
      obtain ⟨hactive, -⟩ := hslots slot false (by simp) hon
      rw [hidle g hg] at hactive
      cases hactive
    rw [htold] at hoff
    obtain ⟨e, he, habout, hclasp⟩ := exists_off_later rfl (by simp [Entry.clasp]) hoff
    obtain ⟨v', rfl⟩ := Entry.eq_detached hclasp
    exact ⟨v', Option.some.inj habout, he⟩

end Life
end TickTree
