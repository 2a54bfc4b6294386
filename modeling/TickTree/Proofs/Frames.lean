import Mathlib.Data.List.Forall2
import TickTree.Node.Basic
/-! Trees through the list of their frames in preorder: induction over trees, their ids, their
shape, and properties that hold at every node. -/
namespace TickTree
variable {H : Host}

theorem exists_left {α β : Type} {R : α → β → Prop} {as : List α} {bs : List β}
    (h : List.Forall₂ R as bs) {b : β} (hb : b ∈ bs) : ∃ a ∈ as, R a b := by
  induction h with
  | nil => simp at hb
  | @cons a b' _ _ h _ ih =>
    obtain rfl | hb := List.mem_cons.mp hb
    · exact ⟨a, by simp, h⟩
    · obtain ⟨a', ha', h'⟩ := ih hb
      exact ⟨a', List.mem_cons_of_mem _ ha', h'⟩

theorem exists_right {α β : Type} {R : α → β → Prop} {as : List α} {bs : List β}
    (h : List.Forall₂ R as bs) {a : α} (ha : a ∈ as) : ∃ b ∈ bs, R a b :=
  exists_left (R := fun b a => R a b) h.flip ha

theorem forall₂_at {α β : Type} {R : α → β → Prop} {as : List α} {bs : List β}
    (h : List.Forall₂ R as bs) (i : Nat) :
    (as[i]? = none ∧ bs[i]? = none) ∨ ∃ a b, as[i]? = some a ∧ bs[i]? = some b ∧ R a b := by
  induction h generalizing i with
  | nil => simp
  | cons h _ ih =>
    cases i with
    | zero => exact .inr ⟨_, _, rfl, rfl, h⟩
    | succ i => simpa using ih i

theorem forall₂_set {α β : Type} {R : α → β → Prop} {as : List α} {bs : List β}
    (h : List.Forall₂ R as bs) (i : Nat) {a : α} {b : β} (hab : R a b) :
    List.Forall₂ R (as.set i a) (bs.set i b) := by
  induction h generalizing i with
  | nil => exact .nil
  | cons h hrest ih =>
    cases i with
    | zero => exact .cons hab hrest
    | succ i => exact .cons h (ih i)

namespace Node

@[elab_as_elim, induction_eliminator]
theorem induct {motive : Node H → Prop}
    (mk : ∀ f cs, (∀ c ∈ cs, motive c) → motive (.mk f cs)) (n : Node H) : motive n :=
  Node.rec (motive_2 := fun cs => ∀ c ∈ cs, motive c) mk (by simp)
    (fun c cs hc hcs => by simpa using ⟨hc, hcs⟩) n

@[simp] theorem view_mk (f : Frame H) (cs : List (Node H)) : (mk f cs).view = f.view := rfl

theorem map_preorderAll (d : Nat) (cs : List (Node H))
    (h : ∀ c ∈ cs, ∀ d, (c.preorder d).map (·.2) = c.frames) :
    (preorderAll d cs).map (·.2) = cs.flatMap frames := by
  induction cs with
  | nil => rfl
  | cons c cs ih =>
    rw [preorderAll, List.map_append, h c (by simp), ih fun c hc => h c (List.mem_cons_of_mem _ hc)]
    rfl

theorem map_preorder (d : Nat) (n : Node H) : (n.preorder d).map (·.2) = n.frames := by
  induction n generalizing d with
  | mk f cs ih =>
    rw [frames, preorder, preorder, List.map_cons, List.map_cons, map_preorderAll _ _ ih,
      map_preorderAll _ _ ih]

@[simp] theorem frames_mk (f : Frame H) (cs : List (Node H)) :
    (mk f cs).frames = f :: cs.flatMap frames := by
  rw [frames, preorder, List.map_cons, map_preorderAll _ _ fun c _ d => map_preorder d c]

def ids (n : Node H) : List NodeId := n.frames.map (·.id)

@[simp] theorem ids_mk (f : Frame H) (cs : List (Node H)) :
    (mk f cs).ids = f.id :: cs.flatMap ids := by
  rw [ids, frames_mk, List.map_cons, List.map_flatMap]
  rfl

theorem activity_mk (f : Frame H) (cs : List (Node H)) :
    (mk f cs).activity = f.active :: cs.flatMap activity := by
  rw [activity, frames_mk, List.map_cons, List.map_flatMap]
  rfl

theorem frame_mem_frames (n : Node H) : n.frame ∈ n.frames := by
  cases n with
  | mk f cs => simp

theorem id_mem_ids (n : Node H) : n.id ∈ n.ids := List.mem_map_of_mem n.frame_mem_frames

def Idle (n : Node H) : Prop := ∀ f ∈ n.frames, f.active = false

instance (n : Node H) : Decidable n.Idle := inferInstanceAs (Decidable (∀ f ∈ n.frames, _))

theorem Idle.below {f : Frame H} {cs : List (Node H)} (h : (mk f cs).Idle) : ∀ c ∈ cs, c.Idle :=
  fun c hc g hg => h g (by simpa using Or.inr ⟨c, hc, hg⟩)

inductive All (p : Frame H → List (Node H) → Prop) : Node H → Prop
  | mk {f : Frame H} {cs : List (Node H)} (here : p f cs) (below : ∀ c ∈ cs, All p c) :
    All p (.mk f cs)

theorem all_mk {p : Frame H → List (Node H) → Prop} {f : Frame H} {cs : List (Node H)} :
    All p (mk f cs) ↔ p f cs ∧ ∀ c ∈ cs, All p c := by
  constructor
  · rintro ⟨here, below⟩
    exact ⟨here, below⟩
  · rintro ⟨here, below⟩
    exact .mk here below

theorem All.imp {p q : Frame H → List (Node H) → Prop} (hpq : ∀ f cs, p f cs → q f cs) {n : Node H}
    (h : All p n) : All q n := by
  induction h with
  | mk here _ ih => exact .mk (hpq _ _ here) ih

theorem all_of_forall {p : Frame H → List (Node H) → Prop} (hp : ∀ f cs, p f cs) (n : Node H) :
    All p n := by
  induction n with
  | mk f cs ih => exact .mk (hp f cs) ih

theorem all_of_idle {p : Frame H → List (Node H) → Prop}
    (hp : ∀ f cs, f.active = false → (∀ c ∈ cs, c.Idle) → p f cs) {n : Node H} (h : n.Idle) :
    All p n := by
  induction n with
  | mk f cs ih =>
    exact .mk (hp f cs (h f (by simp)) h.below) fun c hc => ih c hc (h.below c hc)

mutual
def mapFrames (g : Frame H → Frame H) : Node H → Node H
  | mk f cs => mk (g f) (mapFramesAll g cs)

def mapFramesAll (g : Frame H → Frame H) : List (Node H) → List (Node H)
  | [] => []
  | c :: cs => mapFrames g c :: mapFramesAll g cs
end

theorem mapFramesAll_eq_map (g : Frame H → Frame H) (cs : List (Node H)) :
    mapFramesAll g cs = cs.map (mapFrames g) := by
  induction cs with
  | nil => rfl
  | cons c cs ih => rw [mapFramesAll, ih, List.map_cons]

@[simp] theorem mapFrames_mk (g : Frame H → Frame H) (f : Frame H) (cs : List (Node H)) :
    (mk f cs).mapFrames g = mk (g f) (cs.map (mapFrames g)) := by
  rw [mapFrames, mapFramesAll_eq_map]

theorem frames_mapFrames (g : Frame H → Frame H) (n : Node H) :
    (n.mapFrames g).frames = n.frames.map g := by
  induction n with
  | mk f cs ih =>
    rw [mapFrames_mk, frames_mk, frames_mk, List.map_cons, List.map_flatMap, List.flatMap_map]
    congr 1
    exact List.flatMap_congr ih

end Node

namespace Frame

@[simp] theorem id_view (f : Frame H) : f.view.id = f.id := rfl

def bare (f : Frame H) : Frame H :=
  { f with services := f.services.map Attachment.reset, behavior := .relay, active := false,
           time := 0 }

theorem decorators_eq_of_bare {f g : Frame H} (h : f.bare = g.bare) :
    f.decorators = g.decorators := by
  change f.bare.decorators = g.bare.decorators
  rw [h]

end Frame

namespace Node

/-- What stays of a tree over any run. -/
def shape (n : Node H) : Node H := n.mapFrames Frame.bare

theorem ids_shape (n : Node H) : n.shape.ids = n.ids := by
  rw [ids, shape, frames_mapFrames, List.map_map]
  rfl

theorem id_shape (n : Node H) : n.shape.id = n.id := by
  cases n with
  | mk f cs => rw [shape, mapFrames_mk]; rfl

theorem id_eq_of_shape {n m : Node H} (h : n.shape = m.shape) : n.id = m.id := by
  rw [← id_shape n, h, id_shape]

theorem ids_eq_of_shape {n m : Node H} (h : n.shape = m.shape) : n.ids = m.ids := by
  rw [← ids_shape n, h, ids_shape]

end Node
end TickTree
