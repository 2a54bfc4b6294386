/-! Computations that change a state, leave a trace and always give an answer. -/
namespace TickTree

structure Outcome (σ ε α : Type) where
  value : α
  state : σ
  trace : List ε

def Traced (σ ε α : Type) : Type := σ → Outcome σ ε α

namespace Traced
variable {σ τ ε α β : Type}

def pure (a : α) : Traced σ ε α := fun s => ⟨a, s, []⟩

def bind (x : Traced σ ε α) (f : α → Traced σ ε β) : Traced σ ε β := fun s =>
  let r := x s
  let q := f r.value r.state
  ⟨q.value, q.state, r.trace ++ q.trace⟩

instance : Monad (Traced σ ε) where
  pure := pure
  bind := bind

def emit (e : ε) : Traced σ ε Unit := fun s => ⟨(), s, [e]⟩

def get : Traced σ ε σ := fun s => ⟨s, s, []⟩

def set (s : σ) : Traced σ ε Unit := fun _ => ⟨(), s, []⟩

def modify (f : σ → σ) : Traced σ ε Unit := fun s => ⟨(), f s, []⟩

instance : MonadStateOf σ (Traced σ ε) where
  get := get
  set := set
  modifyGet f := fun s => ⟨(f s).1, (f s).2, []⟩

def zoom {δ : Type} (part : τ → σ) (put : σ → τ → τ) (rename : δ → ε) (x : Traced σ δ α) :
    Traced τ ε α := fun t =>
  let r := x (part t)
  ⟨r.value, put r.state t, r.trace.map rename⟩

@[simp] theorem pure_apply (a : α) (s : σ) : (Pure.pure a : Traced σ ε α) s = ⟨a, s, []⟩ := rfl

@[simp] theorem bind_apply (x : Traced σ ε α) (f : α → Traced σ ε β) (s : σ) :
    (x >>= f) s = ⟨(f (x s).value (x s).state).value, (f (x s).value (x s).state).state,
      (x s).trace ++ (f (x s).value (x s).state).trace⟩ := rfl

@[simp] theorem emit_apply (e : ε) (s : σ) : (emit e : Traced σ ε Unit) s = ⟨(), s, [e]⟩ := rfl

@[simp] theorem get_apply (s : σ) : (get : Traced σ ε σ) s = ⟨s, s, []⟩ := rfl

@[simp] theorem set_apply (s t : σ) : (set t : Traced σ ε Unit) s = ⟨(), t, []⟩ := rfl

@[simp] theorem modify_apply (f : σ → σ) (s : σ) :
    (modify f : Traced σ ε Unit) s = ⟨(), f s, []⟩ := rfl

@[simp] theorem map_apply (f : α → β) (x : Traced σ ε α) (s : σ) :
    (f <$> x) s = ⟨f (x s).value, (x s).state, (x s).trace⟩ := by
  change (x >>= fun a => Pure.pure (f a)) s = _
  rw [bind_apply, pure_apply, List.append_nil]

@[simp] theorem zoom_apply {δ : Type} (part : τ → σ) (put : σ → τ → τ) (rename : δ → ε)
    (x : Traced σ δ α) (t : τ) :
    x.zoom part put rename t =
      ⟨(x (part t)).value, put (x (part t)).state t, (x (part t)).trace.map rename⟩ := rfl

instance : LawfulMonad (Traced σ ε) := LawfulMonad.mk' _
  (fun x => by
    funext s
    change (⟨(x s).value, (x s).state, (x s).trace ++ []⟩ : Outcome σ ε _) = x s
    rw [List.append_nil])
  (fun a f => by
    funext s
    change (⟨(f a s).value, (f a s).state, [] ++ (f a s).trace⟩ : Outcome σ ε _) = f a s
    rw [List.nil_append])
  (fun x f g => by
    funext s
    simp only [bind_apply, List.append_assoc])

end Traced
end TickTree
