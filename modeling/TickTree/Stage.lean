import TickTree.Host
import TickTree.Tables
/-! What a run changes. A realm is what many trees share: the world and what decorators remember.
A stage adds the random numbers of the context that a tree executes in. -/
namespace TickTree

structure Realm (H : Host) where
  world : World H.State
  tables : Tables

structure Stage (H : Host) extends Realm H where
  rng : Rng

/-- A step of a tree that executes in one context. -/
abbrev Exec (H : Host) := Traced (Stage H) (Entry H.Note)

/-- A step of the host between executions. -/
abbrev Turn (H : Host) := Traced (Realm H) (Entry H.Note)

variable {H : Host} {α : Type}

namespace Exec

def look (x : Traced (World H.State) H.Note α) : Exec H α :=
  x.zoom (·.world) (fun w s => { s with world := w }) .note

def reach (x : Traced (Reach H.State) H.Note α) : Exec H α :=
  x.zoom (fun s => ⟨s.world, s.rng⟩) (fun r s => { s with world := r.world, rng := r.rng }) .note

def hook (v : View) (h : Hook) : Exec H Unit := Traced.emit (.hook v h)

def hooks (v : View) (hs : List Hook) : Exec H Unit := fun s => ⟨(), s, hs.map (.hook v)⟩

def report (r : Report) : Exec H Unit := Traced.emit (.report r)

def notify (s : Setting) (n : Notice) : Exec H Unit := Traced.emit (.notice s.listener n)

def modifyTables (f : Tables → Tables) : Exec H Unit :=
  Traced.modify fun s => { s with tables := f s.tables }

@[simp] theorem look_apply (x : Traced (World H.State) H.Note α) (s : Stage H) :
    look x s = ⟨(x s.world).value, { s with world := (x s.world).state },
      (x s.world).trace.map .note⟩ := rfl

@[simp] theorem reach_apply (x : Traced (Reach H.State) H.Note α) (s : Stage H) :
    reach x s = ⟨(x ⟨s.world, s.rng⟩).value,
      { s with world := (x ⟨s.world, s.rng⟩).state.world, rng := (x ⟨s.world, s.rng⟩).state.rng },
      (x ⟨s.world, s.rng⟩).trace.map .note⟩ := rfl

@[simp] theorem hook_apply (v : View) (h : Hook) (s : Stage H) :
    hook v h s = ⟨(), s, [.hook v h]⟩ := rfl

@[simp] theorem hooks_apply (v : View) (hs : List Hook) (s : Stage H) :
    hooks v hs s = ⟨(), s, hs.map (.hook v)⟩ := rfl

@[simp] theorem report_apply (r : Report) (s : Stage H) : report r s = ⟨(), s, [.report r]⟩ := rfl

@[simp] theorem notify_apply (t : Setting) (n : Notice) (s : Stage H) :
    notify t n s = ⟨(), s, [.notice t.listener n]⟩ := rfl

@[simp] theorem modifyTables_apply (f : Tables → Tables) (s : Stage H) :
    modifyTables f s = ⟨(), { s with tables := f s.tables }, []⟩ := rfl

end Exec

namespace Turn

def report (r : Report) : Turn H Unit := Traced.emit (.report r)

def notify (s : Setting) (n : Notice) : Turn H Unit := Traced.emit (.notice s.listener n)

/-- Runs in a context, which keeps its setting and takes over the random numbers. -/
def within (c : Context) (x : Setting → Exec H α) : Turn H (α × Context) := fun r =>
  let o := x c.toSetting ⟨r, c.rng⟩
  ⟨(o.value, { c with rng := o.state.rng }), o.state.toRealm, o.trace⟩

end Turn
end TickTree
