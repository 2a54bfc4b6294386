import TickTree.Node.Execute
/-! A tree that runs: its root, its context, and whether it is still going. -/
namespace TickTree

structure Instance (H : Host) where
  root : Node H
  context : Context
  active : Bool

namespace Instance
variable {H : Host}

def ofRoot (root : Node H) (context : Context) : Instance H := ⟨root, context, true⟩

def view (i : Instance H) : TreeView :=
  ⟨i.root.name, i.active, i.context.scope.elapsed, i.root.activity⟩

def onRoot {α : Type} (i : Instance H) (x : Setting → Node H → Exec H (α × Node H)) :
    Turn H (α × Instance H) := do
  let ((a, root), context) ← Turn.within i.context fun s => x s i.root
  pure (a, { i with root := root, context := context })

def abortRoot (i : Instance H) : Turn H (Instance H) := do
  let (_, i) ← i.onRoot fun s n => do
    let n ← n.abort s
    pure ((), n)
  pure i

/-- Advances the clock and runs the root once. A terminal result ends the tree, and an ended tree
fails without touching its clock. -/
def tick (i : Instance H) (dt : Float32) : Turn H (Answer × Instance H) :=
  if i.active then do
    let i := { i with context := i.context.beginTick dt }
    let (answer, i) ← i.onRoot fun s n => n.execute s dt
    match answer with
    | .error stop => pure (.error stop, i)
    | .ok result =>
      if result.isTerminal then do
        let i := { i with active := false }
        Turn.report (.completed i.root.name result)
        Turn.notify i.context.toSetting (.completed i.view result)
        pure (.ok result, i)
      else pure (.ok result, i)
  else pure (.ok .failure, i)

/-- Aborts the tree and sets it going again. The clock runs on. -/
def restart (i : Instance H) : Turn H (Instance H) := do
  let i ← i.abortRoot
  let i := { i with active := true }
  Turn.report (.restarted i.root.name)
  Turn.notify i.context.toSetting (.restarted i.view)
  pure i

/-- Aborts the tree and ends it, unless it has ended before. -/
def abort (i : Instance H) : Turn H (Instance H) :=
  if i.active then do
    let i ← i.abortRoot
    let i := { i with active := false }
    Turn.report (.aborted i.root.name)
    Turn.notify i.context.toSetting (.completed i.view .failure)
    pure i
  else pure i

def intoParts (i : Instance H) : Turn H (Node H × Context) := do
  let i ← i.abort
  pure (i.root, i.context)

end Instance
end TickTree
