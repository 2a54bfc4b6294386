import TickTree.Instance
/-! A runner holds a root and starts, updates and stops trees over it. -/
namespace TickTree

structure RunnerConfig where
  /-- Start a tree as soon as a root is set. -/
  autoStart : Bool
  /-- Restart a tree whenever it ends. -/
  restartOnComplete : Bool
  deriving DecidableEq

def RunnerConfig.standard : RunnerConfig := ⟨true, false⟩

structure Runner (H : Host) where
  config : RunnerConfig
  root : Option (Node H)
  global : Option BoardId
  running : Option (Instance H)

namespace Runner
variable {H : Host}

def ofConfig (config : RunnerConfig) : Runner H := ⟨config, none, none, none⟩

def isRunning (r : Runner H) : Bool := r.running.isSome

/-- Takes the root back from the tree. A root set meanwhile replaces it. -/
def reclaim (r : Runner H) : Turn H (Runner H) :=
  match r.running with
  | none => pure r
  | some i => do
    let (root, _) ← i.intoParts
    match r.root with
    | none => pure { r with root := some root, running := none }
    | some _ => do
      Turn.report (.replaced root.name)
      pure { r with running := none }

def startIn (r : Runner H) (context : Context) : Turn H (Except Fault Unit × Runner H) := do
  let r ← r.reclaim
  match r.root with
  | none => pure (.error .missingRoot, r)
  | some root => do
    Turn.report (.started root.name)
    pure (.ok (), { r with root := none, running := some (.ofRoot root context) })

def freshContext (global : Option BoardId) (rng : Rng) : Turn H Context := fun realm =>
  let w := realm.world
  let (g, w) := match global with
    | some g => (g, w)
    | none => w.newBoard
  let (t, w) := w.newBoard
  let (o, w) := w.newBoard
  let (signal, w) := w.newSignal
  ⟨⟨⟨⟨g, t, o, signal, 0, 0⟩, none⟩, rng⟩, { realm with world := w }, []⟩

def start (r : Runner H) (rng : Rng) : Turn H (Except Fault Unit × Runner H) := do
  let context ← freshContext r.global rng
  r.startIn context

/-- Sets the root of the next start, and starts at once if the runner is set up to and idle. -/
def setRoot (r : Runner H) (root : Node H) (rng : Rng) : Turn H (Runner H) := do
  let r := { r with root := some root }
  if r.config.autoStart && !r.isRunning then
    let (started, r) ← r.start rng
    match started with
    | .ok () => pure r
    | .error e => do
      Turn.report (.autoStartFailed e)
      pure r
  else pure r

def setGlobal (r : Runner H) (b : BoardId) : Runner H := { r with global := some b }

def update (r : Runner H) (dt : Float32) : Turn H (Except Stop (Option Status) × Runner H) :=
  match r.running with
  | none => pure (.ok none, r)
  | some i => do
    let (answer, i) ← i.tick dt
    match answer with
    | .error stop => pure (.error stop, { r with running := some i })
    | .ok result =>
      if r.config.restartOnComplete && result.isTerminal then do
        let i ← i.restart
        pure (.ok (some result), { r with running := some i })
      else pure (.ok (some result), { r with running := some i })

/-- Ends the tree and keeps its root. -/
def stop (r : Runner H) : Turn H (Runner H) :=
  if r.isRunning then do
    let r ← r.reclaim
    Turn.report .stopped
    pure r
  else pure r

def drop (r : Runner H) : Turn H Unit :=
  match r.running with
  | none => pure ()
  | some i => do
    let _ ← i.abort
    pure ()

end Runner
end TickTree
