import TickTree.Board.Request
import TickTree.Npc.Config
import TickTree.Npc.Host
import TickTree.Npc.World
import TickTree.Runner
/-! The sample program: the character's tree run by a runner against the world around it. -/
namespace TickTree.Npc

structure Demo where
  config : Config
  realm : Realm host
  runner : Runner host
  /-- The random numbers of the world; the tree has its own. -/
  rng : Rng

abbrev Play := Traced Demo (Entry Note)

namespace Demo

/-- The board of the world, which is the global board of the tree. -/
def worldBoard : BoardId := ⟨0⟩

def signal : SignalId := ⟨0⟩

def scope : Scope := ⟨worldBoard, ⟨1⟩, ⟨2⟩, signal, 0, 0⟩

def freshBoard : Board :=
  (Board.empty.reset visibleKey .bool false).reset healthKey .f32 maxHealth

def prepare (b : Board) : List Request → Except Fault Board
  | [] => .ok b
  | q :: qs =>
    match b.answer q with
    | (.ok _, b) => prepare b qs
    | (.error e, _) => .error e

/-- Sets up the world, builds the tree and starts it. The world draws from the next seed. -/
def start (config : Config) (seed : UInt64) (listener : Option Listener) (board : Board) :
    Except Fault (Outcome Demo (Entry Note) Unit) := do
  let root ← ((tree parts).run ⟨1, 0⟩).1
  let rng := Rng.ofSeed seed
  let context : Context := ⟨⟨scope, listener⟩, rng⟩
  let realm : Realm host := ⟨⟨#[board, .empty, .empty], #[false], ()⟩, .empty⟩
  let runner : Runner host := .ofConfig ⟨false, config.restartOnComplete⟩
  let o := (do (← runner.setRoot root rng).startIn context : Turn host _) realm
  let () ← o.value.1
  pure ⟨(), ⟨config, o.state, o.value.2, Rng.ofSeed (seed + 1)⟩, o.trace⟩

def onRunner {α : Type} (x : Runner host → Turn host (α × Runner host)) : Play α := fun d =>
  let o := x d.runner d.realm
  ⟨o.value.1, { d with realm := o.state, runner := o.value.2 }, o.trace⟩

def note (n : Note) : Play Unit := Traced.emit (.note n)

def world (d : Demo) : Board := d.realm.world.board worldBoard

def putWorld (b : Board) (d : Demo) : Demo :=
  { d with realm := { d.realm with world := d.realm.world.putBoard worldBoard b } }

def moveWorld (dt : Float32) : Play (Except Fault Unit) := fun d =>
  let step := stepWorld dt d.world d.rng
  ⟨step.result, { d.putWorld step.board with rng := step.rng },
    step.sighted.toList.map fun visible => .note (.sighted visible)⟩

def update (dt : Float32) : Play (Except Stop (Option Status)) := onRunner (·.update dt)

def stop : Play Unit := onRunner fun r => do
  let r ← r.stop
  pure ((), r)

def aggro (d : Demo) : UInt32 := (d.realm.world.board scope.own).getD aggroKey .u32 0

def turn (tick : Nat) : Play (Except Stop Unit) := do
  let dt := (← Traced.get).config.delta
  match ← moveWorld dt with
  | .error e => pure (.error (.failed e))
  | .ok () =>
    match ← update dt with
    | .error stop => pure (.error stop)
    | .ok none => pure (.ok ())
    | .ok (some result) => do
      if result.isTerminal then note (.completed result tick)
      pure (.ok ())

def turns : Nat → Nat → Play (Except Stop Unit)
  | 0, _ => pure (.ok ())
  | n + 1, tick => do
    match ← turn tick with
    | .error stop => pure (.error stop)
    | .ok () => turns n (tick + 1)

def opening (c : Config) : List (Entry Note) :=
  [.note .opened, .note (.ticking c.interval), .note (.seeded c.seed)]

/-- The end after so many turns: stops the tree and takes leave. -/
def depart (ticks : Nat) : Play Unit := do
  note (.reached ticks)
  stop
  let d ← Traced.get
  note (.closed (d.world.getD healthKey .f32 0))

def play : Play (Except Stop Unit) := do
  let ticks := (← Traced.get).config.maxTicks.toNat
  match ← turns ticks 0 with
  | .error stop => pure (.error stop)
  | .ok () => do
    depart ticks
    pure (.ok ())

def run (c : Config) (seed : UInt64) : Except Stop Unit × List (Entry Note) :=
  match start c seed (some .logging) freshBoard with
  | .error e => (.error (.failed e), opening c)
  | .ok begun =>
    let o := play begun.state
    (o.value, opening c ++ begun.trace ++ o.trace)

def lines (trace : List (Entry Note)) : List String :=
  ((trace.filterMap (LogLine.ofEntry? fun n => some n.line)).filter (·.level.isShown)).map
    LogLine.render

def exitCode (result : Except Stop Unit) : Nat :=
  match result with
  | .ok () => 0
  | .error _ => 1

end Demo
end TickTree.Npc
