import TickTree.Npc.Demo
/-! Cues: the sample program led by hand, turn by turn. -/
namespace TickTree.Npc

/-- What changes before a turn, and whether the world moves by itself in it. -/
structure Cue where
  /-- The seconds of the turn; the period of the settings if none. -/
  dt : Option Float32
  visible : Option Bool
  health : Option Float32
  cancel : Option Bool
  moves : Bool

def Cue.step : Cue := ⟨none, none, none, none, true⟩

inductive RowResult where
  /-- The world did not move, and the tree was not ticked. -/
  | stuck (fault : Fault)
  | answered (answer : Except Stop (Option Status))

structure Row where
  result : RowResult
  visible : Bool
  health : Float32
  aggro : UInt32
  activity : Option (List Bool)
  trace : List (Entry Note)

namespace Demo

def write (key : UInt32) (k : Kind) (v : Option k.Val) (d : Demo) : Except Fault Demo :=
  match v with
  | none => .ok d
  | some v => (d.world.set key k v).map (putWorld · d)

def setSignal (on : Option Bool) (d : Demo) : Demo :=
  match on with
  | none => d
  | some on =>
    { d with realm := { d.realm with world := d.realm.world.putSignal signal on } }

/-- What shows after a turn. Health shows as `-1` while its key is bound to another kind. -/
def row (result : RowResult) : Play Row := fun d =>
  ⟨⟨result, isVisible d.world, d.world.getD healthKey .f32 (-1), d.aggro,
    d.runner.running.map (·.root.activity), []⟩, d, []⟩

def perform (cue : Cue) : Play Row := do
  let dt := cue.dt.getD (← Traced.get).config.delta
  let moved ← if cue.moves then moveWorld dt else pure (.ok ())
  match moved with
  | .error e => row (.stuck e)
  | .ok () => row (.answered (← update dt))

def follow (cue : Cue) (d : Demo) : Except Fault (Row × Demo) := do
  let d ← d.write visibleKey .bool cue.visible
  let d ← d.write healthKey .f32 cue.health
  let o := perform cue (d.setSignal cue.cancel)
  pure ({ o.value with trace := o.trace }, o.state)

def followAll : List Cue → Demo → Except Fault (List Row × Demo)
  | [], d => .ok ([], d)
  | cue :: cues, d => do
    let (row, d) ← follow cue d
    let (rows, d) ← followAll cues d
    pure (row :: rows, d)

end Demo

structure Rehearsal where
  opening : List (Entry Note)
  rows : List Row
  ending : List (Entry Note)
  running : Bool

def rehearse (c : Config) (listener : Option Listener) (world : List Request) (cues : List Cue) :
    Except Fault Rehearsal := do
  let board ← Demo.prepare Demo.freshBoard world
  let begun ← Demo.start c (c.seed.getD 0) listener board
  let (rows, d) ← Demo.followAll cues begun.state
  let last := Demo.stop d
  pure ⟨begun.trace, rows, last.trace, last.state.runner.isRunning⟩

end TickTree.Npc
