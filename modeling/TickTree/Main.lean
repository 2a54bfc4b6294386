import TickTree.Npc.Demo
/-! The command line: the sample program in real time, with its log on standard error. All that is
shown comes from the steps of `Demo`; here they are only paced and printed. -/
namespace TickTree.Npc

def present (trace : List (Entry Note)) : IO Unit := do
  for line in Demo.lines trace do IO.eprintln line

def environment : IO (Variable → Option ByteArray) := do
  let value (v : Variable) : IO (Option ByteArray) := do
    pure ((← IO.getEnv v.name).map String.toUTF8)
  let tickMillis ← value .tickMillis
  let maxTicks ← value .maxTicks
  let seed ← value .seed
  let restart ← value .restart
  pure fun
    | .tickMillis => tickMillis
    | .maxTicks => maxTicks
    | .seed => seed
    | .restart => restart

def freshSeed : IO UInt64 := do
  pure ((← IO.getRandomBytes 8).toList.foldl (fun n b => 256 * n + b.toUInt64) 0)

/-- Waits for a tick period, in parts that a single pause can last. -/
def pause (millis : UInt64) : IO Unit := do
  let part := 0x80000000
  for _ in [0 : millis.toNat / part] do IO.sleep part.toUInt32
  IO.sleep (millis.toNat % part).toUInt32

def fail (stop : Stop) : IO UInt32 := do
  let message := match stop with
    | .failed e => e.message
    | .panicked p => p.message
  IO.eprintln ("Error: " ++ message)
  pure (Demo.exitCode (.error stop)).toUInt32

/-- Takes turns from `tick` on, one a period, until the settings ask for no more. -/
partial def takeTurns (tick : Nat) (d : Demo) : IO UInt32 := do
  let turn := Demo.turn tick d
  present turn.trace
  match turn.value with
  | .error stop => fail stop
  | .ok () =>
    let ticks := tick + 1
    if ticks = d.config.maxTicks.toNat then
      let last := Demo.depart ticks turn.state
      present last.trace
      pure (Demo.exitCode (.ok ())).toUInt32
    else
      pause d.config.tickMillis
      takeTurns ticks turn.state

def perform : IO UInt32 := do
  let config := Config.ofEnv (← environment)
  present (Demo.opening config)
  let seed ← match config.seed with
    | some seed => pure seed
    | none => freshSeed
  match Demo.start config seed (some .logging) Demo.freshBoard with
  | .error e => fail (.failed e)
  | .ok begun =>
    present begun.trace
    takeTurns 0 begun.state

end TickTree.Npc

def main : IO UInt32 := TickTree.Npc.perform
