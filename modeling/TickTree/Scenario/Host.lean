import TickTree.Scenario.Probe
/-! The host of scenarios: scripted callbacks, and those of the sample tree. -/
namespace TickTree.Scenario

inductive Leaf where
  | scripted (a : Action)
  | fixed (result : Status)
  /-- The flight of the sample tree. -/
  | flee

inductive Check where
  | scripted (c : Condition)
  | enemyInSight

def host : Host where
  State := Calls
  Note := Note
  Action := Leaf
  Condition := Check
  Decorator := Decorator
  Service := Service
  start
    | .scripted a, s => do
      a.start s
      pure (.scripted a)
    | a, _ => pure a
  tick
    | .scripted a, s, dt => do
      let (answer, a) ← a.tick s dt
      pure (answer, .scripted a)
    | .fixed result, _, _ => pure (.ok result, .fixed result)
    | .flee, s, dt => fun r =>
      let (answer, w) := Npc.flee s dt r.world
      ⟨(answer, .flee), { r with world := w }, []⟩
  finish
    | .scripted a, s, result => do
      a.finish s result
      pure (.scripted a)
    | a, _, _ => pure a
  check
    | .scripted c, s => do
      let (holds, c) ← c.check s
      pure (holds, .scripted c)
    | .enemyInSight, s => fun w => ⟨(Npc.isVisible (w.board s.global), .enemyInSight), w, []⟩
  name := Decorator.name
  allows d s v := d.allows s v
  modifier := Decorator.modifier
  finished d _ v result := d.finished v result
  aborted d _ v := d.aborted v
  attached d s v := d.attached s v
  serve d s v dt := d.serve s v dt
  detached d s v := d.detached s v

def sampleParts : Npc.Parts host := ⟨.flee, .enemyInSight, .sample, .growl⟩

end TickTree.Scenario
