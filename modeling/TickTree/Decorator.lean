import TickTree.Stage
/-! Decorators guard a node before it runs, change what it answers, and hear of the end of each
activation. One decorator may sit on many nodes; what it remembers of each is in the tables. -/
namespace TickTree

/-- Keeps a node shut for some seconds after its activation ends. -/
structure Cooldown where
  id : DecoratorId
  seconds : Float32
  span : Span seconds

structure Timeout where
  id : DecoratorId
  seconds : Float32
  positive : 0 < seconds

def Cooldown.make (id : DecoratorId) (seconds : Float32) : Except Fault Cooldown :=
  if h : Span seconds then .ok ⟨id, seconds, h⟩
  else .error (.outOfRange (.cooldownSeconds seconds))

def Timeout.make (id : DecoratorId) (seconds : Float32) : Except Fault Timeout :=
  if h : 0 < seconds then .ok ⟨id, seconds, h⟩
  else .error (.outOfRange (.timeoutSeconds seconds))

inductive Decorator (H : Host) where
  | cooldown (c : Cooldown)
  | timeout (t : Timeout)
  | inverter
  | custom (d : H.Decorator)

variable {H : Host}

namespace Cooldown

def nextAvailable (c : Cooldown) (t : Tables) (n : NodeId) : Option Float32 := t.get? c.id n

def allows (c : Cooldown) (t : Tables) (n : NodeId) (elapsed : Float32) : Bool :=
  match c.nextAvailable t n with
  | none => true
  | some next => next ≤ elapsed

def stamp (c : Cooldown) (n : NodeId) (elapsed : Float32) (t : Tables) : Tables :=
  t.insert c.id n (elapsed + c.seconds)

end Cooldown

namespace Timeout

def elapsed (o : Timeout) (t : Tables) (n : NodeId) : Option Float32 := t.get? o.id n

/-- Adds up the time of running ticks. Reaching the limit fails the tick and starts over. -/
def modify (o : Timeout) (n : NodeId) (dt : Float32) (current : Status) (t : Tables) :
    Status × Tables :=
  if current = .running then
    let time := (o.elapsed t n).getD 0 + dt
    if o.seconds ≤ time then (.failure, t.insert o.id n 0)
    else (.running, t.insert o.id n time)
  else (current, t.erase o.id n)

def forget (o : Timeout) (n : NodeId) (t : Tables) : Tables := t.erase o.id n

end Timeout

namespace Decorator

def name : Decorator H → String
  | cooldown _ => "Cooldown"
  | timeout _ => "Timeout"
  | inverter => "Inverter"
  | custom d => H.name d

def allows (s : Setting) (v : View) : Decorator H → Exec H Bool
  | cooldown c => do
    let stage ← Traced.get
    pure (c.allows stage.tables v.id s.scope.elapsed)
  | timeout _ | inverter => pure true
  | custom d => .look (H.allows d s.scope v)

def modifier (s : Setting) (v : View) (dt : Float32) (current : Status) :
    Decorator H → Option (Exec H Status)
  | cooldown _ => none
  | timeout o => some fun stage =>
    let (status, tables) := o.modify v.id dt current stage.tables
    ⟨status, { stage with tables := tables }, []⟩
  | inverter => some (pure current.invert)
  | custom d => (H.modifier d).map fun f => .look (f s.scope v dt current)

def finished (s : Setting) (v : View) (result : Status) : Decorator H → Exec H Unit
  | cooldown c =>
    if result.isTerminal then Exec.modifyTables (c.stamp v.id s.scope.elapsed) else pure ()
  | timeout o => Exec.modifyTables (o.forget v.id)
  | inverter => pure ()
  | custom d => .look (H.finished d s.scope v result)

def aborted (s : Setting) (v : View) : Decorator H → Exec H Unit
  | cooldown c => Exec.modifyTables (c.stamp v.id s.scope.elapsed)
  | timeout o => Exec.modifyTables (o.forget v.id)
  | inverter => pure ()
  | custom d => .look (H.aborted d s.scope v)

end Decorator
end TickTree
