import TickTree.World
import TickTree.Random.Rng
/-! The context of a run: what callbacks see of it, who listens to it, and its random numbers. -/
namespace TickTree

/-- Three boards that differ in how widely hosts share them, a cancellation signal, and the tick
clock: the last delta and the sum of all. -/
structure Scope where
  global : BoardId
  tree : BoardId
  own : BoardId
  signal : SignalId
  delta : Float32
  elapsed : Float32
  deriving DecidableEq

inductive Listener where
  | silent
  | logging
  | recording
  deriving DecidableEq

structure Setting where
  scope : Scope
  listener : Option Listener
  deriving DecidableEq

structure Context extends Setting where
  rng : Rng
  deriving DecidableEq

def Scope.beginTick (s : Scope) (dt : Float32) : Scope :=
  { s with delta := dt, elapsed := s.elapsed + dt }

def Context.beginTick (c : Context) (dt : Float32) : Context :=
  { c with scope := c.scope.beginTick dt }

structure Reach (σ : Type) where
  world : World σ
  rng : Rng

end TickTree
