import TickTree.Trace
import TickTree.Traced
/-! The callbacks that a host plugs into trees, as one record. Actions and conditions carry private
state, which each call may replace; decorators and services are shared between nodes and keep what
they remember in the world. -/
namespace TickTree

structure Host where
  State : Type
  Note : Type
  Action : Type
  Condition : Type
  Decorator : Type
  Service : Type
  start : Action → Scope → Traced (Reach State) Note Action
  tick : Action → Scope → Float32 → Traced (Reach State) Note (Except Fault Status × Action)
  finish : Action → Scope → Status → Traced (Reach State) Note Action
  check : Condition → Scope → Traced (World State) Note (Bool × Condition)
  name : Decorator → String
  allows : Decorator → Scope → View → Traced (World State) Note Bool
  modifier : Decorator → Option (Scope → View → Float32 → Status → Traced (World State) Note Status)
  finished : Decorator → Scope → View → Status → Traced (World State) Note Unit
  aborted : Decorator → Scope → View → Traced (World State) Note Unit
  attached : Service → Scope → View → Traced (Reach State) Note Unit
  serve : Service → Scope → View → Float32 → Traced (Reach State) Note Unit
  detached : Service → Scope → View → Traced (Reach State) Note Unit

end TickTree
