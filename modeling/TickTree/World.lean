import TickTree.Board.Basic
/-! What outlives a tick and may be shared by many trees: boards, signals, and the state that
callbacks keep among themselves. Handles of one number share one board or one signal. -/
namespace TickTree

structure BoardId where
  index : Nat
  deriving DecidableEq

structure SignalId where
  index : Nat
  deriving DecidableEq

structure World (σ : Type) where
  boards : Array Board
  signals : Array Bool
  shared : σ

namespace World
variable {σ : Type}

def board (w : World σ) (b : BoardId) : Board := w.boards[b.index]?.getD .empty

def putBoard (w : World σ) (b : BoardId) (board : Board) : World σ :=
  { w with boards := w.boards.setIfInBounds b.index board }

def newBoard (w : World σ) : BoardId × World σ :=
  (⟨w.boards.size⟩, { w with boards := w.boards.push .empty })

def isCancelled (w : World σ) (s : SignalId) : Bool := w.signals[s.index]?.getD false

def putSignal (w : World σ) (s : SignalId) (on : Bool) : World σ :=
  { w with signals := w.signals.setIfInBounds s.index on }

def newSignal (w : World σ) : SignalId × World σ :=
  (⟨w.signals.size⟩, { w with signals := w.signals.push false })

end World
end TickTree
