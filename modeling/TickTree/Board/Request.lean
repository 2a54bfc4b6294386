import TickTree.Board.Basic
/-! Requests to a board and the answers to them. -/
namespace TickTree

inductive Request where
  | contains (key : UInt32)
  | remove (key : UInt32)
  | clear
  | size
  | isEmpty
  | set (key : UInt32) (kind : Kind) (value : kind.Val)
  | reset (key : UInt32) (kind : Kind) (value : kind.Val)
  | get (key : UInt32) (kind : Kind)
  | borrow (key : UInt32) (kind : Kind)
  | get? (key : UInt32) (kind : Kind)
  | getOr (key : UInt32) (kind : Kind) (fallback : kind.Val)
  | getOrZero (key : UInt32) (kind : Kind)
  | containsOf (key : UInt32) (kind : Kind)

def Request.isSet : Request → Bool
  | set .. => true
  | _ => false

inductive Reply where
  | done
  | flag (b : Bool)
  | count (n : Nat)
  | value (kind : Kind) (v : kind.Val)
  | borrowed (kind : Kind) (v : kind.Val)
  | found (kind : Kind) (v : Option kind.Val)

/-- A refused request changes nothing. -/
def Board.answer (b : Board) : Request → Except Fault Reply × Board
  | .contains key => (.ok (.flag (b.contains key)), b)
  | .remove key => (.ok (.flag (b.contains key)), b.erase key)
  | .clear => (.ok .done, .empty)
  | .size => (.ok (.count b.size), b)
  | .isEmpty => (.ok (.flag b.isEmpty), b)
  | .set key k v =>
    match b.set key k v with
    | .ok b' => (.ok .done, b')
    | .error e => (.error e, b)
  | .reset key k v => (.ok .done, b.reset key k v)
  | .get key k => ((b.get key k).map (.value k), b)
  | .borrow key k => ((b.get key k).map (.borrowed k), b)
  | .get? key k => (.ok (.found k (b.get? key k)), b)
  | .getOr key k fallback => (.ok (.value k (b.getD key k fallback)), b)
  | .getOrZero key k => (.ok (.value k (b.getD key k k.zero)), b)
  | .containsOf key k => (.ok (.flag (b.containsOf key k)), b)

end TickTree
