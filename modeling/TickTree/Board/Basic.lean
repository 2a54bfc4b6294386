import Std.Data.TreeMap.Basic
import TickTree.Fault
/-! Boards: values under integer keys. The first write binds a key to its kind, and later writes
keep to it; `reset` alone rebinds. -/
namespace TickTree

/-- A stored value with the kind that binds its key. -/
structure Slot where
  kind : Kind
  value : kind.Val

def Slot.as? (s : Slot) (k : Kind) : Option k.Val :=
  if h : s.kind = k then some (h ▸ s.value) else none

@[simp] theorem Slot.as?_self (k : Kind) (v : k.Val) : Slot.as? ⟨k, v⟩ k = some v := by
  simp [as?]

theorem Slot.as?_of_ne {s : Slot} {k : Kind} (h : s.kind ≠ k) : s.as? k = none := by
  simp [as?, h]

structure Board where
  slots : Std.TreeMap UInt32 Slot

namespace Board

def empty : Board := ⟨∅⟩

instance : Inhabited Board := ⟨empty⟩
instance : EmptyCollection Board := ⟨empty⟩

def slot? (b : Board) (key : UInt32) : Option Slot := b.slots[key]?

/-- Binds the key anew, whatever it held. -/
def reset (b : Board) (key : UInt32) (k : Kind) (v : k.Val) : Board :=
  ⟨b.slots.insert key ⟨k, v⟩⟩

/-- Writes a value, unless the key is bound to another kind. -/
def set (b : Board) (key : UInt32) (k : Kind) (v : k.Val) : Except Fault Board :=
  match b.slot? key with
  | none => .ok (b.reset key k v)
  | some s => if s.kind = k then .ok (b.reset key k v) else .error (.typeMismatch key s.kind k)

def get (b : Board) (key : UInt32) (k : Kind) : Except Fault k.Val :=
  match b.slot? key with
  | none => .error (.keyNotFound key)
  | some s =>
    match s.as? k with
    | some v => .ok v
    | none => .error (.typeMismatch key s.kind k)

def get? (b : Board) (key : UInt32) (k : Kind) : Option k.Val := (b.slot? key).bind (·.as? k)

def getD (b : Board) (key : UInt32) (k : Kind) (fallback : k.Val) : k.Val :=
  (b.get? key k).getD fallback

def contains (b : Board) (key : UInt32) : Bool := (b.slot? key).isSome

def containsOf (b : Board) (key : UInt32) (k : Kind) : Bool :=
  (b.slot? key).any fun s => s.kind = k

def erase (b : Board) (key : UInt32) : Board := ⟨b.slots.erase key⟩

def size (b : Board) : Nat := b.slots.size

def isEmpty (b : Board) : Bool := b.slots.isEmpty

def keys (b : Board) : List UInt32 := b.slots.keys

end Board
end TickTree
