import TickTree.Random.Words
/-! A source of random numbers: a key and the position of the next word. -/
namespace TickTree

structure Rng where
  key : Random.Key
  position : Nat
  deriving DecidableEq

namespace Rng

def ofSeed (seed : UInt64) : Rng := ⟨Random.keyOfSeed seed, 0⟩

def next32 (r : Rng) : UInt32 × Rng :=
  (Random.word r.key r.position, { r with position := r.position + 1 })

/-- Two words, the low half first. -/
def next64 (r : Rng) : UInt64 × Rng :=
  let (low, r) := r.next32
  let (high, r) := r.next32
  ((high.toUInt64 <<< 32) ||| low.toUInt64, r)

/-- The largest low half that keeps every number below `range` equally likely. -/
def zone (range : UInt64) : UInt64 :=
  (range <<< (63 - range.toNat.log2).toUInt64) - 1

/-- The high half of the product of a 64-bit draw and `range`, redrawn while the low half lies
past the zone. The high half of any draw is in range, so the last of `fuel` draws stands. -/
def scaled (range : UInt64) : Nat → Rng → Nat × Rng
  | 0, r =>
    let (v, r) := r.next64
    (v.toNat * range.toNat / UInt64.size, r)
  | fuel + 1, r =>
    let (v, r') := r.next64
    let product := v.toNat * range.toNat
    if product % UInt64.size ≤ (zone range).toNat then (product / UInt64.size, r')
    else scaled range fuel r'

/-- A number from `0` to `i`, for an `i` below `2 ^ 64 - 1`. At least half of all draws are kept,
so 256 refusals in a row do not happen in practice. -/
def upTo (i : Nat) (r : Rng) : Nat × Rng := scaled (i + 1).toUInt64 256 r

def below (threshold : UInt64) (r : Rng) : Bool × Rng :=
  let (v, r) := r.next64
  (v < threshold, r)

end Rng
end TickTree
