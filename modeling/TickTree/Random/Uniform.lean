import TickTree.Random.Rng
/-! A uniform single-precision number between zero and a bound, both included. -/
namespace TickTree.Rng

/-- The largest fraction that a draw of 23 bits makes, one step of `2⁻²³` below 1. -/
def topFraction : Float32 := Float32.ofBits 0x3f7ffffe

/-- Steps a scale down, bit pattern by bit pattern, until the top fraction stays within `bound`. -/
def settle (bound : Float32) : Nat → Float32
  | 0 => Float32.ofBits 0
  | bits + 1 =>
    let scale := Float32.ofBits (bits + 1).toUInt32
    if bound < scale * topFraction + 0 then settle bound bits else scale

def scale? (bound : Float32) : Option Float32 :=
  let scale := bound / topFraction
  if scale.isFinite then some (settle bound scale.toBits.toNat) else none

def fraction (w : UInt32) : Float32 := Float32.ofBits ((w >>> 9) ||| 0x3f800000) - 1

def uniform? (bound : Float32) (r : Rng) : Option (Float32 × Rng) :=
  (scale? bound).map fun scale =>
    let (w, r) := r.next32
    (fraction w * scale + 0, r)

end TickTree.Rng
