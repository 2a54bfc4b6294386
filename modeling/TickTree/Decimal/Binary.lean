/-! Finite binary fractions read off the bits of a floating-point number. -/
namespace TickTree.Decimal

/-- The number `mantissa * 2 ^ exponent`, held in a format of `precision` bits.
The gap below it is half the gap above it when `narrowBelow` is set. -/
structure Binary where
  negative : Bool
  mantissa : Nat
  exponent : Int
  narrowBelow : Bool
  deriving DecidableEq

inductive Reading where
  | nan
  | infinite (negative : Bool)
  | finite (number : Binary)
  deriving DecidableEq

structure Layout where
  fraction : Nat
  exponent : Nat

def single : Layout := ⟨23, 8⟩
def double : Layout := ⟨52, 11⟩

def Layout.lowest (l : Layout) : Int := 2 - Int.pow 2 (l.exponent - 1) - l.fraction

def Layout.read (l : Layout) (bits : Nat) : Reading :=
  let fraction := bits % Nat.pow 2 l.fraction
  let biased := bits / Nat.pow 2 l.fraction % Nat.pow 2 l.exponent
  let negative := bits / Nat.pow 2 (l.fraction + l.exponent) % 2 == 1
  if biased = Nat.pow 2 l.exponent - 1 then
    if fraction = 0 then .infinite negative else .nan
  else if biased = 0 then
    .finite ⟨negative, fraction, l.lowest, false⟩
  else
    .finite ⟨negative, Nat.pow 2 l.fraction + fraction, l.lowest + (biased - 1),
      fraction = 0 && biased != 1⟩

/-- The same number in the double format, for a number that the single format holds. -/
def Binary.widen (b : Binary) : Binary :=
  if b.mantissa = 0 then { b with exponent := double.lowest, narrowBelow := false }
  else
    let shift := 52 - b.mantissa.log2
    let mantissa := b.mantissa * Nat.pow 2 shift
    { b with
      mantissa := mantissa
      exponent := b.exponent - shift
      narrowBelow := mantissa == Nat.pow 2 52 }

def Reading.widen : Reading → Reading
  | .finite b => .finite b.widen
  | r => r

def ofSingle (x : Float32) : Reading := single.read x.toBits.toNat
def ofDouble (x : Float) : Reading := double.read x.toBits.toNat

example : ofSingle 1.5 = .finite ⟨false, 0xc00000, -23, false⟩ := by decide
example : (ofSingle (-0.1)).widen = ofDouble (-0.10000000149011612) := by decide +kernel

end TickTree.Decimal
