import TickTree.Decimal.Binary
/-! The shortest decimal that reads back as a given binary number. -/
namespace TickTree.Decimal

/-- `digits * 10 ^ exponent`, with no trailing zero among the digits. -/
structure Digits where
  digits : Nat
  exponent : Int
  deriving DecidableEq

/-- `numerator / denominator` in quarters of the last bit, with the ends of the reals that
round to it; `closed` says whether the ends do. -/
structure Interval where
  low : Nat
  value : Nat
  high : Nat
  denominator : Nat
  closed : Bool

def Binary.interval (b : Binary) : Interval :=
  let scale := Nat.pow 2 (b.exponent - 2).toNat
  { low := (4 * b.mantissa - if b.narrowBelow then 1 else 2) * scale
    value := 4 * b.mantissa * scale
    high := (4 * b.mantissa + 2) * scale
    denominator := Nat.pow 2 (2 - b.exponent).toNat
    closed := b.mantissa % 2 == 0 }

def Interval.holds (i : Interval) (numerator denominator : Nat) : Bool :=
  let low := i.low * denominator
  let high := i.high * denominator
  let x := numerator * i.denominator
  if i.closed then low ≤ x && x ≤ high else low < x && x < high

def width (n : Nat) : Nat := (Nat.toDigits 10 n).length

/-- The `e` with `10 ^ e ≤ numerator / denominator < 10 ^ (e + 1)`. -/
def decade (numerator denominator : Nat) : Int :=
  let e : Int := width numerator - width denominator
  if denominator * Nat.pow 10 e.toNat ≤ numerator * Nat.pow 10 (-e).toNat then e else e - 1

def Digits.trimFrom : Nat → Digits → Digits
  | 0, d => d
  | fuel + 1, d =>
    if d.digits % 10 = 0 then trimFrom fuel ⟨d.digits / 10, d.exponent + 1⟩ else d

def Digits.trim (d : Digits) : Digits := d.trimFrom (width d.digits)

/-- The best multiple of `10 ^ e` in the interval, if one is there: the nearer of the value's two
neighbours, and the upper one of a tie. -/
def Interval.onGrid (i : Interval) (e : Int) : Option Digits :=
  let up := Nat.pow 10 e.toNat
  let down := Nat.pow 10 (-e).toNat
  let step := i.denominator * up
  let below := i.value * down / step
  let rest := i.value * down % step
  let lower := if i.holds (below * up) down then some below else none
  let upper := if i.holds ((below + 1) * up) down then some (below + 1) else none
  let best := match lower, upper with
    | some l, some u => some (if 2 * rest < step then l else u)
    | l, u => l.or u
  best.map fun n => ⟨n, e⟩

def Interval.shortestFrom (i : Interval) : Nat → Int → Digits
  | 0, e => ⟨i.value * Nat.pow 10 (-e).toNat / (i.denominator * Nat.pow 10 e.toNat), e⟩
  | fuel + 1, e => (i.onGrid e).getD (i.shortestFrom fuel (e - 1))

/-- Seventeen digits tell any two double-precision numbers apart. -/
def Binary.shortest (b : Binary) : Digits :=
  if b.mantissa = 0 then ⟨0, 0⟩
  else
    let i := b.interval
    (i.shortestFrom 17 (decade i.value i.denominator)).trim

end TickTree.Decimal
