import TickTree.Decimal.Shortest
/-! Texts of floating-point numbers: plain positional text, and text that keeps a fractional
part and turns to an exponent outside `10⁻⁴ ≤ |x| < 10¹⁶`. -/
namespace TickTree.Decimal

def zeros (n : Nat) : String := String.ofList (List.replicate n '0')

/-- Digits with the point in place; `places` is the least number of digits after it. -/
def Digits.positional (d : Digits) (places : Nat) : String :=
  let s := toString d.digits
  let padded (tail : String) : String :=
    let tail := tail ++ zeros (places - tail.length)
    if tail.isEmpty then "" else "." ++ tail
  if 0 ≤ d.exponent then
    (if d.digits = 0 then s else s ++ zeros d.exponent.toNat) ++ padded ""
  else
    let after := (-d.exponent).toNat
    let s := zeros (after + 1 - s.length) ++ s
    String.ofList (s.toList.take (s.length - after)) ++
      padded (String.ofList (s.toList.drop (s.length - after)))

def Digits.scientific (d : Digits) : String :=
  let s := (toString d.digits).toList
  let tail := s.drop 1
  String.ofList (s.take 1) ++ (if tail.isEmpty then "" else "." ++ String.ofList tail) ++
    "e" ++ toString (d.exponent + tail.length)

structure Style where
  /-- The least number of digits after the point. -/
  places : Nat
  /-- Whether numbers below `10⁻⁴` or from `10¹⁶` on are written with an exponent. -/
  exponents : Bool

/-- Whole numbers stay bare, and no exponent is written. -/
def plain : Style := ⟨0, false⟩

/-- Whole numbers end in `.0`, and far ones carry an exponent. -/
def pointed : Style := ⟨1, true⟩

def Digits.magnitude (d : Digits) : Int := d.exponent + width d.digits - 1

def Style.digits (style : Style) (d : Digits) : String :=
  let far := d.digits != 0 && (d.magnitude < -4 || 16 ≤ d.magnitude)
  if style.exponents && far then d.scientific else d.positional style.places

def Style.reading (style : Style) : Reading → String
  | .nan => "NaN"
  | .infinite negative => if negative then "-inf" else "inf"
  | .finite b => (if b.negative then "-" else "") ++ style.digits b.shortest

def Style.single (style : Style) (x : Float32) : String := style.reading (ofSingle x)

def Style.widened (style : Style) (x : Float32) : String := style.reading (ofSingle x).widen

end TickTree.Decimal
