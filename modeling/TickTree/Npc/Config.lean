/-! Settings of the sample program, read from environment variables. A variable that is unset, is
not text or does not read as its setting leaves the default. -/
namespace TickTree.Npc

structure Config where
  tickMillis : UInt64
  /-- Zero means no end. -/
  maxTicks : UInt64
  seed : Option UInt64
  restartOnComplete : Bool
  deriving DecidableEq

def Config.standard : Config := ⟨100, 300, none, true⟩

inductive Variable where
  | tickMillis
  | maxTicks
  | seed
  | restart
  deriving DecidableEq

def Variable.name : Variable → String
  | tickMillis => "BT_DEMO_TICK_MS"
  | maxTicks => "BT_DEMO_MAX_TICKS"
  | seed => "BT_DEMO_SEED"
  | restart => "BT_DEMO_RESTART"

def digits? : Nat → List Char → Option Nat
  | n, [] => some n
  | n, c :: cs =>
    if '0' ≤ c && c ≤ '9' then digits? (10 * n + (c.toNat - '0'.toNat)) cs else none

/-- Digits, after one plus sign if any. -/
def natural? : List Char → Option Nat
  | [] => none
  | '+' :: cs => if cs.isEmpty then none else digits? 0 cs
  | cs => digits? 0 cs

def number? (s : String) : Option UInt64 :=
  (natural? s.toList).bind fun n => if n < UInt64.size then some n.toUInt64 else none

/-- Lower case, as far as ASCII letters come out of it: besides the capitals of ASCII only the
Kelvin sign and the dotted capital I yield one, and the latter keeps its dot. -/
def lower (c : Char) : List Char :=
  if c = Char.ofNat 0x212a then ['k']
  else if c = Char.ofNat 0x130 then ['i', Char.ofNat 0x307]
  else [c.toLower]

def switch? (s : String) : Option Bool :=
  let word := String.ofList (s.toList.flatMap lower)
  if word ∈ ["true", "1", "yes", "on"] then some true
  else if word ∈ ["false", "0", "no", "off"] then some false
  else none

def text? (env : Variable → Option ByteArray) (v : Variable) : Option String :=
  (env v).bind String.fromUTF8?

/-- The tick period is at least one millisecond. -/
def Config.ofEnv (env : Variable → Option ByteArray) : Config where
  tickMillis := (((text? env .tickMillis).bind number?).map (max · 1)).getD standard.tickMillis
  maxTicks := ((text? env .maxTicks).bind number?).getD standard.maxTicks
  seed := (text? env .seed).bind number?
  restartOnComplete := ((text? env .restart).bind switch?).getD standard.restartOnComplete

namespace Config

def nanoseconds (c : Config) : Nat := c.tickMillis.toNat * 1000000

/-- The seconds of one tick: whole seconds and the rest are rounded each, then added. -/
def delta (c : Config) : Float32 :=
  let nanoseconds := c.tickMillis % 1000 * 1000000
  (c.tickMillis / 1000).toFloat32 + nanoseconds.toFloat32 / 1000000000

def thousandths (n : Nat) : String :=
  let s := (toString (1000 + n)).toList.drop 1
  let s := (s.reverse.dropWhile (· = '0')).reverse
  if s.isEmpty then "" else "." ++ String.ofList s

/-- The tick period: in seconds from one second on, in milliseconds below. -/
def interval (c : Config) : String :=
  let millis := c.tickMillis.toNat
  if 1000 ≤ millis then toString (millis / 1000) ++ thousandths (millis % 1000) ++ "s"
  else toString millis ++ "ms"

end Config
end TickTree.Npc
