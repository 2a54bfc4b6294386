import TickTree.Board.Request
import TickTree.Npc.Note
import TickTree.Traced
/-! Scripted callbacks: effects, actions that replay a script, and conditions. -/
namespace TickTree.Scenario

inductive Place where
  | global
  | tree
  | own
  deriving DecidableEq

def Place.board (s : Scope) : Place → BoardId
  | global => s.global
  | tree => s.tree
  | own => s.own

inductive Note where
  | ticked (label : String) (dt : Float32)
  | started (label : String)
  | ended (label : String) (result : Status)
  | tested (label : String) (holds : Bool)
  | asked (request : Request) (reply : Reply)
  | clock (delta elapsed : Float32)
  | drew (word : UInt32)
  | said (text : String)
  | refused (fault : Fault)
  | guarded (probe node : String) (passed : Bool)
  | modified (probe node : String) (dt : Float32) (before after : Status)
  | finished (probe node : String) (result : Status) (active : Bool) (time : Float32)
  | aborted (probe node : String) (active : Bool) (time : Float32)
  | attached (probe node : String) (active : Bool)
  | served (probe node : String) (dt time : Float32)
  | detached (probe node : String) (active : Bool) (time : Float32)
  | beat (service node : String)
  | sample (note : Npc.Note)

def Note.line? : Note → Option LogLine
  | sample n => some n.line
  | _ => none

/-- The entry of a script for a call: entries follow each other, and at the end the last one
repeats, or all do. -/
def entryAt? {α : Type} (script : List α) (cycles : Bool) (call : Nat) : Option α :=
  script[if cycles then call % script.length else min call (script.length - 1)]?

inductive Effect where
  | cancel
  | uncancel
  | clock
  | draw
  | say (text : String)
  /-- Adds one to a `u32`, zero if it is absent. The sum wraps around. -/
  | increment (place : Place) (key : UInt32)
  | ask (place : Place) (request : Request)

variable {σ : Type}

abbrev Active (σ : Type) := Traced (Reach σ) Note

abbrev Passive (σ : Type) := Traced (World σ) Note

def onWorld (f : World σ → World σ) : Active σ Unit :=
  Traced.modify fun r => { r with world := f r.world }

def askBoard (b : BoardId) (q : Request) : Active σ (Except Fault Reply) := fun r =>
  let (reply, board) := (r.world.board b).answer q
  ⟨reply, { r with world := r.world.putBoard b board }, []⟩

namespace Effect

def run (s : Scope) : Effect → Active σ (Except Fault Unit)
  | cancel => do
    onWorld (·.putSignal s.signal true)
    pure (.ok ())
  | uncancel => do
    onWorld (·.putSignal s.signal false)
    pure (.ok ())
  | clock => do
    Traced.emit (.clock s.delta s.elapsed)
    pure (.ok ())
  | draw => fun r =>
    let (word, rng) := r.rng.next32
    ⟨.ok (), { r with rng := rng }, [.drew word]⟩
  | say text => do
    Traced.emit (.said text)
    pure (.ok ())
  | increment place key => do
    let count := ((← Traced.get).world.board (place.board s)).getD key .u32 0
    let reply ← askBoard (place.board s) (.set key .u32 (count + 1))
    pure (reply.map fun _ => ())
  | ask place q => do
    match ← askBoard (place.board s) q with
    | .error e => pure (.error e)
    | .ok reply => do
      if !q.isSet then Traced.emit (.asked q reply)
      pure (.ok ())

def runAll (s : Scope) : List Effect → Active σ (Except Fault Unit)
  | [] => pure (.ok ())
  | e :: es => do
    match ← e.run s with
    | .error e => pure (.error e)
    | .ok () => runAll s es

/-- Runs effects where no fault can be answered: it is noted instead. -/
def runNoted (s : Scope) (es : List Effect) : Active σ Unit := do
  match ← runAll s es with
  | .error e => Traced.emit (.refused e)
  | .ok () => pure ()

end Effect

inductive Ending where
  | status (s : Status)
  /-- Failure when cancelled, success otherwise. -/
  | unlessCancelled
  | fault (source : String)

structure Line where
  effects : List Effect
  ending : Ending

structure Action where
  label : String
  script : List Line
  cycles : Bool
  /-- Ticks over the life of the node. -/
  ticks : Nat
  onStart : Option (List Effect)
  onFinish : Option (List Effect)

namespace Action

def start (s : Scope) (a : Action) : Active σ Unit :=
  match a.onStart with
  | none => pure ()
  | some es => do
    Traced.emit (.started a.label)
    Effect.runNoted s es

def finish (s : Scope) (result : Status) (a : Action) : Active σ Unit :=
  match a.onFinish with
  | none => pure ()
  | some es => do
    Traced.emit (.ended a.label result)
    Effect.runNoted s es

/-- An empty script succeeds. -/
def tick (s : Scope) (dt : Float32) (a : Action) : Active σ (Except Fault Status × Action) := do
  Traced.emit (.ticked a.label dt)
  let after := { a with ticks := a.ticks + 1 }
  match entryAt? a.script a.cycles a.ticks with
  | none => pure (.ok .success, after)
  | some line =>
    match ← Effect.runAll s line.effects with
    | .error e => pure (.error e, after)
    | .ok () =>
      match line.ending with
      | .status result => pure (.ok result, after)
      | .fault source => pure (.error (.callback source), after)
      | .unlessCancelled => do
        let w := (← Traced.get).world
        pure (.ok (.ofBool !(w.isCancelled s.signal)), after)

end Action

inductive Test where
  | script (answers : List Bool) (cycles : Bool) (asked : Nat)
  | board (place : Place) (key : UInt32) (fallback : Bool)
  | cancelled
  | elapsedAtLeast (seconds : Float32)
  | deltaAtLeast (seconds : Float32)

def Test.run (s : Scope) (w : World σ) : Test → Bool × Test
  | script answers cycles asked =>
    ((entryAt? answers cycles asked).getD true, script answers cycles (asked + 1))
  | board place key fallback =>
    ((w.board (place.board s)).getD key .bool fallback, board place key fallback)
  | cancelled => (w.isCancelled s.signal, cancelled)
  | elapsedAtLeast seconds => (seconds ≤ s.elapsed, elapsedAtLeast seconds)
  | deltaAtLeast seconds => (seconds ≤ s.delta, deltaAtLeast seconds)

structure Condition where
  label : String
  test : Test

def Condition.check (s : Scope) (c : Condition) : Passive σ (Bool × Condition) := fun w =>
  let (holds, test) := c.test.run s w
  ⟨(holds, { c with test := test }), w, [.tested c.label holds]⟩

end TickTree.Scenario
