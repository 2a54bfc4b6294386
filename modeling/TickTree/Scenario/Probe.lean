import TickTree.Npc.Tree
import TickTree.Scenario.Script
/-! Decorators and services that note every call. -/
namespace TickTree.Scenario

abbrev Calls := Std.TreeMap Nat Nat

inductive Gate where
  | script (answers : List Bool)
  | board (place : Place) (key : UInt32) (fallback : Bool)
  | opened

structure Probe where
  id : String
  serial : Nat
  gate : Gate
  /-- The results that a probe replaces, if it modifies results at all. -/
  swaps : Option (List (Status × Status))

inductive Decorator where
  /-- Does nothing. -/
  | plain (id : String)
  | probe (p : Probe)
  | sample (g : Npc.Guard)

inductive Service where
  | probe (id : String) (attached tick detached : List Effect)
  | plain (id : String)
  | beat (id : String) (effects : List Effect)
  /-- The growl of the sample tree. -/
  | growl

namespace Gate

def isOpen (s : Scope) (w : World Calls) (calls : Nat) : Gate → Bool
  | script answers => (entryAt? answers false calls).getD true
  | board place key fallback => (w.board (place.board s)).getD key .bool fallback
  | opened => true

end Gate

namespace Decorator

def name : Decorator → String
  | plain id => id
  | probe p => p.id
  | sample g => g.name

def allows (s : Scope) (v : View) : Decorator → Passive Calls Bool
  | plain _ => pure true
  | sample g => fun w => ⟨g.holds (w.board s.global), w, []⟩
  | probe p => fun w =>
    let calls := w.shared.getD p.serial 0
    let passed := p.gate.isOpen s w calls
    ⟨passed, { w with shared := w.shared.insert p.serial (calls + 1) },
      [.guarded p.id v.name passed]⟩

def modifier : Decorator → Option (Scope → View → Float32 → Status → Passive Calls Status)
  | probe ⟨id, _, _, some swaps⟩ => some fun _ v dt before => do
    let after := (swaps.lookup before).getD before
    Traced.emit (.modified id v.name dt before after)
    pure after
  | _ => none

def finished (v : View) (result : Status) : Decorator → Passive Calls Unit
  | probe p => Traced.emit (.finished p.id v.name result v.active v.time)
  | _ => pure ()

def aborted (v : View) : Decorator → Passive Calls Unit
  | probe p => Traced.emit (.aborted p.id v.name v.active v.time)
  | _ => pure ()

end Decorator

namespace Service

def attached (s : Scope) (v : View) : Service → Active Calls Unit
  | probe id es _ _ => do
    Traced.emit (.attached id v.name v.active)
    Effect.runNoted s es
  | _ => pure ()

def serve (s : Scope) (v : View) (dt : Float32) : Service → Active Calls Unit
  | probe id _ es _ => do
    Traced.emit (.served id v.name dt v.time)
    Effect.runNoted s es
  | plain id => Traced.emit (.served id v.name dt v.time)
  | beat id es => do
    Traced.emit (.beat id v.name)
    Effect.runNoted s es
  | growl => fun r =>
    let (aggro, w) := Npc.growl s r.world
    ⟨(), { r with world := w }, aggro.toList.map (.sample ∘ .growled v.name)⟩

def detached (s : Scope) (v : View) : Service → Active Calls Unit
  | probe id _ _ es => do
    Traced.emit (.detached id v.name v.active v.time)
    Effect.runNoted s es
  | _ => pure ()

end Service
end TickTree.Scenario
