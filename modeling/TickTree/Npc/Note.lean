import TickTree.Log
/-! What the sample program notes of its own accord, and how each note reads in the log. -/
namespace TickTree.Npc

inductive Note where
  | growled (node : String) (aggro : UInt32)
  | sighted (visible : Bool)
  | opened
  | ticking (interval : String)
  | seeded (seed : Option UInt64)
  | completed (result : Status) (tick : Nat)
  | reached (ticks : Nat)
  | closed (health : Float32)
  deriving DecidableEq

def Note.plain (message : String) (fields : List (String × LogValue)) : LogLine :=
  ⟨.info, "bt_demo", message, fields⟩

def Note.line : Note → LogLine
  | growled node aggro => ⟨.info, "bt_demo::tree", "growl",
      [("node", .text node), ("aggro", .shown (toString aggro))]⟩
  | sighted visible => plain "enemy visibility changed" [("visible", .shown (toString visible))]
  | opened => plain "Starting behavior tree demo" []
  | ticking interval => plain ("Tick interval: " ++ interval) []
  | seeded none => plain "Seed: None" []
  | seeded (some seed) => plain ("Seed: Some(" ++ toString seed ++ ")") []
  | completed result tick => plain "tree completed"
      [("result", .shown result.word), ("tick", .shown (toString tick))]
  | reached ticks => plain ("Reached " ++ toString ticks ++ " ticks") []
  | closed health => plain "Demo finished" [("health", .number health)]

end TickTree.Npc
