import TickTree.Text.Quoted
import TickTree.Trace
/-! Log lines: the reports of the engine, and the notices of a listener that logs. -/
namespace TickTree

inductive Level where
  | trace
  | debug
  | info
  | warn
  deriving DecidableEq

def Level.name : Level → String
  | trace => "TRACE"
  | debug => "DEBUG"
  | info => "INFO"
  | warn => "WARN"

def Level.isShown : Level → Bool
  | info | warn => true
  | trace | debug => false

inductive LogValue where
  /-- Text that is shown in quotes. -/
  | text (s : String)
  /-- Something that is shown as it prints itself. -/
  | shown (s : String)
  | number (x : Float32)
  deriving DecidableEq

structure LogLine where
  level : Level
  target : String
  message : String
  fields : List (String × LogValue)
  deriving DecidableEq

namespace LogLine

def valueText : LogValue → String
  | .text s => Text.quoted s
  | .shown s => s
  | .number x => Decimal.pointed.widened x

def render (l : LogLine) : String :=
  l.level.name ++ " " ++ l.target ++ ": " ++ l.message ++
    String.join (l.fields.map fun (f, v) => " " ++ f ++ "=" ++ valueText v)

def nodeLabel (id : NodeId) : String := "node#" ++ toString id

def ofReport : Report → LogLine
  | .guardedOut v => ⟨.trace, "behavior_tree::node", "guarded out",
      [("node", .shown v.name), ("id", .shown (nodeLabel v.id))]⟩
  | .completed root result => ⟨.debug, "behavior_tree::instance", "tree completed",
      [("root", .text root), ("result", .shown result.word)]⟩
  | .restarted root => ⟨.debug, "behavior_tree::instance", "tree restarted",
      [("root", .text root)]⟩
  | .aborted root => ⟨.debug, "behavior_tree::instance", "tree aborted", [("root", .text root)]⟩
  | .started root => ⟨.info, "behavior_tree::runner", "starting tree", [("root", .text root)]⟩
  | .stopped => ⟨.info, "behavior_tree::runner", "tree stopped", []⟩
  | .replaced root => ⟨.debug, "behavior_tree::runner", "root replaced",
      [("old_root", .text root)]⟩
  | .autoStartFailed e => ⟨.warn, "behavior_tree::runner", "auto start failed",
      [("error", .shown e.message)]⟩

def ofNotice : Notice → LogLine
  | .entered v elapsed => ⟨.trace, "behavior_tree::debug", "enter",
      [("node", .text v.name), ("id", .shown (nodeLabel v.id)), ("elapsed", .number elapsed)]⟩
  | .exited v result duration => ⟨.trace, "behavior_tree::debug", "exit",
      [("node", .text v.name), ("id", .shown (nodeLabel v.id)), ("result", .shown result.word),
        ("duration", .number duration)]⟩
  | .aborted v => ⟨.trace, "behavior_tree::debug", "aborted",
      [("node", .text v.name), ("id", .shown (nodeLabel v.id))]⟩
  | .completed t result => ⟨.debug, "behavior_tree::debug", "tree completed",
      [("root", .text t.root), ("result", .shown result.word), ("elapsed", .number t.elapsed)]⟩
  | .restarted t => ⟨.debug, "behavior_tree::debug", "tree restarted", [("root", .text t.root)]⟩

def ofEntry? {ν : Type} (ofNote : ν → Option LogLine) : Entry ν → Option LogLine
  | .report r => some (ofReport r)
  | .notice (some .logging) n => some (ofNotice n)
  | .note n => ofNote n
  | _ => none

end LogLine
end TickTree
