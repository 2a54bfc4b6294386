import TickTree.Runner
import TickTree.Text.Quoted
/-! Descriptions of boards, contexts, nodes, trees and runners for people who look for mistakes. -/
namespace TickTree

def describeFlag (b : Bool) : String := toString b

def describeOption (s : Option String) : String :=
  match s with
  | none => "None"
  | some s => "Some(" ++ s ++ ")"

def Board.describe (b : Board) : String :=
  Text.record "Blackboard"
    [("keys", Text.listed (b.keys.map fun k => "BlackboardKey(" ++ toString k ++ ")"))] false

def Context.describe {σ : Type} (w : World σ) (c : Context) : String :=
  Text.record "BehaviorTreeContext"
    [("global_blackboard", (w.board c.scope.global).describe),
      ("tree_blackboard", (w.board c.scope.tree).describe),
      ("instance_blackboard", (w.board c.scope.own).describe),
      ("has_debugger", describeFlag c.listener.isSome),
      ("cancelled", describeFlag (w.isCancelled c.scope.signal)),
      ("delta_time", Decimal.pointed.single c.scope.delta),
      ("elapsed_time", Decimal.pointed.single c.scope.elapsed)] true

variable {H : Host}

namespace Node

mutual
def describe : Node H → String
  | mk f cs => Text.record "TreeNode"
    [("id", "NodeId(" ++ toString f.id ++ ")"),
      ("name", Text.quoted f.name),
      ("active", describeFlag f.active),
      ("decorators", Text.listed (f.decorators.map fun d => Text.quoted d.name)),
      ("services", toString f.services.length),
      ("children", Text.listed (describeAll cs))] false

def describeAll : List (Node H) → List String
  | [] => []
  | c :: cs => describe c :: describeAll cs
end

end Node

def Instance.describe (w : World H.State) (i : Instance H) : String :=
  Text.record "BehaviorTreeInstance"
    [("root", i.root.describe), ("context", i.context.describe w),
      ("active", describeFlag i.active)] false

def RunnerConfig.describe (c : RunnerConfig) : String :=
  Text.record "RunnerConfig"
    [("auto_start", describeFlag c.autoStart),
      ("restart_on_complete", describeFlag c.restartOnComplete)] false

def Runner.describe (w : World H.State) (r : Runner H) : String :=
  Text.record "BehaviorTreeRunner"
    [("config", r.config.describe),
      ("root", describeOption (r.root.map Node.describe)),
      ("global_blackboard", describeOption (r.global.map fun b => (w.board b).describe)),
      ("instance", describeOption (r.running.map fun i => i.describe w))] false

end TickTree
