import TickTree.Node.Basic
/-! Building trees. Every node built takes the next node id, children before their parent, and every
decorator that remembers takes the next decorator id. Ids taken before a fault stay taken. -/
namespace TickTree

structure Supply where
  node : NodeId
  decorator : DecoratorId
  deriving DecidableEq

abbrev Build := ExceptT Fault (StateM Supply)

namespace Build
variable {H : Host}

def checked {α : Type} (x : Except Fault α) : Build α := ExceptT.mk (pure x)

def node (name : String) (behavior : Behavior H) (children : List (Node H)) : Build (Node H) := do
  let ids ← get
  set { ids with node := ids.node + 1 }
  pure (.mk (.idle ids.node name behavior) children)

def selector (children : List (Node H)) : Build (Node H) :=
  node "Selector" (.selector 0) children

def randomSelector (children : List (Node H)) : Build (Node H) :=
  node "RandomSelector" (.randomSelector 0 []) children

def parallel (success failure : Policy) (children : List (Node H)) : Build (Node H) :=
  node "Parallel" (.parallel success failure) children

def sequence (children : List (Node H)) : Build (Node H) := node "Seq" (.sequence 0) children

def relay (children : List (Node H)) : Build (Node H) := node "Forward" .relay children

/-- The count is checked before the node takes its id. -/
def repeater (count : Int32) (lenient : Bool) (child : Node H) : Build (Node H) := do
  let r ← checked (Repeater.make count lenient)
  node r.title (.repeater r) [child]

def repeatForever (lenient : Bool) (child : Node H) : Build (Node H) :=
  let r := Repeater.forever lenient
  node r.title (.repeater r) [child]

def action (a : H.Action) : Build (Node H) := node "Action" (.action a) []

def condition (c : H.Condition) : Build (Node H) := node "Condition" (.condition c) []

def wait (duration variance : Float32) : Build (Node H) := do
  let w ← checked (Wait.make duration variance)
  node "Wait" (.wait w) []

def decoratorId : Build DecoratorId := do
  let ids ← get
  set { ids with decorator := ids.decorator + 1 }
  pure ids.decorator

def cooldown (seconds : Float32) : Build (Decorator H) := do
  let c ← checked (Cooldown.make (← decoratorId) seconds)
  pure (.cooldown c)

def timeout (seconds : Float32) : Build (Decorator H) := do
  let o ← checked (Timeout.make (← decoratorId) seconds)
  pure (.timeout o)

end Build
end TickTree
