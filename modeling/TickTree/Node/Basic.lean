import TickTree.Decorator
import TickTree.Policy
import TickTree.Repeater
import TickTree.Service
import TickTree.Wait
/-! Nodes of a tree. A node is its frame and its children in order. -/
namespace TickTree

/-- What a node does when it is ticked, with what it keeps between ticks. -/
inductive Behavior (H : Host) where
  /-- Tries children in order until one does not fail. -/
  | selector (cursor : Nat)
  /-- A selector over an order drawn for each activation. -/
  | randomSelector (cursor : Nat) (order : List Nat)
  /-- Runs all children in every tick and counts their votes. -/
  | parallel (success failure : Policy)
  /-- Runs children in order until one does not succeed. -/
  | sequence (cursor : Nat)
  /-- Passes on what its first child answers. -/
  | relay
  | repeater (r : Repeater)
  | action (a : H.Action)
  | condition (c : H.Condition)
  | wait (w : Wait)

/-- Everything of a node but its children. -/
structure Frame (H : Host) where
  id : NodeId
  name : String
  decorators : List (Decorator H)
  services : List (Attachment H)
  behavior : Behavior H
  active : Bool
  time : Float32

inductive Node (H : Host) where
  | mk (frame : Frame H) (children : List (Node H))

variable {H : Host}

/-- The position of the next child to run; behaviors without a cursor stay at zero. -/
def Behavior.cursor : Behavior H → Nat
  | selector cursor | randomSelector cursor _ | sequence cursor => cursor
  | _ => 0

namespace Frame

def idle (id : NodeId) (name : String) (behavior : Behavior H) : Frame H :=
  ⟨id, name, [], [], behavior, false, 0⟩

def view (f : Frame H) : View := ⟨f.id, f.name, f.active, f.time⟩

end Frame

namespace Node

def frame : Node H → Frame H
  | mk f _ => f

def children : Node H → List (Node H)
  | mk _ cs => cs

@[simp] theorem frame_mk (f : Frame H) (cs : List (Node H)) : (mk f cs).frame = f := rfl
@[simp] theorem children_mk (f : Frame H) (cs : List (Node H)) : (mk f cs).children = cs := rfl

def id (n : Node H) : NodeId := n.frame.id
def name (n : Node H) : String := n.frame.name
def isActive (n : Node H) : Bool := n.frame.active
def view (n : Node H) : View := n.frame.view

def mapFrame (f : Frame H → Frame H) : Node H → Node H
  | mk frame cs => mk (f frame) cs

def rename (name : String) (n : Node H) : Node H := n.mapFrame ({ · with name := name })

def withChildren (children : List (Node H)) : Node H → Node H
  | mk frame cs => mk frame (cs ++ children)

def withDecorator (d : Decorator H) (n : Node H) : Node H :=
  n.mapFrame fun f => { f with decorators := f.decorators ++ [d] }

def withService (v : Service H) (n : Node H) : Node H :=
  n.mapFrame fun f => { f with services := f.services ++ [.idle v] }

/-- The structure of an active node is frozen. -/
def whenIdle (edit : Node H → Node H) (n : Node H) : Except Fault (Node H) :=
  if n.isActive then .error .activeNode else .ok (edit n)

def addChild (n child : Node H) : Except Fault (Node H) :=
  n.whenIdle (·.withChildren [child])

def addDecorator (d : Decorator H) (n : Node H) : Except Fault (Node H) :=
  n.whenIdle (·.withDecorator d)

def addService (v : Service H) (n : Node H) : Except Fault (Node H) :=
  n.whenIdle (·.withService v)

mutual
/-- All frames in preorder, each with its depth below `depth`. -/
def preorder (depth : Nat) : Node H → List (Nat × Frame H)
  | mk f cs => (depth, f) :: preorderAll (depth + 1) cs

def preorderAll (depth : Nat) : List (Node H) → List (Nat × Frame H)
  | [] => []
  | c :: cs => preorder depth c ++ preorderAll depth cs
end

def frames (n : Node H) : List (Frame H) := (n.preorder 0).map (·.2)

def activity (n : Node H) : List Bool := n.frames.map (·.active)

def at? : List Nat → Node H → Option (Node H)
  | [], n => some n
  | i :: path, mk _ cs => (cs[i]?).bind (at? path)

def modifyAt? (f : Node H → Node H) : List Nat → Node H → Option (Node H)
  | [], n => some (f n)
  | i :: path, mk frame cs => do
    let c ← cs[i]?
    let c ← modifyAt? f path c
    pure (mk frame (cs.set i c))

end Node
end TickTree
