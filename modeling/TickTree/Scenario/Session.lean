import TickTree.Describe
import TickTree.Scenario.Command
/-! The state of a scenario: everything built so far, by name. -/
namespace TickTree.Scenario

abbrev Names (α : Type) := Std.TreeMap String α

structure Session where
  realm : Realm host
  supply : Supply
  boards : Names BoardId
  signals : Names SignalId
  contexts : Names Context
  toolbox : Toolbox
  nodes : Names (Node host)
  trees : Names (Instance host)
  runners : Names (Runner host)

def Session.fresh : Session where
  realm := ⟨⟨#[], #[], (∅ : Calls)⟩, .empty⟩
  supply := ⟨1, 0⟩
  boards := ∅
  signals := ∅
  contexts := ∅
  toolbox := ⟨∅, ∅⟩
  nodes := ∅
  trees := ∅
  runners := ∅

namespace Session

def tree? (s : Session) (name : String) : Option (Instance host) :=
  s.trees[name]? <|> s.runners[name]?.bind (·.running)

def putTree (name : String) (i : Instance host) (s : Session) : Session :=
  if s.trees.contains name then { s with trees := s.trees.insert name i }
  else { s with runners := s.runners.modify name fun r => { r with running := some i } }

def context? (s : Session) (name : String) : Option Context :=
  s.contexts[name]? <|> (s.tree? name).map (·.context)

def putContext (name : String) (c : Context) (s : Session) : Session :=
  if s.contexts.contains name then { s with contexts := s.contexts.insert name c }
  else
    match s.tree? name with
    | none => s
    | some i => s.putTree name { i with context := c }

def base? (s : Session) (name : String) : Option (Node host) :=
  s.nodes[name]? <|> (s.tree? name).map (·.root)

def putBase (name : String) (n : Node host) (s : Session) : Session :=
  if s.nodes.contains name then { s with nodes := s.nodes.insert name n }
  else
    match s.tree? name with
    | none => s
    | some i => s.putTree name { i with root := n }

def node? (s : Session) (ref : NodeRef) : Option (Node host) :=
  (s.base? ref.base).bind (·.at? ref.path)

def putNode (ref : NodeRef) (n : Node host) (s : Session) : Session :=
  match (s.base? ref.base).bind (·.modifyAt? (fun _ => n) ref.path) with
  | none => s
  | some base => s.putBase ref.base base

def signal? (s : Session) (name : String) : Option SignalId :=
  s.signals[name]? <|> (s.context? name).map (·.scope.signal)

def board? (s : Session) : BoardRef → Option BoardId
  | .named id => s.boards[id]?
  | .placed owner place => (s.context? owner).map fun c => place.board c.scope

end Session

abbrev Scene := ExceptT Refusal (Traced Session (Entry Note))

namespace Scene
variable {α : Type}

def fetch (name : String) (find : Session → Option α) : Scene α := do
  match find (← get) with
  | none => throw (.unknown name)
  | some a => pure a

def turn (x : Turn host α) : Scene α := fun s =>
  let o := x s.realm
  ⟨.ok o.value, { s with realm := o.state }, o.trace⟩

def world (x : World Calls → α × World Calls) : Scene α := fun s =>
  let (a, w) := x s.realm.world
  ⟨.ok a, { s with realm := { s.realm with world := w } }, []⟩

def draft (x : Draft α) : Scene α := fun s =>
  let (a, supply) := x s.supply
  ⟨a, { s with supply := supply }, []⟩

def ofExcept (x : Except Fault α) : Scene α := ExceptT.mk (pure (x.mapError .fault))

def answered (x : Except Stop α) : Scene α :=
  match x with
  | .ok a => pure a
  | .error (.failed e) => throw (.fault e)
  | .error (.panicked p) => throw (.panicked p)

def context (name : String) : Scene Context := fetch name (·.context? name)

def node (ref : NodeRef) : Scene (Node host) := fetch ref.base (·.node? ref)

def tree (name : String) : Scene (Instance host) := fetch name (·.tree? name)

def runner (name : String) : Scene (Runner host) := fetch name (·.runners[name]?)

def board (ref : BoardRef) : Scene BoardId :=
  fetch (match ref with | .named id => id | .placed owner _ => owner) (·.board? ref)

def decorator (name : String) : Scene (TickTree.Decorator host) :=
  fetch name (·.toolbox.decorators[name]?)

def service (name : String) : Scene (TickTree.Service host) :=
  fetch name (·.toolbox.services[name]?)

def within (name : String) (x : Setting → Exec host α) : Scene α := do
  let c ← context name
  let (a, c) ← turn (Turn.within c x)
  modify (·.putContext name c)
  pure a

def onTree (name : String) (x : Instance host → Turn host (α × Instance host)) : Scene α := do
  let i ← tree name
  let (a, i) ← turn (x i)
  modify (·.putTree name i)
  pure a

def onRunner (name : String) (x : Runner host → Turn host (α × Runner host)) : Scene α := do
  let r ← runner name
  let (a, r) ← turn (x r)
  modify fun s => { s with runners := s.runners.insert name r }
  pure a

def takeNode (name : String) : Scene (Node host) := do
  let n ← fetch name (·.nodes[name]?)
  modify fun s => { s with nodes := s.nodes.erase name }
  pure n

def takeContext (name : String) : Scene Context := do
  let c ← fetch name (·.contexts[name]?)
  modify fun s => { s with contexts := s.contexts.erase name }
  pure c

def takeTree (name : String) : Scene (Instance host) := do
  let i ← fetch name (·.trees[name]?)
  modify fun s => { s with trees := s.trees.erase name }
  pure i

end Scene
end TickTree.Scenario
