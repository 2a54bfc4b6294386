import TickTree.Node.Basic
import TickTree.Random.Shuffle
/-! One tick of each behavior. A behavior runs children through branches, each of which holds a
child and how to execute it, so that it is defined without recursion into the tree. -/
namespace TickTree

structure Branch (H : Host) where
  node : Node H
  run : Exec H (Answer × Node H)

variable {H : Host}

namespace Branch

def done (b : Branch H) (n : Node H) : Branch H := { b with node := n }

/-- Runs the branches at the positions of `order` one after the other while they answer `onward`,
which is also the answer when none is left. The cursor counts the positions passed. -/
def walk (onward : Status) (cursor : Nat) :
    List Nat → List (Branch H) → Exec H (Answer × Nat × List (Branch H))
  | [], bs => pure (.ok onward, cursor, bs)
  | i :: order, bs =>
    match bs[i]? with
    | none => pure (.error (.panicked (.childOutOfRange bs.length i)), cursor, bs)
    | some b => do
      let (answer, n) ← b.run
      let bs := bs.set i (b.done n)
      if answer = .ok onward then walk onward (cursor + 1) order bs
      else pure (answer, cursor, bs)

/-- Runs all branches in order and collects their results, up to the first that gives none. -/
def runAll : List (Branch H) → Exec H (Except Stop (List Status) × List (Branch H))
  | [] => pure (.ok [], [])
  | b :: bs => do
    let (answer, n) ← b.run
    match answer with
    | .error stop => pure (.error stop, b.done n :: bs)
    | .ok result => do
      let (results, bs) ← runAll bs
      pure (results.map (result :: ·), b.done n :: bs)

def runFirst : List (Branch H) → Exec H (Option Answer × List (Branch H))
  | [] => pure (none, [])
  | b :: bs => do
    let (answer, n) ← b.run
    pure (some answer, b.done n :: bs)

end Branch

namespace Behavior

def shuffle (v : View) (children : Nat) : Exec H (List Nat) := do
  let stage ← Traced.get
  let (draws, rng) := stage.rng.draws (children - 1)
  Traced.set { stage with rng := rng }
  Exec.hooks v (draws.zipIdx.map fun (j, k) => .drew (.upTo (children - 1 - k) j))
  pure (arrange children draws)

def start (s : Setting) (v : View) (children : Nat) :
    Behavior H → Exec H (Except Panic Unit × Behavior H)
  | selector _ => pure (.ok (), selector 0)
  | randomSelector _ _ => do
    let order ← shuffle v children
    pure (.ok (), randomSelector 0 order)
  | parallel p q => pure (.ok (), parallel p q)
  | sequence _ => pure (.ok (), sequence 0)
  | relay => pure (.ok (), relay)
  | repeater r => pure (.ok (), repeater r.start)
  | action a => do
    let a ← Exec.reach (H.start a s.scope)
    pure (.ok (), action a)
  | condition c => pure (.ok (), condition c)
  | wait w => do
    let stage ← Traced.get
    let (started, w, rng) := w.start stage.rng
    Traced.set { stage with rng := rng }
    match started with
    | .error p => pure (.error p, wait w)
    | .ok () => do
      if w.draws then Exec.hook v (.drew (.uniform w.variance))
      pure (.ok (), wait w)

def tick (s : Setting) (v : View) (dt : Float32) (bs : List (Branch H)) :
    Behavior H → Exec H (Answer × Behavior H × List (Branch H))
  | selector cursor => do
    let (answer, cursor, bs) ←
      Branch.walk .failure cursor ((List.range bs.length).drop cursor) bs
    pure (answer, selector cursor, bs)
  | randomSelector cursor order => do
    let (answer, cursor, bs) ← Branch.walk .failure cursor (order.drop cursor) bs
    pure (answer, randomSelector cursor order, bs)
  | parallel p q => do
    let (results, bs) ← Branch.runAll bs
    pure (results.map (vote p q), parallel p q, bs)
  | sequence cursor => do
    Exec.hook v (.resumed cursor)
    let (answer, cursor, bs) ←
      Branch.walk .success cursor ((List.range bs.length).drop cursor) bs
    pure (answer, sequence cursor, bs)
  | relay => do
    let (answer, bs) ← Branch.runFirst bs
    pure (answer.getD (.ok .running), relay, bs)
  | repeater r => do
    let (answer, bs) ← Branch.runFirst bs
    match answer with
    | none => pure (.ok .failure, repeater r, bs)
    | some (.error stop) => pure (.error stop, repeater r, bs)
    | some (.ok child) =>
      let (status, r) := r.step child
      pure (.ok status, repeater r, bs)
  | action a => do
    let (answer, a) ← Exec.reach (H.tick a s.scope dt)
    pure (answer.mapError .failed, action a, bs)
  | condition c => do
    let (holds, c) ← Exec.look (H.check c s.scope)
    pure (.ok (.ofBool holds), condition c, bs)
  | wait w =>
    let (status, w) := w.tick dt
    pure (.ok status, wait w, bs)

def finish (s : Setting) (result : Status) : Behavior H → Exec H (Behavior H)
  | selector _ => pure (selector 0)
  | randomSelector _ _ => pure (randomSelector 0 [])
  | sequence _ => pure (sequence 0)
  | action a => do
    let a ← Exec.reach (H.finish a s.scope result)
    pure (action a)
  | b => pure b

end Behavior
end TickTree
