import TickTree.Build
/-! A sample tree for a non-player character: flee when badly hurt, fight what is in sight, and
wander about otherwise. Its callbacks read and write boards only. -/
namespace TickTree.Npc

/-- On the global board: whether an enemy is in sight, a `bool`. -/
def visibleKey : UInt32 := 1
/-- On the global board: the health left, an `f32`. -/
def healthKey : UInt32 := 2
/-- On the own board: growls so far, a `u32`. -/
def aggroKey : UInt32 := 3

def maxHealth : Float32 := 100
def lowHealth : Float32 := 30
def safeHealth : Float32 := 60
/-- Health won back in each second of flight. -/
def regeneration : Float32 := 20

def isVisible (b : Board) : Bool := b.getD visibleKey .bool false

def health (b : Board) : Float32 := b.getD healthKey .f32 maxHealth

inductive Guard where
  | badlyHurt
  | enemyVisible
  deriving DecidableEq

namespace Guard

def name : Guard → String
  | badlyHurt => "BadlyHurt"
  | enemyVisible => "EnemyVisible"

def holds (b : Board) : Guard → Bool
  | badlyHurt => health b < lowHealth
  | enemyVisible => isVisible b

end Guard

/-- Flight wins health back until it is safe; a cancelled flight fails. -/
def flee {σ : Type} (s : Scope) (dt : Float32) (w : World σ) : Except Fault Status × World σ :=
  if w.isCancelled s.signal then (.ok .failure, w)
  else
    let b := w.board s.global
    let h := atMost maxHealth (health b + regeneration * dt)
    match b.set healthKey .f32 h with
    | .error e => (.error e, w)
    | .ok b => (.ok (if safeHealth ≤ h then .success else .running), w.putBoard s.global b)

/-- Counts a growl, unless its key is bound to another kind. The count wraps around. -/
def growl {σ : Type} (s : Scope) (w : World σ) : Option UInt32 × World σ :=
  let b := w.board s.own
  let aggro := b.getD aggroKey .u32 0 + 1
  match b.set aggroKey .u32 aggro with
  | .error _ => (none, w)
  | .ok b => (some aggro, w.putBoard s.own b)

structure Parts (H : Host) where
  flee : H.Action
  enemyInSight : H.Condition
  guard : Guard → H.Decorator
  growl : H.Service

variable {H : Host} (p : Parts H)

def fleeing : Build (Node H) := do
  let n ← Build.action p.flee
  pure ((n.rename "Flee").withDecorator (.custom (p.guard .badlyHurt)))

/-- Three swings while the enemy stays in sight, and a growl every half second. -/
def combat : Build (Node H) := do
  let monitor ← Build.condition p.enemyInSight
  let swing ← Build.wait 0.3 0
  let swings ← Build.repeater 3 false (swing.rename "Swing")
  let n ← Build.parallel .all .any [monitor.rename "EnemyInSight", swings]
  let cooldown ← Build.cooldown 2
  let timeout ← Build.timeout 3
  pure (n.rename "Combat"
    |>.withDecorator (.custom (p.guard .enemyVisible))
    |>.withDecorator cooldown
    |>.withDecorator timeout
    |>.withService ⟨0.5, p.growl⟩)

/-- Rests only while no enemy is in sight. -/
def wandering : Build (Node H) := do
  let rest ← Build.condition p.enemyInSight
  let patrol ← Build.wait 1 0.5
  let lookAround ← Build.wait 0.5 0.25
  let n ← Build.randomSelector [patrol.rename "Patrol", lookAround.rename "LookAround",
    (rest.rename "Rest").withDecorator .inverter]
  pure (n.rename "Wander")

def tree : Build (Node H) := do
  let a ← fleeing p
  let b ← combat p
  let c ← wandering p
  let n ← Build.selector [a, b, c]
  pure (n.rename "Npc")

end TickTree.Npc
