import TickTree.Npc.Tree
/-! The world around the character: an enemy comes and goes at random, and hurts while in sight. -/
namespace TickTree.Npc

/-- A chance of one in twenty, as the double nearest to it: `0x1999999999999a * 2⁻⁵⁷` out of one. -/
def flipThreshold : UInt64 := 0x1999999999999a * 128

/-- Health lost in each second of sight. -/
def damage : Float32 := 15

/-- What a step of the world leaves behind; `sighted` is the new sight if it changed. -/
structure WorldStep where
  result : Except Fault Unit
  board : Board
  rng : Rng
  sighted : Option Bool

/-- Health never falls below zero. A key bound to another kind stops the step where it stands. -/
def hurt (dt : Float32) (visible : Bool) (b : Board) : Except Fault Board :=
  if visible then b.set healthKey .f32 (atLeast 0 (health b - damage * dt)) else .ok b

def WorldStep.after (dt : Float32) (visible : Bool) (b : Board) (r : Rng) (sighted : Option Bool) :
    WorldStep :=
  match hurt dt visible b with
  | .ok b => ⟨.ok (), b, r, sighted⟩
  | .error e => ⟨.error e, b, r, sighted⟩

/-- One step. A number is drawn whether or not the sight changes. -/
def stepWorld (dt : Float32) (b : Board) (r : Rng) : WorldStep :=
  let (flips, r) := r.below flipThreshold
  let visible := isVisible b
  if flips then
    match b.set visibleKey .bool (!visible) with
    | .error e => ⟨.error e, b, r, none⟩
    | .ok b => WorldStep.after dt (!visible) b r (some (!visible))
  else WorldStep.after dt visible b r none

end TickTree.Npc
