import TickTree.Npc.Note
import TickTree.Npc.Tree
/-! The host of the sample tree: its callbacks keep nothing but what is on the boards. -/
namespace TickTree.Npc

def host : Host where
  State := Unit
  Note := Note
  Action := Unit
  Condition := Unit
  Decorator := Guard
  Service := Unit
  start a _ := pure a
  tick a s dt := fun r =>
    let (answer, w) := flee s dt r.world
    ⟨(answer, a), { r with world := w }, []⟩
  finish a _ _ := pure a
  check c s := fun w => ⟨(isVisible (w.board s.global), c), w, []⟩
  name := Guard.name
  allows g s _ := fun w => ⟨g.holds (w.board s.global), w, []⟩
  modifier _ := none
  finished _ _ _ _ := pure ()
  aborted _ _ _ := pure ()
  attached _ _ _ := pure ()
  serve _ s v _ := fun r =>
    let (aggro, w) := growl s r.world
    ⟨(), { r with world := w }, aggro.toList.map (.growled v.name)⟩
  detached _ _ _ := pure ()

def parts : Parts host := ⟨(), (), id, ()⟩

end TickTree.Npc
