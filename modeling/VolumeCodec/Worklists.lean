import VolumeCodec.Dialogue
import VolumeCodec.IndexSet
import VolumeCodec.Region

namespace VolumeCodec

/-- What can be significant: an element that reaches the threshold, or a region that holds one. -/
inductive Subject
  | element (index : Nat)
  | region (r : Region)
  deriving DecidableEq, Repr

def Subject.any (subject : Subject) (dims : Extents) (p : Nat → Bool) : Bool :=
  match subject with
  | element i => p i
  | region r => r.any dims p

/-- The decisions that the two sides of the coder settle in one bitplane. -/
inductive Query
  /-- Is the subject significant? If that is implied by earlier decisions, it is. -/
  | significance (subject : Subject) (implied : Bool)
  /-- Is the element, which has just been found significant, non-negative? -/
  | sign (index : Nat)
  /-- Does the rest of an element that was significant in an earlier plane reach the threshold? -/
  | refinement (index : Nat)
  deriving DecidableEq, Repr

/-- Where the elements of an array wait: single ones not yet significant, boxes without a
significant element by their level, and the significant elements in the order they were found. -/
structure Worklists where
  insignificant : IndexSet
  boxes : Array (Array Box)
  significant : Array Nat

/-- The worklists, and the shell of elements that belong to none of them yet. -/
structure Progress where
  lists : Worklists
  rest : Shell

namespace Worklists

def boxesAt (w : Worklists) (level : Nat) : Array Box :=
  w.boxes.getD level #[]

def setBoxesAt (w : Worklists) (level : Nat) (boxes : Array Box) : Worklists :=
  let table := w.boxes ++ Array.replicate (level + 1 - w.boxes.size) #[]
  { w with boxes := table.setIfInBounds level boxes }

def addBox (w : Worklists) (b : Box) : Worklists :=
  let table := w.boxes ++ Array.replicate (b.level + 1 - w.boxes.size) #[]
  { w with boxes := table.modify b.level (·.push b) }

end Worklists

/-- Before the first plane the approximation box waits alone, and the shell is what surrounds it. -/
def Progress.initial (dims : Extents) : Progress :=
  let (root, rest) := partition dims
  let start : Worklists :=
    ⟨IndexSet.empty dims.volume, Array.replicate (root.level + 1) #[], #[]⟩
  if root.isPixel then
    ⟨{ start with insignificant := start.insignificant.insert (root.index dims) }, rest⟩
  else ⟨start.addBox root, rest⟩

end VolumeCodec
