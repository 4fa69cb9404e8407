namespace VolumeCodec

/-- One value for each of the three axes; along a row `x` varies fastest. -/
structure Axes (α : Type) where
  x : α
  y : α
  z : α
  deriving DecidableEq, Repr

/-- Lengths or coordinates along the three axes. An unused axis has length one. -/
abbrev Extents := Axes Nat

namespace Axes

def map {α β : Type} (f : α → β) (a : Axes α) : Axes β :=
  ⟨f a.x, f a.y, f a.z⟩

def zipWith {α β γ : Type} (f : α → β → γ) (a : Axes α) (b : Axes β) : Axes γ :=
  ⟨f a.x b.x, f a.y b.y, f a.z b.z⟩

def toList {α : Type} (a : Axes α) : List α :=
  [a.x, a.y, a.z]

def row (length : Nat) : Extents :=
  ⟨length, 1, 1⟩

def volume (e : Extents) : Nat :=
  e.x * e.y * e.z

def isFlat (e : Extents) : Bool :=
  e.x == 0 || e.y == 0 || e.z == 0

/-- The place of point `p` when an array of extents `e` is laid out row after row. -/
def index (e p : Extents) : Nat :=
  (p.z * e.y + p.y) * e.x + p.x

end Axes

end VolumeCodec
