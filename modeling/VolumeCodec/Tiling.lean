import VolumeCodec.Fault

namespace VolumeCodec

structure Tile where
  start : Extents
  extent : Extents
  deriving DecidableEq, Repr

/-- The number of spans that an axis is cut into. What is left behind the whole ones gets a span of
its own if it is longer than half of one. -/
def spanCount (length nominal : Nat) : Nat :=
  max (if nominal / 2 < length % nominal then length / nominal + 1 else length / nominal) 1

/-- The spans of an axis, each with its start and its length. The last one takes up the rest. -/
def spans (length nominal : Nat) : List (Nat × Nat) :=
  let count := spanCount length nominal
  (List.range count).map fun i =>
    (i * nominal, if i + 1 = count then length - i * nominal else nominal)

def checkTiling (volume nominal : Extents) : Except Fault Unit := do
  volume.validate
  if nominal.isFlat then
    throw (.invalidArgument (.tileExtents nominal))

def tileCount (volume nominal : Extents) : Except Fault Nat := do
  checkTiling volume nominal
  pure (volume.zipWith spanCount nominal).volume

def tiles (volume nominal : Extents) : Except Fault (List Tile) := do
  checkTiling volume nominal
  let s := volume.zipWith spans nominal
  pure (s.z.flatMap fun z => s.y.flatMap fun y => s.x.map fun x =>
    ⟨⟨x.1, y.1, z.1⟩, ⟨x.2, y.2, z.2⟩⟩)

namespace Tile

def rowStarts (t : Tile) (volume : Extents) : List Nat :=
  (List.range' t.start.z t.extent.z).flatMap fun z =>
    (List.range' t.start.y t.extent.y).map fun y => volume.index ⟨t.start.x, y, z⟩

/-- The elements of a tile, row after row, unless a row leaves the data. -/
def gather? {α : Type} (t : Tile) (volume : Extents) (data : Array α) : Option (Array α) :=
  (t.rowStarts volume).foldlM (fun out start =>
    if start + t.extent.x ≤ data.size then
      some (out ++ data.extract start (start + t.extent.x))
    else none) #[]

def rowsOf {α : Type} (length : Nat) (values : Array α) : List (Array α) :=
  (List.range (values.size / length)).map fun k =>
    values.extract (k * length) (k * length + length)

def overwrite {α : Type} (data : Array α) (start : Nat) (row : Array α) : Array α :=
  row.toList.zipIdx.foldl (fun data (v, i) => data.setIfInBounds (start + i) v) data

/-- Writes the whole rows of some values over the rows of a tile, as long as there are both. Rows
need a length, and none may leave the data. -/
def scatter? {α : Type} (t : Tile) (volume : Extents) (data values : Array α) :
    Option (Array α) :=
  if t.extent.x = 0 then none
  else
    ((t.rowStarts volume).zip (rowsOf t.extent.x values)).foldlM (fun data (start, row) =>
      if start + t.extent.x ≤ data.size then some (overwrite data start row) else none) data

def share (t : Tile) (bits total : Nat) : Nat :=
  bits * t.extent.volume / total

end Tile

end VolumeCodec
