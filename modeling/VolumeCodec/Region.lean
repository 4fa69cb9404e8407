import VolumeCodec.Axes
import VolumeCodec.Word

namespace VolumeCodec

def levelLimit : Nat := 6

def levelsOf (length : Nat) : Nat :=
  if length < 8 then 0 else min (length.log2 - 2) levelLimit

/-- The lengths of the approximation band and of the coarsest detail band after so many halvings.
The approximation keeps the odd element. -/
def bandLengths (length : Nat) : Nat → Nat × Nat
  | 0 => (length, 0)
  | n + 1 =>
    let (approximation, _) := bandLengths length n
    (approximation - approximation / 2, approximation / 2)

structure Box where
  origin : Extents
  extent : Extents
  level : Nat
  deriving DecidableEq, Repr

/-- The part of an array outside the corner box `inner` and inside `outer`. At level zero nothing
is left of it. -/
structure Shell where
  inner : Extents
  outer : Extents
  level : Nat
  deriving DecidableEq, Repr

inductive Region
  | box (b : Box)
  | shell (s : Shell)
  deriving DecidableEq, Repr

/-- The eight corners of a box, the x half changing fastest; `true` is the far half. -/
def corners : List (Axes Bool) :=
  [⟨false, false, false⟩, ⟨true, false, false⟩, ⟨false, true, false⟩, ⟨true, true, false⟩,
    ⟨false, false, true⟩, ⟨true, false, true⟩, ⟨false, true, true⟩, ⟨true, true, true⟩]

namespace Box

def isEmpty (b : Box) : Bool :=
  b.extent.isFlat

def isPixel (b : Box) : Bool :=
  b.extent == ⟨1, 1, 1⟩

def index (b : Box) (dims : Extents) : Nat :=
  dims.index b.origin

/-- The part of a box in one corner. The near half of an axis takes the odd element. -/
def part (b : Box) (corner : Axes Bool) : Box :=
  let half := b.extent.map fun n => (n + 1) / 2
  { origin := (corner.zipWith (fun far h => if far then h else 0) half).zipWith (· + ·) b.origin
    extent := corner.zipWith (fun far nh => if far then nh.1 - nh.2 else nh.2)
      (b.extent.zipWith Prod.mk half)
    level := b.level + 1 }

def parts (b : Box) : List Box :=
  (corners.map b.part).filter fun p => !p.isEmpty

def rows (b : Box) (dims : Extents) : List (Nat × Nat) :=
  (List.range' b.origin.z b.extent.z).flatMap fun z =>
    (List.range' b.origin.y b.extent.y).map fun y => (dims.index ⟨b.origin.x, y, z⟩, b.extent.x)

end Box

def detailBand (dims : Extents) (level : Nat) (corner : Axes Bool) : Box :=
  let bands := dims.map fun n => bandLengths n level
  { origin := corner.zipWith (fun far b => if far then b.1 else 0) bands
    extent := corner.zipWith (fun far b => if far then b.2 else b.1) bands
    level := level }

/-- The detail bands of one level without the empty ones, the farthest corner first. -/
def detailBands (dims : Extents) (level : Nat) : List Box :=
  ((corners.drop 1).reverse.map (detailBand dims level)).filter fun b => !b.isEmpty

def coveredBy (dims : Extents) (level : Nat) : Extents :=
  dims.map fun n => let (approximation, detail) := bandLengths n level; approximation + detail

namespace Shell

def isEmpty (s : Shell) : Bool :=
  s.level == 0

def peel (s : Shell) (dims : Extents) : List Box × Shell :=
  if s.isEmpty then ([], s)
  else
    (detailBands dims s.level, { s with inner := coveredBy dims s.level, level := s.level - 1 })

/-- The rows of a shell; next to the corner box they start behind it. -/
def rows (s : Shell) (dims : Extents) : List (Nat × Nat) :=
  (List.range s.outer.z).flatMap fun z =>
    (List.range s.outer.y).map fun y =>
      let start := if z < s.inner.z ∧ y < s.inner.y then s.inner.x else 0
      (dims.index ⟨start, y, z⟩, s.outer.x - start)

end Shell

namespace Region

def isEmpty : Region → Bool
  | box b => b.isEmpty
  | shell s => s.isEmpty

def rows : Region → Extents → List (Nat × Nat)
  | box b => b.rows
  | shell s => s.rows

def indices (r : Region) (dims : Extents) : List Nat :=
  (r.rows dims).flatMap fun (start, length) => List.range' start length

/-- Does `p` hold at some element? The elements are tried in the order of `indices`, and none after
the first that holds. -/
def any (r : Region) (dims : Extents) (p : Nat → Bool) : Bool :=
  (r.rows dims).any fun (start, length) => anyFrom p start length

def tried (r : Region) (dims : Extents) (p : Nat → Bool) : List Nat :=
  let all := r.indices dims
  all.take ((all.takeWhile fun i => !p i).length + 1)

/-- The parts that a region splits into. A shell is split like the box whose origin is the inner
corner of the shell and whose extents are the outer ones. -/
def parts : Region → List Box
  | box b => b.parts
  | shell s => (Box.mk s.inner s.outer s.level).parts

/-- Takes the coarsest bands of an array off a region, which from then on starts behind them. -/
def peel (r : Region) (dims : Extents) : List Box × Region :=
  match r with
  | box b =>
    if b.isEmpty then ([], r)
    else
      (detailBands dims b.level,
        box { b with origin := coveredBy dims b.level, level := b.level - 1 })
  | shell s => let (bands, s) := s.peel dims; (bands, shell s)

end Region

/-- The levels of an array: those of its shortest axis longer than one. -/
def partitionLevels (dims : Extents) : Nat :=
  levelsOf ((dims.toList.filter (1 < ·)).min?.getD 1)

def partition (dims : Extents) : Box × Shell :=
  let levels := partitionLevels dims
  let approximation := dims.map fun n => (bandLengths n levels).1
  (⟨⟨0, 0, 0⟩, approximation, levels⟩, ⟨approximation, dims, levels⟩)

end VolumeCodec
