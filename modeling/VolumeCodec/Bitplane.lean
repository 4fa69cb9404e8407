import VolumeCodec.Splitting
import VolumeCodec.Worklists

namespace VolumeCodec

abbrev Coding := Dialogue Query

def settle (subject : Subject) (implied : Bool) : Coding Bool :=
  Dialogue.question (.significance subject implied)

def enter (i : Nat) (w : Worklists) : Coding Worklists := do
  let _ ← Dialogue.question (.sign i)
  pure { w with significant := w.significant.push i }

def refinementPass : List Nat → Coding Unit
  | [] => pure ()
  | i :: rest => do
    let _ ← Dialogue.question (.refinement i)
    refinementPass rest

def elementPass : List Nat → Worklists → Coding Worklists
  | [], w => pure w
  | i :: rest, w => do
    if ← settle (.element i) false then
      elementPass rest (← enter i { w with insignificant := w.insignificant.erase i })
    else elementPass rest w

/-- Tests new boxes one after the other. When a significant one is due and only the last box is
left, it is that box. Significant elements are entered at once, what is not significant waits in
the worklists, and the significant boxes are returned. -/
def testEach (dims : Extents) (due : Bool) :
    (boxes : List Box) → Worklists → Coding (Found boxes × Worklists)
  | [], w => pure (Found.none, w)
  | b :: rest, w => do
    let implied := due && rest.isEmpty
    if h : b.isPixel then
      let i := b.index dims
      let significant ← settle (.element i) implied
      let w ← if significant then enter i w
        else pure { w with insignificant := w.insignificant.insert i }
      let (found, w) ← testEach dims (due && !significant) rest w
      pure (found.skip b, w)
    else
      if ← settle (.region (.box b)) implied then
        let (found, w) ← testEach dims false rest w
        pure (found.add b (by simpa using h), w)
      else
        let (found, w) ← testEach dims due rest (w.addBox b)
        pure (found.skip b, w)

/-- Splits significant boxes until none is left, always the one found last. A significant box has a
significant part. -/
def splitAll (dims : Extents) : List Box → Worklists → Coding Worklists
  | [], w => pure w
  | b :: stack, w => do
    let (found, w) ← testEach dims true b.parts w
    splitAll dims (found.1 ++ stack) w
termination_by stack => loadOf stack
decreasing_by
  rw [loadOf_append, loadOf]
  exact Nat.add_lt_add_right (Nat.lt_of_le_of_lt found.2 b.loadOf_parts_lt) _

def levelPass (dims : Extents) :
    List Box → Array Box → Worklists → Coding (Array Box × Worklists)
  | [], kept, w => pure (kept, w)
  | b :: rest, kept, w => do
    if ← settle (.region (.box b)) false then
      let w ← splitAll dims [b] w
      levelPass dims rest kept w
    else levelPass dims rest (kept.push b) w

def boxPass (dims : Extents) : Nat → Worklists → Coding Worklists
  | 0, w => pure w
  | level + 1, w => do
    let (kept, w) ← levelPass dims (w.boxesAt level).toList #[] (w.setBoxesAt level #[])
    boxPass dims level (w.setBoxesAt level (kept ++ w.boxesAt level))

def shellPass (dims : Extents) (rest : Shell) (w : Worklists) : Coding Progress :=
  if _ : rest.isEmpty then pure ⟨w, rest⟩
  else do
    if ← settle (.region (.shell rest)) false then
      let (found, w) ← testEach dims false (rest.peel dims).1 w
      let w ← splitAll dims found.1 w
      shellPass dims (rest.peel dims).2 w
    else pure ⟨w, rest⟩
termination_by rest.level
decreasing_by
  rename_i h
  simp only [Shell.isEmpty, beq_iff_eq] at h
  simp only [Shell.peel, Shell.isEmpty, beq_iff_eq, h, if_false]
  omega

/-- One bitplane: elements significant before it are refined, and then everything else is tested
once, single elements before boxes and boxes before the shell. -/
def codePlane (dims : Extents) (p : Progress) : Coding Progress := do
  refinementPass p.lists.significant.toList
  let w ← elementPass p.lists.insignificant.members p.lists
  let w ← boxPass dims w.boxes.size w
  shellPass dims p.rest w

/-- Holds the dialogue on `count` planes, the lowest of them last. A respondent is told the plane
along with each question. There is no progress to report if it breaks off. -/
def conductPlanes {σ : Type} (dims : Extents) (reply : Int → σ → Query → Reply σ) (lowest : Int) :
    (count : Nat) → Progress → σ → Option Progress × σ
  | 0, p, s => (some p, s)
  | n + 1, p, s =>
    match (codePlane dims p).conduct (reply (lowest + n)) s with
    | (none, s) => (none, s)
    | (some p, s) => conductPlanes dims reply lowest n p s

def planeCount (highest lowest : Int) : Nat :=
  (highest + 1 - lowest).toNat

end VolumeCodec
