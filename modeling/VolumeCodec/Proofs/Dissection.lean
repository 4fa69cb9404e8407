import Mathlib.Logic.Relation
import VolumeCodec.Proofs.BoxBounds

namespace VolumeCodec

namespace Box

variable {b : Box} {corner : Axes Bool} {point : Extents}

/-- A point of an array lies in a box. -/
structure Contains (b : Box) (point : Extents) : Prop where
  x : b.origin.x ≤ point.x ∧ point.x < b.origin.x + b.extent.x
  y : b.origin.y ≤ point.y ∧ point.y < b.origin.y + b.extent.y
  z : b.origin.z ≤ point.z ∧ point.z < b.origin.z + b.extent.z

/-- The corner of a box in which a point lies. -/
def cornerOf (b : Box) (point : Extents) : Axes Bool :=
  ⟨decide (b.origin.x + (b.extent.x + 1) / 2 ≤ point.x),
    decide (b.origin.y + (b.extent.y + 1) / 2 ≤ point.y),
    decide (b.origin.z + (b.extent.z + 1) / 2 ≤ point.z)⟩

theorem contains_part_iff :
    (b.part corner).Contains point ↔ b.Contains point ∧ b.cornerOf point = corner := by
  have haxis : ∀ (far : Bool) (o n i : Nat),
      ((if far then (n + 1) / 2 else 0) + o ≤ i ∧ i < (if far then (n + 1) / 2 else 0) + o +
        (if far then n - (n + 1) / 2 else (n + 1) / 2)) ↔
      (o ≤ i ∧ i < o + n) ∧ decide (o + (n + 1) / 2 ≤ i) = far := by
    intro far o n i
    cases far with
    | false => simp; omega
    | true => simp; omega
  obtain ⟨cx, cy, cz⟩ := corner
  constructor
  · intro h
    obtain ⟨hx, hcx⟩ := (haxis cx _ _ _).mp h.x
    obtain ⟨hy, hcy⟩ := (haxis cy _ _ _).mp h.y
    obtain ⟨hz, hcz⟩ := (haxis cz _ _ _).mp h.z
    exact ⟨⟨hx, hy, hz⟩, by rw [cornerOf, hcx, hcy, hcz]⟩
  · intro h
    obtain ⟨hb, hc⟩ := h
    obtain ⟨hcx, hcy, hcz⟩ := Axes.mk.inj hc
    exact ⟨(haxis cx _ _ _).mpr ⟨hb.x, hcx⟩, (haxis cy _ _ _).mpr ⟨hb.y, hcy⟩,
      (haxis cz _ _ _).mpr ⟨hb.z, hcz⟩⟩

theorem Contains.not_isEmpty (h : b.Contains point) : b.isEmpty = false := by
  obtain ⟨hx, hy, hz⟩ := h
  simp only [isEmpty, Axes.isFlat, Bool.or_eq_false_iff, beq_eq_false_iff_ne, ne_eq]
  omega

/-- The boxes of a list are a proper division of a box: they are at least two and at most eight, not
empty, have no point in common, and cover the box and nothing else. -/
structure IsDividedInto (b : Box) (parts : List Box) : Prop where
  two_le : 2 ≤ parts.length
  le_eight : parts.length ≤ 8
  nonempty : ∀ p ∈ parts, p.isEmpty = false
  disjoint : parts.Pairwise fun p q => ∀ point, ¬(p.Contains point ∧ q.Contains point)
  union : ∀ point, b.Contains point ↔ ∃ p ∈ parts, p.Contains point

theorem mem_corners (corner : Axes Bool) : corner ∈ corners := by
  obtain ⟨cx, cy, cz⟩ := corner
  cases cx <;> cases cy <;> cases cz <;> decide

theorem isDividedInto_parts (hs : b.isPixel = false) (he : b.isEmpty = false) :
    b.IsDividedInto b.parts where
  two_le := two_le_length_parts hs he
  le_eight := (List.length_filter_le _ _).trans (Nat.le_of_eq (List.length_map _))
  nonempty p hp := (mem_parts hp).2
  disjoint := by
    have hnodup : corners.Nodup := by decide
    refine List.Pairwise.filter _ (List.pairwise_map.mpr (hnodup.imp fun hne point h => hne ?_))
    obtain ⟨hp, hq⟩ := h
    exact (contains_part_iff.mp hp).2.symm.trans (contains_part_iff.mp hq).2
  union point := by
    constructor
    · intro h
      have hpart : (b.part (b.cornerOf point)).Contains point := contains_part_iff.mpr ⟨h, rfl⟩
      have hmem : b.part (b.cornerOf point) ∈ b.parts :=
        List.mem_filter.mpr ⟨List.mem_map_of_mem (mem_corners _), by rw [hpart.not_isEmpty]; rfl⟩
      exact ⟨_, hmem, hpart⟩
    · intro h
      obtain ⟨p, hp, hpoint⟩ := h
      obtain ⟨hp, -⟩ := List.mem_filter.mp hp
      obtain ⟨c, -, rfl⟩ := List.mem_map.mp hp
      exact (contains_part_iff.mp hpoint).1

/-- A box that is halved down to pixels before its level passes a bound. -/
def IsShallow (b : Box) : Prop :=
  ∃ depth, b.level + depth = levelLimit + 64 ∧ b.extent.x ≤ 2 ^ depth ∧ b.extent.y ≤ 2 ^ depth ∧
    b.extent.z ≤ 2 ^ depth

namespace IsShallow

theorem level_le (h : b.IsShallow) : b.level ≤ levelLimit + 64 := by
  obtain ⟨depth, hlevel, -⟩ := h
  omega

theorem of_within {dims : Extents} (hd : dims.validate = .ok ()) (hb : b.Within dims)
    (hlevel : b.level ≤ levelLimit) : b.IsShallow := by
  obtain ⟨-, hvolume⟩ := validate_eq_ok_iff.mp hd
  obtain ⟨hx, hy, hz⟩ := extents_le_volume hd
  have hbx := hb.x
  have hby := hb.y
  have hbz := hb.z
  -- No axis is longer than the number of elements, which fits a machine word.
  have hpow : dims.volume ≤ 2 ^ (levelLimit + 64 - b.level) := by
    refine Nat.le_trans (Nat.le_of_lt hvolume) ?_
    rw [Nat.one_shiftLeft]
    exact Nat.pow_le_pow_right (by decide) (by omega)
  exact ⟨levelLimit + 64 - b.level, by omega, by omega, by omega, by omega⟩

/-- At depth zero there is nothing but pixels, so a box that is split has a depth to spare. -/
theorem of_mem_parts {p : Box} (h : b.IsShallow) (hs : b.isPixel = false)
    (he : b.isEmpty = false) (hp : p ∈ b.parts) : p.IsShallow := by
  obtain ⟨depth, hlevel, hx, hy, hz⟩ := h
  cases depth with
  | zero =>
    obtain ⟨o, ⟨ex, ey, ez⟩, level⟩ := b
    simp only [isPixel, beq_eq_false_iff_ne, ne_eq, Axes.mk.injEq] at hs
    simp only [isEmpty, Axes.isFlat, Bool.or_eq_false_iff, beq_eq_false_iff_ne, ne_eq] at he
    simp only [Nat.pow_zero] at hx hy hz
    omega
  | succ depth =>
    have haxis : ∀ (far : Bool) (n : Nat), n ≤ 2 ^ (depth + 1) →
        (if far then n - (n + 1) / 2 else (n + 1) / 2) ≤ 2 ^ depth := by
      intro far n hn
      rw [Nat.pow_succ] at hn
      cases far with
      | false => simp; omega
      | true => simp; omega
    obtain ⟨hp, -⟩ := List.mem_filter.mp hp
    obtain ⟨c, -, rfl⟩ := List.mem_map.mp hp
    have hpart : (b.part c).level = b.level + 1 := rfl
    exact ⟨depth, by omega, haxis c.x _ hx, haxis c.y _ hy, haxis c.z _ hz⟩

end IsShallow

end Box

/-- How far an array has been taken apart: the boxes so far, and what is left around them. -/
structure Dissection where
  boxes : List Box
  rest : Shell

namespace Dissection

variable {dims : Extents} {d d' : Dissection}

def initial (dims : Extents) : Dissection :=
  ⟨[(partition dims).1], (partition dims).2⟩

/-- One step takes the coarsest bands off the rest, or splits one of the boxes, in any order. -/
inductive Step (dims : Extents) : Dissection → Dissection → Prop
  | peel (boxes : List Box) (rest : Shell) (h : rest.isEmpty = false) :
    Step dims ⟨boxes, rest⟩ ⟨boxes ++ (rest.peel dims).1, (rest.peel dims).2⟩
  | split (before : List Box) (b : Box) (after : List Box) (rest : Shell)
      (h : b.isPixel = false) :
    Step dims ⟨before ++ b :: after, rest⟩ ⟨before ++ b.parts ++ after, rest⟩

/-- Nothing is left to take apart. -/
def IsFinished (d : Dissection) : Prop :=
  d.rest.isEmpty = true ∧ ∀ b ∈ d.boxes, b.isPixel = true

theorem isFinished_or_step (dims : Extents) (d : Dissection) :
    d.IsFinished ∨ ∃ d', Step dims d d' := by
  obtain ⟨boxes, rest⟩ := d
  cases he : rest.isEmpty with
  | false => exact .inr ⟨_, .peel boxes rest he⟩
  | true =>
    by_cases hpixels : ∀ b ∈ boxes, b.isPixel = true
    · exact .inl ⟨he, hpixels⟩
    · simp only [not_forall, Bool.not_eq_true] at hpixels
      obtain ⟨b, hb, hs⟩ := hpixels
      obtain ⟨before, after, rfl⟩ := List.append_of_mem hb
      exact .inr ⟨_, .split before b after rest hs⟩

/-- The number of peelings still to come, and then the load of the boxes still to split. -/
def remaining (d : Dissection) : Nat × Nat :=
  (d.rest.level, loadOf (d.boxes.filter fun b => !b.isPixel))

theorem Step.remaining_lt (h : Step dims d d') :
    Prod.Lex (· < ·) (· < ·) d'.remaining d.remaining := by
  -- A peeling may add any load of boxes, but it is the last one of its level.
  cases h with
  | peel boxes rest he =>
    have hlevel : rest.level ≠ 0 := by simpa [Shell.isEmpty] using he
    refine .left _ _ ?_
    simp only [Shell.peel, he, Bool.false_eq_true, if_false]
    omega
  | split before b after rest hs =>
    refine .right _ ?_
    have hparts := b.loadOf_parts_lt
    simp only [List.filter_append, List.filter_cons, hs, loadOf_append, Bool.not_false, if_true,
      loadOf]
    omega

theorem step_wellFounded (dims : Extents) : WellFounded fun d' d => Step dims d d' :=
  Subrelation.wf Step.remaining_lt (InvImage.wf remaining (Prod.lex Nat.lt_wfRel Nat.lt_wfRel).wf)

theorem exists_finished (dims : Extents) (d : Dissection) :
    ∃ d', Relation.ReflTransGen (Step dims) d d' ∧ d'.IsFinished := by
  induction d using (step_wellFounded dims).induction with
  | _ d ih =>
    rcases isFinished_or_step dims d with hfinished | ⟨next, hstep⟩
    · exact ⟨d, .refl, hfinished⟩
    · obtain ⟨d', hrun, hfinished⟩ := ih next hstep
      exact ⟨d', .head hstep hrun, hfinished⟩

/-- What every step keeps: the boxes and the rest hold each element once, the rest is a shell that
peelings leave, and the boxes lie inside the array, with elements and not too deep. -/
structure IsSound (dims : Extents) (d : Dissection) : Prop where
  cover : (places dims d.boxes ++ (Region.shell d.rest).indices dims).Perm
    (List.range dims.volume)
  rest : d.rest = shellAt dims d.rest.level
  level_le : d.rest.level ≤ levelLimit
  nonempty : ∀ b ∈ d.boxes, b.isEmpty = false
  within : ∀ b ∈ d.boxes, b.Within dims
  shallow : ∀ b ∈ d.boxes, b.IsShallow

namespace IsSound

theorem initial (hd : dims.validate = .ok ()) : IsSound dims (initial dims) where
  cover := by simpa [Dissection.initial] using places_partition dims
  rest := rfl
  level_le := partitionLevels_le dims
  nonempty b hb := by
    rw [List.mem_singleton.mp hb]
    exact isEmpty_root hd
  within b hb := by
    rw [List.mem_singleton.mp hb]
    exact .partition dims
  shallow b hb := by
    rw [List.mem_singleton.mp hb]
    exact .of_within hd (.partition dims) (partitionLevels_le dims)

theorem peel {boxes : List Box} {rest : Shell} (hd : dims.validate = .ok ())
    (h : IsSound dims ⟨boxes, rest⟩) (he : rest.isEmpty = false) :
    IsSound dims ⟨boxes ++ (rest.peel dims).1, (rest.peel dims).2⟩ := by
  obtain ⟨level, hlevel⟩ := Nat.exists_eq_succ_of_ne_zero (n := rest.level)
    (by simpa [Shell.isEmpty] using he)
  have hshell : rest = shellAt dims (level + 1) := by
    have hrest := h.rest
    dsimp only at hrest
    rw [hrest, hlevel]
  subst hshell
  have hle : level + 1 ≤ levelLimit := h.level_le
  rw [peel_shellAt]
  refine ⟨?_, rfl, Nat.le_of_succ_le hle, ?_, ?_, ?_⟩
  · rw [places_append, List.append_assoc]
    exact ((places_peel dims level).symm.append_left _).trans h.cover
  · intro b hb
    rcases List.mem_append.mp hb with hb | hb
    · exact h.nonempty b hb
    · exact (mem_detailBands hb).2
  · intro b hb
    rcases List.mem_append.mp hb with hb | hb
    · exact h.within b hb
    · exact .of_mem_detailBands hb
  · intro b hb
    rcases List.mem_append.mp hb with hb | hb
    · exact h.shallow b hb
    · exact .of_within hd (.of_mem_detailBands hb) (by rw [(mem_detailBands hb).1]; exact hle)

theorem split {before after : List Box} {b : Box} {rest : Shell}
    (h : IsSound dims ⟨before ++ b :: after, rest⟩) (hs : b.isPixel = false) :
    IsSound dims ⟨before ++ b.parts ++ after, rest⟩ := by
  have hb : b ∈ before ++ b :: after := by simp
  have hmem : ∀ c ∈ before ++ b.parts ++ after, c ∈ before ++ b :: after ∨ c ∈ b.parts := by
    intro c hc
    simp only [List.mem_append, List.mem_cons] at hc ⊢
    tauto
  refine ⟨?_, h.rest, h.level_le, ?_, ?_, ?_⟩
  · refine (List.Perm.append_right _ ?_).trans h.cover
    simp only [places_append, places_cons, List.append_assoc]
    exact ((places_parts dims b).append_right _).append_left _
  · intro c hc
    rcases hmem c hc with hc | hc
    · exact h.nonempty c hc
    · exact (mem_parts hc).2
  · intro c hc
    rcases hmem c hc with hc | hc
    · exact h.within c hc
    · exact (h.within b hb).of_mem_parts hc
  · intro c hc
    rcases hmem c hc with hc | hc
    · exact h.shallow c hc
    · exact (h.shallow b hb).of_mem_parts hs (h.nonempty b hb) hc

theorem step (hd : dims.validate = .ok ()) (h : IsSound dims d) (hstep : Step dims d d') :
    IsSound dims d' := by
  cases hstep with
  | peel boxes rest he => exact h.peel hd he
  | split before b after rest hs => exact h.split hs

theorem run (hd : dims.validate = .ok ())
    (hrun : Relation.ReflTransGen (Step dims) (Dissection.initial dims) d) : IsSound dims d := by
  induction hrun with
  | refl => exact .initial hd
  | tail _ hstep ih => exact ih.step hd hstep

/-- Nothing is left of the shell, and every box is one element. -/
theorem pixels (h : IsSound dims d) (hf : d.IsFinished) :
    (d.boxes.map fun b => b.index dims).Perm (List.range dims.volume) := by
  obtain ⟨hrest, hpixels⟩ := hf
  have hlevel : d.rest.level = 0 := by simpa [Shell.isEmpty] using hrest
  have hplaces : places dims d.boxes = d.boxes.map fun b => b.index dims := by
    rw [places, List.flatMap_congr fun b hb => indices_of_isPixel (hpixels b hb) dims,
      ← List.map_eq_flatMap]
  have hcover := h.cover
  rwa [h.rest, hlevel, indices_shellAt_zero, List.append_nil, hplaces] at hcover

end IsSound

/-- An array is taken apart in finitely many steps, whatever is taken first. On the way the boxes
lie inside the array, the levels fit 16 bits, and what is split is divided properly; in the end
there are pixels only, one for each element. -/
theorem terminates_in_pixels (hd : dims.validate = .ok ()) :
    (WellFounded fun d' d => Step dims d d') ∧
      (∃ d, Relation.ReflTransGen (Step dims) (initial dims) d ∧ d.IsFinished) ∧
      ∀ d, Relation.ReflTransGen (Step dims) (initial dims) d →
        d.rest.level < 2 ^ 16 ∧
        (∀ b ∈ d.boxes, b.isEmpty = false ∧ b.Within dims ∧ b.level < 2 ^ 16 ∧
          (b.isPixel = false → b.IsDividedInto b.parts)) ∧
        (d.IsFinished ∨ ∃ d', Step dims d d') ∧
        (d.IsFinished → (d.boxes.map fun b => b.index dims).Perm (List.range dims.volume)) := by
  refine ⟨step_wellFounded dims, exists_finished dims _, fun d hrun => ?_⟩
  have hsound := IsSound.run hd hrun
  refine ⟨Nat.lt_of_le_of_lt hsound.level_le (by decide), fun b hb => ?_,
    isFinished_or_step dims d, hsound.pixels⟩
  have hlevel : b.level ≤ levelLimit + 64 := (hsound.shallow b hb).level_le
  exact ⟨hsound.nonempty b hb, hsound.within b hb, Nat.lt_of_le_of_lt hlevel (by decide),
    fun hs => b.isDividedInto_parts hs (hsound.nonempty b hb)⟩

/-- The case of a plane of odd lengths, for which one level of bands is peeled. -/
theorem terminates_in_pixels_plane : (⟨19, 11, 1⟩ : Extents).validate = .ok () ∧
    (partition ⟨19, 11, 1⟩).2.level = 1 ∧
    ∃ d, Relation.ReflTransGen (Step ⟨19, 11, 1⟩) (initial ⟨19, 11, 1⟩) d ∧ d.IsFinished ∧
      (d.boxes.map fun b => b.index ⟨19, 11, 1⟩).Perm (List.range 209) := by
  have hd : (⟨19, 11, 1⟩ : Extents).validate = .ok () := rfl
  obtain ⟨-, ⟨d, hrun, hfinished⟩, hall⟩ := terminates_in_pixels hd
  obtain ⟨-, -, -, hpixels⟩ := hall d hrun
  exact ⟨hd, rfl, d, hrun, hfinished, hpixels hfinished⟩

end Dissection

end VolumeCodec
