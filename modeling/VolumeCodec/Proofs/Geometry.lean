import Mathlib.Algebra.Order.Ring.Int
import Mathlib.Data.List.Perm.Basic
import VolumeCodec.Region
import VolumeCodec.Fault

namespace VolumeCodec

/-- The places of the points whose coordinates are listed, row after row. -/
def grid (dims : Extents) (xs ys zs : List Nat) : List Nat :=
  zs.flatMap fun z => ys.flatMap fun y => xs.map fun x => dims.index ⟨x, y, z⟩

theorem grid_append_z (dims : Extents) (xs ys zs zs' : List Nat) :
    grid dims xs ys (zs ++ zs') = grid dims xs ys zs ++ grid dims xs ys zs' :=
  List.flatMap_append

theorem grid_append_y (dims : Extents) (xs ys ys' zs : List Nat) :
    (grid dims xs (ys ++ ys') zs).Perm (grid dims xs ys zs ++ grid dims xs ys' zs) := by
  unfold grid
  simp only [List.flatMap_append]
  exact (List.flatMap_append_perm zs _ _).symm

theorem grid_append_x (dims : Extents) (xs xs' ys zs : List Nat) :
    (grid dims (xs ++ xs') ys zs).Perm (grid dims xs ys zs ++ grid dims xs' ys zs) := by
  unfold grid
  simp only [List.map_append]
  refine (List.Perm.flatMap_left zs fun z _ => ?_).trans (List.flatMap_append_perm zs _ _).symm
  exact (List.flatMap_append_perm ys _ _).symm

theorem length_grid (dims : Extents) (xs ys zs : List Nat) :
    (grid dims xs ys zs).length = xs.length * ys.length * zs.length := by
  simp only [grid, List.length_flatMap, List.length_map, List.map_const', List.sum_replicate_nat]
  rw [Nat.mul_comm ys.length, Nat.mul_comm zs.length]

theorem grid_corners (dims : Extents) (near far : Axes (List Nat)) :
    (grid dims (near.x ++ far.x) (near.y ++ far.y) (near.z ++ far.z)).Perm
      (corners.flatMap fun c => grid dims (if c.x then far.x else near.x)
        (if c.y then far.y else near.y) (if c.z then far.z else near.z)) := by
  have hx : ∀ ys zs, (grid dims (near.x ++ far.x) ys zs).Perm
      (grid dims near.x ys zs ++ grid dims far.x ys zs) := grid_append_x dims near.x far.x
  have hxy : ∀ zs, (grid dims (near.x ++ far.x) (near.y ++ far.y) zs).Perm
      (grid dims near.x near.y zs ++ grid dims far.x near.y zs ++
        (grid dims near.x far.y zs ++ grid dims far.x far.y zs)) := fun zs =>
    (grid_append_y dims _ near.y far.y zs).trans ((hx near.y zs).append (hx far.y zs))
  rw [grid_append_z]
  apply ((hxy near.z).append (hxy far.z)).trans
  simp [corners]

theorem range'_index (dims : Extents) (x y z n : Nat) :
    List.range' (dims.index ⟨x, y, z⟩) n =
      (List.range' x n).map fun x => dims.index ⟨x, y, z⟩ := by
  rw [List.range'_eq_map_range, List.range'_eq_map_range, List.map_map]
  apply List.map_congr_left
  intro i _
  simp only [Axes.index, Function.comp_apply]
  omega

theorem grid_range (dims : Extents) (height depth : Nat) (h : height = dims.y) :
    grid dims (List.range dims.x) (List.range height) (List.range depth) =
      List.range (dims.x * height * depth) := by
  have hrow : ∀ y z, ((List.range dims.x).map fun x => dims.index ⟨x, y, z⟩) =
      List.range' ((z * dims.y + y) * dims.x) dims.x := by
    intro y z
    rw [List.range_eq_range', ← range'_index]
    simp [Axes.index]
  have hslice : ∀ z n, ((List.range n).flatMap fun y =>
      (List.range dims.x).map fun x => dims.index ⟨x, y, z⟩) =
        List.range' (z * dims.y * dims.x) (n * dims.x) := by
    intro z n
    induction n with
    | zero => simp
    | succ n ih =>
      rw [List.range_succ, List.flatMap_append, ih, List.flatMap_singleton, hrow, Nat.add_mul,
        Nat.succ_mul, List.range'_append_1]
  subst h
  unfold grid
  induction depth with
  | zero => simp
  | succ n ih =>
    rw [List.range_succ, List.flatMap_append, ih, List.flatMap_singleton, hslice,
      List.range_eq_range', List.range_eq_range', Nat.mul_succ]
    have hm : n * dims.y * dims.x = 0 + dims.x * dims.y * n := by
      rw [Nat.zero_add, Nat.mul_assoc, Nat.mul_comm n, Nat.mul_comm dims.y]
    rw [hm, Nat.mul_comm dims.y, List.range'_append_1]

namespace Region

theorem any_eq (r : Region) (dims : Extents) (p : Nat → Bool) :
    r.any dims p = (r.indices dims).any p := by
  unfold any indices
  rw [List.any_flatMap]
  simp only [anyFrom_eq]

theorem indices_box (b : Box) (dims : Extents) :
    (box b).indices dims = grid dims (List.range' b.origin.x b.extent.x)
      (List.range' b.origin.y b.extent.y) (List.range' b.origin.z b.extent.z) := by
  unfold indices rows Box.rows grid
  rw [List.flatMap_assoc]
  apply List.flatMap_congr
  intro z _
  rw [List.flatMap_map]
  exact List.flatMap_congr fun y _ => range'_index dims _ y z _

end Region

/-- A list that is a grid where a condition holds, and nothing elsewhere. -/
theorem flatMap_range_ite {α : Type} {m n : Nat} (h : m ≤ n) (f : Nat → List α) :
    ((List.range n).flatMap fun i => if i < m then f i else []) = (List.range m).flatMap f := by
  obtain ⟨k, rfl⟩ := Nat.le.dest h
  rw [List.range_add, List.flatMap_append, List.flatMap_map]
  have hlow : ((List.range m).flatMap fun i => if i < m then f i else []) =
      (List.range m).flatMap f :=
    List.flatMap_congr fun i hi => if_pos (List.mem_range.mp hi)
  have hhigh : ((List.range k).flatMap fun i => if m + i < m then f (m + i) else []) = [] := by
    rw [List.flatMap_eq_nil_iff]
    intro i _
    rw [if_neg (by omega)]
  rw [hlow, hhigh, List.append_nil]

theorem indices_shell (dims inner : Extents) (level : Nat) (hx : inner.x ≤ dims.x)
    (hy : inner.y ≤ dims.y) (hz : inner.z ≤ dims.z) :
    (grid dims (List.range inner.x) (List.range inner.y) (List.range inner.z) ++
      (Region.shell ⟨inner, dims, level⟩).indices dims).Perm (List.range dims.volume) := by
  let row (length y z : Nat) : List Nat := (List.range length).map fun x => dims.index ⟨x, y, z⟩
  let corner (y z : Nat) : List Nat :=
    if z < inner.z then if y < inner.y then row inner.x y z else [] else []
  let start (y z : Nat) : Nat := if z < inner.z ∧ y < inner.y then inner.x else 0
  let behind (y z : Nat) : List Nat :=
    List.range' (dims.index ⟨start y z, y, z⟩) (dims.x - start y z)
  have hrow : ∀ y z, corner y z ++ behind y z = row dims.x y z := by
    intro y z
    simp only [corner, behind, start, row, range'_index]
    by_cases h : z < inner.z ∧ y < inner.y
    · have hsplit := List.range'_append_1 (s := 0) (m := inner.x) (n := dims.x - inner.x)
      rw [Nat.zero_add, Nat.add_sub_of_le hx, ← List.range_eq_range',
        ← List.range_eq_range'] at hsplit
      rw [if_pos h.1, if_pos h.2, if_pos h, ← List.map_append, hsplit]
    · rw [if_neg h, Nat.sub_zero, ← List.range_eq_range']
      by_cases hz' : z < inner.z
      · rw [if_pos hz', if_neg fun hy' => h ⟨hz', hy'⟩, List.nil_append]
      · rw [if_neg hz', List.nil_append]
  have hcorner : grid dims (List.range inner.x) (List.range inner.y) (List.range inner.z) =
      (List.range dims.z).flatMap fun z => (List.range dims.y).flatMap fun y => corner y z := by
    unfold grid
    rw [← flatMap_range_ite hz]
    apply List.flatMap_congr
    intro z _
    simp only [corner]
    split
    next => exact (flatMap_range_ite hy fun y => row inner.x y z).symm
    next => simp
  have hbehind : (Region.shell ⟨inner, dims, level⟩).indices dims =
      (List.range dims.z).flatMap fun z => (List.range dims.y).flatMap fun y => behind y z := by
    unfold Region.indices Region.rows Shell.rows
    rw [List.flatMap_assoc]
    apply List.flatMap_congr
    intro z _
    rw [List.flatMap_map]
  rw [hcorner, hbehind, Axes.volume, ← grid_range dims dims.y dims.z rfl]
  refine (List.flatMap_append_perm _ _ _).trans (List.Perm.flatMap_left _ fun z _ => ?_)
  refine (List.flatMap_append_perm _ _ _).trans (List.Perm.flatMap_left _ fun y _ => ?_)
  rw [hrow]

/-- The places of the elements of some boxes. -/
def places (dims : Extents) (boxes : List Box) : List Nat :=
  boxes.flatMap fun b => (Region.box b).indices dims

@[simp] theorem places_nil (dims : Extents) : places dims [] = [] := rfl

@[simp] theorem places_cons (dims : Extents) (b : Box) (boxes : List Box) :
    places dims (b :: boxes) = (Region.box b).indices dims ++ places dims boxes := rfl

@[simp] theorem places_append (dims : Extents) (boxes boxes' : List Box) :
    places dims (boxes ++ boxes') = places dims boxes ++ places dims boxes' :=
  List.flatMap_append

theorem places_perm (dims : Extents) {boxes boxes' : List Box} (h : boxes.Perm boxes') :
    (places dims boxes).Perm (places dims boxes') :=
  h.flatMap_right _

theorem length_indices_box (b : Box) (dims : Extents) :
    ((Region.box b).indices dims).length = b.extent.volume := by
  rw [Region.indices_box, length_grid]
  simp [Axes.volume]

theorem volume_eq_zero_iff (e : Extents) : e.volume = 0 ↔ e.isFlat = true := by
  simp [Axes.volume, Axes.isFlat, or_assoc]

theorem indices_of_isEmpty {b : Box} (h : b.isEmpty = true) (dims : Extents) :
    (Region.box b).indices dims = [] := by
  rw [← List.length_eq_zero_iff, length_indices_box]
  exact (volume_eq_zero_iff b.extent).mpr h

theorem indices_of_isPixel {b : Box} (h : b.isPixel = true) (dims : Extents) :
    (Region.box b).indices dims = [b.index dims] := by
  have he : b.extent = ⟨1, 1, 1⟩ := by simpa [Box.isPixel] using h
  rw [Region.indices_box, he]
  rfl

theorem places_filter (dims : Extents) (boxes : List Box) :
    places dims (boxes.filter fun b => !b.isEmpty) = places dims boxes := by
  induction boxes with
  | nil => rfl
  | cons b rest ih =>
    cases h : b.isEmpty with
    | true => simp [h, ih, indices_of_isEmpty h]
    | false => simp [h, ih]

/-- The parts of a box have the same elements as the box. -/
theorem places_parts (dims : Extents) (b : Box) :
    (places dims b.parts).Perm ((Region.box b).indices dims) := by
  obtain ⟨⟨ox, oy, oz⟩, ⟨ex, ey, ez⟩, level⟩ := b
  have haxis : ∀ o n, List.range' o n =
      List.range' o ((n + 1) / 2) ++ List.range' (o + (n + 1) / 2) (n - (n + 1) / 2) := by
    intro o n
    rw [List.range'_append_1]
    congr 1
    omega
  rw [Region.indices_box, haxis ox, haxis oy, haxis oz]
  refine .trans ?_ (grid_corners dims
    ⟨List.range' ox ((ex + 1) / 2), List.range' oy ((ey + 1) / 2), List.range' oz ((ez + 1) / 2)⟩
    ⟨List.range' (ox + (ex + 1) / 2) (ex - (ex + 1) / 2),
      List.range' (oy + (ey + 1) / 2) (ey - (ey + 1) / 2),
      List.range' (oz + (ez + 1) / 2) (ez - (ez + 1) / 2)⟩).symm
  unfold Box.parts
  rw [places_filter, places, List.flatMap_map]
  refine List.Perm.flatMap_left _ fun c _ => .of_eq ?_
  obtain ⟨cx, cy, cz⟩ := c
  rw [Region.indices_box]
  cases cx <;> cases cy <;> cases cz <;> simp [Box.part, Axes.map, Axes.zipWith, Nat.add_comm]

theorem mem_parts {b p : Box} (h : p ∈ b.parts) : p.level = b.level + 1 ∧ p.isEmpty = false := by
  obtain ⟨hp, he⟩ := List.mem_filter.mp h
  obtain ⟨c, -, rfl⟩ := List.mem_map.mp hp
  exact ⟨rfl, by simpa using he⟩

theorem two_le_length_of_mem_ne {α : Type} {a b : α} {l : List α} (ha : a ∈ l) (hb : b ∈ l)
    (hne : a ≠ b) : 2 ≤ l.length := by
  match l with
  | [] => cases ha
  | [c] =>
    rw [List.mem_singleton] at ha hb
    exact absurd (ha.trans hb.symm) hne
  | _ :: _ :: rest => simp

theorem two_le_length_parts {b : Box} (hs : b.isPixel = false) (he : b.isEmpty = false) :
    2 ≤ b.parts.length := by
  have hmem : ∀ c ∈ corners, (b.part c).isEmpty = false → b.part c ∈ b.parts := by
    intro c hc hne
    exact List.mem_filter.mpr ⟨List.mem_map_of_mem hc, by simpa using hne⟩
  obtain ⟨⟨ox, oy, oz⟩, ⟨ex, ey, ez⟩, level⟩ := b
  simp only [Box.isPixel, beq_eq_false_iff_ne, ne_eq, Axes.mk.injEq] at hs
  simp only [Box.isEmpty, Axes.isFlat, Bool.or_eq_false_iff, beq_eq_false_iff_ne, ne_eq] at he
  have hnear := hmem ⟨false, false, false⟩ (by simp [corners])
    (by simp [Box.part, Box.isEmpty, Axes.isFlat, Axes.map, Axes.zipWith]; omega)
  by_cases hx : ex = 1
  · by_cases hy : ey = 1
    · refine two_le_length_of_mem_ne hnear (hmem ⟨false, false, true⟩ (by simp [corners])
        (by simp [Box.part, Box.isEmpty, Axes.isFlat, Axes.map, Axes.zipWith]; omega)) ?_
      simp [Box.part, Axes.map, Axes.zipWith]
      omega
    · refine two_le_length_of_mem_ne hnear (hmem ⟨false, true, false⟩ (by simp [corners])
        (by simp [Box.part, Box.isEmpty, Axes.isFlat, Axes.map, Axes.zipWith]; omega)) ?_
      simp [Box.part, Axes.map, Axes.zipWith]
      omega
  · refine two_le_length_of_mem_ne hnear (hmem ⟨true, false, false⟩ (by simp [corners])
      (by simp [Box.part, Box.isEmpty, Axes.isFlat, Axes.map, Axes.zipWith]; omega)) ?_
    simp [Box.part, Axes.map, Axes.zipWith]
    omega

/-- The extents of the approximation of an array after so many halvings. -/
def approximation (dims : Extents) (level : Nat) : Extents :=
  dims.map fun n => (bandLengths n level).1

/-- What is left of an array around its approximation. -/
def shellAt (dims : Extents) (level : Nat) : Shell :=
  ⟨approximation dims level, dims, level⟩

theorem coveredBy_succ (dims : Extents) (level : Nat) :
    coveredBy dims (level + 1) = approximation dims level := by
  have haxis : ∀ n, (bandLengths n (level + 1)).1 + (bandLengths n (level + 1)).2 =
      (bandLengths n level).1 := by
    intro n
    simp only [bandLengths]
    omega
  simp [coveredBy, approximation, Axes.map, haxis]

theorem approximation_le (n level : Nat) : (bandLengths n level).1 ≤ n := by
  induction level with
  | zero => exact Nat.le_refl n
  | succ level ih =>
    simp only [bandLengths]
    omega

theorem approximation_pos {n : Nat} (h : 0 < n) (level : Nat) : 0 < (bandLengths n level).1 := by
  induction level with
  | zero => exact h
  | succ level ih =>
    simp only [bandLengths]
    omega

theorem peel_shellAt (dims : Extents) (level : Nat) :
    (shellAt dims (level + 1)).peel dims =
      (detailBands dims (level + 1), shellAt dims level) := by
  simp [Shell.peel, Shell.isEmpty, shellAt, coveredBy_succ]

theorem mem_detailBands {dims : Extents} {level : Nat} {b : Box} (h : b ∈ detailBands dims level) :
    b.level = level ∧ b.isEmpty = false := by
  obtain ⟨hb, he⟩ := List.mem_filter.mp h
  obtain ⟨c, -, rfl⟩ := List.mem_map.mp hb
  exact ⟨rfl, by simpa using he⟩

theorem places_detailBands (dims : Extents) (level : Nat) :
    (grid dims (List.range (approximation dims (level + 1)).x)
        (List.range (approximation dims (level + 1)).y)
        (List.range (approximation dims (level + 1)).z) ++
      places dims (detailBands dims (level + 1))).Perm
      (grid dims (List.range (approximation dims level).x)
        (List.range (approximation dims level).y) (List.range (approximation dims level).z)) := by
  have haxis : ∀ n, List.range (bandLengths n level).1 =
      List.range (bandLengths n (level + 1)).1 ++
        List.range' (bandLengths n (level + 1)).1 (bandLengths n (level + 1)).2 := by
    intro n
    have h := List.range'_append_1 (s := 0) (m := (bandLengths n (level + 1)).1)
      (n := (bandLengths n (level + 1)).2)
    rw [Nat.zero_add, ← List.range_eq_range'] at h
    rw [h, List.range_eq_range']
    congr 1
    simp only [bandLengths]
    omega
  simp only [approximation, Axes.map, haxis]
  refine .trans ?_ (grid_corners dims
    ⟨List.range (bandLengths dims.x (level + 1)).1, List.range (bandLengths dims.y (level + 1)).1,
      List.range (bandLengths dims.z (level + 1)).1⟩
    ⟨List.range' (bandLengths dims.x (level + 1)).1 (bandLengths dims.x (level + 1)).2,
      List.range' (bandLengths dims.y (level + 1)).1 (bandLengths dims.y (level + 1)).2,
      List.range' (bandLengths dims.z (level + 1)).1 (bandLengths dims.z (level + 1)).2⟩).symm
  have hcorners : corners = ⟨false, false, false⟩ :: corners.drop 1 := rfl
  rw [detailBands, places_filter, hcorners, List.flatMap_cons]
  apply List.Perm.append_left _
  apply (places_perm dims ((List.reverse_perm _).map _)).trans
  rw [places, List.flatMap_map]
  refine List.Perm.flatMap_left _ fun c _ => .of_eq ?_
  obtain ⟨cx, cy, cz⟩ := c
  rw [Region.indices_box]
  cases cx <;> cases cy <;> cases cz <;>
    simp [detailBand, Axes.map, Axes.zipWith, List.range_eq_range']

theorem indices_shellAt (dims : Extents) (level : Nat) :
    (grid dims (List.range (approximation dims level).x) (List.range (approximation dims level).y)
        (List.range (approximation dims level).z) ++
      (Region.shell (shellAt dims level)).indices dims).Perm (List.range dims.volume) :=
  indices_shell dims (approximation dims level) level (approximation_le dims.x level)
    (approximation_le dims.y level) (approximation_le dims.z level)

/-- Peeling a shell takes the elements of the bands off it. -/
theorem places_peel (dims : Extents) (level : Nat) :
    ((Region.shell (shellAt dims (level + 1))).indices dims).Perm
      (places dims (detailBands dims (level + 1)) ++
        (Region.shell (shellAt dims level)).indices dims) := by
  have houter := (indices_shellAt dims (level + 1)).trans (indices_shellAt dims level).symm
  have hbands := (places_detailBands dims level).symm.append_right
    ((Region.shell (shellAt dims level)).indices dims)
  have h := houter.trans hbands
  rw [List.append_assoc] at h
  exact (List.perm_append_left_iff _).mp h

theorem indices_shellAt_zero (dims : Extents) :
    (Region.shell (shellAt dims 0)).indices dims = [] := by
  have h := (indices_shellAt dims 0).length_eq
  have ha : approximation dims 0 = dims := rfl
  rw [List.length_append, length_grid, ha] at h
  simp only [List.length_range, Axes.volume] at h
  exact List.length_eq_zero_iff.mp (by omega)

theorem partition_eq (dims : Extents) :
    partition dims = (⟨⟨0, 0, 0⟩, approximation dims (partitionLevels dims), partitionLevels dims⟩,
      shellAt dims (partitionLevels dims)) := rfl

theorem places_partition (dims : Extents) :
    ((Region.box (partition dims).1).indices dims ++
      (Region.shell (partition dims).2).indices dims).Perm (List.range dims.volume) := by
  have h := indices_shellAt dims (partitionLevels dims)
  rw [partition_eq, Region.indices_box]
  simpa only [List.range_eq_range'] using h

theorem partitionLevels_le (dims : Extents) : partitionLevels dims ≤ levelLimit := by
  unfold partitionLevels levelsOf
  split
  next => exact Nat.zero_le _
  next => exact Nat.min_le_right _ _

theorem isFlat_eq_false_iff {dims : Extents} :
    dims.isFlat = false ↔ 0 < dims.x ∧ 0 < dims.y ∧ 0 < dims.z := by
  simp only [Axes.isFlat, Bool.or_eq_false_iff, beq_eq_false_iff_ne, ne_eq]
  omega

theorem validate_eq_ok_iff {dims : Extents} :
    dims.validate = .ok () ↔ dims.isFlat = false ∧ dims.volume < 1 <<< 64 := by
  unfold Axes.validate
  split
  next hn =>
    refine ⟨nofun, fun h => ?_⟩
    rw [h.1] at hn
    exact absurd h.2 (Nat.not_lt.mpr (hn.resolve_left Bool.false_ne_true))
  next hn =>
    rw [not_or, Bool.not_eq_true, Nat.not_le] at hn
    exact ⟨fun _ => hn, fun _ => rfl⟩

theorem pos_of_validate {dims : Extents} (h : dims.validate = .ok ()) :
    0 < dims.x ∧ 0 < dims.y ∧ 0 < dims.z :=
  isFlat_eq_false_iff.mp (validate_eq_ok_iff.mp h).1

theorem extents_le_volume {dims : Extents} (h : dims.validate = .ok ()) :
    dims.x ≤ dims.volume ∧ dims.y ≤ dims.volume ∧ dims.z ≤ dims.volume := by
  obtain ⟨hx, hy, hz⟩ := pos_of_validate h
  have hxy : dims.x * dims.y ≤ dims.volume := Nat.le_mul_of_pos_right _ hz
  exact ⟨(Nat.le_mul_of_pos_right _ hy).trans hxy, (Nat.le_mul_of_pos_left _ hx).trans hxy,
    Nat.le_mul_of_pos_left _ (Nat.mul_pos hx hy)⟩

/-- The number of elements as machine words multiply it. -/
def Axes.machineVolume (e : Extents) : UInt64 :=
  UInt64.ofNat e.x * UInt64.ofNat e.y * UInt64.ofNat e.z

theorem toNat_machineVolume {dims : Extents} (h : dims.validate = .ok ()) :
    dims.machineVolume.toNat = dims.volume := by
  obtain ⟨hx, hy, hz⟩ := extents_le_volume h
  obtain ⟨-, hv⟩ := validate_eq_ok_iff.mp h
  rw [Nat.one_shiftLeft] at hv
  rw [Axes.machineVolume, UInt64.toNat_mul, UInt64.toNat_mul,
    UInt64.toNat_ofNat_of_lt' (Nat.lt_of_le_of_lt hx hv),
    UInt64.toNat_ofNat_of_lt' (Nat.lt_of_le_of_lt hy hv),
    UInt64.toNat_ofNat_of_lt' (Nat.lt_of_le_of_lt hz hv), Nat.mod_mul_mod]
  exact Nat.mod_eq_of_lt hv

theorem isEmpty_root {dims : Extents} (h : dims.validate = .ok ()) :
    (partition dims).1.isEmpty = false := by
  obtain ⟨hx, hy, hz⟩ := pos_of_validate h
  have hx := approximation_pos hx (partitionLevels dims)
  have hy := approximation_pos hy (partitionLevels dims)
  have hz := approximation_pos hz (partitionLevels dims)
  rw [partition_eq]
  simp only [Box.isEmpty, Axes.isFlat, approximation, Axes.map, Bool.or_eq_false_iff,
    beq_eq_false_iff_ne, ne_eq]
  omega

end VolumeCodec
