import VolumeCodec.Region

namespace VolumeCodec

/-- A bound for the work that a box can cause: more than what all its parts can cause together. -/
def Box.load (b : Box) : Nat :=
  Nat.pow 9 (b.extent.x + b.extent.y + b.extent.z)

def loadOf : List Box → Nat
  | [] => 0
  | b :: rest => b.load + loadOf rest

theorem loadOf_append (a b : List Box) : loadOf (a ++ b) = loadOf a + loadOf b := by
  induction a with
  | nil => simp [loadOf]
  | cons c rest ih => simp only [List.cons_append, loadOf, ih, Nat.add_assoc]

theorem loadOf_le {n : Nat} {boxes : List Box} (h : ∀ b ∈ boxes, b.load ≤ n) :
    loadOf boxes ≤ boxes.length * n := by
  induction boxes with
  | nil => simp [loadOf]
  | cons b rest ih =>
    have hb := h b (by simp)
    have hr := ih fun c hc => h c (by simp [hc])
    simp only [loadOf, List.length_cons, Nat.add_mul]
    omega

theorem Box.part_extent_lt {b : Box} {corner : Axes Bool} (hp : (b.part corner).isEmpty = false)
    (hs : (b.part corner).isPixel = false) :
    (b.part corner).extent.x + (b.part corner).extent.y + (b.part corner).extent.z <
      b.extent.x + b.extent.y + b.extent.z := by
  obtain ⟨cx, cy, cz⟩ := corner
  obtain ⟨o, ⟨x, y, z⟩, l⟩ := b
  cases cx <;> cases cy <;> cases cz <;>
    simp [Box.part, Box.isEmpty, Box.isPixel, Axes.isFlat, Axes.map, Axes.zipWith] at hp hs ⊢ <;>
    omega

theorem Box.loadOf_parts_lt (b : Box) :
    loadOf (b.parts.filter fun p => !p.isPixel) < b.load := by
  have hn : (b.parts.filter fun p => !p.isPixel).length ≤ 8 := by
    refine Nat.le_trans (List.length_filter_le _ _) (Nat.le_trans (List.length_filter_le _ _) ?_)
    simp [corners]
  have hlt : ∀ p ∈ b.parts.filter fun p => !p.isPixel, p.extent.x + p.extent.y + p.extent.z <
      b.extent.x + b.extent.y + b.extent.z := by
    intro p hp
    obtain ⟨hp, hs⟩ := List.mem_filter.mp hp
    obtain ⟨hp, he⟩ := List.mem_filter.mp hp
    obtain ⟨corner, _, rfl⟩ := List.mem_map.mp hp
    exact Box.part_extent_lt (by simpa using he) (by simpa using hs)
  have hb : loadOf (b.parts.filter fun p => !p.isPixel) ≤
      (b.parts.filter fun p => !p.isPixel).length *
        9 ^ (b.extent.x + b.extent.y + b.extent.z - 1) :=
    loadOf_le fun p hp => Nat.pow_le_pow_right (by decide) (by have := hlt p hp; omega)
  by_cases h0 : b.extent.x + b.extent.y + b.extent.z = 0
  · have : (b.parts.filter fun p => !p.isPixel) = [] := by
      apply List.eq_nil_iff_forall_not_mem.mpr
      intro p hp
      have := hlt p hp
      omega
    rw [this]
    simp [loadOf, Box.load, h0]
  · have hpow : b.load = 9 ^ (b.extent.x + b.extent.y + b.extent.z - 1) * 9 := by
      rw [Box.load, Nat.pow_eq, ← Nat.pow_succ]
      congr 1
      omega
    have hpos : 0 < 9 ^ (b.extent.x + b.extent.y + b.extent.z - 1) := Nat.pow_pos (by decide)
    have := Nat.mul_le_mul_right (9 ^ (b.extent.x + b.extent.y + b.extent.z - 1)) hn
    omega

/-- The boxes found significant among some boxes, the last one first. -/
abbrev Found (boxes : List Box) :=
  { found : List Box // loadOf found ≤ loadOf (boxes.filter fun b => !b.isPixel) }

namespace Found

def none : Found [] :=
  ⟨[], Nat.le_refl _⟩

def skip {rest : List Box} (b : Box) (found : Found rest) : Found (b :: rest) :=
  ⟨found.1, by
    refine Nat.le_trans found.2 ?_
    rw [List.filter_cons]
    split
    next => simp [loadOf]
    next => exact Nat.le_refl _⟩

def add {rest : List Box} (b : Box) (h : b.isPixel = false) (found : Found rest) :
    Found (b :: rest) :=
  ⟨found.1 ++ [b], by
    have := found.2
    simp only [loadOf_append, loadOf, List.filter_cons, h, Bool.not_false, if_true] at *
    omega⟩

end Found

end VolumeCodec
