import VolumeCodec.Tiling

namespace VolumeCodec

variable {length nominal : Nat}

theorem length_spans (length nominal : Nat) :
    (spans length nominal).length = spanCount length nominal := by
  simp [spans]

theorem spanCount_le (h : 0 < length) : spanCount length nominal ≤ length := by
  have hdiv := Nat.div_add_mod length nominal
  have hle := Nat.div_le_self length nominal
  unfold spanCount
  split
  next hm =>
    rcases Nat.eq_zero_or_pos nominal with rfl | hn
    · rw [Nat.div_zero]
      omega
    · have hmul : length / nominal ≤ nominal * (length / nominal) := Nat.le_mul_of_pos_left _ hn
      omega
  next => omega

theorem spanCount_pos (length nominal : Nat) : 0 < spanCount length nominal :=
  Nat.le_max_right _ 1

theorem le_of_mem_spans {s : Nat × Nat} (h : s ∈ spans length nominal) : s.2 ≤ length := by
  unfold spans at h
  obtain ⟨i, hi, rfl⟩ := List.mem_map.mp h
  rw [List.mem_range] at hi
  dsimp only
  split
  next => exact Nat.sub_le _ _
  next hlast =>
    have hcount : 1 < spanCount length nominal := by omega
    unfold spanCount at hcount
    have hdiv : 0 < length / nominal := by
      split at hcount <;> omega
    exact (Nat.div_pos_iff.mp hdiv).2

theorem mul_lt_of_lt_spanCount {i : Nat} (hl : 0 < length) (hi : i < spanCount length nominal) :
    i * nominal < length := by
  rcases Nat.eq_zero_or_pos i with rfl | hpos
  · rwa [Nat.zero_mul]
  · have hdiv := Nat.div_add_mod length nominal
    rw [Nat.mul_comm] at hdiv
    unfold spanCount at hi
    split at hi
    next hm =>
      have hle : i * nominal ≤ length / nominal * nominal :=
        Nat.mul_le_mul_right nominal (by omega)
      omega
    next =>
      have hle : (i + 1) * nominal ≤ length / nominal * nominal :=
        Nat.mul_le_mul_right nominal (by omega)
      rw [Nat.succ_mul] at hle
      rcases Nat.eq_zero_or_pos nominal with rfl | hn
      · rwa [Nat.mul_zero]
      · omega

/-- Spans are not empty and do not leave the axis. -/
theorem inside_of_mem_spans {s : Nat × Nat} (hl : 0 < length) (hn : 0 < nominal)
    (h : s ∈ spans length nominal) : 0 < s.2 ∧ s.1 + s.2 ≤ length := by
  unfold spans at h
  obtain ⟨i, hi, rfl⟩ := List.mem_map.mp h
  rw [List.mem_range] at hi
  have hstart := mul_lt_of_lt_spanCount hl hi
  dsimp only
  split
  next => omega
  next hlast =>
    have hend := mul_lt_of_lt_spanCount hl (show i + 1 < spanCount length nominal by omega)
    rw [Nat.succ_mul] at hend
    omega

section Tiles

variable {volume extents : Extents} {ts : List Tile}

theorem checkTiling_of_tiles (h : tiles volume extents = .ok ts) :
    checkTiling volume extents = .ok () ∧ ts = (spans volume.z extents.z).flatMap fun z =>
      (spans volume.y extents.y).flatMap fun y => (spans volume.x extents.x).map fun x =>
        ⟨⟨x.1, y.1, z.1⟩, ⟨x.2, y.2, z.2⟩⟩ := by
  unfold tiles at h
  cases hc : checkTiling volume extents with
  | error e =>
    rw [hc] at h
    cases h
  | ok u =>
    rw [hc] at h
    cases h
    exact ⟨rfl, rfl⟩

theorem tileCount_of_tiles (h : tiles volume extents = .ok ts) :
    tileCount volume extents = .ok ts.length := by
  obtain ⟨hc, rfl⟩ := checkTiling_of_tiles h
  unfold tileCount
  rw [hc]
  apply congrArg Except.ok
  simp only [List.length_flatMap, List.length_map, length_spans, Axes.volume, Axes.zipWith,
    List.map_const', List.sum_replicate_nat]
  rw [Nat.mul_comm, Nat.mul_comm (spanCount volume.x extents.x)]

theorem validate_of_checkTiling (h : checkTiling volume extents = .ok ()) :
    volume.validate = .ok () := by
  unfold checkTiling at h
  cases hv : volume.validate with
  | error e =>
    rw [hv] at h
    cases h
  | ok u => rfl

theorem not_isFlat_of_checkTiling (h : checkTiling volume extents = .ok ()) :
    extents.isFlat = false := by
  cases hf : extents.isFlat with
  | false => rfl
  | true =>
    have hv := validate_of_checkTiling h
    unfold checkTiling at h
    rw [hv, hf] at h
    cases h

theorem length_tiles (h : tiles volume extents = .ok ts) :
    ts.length = (volume.zipWith spanCount extents).volume := by
  have hcount := tileCount_of_tiles h
  unfold tileCount at hcount
  rw [(checkTiling_of_tiles h).1] at hcount
  exact (Except.ok.inj hcount).symm

theorem length_tiles_pos (h : tiles volume extents = .ok ts) : 0 < ts.length := by
  rw [length_tiles h]
  exact Nat.mul_pos (Nat.mul_pos (spanCount_pos _ _) (spanCount_pos _ _)) (spanCount_pos _ _)

/-- A tile is a span of each axis. -/
theorem mem_tiles_iff (h : tiles volume extents = .ok ts) {t : Tile} : t ∈ ts ↔
    (t.start.x, t.extent.x) ∈ spans volume.x extents.x ∧
      (t.start.y, t.extent.y) ∈ spans volume.y extents.y ∧
        (t.start.z, t.extent.z) ∈ spans volume.z extents.z := by
  obtain ⟨-, rfl⟩ := checkTiling_of_tiles h
  constructor
  · intro ht
    obtain ⟨z, hz, ht⟩ := List.mem_flatMap.mp ht
    obtain ⟨y, hy, ht⟩ := List.mem_flatMap.mp ht
    obtain ⟨x, hx, rfl⟩ := List.mem_map.mp ht
    exact ⟨hx, hy, hz⟩
  · intro ht
    obtain ⟨hx, hy, hz⟩ := ht
    exact List.mem_flatMap.mpr ⟨_, hz, List.mem_flatMap.mpr ⟨_, hy, List.mem_map.mpr ⟨_, hx, rfl⟩⟩⟩

theorem volume_le_of_mem_tiles (h : tiles volume extents = .ok ts) {t : Tile} (ht : t ∈ ts) :
    t.extent.volume ≤ volume.volume := by
  obtain ⟨hx, hy, hz⟩ := (mem_tiles_iff h).mp ht
  exact Nat.mul_le_mul (Nat.mul_le_mul (le_of_mem_spans hx) (le_of_mem_spans hy))
    (le_of_mem_spans hz)

end Tiles

end VolumeCodec
