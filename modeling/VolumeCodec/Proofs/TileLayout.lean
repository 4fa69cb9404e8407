import VolumeCodec.Proofs.TileCover

namespace VolumeCodec

section Axis

variable {length nominal : Nat}

/-- A span begins where the ones before it have ended. -/
theorem pairwise_spans (length nominal : Nat) :
    (spans length nominal).Pairwise fun s s' => s.1 + s.2 ≤ s'.1 := by
  unfold spans
  rw [List.pairwise_map]
  refine List.pairwise_lt_range.imp_of_mem fun {i j} _ hj hij => ?_
  rw [List.mem_range] at hj
  dsimp only
  rw [if_neg (by omega), ← Nat.succ_mul]
  exact Nat.mul_le_mul_right nominal hij

theorem pairwise_starts (hl : 0 < length) (hn : 0 < nominal) :
    (spans length nominal).Pairwise (·.1 < ·.1) :=
  (pairwise_spans length nominal).imp_of_mem fun {s _} hs _ hend => by
    obtain ⟨hpos, -⟩ := inside_of_mem_spans hl hn hs
    omega

theorem exists_unique_span (nominal : Nat) {i : Nat} (hi : i < length) :
    ∃! s, s ∈ spans length nominal ∧ s.1 ≤ i ∧ i < s.1 + s.2 := by
  have hcover : ((spans length nominal).flatMap fun s => List.range' s.1 s.2) = List.range length :=
    flatMap_spans (Nat.zero_lt_of_lt hi)
  have hmem := List.mem_range.mpr hi
  rw [← hcover] at hmem
  obtain ⟨s, hs, hin⟩ := List.mem_flatMap.mp hmem
  rw [List.mem_range'_1] at hin
  refine ⟨s, ⟨hs, hin⟩, fun s' h' => ?_⟩
  obtain ⟨hs', hin'⟩ := h'
  have hpairs : (spans length nominal).Pairwise fun s s' =>
      s.1 + s.2 ≤ s'.1 ∨ s'.1 + s'.2 ≤ s.1 := (pairwise_spans length nominal).imp .inl
  have : Std.Symm fun s s' : Nat × Nat => s.1 + s.2 ≤ s'.1 ∨ s'.1 + s'.2 ≤ s.1 :=
    ⟨fun _ _ h => h.symm⟩
  by_contra hne
  have hapart := hpairs.forall hs' hs hne
  omega

/-- How long a span is: more than half of the nominal length, and at most the nominal length and a
half; or it is the whole of an axis that is no longer than half of the nominal length. -/
def IsFitting (length nominal start extent : Nat) : Prop :=
  nominal < 2 * extent ∧ extent ≤ nominal + nominal / 2 ∨
    start = 0 ∧ extent = length ∧ 2 * length ≤ nominal

/-- What is left for the last span of an axis. -/
theorem isFitting_last (hn : 0 < nominal) {i : Nat} (h : i + 1 = spanCount length nominal) :
    IsFitting length nominal (i * nominal) (length - i * nominal) := by
  have hdiv := Nat.div_add_mod length nominal
  have hmod := Nat.mod_lt length hn
  rw [Nat.mul_comm] at hdiv
  unfold spanCount at h
  unfold IsFitting
  generalize length / nominal = whole at h hdiv
  generalize length % nominal = rest at h hdiv hmod
  split at h
  next hlong =>
    obtain rfl : i = whole := by omega
    omega
  next hshort =>
    cases whole with
    | zero =>
      obtain rfl : i = 0 := by omega
      omega
    | succ k =>
      obtain rfl : i = k := by omega
      rw [Nat.succ_mul] at hdiv
      omega

theorem isFitting_of_mem_spans (hn : 0 < nominal) {s : Nat × Nat}
    (h : s ∈ spans length nominal) : IsFitting length nominal s.1 s.2 := by
  unfold spans at h
  obtain ⟨i, hi, rfl⟩ := List.mem_map.mp h
  dsimp only
  split
  next hlast => exact isFitting_last hn hlast
  next => exact .inl ⟨by omega, by omega⟩

end Axis

namespace Tile

/-- A point lies in a tile. -/
def Contains (t : Tile) (p : Extents) : Prop :=
  (t.start.x ≤ p.x ∧ p.x < t.start.x + t.extent.x) ∧
    (t.start.y ≤ p.y ∧ p.y < t.start.y + t.extent.y) ∧
      (t.start.z ≤ p.z ∧ p.z < t.start.z + t.extent.z)

/-- The order of tiles in which x is the fastest axis. -/
def Precedes (t t' : Tile) : Prop :=
  t.start.z < t'.start.z ∨ t.start.z = t'.start.z ∧
    (t.start.y < t'.start.y ∨ t.start.y = t'.start.y ∧ t.start.x < t'.start.x)

end Tile

section Tiles

variable {dims nominal : Extents} {ts : List Tile}

theorem exists_tiles (hd : dims.validate = .ok ()) (hn : nominal.isFlat = false) :
    ∃ ts, tiles dims nominal = .ok ts := by
  unfold tiles checkTiling
  rw [hd, hn]
  exact ⟨_, rfl⟩

theorem exists_unique_tile (h : tiles dims nominal = .ok ts) {p : Extents} (hx : p.x < dims.x)
    (hy : p.y < dims.y) (hz : p.z < dims.z) : ∃! t, t ∈ ts ∧ t.Contains p := by
  have hx := exists_unique_span nominal.x hx
  have hy := exists_unique_span nominal.y hy
  have hz := exists_unique_span nominal.z hz
  obtain ⟨x, hxs, hpx⟩ := hx.exists
  obtain ⟨y, hys, hpy⟩ := hy.exists
  obtain ⟨z, hzs, hpz⟩ := hz.exists
  have hin := (mem_tiles_iff (t := ⟨⟨x.1, y.1, z.1⟩, ⟨x.2, y.2, z.2⟩⟩) h).mpr ⟨hxs, hys, hzs⟩
  refine ⟨_, ⟨hin, hpx, hpy, hpz⟩, fun t ht => ?_⟩
  obtain ⟨hmem, htx, hty, htz⟩ := ht
  obtain ⟨hmx, hmy, hmz⟩ := (mem_tiles_iff h).mp hmem
  rw [← hx.unique ⟨hmx, htx⟩ ⟨hxs, hpx⟩, ← hy.unique ⟨hmy, hty⟩ ⟨hys, hpy⟩,
    ← hz.unique ⟨hmz, htz⟩ ⟨hzs, hpz⟩]

theorem pairwise_precedes (h : tiles dims nominal = .ok ts) : ts.Pairwise Tile.Precedes := by
  obtain ⟨hc, rfl⟩ := checkTiling_of_tiles h
  obtain ⟨hx, hy, hz⟩ := pos_of_validate (validate_of_checkTiling hc)
  obtain ⟨hnx, hny, hnz⟩ := isFlat_eq_false_iff.mp (not_isFlat_of_checkTiling hc)
  refine List.pairwise_flatMap.mpr ⟨fun z _ => ?_, ?_⟩
  · refine List.pairwise_flatMap.mpr ⟨fun y _ => ?_, ?_⟩
    · refine List.pairwise_map.mpr ((pairwise_starts hx hnx).imp fun hlt => ?_)
      exact .inr ⟨rfl, .inr ⟨rfl, hlt⟩⟩
    · refine (pairwise_starts hy hny).imp fun hlt t ht t' ht' => ?_
      obtain ⟨x, -, rfl⟩ := List.mem_map.mp ht
      obtain ⟨x', -, rfl⟩ := List.mem_map.mp ht'
      exact .inr ⟨rfl, .inl hlt⟩
  · refine (pairwise_starts hz hnz).imp fun hlt t ht t' ht' => ?_
    obtain ⟨y, -, ht⟩ := List.mem_flatMap.mp ht
    obtain ⟨x, -, rfl⟩ := List.mem_map.mp ht
    obtain ⟨y', -, ht'⟩ := List.mem_flatMap.mp ht'
    obtain ⟨x', -, rfl⟩ := List.mem_map.mp ht'
    exact .inl hlt

/-- Machine words count the tiles of a volume. -/
theorem toNat_tileCount (h : tiles dims nominal = .ok ts) :
    (dims.zipWith spanCount nominal).machineVolume.toNat = ts.length := by
  obtain ⟨hc, -⟩ := checkTiling_of_tiles h
  have hd := validate_of_checkTiling hc
  obtain ⟨hx, hy, hz⟩ := pos_of_validate hd
  have hflat : (dims.zipWith spanCount nominal).isFlat = false :=
    isFlat_eq_false_iff.mpr ⟨spanCount_pos _ _, spanCount_pos _ _, spanCount_pos _ _⟩
  have hle : (dims.zipWith spanCount nominal).volume ≤ dims.volume :=
    Nat.mul_le_mul (Nat.mul_le_mul (spanCount_le hx) (spanCount_le hy)) (spanCount_le hz)
  have hvolume := Nat.lt_of_le_of_lt hle (validate_eq_ok_iff.mp hd).2
  rw [toNat_machineVolume (validate_eq_ok_iff.mpr ⟨hflat, hvolume⟩), length_tiles h]

/-- The tiles of a volume fill it. Each point lies in just one of them, none is empty or leaves the
volume, those along x come first, and machine words count them, before they are made as well as
after. On each axis they are about as long as they should be, or as long as the axis is. -/
theorem tiles_fill (hd : dims.validate = .ok ()) (hn : nominal.isFlat = false) :
    ∃ ts, tiles dims nominal = .ok ts ∧
      (∀ p : Extents, p.x < dims.x → p.y < dims.y → p.z < dims.z →
        ∃! t, t ∈ ts ∧ t.Contains p) ∧
      (∀ t ∈ ts, t.IsInside dims) ∧
      ts.Pairwise Tile.Precedes ∧
      tileCount dims nominal = .ok ts.length ∧
      (dims.zipWith spanCount nominal).machineVolume.toNat = ts.length ∧
      ∀ t ∈ ts, IsFitting dims.x nominal.x t.start.x t.extent.x ∧
        IsFitting dims.y nominal.y t.start.y t.extent.y ∧
          IsFitting dims.z nominal.z t.start.z t.extent.z := by
  obtain ⟨ts, h⟩ := exists_tiles hd hn
  obtain ⟨hnx, hny, hnz⟩ := isFlat_eq_false_iff.mp hn
  refine ⟨ts, h, fun p hx hy hz => exists_unique_tile h hx hy hz,
    fun t ht => isInside_of_mem_tiles h ht, pairwise_precedes h, tileCount_of_tiles h,
    toNat_tileCount h, fun t ht => ?_⟩
  obtain ⟨hx, hy, hz⟩ := (mem_tiles_iff h).mp ht
  exact ⟨isFitting_of_mem_spans hnx hx, isFitting_of_mem_spans hny hy,
    isFitting_of_mem_spans hnz hz⟩

/-- An axis with a rest that goes to the last span, one with a rest of its own, and one that is
shorter than half a tile. -/
theorem tiles_fill_uneven :
    let dims : Extents := ⟨12, 13, 3⟩
    let nominal : Extents := ⟨5, 5, 8⟩
    ∃ ts, tiles dims nominal = .ok ts ∧
      ts.map (·.extent) = [⟨5, 5, 3⟩, ⟨7, 5, 3⟩, ⟨5, 5, 3⟩, ⟨7, 5, 3⟩, ⟨5, 3, 3⟩, ⟨7, 3, 3⟩] ∧
      ∃! t, t ∈ ts ∧ t.Contains ⟨11, 12, 2⟩ := by
  intro dims nominal
  have hd : dims.validate = .ok () := rfl
  have hn : nominal.isFlat = false := rfl
  obtain ⟨ts, h, hpoint, -⟩ := tiles_fill hd hn
  refine ⟨ts, h, ?_, hpoint ⟨11, 12, 2⟩ (by decide) (by decide) (by decide)⟩
  obtain ⟨-, rfl⟩ := checkTiling_of_tiles h
  decide

end Tiles

end VolumeCodec
