import VolumeCodec.Proofs.AcceptedOutput
import VolumeCodec.Proofs.TileContents

namespace VolumeCodec

/-- What becomes of a tile that is compressed alone, as a volume of its own, and decompressed. -/
def tileAlone (mode : Mode) (data : Array Float) (dims : Extents) (t : Tile) :
    Except Fault Volume := do
  let bytes ← compress .unbounded ⟨mode.forTile t dims.volume, none⟩
    ((t.gather? dims data).getD #[]) t.extent
  decompress .unbounded none bytes

section Tiles

variable {mode : Mode} {data : Array Float} {dims nominal : Extents} {ts : List Tile}

/-- A tile of a volume is a volume that may be compressed. -/
theorem checkVolume_part {t : Tile} {part : Array Float} (hcheck : checkVolume data dims = .ok ())
    (hts : tiles dims nominal = .ok ts) (ht : t ∈ ts) (hpart : t.gather? dims data = some part) :
    checkVolume part t.extent = .ok () := by
  obtain ⟨hd, hs, hv, hfinite⟩ := checkVolume_eq_ok_iff.mp hcheck
  have hin := isInside_of_mem_tiles hts ht
  refine checkVolume_eq_ok_iff.mpr
    ⟨hin.validate hd, hin.size_of_gather hs hpart, hin.volume_le.trans hv, ?_⟩
  intro x hx
  have hmem : some x ∈ part.toList.map some := List.mem_map_of_mem (Array.mem_toList_iff.mpr hx)
  rw [(hin.gather_eq_some_iff hs).mp hpart] at hmem
  obtain ⟨i, -, hi⟩ := List.mem_map.mp hmem
  exact hfinite x (Array.mem_of_getElem? hi)

/-- The block of a tile in a container is the container of the tile alone. -/
structure IsOwnBlock (mode : Mode) (data : Array Float) (dims : Extents) (t : Tile)
    (block : List UInt8) : Prop where
  compressed : ∃ part, t.gather? dims data = some part ∧
    compress .unbounded ⟨mode.forTile t dims.volume, none⟩ part t.extent = .ok block
  readBack : ReadBack (mode.forTile t dims.volume) t.extent block

theorem isOwnBlock_of_compressWhole (hm : mode.check = .ok ())
    (hcheck : checkVolume data dims = .ok ()) (hts : tiles dims nominal = .ok ts) {t : Tile}
    (ht : t ∈ ts) {block : List UInt8}
    (h : compressWhole .unbounded (mode.forTile t dims.volume) ((t.gather? dims data).getD #[])
      t.extent = .ok block) (hback : ReadBack (mode.forTile t dims.volume) t.extent block) :
    IsOwnBlock mode data dims t block := by
  obtain ⟨-, hs, -, -⟩ := checkVolume_eq_ok_iff.mp hcheck
  obtain ⟨part, hpart, -⟩ := (isInside_of_mem_tiles hts ht).gather hs
  refine ⟨⟨part, hpart, ?_⟩, hback⟩
  rw [hpart, Option.getD_some] at h
  unfold compress
  rw [Mode.check_forTile, hm, ← h]
  show (checkVolume part t.extent >>= fun _ => _) = _
  rw [checkVolume_part hcheck hts ht hpart]
  rfl

namespace IsOwnBlock

variable {t : Tile} {block : List UInt8}

theorem tileAlone_eq (h : IsOwnBlock mode data dims t block) :
    tileAlone mode data dims t = decompress .unbounded none block := by
  obtain ⟨part, hpart, hcompress⟩ := h.compressed
  unfold tileAlone
  rw [hpart, Option.getD_some, hcompress]
  rfl

theorem eq_of_tileAlone (h : IsOwnBlock mode data dims t block) {v : Volume}
    (hv : tileAlone mode data dims t = .ok v) :
    v = ⟨t.extent, v.data⟩ ∧ v.data.size = t.extent.volume := by
  rw [h.tileAlone_eq, h.readBack.whole] at hv
  obtain ⟨values, hvalues, hsize⟩ := h.readBack.accepted (h.readBack.finite v hv)
  obtain rfl := Except.ok.inj (hv.symm.trans hvalues)
  exact ⟨rfl, hsize⟩

theorem decompressTile_eq (h : IsOwnBlock mode data dims t block) :
    decompressTile .unbounded none dims.volume t block =
      Volume.data <$> tileAlone mode data dims t := by
  have hsound := fun v hv => (h.eq_of_tileAlone (v := v) hv).1
  rw [h.tileAlone_eq, h.readBack.whole] at hsound ⊢
  unfold decompressTile
  rw [Option.map_none]
  cases hv : decompressWhole .unbounded none block with
  | error fault => rfl
  | ok v =>
    have hdims : v.dims = t.extent := congrArg Volume.dims (hsound v hv)
    exact if_neg fun hne => hne hdims

end IsOwnBlock

/-- A container with tiles is decompressed as each of them alone. -/
theorem decompress_tiles_eq (hm : mode.check = .ok ()) (hn : nominal.volume ≤ maxElements)
    {bytes : List UInt8} (h : compressTiles .unbounded mode data dims nominal = .ok bytes) :
    ∃ ts, tiles dims nominal = .ok ts ∧ checkVolume data dims = .ok () ∧
      (∀ t ∈ ts, ∃ block, IsOwnBlock mode data dims t block) ∧
      decompress .unbounded none bytes = (do
        let values ← ts.mapM fun t => (t, ·) <$> Volume.data <$> tileAlone mode data dims t
        pure ⟨dims, assemble dims values⟩) := by
  obtain ⟨ts, blocks, hcheck, hts, rfl, hlength, hwritten, hback, hsmall⟩ :=
    writtenTiles_of_compressTiles hm h
  obtain ⟨hd, -, hv, -⟩ := checkVolume_eq_ok_iff.mp hcheck
  have hflat := not_isFlat_of_checkTiling (checkTiling_of_tiles hts).1
  obtain ⟨declared, hdeclared⟩ := (declaredExtents_succeeds_iff hflat).mpr hn
  have hw : nominal.AreWords := areWords_of_validate (declaredExtents_eq_ok hdeclared).1
  have hown : ∀ p ∈ ts.zip blocks, IsOwnBlock mode data dims p.1 p.2 := fun p hp =>
    isOwnBlock_of_compressWhole hm hcheck hts (List.of_mem_zip hp).1 (hwritten p hp) (hback p hp)
  have hfirst : (ts.zip blocks).map (·.1) = ts := List.map_fst_zip (Nat.le_of_eq hlength.symm)
  refine ⟨ts, hts, hcheck, fun t ht => ?_, ?_⟩
  · rw [← hfirst] at ht
    obtain ⟨p, hp, rfl⟩ := List.mem_map.mp ht
    exact ⟨p.2, hown p hp⟩
  · rw [decompress_tiledBytes blocks none hd hv hw hts hlength hsmall, hdeclared,
      mapM_congr fun p hp => congrArg ((p.1, ·) <$> ·) (hown p hp).decompressTile_eq]
    conv => rhs; rw [← hfirst, List.mapM_map]
    rfl

theorem tileAlone_congr {data' : Array Float} {t : Tile}
    (h : t.gather? dims data = t.gather? dims data') :
    tileAlone mode data dims t = tileAlone mode data' dims t := by
  unfold tileAlone
  rw [h]

/-- Tiles that are put together hold what became of each of them alone. -/
theorem gather_assemble (hts : tiles dims nominal = .ok ts)
    (hown : ∀ t ∈ ts, ∃ block, IsOwnBlock mode data dims t block)
    {values : List (Tile × Array Float)}
    (h : (ts.mapM fun t => (t, ·) <$> Volume.data <$> tileAlone mode data dims t) = .ok values) :
    ∀ t ∈ ts, ∃ part, tileAlone mode data dims t = .ok ⟨t.extent, part⟩ ∧
      t.gather? dims (assemble dims values) = some part := by
  obtain ⟨hkeys, hvalues⟩ := mapM_keyed h
  have halone : ∀ p ∈ values, tileAlone mode data dims p.1 = .ok ⟨p.1.extent, p.2⟩ ∧
      p.2.size = p.1.extent.volume := by
    intro p hp
    obtain ⟨block, hblock⟩ := hown p.1 (hkeys ▸ List.mem_map_of_mem hp)
    have hdata := hvalues p hp
    rw [map_eq_pure_bind] at hdata
    obtain ⟨v, hv, hdata⟩ := ok_of_bind hdata
    obtain ⟨heq, hsize⟩ := hblock.eq_of_tileAlone hv
    rw [Except.ok.inj hdata] at heq hsize
    exact ⟨hv.trans (congrArg Except.ok heq), hsize⟩
  have hapart := Tile.areApart_of_tiles hts hkeys fun p hp => (halone p hp).2
  have hblank : (Array.replicate dims.volume (0 : Float)).size = dims.volume := Array.size_replicate
  obtain ⟨-, hgather, -⟩ := Tile.scatterAll_spec hapart hblank
  intro t ht
  rw [← hkeys] at ht
  obtain ⟨p, hp, rfl⟩ := List.mem_map.mp ht
  exact ⟨p.2, (halone p hp).1, hgather p hp⟩

/-- A decompressed volume holds in each tile what became of the tile alone. -/
structure IsPutTogether (mode : Mode) (data : Array Float) (dims : Extents) (ts : List Tile)
    (v : Volume) : Prop where
  dims_eq : v.dims = dims
  size : v.data.size = dims.volume
  parts : ∀ t ∈ ts, ∃ part, tileAlone mode data dims t = .ok ⟨t.extent, part⟩ ∧
    t.gather? dims v.data = some part

theorem isPutTogether_of_decompress (hm : mode.check = .ok ()) (hn : nominal.volume ≤ maxElements)
    {bytes : List UInt8} (h : compressTiles .unbounded mode data dims nominal = .ok bytes)
    (hts : tiles dims nominal = .ok ts) {v : Volume}
    (hv : decompress .unbounded none bytes = .ok v) : IsPutTogether mode data dims ts v := by
  obtain ⟨listed, hlisted, -, hown, heq⟩ := decompress_tiles_eq hm hn h
  obtain rfl := Except.ok.inj (hts.symm.trans hlisted)
  rw [heq] at hv
  obtain ⟨values, hvalues, hv⟩ := ok_of_bind hv
  obtain rfl := Except.ok.inj hv
  exact ⟨rfl, size_assemble dims values, gather_assemble hts hown hvalues⟩

namespace IsPutTogether

variable {data' : Array Float} {v v' : Volume}

theorem gather_eq (h : IsPutTogether mode data dims ts v) (h' : IsPutTogether mode data' dims ts v')
    {t : Tile} (ht : t ∈ ts) (hsame : t.gather? dims data = t.gather? dims data') :
    t.gather? dims v.data = t.gather? dims v'.data := by
  obtain ⟨part, halone, hgather⟩ := h.parts t ht
  obtain ⟨part', halone', hgather'⟩ := h'.parts t ht
  rw [tileAlone_congr hsame, halone'] at halone
  cases halone
  rw [hgather, hgather']

/-- Volumes that agree on a tile are restored alike there. -/
theorem agree_on (h : IsPutTogether mode data dims ts v) (h' : IsPutTogether mode data' dims ts v')
    (hts : tiles dims nominal = .ok ts) (hs : data.size = dims.volume)
    (hs' : data'.size = dims.volume) {t : Tile} (ht : t ∈ ts)
    (hsame : ∀ i ∈ t.places dims, data[i]? = data'[i]?) :
    ∀ i ∈ t.places dims, v.data[i]? = v'.data[i]? := by
  have hin := isInside_of_mem_tiles hts ht
  have hgather := h.gather_eq h' ht ((hin.gather_congr_iff hs hs').mpr hsame)
  exact (hin.gather_congr_iff h.size h'.size).mp hgather

/-- Volumes that agree everywhere but on a tile are restored alike everywhere else. -/
theorem agree_off (h : IsPutTogether mode data dims ts v) (h' : IsPutTogether mode data' dims ts v')
    (hts : tiles dims nominal = .ok ts) (hs : data.size = dims.volume)
    (hs' : data'.size = dims.volume) {t : Tile} (ht : t ∈ ts)
    (hsame : ∀ i, i ∉ t.places dims → data[i]? = data'[i]?) :
    ∀ i, i ∉ t.places dims → v.data[i]? = v'.data[i]? := by
  intro i hi
  rcases Nat.lt_or_ge i dims.volume with hlt | hge
  -- The element lies in another tile, on which the volumes agree.
  · obtain ⟨other, hother, hmem⟩ := exists_tile_of_lt hts hlt
    refine h.agree_on h' hts hs hs' hother (fun j hj => hsame j fun hjt => hi ?_) i hmem
    rwa [tile_unique hts ht hother hjt hj]
  · rw [Array.getElem?_eq_none (h.size ▸ hge), Array.getElem?_eq_none (h'.size ▸ hge)]

end IsPutTogether

end Tiles

/-- Each tile of a volume has a container of its own, and the whole is decompressed exactly if all of
these are. Then every tile holds what became of it alone. What is restored in a tile depends on the
data of this tile only, and what is restored outside of it does not depend on its data. -/
theorem tiles_independent {mode : Mode} {data : Array Float} {dims nominal : Extents}
    {bytes : List UInt8} (hn : nominal.volume ≤ maxElements)
    (h : compress .unbounded ⟨mode, some nominal⟩ data dims = .ok bytes) :
    ∃ ts, tiles dims nominal = .ok ts ∧
      (∀ t ∈ ts, ∃ part block, t.gather? dims data = some part ∧
        compress .unbounded ⟨mode.forTile t dims.volume, none⟩ part t.extent = .ok block ∧
        tileAlone mode data dims t = decompress .unbounded none block) ∧
      ((∃ v, decompress .unbounded none bytes = .ok v) ↔
        ∀ t ∈ ts, ∃ v, tileAlone mode data dims t = .ok v) ∧
      (∀ v, decompress .unbounded none bytes = .ok v → IsPutTogether mode data dims ts v) ∧
      ∀ data' bytes' v v', compress .unbounded ⟨mode, some nominal⟩ data' dims = .ok bytes' →
        decompress .unbounded none bytes = .ok v → decompress .unbounded none bytes' = .ok v' →
          ∀ t ∈ ts,
            ((∀ i ∈ t.places dims, data[i]? = data'[i]?) →
              ∀ i ∈ t.places dims, v.data[i]? = v'.data[i]?) ∧
            ((∀ i, i ∉ t.places dims → data[i]? = data'[i]?) →
              ∀ i, i ∉ t.places dims → v.data[i]? = v'.data[i]?) := by
  obtain ⟨_, hm, h⟩ := ok_of_bind h
  obtain ⟨ts, hts, hcheck, hown, heq⟩ := decompress_tiles_eq hm hn h
  refine ⟨ts, hts, fun t ht => ?_, ?_, fun v hv => isPutTogether_of_decompress hm hn h hts hv, ?_⟩
  · obtain ⟨block, hblock⟩ := hown t ht
    obtain ⟨part, hpart, hcompress⟩ := hblock.compressed
    exact ⟨part, block, hpart, hcompress, hblock.tileAlone_eq⟩
  · rw [heq]
    constructor
    · intro hok t ht
      obtain ⟨v, hv⟩ := hok
      obtain ⟨values, hvalues, -⟩ := ok_of_bind hv
      obtain ⟨part, hpart, -⟩ := gather_assemble hts hown hvalues t ht
      exact ⟨_, hpart⟩
    · intro hok
      have hkeyed : ∃ values, (ts.mapM fun t =>
          (t, ·) <$> Volume.data <$> tileAlone mode data dims t) = .ok values := by
        apply mapM_succeeds_iff.mpr
        intro t ht
        obtain ⟨v, hv⟩ := hok t ht
        rw [hv]
        exact ⟨_, rfl⟩
      obtain ⟨values, hvalues⟩ := hkeyed
      rw [hvalues]
      exact ⟨_, rfl⟩
  · intro data' bytes' v v' h' hv hv' t ht
    obtain ⟨_, -, h'⟩ := ok_of_bind h'
    obtain ⟨-, -, hcheck', -⟩ := decompress_tiles_eq hm hn h'
    obtain ⟨-, hs, -⟩ := checkVolume_eq_ok_iff.mp hcheck
    obtain ⟨-, hs', -⟩ := checkVolume_eq_ok_iff.mp hcheck'
    have hall := isPutTogether_of_decompress hm hn h hts hv
    have hall' := isPutTogether_of_decompress hm hn h' hts hv'
    exact ⟨hall.agree_on hall' hts hs hs' ht, hall.agree_off hall' hts hs hs' ht⟩

/-- The case of two values, each of which is a tile. -/
theorem tiles_independent_pair : (⟨1, 1, 1⟩ : Extents).volume ≤ maxElements ∧ ∃ bytes v values,
    compress .unbounded ⟨.lossless, some ⟨1, 1, 1⟩⟩ #[1, 3] ⟨2, 1, 1⟩ = .ok bytes ∧
      decompress .unbounded none bytes = .ok v ∧
      tileAlone .lossless #[1, 3] ⟨2, 1, 1⟩ ⟨⟨1, 0, 0⟩, ⟨1, 1, 1⟩⟩ = .ok ⟨⟨1, 1, 1⟩, values⟩ ∧
      (⟨⟨1, 0, 0⟩, ⟨1, 1, 1⟩⟩ : Tile).gather? ⟨2, 1, 1⟩ v.data = some values := by
  have hn : (⟨1, 1, 1⟩ : Extents).volume ≤ maxElements := by decide
  obtain ⟨blocks, hbytes⟩ := compressTiles_pair .lossless nofun
  have hcompress : compress .unbounded ⟨.lossless, some ⟨1, 1, 1⟩⟩ #[1, 3] ⟨2, 1, 1⟩ =
      .ok (tiledBytes ⟨2, 1, 1⟩ ⟨1, 1, 1⟩ blocks) := hbytes
  obtain ⟨data, hdata, -⟩ :=
    (decompress_compressTiles rfl ⟨by decide, by decide, by decide⟩ hbytes).mpr ⟨rfl, hn⟩
  obtain ⟨ts, hts, -, -, hall, -⟩ := tiles_independent hn hcompress
  obtain rfl : [⟨⟨0, 0, 0⟩, ⟨1, 1, 1⟩⟩, ⟨⟨1, 0, 0⟩, ⟨1, 1, 1⟩⟩] = ts := Except.ok.inj hts
  obtain ⟨values, halone, hgather⟩ := (hall _ hdata).parts ⟨⟨1, 0, 0⟩, ⟨1, 1, 1⟩⟩ (by simp)
  exact ⟨hn, _, _, values, hcompress, hdata, halone, hgather⟩

end VolumeCodec
