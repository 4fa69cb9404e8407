import VolumeCodec.Proofs.ArbitraryContainers
import VolumeCodec.Proofs.TileCover
import VolumeCodec.Proofs.TiledContainers

namespace VolumeCodec

namespace Tile.IsInside

variable {α : Type} {t : Tile} {dims : Extents}

/-- Values can always be put back into a tile of a volume. -/
theorem scatter (h : t.IsInside dims) {data : Array α} (hd : data.size = dims.volume)
    (values : Array α) : ∃ out, t.scatter? dims data values = some out := by
  unfold scatter?
  rw [if_neg (Nat.ne_of_gt h.x.1)]
  have hrows : ∀ p ∈ (t.rowStarts dims).zip (rowsOf t.extent.x values),
      p.1 + t.extent.x ≤ dims.volume := fun p hp => h.row_le (List.of_mem_zip hp).1
  generalize (t.rowStarts dims).zip (rowsOf t.extent.x values) = rows at hrows
  induction rows generalizing data with
  | nil => exact ⟨data, rfl⟩
  | cons p rest ih =>
    have hp := hrows p List.mem_cons_self
    rw [List.foldlM_cons, hd]
    dsimp only
    rw [if_pos hp]
    exact ih ((size_overwrite data p.1 p.2).trans hd) fun r hr =>
      hrows r (List.mem_cons_of_mem p hr)

end Tile.IsInside

/-- No tile leaves the volume when values are put together. -/
theorem foldlM_scatter {dims : Extents} {values : List (Tile × Array Float)} {data : Array Float}
    (hd : data.size = dims.volume) (h : ∀ p ∈ values, p.1.IsInside dims) :
    values.foldlM (fun data p => p.1.scatter? dims data p.2) data =
      some (values.foldl (fun data p => (p.1.scatter? dims data p.2).getD data) data) := by
  induction values generalizing data with
  | nil => rfl
  | cons p rest ih =>
    obtain ⟨out, hout⟩ := (h p List.mem_cons_self).scatter hd p.2
    rw [List.foldlM_cons, List.foldl_cons, hout]
    exact ih ((size_of_scatter hout).trans hd) fun r hr => h r (List.mem_cons_of_mem p hr)

theorem readBlocks_endsWell (ts : List Tile) (input : List UInt8) :
    (ts.mapM fun t => (t, ·) <$> Reader.block : Reader (List (Tile × List UInt8))).EndsWell input
      fun blocks _ => blocks.map (·.1) = ts := by
  induction ts generalizing input with
  | nil => exact Action.endsWell_pure rfl
  | cons t ts ih =>
    rw [List.mapM_cons]
    refine Action.endsWell_bind (Action.endsWell_map ((Reader.block_endsWell input).mono
      fun block rest _ => ?_))
    refine Action.endsWell_bind ((ih rest).mono fun blocks _ h => ?_)
    exact Action.endsWell_pure (congrArg (t :: ·) h)

/-- The tiles of dimensions, with the blocks that were found for them. -/
structure TilesOf (dims : Extents) (blocks : List (Tile × List UInt8)) : Prop where
  declared : dims.AreDeclared
  inside : ∀ p ∈ blocks, p.1.IsInside dims

section ReadTiles

variable {input rest : List UInt8}

theorem readTiles_of_error {fault : Fault} (hp : Preamble.read.from input = (.error fault, rest)) :
    readTiles.from input = (.error fault, rest) := by
  unfold readTiles
  rw [Reader.from_bind, hp]

theorem readTiles_of_not_tiled {preamble : Preamble}
    (hp : Preamble.read.from input = (.ok preamble, rest)) (ht : preamble.isTiled = false) :
    readTiles.from input = (.error (.invalidArgument .notTiled), rest) := by
  rw [readTiles, Reader.bind_from_of_ok hp, ht]
  rfl

theorem readTiles_endsWell {preamble : Preamble}
    (hp : Preamble.read.from input = (.ok preamble, rest)) (ht : preamble.isTiled = true) :
    readTiles.EndsWell input fun r _ => TilesOf r.1 r.2 := by
  have hpreamble := Preamble.read_endsWell input
  unfold Action.EndsWell at hpreamble
  unfold Reader.from at hp
  rw [hp] at hpreamble
  refine Action.endsWell_bind ?_
  unfold Action.EndsWell
  rw [hp]
  dsimp only
  rw [ht]
  refine Action.endsWell_bind ((TileTable.read_endsWell rest).mono fun table rest _ => ?_)
  cases hcount : tileCount preamble.dims table.extents with
  | error fault => exact .inl rfl
  | ok expected =>
    obtain ⟨_, hcheck, -⟩ := ok_of_bind hcount
    refine Action.endsWell_check (fun _ => .inl rfl) fun _ => ?_
    refine Action.endsWell_bind (Action.endsWell_get ?_)
    refine Action.endsWell_check (fun _ => .inl rfl) fun _ => ?_
    have htiles : ∃ ts, tiles preamble.dims table.extents = .ok ts := by
      unfold tiles
      rw [hcheck]
      exact ⟨_, rfl⟩
    obtain ⟨ts, hts⟩ := htiles
    rw [hts]
    refine Action.endsWell_bind (Action.endsWell_lift (?_ : VolumeCodec.EndsWell (.ok ts) _))
    refine Action.endsWell_bind ((readBlocks_endsWell ts rest).mono fun blocks _ hblocks => ?_)
    refine Action.endsWell_pure ⟨hpreamble, fun p hp => isInside_of_mem_tiles hts ?_⟩
    rw [← hblocks]
    exact List.mem_map_of_mem hp

theorem isInside_of_readTiles {dims : Extents} {blocks : List (Tile × List UInt8)}
    (h : readTiles.from input = (.ok (dims, blocks), rest)) : ∀ p ∈ blocks, p.1.IsInside dims := by
  rcases hp : Preamble.read.from input with ⟨fault | preamble, left⟩
  · rw [readTiles_of_error hp] at h
    cases h
  · cases ht : preamble.isTiled with
    | true => exact ((readTiles_endsWell hp ht).of_run h).inside
    | false =>
      rw [readTiles_of_not_tiled hp ht] at h
      cases h

end ReadTiles

section Tiles

variable (memory : Memory) (limit : BitLimit)

theorem decompressTile_endsWell (total : Nat) (t : Tile) (bytes : List UInt8) :
    EndsWell (decompressTile memory limit total t bytes) fun v => v.size = t.extent.volume := by
  refine endsWell_bind (decompressWhole_endsWell memory _ bytes) fun volume hv => ?_
  refine endsWell_check (fun _ => .inl rfl) fun hdims => ?_
  exact hv.size.trans (congrArg Axes.volume (Decidable.not_not.mp hdims))

/-- The values of tiles from the blocks that were found for them. -/
def tileValues (dims : Extents) (blocks : List (Tile × List UInt8)) :
    Except Fault (List (Tile × Array Float)) :=
  blocks.mapM fun p => (p.1, ·) <$> decompressTile memory limit dims.volume p.1 p.2

theorem tileValues_endsWell (dims : Extents) (blocks : List (Tile × List UInt8)) :
    EndsWell (tileValues memory limit dims blocks) fun values =>
      List.Forall₂ (fun p v => v.1 = p.1 ∧ v.2.size = p.1.extent.volume) blocks values := by
  refine endsWell_mapM fun p _ => ?_
  rw [map_eq_pure_bind]
  refine endsWell_bind (decompressTile_endsWell memory limit dims.volume p.1 p.2) fun v hv => ?_
  exact ⟨rfl, hv⟩

theorem decompressTiles_eq (bytes : List UInt8) :
    decompressTiles memory limit bytes = (do
      let (dims, blocks) ← (readTiles.from bytes).1
      let values ← tileValues memory limit dims blocks
      memory.requestArray dims.volume 8
      pure ⟨dims, assemble dims values⟩) := rfl

/-- A container whose preamble can be read says that it has no tiles. -/
def IsUntiled (bytes : List UInt8) : Prop :=
  ∃ preamble, (Preamble.read.from bytes).1 = .ok preamble ∧ preamble.isTiled = false

theorem decompressTiles_of_isUntiled {bytes : List UInt8} (h : IsUntiled bytes) :
    decompressTiles memory limit bytes = .error (.invalidArgument .notTiled) := by
  obtain ⟨preamble, hp, ht⟩ := h
  obtain ⟨rest, hp⟩ := Action.run_eq_of_fst hp
  rw [decompressTiles_eq, readTiles_of_not_tiled hp ht]
  rfl

theorem decompressTiles_endsWell {bytes : List UInt8} (h : ¬IsUntiled bytes) :
    EndsWell (decompressTiles memory limit bytes) Volume.IsSound := by
  have hread : EndsWell (readTiles.from bytes).1 fun r => TilesOf r.1 r.2 := by
    rcases hp : Preamble.read.from bytes with ⟨fault | preamble, rest⟩
    · have hpreamble := (Preamble.read_endsWell bytes).result
      unfold Reader.from at hp
      rw [hp] at hpreamble
      rw [readTiles_of_error hp]
      exact hpreamble
    · have ht : preamble.isTiled = true := by
        rw [← Bool.not_eq_false]
        exact fun ht => h ⟨preamble, congrArg Prod.fst hp, ht⟩
      exact (readTiles_endsWell hp ht).result
  rw [decompressTiles_eq]
  refine endsWell_bind hread fun r hr => ?_
  obtain ⟨dims, blocks⟩ := r
  refine endsWell_bind (tileValues_endsWell memory limit dims blocks) fun values _ => ?_
  refine endsWell_bind (endsWell_requestArray memory _ _) fun _ _ => ?_
  exact ⟨hr.declared, size_assemble dims values⟩

theorem decompress_endsWell (bytes : List UInt8) :
    EndsWell (decompress memory limit bytes) Volume.IsSound := by
  unfold decompress
  cases hp : (Preamble.read.from bytes).1 with
  | error fault =>
    have hpreamble := (Preamble.read_endsWell bytes).result
    unfold Reader.from at hp
    rw [hp] at hpreamble
    exact hpreamble
  | ok preamble =>
    show EndsWell (if preamble.isTiled = true then _ else _) _
    cases ht : preamble.isTiled with
    | false => exact decompressWhole_endsWell memory limit bytes
    | true =>
      refine decompressTiles_endsWell memory limit fun h => ?_
      obtain ⟨p, hp', ht'⟩ := h
      obtain rfl := Except.ok.inj (hp.symm.trans hp')
      rw [ht] at ht'
      cases ht'

end Tiles

/-- Reading a container with tiles never leaves an array: tiles lie within the volume, so that all
rows of their values do when they are put together, and each block is read inside its tile. -/
structure TilesInside (memory : Memory) (limit : BitLimit) (bytes : List UInt8) : Prop where
  boxes : ∀ dims blocks rest, readTiles.from bytes = (.ok (dims, blocks), rest) →
    ∀ p ∈ blocks, p.1.IsInside dims
  blocks : ∀ dims blocks rest, readTiles.from bytes = (.ok (dims, blocks), rest) →
    ∀ p ∈ blocks, ReadsInside memory (limit.map fun bits => p.1.share bits dims.volume) p.2
  rows : ∀ dims blocks rest values, readTiles.from bytes = (.ok (dims, blocks), rest) →
    tileValues memory limit dims blocks = .ok values →
      values.foldlM (fun data p => p.1.scatter? dims data p.2) (Array.replicate dims.volume 0) =
        some (assemble dims values)

theorem tilesInside (memory : Memory) (limit : BitLimit) (bytes : List UInt8) :
    TilesInside memory limit bytes where
  boxes _ _ _ h := isInside_of_readTiles h
  blocks _ _ _ _ p _ := readsInside memory _ p.2
  rows dims blocks rest values h hvalues := by
    refine foldlM_scatter Array.size_replicate fun v hv => ?_
    have hall := tileValues_endsWell memory limit dims blocks
    rw [hvalues] at hall
    obtain ⟨i, hi, rfl⟩ := List.mem_iff_getElem.mp hv
    have hlength : blocks.length = values.length := List.Forall₂.length_eq hall
    have htile := (List.forall₂_iff_get.mp hall).2 i (hlength ▸ hi) hi
    show (values.get ⟨i, hi⟩).1.IsInside dims
    rw [htile.1]
    exact isInside_of_readTiles h _ (List.get_mem ..)

end VolumeCodec
