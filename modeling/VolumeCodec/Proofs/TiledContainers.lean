import VolumeCodec.Proofs.TileSpans
import VolumeCodec.Proofs.WholeContainers

namespace VolumeCodec

/-- The bytes of a container with a table of tiles. -/
def tiledBytes (dims nominal : Extents) (blocks : List (List UInt8)) : List UInt8 :=
  let preamble : Preamble := ⟨Preamble.tiledFlag, dims⟩
  let table : TileTable := ⟨nominal, UInt64.ofNat blocks.length⟩
  preamble.toBytes ++ table.toBytes ++ blocks.flatMap bytesOfBlock

theorem isTiled_tiledFlag (dims : Extents) :
    (⟨Preamble.tiledFlag, dims⟩ : Preamble).isTiled = true := by
  show (Preamble.tiledFlag &&& Preamble.tiledFlag != 0) = true
  decide

theorem tiledBytes_eq (dims nominal : Extents) (blocks : List (List UInt8)) :
    tiledBytes dims nominal blocks = (⟨Preamble.tiledFlag, dims⟩ : Preamble).toBytes ++
      ((⟨nominal, UInt64.ofNat blocks.length⟩ : TileTable).toBytes ++
        blocks.flatMap bytesOfBlock) :=
  List.append_assoc ..

theorem compressTiles_eq (mode : Mode) (data : Array Float) (dims nominal : Extents) :
    compressTiles .unbounded mode data dims nominal = (do
      checkVolume data dims
      let ts ← tiles dims nominal
      let blocks ← ts.mapM fun t => compressWhole .unbounded (mode.forTile t dims.volume)
        ((t.gather? dims data).getD #[]) t.extent
      pure (tiledBytes dims nominal blocks)) := rfl

theorem length_tiles_le {dims nominal : Extents} {ts : List Tile}
    (h : tiles dims nominal = .ok ts) : ts.length ≤ dims.volume := by
  obtain ⟨hc, -⟩ := checkTiling_of_tiles h
  obtain ⟨hx, hy, hz⟩ := pos_of_validate (validate_of_checkTiling hc)
  rw [length_tiles h]
  exact Nat.mul_le_mul (Nat.mul_le_mul (spanCount_le hx) (spanCount_le hy)) (spanCount_le hz)

theorem gets_blocks {ts : List Tile} {blocks : List (List UInt8)} (hlen : blocks.length = ts.length)
    (hsmall : ∀ block ∈ blocks, block.length < 2 ^ 61) :
    (ts.mapM fun t => (t, ·) <$> Reader.block : Reader (List (Tile × List UInt8))).Gets
      (blocks.flatMap bytesOfBlock) (ts.zip blocks) := by
  induction ts generalizing blocks with
  | nil =>
    have hnil : blocks = [] := List.length_eq_zero_iff.mp hlen
    rw [hnil]
    exact Reader.gets_pure []
  | cons t ts ih =>
    cases blocks with
    | nil => cases hlen
    | cons block blocks =>
      have hword : block.length < 2 ^ 64 :=
        Nat.lt_trans (hsmall block List.mem_cons_self) (by decide)
      have hblock := (Reader.gets_block hword).map (t, ·)
      have hrest := ih (Nat.succ.inj hlen) fun b hb => hsmall b (List.mem_cons_of_mem _ hb)
      rw [List.mapM_cons, List.flatMap_cons]
      apply hblock.bind
      intro rest
      rw [hrest.bind_from]
      rfl

theorem length_flatMap_bytesOfBlock (blocks : List (List UInt8)) :
    8 * blocks.length ≤ (blocks.flatMap bytesOfBlock).length := by
  induction blocks with
  | nil => exact Nat.zero_le _
  | cons block blocks ih =>
    rw [List.flatMap_cons, List.length_append, length_bytesOfBlock, List.length_cons]
    omega

section Reading

variable {dims nominal : Extents} {ts : List Tile} {blocks : List (List UInt8)}

/-- The tiles of a container are found with their blocks, if their nominal extents may be
declared. -/
theorem readTiles_tiledBytes (hd : dims.validate = .ok ()) (hv : dims.volume ≤ maxElements)
    (hw : nominal.AreWords) (hts : tiles dims nominal = .ok ts) (hlen : blocks.length = ts.length)
    (hsmall : ∀ block ∈ blocks, block.length < 2 ^ 61) :
    (readTiles.from (tiledBytes dims nominal blocks)).1 =
      (declaredExtents nominal).map fun _ => (dims, ts.zip blocks) := by
  have hpreamble := Preamble.gets (p := ⟨Preamble.tiledFlag, dims⟩) (areWords_of_validate hd)
    (declaredExtents_of_validate hd hv)
  have hcount : blocks.length < 2 ^ 64 := by
    have hle := length_tiles_le hts
    have hmax : maxElements = 2 ^ 36 := rfl
    omega
  have hroom := length_flatMap_bytesOfBlock blocks
  rw [tiledBytes_eq, readTiles, hpreamble.bind_from, isTiled_tiledFlag, Bool.not_true]
  cases hn : declaredExtents nominal with
  | error fault =>
    have herror := TileTable.read_of_error (t := ⟨nominal, UInt64.ofNat blocks.length⟩) hw hn
      (blocks.flatMap bytesOfBlock)
    simp only [Bool.false_eq_true, if_false, Reader.from_bind]
    revert herror
    rcases TileTable.read.from _ with ⟨_ | table, rest⟩
    · intro herror
      cases herror
      rfl
    · intro herror
      cases herror
  | ok declared =>
    obtain ⟨-, rfl⟩ := declaredExtents_eq_ok hn
    have htable := TileTable.gets (t := ⟨declared, UInt64.ofNat blocks.length⟩) hw hn
    have hblocks := gets_blocks hlen hsmall
    have hfound : (UInt64.ofNat blocks.length).toNat = ts.length := by
      rw [UInt64.toNat_ofNat_of_lt' hcount, hlen]
    have hleft : ¬(blocks.flatMap bytesOfBlock).length / 8 < ts.length := by omega
    have hread := hblocks []
    rw [List.append_nil] at hread
    simp only [Bool.false_eq_true, if_false]
    rw [htable.bind_from]
    unfold Reader.from at hread ⊢
    simp only [tileCount_of_tiles hts, hfound, ne_eq, not_true_eq_false, if_false, Action.run_bind,
      Action.run_get, hleft, hts, Action.run_lift, hread, Action.run_pure]
    rfl

/-- The values of tiles, put where they belong. -/
def assemble (dims : Extents) (values : List (Tile × Array Float)) : Array Float :=
  values.foldl (fun data p => (p.1.scatter? dims data p.2).getD data)
    (Array.replicate dims.volume 0)

theorem size_overwrite {α : Type} (data : Array α) (start : Nat) (row : Array α) :
    (Tile.overwrite data start row).size = data.size :=
  List.foldlRecOn (motive := fun out : Array α => out.size = data.size) _ _ rfl
    fun out hout p _ => by rw [Array.size_setIfInBounds, hout]

theorem size_of_scatter {α : Type} {t : Tile} {volume : Extents} {data values out : Array α}
    (h : t.scatter? volume data values = some out) : out.size = data.size := by
  unfold Tile.scatter? at h
  split at h
  next => cases h
  next =>
    generalize (t.rowStarts volume).zip (Tile.rowsOf t.extent.x values) = rows at h
    induction rows generalizing data with
    | nil =>
      cases h
      rfl
    | cons p rest ih =>
      rw [List.foldlM_cons] at h
      obtain ⟨next, hnext, h⟩ := Option.bind_eq_some_iff.mp h
      rw [ih h]
      dsimp only at hnext
      split at hnext
      next =>
        obtain rfl := Option.some.inj hnext
        exact size_overwrite data p.1 p.2
      next => cases hnext

theorem size_assemble (dims : Extents) (values : List (Tile × Array Float)) :
    (assemble dims values).size = dims.volume := by
  refine List.foldlRecOn (motive := fun out : Array Float => out.size = dims.volume) _ _
    Array.size_replicate fun out hout p _ => ?_
  cases h : p.1.scatter? dims out p.2 with
  | none => exact hout
  | some next => exact (size_of_scatter h).trans hout

/-- What is read from a container with a table of tiles. -/
theorem decompress_tiledBytes (blocks : List (List UInt8)) (limit : BitLimit)
    (hd : dims.validate = .ok ())
    (hv : dims.volume ≤ maxElements) (hw : nominal.AreWords) (hts : tiles dims nominal = .ok ts)
    (hlen : blocks.length = ts.length) (hsmall : ∀ block ∈ blocks, block.length < 2 ^ 61) :
    decompress .unbounded limit (tiledBytes dims nominal blocks) = (do
      let _ ← declaredExtents nominal
      let values ← (ts.zip blocks).mapM fun p =>
        (p.1, ·) <$> decompressTile .unbounded limit dims.volume p.1 p.2
      pure ⟨dims, assemble dims values⟩) := by
  have hpreamble := Preamble.gets (p := ⟨Preamble.tiledFlag, dims⟩) (areWords_of_validate hd)
    (declaredExtents_of_validate hd hv)
  have hread := readTiles_tiledBytes hd hv hw hts hlen hsmall
  have hfirst : (Preamble.read.from (tiledBytes dims nominal blocks)).1 =
      .ok ⟨Preamble.tiledFlag, dims⟩ := by rw [tiledBytes_eq, hpreamble]
  unfold decompress
  rw [hfirst]
  show (if (⟨Preamble.tiledFlag, dims⟩ : Preamble).isTiled = true then _ else _) = _
  rw [if_pos (isTiled_tiledFlag dims), decompressTiles, hread]
  cases declaredExtents nominal with
  | error fault => rfl
  | ok declared => rfl

end Reading

end VolumeCodec
