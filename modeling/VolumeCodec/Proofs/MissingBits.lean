import VolumeCodec.Proofs.ArbitraryTiles
import VolumeCodec.Proofs.BitDemands
import VolumeCodec.Proofs.TapeOperations

namespace VolumeCodec

section Whole

variable {memory : Memory} {limit : BitLimit} {input : List UInt8}

/-- What a container of one volume asks for. -/
inductive AskedByWhole (memory : Memory) (limit : BitLimit) (input : List UInt8) : Demand → Prop
  /-- The block of the coefficients. -/
  | code {preamble scale middle rest}
      (hpreamble : Preamble.read.from input = (.ok preamble, middle))
      (hscale : Scale.read.from middle = (.ok scale, rest)) :
      AskedByWhole memory limit input (.block rest)
  /-- Bits of coefficients, as many as are declared or as the limit lets be read. -/
  | coefficients {preamble scale middle rest bytes left header packed}
      (hpreamble : Preamble.read.from input = (.ok preamble, middle))
      (hscale : Scale.read.from middle = (.ok scale, rest))
      (hblock : Reader.block.from rest = (.ok bytes, left))
      (hheader : CodeHeader.read.from bytes = (.ok header, packed)) :
      AskedByWhole memory limit input
        (.bits ((header.toOutline preamble.dims).required limit) (8 * packed.length))
  /-- The block of the corrections, if there are any and they are for as many values. -/
  | corrections {preamble data middle header rest outline}
      (hread : (readUncorrected memory limit).from input = (.ok (preamble, data), middle))
      (hcorrected : preamble.isCorrected = true)
      (hheader : CorrectionHeader.read.from middle = (.ok header, rest))
      (houtline : header.toOutline = .ok outline) (hlength : outline.length = data.size) :
      AskedByWhole memory limit input (.block rest)
  /-- The bits of corrections that are declared. -/
  | magnitudes {preamble data middle outline bytes left}
      (hread : (readUncorrected memory limit).from input = (.ok (preamble, data), middle))
      (hcode : (readCorrectionCode data.size).from middle = (.ok (outline, bytes), left)) :
      AskedByWhole memory limit input (.bits outline.row.bitCount (8 * bytes.length))

theorem StoredCode.ofBytes_tells {bytes : List UInt8} {dims : Extents} :
    Tells (StoredCode.ofBytes memory bytes dims) D := by
  unfold StoredCode.ofBytes
  dsimp only
  have hread : CodeHeader.read.Tells bytes D := CodeHeader.takes.tells
  refine tells_bind hread fun header _ => ?_
  refine tells_bind (load_tells_of_le ?_ : Action.Tells _ _ D) fun _ _ => tells_ok _
  unfold bytesFor
  omega

theorem StoredCode.ofBytes_eq_ok {bytes : List UInt8} {dims : Extents} {code : StoredCode}
    (h : StoredCode.ofBytes memory bytes dims = .ok code) :
    ∃ header packed, CodeHeader.read.from bytes = (.ok header, packed) ∧
      code.outline = header.toOutline dims ∧
      code.tape.writePosition = min header.bitCount.toNat (8 * packed.length) := by
  unfold StoredCode.ofBytes at h
  rcases hread : CodeHeader.read.from bytes with ⟨fault | header, packed⟩
  · rw [hread] at h
    cases h
  · rw [hread] at h
    obtain ⟨found, hfound, h⟩ := ok_of_bind h
    cases hfound
    dsimp only at h
    rcases hload : (Tape.load memory packed
      (min (header.toOutline dims).bitCount (8 * packed.length))).on .empty with ⟨fault | u, tape⟩
    · rw [hload] at h
      cases h
    · rw [hload] at h
      obtain rfl := Tape.load_eq_ok hload
      obtain rfl := Except.ok.inj h
      exact ⟨header, packed, rfl, rfl, rfl⟩

/-- Where the coefficients of a container were found. -/
theorem readCode_eq_ok {preamble : Preamble} {scale : Scale} {code : StoredCode}
    {left : List UInt8} (h : (readCode memory).run.run input = (.ok (preamble, scale, code), left)) :
    ∃ middle rest bytes header packed, Preamble.read.from input = (.ok preamble, middle) ∧
      Scale.read.from middle = (.ok scale, rest) ∧ Reader.block.from rest = (.ok bytes, left) ∧
      CodeHeader.read.from bytes = (.ok header, packed) ∧
      code.outline = header.toOutline preamble.dims ∧
      code.tape.writePosition = min header.bitCount.toNat (8 * packed.length) := by
  obtain ⟨_, middle, hpreamble, h⟩ := Action.run_bind_eq_ok.mp h
  obtain ⟨_, rest, hscale, h⟩ := Action.run_bind_eq_ok.mp h
  obtain ⟨bytes, _, hblock, h⟩ := Action.run_bind_eq_ok.mp h
  obtain ⟨_, _, hcode, h⟩ := Action.run_bind_eq_ok.mp h
  cases h
  obtain ⟨hloaded, rfl⟩ := Action.run_lift_eq_ok hcode
  obtain ⟨header, packed, hheader, houtline, hposition⟩ := StoredCode.ofBytes_eq_ok hloaded
  exact ⟨middle, rest, bytes, header, packed, hpreamble, hscale, hblock, hheader, houtline,
    hposition⟩

theorem readCode_tells : (readCode memory).Tells input (AskedByWhole memory limit input) := by
  refine Action.tells_bind Preamble.takes.tells fun preamble middle hpreamble => ?_
  refine Action.tells_bind Scale.takes.tells fun scale rest hscale => ?_
  refine Action.tells_bind (Reader.block_tells.mono fun d hd => ?_) fun bytes _ _ => ?_
  · subst hd
    exact .code hpreamble hscale
  · exact Action.tells_lift_bind StoredCode.ofBytes_tells fun _ _ => Action.tells_pure _

theorem readUncorrected_tells :
    (readUncorrected memory limit).Tells input (AskedByWhole memory limit input) := by
  refine Action.tells_bind readCode_tells fun r left hcode => ?_
  obtain ⟨preamble, scale, code⟩ := r
  obtain ⟨middle, rest, bytes, header, packed, hpreamble, hscale, hblock, hheader, houtline,
    hposition⟩ := readCode_eq_ok hcode
  refine Action.tells_lift_bind (fun fault hrun hs => ?_) fun _ _ => Action.tells_pure _
  have hcount : code.outline.bitCount < 2 ^ 64 := houtline ▸ header.bitCount.toNat_lt
  obtain ⟨_, rfl, hrefused⟩ := decodeReals_tells hcount fault hrun hs
  obtain ⟨a, b, rfl, ha, hb, hlt⟩ := Demand.told_of_isRefused_bits hrefused
  -- No more bits are loaded than there are, and none of those that there are is left out.
  have hle : (header.toOutline preamble.dims).required limit ≤ header.bitCount.toNat :=
    Outline.required_le _ limit
  have ha : a = code.tape.writePosition := ha
  have hb : b = min ((header.toOutline preamble.dims).required limit) (2 ^ 64 - 1) :=
    houtline ▸ hb
  exact ⟨_, .coefficients hpreamble hscale hblock hheader, show a = 8 * packed.length by omega, hb,
    hlt⟩

theorem decodeCorrections_tells {outline : CorrectionOutline} {bytes : List UInt8}
    (hcount : outline.row.bitCount < 2 ^ 64) :
    Tells (decodeCorrections memory outline bytes)
      (· = .bits outline.row.bitCount (8 * bytes.length)) := by
  refine Action.tells_bind (load_tells hcount) fun _ t hload => ?_
  obtain rfl := Tape.load_eq_ok hload
  refine Action.tells_check rfl fun _ => ?_
  exact Action.tells_bind (decode_tells_of_le hcount (Nat.le_refl _)) fun _ _ _ =>
    Action.tells_pure _

theorem CorrectionHeader.toOutline_eq_ok {header : CorrectionHeader} {outline : CorrectionOutline}
    (h : header.toOutline = .ok outline) : outline.row.bitCount = header.code.bitCount.toNat := by
  unfold CorrectionHeader.toOutline at h
  split at h
  next => cases h
  next =>
    obtain rfl := Except.ok.inj h
    rfl

theorem CorrectionHeader.toOutline_tells {header : CorrectionHeader} :
    Tells header.toOutline D := by
  unfold CorrectionHeader.toOutline
  split
  next => exact tells_fault rfl
  next => exact tells_ok _

theorem readCorrectionCode_eq_ok {count : Nat} {outline : CorrectionOutline} {bytes : List UInt8}
    {left : List UInt8}
    (h : (readCorrectionCode count).run.run input = (.ok (outline, bytes), left)) :
    outline.row.bitCount < 2 ^ 64 := by
  obtain ⟨header, middle, -, hrest⟩ := Action.run_bind_eq_ok.mp h
  obtain ⟨found, _, hlift, hcheck⟩ := Action.run_bind_eq_ok.mp hrest
  have hfound := (Action.run_lift_eq_ok hlift).1
  by_cases hlength : found.length ≠ count
  · rw [if_pos hlength] at hcheck
    cases hcheck
  · rw [if_neg hlength] at hcheck
    obtain ⟨_, _, -, hblock⟩ := Action.run_bind_eq_ok.mp hcheck
    cases hblock
    rw [CorrectionHeader.toOutline_eq_ok hfound]
    exact header.code.bitCount.toNat_lt

theorem readCorrectionCode_tells {preamble : Preamble} {data : Array Float} {middle : List UInt8}
    (hread : (readUncorrected memory limit).from input = (.ok (preamble, data), middle))
    (hcorrected : preamble.isCorrected = true) :
    (readCorrectionCode data.size).Tells middle (AskedByWhole memory limit input) := by
  refine Action.tells_bind CorrectionHeader.takes.tells fun header rest hheader => ?_
  refine Action.tells_lift_bind CorrectionHeader.toOutline_tells fun outline houtline => ?_
  refine Action.tells_check rfl fun hlength => ?_
  refine Action.tells_bind (Reader.block_tells.mono fun d hd => ?_) fun _ _ _ =>
    Action.tells_pure _
  subst hd
  exact .corrections hread hcorrected hheader houtline (Decidable.not_not.mp hlength)

theorem readCorrections_tells {preamble : Preamble} {data : Array Float} {middle : List UInt8}
    (hread : (readUncorrected memory limit).from input = (.ok (preamble, data), middle))
    (hcorrected : preamble.isCorrected = true) :
    (readCorrections memory limit data).Tells middle (AskedByWhole memory limit input) := by
  rw [readCorrections_eq]
  refine Action.tells_bind (readCorrectionCode_tells hread hcorrected) fun r left hcode => ?_
  obtain ⟨outline, bytes⟩ := r
  cases limit.isSome with
  | true => exact Action.tells_pure _
  | false =>
    refine Action.tells_lift_bind ((decodeCorrections_tells
      (readCorrectionCode_eq_ok hcode)).mono fun d hd => ?_) fun _ _ => Action.tells_pure _
    subst hd
    exact .magnitudes hread hcode

theorem decompressWhole_tells :
    Tells (decompressWhole memory limit input) (AskedByWhole memory limit input) := by
  have hread : (readWhole memory limit).Tells input (AskedByWhole memory limit input) := by
    rw [readWhole_eq]
    refine Action.tells_bind readUncorrected_tells fun r middle hread => ?_
    obtain ⟨preamble, data⟩ := r
    dsimp only
    cases hcorrected : preamble.isCorrected with
    | false => exact Action.tells_pure _
    | true =>
      exact Action.tells_bind (readCorrections_tells hread hcorrected) fun _ _ _ =>
        Action.tells_pure _
  exact hread

/-- A block that is asked for and is oversized stops everything. -/
theorem decompressWhole_of_isOversized {d : Demand} (h : AskedByWhole memory limit input d)
    (hsize : d.IsOversized) : decompressWhole memory limit input = .error .overflow := by
  unfold decompressWhole
  rw [readWhole_eq]
  cases h with
  | code hpreamble hscale =>
    refine Reader.error_bind (Reader.error_bind ?_)
    rw [readCode, Reader.bind_from_of_ok hpreamble, Reader.bind_from_of_ok hscale]
    exact Reader.error_bind (Reader.block_of_isOversized hsize)
  | coefficients => exact hsize.elim
  | corrections hread hcorrected hheader houtline hlength =>
    rw [Reader.bind_from_of_ok hread]
    dsimp only
    rw [hcorrected, if_pos rfl, readCorrections_eq]
    refine Reader.error_bind (Reader.error_bind ?_)
    rw [readCorrectionCode, Reader.bind_from_of_ok hheader, houtline]
    show (Reader.from (if _ then _ else _) _).1 = _
    rw [if_neg (Decidable.not_not.mpr hlength)]
    exact Reader.error_bind (Reader.block_of_isOversized hsize)
  | magnitudes => exact hsize.elim

end Whole

section Tiles

variable {memory : Memory} {limit : BitLimit} {input : List UInt8}

/-- A container has these tiles, as many as its table counts, and goes on with these bytes. -/
def ListsTiles (input : List UInt8) (ts : List Tile) (rest : List UInt8) : Prop :=
  ∃ preamble table middle, Preamble.read.from input = (.ok preamble, middle) ∧
    preamble.isTiled = true ∧ TileTable.read.from middle = (.ok table, rest) ∧
    tiles preamble.dims table.extents = .ok ts ∧ table.count.toNat = ts.length

/-- What a container with tiles asks for. -/
inductive AskedByTiles (memory : Memory) (limit : BitLimit) (input : List UInt8) : Demand → Prop
  /-- The blocks of all tiles together. -/
  | table {ts rest} (hlists : ListsTiles input ts rest) :
      AskedByTiles memory limit input (.tiles ts.length rest)
  /-- The block of one tile, when those of the tiles before it have been read. -/
  | block {ts rest before tile after blocks left} (hlists : ListsTiles input ts rest)
      (hleft : ts.length ≤ rest.length / 8) (htiles : ts = before ++ tile :: after)
      (hblocks : (before.mapM fun t => (t, ·) <$> Reader.block).from rest = (.ok blocks, left)) :
      AskedByTiles memory limit input (.block left)
  /-- What is asked for inside the block of a tile, which is a container of its own, when those of
  the tiles before it have been decompressed. -/
  | inside {dims blocks rest before tile bytes after d}
      (hread : readTiles.from input = (.ok (dims, blocks), rest))
      (hblocks : blocks = before ++ (tile, bytes) :: after)
      (hbefore : ∀ p ∈ before, ∃ values,
        decompressTile memory limit dims.volume p.1 p.2 = .ok values)
      (hasked : AskedByWhole memory (limit.map fun bits => tile.share bits dims.volume) bytes d) :
      AskedByTiles memory limit input d

theorem readBlocks_tells {ts : List Tile}
    (h : ∀ before tile after blocks left, ts = before ++ tile :: after →
      (before.mapM fun t => (t, ·) <$> Reader.block : Reader (List (Tile × List UInt8))).from input =
        (.ok blocks, left) → D (.block left)) :
    (ts.mapM fun t => (t, ·) <$> Reader.block : Reader (List (Tile × List UInt8))).Tells input
      D := by
  induction ts generalizing input with
  | nil => exact Action.tells_pure []
  | cons t rest ih =>
    rw [List.mapM_cons]
    refine Action.tells_bind (Action.tells_map (Reader.block_tells.mono fun d hd => ?_))
      fun pair middle hpair => ?_
    · subst hd
      exact h [] t rest [] input rfl rfl
    · refine Action.tells_bind (ih fun before tile after blocks left hrest hblocks => ?_)
        fun _ _ _ => Action.tells_pure _
      refine h (t :: before) tile after (pair :: blocks) left (congrArg (t :: ·) hrest) ?_
      unfold Reader.from at hblocks ⊢
      rw [List.mapM_cons, Action.run_bind, hpair]
      dsimp only
      rw [Action.run_bind, hblocks]
      rfl

/-- The tiles are listed as soon as their number is known. -/
theorem tiles_of_tileCount {dims nominal : Extents} {count : Nat}
    (h : tileCount dims nominal = .ok count) :
    ∃ ts, tiles dims nominal = .ok ts ∧ ts.length = count := by
  obtain ⟨_, hcheck, -⟩ := ok_of_bind h
  have htiles : ∃ ts, tiles dims nominal = .ok ts := by
    unfold tiles
    rw [hcheck]
    exact ⟨_, rfl⟩
  obtain ⟨ts, hts⟩ := htiles
  rw [tileCount_of_tiles hts] at h
  exact ⟨ts, hts, Except.ok.inj h⟩

theorem readTiles_tells : readTiles.Tells input (AskedByTiles memory limit input) := by
  refine Action.tells_bind Preamble.takes.tells fun preamble middle hpreamble => ?_
  refine Action.tells_check rfl fun htiled => ?_
  refine Action.tells_bind TileTable.takes.tells fun table rest htable => ?_
  cases hcount : tileCount preamble.dims table.extents with
  | error fault => exact tells_fault rfl
  | ok count =>
    obtain ⟨ts, hts, rfl⟩ := tiles_of_tileCount hcount
    have hmax : maxElements = 2 ^ 36 := rfl
    have hdims : preamble.dims.AreDeclared := (Preamble.read_endsWell input).of_run hpreamble
    have hle : ts.length ≤ maxElements := (length_tiles_le hts).trans hdims.volume_le
    refine Action.tells_check rfl fun hmatch => ?_
    have hlists : ListsTiles input ts rest :=
      ⟨preamble, table, middle, hpreamble, by simpa using htiled, htable, hts,
        Decidable.not_not.mp hmatch⟩
    refine Action.tells_get_bind ?_
    refine Action.tells_demand (.table hlists) (fun hshort => ?_) fun hleft => ?_
    · -- There are no more tiles than elements, so that a machine word counts the bits.
      refine Demand.isTold_of_lt rfl (show _ = 64 * ts.length by omega) ?_ ?_ <;> omega
    · rw [hts]
      refine Action.tells_lift_bind (tells_ok ts) fun _ h => ?_
      obtain rfl := Except.ok.inj h
      refine Action.tells_bind (readBlocks_tells fun before tile after blocks left heq hblocks => ?_)
        fun _ _ _ => Action.tells_pure _
      exact .block hlists (Nat.not_lt.mp hleft) heq hblocks

theorem decompressTiles_tells :
    Tells (decompressTiles memory limit input) (AskedByTiles memory limit input) := by
  rw [decompressTiles_eq]
  refine tells_bind (readTiles_tells : Action.Tells _ input _) fun r hread => ?_
  obtain ⟨dims, blocks⟩ := r
  obtain ⟨rest, hread⟩ := Action.run_eq_of_fst hread
  refine tells_bind (tells_mapM fun before p after heq hbefore => ?_) fun values _ =>
    tells_bind (tells_requestArray memory _ _) fun _ _ => tells_ok _
  have hvalues : ∀ p ∈ before, ∃ values,
      decompressTile memory limit dims.volume p.1 p.2 = .ok values := fun p hp => by
    obtain ⟨keyed, hkeyed⟩ := hbefore p hp
    rw [map_eq_pure_bind] at hkeyed
    obtain ⟨values, hvalues, -⟩ := ok_of_bind hkeyed
    exact ⟨values, hvalues⟩
  rw [map_eq_pure_bind]
  refine tells_bind ?_ fun _ _ => tells_ok _
  refine tells_bind (decompressWhole_tells.mono fun d hd => .inside hread heq hvalues hd)
    fun _ _ => ?_
  exact tells_check rfl fun _ => tells_ok _

/-- Behind its table a container with tiles is read block by block. -/
theorem ListsTiles.readTiles_from {ts : List Tile} {rest : List UInt8}
    (h : ListsTiles input ts rest) (hleft : ts.length ≤ rest.length / 8) :
    ∃ dims, readTiles.from input = Reader.from (do
      let blocks ← ts.mapM fun t => (t, ·) <$> Reader.block
      pure (dims, blocks)) rest := by
  obtain ⟨preamble, table, middle, hpreamble, htiled, htable, hts, hmatch⟩ := h
  refine ⟨preamble.dims, ?_⟩
  rw [readTiles, Reader.bind_from_of_ok hpreamble, htiled]
  show Reader.from (TileTable.read >>= _) middle = _
  rw [Reader.bind_from_of_ok htable, tileCount_of_tiles hts]
  dsimp only
  rw [if_neg (Decidable.not_not.mpr hmatch)]
  show Reader.from (if rest.length / 8 < ts.length then _ else _) rest = _
  rw [if_neg (Nat.not_lt.mpr hleft), hts]
  rfl

theorem readTiles_of_isOversized {before after : List Tile} {tile : Tile} {rest left : List UInt8}
    {blocks : List (Tile × List UInt8)} (h : ListsTiles input (before ++ tile :: after) rest)
    (hleft : (before ++ tile :: after).length ≤ rest.length / 8)
    (hblocks : (before.mapM fun t => (t, ·) <$> Reader.block :
      Reader (List (Tile × List UInt8))).from rest = (.ok blocks, left))
    (hsize : (Demand.block left).IsOversized) : (readTiles.from input).1 = .error .overflow := by
  obtain ⟨dims, hread⟩ := h.readTiles_from hleft
  rw [hread, List.mapM_append, List.mapM_cons]
  refine Reader.error_bind ?_
  rw [Reader.bind_from_of_ok hblocks]
  refine Reader.error_bind (Reader.error_bind ?_)
  rw [map_eq_pure_bind]
  exact Reader.error_bind (Reader.block_of_isOversized hsize)

theorem decompressTiles_of_isOversized {d : Demand} (h : AskedByTiles memory limit input d)
    (hsize : d.IsOversized) : decompressTiles memory limit input = .error .overflow := by
  rw [decompressTiles_eq]
  cases h with
  | table => exact hsize.elim
  | block hlists hleft htiles hblocks =>
    subst htiles
    rw [readTiles_of_isOversized hlists hleft hblocks hsize]
    rfl
  | @inside dims blocks rest before tile bytes after _ hread hblocks hbefore hasked =>
    subst hblocks
    have htile : decompressTile memory limit dims.volume tile bytes = .error .overflow := by
      unfold decompressTile
      rw [decompressWhole_of_isOversized hasked hsize]
      rfl
    have hvalues : tileValues memory limit dims (before ++ (tile, bytes) :: after) =
        .error .overflow := by
      refine mapM_of_error (fun p hp => ?_) ?_
      · obtain ⟨values, hvalues⟩ := hbefore p hp
        rw [hvalues]
        exact ⟨_, rfl⟩
      · dsimp only
        rw [htile]
        rfl
    rw [hread]
    show (tileValues memory limit dims (before ++ (tile, bytes) :: after) >>= _) = _
    rw [hvalues]
    rfl

end Tiles

/-- What is said of missing bits is true: the number that is there and the number that is asked for
are told as they are, and the first one is the smaller. Only where a block declares `2 ^ 61` bytes or
more, and they are not there, nothing is said at all. -/
theorem missing_bits_told (memory : Memory) :
    (∀ (bytes : List UInt8) (n : Nat) (t : Tape), n < 2 ^ 64 →
      IsTruthful ((Tape.load memory bytes n).on t).1 (· = .bits n (8 * bytes.length))) ∧
    (∀ (α : Type) [Magnitude α] (outline : Outline) (limit : BitLimit) (t : Tape),
      outline.bitCount < 2 ^ 64 →
      IsTruthful ((decode (α := α) memory outline limit).on t).1
        (· = .bits (outline.required limit) t.writePosition)) ∧
    (∀ bytes : List UInt8, IsTruthful (Reader.block.from bytes).1 (· = .block bytes)) ∧
    (∀ (limit : BitLimit) (bytes : List UInt8),
      IsTruthful (decompressTiles memory limit bytes) (AskedByTiles memory limit bytes)) := by
  refine ⟨fun bytes n t hn => (load_tells hn : Action.Tells _ _ _).isTruthful fun _ hd hsize => ?_,
    fun α _ outline limit t hcount =>
      (decode_tells hcount : Action.Tells _ _ _).isTruthful fun _ hd hsize => ?_,
    fun bytes => (Reader.block_tells : Action.Tells _ _ _).isTruthful fun _ hd hsize => ?_,
    fun limit bytes => decompressTiles_tells.isTruthful fun _ => decompressTiles_of_isOversized⟩
  · subst hd
    exact hsize.elim
  · subst hd
    exact hsize.elim
  · subst hd
    exact Reader.block_of_isOversized hsize

/-- Bits are missing on loading, on decoding, in a block, and behind the table of a container of one
tile. -/
theorem missing_bits_told_each :
    (Demand.bits 9 8).IsTold 8 9 ∧ (Demand.bits 5 0).IsTold 0 5 ∧
    (Demand.block [2, 0, 0, 0, 0, 0, 0, 0, 7]).IsTold 8 16 ∧
    ∃ d, AskedByTiles .unbounded none
      ((⟨Preamble.tiledFlag, ⟨1, 1, 1⟩⟩ : Preamble).toBytes ++
        (⟨⟨1, 1, 1⟩, 1⟩ : TileTable).toBytes) d ∧ d.IsTold 0 64 := by
  obtain ⟨hload, hdecode, hblock, htiles⟩ := missing_bits_told .unbounded
  obtain ⟨_, rfl, hloaded⟩ := (hload [7] 9 .empty (by decide)).told 8 9 rfl
  obtain ⟨_, rfl, hdecoded⟩ :=
    (hdecode (BitVec 8) ⟨⟨1, 1, 1⟩, 0, 5⟩ none .empty (by decide)).told 0 5 rfl
  obtain ⟨_, rfl, hread⟩ := (hblock [2, 0, 0, 0, 0, 0, 0, 0, 7]).told 8 16 rfl
  exact ⟨hloaded, hdecoded, hread, (htiles none _).told 0 64 rfl⟩

/-- A block that declares `2 ^ 61` bytes, of which there is one. All that could be told of it fits a
machine word, but nothing is. -/
theorem missing_bits_untold :
    (Reader.block.from [0, 0, 0, 0, 0, 0, 0, 32, 7]).1 = .error .overflow ∧
      (Demand.block [0, 0, 0, 0, 0, 0, 0, 32, 7]).IsTold 8 (2 ^ 64 - 1) :=
  ⟨rfl, rfl, rfl, by decide⟩

end VolumeCodec
