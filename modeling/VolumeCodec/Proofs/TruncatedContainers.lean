import VolumeCodec.Proofs.AcceptedOutput
import VolumeCodec.Proofs.ShortInput

namespace VolumeCodec

open Reader

namespace CorrectionCode

variable (code : CorrectionCode) {length : Nat} {tolerance : Float}

theorem demands_correctionCode (hd : (Axes.row length).validate = .ok ())
    (hv : length ≤ maxElements) :
    (readCorrectionCode length).Demands (code.toBytes length tolerance)
      (· = (code.outline length tolerance, code.packed length)) := by
  rw [toBytes_eq]
  refine (CorrectionHeader.demands _).bind fun header h => ?_
  subst h
  refine (demands_of_eq_ok (code.toOutline_ofOutline hd hv)).bind fun outline h => ?_
  subst h
  refine demands_ite rfl fun _ => ?_
  refine (demands_block (code.length_packed_lt hd hv)).bind fun bytes h => ?_
  subst h
  exact demands_pure rfl

/-- With a limit, the corrections are read all the same. -/
theorem demands_corrections (limit : BitLimit) (data : Array Float)
    (ht : isTolerance tolerance = true) (hd : (Axes.row data.size).validate = .ok ())
    (hv : data.size ≤ maxElements) :
    (readCorrections .unbounded limit data).Demands (code.toBytes data.size tolerance)
      fun _ => True := by
  rw [readCorrections_eq, ← List.append_nil (code.toBytes data.size tolerance)]
  refine (code.demands_correctionCode hd hv).bind fun p h => ?_
  subst h
  dsimp only
  split
  next => exact demands_pure trivial
  next =>
    rw [← List.append_nil []]
    exact (demands_of_eq_ok (code.decodeCorrections_packed ht hd)).bind fun _ _ =>
      demands_pure trivial

end CorrectionCode

theorem correctionsFor_demands {mode : Mode} {data : Array Float} {dims : Extents}
    {corrections : List UInt8} (hm : mode.check = .ok ()) (hv : data.size ≤ maxElements)
    (h : correctionsFor mode data dims = .ok corrections) (limit : BitLimit)
    {values : Array Float} (hs : values.size = data.size) (hne : corrections.isEmpty = false) :
    (readCorrections .unbounded limit values).Demands corrections fun _ => True := by
  rcases correctionsFor_cases h with rfl | ⟨tolerance, code, rfl, hd, rfl⟩
  · cases hne
  · rw [← hs] at hd hv ⊢
    exact code.demands_corrections limit values (isTolerance_of_check hm) hd hv

section Whole

variable (q : Quantization) {dims : Extents} (stop : Stop) (corrections : List UInt8)

theorem readUncorrected_demands (limit : BitLimit) (hd : dims.validate = .ok ())
    (hv : dims.volume ≤ maxElements) :
    (readUncorrected .unbounded limit).Demands ((wholePreamble dims corrections).toBytes ++
        (Scale.ofFloats q.mean q.step).toBytes ++ bytesOfBlock (storedReals q.multiples dims stop))
      fun r => r.1 = wholePreamble dims corrections ∧ r.2.size = dims.volume := by
  have hlength := length_storedReals_le q.multiples stop hd hv
  obtain ⟨code, hstored, hcode⟩ := ok_of_bind (decode_storedReals q.multiples stop limit hd hv)
  have hread : (readCode .unbounded).Demands ((wholePreamble dims corrections).toBytes ++
      ((Scale.ofFloats q.mean q.step).toBytes ++
        (bytesOfBlock (storedReals q.multiples dims stop) ++ ([] ++ []))))
      (· = (wholePreamble dims corrections, Scale.ofFloats q.mean q.step, code)) := by
    refine (Preamble.demands (areWords_of_validate hd)).bind fun preamble h => ?_
    subst h
    refine (Scale.demands _).bind fun scale h => ?_
    subst h
    refine (demands_block (by omega)).bind fun block h => ?_
    subst h
    refine (demands_of_eq_ok hstored).bind fun code h => ?_
    subst h
    exact demands_pure rfl
  rw [codeBytes_eq]
  refine hread.bind fun r h => ?_
  subst h
  refine (demands_of_eq_ok hcode).bind fun decoded h => ?_
  subst h
  exact demands_pure ⟨rfl, size_restoredReals q dims _⟩

/-- The corrections stand last, so that a reader that passes over them would not see the end of a
container. -/
theorem readWhole_demands (limit : BitLimit) (hd : dims.validate = .ok ())
    (hv : dims.volume ≤ maxElements)
    (hcorrections : corrections.isEmpty = false → ∀ values : Array Float,
      values.size = dims.volume →
        (readCorrections .unbounded limit values).Demands corrections fun _ => True) :
    (readWhole .unbounded limit).Demands (wholeBytes q dims stop corrections) fun _ => True := by
  obtain ⟨hflag, -⟩ := flags_wholePreamble dims corrections
  rw [readWhole_eq, wholeBytes]
  refine (readUncorrected_demands q stop corrections limit hd hv).bind fun r h => ?_
  obtain ⟨preamble, values⟩ := r
  obtain ⟨hpreamble, hsize⟩ := h
  dsimp only at hpreamble hsize ⊢
  subst hpreamble
  rw [hflag]
  cases hempty : corrections.isEmpty with
  | true =>
    obtain rfl := List.isEmpty_iff.mp hempty
    exact demands_pure trivial
  | false =>
    rw [← List.append_nil corrections]
    exact (hcorrections hempty values hsize).bind fun _ _ => demands_pure trivial

end Whole

theorem compressWhole_demands {mode : Mode} {data : Array Float} {dims : Extents}
    {bytes : List UInt8} (hm : mode.check = .ok ()) (hv : dims.volume ≤ maxElements)
    (h : compressWhole .unbounded mode data dims = .ok bytes) (limit : BitLimit) :
    (readWhole .unbounded limit).Demands bytes fun _ => True := by
  rw [compressWhole_eq] at h
  obtain ⟨_, -, h⟩ := ok_of_bind h
  obtain ⟨_, hcheck, h⟩ := ok_of_bind h
  obtain ⟨corrections, hcorrections, h⟩ := ok_of_bind h
  obtain rfl := Except.ok.inj h
  obtain ⟨hd, hs, -⟩ := checkReals_eq_ok_iff.mp hcheck
  rw [size_multiples] at hs
  exact readWhole_demands _ _ corrections limit hd hv fun hne values hvalues =>
    correctionsFor_demands hm (Nat.le_trans (Nat.le_of_eq hs) hv) hcorrections limit
      (hvalues.trans hs.symm) hne

section Tiles

variable {dims nominal : Extents} {ts : List Tile} {blocks : List (List UInt8)}

theorem blocks_demand (hlen : blocks.length = ts.length)
    (hsmall : ∀ block ∈ blocks, block.length < 2 ^ 61) :
    (ts.mapM fun t => (t, ·) <$> Reader.block : Reader (List (Tile × List UInt8))).Demands
      (blocks.flatMap bytesOfBlock) fun _ => True := by
  induction ts generalizing blocks with
  | nil =>
    have hnil : blocks = [] := List.length_eq_zero_iff.mp hlen
    rw [hnil]
    exact demands_pure trivial
  | cons t ts ih =>
    cases blocks with
    | nil => cases hlen
    | cons block blocks =>
      have hblock : ((t, ·) <$> Reader.block : Reader (Tile × List UInt8)).Demands
          (bytesOfBlock block) fun _ => True :=
        (demands_block (hsmall block List.mem_cons_self)).map fun _ _ => trivial
      have hrest := ih (Nat.succ.inj hlen) fun b hb => hsmall b (List.mem_cons_of_mem _ hb)
      rw [List.mapM_cons, List.flatMap_cons]
      refine hblock.bind fun _ _ => ?_
      rw [← List.append_nil (blocks.flatMap bytesOfBlock)]
      exact hrest.bind fun _ _ => demands_pure trivial

theorem readTiles_demands (hd : dims.validate = .ok ()) (hw : nominal.AreWords)
    (hts : tiles dims nominal = .ok ts) (hlen : blocks.length = ts.length)
    (hsmall : ∀ block ∈ blocks, block.length < 2 ^ 61) :
    readTiles.Demands (tiledBytes dims nominal blocks) fun _ => True := by
  rw [tiledBytes_eq, ← List.append_nil (blocks.flatMap bytesOfBlock),
    ← List.nil_append (blocks.flatMap bytesOfBlock ++ [])]
  refine (Preamble.demands (areWords_of_validate hd)).bind fun preamble h => ?_
  subst h
  rw [isTiled_tiledFlag]
  refine (TileTable.demands hw).bind fun table h => ?_
  subst h
  dsimp only
  rw [tileCount_of_tiles hts]
  dsimp only
  refine demands_ite rfl fun _ => ?_
  -- Too short a rest is found here already, and the data is to blame for that as well.
  refine demands_check (fun _ => rfl) ?_
  refine (demands_of_eq_ok hts).bind fun listed h => ?_
  subst h
  exact (blocks_demand hlen hsmall).bind fun _ _ => demands_pure trivial

end Tiles

/-- Whoever decompresses some bytes reads the preamble first, and then again with the rest. -/
theorem decompress_blamesData {p : Preamble} (hw : p.dims.AreWords) {more : List UInt8}
    {limit : BitLimit} {k : Nat} (hk : k < (p.toBytes ++ more).length)
    (h : BlamesData (if p.isTiled then
        decompressTiles .unbounded limit ((p.toBytes ++ more).take k)
      else decompressWhole .unbounded limit ((p.toBytes ++ more).take k))) :
    BlamesData (decompress .unbounded limit ((p.toBytes ++ more).take k)) := by
  unfold decompress
  rcases Nat.lt_or_ge k p.toBytes.length with hlt | hge
  · have hshort := (Preamble.demands hw).short k hlt
    rw [List.take_append_of_le_length (Nat.le_of_lt hlt)]
    exact hshort.bind _
  · have htake : (p.toBytes ++ more).take k = p.toBytes ++ more.take (k - p.toBytes.length) := by
      rw [List.take_append, List.take_of_length_le hge]
    rcases (Preamble.demands hw).enough (more.take (k - p.toBytes.length)) with
      ⟨preamble, hread, rfl⟩ | hdata
    · rw [← htake] at hread
      rw [hread]
      exact h
    · rw [← htake] at hdata
      exact hdata.bind _

theorem truncated_whole {mode : Mode} {data : Array Float} {dims : Extents} {bytes : List UInt8}
    (hm : mode.check = .ok ()) (hv : dims.volume ≤ maxElements)
    (h : compressWhole .unbounded mode data dims = .ok bytes) {k : Nat} (hk : k < bytes.length)
    (limit : BitLimit) : BlamesData (decompress .unbounded limit (bytes.take k)) := by
  have hdemands := compressWhole_demands hm hv h limit
  rw [compressWhole_eq] at h
  obtain ⟨_, -, h⟩ := ok_of_bind h
  obtain ⟨_, hcheck, h⟩ := ok_of_bind h
  obtain ⟨corrections, -, h⟩ := ok_of_bind h
  obtain rfl := Except.ok.inj h
  obtain ⟨hd, -, -⟩ := checkReals_eq_ok_iff.mp hcheck
  obtain ⟨-, hflag⟩ := flags_wholePreamble dims corrections
  have hshort := hdemands.short k hk
  rw [wholeBytes, List.append_assoc, List.append_assoc] at hk hshort ⊢
  refine decompress_blamesData (areWords_of_validate hd) hk ?_
  rw [hflag]
  exact hshort

theorem truncated_tiles {mode : Mode} {data : Array Float} {dims nominal : Extents}
    {bytes : List UInt8} (hm : mode.check = .ok ()) (hw : nominal.AreWords)
    (h : compressTiles .unbounded mode data dims nominal = .ok bytes) {k : Nat}
    (hk : k < bytes.length) (limit : BitLimit) :
    BlamesData (decompress .unbounded limit (bytes.take k)) := by
  obtain ⟨ts, blocks, hcheck, hts, rfl, hlength, -, -, hsmall⟩ :=
    writtenTiles_of_compressTiles hm h
  obtain ⟨hd, -, -, -⟩ := checkVolume_eq_ok_iff.mp hcheck
  have hshort := (readTiles_demands hd hw hts hlength hsmall).short k hk
  rw [tiledBytes_eq] at hk hshort ⊢
  refine decompress_blamesData (areWords_of_validate hd) hk ?_
  rw [isTiled_tiledFlag]
  exact hshort.bind _

/-- No container that was written can be cut short unnoticed. Wherever it is cut, and with whatever
limit it is decompressed, the data is found at fault. -/
theorem truncated_container_rejected {mode : Mode} {tile : Option (Axes UInt64)}
    {data : Array Float} {dims : Extents} {bytes : List UInt8}
    (h : compress .unbounded ⟨mode, tile.map (Axes.map UInt64.toNat)⟩ data dims = .ok bytes)
    {k : Nat} (hk : k < bytes.length) (limit : BitLimit) :
    ∃ fault, decompress .unbounded limit (bytes.take k) = .error fault ∧
      fault.comesFromData = true := by
  obtain ⟨_, hm, h⟩ := ok_of_bind h
  cases tile with
  | some words => exact truncated_tiles hm (areWords_map words) h hk limit
  | none =>
    obtain ⟨_, hcheck, h⟩ := ok_of_bind h
    exact truncated_whole hm (checkVolume_eq_ok_iff.mp hcheck).2.2.1 h hk limit

/-- The case of two values, each of which is a tile, whose container lacks its last byte. It is
rejected even where no bit would have to be decoded. -/
theorem truncated_container_rejected_pair : ∃ bytes,
    compress .unbounded ⟨.lossless, some ⟨1, 1, 1⟩⟩ #[1, 3] ⟨2, 1, 1⟩ = .ok bytes ∧
      bytes.length - 1 < bytes.length ∧
      ∃ fault, decompress .unbounded (some 0) (bytes.take (bytes.length - 1)) = .error fault ∧
        fault.comesFromData = true := by
  obtain ⟨blocks, hblocks⟩ := compressTiles_pair .lossless nofun
  have hbytes : compress .unbounded
      ⟨.lossless, (some ⟨1, 1, 1⟩ : Option (Axes UInt64)).map (Axes.map UInt64.toNat)⟩ #[1, 3]
        ⟨2, 1, 1⟩ = .ok (tiledBytes ⟨2, 1, 1⟩ ⟨1, 1, 1⟩ blocks) := hblocks
  have hlast : (tiledBytes ⟨2, 1, 1⟩ ⟨1, 1, 1⟩ blocks).length - 1 <
      (tiledBytes ⟨2, 1, 1⟩ ⟨1, 1, 1⟩ blocks).length := Nat.sub_lt (Nat.succ_pos _) Nat.one_pos
  exact ⟨_, hbytes, hlast, truncated_container_rejected hbytes hlast (some 0)⟩

end VolumeCodec
