import VolumeCodec.Proofs.ProgressiveDecoding
import VolumeCodec.Proofs.StoredCorrections
import VolumeCodec.Proofs.StoredScale

namespace VolumeCodec

/-- What stands behind the coefficients of a container can be read with any values of a length. -/
structure Readable (length : Nat) (corrections : List UInt8) : Prop where
  short : corrections.length ≤ 2 ^ 50
  read : corrections.isEmpty = false → ∀ values : Array Float, values.size = length →
    ∃ corrected, ((readCorrections .unbounded none values).from corrections).1 = .ok corrected ∧
      corrected.size = length

theorem readable_nil (length : Nat) : Readable length [] where
  short := Nat.zero_le _
  read h := nomatch h

theorem readable_toBytes (code : CorrectionCode) {length : Nat} {tolerance : Float}
    (ht : isTolerance tolerance = true) (hd : (Axes.row length).validate = .ok ())
    (hv : length ≤ maxElements) : Readable length (code.toBytes length tolerance) where
  short := code.length_toBytes_le hd hv
  read _ values hs := by
    subst hs
    have hread := code.gets_corrections values ht hd hv []
    rw [List.append_nil] at hread
    exact ⟨_, congrArg Prod.fst hread, size_applyCorrections _ _⟩

/-- There are corrections for a tolerance only. -/
theorem correctionsFor_cases {mode : Mode} {data : Array Float} {dims : Extents}
    {corrections : List UInt8} (h : correctionsFor mode data dims = .ok corrections) :
    corrections = [] ∨ ∃ tolerance, ∃ code : CorrectionCode, mode = .pointwise tolerance ∧
      (Axes.row data.size).validate = .ok () ∧ corrections = code.toBytes data.size tolerance := by
  cases mode with
  | pointwise tolerance =>
    change correctionBytes .unbounded _ _ _ _ _ = .ok corrections at h
    rw [correctionBytes_eq] at h
    obtain ⟨values, -, h⟩ := ok_of_bind h
    rcases codeMisses_cases h with ⟨-, hnil⟩ | ⟨hd, q, -, hbytes⟩
    · exact .inl hnil
    · exact .inr ⟨tolerance, q.code, rfl, hd, hbytes⟩
  | lossless => exact .inl (Except.ok.inj h).symm
  | bits count => exact .inl (Except.ok.inj h).symm
  | quality decibels => exact .inl (Except.ok.inj h).symm

theorem readable_correctionsFor {mode : Mode} {data : Array Float} {dims : Extents}
    {corrections : List UInt8} (hm : mode.check = .ok ()) (hv : data.size ≤ maxElements)
    (h : correctionsFor mode data dims = .ok corrections) : Readable data.size corrections := by
  rcases correctionsFor_cases h with rfl | ⟨tolerance, code, rfl, hd, rfl⟩
  · exact readable_nil _
  · exact readable_toBytes code (isTolerance_of_check hm) hd hv

/-- A container of one volume is read back exactly if it does not hold the step of too large a
tolerance. -/
structure ReadBack (mode : Mode) (dims : Extents) (bytes : List UInt8) : Prop where
  short : bytes.length < 2 ^ 61
  whole : decompress .unbounded none bytes = decompressWhole .unbounded none bytes
  accepted : mode.hasFiniteStep = true → ∃ values,
    decompressWhole .unbounded none bytes = .ok ⟨dims, values⟩ ∧ values.size = dims.volume
  finite : ∀ volume, decompressWhole .unbounded none bytes = .ok volume → mode.hasFiniteStep = true

theorem compressWhole_readBack {mode : Mode} {data : Array Float} {dims : Extents}
    {bytes : List UInt8} (hm : mode.check = .ok ()) (hv : dims.volume ≤ maxElements)
    (h : compressWhole .unbounded mode data dims = .ok bytes) : ReadBack mode dims bytes := by
  rw [compressWhole_eq] at h
  obtain ⟨_, -, h⟩ := ok_of_bind h
  obtain ⟨_, hcheck, h⟩ := ok_of_bind h
  obtain ⟨corrections, hcorrections, h⟩ := ok_of_bind h
  obtain rfl := Except.ok.inj h
  obtain ⟨hd, hs, -⟩ := checkReals_eq_ok_iff.mp hcheck
  rw [size_multiples] at hs
  have hread := readable_correctionsFor hm (Nat.le_trans (Nat.le_of_eq hs) hv) hcorrections
  have hlength := length_wholeBytes_le (quantizeVolume mode data) mode.stop corrections hd hv
  have hshort := hread.short
  have hwhole :=
    decompressWhole_wholeBytes (quantizeVolume mode data) mode.stop corrections none hd hv
  -- The only number of a container that may be unreadable is the step.
  rw [isUsable_ofFloats hm hcheck] at hwhole
  refine ⟨by omega, decompress_wholeBytes _ _ _ none hd hv, fun hfinite => ?_,
    fun volume hvolume => ?_⟩
  · rw [hwhole, if_pos hfinite]
    dsimp only
    split
    next => exact ⟨_, rfl, size_restoredReals _ _ _⟩
    next hempty =>
      obtain ⟨corrected, hcorrected, hsize⟩ := hread.read (Bool.not_eq_true _ ▸ hempty) _
        ((size_restoredReals _ _ _).trans hs.symm)
      rw [hcorrected]
      exact ⟨corrected, rfl, hsize.trans hs⟩
  · cases hfinite : mode.hasFiniteStep with
    | true => rfl
    | false =>
      rw [hwhole, hfinite] at hvolume
      cases hvolume

namespace Mode

theorem hasFiniteStep_forTile (mode : Mode) (t : Tile) (total : Nat) :
    (mode.forTile t total).hasFiniteStep = mode.hasFiniteStep := by
  cases mode <;> rfl

theorem check_forTile (mode : Mode) (t : Tile) (total : Nat) :
    (mode.forTile t total).check = mode.check := by
  cases mode <;> rfl

end Mode

theorem decompressTile_succeeds_iff {mode : Mode} {t : Tile} {bytes : List UInt8} (total : Nat)
    (h : ReadBack mode t.extent bytes) :
    (∃ values, decompressTile .unbounded none total t bytes = .ok values) ↔
      mode.hasFiniteStep = true := by
  unfold decompressTile
  constructor
  · intro h
    obtain ⟨values, hvalues⟩ := h
    obtain ⟨volume, hvolume, -⟩ := ok_of_bind hvalues
    exact h.finite volume hvolume
  · intro hfinite
    obtain ⟨values, hvalues, -⟩ := h.accepted hfinite
    refine ⟨values, ?_⟩
    rw [Option.map_none, hvalues]
    exact if_neg fun hne => hne rfl

/-- A container with tiles that was written holds a container of each tile. -/
structure WrittenTiles (mode : Mode) (data : Array Float) (dims nominal : Extents)
    (bytes : List UInt8) (ts : List Tile) (blocks : List (List UInt8)) : Prop where
  check : checkVolume data dims = .ok ()
  tiles : tiles dims nominal = .ok ts
  bytes_eq : bytes = tiledBytes dims nominal blocks
  length_eq : blocks.length = ts.length
  written : ∀ p ∈ ts.zip blocks, compressWhole .unbounded (mode.forTile p.1 dims.volume)
    ((p.1.gather? dims data).getD #[]) p.1.extent = .ok p.2
  readBack : ∀ p ∈ ts.zip blocks, ReadBack (mode.forTile p.1 dims.volume) p.1.extent p.2
  short : ∀ block ∈ blocks, block.length < 2 ^ 61

theorem writtenTiles_of_compressTiles {mode : Mode} {data : Array Float} {dims nominal : Extents}
    {bytes : List UInt8} (hm : mode.check = .ok ())
    (h : compressTiles .unbounded mode data dims nominal = .ok bytes) :
    ∃ ts blocks, WrittenTiles mode data dims nominal bytes ts blocks := by
  rw [compressTiles_eq] at h
  obtain ⟨_, hcheck, h⟩ := ok_of_bind h
  obtain ⟨ts, hts, h⟩ := ok_of_bind h
  obtain ⟨blocks, hblocks, h⟩ := ok_of_bind h
  obtain ⟨-, -, hv, -⟩ := checkVolume_eq_ok_iff.mp hcheck
  obtain ⟨hlength, hblock⟩ := List.forall₂_iff_zip.mp (forall₂_of_mapM hblocks)
  have hback : ∀ p ∈ ts.zip blocks, ReadBack (mode.forTile p.1 dims.volume) p.1.extent p.2 :=
    fun p hp => compressWhole_readBack (by rw [Mode.check_forTile, hm])
      ((volume_le_of_mem_tiles hts (List.of_mem_zip hp).1).trans hv) (hblock hp)
  refine ⟨ts, blocks, hcheck, hts, (Except.ok.inj h).symm, hlength.symm, fun p hp => hblock hp,
    hback, fun block hb => ?_⟩
  rw [← List.map_snd_zip (Nat.le_of_eq hlength.symm)] at hb
  obtain ⟨p, hp, rfl⟩ := List.mem_map.mp hb
  exact (hback p hp).short

theorem decompress_compressTiles {mode : Mode} {data : Array Float} {dims nominal : Extents}
    {bytes : List UInt8} (hm : mode.check = .ok ()) (hw : nominal.AreWords)
    (h : compressTiles .unbounded mode data dims nominal = .ok bytes) :
    (∃ values, decompress .unbounded none bytes = .ok ⟨dims, values⟩ ∧ values.size = dims.volume) ↔
      mode.hasFiniteStep = true ∧ nominal.volume ≤ maxElements := by
  obtain ⟨ts, blocks, hcheck, hts, rfl, hlength, -, hback, hsmall⟩ :=
    writtenTiles_of_compressTiles hm h
  obtain ⟨hd, -, hv, -⟩ := checkVolume_eq_ok_iff.mp hcheck
  have hflat := not_isFlat_of_checkTiling (checkTiling_of_tiles hts).1
  have htile : ∀ p ∈ ts.zip blocks,
      (∃ values, decompressTile .unbounded none dims.volume p.1 p.2 = .ok values) ↔
        mode.hasFiniteStep = true := by
    intro p hp
    rw [decompressTile_succeeds_iff dims.volume (hback p hp), Mode.hasFiniteStep_forTile]
  rw [decompress_tiledBytes blocks none hd hv hw hts hlength hsmall]
  constructor
  · intro h
    obtain ⟨values, hvalues, -⟩ := h
    obtain ⟨declared, hdeclared, hvalues⟩ := ok_of_bind hvalues
    obtain ⟨parts, hparts, -⟩ := ok_of_bind hvalues
    refine ⟨?_, (declaredExtents_succeeds_iff hflat).mp ⟨declared, hdeclared⟩⟩
    -- One tile is enough: all of them have the step of the whole volume.
    have hpos : 0 < (ts.zip blocks).length := by
      rw [List.length_zip, hlength, Nat.min_self]
      exact length_tiles_pos hts
    obtain ⟨p, hp⟩ := List.exists_mem_of_length_pos hpos
    obtain ⟨part, hpart⟩ := mapM_succeeds_iff.mp ⟨parts, hparts⟩ p hp
    rw [map_eq_pure_bind] at hpart
    obtain ⟨values, hvalues, -⟩ := ok_of_bind hpart
    exact (htile p hp).mp ⟨values, hvalues⟩
  · intro h
    obtain ⟨hfinite, hvolume⟩ := h
    obtain ⟨declared, hdeclared⟩ := (declaredExtents_succeeds_iff hflat).mpr hvolume
    obtain ⟨parts, hparts⟩ : ∃ parts, ((ts.zip blocks).mapM fun p =>
        (p.1, ·) <$> decompressTile .unbounded none dims.volume p.1 p.2) = .ok parts := by
      apply mapM_succeeds_iff.mpr
      intro p hp
      obtain ⟨values, hvalues⟩ := (htile p hp).mpr hfinite
      rw [hvalues]
      exact ⟨(p.1, values), rfl⟩
    refine ⟨assemble dims parts, ?_, size_assemble dims parts⟩
    rw [hdeclared, hparts]
    rfl

/-- A container that was written is read back as a volume of its dimensions exactly if the nominal
extents of its tiles, if there are any, have no more elements than a header may declare, and the
step of a tolerance is a finite number. -/
theorem own_output_accepted_iff {mode : Mode} {tile : Option (Axes UInt64)} {data : Array Float}
    {dims : Extents} {bytes : List UInt8}
    (h : compress .unbounded ⟨mode, tile.map (Axes.map UInt64.toNat)⟩ data dims = .ok bytes) :
    (∃ values, decompress .unbounded none bytes = .ok ⟨dims, values⟩ ∧ values.size = dims.volume) ↔
      mode.hasFiniteStep = true ∧
        ∀ words ∈ tile, (words.map UInt64.toNat).volume ≤ maxElements := by
  obtain ⟨_, hm, h⟩ := ok_of_bind h
  cases tile with
  | some words =>
    rw [decompress_compressTiles hm (areWords_map words) h]
    simp
  | none =>
    obtain ⟨_, hcheck, h⟩ := ok_of_bind h
    have hback := compressWhole_readBack hm (checkVolume_eq_ok_iff.mp hcheck).2.2.1 h
    rw [hback.whole]
    constructor
    · intro h
      obtain ⟨values, hvalues, -⟩ := h
      exact ⟨hback.finite _ hvalues, fun words hwords => nomatch hwords⟩
    · intro h
      obtain ⟨hfinite, -⟩ := h
      exact hback.accepted hfinite

/-- Only a tolerance has a say in the step. -/
theorem quantizeVolume_uncorrected {mode : Mode} (hmode : ∀ tolerance, mode ≠ .pointwise tolerance)
    (data : Array Float) : quantizeVolume mode data = quantizeVolume .lossless data := by
  cases mode with
  | pointwise tolerance => exact absurd rfl (hmode tolerance)
  | lossless => rfl
  | bits count => rfl
  | quality decibels => rfl

/-- Without a tolerance there is nothing to correct. -/
theorem compressWhole_uncorrected {mode : Mode} {data : Array Float} {dims : Extents}
    (hmode : ∀ tolerance, mode ≠ .pointwise tolerance)
    (h : ∀ c ∈ (quantizeVolume mode data).multiples, c.isFinite = true)
    (hd : dims.validate = .ok ()) (hs : data.size = dims.volume) :
    compressWhole .unbounded mode data dims =
      .ok (wholeBytes (quantizeVolume mode data) dims mode.stop []) := by
  have hcheck : checkReals (quantizeVolume mode data).multiples dims = .ok () :=
    checkReals_eq_ok_iff.mpr ⟨hd, (size_multiples _ _).trans hs, h⟩
  have hnone : correctionsFor mode data dims = .ok [] := by
    cases mode with
    | pointwise tolerance => exact absurd rfl (hmode tolerance)
    | lossless => rfl
    | bits count => rfl
    | quality decibels => rfl
  rw [compressWhole_eq, checkStep_of_isFinite mode (isFinite_spread hcheck), hcheck, hnone]
  rfl

theorem own_output_accepted_pair : ∃ bytes,
    compress .unbounded ⟨.lossless, none⟩ #[1, 3] ⟨2, 1, 1⟩ = .ok bytes ∧
      ∃ values, decompress .unbounded none bytes = .ok ⟨⟨2, 1, 1⟩, values⟩ ∧ values.size = 2 := by
  have hdata : ∀ v ∈ (#[1, 3] : Array Float), v.isFinite = true := by
    intro v hv
    simp only [List.mem_toArray, List.mem_cons, List.not_mem_nil, or_false] at hv
    rcases hv with rfl | rfl <;> decide
  have hcheck : checkVolume #[1, 3] ⟨2, 1, 1⟩ = .ok () :=
    checkVolume_eq_ok_iff.mpr ⟨rfl, rfl, by decide, hdata⟩
  have hmultiples : ∀ c ∈ (quantizeVolume .lossless #[1, 3]).multiples, c.isFinite = true := by
    intro c hc
    unfold quantizeVolume at hc
    simp only [List.map_toArray, List.map_cons, List.map_nil, List.mem_toArray, List.mem_cons,
      List.not_mem_nil, or_false] at hc
    rcases hc with rfl | rfl <;> decide +kernel
  have hwhole : compressWhole .unbounded .lossless #[1, 3] ⟨2, 1, 1⟩ = _ :=
    compressWhole_uncorrected nofun hmultiples rfl rfl
  have hbytes : compress .unbounded
      ⟨.lossless, (none : Option (Axes UInt64)).map (Axes.map UInt64.toNat)⟩ #[1, 3] ⟨2, 1, 1⟩ =
        .ok (wholeBytes (quantizeVolume .lossless #[1, 3]) ⟨2, 1, 1⟩ .complete []) := by
    show (checkVolume #[1, 3] ⟨2, 1, 1⟩ >>= fun _ => _) = _
    rw [hcheck]
    exact hwhole
  exact ⟨_, hbytes, (own_output_accepted_iff hbytes).mpr ⟨rfl, fun _ h => nomatch h⟩⟩

theorem checkVolume_zero : checkVolume #[0] ⟨1, 1, 1⟩ = .ok () := by
  refine checkVolume_eq_ok_iff.mpr ⟨rfl, rfl, by decide, fun v hv => ?_⟩
  obtain rfl := Array.mem_singleton.mp hv
  decide

theorem compressWhole_zero : compressWhole .unbounded .lossless #[0] ⟨1, 1, 1⟩ =
    .ok (wholeBytes (quantizeVolume .lossless #[0]) ⟨1, 1, 1⟩ .complete []) := by
  refine compressWhole_uncorrected nofun (fun c hc => ?_) rfl rfl
  unfold quantizeVolume at hc
  simp only [List.map_toArray, List.map_cons, List.map_nil] at hc
  obtain rfl := Array.mem_singleton.mp hc
  decide

theorem compress_zero_tiled : ∃ bytes,
    compressTiles .unbounded .lossless #[0] ⟨1, 1, 1⟩ ⟨2 ^ 40, 1, 1⟩ = .ok bytes := by
  have htiles : tiles ⟨1, 1, 1⟩ ⟨2 ^ 40, 1, 1⟩ = .ok [⟨⟨0, 0, 0⟩, ⟨1, 1, 1⟩⟩] := rfl
  obtain ⟨blocks, hblocks⟩ : ∃ blocks, [(⟨⟨0, 0, 0⟩, ⟨1, 1, 1⟩⟩ : Tile)].mapM (fun t =>
      compressWhole .unbounded (Mode.lossless.forTile t 1)
        ((t.gather? ⟨1, 1, 1⟩ #[0]).getD #[]) t.extent) = .ok blocks := by
    apply mapM_succeeds_iff.mpr
    intro t ht
    obtain rfl := List.mem_singleton.mp ht
    exact ⟨_, compressWhole_zero⟩
  refine ⟨tiledBytes ⟨1, 1, 1⟩ ⟨2 ^ 40, 1, 1⟩ blocks, ?_⟩
  rw [compressTiles_eq, checkVolume_zero, htiles]
  exact congrArg (· >>= fun blocks => pure (tiledBytes _ _ blocks)) hblocks

/-- Two values, each of which is a tile, are compressed. -/
theorem compressTiles_pair (mode : Mode) (hmode : ∀ tolerance, mode ≠ .pointwise tolerance) :
    ∃ blocks, compressTiles .unbounded mode #[1, 3] ⟨2, 1, 1⟩ ⟨1, 1, 1⟩ =
      .ok (tiledBytes ⟨2, 1, 1⟩ ⟨1, 1, 1⟩ blocks) := by
  have hcheck : checkVolume #[1, 3] ⟨2, 1, 1⟩ = .ok () := by
    refine checkVolume_eq_ok_iff.mpr ⟨rfl, rfl, by decide, fun v hv => ?_⟩
    simp only [List.mem_toArray, List.mem_cons, List.not_mem_nil, or_false] at hv
    rcases hv with rfl | rfl <;> decide
  have hwhole : ∀ t : Tile, ∀ x ∈ [(1 : Float), 3], ∃ block,
      compressWhole .unbounded (mode.forTile t 2) #[x] ⟨1, 1, 1⟩ = .ok block := by
    intro t x hx
    have htile : ∀ tolerance, mode.forTile t 2 ≠ .pointwise tolerance := by
      cases mode with
      | pointwise tolerance => exact absurd rfl (hmode tolerance)
      | lossless => exact nofun
      | bits count => exact nofun
      | quality decibels => exact nofun
    refine ⟨_, compressWhole_uncorrected htile (fun c hc => ?_) rfl rfl⟩
    rw [quantizeVolume_uncorrected htile] at hc
    unfold quantizeVolume at hc
    simp only [List.map_toArray, List.map_cons, List.map_nil] at hc
    obtain rfl := Array.mem_singleton.mp hc
    simp only [List.mem_cons, List.not_mem_nil, or_false] at hx
    rcases hx with rfl | rfl <;> decide +kernel
  obtain ⟨first, hfirst⟩ := hwhole ⟨⟨0, 0, 0⟩, ⟨1, 1, 1⟩⟩ 1 (by simp)
  obtain ⟨second, hsecond⟩ := hwhole ⟨⟨1, 0, 0⟩, ⟨1, 1, 1⟩⟩ 3 (by simp)
  have htiles : tiles ⟨2, 1, 1⟩ ⟨1, 1, 1⟩ =
      .ok [⟨⟨0, 0, 0⟩, ⟨1, 1, 1⟩⟩, ⟨⟨1, 0, 0⟩, ⟨1, 1, 1⟩⟩] := rfl
  have hblocks : [(⟨⟨0, 0, 0⟩, ⟨1, 1, 1⟩⟩ : Tile), ⟨⟨1, 0, 0⟩, ⟨1, 1, 1⟩⟩].mapM (fun t =>
      compressWhole .unbounded (mode.forTile t 2)
        ((t.gather? ⟨2, 1, 1⟩ #[1, 3]).getD #[]) t.extent) = .ok [first, second] := by
    show (compressWhole .unbounded (mode.forTile _ 2) #[1] ⟨1, 1, 1⟩ >>= fun first =>
      compressWhole .unbounded (mode.forTile _ 2) #[3] ⟨1, 1, 1⟩ >>= fun second =>
        pure [first, second]) = _
    rw [hfirst]
    show (compressWhole .unbounded (mode.forTile _ 2) #[3] ⟨1, 1, 1⟩ >>= fun second =>
      pure [first, second]) = _
    rw [hsecond]
    rfl
  refine ⟨[first, second], ?_⟩
  rw [compressTiles_eq, hcheck, htiles]
  exact congrArg (· >>= fun blocks => pure (tiledBytes _ _ blocks)) hblocks

theorem realBits_zero : realBits #[0] ⟨1, 1, 1⟩ .complete = [] := by
  unfold realBits signsOf
  simp only [List.map_toArray, List.map_cons, List.map_nil]
  rfl

theorem recoveredFrom_zero : (recoveredFrom #[0] ⟨1, 1, 1⟩ []).coefficients = #[0] := by
  have hplanes : allPlanes Float ⟨1, 1, 1⟩ (topPlane #[Float.abs 0]).toInt =
      .done (Progress.initial ⟨1, 1, 1⟩) := rfl
  unfold recoveredFrom Decoded.ofBits
  simp only [List.map_toArray, List.map_cons, List.map_nil, hplanes]
  show #[(0 : Float)].zipWith (fun m positive => if positive then m else -m) #[true] = #[0]
  rw [List.zipWith_toArray]
  rfl

/-- A zero that is restored to within a tolerance is not corrected. -/
theorem correctionBytes_zero {t : Float} {q : Quantization} (ht : isTolerance t = true)
    (hzero : q.multiples = #[0])
    (hnear : ¬t ≤ ((0 : Float) - restoreValue q.mean q.step 0).abs) :
    correctionBytes .unbounded #[0] q t (realOutline q.multiples ⟨1, 1, 1⟩ .complete)
      (Tape.empty.recorded (realBits q.multiples ⟨1, 1, 1⟩ .complete)) = .ok [] := by
  have hdecode : ((decodeReals .unbounded (outlineOf ⟨1, 1, 1⟩ (#[0].map Float.abs) 0) none).on
      (Tape.empty.recorded [])).1 =
        .ok (recoveredFrom #[0] ⟨1, 1, 1⟩ ((realBits #[0] ⟨1, 1, 1⟩ .complete).take 0)) :=
    decodeReals_on none rfl (Nat.zero_le _) rfl (.inr rfl) (Nat.zero_le _) fun i hi => nomatch hi
  rw [List.take_zero] at hdecode
  have hcreate : Corrections.create (#[0] : Array Float).size t = .ok ⟨1, t, #[]⟩ := by
    unfold Corrections.create
    rw [ht]
    rfl
  have hnone : missesOf #[0] (#[0].map (restoreValue q.mean q.step)) t = #[] := by
    simp [missesOf, hnear]
  unfold correctionBytes
  rw [hzero, realOutline, realBits_zero, List.length_nil, hdecode, hcreate]
  simp only [bind, Except.bind, recoveredFrom_zero, hnone]
  rfl

theorem compress_zero_pointwise : ∃ bytes,
    compressWhole .unbounded (.pointwise (Float.ofBits 0x7fefffffffffffff)) #[0] ⟨1, 1, 1⟩ =
      .ok bytes := by
  have ht : isTolerance (Float.ofBits 0x7fefffffffffffff) = true := by decide +kernel
  have hzero : (quantizeVolume (.pointwise (Float.ofBits 0x7fefffffffffffff)) #[0]).multiples =
      #[0] := by
    unfold quantizeVolume
    simp only [List.map_toArray, List.map_cons, List.map_nil]
    decide +kernel
  have hnear : ¬Float.ofBits 0x7fefffffffffffff ≤ ((0 : Float) -
      restoreValue (quantizeVolume (.pointwise (Float.ofBits 0x7fefffffffffffff)) #[0]).mean
        (quantizeVolume (.pointwise (Float.ofBits 0x7fefffffffffffff)) #[0]).step 0).abs := by
    decide +kernel
  have hcheck : checkReals (quantizeVolume (.pointwise (Float.ofBits 0x7fefffffffffffff))
      #[0]).multiples ⟨1, 1, 1⟩ = .ok () := by
    rw [hzero]
    refine checkReals_eq_ok_iff.mpr ⟨rfl, rfl, fun c hc => ?_⟩
    obtain rfl := Array.mem_singleton.mp hc
    decide
  have hcorrections : correctionsFor (.pointwise (Float.ofBits 0x7fefffffffffffff)) #[0] ⟨1, 1, 1⟩ =
      .ok [] := correctionBytes_zero ht hzero hnear
  rw [compressWhole_eq, hcheck, hcorrections]
  exact ⟨_, rfl⟩

/-- A single zero is compressed in tiles that are nominally too large, and with the greatest
tolerance of all, and either container is rejected. -/
theorem own_output_rejected :
    (∃ bytes, compress .unbounded ⟨.lossless, some ⟨2 ^ 40, 1, 1⟩⟩ #[0] ⟨1, 1, 1⟩ = .ok bytes ∧
      ¬∃ values, decompress .unbounded none bytes = .ok ⟨⟨1, 1, 1⟩, values⟩ ∧ values.size = 1) ∧
    ∃ bytes, compress .unbounded ⟨.pointwise (Float.ofBits 0x7fefffffffffffff), none⟩ #[0]
        ⟨1, 1, 1⟩ = .ok bytes ∧
      ¬∃ values, decompress .unbounded none bytes = .ok ⟨⟨1, 1, 1⟩, values⟩ ∧ values.size = 1 := by
  constructor
  · obtain ⟨bytes, hbytes⟩ := compress_zero_tiled
    refine ⟨bytes, hbytes, fun h => ?_⟩
    obtain ⟨-, hvolume⟩ :=
      (decompress_compressTiles rfl ⟨by decide, by decide, by decide⟩ hbytes).mp h
    exact absurd hvolume (by decide)
  · obtain ⟨bytes, hbytes⟩ := compress_zero_pointwise
    have hm : (Mode.pointwise (Float.ofBits 0x7fefffffffffffff)).check = .ok () := by
      have ht : isTolerance (Float.ofBits 0x7fefffffffffffff) = true := by decide +kernel
      simp only [Mode.check, ht, if_true]
    have hback := compressWhole_readBack hm (by decide) hbytes
    refine ⟨bytes, ?_, ?_⟩
    · unfold compress
      rw [hm, checkVolume_zero]
      exact hbytes
    · intro h
      obtain ⟨values, hvalues, -⟩ := h
      rw [hback.whole] at hvalues
      have hfinite := hback.finite _ hvalues
      have hinfinite :
          (Mode.pointwise (Float.ofBits 0x7fefffffffffffff)).hasFiniteStep = false := by
        decide +kernel
      rw [hinfinite] at hfinite
      cases hfinite

end VolumeCodec
