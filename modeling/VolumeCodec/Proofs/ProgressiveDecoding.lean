import VolumeCodec.Proofs.TiledContainers

namespace VolumeCodec

theorem checkVolume_eq_ok_iff {data : Array Float} {dims : Extents} :
    checkVolume data dims = .ok () ↔ dims.validate = .ok () ∧ data.size = dims.volume ∧
      dims.volume ≤ maxElements ∧ ∀ v ∈ data, v.isFinite = true := by
  have hnone : data.findIdx? (fun v => !v.isFinite) = none ↔ ∀ v ∈ data, v.isFinite = true := by
    rw [Array.findIdx?_eq_none_iff]
    simp
  rw [← hnone]
  unfold checkVolume
  constructor
  · intro h
    obtain ⟨_, hd, h⟩ := ok_of_bind h
    obtain ⟨hs, h⟩ := ok_of_check h
    obtain ⟨hm, h⟩ := ok_of_check h
    rw [Decidable.not_not] at hs
    refine ⟨hd, hs, by omega, ?_⟩
    cases hf : data.findIdx? fun v => !v.isFinite with
    | none => rfl
    | some i =>
      rw [hf] at h
      cases h
  · intro h
    obtain ⟨hd, hs, hm, hf⟩ := h
    simp only [hd, hs, hf, Nat.not_lt.mpr hm, ne_eq, not_true_eq_false, if_false]
    rfl

theorem decompress_wholeBytes (q : Quantization) {dims : Extents} (stop : Stop)
    (corrections : List UInt8) (limit : BitLimit) (hd : dims.validate = .ok ())
    (hv : dims.volume ≤ maxElements) :
    decompress .unbounded limit (wholeBytes q dims stop corrections) =
      decompressWhole .unbounded limit (wholeBytes q dims stop corrections) := by
  have hpreamble := Preamble.gets (p := wholePreamble dims corrections)
    (areWords_of_validate hd) (declaredExtents_of_validate hd hv)
  obtain ⟨-, hflag⟩ := flags_wholePreamble dims corrections
  have hfirst : (Preamble.read.from (wholeBytes q dims stop corrections)).1 =
      .ok (wholePreamble dims corrections) := by
    rw [wholeBytes, List.append_assoc, List.append_assoc, hpreamble]
  unfold decompress
  rw [hfirst]
  show (if (wholePreamble dims corrections).isTiled = true then _ else _) = _
  rw [hflag]
  rfl

theorem length_wholeBytes_le (q : Quantization) {dims : Extents} (stop : Stop)
    (corrections : List UInt8) (hd : dims.validate = .ok ()) (hv : dims.volume ≤ maxElements) :
    (wholeBytes q dims stop corrections).length ≤ 2 ^ 49 + 54 + corrections.length := by
  have hlength := length_storedReals_le q.multiples stop hd hv
  simp only [wholeBytes, List.length_append, Preamble.toBytes, Scale.toBytes, length_bytesOfUInt64,
    length_bytesOfBlock, length_bytesOfExtents, wholePreamble, Preamble.magic, List.length_cons,
    List.length_nil]
  omega

theorem realBits_of_limit (coefficients : Array Float) (dims : Extents) (b : Nat) :
    realBits coefficients dims (.bits b) = (realBits coefficients dims .complete).take b :=
  Encoder.written_of_limit b _

/-- Under a limit one container of a volume is decompressed like another one without. -/
structure CutTo (b : Nat) (full cut : List UInt8) : Prop where
  length_full : full.length < 2 ^ 61
  length_cut : cut.length < 2 ^ 61
  whole_full : ∀ limit, decompress .unbounded limit full = decompressWhole .unbounded limit full
  whole_cut : ∀ limit, decompress .unbounded limit cut = decompressWhole .unbounded limit cut
  decompressWhole_eq :
    decompressWhole .unbounded (some b) full = decompressWhole .unbounded none cut

theorem cutTo_wholeBytes (q : Quantization) {dims : Extents} (b : Nat) (hd : dims.validate = .ok ())
    (hv : dims.volume ≤ maxElements) :
    CutTo b (wholeBytes q dims .complete []) (wholeBytes q dims (.bits b) []) := by
  have hfull := length_wholeBytes_le q .complete [] hd hv
  have hcut := length_wholeBytes_le q (.bits b) [] hd hv
  rw [List.length_nil] at hfull hcut
  refine ⟨by omega, by omega, fun limit => decompress_wholeBytes q _ [] limit hd hv,
    fun limit => decompress_wholeBytes q _ [] limit hd hv, ?_⟩
  rw [decompressWhole_wholeBytes q _ _ (some b) hd hv, decompressWhole_wholeBytes q _ _ none hd hv]
  simp only [BitLimit.cut, realBits_of_limit, List.isEmpty_nil, if_true]

theorem compressWhole_alike (data : Array Float) {dims : Extents} (b : Nat)
    (hv : dims.volume ≤ maxElements) :
    Alike (CutTo b) (compressWhole .unbounded .lossless data dims)
      (compressWhole .unbounded (.bits b) data dims) := by
  rw [compressWhole_eq, compressWhole_eq]
  refine (Alike.refl (checkStep .lossless (spread data)) (R := fun _ _ => True) fun _ _ => trivial).bind fun _ _ _ => ?_
  refine (Alike.refl (checkReals (quantizeVolume .lossless data).multiples dims)
    (R := fun _ _ => dims.validate = .ok ()) fun u hu => (checkReals_eq_ok_iff.mp hu).1).bind
    fun _ _ hd => ?_
  exact cutTo_wholeBytes (quantizeVolume .lossless data) b hd hv

theorem areWords_map (e : Axes UInt64) : (e.map UInt64.toNat).AreWords :=
  ⟨e.x.toNat_lt, e.y.toNat_lt, e.z.toNat_lt⟩

/-- A limit on a volume in tiles may be set before its bits are stored or after. -/
theorem compressTiles_alike (data : Array Float) (dims : Extents) {nominal : Extents} (b : Nat)
    (hw : nominal.AreWords) :
    Alike (fun full cut => decompress .unbounded (some b) full = decompress .unbounded none cut)
      (compressTiles .unbounded .lossless data dims nominal)
      (compressTiles .unbounded (.bits b) data dims nominal) := by
  rw [compressTiles_eq, compressTiles_eq]
  refine (Alike.refl _ fun u hu => ?_).bind
    (R := fun _ _ => dims.validate = .ok () ∧ dims.volume ≤ maxElements) ?_
  · obtain ⟨hd, -, hv, -⟩ := checkVolume_eq_ok_iff.mp hu
    exact ⟨hd, hv⟩
  intro _ _ h
  obtain ⟨hd, hv⟩ := h
  refine (Alike.refl _ fun ts hts => ?_).bind
    (R := fun ts ts' => ts = ts' ∧ tiles dims nominal = .ok ts) ?_
  · exact ⟨rfl, hts⟩
  intro ts _ h
  obtain ⟨rfl, hts⟩ := h
  refine (Alike.mapM fun t ht => compressWhole_alike ((t.gather? dims data).getD #[])
    (t.share b dims.volume) (Nat.le_trans (volume_le_of_mem_tiles hts ht) hv)).bind ?_
  intro fulls cuts h
  obtain ⟨rows, rfl, rfl, rfl, hrows⟩ := h
  have hfull := decompress_tiledBytes (rows.map (·.2.1)) (some b) hd hv hw hts (by simp)
    (by simpa using fun full t cut hr => (hrows (t, full, cut) hr).length_full)
  have hcut := decompress_tiledBytes (rows.map (·.2.2)) none hd hv hw hts (by simp)
    (by simpa using fun cut t full hr => (hrows (t, full, cut) hr).length_cut)
  rw [List.zip_map', List.mapM_map] at hfull hcut
  show decompress .unbounded (some b) (tiledBytes dims nominal (rows.map (·.2.1))) =
    decompress .unbounded none (tiledBytes dims nominal (rows.map (·.2.2)))
  rw [hfull, hcut]
  have hvalues : ∀ r ∈ rows,
      decompressTile .unbounded (some b) dims.volume r.1 r.2.1 =
        decompressTile .unbounded none dims.volume r.1 r.2.2 := by
    intro r hr
    unfold decompressTile
    rw [Option.map_some, Option.map_none, (hrows r hr).decompressWhole_eq]
  have hall := mapM_congr fun r hr => congrArg ((r.1, ·) <$> ·) (hvalues r hr)
  exact congrArg (fun values => declaredExtents nominal >>= fun _ => values >>= fun values =>
    pure (⟨dims, assemble dims values⟩ : Volume)) hall

/-- Compression without loss succeeds exactly if compression under a limit does, and then it makes
no difference whether the limit is set when the volume is compressed or when it is decompressed. -/
theorem progressive_decoding (tile : Option (Axes UInt64)) (data : Array Float) (dims : Extents)
    (b : Nat) :
    Alike (fun full cut => decompress .unbounded (some b) full = decompress .unbounded none cut)
      (compress .unbounded ⟨.lossless, tile.map (Axes.map UInt64.toNat)⟩ data dims)
      (compress .unbounded ⟨.bits b, tile.map (Axes.map UInt64.toNat)⟩ data dims) := by
  cases tile with
  | some words => exact compressTiles_alike data dims b (areWords_map words)
  | none =>
    show Alike _ (checkVolume data dims >>= fun _ => compressWhole .unbounded .lossless data dims)
      (checkVolume data dims >>= fun _ => compressWhole .unbounded (.bits b) data dims)
    refine (Alike.refl (checkVolume data dims) (R := fun _ _ => dims.volume ≤ maxElements)
      fun u hu => (checkVolume_eq_ok_iff.mp hu).2.2.1).bind fun _ _ hv => ?_
    apply (compressWhole_alike data b hv).mono
    intro full cut h
    rw [h.whole_full, h.whole_cut, h.decompressWhole_eq]

end VolumeCodec
