import VolumeCodec.Proofs.AcceptedOutput
import VolumeCodec.Proofs.QuantizedCorrections

namespace VolumeCodec

section Reading

variable {dims : Extents} {tolerance : Float}

/-- The values that are compared with the data are those that a container comes to before it is
corrected. -/
theorem comparedValues_recorded (q : Quantization) (hd : dims.validate = .ok ()) :
    comparedValues .unbounded q (realOutline q.multiples dims .complete)
      (Tape.empty.recorded (realBits q.multiples dims .complete)) =
        .ok (restoredReals q dims (realBits q.multiples dims .complete)) := by
  obtain ⟨-, hpos, hbit⟩ := Tape.recorded_spec .empty (realBits q.multiples dims .complete)
  have hdecode :=
    decodeReals_on none hd (Nat.le_refl _) rfl (.inr rfl) (Nat.le_of_eq hpos.symm) hbit
  rw [List.take_length] at hdecode
  have hscale : (Scale.ofFloats q.mean q.step).mean = q.mean ∧
      (Scale.ofFloats q.mean q.step).step = q.step :=
    ⟨Float.ofBits_toBits _, Float.ofBits_toBits _⟩
  unfold comparedValues restoredReals realOutline
  dsimp only
  rw [hdecode, hscale.1, hscale.2]
  rfl

/-- The values that are compared, by the coefficients that they are restored from. -/
theorem comparedValues_eq_ok {memory : Memory} {q : Quantization} {outline : Outline} {tape : Tape}
    {values : Array Float} (h : comparedValues memory q outline tape = .ok values) :
    ∃ decoded, ((decodeReals memory outline none).on tape).1 = .ok decoded ∧
      values = decoded.coefficients.map (restoreValue q.mean q.step) := by
  obtain ⟨decoded, hdecoded, h⟩ := ok_of_bind h
  exact ⟨decoded, hdecoded, (Except.ok.inj h).symm⟩

/-- The values that are read, by the coefficients that they are restored from. -/
theorem readUncorrected_eq_ok {memory : Memory} {limit : BitLimit} {input rest : List UInt8}
    {preamble : Preamble} {values : Array Float}
    (h : (readUncorrected memory limit).from input = (.ok (preamble, values), rest)) :
    ∃ scale code found, (readCode memory).from input = (.ok (preamble, scale, code), rest) ∧
      ((decodeReals memory code.outline limit).on code.tape).1 = .ok found ∧
      values = found.coefficients.map (restoreValue scale.mean scale.step) := by
  obtain ⟨⟨_, scale, code⟩, _, hcode, h⟩ := Action.run_bind_eq_ok.mp h
  obtain ⟨found, _, hlift, h⟩ := Action.run_bind_eq_ok.mp h
  cases h
  obtain ⟨hfound, rfl⟩ := Action.run_lift_eq_ok hlift
  exact ⟨scale, code, found, hcode, hfound, rfl⟩

theorem getD_restored {coefficients : Array Float} (mean step : Float) {i : Nat}
    (hi : i < coefficients.size) : (coefficients.map (restoreValue mean step)).getD i 0 =
      coefficients.getD i 0 * step + mean := by
  simp [Array.getD_eq_getD_getElem?, hi, restoreValue]

theorem isEmpty_toBytes (code : CorrectionCode) (length : Nat) (tolerance : Float) :
    (code.toBytes length tolerance).isEmpty = false := by
  simp [CorrectionCode.toBytes, CorrectionHeader.toBytes]

/-- The corrections of a container are those for the misses of its values, each by the nearest
multiple of the tolerance. -/
theorem readCorrectionList_codeMisses (dims : Extents) {data values : Array Float}
    {corrections : List UInt8}
    (hsize : data.size = values.size) (hv : data.size ≤ maxElements)
    (ht : isTolerance tolerance = true)
    (h : codeMisses .unbounded data tolerance values = .ok corrections) :
    ((readCorrectionList .unbounded (wholePreamble dims corrections) values.size).from
      corrections).1 =
        .ok ((missesOf data values tolerance).toList.map (Correction.nearest tolerance)) := by
  obtain ⟨hflag, -⟩ := flags_wholePreamble dims corrections
  unfold readCorrectionList
  rw [hflag]
  rcases codeMisses_cases h with ⟨hnone, rfl⟩ | ⟨hd, q, hq, rfl⟩
  · rw [Array.isEmpty_iff.mp hnone]
    rfl
  · obtain ⟨-, hall⟩ := Corrections.quantize_eq_ok hq ht
    have hrestored : q.code.restored data.size tolerance = _ :=
      (Quantized.restored_code tolerance hd hall.size_magnitudes hall.size_signs hall.lt).trans
        (Quantized.restore_misses hsize ht hq)
    have hread : (readCorrectionCode data.size >>= fun r =>
        (decodeCorrections .unbounded r.1 r.2 : Reader (List Correction))).Gets
          (q.code.toBytes data.size tolerance ++ []) (q.code.restored data.size tolerance) :=
      (q.code.gets_correctionCode hd hv).bind
        (Reader.gets_of_eq_ok (q.code.decodeCorrections_packed ht hd))
    have hresult := congrArg Prod.fst (hread [])
    rw [List.append_nil, List.append_nil, hrestored] at hresult
    rw [isEmpty_toBytes, ← hsize]
    exact hresult

end Reading

section Pointwise

variable {tolerance : Float} {data : Array Float} {dims : Extents} {bytes : List UInt8}

/-- How a volume is compressed to within a tolerance: the corrections are those for the values that
its own coded coefficients come to. -/
structure Compared (tolerance : Float) (data : Array Float) (dims : Extents) (bytes : List UInt8)
    (values : Array Float) (corrections : List UInt8) : Prop where
  isTolerance : isTolerance tolerance = true
  size : data.size = dims.volume
  volume_le : dims.volume ≤ maxElements
  reals : checkReals (quantizeVolume (.pointwise tolerance) data).multiples dims = .ok ()
  compared : values = restoredReals (quantizeVolume (.pointwise tolerance) data) dims
    (realBits (quantizeVolume (.pointwise tolerance) data).multiples dims .complete)
  misses : codeMisses .unbounded data tolerance values = .ok corrections
  bytes : bytes = wholeBytes (quantizeVolume (.pointwise tolerance) data) dims .complete corrections

theorem compared_of_compress
    (h : compress .unbounded ⟨.pointwise tolerance, none⟩ data dims = .ok bytes) :
    ∃ values corrections, Compared tolerance data dims bytes values corrections := by
  obtain ⟨_, hm, h⟩ := ok_of_bind h
  obtain ⟨_, hcheck, h⟩ := ok_of_bind h
  obtain ⟨-, hs, hv, -⟩ := checkVolume_eq_ok_iff.mp hcheck
  change compressWhole .unbounded (.pointwise tolerance) data dims = .ok bytes at h
  rw [compressWhole_eq] at h
  obtain ⟨_, -, h⟩ := ok_of_bind h
  obtain ⟨_, hreals, h⟩ := ok_of_bind h
  obtain ⟨corrections, hcorrections, h⟩ := ok_of_bind h
  change correctionBytes .unbounded data _ tolerance _ _ = .ok corrections at hcorrections
  rw [correctionBytes_eq] at hcorrections
  obtain ⟨values, hvalues, hmisses⟩ := ok_of_bind hcorrections
  have hrecorded := comparedValues_recorded (quantizeVolume (.pointwise tolerance) data)
    (checkReals_eq_ok_iff.mp hreals).1
  have hvalues := hrecorded.symm.trans hvalues
  exact ⟨values, corrections, isTolerance_of_check hm, hs, hv, hreals,
    (Except.ok.inj hvalues).symm, hmisses, (Except.ok.inj h).symm⟩

variable {values : Array Float} {corrections : List UInt8}

theorem Compared.size_values (h : Compared tolerance data dims bytes values corrections) :
    values.size = dims.volume := by
  rw [h.compared, size_restoredReals]

/-- A container that can be read is read up to the values that were compared, and its corrections
are those for their misses. -/
theorem Compared.read (h : Compared tolerance data dims bytes values corrections) {v : Volume}
    (hv : decompress .unbounded none bytes = .ok v) :
    (readUncorrected .unbounded none).from bytes =
      (.ok (wholePreamble dims corrections, values), corrections) ∧
    ((readCorrectionList .unbounded (wholePreamble dims corrections) values.size).from
      corrections).1 =
        .ok ((missesOf data values tolerance).toList.map (Correction.nearest tolerance)) ∧
    v = ⟨dims, applyCorrections values
      ((missesOf data values tolerance).toList.map (Correction.nearest tolerance))⟩ := by
  obtain ⟨hd, -, -⟩ := checkReals_eq_ok_iff.mp h.reals
  have hlist := readCorrectionList_codeMisses dims (h.size.trans h.size_values.symm)
    (Nat.le_trans (Nat.le_of_eq h.size) h.volume_le) h.isTolerance h.misses
  rw [h.bytes, decompress_wholeBytes _ _ _ _ hd h.volume_le] at hv
  have husable : (Scale.ofFloats (quantizeVolume (.pointwise tolerance) data).mean
      (quantizeVolume (.pointwise tolerance) data).step).isUsable = true := by
    rw [decompressWhole_wholeBytes _ _ _ _ hd h.volume_le] at hv
    by_contra hunusable
    rw [if_neg hunusable] at hv
    cases hv
  have hread := readUncorrected_wholeBytes (quantizeVolume (.pointwise tolerance) data) .complete
    corrections none hd h.volume_le husable
  rw [BitLimit.cut, ← h.compared, ← h.bytes] at hread
  refine ⟨hread, hlist, ?_⟩
  rw [← h.bytes, decompressWhole, readWhole_none, Reader.from_bind, hread] at hv
  dsimp only at hv
  rw [Reader.from_bind] at hv
  obtain ⟨rest, hrun⟩ := Action.run_eq_of_fst hlist
  have hrun : (readCorrectionList .unbounded (wholePreamble dims corrections) values.size).from
      corrections = _ := hrun
  rw [hrun] at hv
  exact (Except.ok.inj hv).symm

/-- What has become of one value after all corrections. -/
theorem getD_corrected (tolerance : Float) (hsize : data.size = values.size) {i : Nat}
    (hi : i < data.size) :
    (applyCorrections values
      ((missesOf data values tolerance).toList.map (Correction.nearest tolerance))).getD i 0 =
        (missAt data values tolerance i).elim (values.getD i 0)
          fun x => values.getD i 0 + (x.nearest tolerance).error := by
  have hplaced : IsPlaced fun j => (missAt data values tolerance j).map
      (Correction.nearest tolerance) := by
    intro j x hx
    obtain ⟨y, hy, rfl⟩ := Option.map_eq_some_iff.mp hx
    exact (missAt_eq_some hy).1
  rw [toList_missesOf hsize, List.map_filterMap,
    getD_applyCorrections hplaced _ (Nat.le_of_eq hsize) i, if_pos hi]
  cases missAt data values tolerance i <;> rfl

theorem mem_missesOf_iff (hsize : data.size = values.size) {i : Nat} (hi : i < data.size) :
    (∃ x ∈ (missesOf data values tolerance).toList.map (Correction.nearest tolerance),
      x.position = i) ↔ tolerance ≤ (data.getD i 0 - values.getD i 0).abs := by
  rw [toList_missesOf hsize]
  constructor
  · intro h
    obtain ⟨x, hx, hposition⟩ := h
    obtain ⟨y, hy, rfl⟩ := List.mem_map.mp hx
    obtain ⟨j, -, hmiss⟩ := List.mem_filterMap.mp hy
    obtain rfl : j = i := (missAt_eq_some hmiss).1.symm.trans hposition
    unfold missAt at hmiss
    dsimp only at hmiss
    by_contra hnear
    rw [if_neg hnear] at hmiss
    cases hmiss
  · intro h
    have hmiss : missAt data values tolerance i = some ⟨i, data.getD i 0 - values.getD i 0⟩ :=
      if_pos h
    exact ⟨_, List.mem_map_of_mem (List.mem_filterMap.mpr ⟨i, List.mem_range.mpr hi, hmiss⟩), rfl⟩

/-- The tolerance is kept by what is read, and not only by what was written. Where the compressor
decodes its own coefficients `c`, and compares `c * q.step + q.mean` with the data, a decompressor
holds the same value, bit for bit, from the coefficients and the scale that it reads. Corrections are
made where this misses the data by the tolerance or more, and nowhere else; each is by the nearest
multiple of the tolerance, in the direction of the error; and all other values are near enough as
they are. -/
theorem pointwise_checked {v : Volume}
    (hc : compress .unbounded ⟨.pointwise tolerance, none⟩ data dims = .ok bytes)
    (hv : decompress .unbounded none bytes = .ok v) :
    let q := quantizeVolume (.pointwise tolerance) data
    ∃ outline tape decoded values preamble scale code found rest list,
      (encodeReals .unbounded q.multiples dims .complete).on .empty = (.ok outline, tape) ∧
      ((decodeReals .unbounded outline none).on tape).1 = .ok decoded ∧
      comparedValues .unbounded q outline tape = .ok values ∧
      (readCode .unbounded).from bytes = (.ok (preamble, scale, code), rest) ∧
      ((decodeReals .unbounded code.outline none).on code.tape).1 = .ok found ∧
      (readUncorrected .unbounded none).from bytes = (.ok (preamble, values), rest) ∧
      ((readCorrectionList .unbounded preamble values.size).from rest).1 = .ok list ∧
      list = (missesOf data values tolerance).toList.map (Correction.nearest tolerance) ∧
      v.dims = dims ∧ v.data.size = dims.volume ∧
      ∀ i < dims.volume,
        let compared := decoded.coefficients.getD i 0 * q.step + q.mean
        let held := found.coefficients.getD i 0 * scale.step + scale.mean
        let error := data.getD i 0 - compared
        let size := tolerance * roundToEven (error.abs / tolerance)
        values.getD i 0 = compared ∧ values.getD i 0 = held ∧
        ((∃ x ∈ list, x.position = i) ↔ tolerance ≤ error.abs) ∧
        (tolerance ≤ error.abs →
          v.data.getD i 0 = held + if 0 ≤ error then size else -size) ∧
        (¬tolerance ≤ error.abs →
          v.data.getD i 0 = held ∧ ¬tolerance ≤ (data.getD i 0 - v.data.getD i 0).abs) := by
  intro q
  obtain ⟨values, corrections, h⟩ := compared_of_compress hc
  obtain ⟨hread, hlist, rfl⟩ := h.read hv
  have hsize : data.size = values.size := h.size.trans h.size_values.symm
  have hencode := encodeReals_on q.multiples dims .complete .empty
  rw [h.reals] at hencode
  have hcompared := comparedValues_recorded q (checkReals_eq_ok_iff.mp h.reals).1
  rw [← h.compared] at hcompared
  obtain ⟨decoded, hdecoded, hrestored⟩ := comparedValues_eq_ok hcompared
  obtain ⟨scale, code, found, hcode, hfound, hheld⟩ := readUncorrected_eq_ok hread
  refine ⟨_, _, decoded, values, _, scale, code, found, _, _, hencode, hdecoded, hcompared, hcode,
    hfound, hread, hlist, rfl, rfl, (size_applyCorrections _ _).trans h.size_values, fun i hi => ?_⟩
  intro compared held error size
  have hi : i < data.size := h.size ▸ hi
  have hsame : values.getD i 0 = compared := by
    have hlt : i < decoded.coefficients.size := by
      rw [← Array.size_map, ← hrestored, ← hsize]
      exact hi
    rw [hrestored]
    exact getD_restored q.mean q.step hlt
  have hfrom : values.getD i 0 = held := by
    have hlt : i < found.coefficients.size := by
      rw [← Array.size_map, ← hheld, ← hsize]
      exact hi
    rw [hheld]
    exact getD_restored scale.mean scale.step hlt
  have herror : error = data.getD i 0 - values.getD i 0 := by rw [hsame]
  have hvalue := getD_corrected tolerance hsize hi
  refine ⟨hsame, hfrom, ?_, fun hfar => ?_, fun hnear => ?_⟩
  · rw [herror]
    exact mem_missesOf_iff hsize hi
  · have hmiss : missAt data values tolerance i = some ⟨i, error⟩ := by
      rw [herror] at hfar ⊢
      exact if_pos hfar
    rw [hmiss, hfrom] at hvalue
    exact hvalue
  · have hmiss : missAt data values tolerance i = none := by
      rw [herror] at hnear
      exact if_neg hnear
    rw [hmiss, Option.elim_none] at hvalue
    refine ⟨hvalue.trans hfrom, ?_⟩
    rw [hvalue, ← herror]
    exact hnear

end Pointwise

/-- Two neighbours among the doubles, at a step of three. The second one is held one too far, and a
correction takes it back. -/
theorem pointwise_checked_neighbours : ∃ bytes v preamble values rest list,
    compress .unbounded ⟨.pointwise 2, none⟩ #[9007199254741000, 9007199254741002] ⟨2, 1, 1⟩ =
      .ok bytes ∧ decompress .unbounded none bytes = .ok v ∧
    (readUncorrected .unbounded none).from bytes = (.ok (preamble, values), rest) ∧
    values = #[9007199254741000, 9007199254741004] ∧
    ((readCorrectionList .unbounded preamble values.size).from rest).1 = .ok list ∧
    list.map (fun x => (x.position, x.error)) = [(1, -2)] ∧
    v = ⟨⟨2, 1, 1⟩, #[9007199254741000, 9007199254741002]⟩ := by
  have hvolume : ((compress .unbounded ⟨.pointwise 2, none⟩ #[9007199254741000, 9007199254741002]
      ⟨2, 1, 1⟩ >>= decompress .unbounded none).toOption.map fun v => (v.dims, v.data)) =
        some (⟨2, 1, 1⟩, #[9007199254741000, 9007199254741002]) := by decide +kernel
  have hvalues : (compress .unbounded ⟨.pointwise 2, none⟩ #[9007199254741000, 9007199254741002]
      ⟨2, 1, 1⟩ >>= fun bytes => ((readUncorrected .unbounded none).from bytes).1.map
        (·.2)).toOption = some #[9007199254741000, 9007199254741004] := by decide +kernel
  cases hrun : compress .unbounded ⟨.pointwise 2, none⟩ #[9007199254741000, 9007199254741002]
      ⟨2, 1, 1⟩ >>= decompress .unbounded none with
  | error fault =>
    rw [hrun] at hvolume
    cases hvolume
  | ok v =>
    rw [hrun] at hvolume
    obtain ⟨bytes, hc, hv⟩ := ok_of_bind hrun
    obtain ⟨-, -, -, values, preamble, -, -, -, rest, list, -, -, -, -, -, hread, hlist, hmisses,
      -⟩ := pointwise_checked hc hv
    rw [hc] at hvalues
    change (((readUncorrected .unbounded none).from bytes).1.map (·.2)).toOption = _ at hvalues
    rw [hread] at hvalues
    obtain rfl := Option.some.inj hvalues
    obtain ⟨hdims, hdata⟩ := Prod.mk.inj (Option.some.inj hvolume)
    obtain ⟨dims, data⟩ := v
    obtain rfl : dims = ⟨2, 1, 1⟩ := hdims
    obtain rfl : data = #[9007199254741000, 9007199254741002] := hdata
    refine ⟨bytes, _, preamble, _, rest, list, hc, hv, hread, rfl, hlist, ?_, rfl⟩
    rw [hmisses]
    decide +kernel

end VolumeCodec
