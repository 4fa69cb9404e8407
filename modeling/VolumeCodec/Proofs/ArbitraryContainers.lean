import VolumeCodec.Proofs.ArbitraryHeaders
import VolumeCodec.Proofs.ArbitraryStreams
import VolumeCodec.Proofs.ContainerSteps
import VolumeCodec.Proofs.StoredCorrections

namespace VolumeCodec

/-- A volume of dimensions that can be declared, with a value for each of its elements. -/
structure Volume.IsSound (v : Volume) : Prop where
  dims : v.dims.AreDeclared
  size : v.data.size = v.dims.volume

theorem StoredCode.ofBytes_endsWell (memory : Memory) (bytes : List UInt8) (dims : Extents) :
    EndsWell (StoredCode.ofBytes memory bytes dims) fun code => code.outline.dims = dims := by
  unfold StoredCode.ofBytes
  dsimp only
  refine endsWell_bind (CodeHeader.read_endsWell bytes).result fun header _ => ?_
  refine endsWell_bind (load_endsWell memory _ _ .empty).result fun _ _ => ?_
  exact rfl

theorem Quantized.position_lt {q : Quantized} {tolerance : Float} {c : Correction}
    (h : c ∈ q.restore tolerance) : c.position < q.magnitudes.size := by
  unfold Quantized.restore at h
  obtain ⟨⟨⟨m, positive⟩, i⟩, hmem, hc⟩ := List.mem_filterMap.mp h
  have hi := (List.mem_zipIdx hmem).2.1
  rw [Array.length_toList, Array.size_zip] at hi
  dsimp only at hc
  split at hc
  next => cases hc
  next =>
    obtain rfl := Option.some.inj hc
    dsimp only
    omega

section Corrections

variable (memory : Memory)

theorem Corrections.decode_endsWell {outline : CorrectionOutline} (t : Tape)
    (hd : outline.row.dims.validate = .ok ()) :
    (Corrections.decode memory outline).EndsWell t fun list _ =>
      ∀ c ∈ list, c.position < outline.length := by
  refine Action.endsWell_check (fun _ => .inl rfl) fun _ => ?_
  refine Action.endsWell_bind ((VolumeCodec.decode_endsWell memory none t hd).mono
    fun d _ hsize => ?_)
  refine Action.endsWell_pure fun c hc => Nat.lt_of_lt_of_le (Quantized.position_lt hc) ?_
  rw [Packed.toNats, Array.size_map, hsize.1]
  exact Nat.le_refl _

theorem decodeCorrections_endsWell {outline : CorrectionOutline} (bytes : List UInt8)
    (hd : outline.row.dims.validate = .ok ()) :
    EndsWell (decodeCorrections memory outline bytes) fun list =>
      ∀ c ∈ list, c.position < outline.length :=
  Action.EndsWell.result (Action.endsWell_bind ((load_endsWell memory bytes _ .empty).mono
    fun _ t _ => Corrections.decode_endsWell memory t hd))

/-- Corrections are only looked at if they are made for as many values as there are. -/
theorem readCorrectionCode_endsWell (count : Nat) (input : List UInt8) :
    (readCorrectionCode count).EndsWell input fun r _ =>
      r.1.length = count ∧ r.1.row.dims.validate = .ok () := by
  refine Action.endsWell_bind ((CorrectionHeader.read_endsWell input).mono fun header rest _ => ?_)
  refine Action.endsWell_bind (Action.endsWell_lift (header.toOutline_endsWell.mono
    fun outline hd => ?_))
  refine Action.endsWell_check (fun _ => .inl rfl) fun hlength => ?_
  refine Action.endsWell_bind ((Reader.block_endsWell rest).mono fun bytes _ _ => ?_)
  exact Action.endsWell_pure ⟨Decidable.not_not.mp hlength, hd⟩

theorem readCorrections_endsWell (limit : BitLimit) (data : Array Float) (input : List UInt8) :
    (readCorrections memory limit data).EndsWell input fun corrected _ =>
      corrected.size = data.size := by
  rw [readCorrections_eq]
  refine Action.endsWell_bind ((readCorrectionCode_endsWell data.size input).mono
    fun r rest h => ?_)
  obtain ⟨outline, bytes⟩ := r
  cases limit.isSome with
  | true => exact Action.endsWell_pure rfl
  | false =>
    exact Action.endsWell_bind (Action.endsWell_lift ((decodeCorrections_endsWell memory bytes
      h.2).mono fun list _ => Action.endsWell_pure (size_applyCorrections data list)))

end Corrections

section Whole

variable (memory : Memory) (limit : BitLimit) (input : List UInt8)

theorem readCode_endsWell :
    (readCode memory).EndsWell input fun r _ =>
      r.1.dims.AreDeclared ∧ r.2.2.outline.dims = r.1.dims := by
  refine Action.endsWell_bind ((Preamble.read_endsWell input).mono fun preamble rest hp => ?_)
  refine Action.endsWell_bind ((Scale.read_endsWell rest).mono fun scale rest _ => ?_)
  refine Action.endsWell_bind ((Reader.block_endsWell rest).mono fun bytes rest _ => ?_)
  refine Action.endsWell_bind (Action.endsWell_lift ((StoredCode.ofBytes_endsWell memory bytes
    preamble.dims).mono fun code hcode => ?_))
  exact Action.endsWell_pure ⟨hp, hcode⟩

theorem readUncorrected_endsWell :
    (readUncorrected memory limit).EndsWell input fun r _ =>
      r.1.dims.AreDeclared ∧ r.2.size = r.1.dims.volume := by
  refine Action.endsWell_bind ((readCode_endsWell memory input).mono fun r rest h => ?_)
  obtain ⟨preamble, scale, code⟩ := r
  obtain ⟨hp, hdims⟩ := h
  have hd : code.outline.dims.validate = .ok () := hdims ▸ hp.validate
  refine Action.endsWell_bind (Action.endsWell_lift ((decodeReals_endsWell memory limit code.tape
    hd).mono fun decoded hsize => Action.endsWell_pure ⟨hp, ?_⟩))
  rw [Array.size_map, hsize, hdims]

theorem readWhole_endsWell :
    (readWhole memory limit).EndsWell input fun v _ => v.IsSound := by
  rw [readWhole_eq]
  refine Action.endsWell_bind ((readUncorrected_endsWell memory limit input).mono fun r rest h => ?_)
  obtain ⟨preamble, data⟩ := r
  obtain ⟨hp, hsize⟩ := h
  dsimp only
  cases preamble.isCorrected with
  | false => exact Action.endsWell_pure ⟨hp, hsize⟩
  | true =>
    exact Action.endsWell_bind ((readCorrections_endsWell memory limit data rest).mono
      fun corrected _ hcorrected => Action.endsWell_pure ⟨hp, hcorrected.trans hsize⟩)

theorem decompressWhole_endsWell :
    EndsWell (decompressWhole memory limit input) Volume.IsSound :=
  (readWhole_endsWell memory limit input).result

end Whole

theorem Action.EndsWell.of_run {σ α : Type} {u : Action σ α} {s t : σ} {a : α}
    {post : α → σ → Prop} (h : u.EndsWell s post) (hu : u.run.run s = (.ok a, t)) : post a t := by
  unfold Action.EndsWell at h
  rw [hu] at h
  exact h

/-- Reading a container of one volume never leaves an array. -/
structure ReadsInside (memory : Memory) (limit : BitLimit) (bytes : List UInt8) : Prop where
  /-- Bits are only asked for coefficients of the volume. -/
  coefficients : ∀ preamble scale code rest,
    (readCode memory).from bytes = (.ok (preamble, scale, code), rest) →
      ∀ q ∈ Decoder.questions Float code.outline (code.outline.required limit) code.tape,
        ∀ i ∈ q.indices preamble.dims, i < preamble.dims.volume
  /-- Bits are only asked for corrections of values that are there. -/
  magnitudes : ∀ preamble data rest outline block left,
    (readUncorrected memory limit).from bytes = (.ok (preamble, data), rest) →
    (readCorrectionCode data.size).from rest = (.ok (outline, block), left) →
      ∀ tape, ∀ q ∈ Decoder.questions (BitVec outline.width.bits) outline.row outline.row.bitCount
        tape, ∀ i ∈ q.indices outline.row.dims, i < data.size
  /-- Only values that are there are corrected. -/
  corrections : ∀ preamble data rest outline block left,
    (readUncorrected memory limit).from bytes = (.ok (preamble, data), rest) →
    (readCorrectionCode data.size).from rest = (.ok (outline, block), left) →
      ∀ list, decodeCorrections memory outline block = .ok list → ∀ c ∈ list, c.position < data.size

theorem readsInside (memory : Memory) (limit : BitLimit) (bytes : List UInt8) :
    ReadsInside memory limit bytes where
  coefficients preamble scale code rest h := by
    obtain ⟨hp, hdims⟩ := (readCode_endsWell memory bytes).of_run h
    rw [← hdims] at hp ⊢
    exact (Decoder.questions_inside code.outline _ code.tape hp.validate).1
  magnitudes preamble data rest outline block left _ h tape := by
    obtain ⟨hlength, hd⟩ := (readCorrectionCode_endsWell data.size rest).of_run h
    rw [← hlength]
    exact (Decoder.questions_inside outline.row _ tape hd).1
  corrections preamble data rest outline block left _ h list hlist := by
    obtain ⟨hlength, hd⟩ := (readCorrectionCode_endsWell data.size rest).of_run h
    have hinside := decodeCorrections_endsWell memory block hd
    rw [hlist] at hinside
    rw [← hlength]
    exact hinside

end VolumeCodec
