import VolumeCodec.Proofs.MissingBits

namespace VolumeCodec

/-- What the decompression of some bytes asks for: they say themselves which kind of container they
are. -/
def AskedBy (memory : Memory) (limit : BitLimit) (bytes : List UInt8) (d : Demand) : Prop :=
  ∃ preamble, (Preamble.read.from bytes).1 = .ok preamble ∧
    if preamble.isTiled then AskedByTiles memory limit bytes d else AskedByWhole memory limit bytes d

/-- The outcome of a decompression is a sound volume, a fault of the data, or a request for memory
that is refused. No caller is ever blamed. There is no answer at all exactly if a block is asked for
that is oversized. -/
structure EndsAsData (r : Except Fault Volume) (D : Demand → Prop) : Prop where
  sound : ∀ v, r = .ok v → v.IsSound
  fault : ∀ f, r = .error f →
    f.comesFromData = true ∨ (∃ bytes, f = .allocation bytes) ∨ f = .overflow
  not_misuse : ∀ f, r = .error f → (∀ why, f ≠ .invalidArgument why) ∧ f ≠ .conflictingStops
  overflow_iff : r = .error .overflow ↔ ∃ d, D d ∧ d.IsOversized

theorem Fault.IsBlameless.not_misuse {f : Fault} (h : f.IsBlameless) :
    (∀ why, f ≠ .invalidArgument why) ∧ f ≠ .conflictingStops := by
  rcases h with h | ⟨bytes, rfl⟩ | rfl
  · refine ⟨fun why hf => ?_, fun hf => ?_⟩ <;> (rw [hf] at h; cases h)
  · exact ⟨fun why => nofun, nofun⟩
  · exact ⟨fun why => nofun, nofun⟩

theorem EndsWell.endsAsData {r : Except Fault Volume} {D : Demand → Prop}
    (h : EndsWell r Volume.IsSound) (htruth : IsTruthful r D) : EndsAsData r D where
  sound v hv := by
    rw [hv] at h
    exact h
  fault f hf := by
    rw [hf] at h
    exact h
  not_misuse f hf := by
    rw [hf] at h
    exact Fault.IsBlameless.not_misuse h
  overflow_iff := htruth.overflow_iff

section Bytes

variable (memory : Memory) (limit : BitLimit) (bytes : List UInt8)

theorem decompress_tells : Tells (decompress memory limit bytes) (AskedBy memory limit bytes) := by
  have hread : Preamble.read.Tells bytes (AskedBy memory limit bytes) := Preamble.takes.tells
  refine tells_bind hread fun preamble hp => ?_
  split
  next ht =>
    refine decompressTiles_tells.mono fun d hd => ⟨preamble, hp, ?_⟩
    rw [if_pos ht]
    exact hd
  next ht =>
    refine decompressWhole_tells.mono fun d hd => ⟨preamble, hp, ?_⟩
    rw [if_neg ht]
    exact hd

theorem decompress_isTruthful :
    IsTruthful (decompress memory limit bytes) (AskedBy memory limit bytes) := by
  refine (decompress_tells memory limit bytes).isTruthful fun d hd hsize => ?_
  obtain ⟨preamble, hp, hasked⟩ := hd
  unfold decompress
  rw [hp]
  show (if preamble.isTiled = true then _ else _) = _
  split at hasked
  next ht =>
    rw [if_pos ht]
    exact decompressTiles_of_isOversized hasked hsize
  next ht =>
    rw [if_neg ht]
    exact decompressWhole_of_isOversized hasked hsize

/-- Arbitrary bytes are decompressed to a sound volume, unless the data are found at fault or a
request for memory is refused, and no caller is ever blamed; only where a block is oversized that is
asked for, there is no answer. Only who asks for tiles of a container without tiles has made a
mistake. On the way no index leaves its array. -/
theorem decompress_any_bytes :
    EndsAsData (decompress memory limit bytes) (AskedBy memory limit bytes) ∧
    (decompressTiles memory limit bytes = .error (.invalidArgument .notTiled) ↔ IsUntiled bytes) ∧
    (¬IsUntiled bytes →
      EndsAsData (decompressTiles memory limit bytes) (AskedByTiles memory limit bytes)) ∧
    ReadsInside memory limit bytes ∧ TilesInside memory limit bytes := by
  have htruth : IsTruthful (decompressTiles memory limit bytes) (AskedByTiles memory limit bytes) :=
    decompressTiles_tells.isTruthful fun _ => decompressTiles_of_isOversized
  have htiles : ¬IsUntiled bytes →
      EndsAsData (decompressTiles memory limit bytes) (AskedByTiles memory limit bytes) :=
    fun h => (decompressTiles_endsWell memory limit h).endsAsData htruth
  refine ⟨(decompress_endsWell memory limit bytes).endsAsData
    (decompress_isTruthful memory limit bytes), ⟨fun h => ?_,
    decompressTiles_of_isUntiled memory limit⟩, htiles, readsInside memory limit bytes,
    tilesInside memory limit bytes⟩
  by_contra hu
  exact ((htiles hu).not_misuse _ h).1 _ rfl

end Bytes

/-- A container of one value, whose block declares `2 ^ 61` bytes and has none of them. -/
def oversizedContainer : List UInt8 :=
  (⟨0, ⟨1, 1, 1⟩⟩ : Preamble).toBytes ++ ((Scale.ofFloats 0 1).toBytes ++ bytesOfNat 8 (2 ^ 61))

/-- No volume is made of it, its data are not found at fault, and no memory is refused. -/
theorem decompress_unanswered :
    decompress .unbounded none oversizedContainer = .error .overflow ∧
      ¬((∃ v, decompress .unbounded none oversizedContainer = .ok v ∧ v.IsSound) ∨
        ∃ f, decompress .unbounded none oversizedContainer = .error f ∧
          (f.comesFromData = true ∨ ∃ n, f = .allocation n)) := by
  have hpreamble : Preamble.read.from oversizedContainer = (.ok ⟨0, ⟨1, 1, 1⟩⟩, _) :=
    Preamble.gets ⟨by decide, by decide, by decide⟩ rfl _
  have hscale : Scale.read.from ((Scale.ofFloats 0 1).toBytes ++ bytesOfNat 8 (2 ^ 61)) =
      (.ok (Scale.ofFloats 0 1), _) := Scale.gets (by decide +kernel) _
  have hstop : decompress .unbounded none oversizedContainer = .error .overflow := by
    refine (decompress_isTruthful .unbounded none oversizedContainer).overflow_iff.mpr
      ⟨.block (bytesOfNat 8 (2 ^ 61)), ⟨_, congrArg Prod.fst hpreamble, ?_⟩, by decide, by decide⟩
    exact AskedByWhole.code hpreamble hscale
  refine ⟨hstop, fun h => ?_⟩
  rw [hstop] at h
  rcases h with ⟨v, hv, -⟩ | ⟨f, hf, hdata | ⟨n, hn⟩⟩
  · cases hv
  · obtain rfl := Except.error.inj hf
    cases hdata
  · obtain rfl := Except.error.inj hf
    cases hn

end VolumeCodec
