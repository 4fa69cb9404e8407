import VolumeCodec.Proofs.ArbitraryStreams

namespace VolumeCodec

namespace Tape

/-- Tapes that differ only in where they are read, and in what was loaded for that. -/
structure SameBits (t t' : Tape) : Prop where
  words : t'.words = t.words
  writePosition : t'.writePosition = t.writePosition
  pending : t'.pending = t.pending

variable {t t' t'' : Tape}

theorem SameBits.refl (t : Tape) : t.SameBits t := ⟨rfl, rfl, rfl⟩

theorem SameBits.trans (h : t.SameBits t') (h' : t'.SameBits t'') : t.SameBits t'' :=
  ⟨h'.words.trans h.words, h'.writePosition.trans h.writePosition, h'.pending.trans h.pending⟩

theorem sameBits_seekRead (t : Tape) (position : Nat) : t.SameBits (t.seekRead position) :=
  ⟨rfl, rfl, rfl⟩

theorem HasMoved.sameBits {n : Nat} (h : t.HasMoved n t') : t.SameBits t' :=
  ⟨h.words, h.writePosition, h.pending⟩

theorem SameBits.bit (h : t.SameBits t') (i : Nat) : t'.bit i = t.bit i := by
  rw [bit_eq, bit_eq, h.writePosition, h.pending]
  simp only [storedWord, h.words]

theorem SameBits.capacity (h : t.SameBits t') : t'.capacity = t.capacity := by
  rw [Tape.capacity, Tape.capacity, h.words]

/-- At the beginning nothing is loaded, and so nothing is left that tells such tapes apart. -/
theorem SameBits.seekRead_zero (h : t.SameBits t') : t'.seekRead 0 = t.seekRead 0 := by
  obtain ⟨hwords, hwritePosition, hpending⟩ := h
  cases t
  cases t'
  subst hwords hwritePosition hpending
  rfl

end Tape

/-- What a decoder checks before it turns to the bits: the dimensions, the planes, and whether there
are as many bits as it is to read. -/
def Outline.check (α : Type) [Magnitude α] (outline : Outline) (limit : BitLimit)
    (available : Nat) : Except Fault Unit := do
  outline.dims.validate
  checkTopPlane α outline.topPlane.toInt
  if available < outline.required limit then
    throw (.truncated available (outline.required limit))

section Decode

variable {α : Type} [Magnitude α]

/-- What a decoder does with a tape that stands at its beginning. -/
def decodeAhead (memory : Memory) (outline : Outline) (limit : BitLimit) (t : Tape) :
    Except Fault (Decoded α) × Tape :=
  let room : Except Fault Unit := do
    memory.requestArray outline.dims.volume (Magnitude.bytes α)
    memory.requestArray outline.dims.volume 1
    let _ ← IndexSet.allocate memory outline.dims.volume
  match room with
  | .error fault => (.error fault, t)
  | .ok () =>
    let (finished, final) :=
      Decoder.run (α := α) outline.dims (outline.required limit) outline.topPlane.toInt t
    if finished.isSome ∧ final.bitCount ≠ outline.bitCount then
      (.error (.inconsistent (.bitCount final.bitCount outline.bitCount)), final.tape)
    else (.ok ⟨final.magnitudes, final.signs, final.bitCount⟩, final.tape)

/-- A decoder leaves the tape alone until its checks are passed, and begins at the beginning. -/
theorem decode_on_eq (memory : Memory) (outline : Outline) (limit : BitLimit) (t : Tape) :
    (decode (α := α) memory outline limit).on t =
      match outline.check α limit t.writePosition with
      | .error fault => (.error fault, t)
      | .ok () => decodeAhead memory outline limit (t.seekRead 0) := by
  unfold decode Outline.check decodeAhead Tape.Update.on
  simp only [Action.run_bind, Action.run_lift]
  rcases outline.dims.validate with fault | _
  · rfl
  dsimp only
  rcases checkTopPlane α outline.topPlane.toInt with fault | _
  · rfl
  unfold Outline.required
  simp only [Action.run_get]
  by_cases hshort : t.writePosition < limit.elim outline.bitCount (min · outline.bitCount)
  · simp only [if_pos hshort]
    rfl
  -- From here on the tape stands at its beginning, also where there is no memory for the result.
  simp only [if_neg hshort, Action.run_bind, Action.run_modify, Action.run_lift]
  rcases memory.requestArray outline.dims.volume (Magnitude.bytes α) with fault | _
  · rfl
  dsimp only
  rcases memory.requestArray outline.dims.volume 1 with fault | _
  · rfl
  dsimp only
  rcases IndexSet.allocate memory outline.dims.volume with fault | _
  · rfl
  simp only [Action.run_get, Action.run_set]
  generalize Decoder.run (α := α) outline.dims (limit.elim outline.bitCount
    (min · outline.bitCount)) outline.topPlane.toInt (t.seekRead 0) = result
  by_cases hend : result.1.isSome ∧ result.2.bitCount ≠ outline.bitCount
  · simp only [if_pos hend]
    rfl
  · simp only [if_neg hend]
    rfl

/-- A decoder that has begun moves the tape by as many bits as it counts, and it counts none before
there is memory for the result. -/
theorem decodeAhead_moves (memory : Memory) (outline : Outline) (limit : BitLimit) {t : Tape}
    (ht : t.IsFresh) :
    ∃ n, t.HasMoved n (decodeAhead (α := α) memory outline limit t).2 ∧
      ∀ d, (decodeAhead (α := α) memory outline limit t).1 = .ok d → d.bitCount = n := by
  obtain ⟨-, hmoved, -⟩ := Decoder.run_bitCount (α := α) outline.dims (outline.required limit)
    outline.topPlane.toInt ht
  unfold decodeAhead
  dsimp only
  split
  next => exact ⟨0, .refl t, nofun⟩
  next =>
    generalize Decoder.run (α := α) outline.dims (outline.required limit)
      outline.topPlane.toInt t = result at *
    refine ⟨result.2.bitCount, ?_, fun d hd => ?_⟩
    · split <;> exact hmoved
    · split at hd
      next => cases hd
      next =>
        cases hd
        rfl

end Decode

/-- One use of a tape: what is decoded from it, into numbers of which type, up to which bit, and with
how much memory. -/
structure Decoding where
  {α : Type}
  [magnitude : Magnitude α]
  memory : Memory
  outline : Outline
  limit : BitLimit

attribute [instance] Decoding.magnitude

namespace Decoding

variable {t t' : Tape}

def on (d : Decoding) (t : Tape) : Except Fault (Decoded d.α) × Tape :=
  (decode d.memory d.outline d.limit).on t

def check (d : Decoding) (t : Tape) : Except Fault Unit :=
  d.outline.check d.α d.limit t.writePosition

theorem on_of_refused {d : Decoding} {fault : Fault} (h : d.check t = .error fault) :
    d.on t = (.error fault, t) := by
  unfold check at h
  rw [on, decode_on_eq, h]

theorem on_of_passed {d : Decoding} (h : d.check t = .ok ()) :
    d.on t = decodeAhead d.memory d.outline d.limit (t.seekRead 0) := by
  unfold check at h
  rw [on, decode_on_eq, h]

/-- Whatever comes of it, the tape has the same bits afterwards. If there is a result, reading goes
on behind the bits that were counted. -/
theorem sameBits_on (d : Decoding) (t : Tape) :
    t.SameBits (d.on t).2 ∧ ∀ decoded, (d.on t).1 = .ok decoded →
      (d.on t).2.readPosition = decoded.bitCount := by
  cases hcheck : d.check t with
  | error fault =>
    rw [on_of_refused hcheck]
    exact ⟨.refl t, nofun⟩
  | ok _ =>
    rw [on_of_passed hcheck]
    obtain ⟨n, hmoved, hcount⟩ :=
      decodeAhead_moves (α := d.α) d.memory d.outline d.limit (Tape.isFresh_seekRead t 0)
    refine ⟨(Tape.sameBits_seekRead t 0).trans hmoved.sameBits, fun decoded h => ?_⟩
    rw [hmoved.readPosition, hcount decoded h]
    exact Nat.zero_add n

/-- Tapes with the same bits give the same result, wherever they were read last. -/
theorem on_congr (d : Decoding) (h : t.SameBits t') : (d.on t').1 = (d.on t).1 := by
  have hcheck : d.check t' = d.check t := by rw [check, check, h.writePosition]
  cases ht : d.check t with
  | error fault => rw [on_of_refused ht, on_of_refused (hcheck.trans ht)]
  | ok _ => rw [on_of_passed ht, on_of_passed (hcheck.trans ht), h.seekRead_zero]

theorem sameBits_foldl (ds : List Decoding) (t : Tape) :
    t.SameBits (ds.foldl (fun t d => (d.on t).2) t) := by
  induction ds generalizing t with
  | nil => exact .refl t
  | cons d rest ih => exact (d.sameBits_on t).1.trans (ih (d.on t).2)

/-- Decoding changes nothing of a tape but where it is read, and not even that if the outline is
refused or there are too few bits. So of any decodings one after the other, of whatever types, from
whatever outlines, and under whatever limits, each gives what it would have given alone. -/
theorem decodings_independent (t : Tape) :
    (∀ d : Decoding,
      (∀ i, (d.on t).2.bit i = t.bit i) ∧ (d.on t).2.writePosition = t.writePosition ∧
        (d.on t).2.capacity = t.capacity ∧
        (∀ decoded, (d.on t).1 = .ok decoded → (d.on t).2.readPosition = decoded.bitCount) ∧
        ∀ fault, d.check t = .error fault → d.on t = (.error fault, t)) ∧
      ∀ (earlier : List Decoding) (d : Decoding),
        (d.on (earlier.foldl (fun t d => (d.on t).2) t)).1 = (d.on t).1 := by
  refine ⟨fun d => ?_, fun earlier d => d.on_congr (sameBits_foldl earlier t)⟩
  obtain ⟨hsame, hposition⟩ := d.sameBits_on t
  exact ⟨hsame.bit, hsame.writePosition, hsame.capacity, hposition, fun _ => on_of_refused⟩

/-- Three set bits are decoded as bytes, after two of them were read as halfwords. Where the planes
are too high for bytes nothing is read. -/
theorem decodings_independent_pair :
    let t := Tape.ofBits [7] 8
    let first : Decoding :=
      { α := BitVec 16, memory := .unbounded, outline := ⟨Axes.row 2, 5, 8⟩, limit := some 2 }
    let second : Decoding :=
      { α := BitVec 8, memory := .unbounded, outline := ⟨Axes.row 2, 2, 8⟩, limit := some 3 }
    let refused : Decoding :=
      { α := BitVec 8, memory := .unbounded, outline := ⟨Axes.row 2, 8, 8⟩, limit := none }
    (∃ decoded, (second.on t).1 = .ok decoded ∧ (second.on (first.on t).2).1 = .ok decoded ∧
      (second.on (first.on t).2).2.readPosition = decoded.bitCount) ∧
      refused.check t = .error (.tooNarrow 8 8) ∧ refused.on t = (.error (.tooNarrow 8 8), t) := by
  intro t first second refused
  obtain ⟨hone, hall⟩ := decodings_independent t
  have hrefused : refused.check t = .error (.tooNarrow 8 8) := rfl
  have hok : (second.on t).1.isOk = true := by decide +kernel
  have hsame : (second.on (first.on t).2).1 = (second.on t).1 := hall [first] second
  refine ⟨?_, hrefused, (hone refused).2.2.2.2 _ hrefused⟩
  cases halone : (second.on t).1 with
  | error fault =>
    rw [halone] at hok
    cases hok
  | ok decoded =>
    have hthen := hsame.trans halone
    exact ⟨decoded, rfl, hthen,
      ((decodings_independent (first.on t).2).1 second).2.2.2.1 decoded hthen⟩

end Decoding

end VolumeCodec
