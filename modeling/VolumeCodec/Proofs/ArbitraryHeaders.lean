import VolumeCodec.Decompression
import VolumeCodec.Proofs.DataFaults
import VolumeCodec.Proofs.StoredReals

namespace VolumeCodec

/-- Dimensions that the header of a container can declare. -/
structure Axes.AreDeclared (dims : Extents) : Prop where
  validate : dims.validate = .ok ()
  volume_le : dims.volume ≤ maxElements

namespace Reader

open VolumeCodec.Action (EndsWell)

variable {α β : Type}

theorem bytes_endsWell (n : Nat) (input : List UInt8) :
    (bytes n).EndsWell input fun _ _ => True := by
  refine Action.endsWell_bind (Action.endsWell_get ?_)
  refine Action.endsWell_bind (Action.endsWell_set ?_)
  exact Action.endsWell_check (fun _ => .inl rfl) fun _ => Action.endsWell_pure trivial

theorem nat_endsWell (n : Nat) (input : List UInt8) : (nat n).EndsWell input fun _ _ => True :=
  Action.endsWell_map (bytes_endsWell n input)

theorem uint8_endsWell (input : List UInt8) : uint8.EndsWell input fun _ _ => True :=
  Action.endsWell_map (nat_endsWell 1 input)

theorem uint64_endsWell (input : List UInt8) : uint64.EndsWell input fun _ _ => True :=
  Action.endsWell_map (nat_endsWell 8 input)

theorem int32_endsWell (input : List UInt8) : int32.EndsWell input fun _ _ => True :=
  Action.endsWell_map (nat_endsWell 4 input)

theorem extents_endsWell (input : List UInt8) :
    extents.EndsWell input fun dims _ => dims.AreDeclared := by
  refine Action.endsWell_bind ((nat_endsWell 8 input).mono fun x rest _ => ?_)
  refine Action.endsWell_bind ((nat_endsWell 8 rest).mono fun y rest _ => ?_)
  refine Action.endsWell_bind ((nat_endsWell 8 rest).mono fun z rest _ => ?_)
  dsimp only
  cases hd : Axes.validate ⟨x, y, z⟩ with
  | error fault => exact .inl rfl
  | ok u =>
    refine Action.endsWell_check (fun _ => .inl rfl) fun hv => ?_
    exact Action.endsWell_pure ⟨hd, Nat.not_lt.mp hv⟩

/-- A short block is told of, or else it declares too much for that. -/
theorem shortBlock_cases (found declared : Nat) :
    (shortBlock found declared = .truncated (8 * found) (8 * declared) ∧ declared < 2 ^ 61) ∨
      (shortBlock found declared = .overflow ∧ 2 ^ 61 ≤ declared) := by
  unfold shortBlock
  rw [Nat.one_shiftLeft]
  split
  next h => exact .inl ⟨rfl, by omega⟩
  next h => exact .inr ⟨rfl, by omega⟩

theorem isBlameless_shortBlock (found declared : Nat) : (shortBlock found declared).IsBlameless := by
  rcases shortBlock_cases found declared with ⟨h, -⟩ | ⟨h, -⟩
  · rw [h]
    exact .inl rfl
  · rw [h]
    exact .inr (.inr rfl)

theorem block_endsWell (input : List UInt8) : block.EndsWell input fun _ _ => True := by
  refine Action.endsWell_bind ((uint64_endsWell input).mono fun length rest _ => ?_)
  refine Action.endsWell_bind (Action.endsWell_get ?_)
  refine Action.endsWell_bind (Action.endsWell_set ?_)
  exact Action.endsWell_check (fun _ => isBlameless_shortBlock _ _) fun _ =>
    Action.endsWell_pure trivial

end Reader

theorem Preamble.read_endsWell (input : List UInt8) :
    Preamble.read.EndsWell input fun p _ => p.dims.AreDeclared := by
  refine Action.endsWell_bind ((Reader.bytes_endsWell 4 input).mono fun found rest _ => ?_)
  refine Action.endsWell_check (fun _ => .inl rfl) fun _ => ?_
  refine Action.endsWell_bind ((Reader.uint8_endsWell rest).mono fun v rest _ => ?_)
  refine Action.endsWell_check (fun _ => .inl rfl) fun _ => ?_
  refine Action.endsWell_bind ((Reader.uint8_endsWell rest).mono fun flags rest _ => ?_)
  exact Action.endsWell_bind ((Reader.extents_endsWell rest).mono fun dims _ hd =>
    Action.endsWell_pure hd)

theorem Scale.read_endsWell (input : List UInt8) :
    Scale.read.EndsWell input fun _ _ => True := by
  refine Action.endsWell_bind ((Reader.uint64_endsWell input).mono fun mean rest _ => ?_)
  refine Action.endsWell_bind ((Reader.uint64_endsWell rest).mono fun step rest _ => ?_)
  exact Action.endsWell_check (fun _ => .inl rfl) fun _ => Action.endsWell_pure trivial

theorem TileTable.read_endsWell (input : List UInt8) :
    TileTable.read.EndsWell input fun _ _ => True := by
  refine Action.endsWell_bind ((Reader.extents_endsWell input).mono fun extents rest _ => ?_)
  exact Action.endsWell_bind ((Reader.uint64_endsWell rest).mono fun _ _ _ =>
    Action.endsWell_pure trivial)

theorem CodeHeader.read_endsWell (input : List UInt8) :
    CodeHeader.read.EndsWell input fun _ _ => True := by
  refine Action.endsWell_bind ((Reader.int32_endsWell input).mono fun topPlane rest _ => ?_)
  exact Action.endsWell_bind ((Reader.uint64_endsWell rest).mono fun _ _ _ =>
    Action.endsWell_pure trivial)

theorem Width.ofTag_endsWell (tag : UInt8) : EndsWell (Width.ofTag tag) fun _ => True := by
  unfold Width.ofTag
  split
  next => trivial
  next =>
    split
    next => trivial
    next =>
      split
      next => trivial
      next =>
        split
        next => trivial
        next => exact .inl rfl

theorem CorrectionHeader.read_endsWell (input : List UInt8) :
    CorrectionHeader.read.EndsWell input fun _ _ => True := by
  refine Action.endsWell_bind ((Reader.uint8_endsWell input).mono fun tag rest _ => ?_)
  refine Action.endsWell_bind (Action.endsWell_lift ((Width.ofTag_endsWell tag).mono fun _ _ => ?_))
  refine Action.endsWell_bind ((Reader.uint64_endsWell rest).mono fun tolerance rest _ => ?_)
  refine Action.endsWell_bind ((Reader.uint64_endsWell rest).mono fun length rest _ => ?_)
  exact Action.endsWell_bind ((CodeHeader.read_endsWell rest).mono fun _ _ _ =>
    Action.endsWell_pure trivial)

/-- The row of a header that passes is one that an array can have. -/
theorem CorrectionHeader.toOutline_endsWell (h : CorrectionHeader) :
    EndsWell h.toOutline fun outline => outline.row.dims.validate = .ok () := by
  unfold CorrectionHeader.toOutline
  split
  next => exact .inl rfl
  next hlength =>
    rw [not_or, Nat.not_lt] at hlength
    have hpos : h.length.toNat ≠ 0 := fun hz => hlength.1 (UInt64.toNat_inj.mp hz)
    have hmax : maxElements = 2 ^ 36 := rfl
    have hvolume : (Axes.row h.length.toNat).volume = h.length.toNat := by
      simp [Axes.volume, Axes.row]
    show (Axes.row h.length.toNat).validate = .ok ()
    unfold Axes.validate
    rw [hvolume, Nat.one_shiftLeft]
    refine if_neg (not_or.mpr ⟨?_, by omega⟩)
    simpa [Axes.isFlat, Axes.row] using hpos

section Decode

variable {α : Type} [Magnitude α]

theorem checkTopPlane_endsWell (α : Type) [Magnitude α] (plane : Int) :
    EndsWell (checkTopPlane α plane) fun _ => True := by
  unfold checkTopPlane
  split
  next => cases Magnitude.width? α <;> exact .inl rfl
  next => trivial

theorem Decoder.size_run (dims : Extents) (limit : Nat) (highest : Int) {tape : Tape}
    (ht : tape.IsFresh) :
    (run (α := α) dims limit highest tape).2.magnitudes.size = dims.volume ∧
      (run (α := α) dims limit highest tape).2.signs.size = dims.volume := by
  let start : State α :=
    ⟨Array.replicate dims.volume Magnitude.zero, Array.replicate dims.volume true, tape, 0⟩
  have hrun : run (α := α) dims limit highest tape =
      (allPlanes α dims highest).conduct (respond limit) start := conductPlanes_eq_conduct ..
  obtain ⟨-, hsketch, -⟩ :=
    conduct_eq_follow limit (allPlanes α dims highest) start (Nat.zero_le _) ht
  obtain ⟨hm, hs⟩ := Sketch.size_follow (allPlanes α dims highest) (tape.ahead (limit - 0))
    (Sketch.blank α dims)
  rw [← hrun] at hsketch
  have hm' := congrArg (fun k => k.magnitudes.size) hsketch
  have hs' := congrArg (fun k => k.signs.size) hsketch
  exact ⟨hm'.trans (hm.trans Array.size_replicate), hs'.trans (hs.trans Array.size_replicate)⟩

/-- Whatever there is on a tape, a decoder fills an array of valid dimensions or finds the data at
fault. -/
theorem decode_endsWell (memory : Memory) {outline : Outline} (limit : BitLimit) (t : Tape)
    (hd : outline.dims.validate = .ok ()) :
    (decode (α := α) memory outline limit).EndsWell t fun d _ =>
      d.magnitudes.size = outline.dims.volume ∧ d.signs.size = outline.dims.volume := by
  have hallocate : EndsWell (IndexSet.allocate memory outline.dims.volume) fun _ => True :=
    endsWell_bind (endsWell_requestArray memory _ _) fun _ _ => trivial
  unfold decode
  rw [hd]
  refine Action.endsWell_bind (Action.endsWell_lift (?_ : VolumeCodec.EndsWell (.ok ()) _))
  refine Action.endsWell_bind (Action.endsWell_lift ((checkTopPlane_endsWell α _).mono
    fun _ _ => ?_))
  refine Action.endsWell_bind (Action.endsWell_get ?_)
  refine Action.endsWell_check (fun _ => .inl rfl) fun _ => ?_
  refine Action.endsWell_bind (Action.endsWell_modify ?_)
  refine Action.endsWell_bind (Action.endsWell_lift ((endsWell_requestArray memory _ _).mono
    fun _ _ => ?_))
  refine Action.endsWell_bind (Action.endsWell_lift ((endsWell_requestArray memory _ _).mono
    fun _ _ => ?_))
  refine Action.endsWell_bind (Action.endsWell_lift (hallocate.mono fun _ _ => ?_))
  refine Action.endsWell_bind (Action.endsWell_get ?_)
  refine Action.endsWell_bind (Action.endsWell_set ?_)
  refine Action.endsWell_check (fun _ => .inl rfl) fun _ => ?_
  exact Action.endsWell_pure (Decoder.size_run _ _ _ (Tape.isFresh_seekRead t 0))

theorem decodeReals_endsWell (memory : Memory) {outline : Outline} (limit : BitLimit) (t : Tape)
    (hd : outline.dims.validate = .ok ()) :
    EndsWell ((decodeReals memory outline limit).on t).1 fun r =>
      r.coefficients.size = outline.dims.volume := by
  refine Action.EndsWell.result (Action.endsWell_bind ((decode_endsWell memory limit t hd).mono
    fun d _ h => Action.endsWell_pure ?_))
  rw [Array.size_zipWith, h.1, h.2, Nat.min_self]

theorem load_endsWell (memory : Memory) (bytes : List UInt8) (n : Nat) (t : Tape) :
    (Tape.load memory bytes n).EndsWell t fun _ _ => True := by
  refine Action.endsWell_check (fun _ => .inl rfl) fun _ => ?_
  refine Action.endsWell_bind (Action.endsWell_get ?_)
  refine Action.endsWell_bind (Action.endsWell_modify ?_)
  by_cases h : t.words.size < wordsFor n
  · rw [if_pos h]
    refine Action.endsWell_bind (Action.endsWell_lift ((endsWell_request memory _).mono
      fun _ _ => ?_))
    exact Action.endsWell_set trivial
  · rw [if_neg h]
    exact Action.endsWell_set trivial

end Decode

end VolumeCodec
