import VolumeCodec.Proofs.ActionRuns
import VolumeCodec.Proofs.ArbitraryBits
import VolumeCodec.Proofs.CodedTapes

namespace VolumeCodec

/-- The number of bits that a decoder is to read under a limit. -/
def Outline.required (outline : Outline) (limit : BitLimit) : Nat :=
  limit.elim outline.bitCount (min · outline.bitCount)

theorem Outline.required_le (outline : Outline) (limit : BitLimit) :
    outline.required limit ≤ outline.bitCount := by
  cases limit with
  | none => exact Nat.le_refl _
  | some n => exact Nat.min_le_right _ _

namespace Decoder

section Run

variable {α : Type} [Magnitude α]

/-- All questions that come up while a decoder recovers an array from `limit` bits of a tape, those
that it answers without a bit among them. -/
def questions (α : Type) [Magnitude α] (outline : Outline) (limit : Nat) (tape : Tape) :
    List Query :=
  notes (α := α) (fun _ _ q _ => [q]) outline limit tape

/-- A decoder moves on by as many bits as it counts. It never counts more than the limit, and counts
as many if the limit stops it. -/
theorem run_bitCount (dims : Extents) (limit : Nat) (highest : Int) {tape : Tape}
    (ht : tape.IsFresh) :
    (run (α := α) dims limit highest tape).2.bitCount ≤ limit ∧
      tape.HasMoved (run (α := α) dims limit highest tape).2.bitCount
        (run (α := α) dims limit highest tape).2.tape ∧
      ((run (α := α) dims limit highest tape).1 = none →
        (run (α := α) dims limit highest tape).2.bitCount = limit) := by
  have hrun : run (α := α) dims limit highest tape =
      (allPlanes α dims highest).conduct (respond limit) (State.initial α dims tape) :=
    conductPlanes_eq_conduct ..
  obtain ⟨hresult, -, hcount, n, hn, hmoved⟩ := conduct_eq_follow limit (allPlanes α dims highest)
    (State.initial α dims tape) (Nat.zero_le _) ht
  have hzero : (State.initial α dims tape).bitCount = 0 := rfl
  rw [← hrun] at hresult hcount hn hmoved
  rw [hzero, Nat.zero_add] at hn
  refine ⟨by omega, hn ▸ hmoved, fun hnone => ?_⟩
  have hrest := Dialogue.rest_of_follow_none (Prod.ext (hresult.symm.trans hnone) rfl)
  rw [hrest] at hcount
  exact hcount

/-- Notes that a decoder takes of arbitrary bits are such as it may take of a sketch that keeps the
rule, and there are at most so many for each plane. -/
theorem noted_notes {ε : Type} {outline : Outline} {J : Nat → (Nat → Phase) → Sketch α → Prop}
    (R : SketchRule outline.dims (Magnitude.minPlane α)
      (planeCount outline.topPlane.toInt (Magnitude.minPlane α)) J) (P : ε → Prop)
    (note : Int → State α → Query → Reply (State α) → List ε) (limit : Nat) (tape : Tape)
    (hd : outline.dims.validate = .ok ())
    (hnote : ∀ {m ph s q r}, m < planeCount outline.topPlane.toInt (Magnitude.minPlane α) →
      J m ph s.sketch → q.IsDue outline.dims ph →
      ∀ x ∈ note (Magnitude.minPlane α + m) s q r, P x)
    (hlength : ∀ plane s q r, (note plane s q r).length ≤ 1) :
    (∀ x ∈ notes note outline limit tape, P x) ∧ (notes note outline limit tape).length ≤
      planeCount outline.topPlane.toInt (Magnitude.minPlane α) * planeFee outline.dims := by
  have hnoted := planes_ensure R P (fun s q r => note q.1 s q.2 r) limit (tape.seekRead 0) hd hnote
    (fun s q r => hlength q.1 s q.2 r)
  have hlist := hnoted.final
    (Q := fun t => Noted P (planeCount outline.topPlane.toInt (Magnitude.minPlane α) *
      planeFee outline.dims) 0 t.2) (fun _ _ h => h.2.2) fun _ h => h.2
  have hnotes : notes note outline limit tape =
      ((allPlanes α outline.dims outline.topPlane.toInt).conduct
        (noting (fun s q r => note q.1 s q.2 r) (respond limit))
        (State.initial α outline.dims (tape.seekRead 0), [])).2.2 := by
    unfold notes
    dsimp only
    rw [conductPlanes_eq_conduct]
    rfl
  rw [hnotes]
  exact ⟨hlist.all, hlist.length⟩

/-- Whatever bits a decoder is given, it only asks for elements of the array, and comes to an end
after so many questions for each plane. -/
theorem questions_inside (outline : Outline) (limit : Nat) (tape : Tape)
    (hd : outline.dims.validate = .ok ()) :
    (∀ q ∈ questions α outline limit tape,
      ∀ i ∈ q.indices outline.dims, i < outline.dims.volume) ∧
    (questions α outline limit tape).length ≤
      planeCount outline.topPlane.toInt (Magnitude.minPlane α) * planeFee outline.dims := by
  refine noted_notes (.trivial _ _ _) _ _ limit tape hd (fun _ _ hdue x hx => ?_)
    fun _ _ _ _ => Nat.le_refl 1
  rw [List.mem_singleton.mp hx]
  exact hdue.lt

end Run

section Integers

variable {n : Nat} {highest : Int}

theorem integerPlanes (highest : Int) :
    planeCount highest (Magnitude.minPlane (BitVec n)) = (highest + 1).toNat := by
  show (highest + 1 - 0).toNat = _
  rw [Int.sub_zero]

theorem integerRule {dims : Extents} (hn : highest < n) :
    SketchRule (α := BitVec n) dims (Magnitude.minPlane (BitVec n))
      (planeCount highest (Magnitude.minPlane (BitVec n)))
      fun m => Sketch.IsSound dims (highest + 1).toNat (0 + m) := by
  have hplanes : ∀ m < (highest + 1).toNat, 0 + m < (highest + 1).toNat := fun m hm => by omega
  rw [integerPlanes]
  exact .sound hplanes (by omega)

theorem run_sound {dims : Extents} (limit : Nat) (tape : Tape) (hd : dims.validate = .ok ())
    (hn : highest < n) : ∃ e ph, Sketch.IsSound dims (highest + 1).toNat e ph
      (run (α := BitVec n) dims limit highest tape).2.sketch := by
  have hrun : run (α := BitVec n) dims limit highest tape =
      (allPlanes (BitVec n) dims highest).conduct (respond limit)
        (State.initial (BitVec n) dims tape) := conductPlanes_eq_conduct ..
  rw [hrun]
  refine (planes_keep (integerRule hn) limit tape hd).final
    (Q := fun s => ∃ e ph, Sketch.IsSound dims (highest + 1).toNat e ph s.sketch)
    (fun _ _ h => ?_) fun _ h => ?_
  · obtain ⟨ph, -, h⟩ := h
    exact ⟨_, ph, h⟩
  · obtain ⟨m, ph, h⟩ := h
    exact ⟨_, ph, h⟩

theorem additions_lt {outline : Outline} (limit : Nat) (tape : Tape)
    (hd : outline.dims.validate = .ok ()) (hn : outline.topPlane.toInt < n) :
    ∀ x ∈ additions (BitVec n) outline limit tape,
      x.1.toNat + x.2.toNat < 2 ^ (outline.topPlane.toInt + 1).toNat := by
  refine (noted_notes (integerRule hn) _ _ limit tape hd (fun {m ph s q r} hm hs hdue x hx => ?_)
    fun plane s q r => ?_).1
  · rw [integerPlanes] at hm
    cases r with
    | answer b t =>
      have hplane : Magnitude.minPlane (BitVec n) + (m : Int) = ((0 + m : Nat) : Int) := by
        rw [Nat.zero_add]
        exact Int.zero_add _
      rw [hplane] at hx
      exact hs.addition_lt (by omega) (by omega) hdue hx
    | halt t => cases hx
  · cases r with
    | answer b t =>
      cases q with
      | significance subject implied => exact Nat.zero_le 1
      | sign i => exact Nat.zero_le 1
      | refinement i => cases b <;> simp [Sketch.addition]
    | halt t => exact Nat.zero_le 1

end Integers

end Decoder

section Decode

variable {α : Type} [Magnitude α]

/-- The checks of a decoder come in this order: the planes, the number of bits on the tape, and in
the end the number of bits that the planes took. -/
theorem decode_run (outline : Outline) (limit : BitLimit) (t : Tape)
    (hd : outline.dims.validate = .ok ()) :
    (decode (α := α) .unbounded outline limit).on t =
      match checkTopPlane α outline.topPlane.toInt with
      | .error fault => (.error fault, t)
      | .ok () =>
        if t.writePosition < outline.required limit then
          (.error (.truncated t.writePosition (outline.required limit)), t)
        else
          let result := Decoder.run (α := α) outline.dims (outline.required limit)
            outline.topPlane.toInt (t.seekRead 0)
          if result.1.isSome ∧ result.2.bitCount ≠ outline.bitCount then
            (.error (.inconsistent (.bitCount result.2.bitCount outline.bitCount)), result.2.tape)
          else (.ok ⟨result.2.magnitudes, result.2.signs, result.2.bitCount⟩, result.2.tape) := by
  unfold decode Tape.Update.on
  simp only [Action.run_bind, Action.run_lift, hd]
  cases checkTopPlane α outline.topPlane.toInt with
  | error fault => rfl
  | ok _ =>
    unfold Outline.required
    by_cases h : t.writePosition < limit.elim outline.bitCount (min · outline.bitCount)
    · simp only [Action.run_get, if_pos h]
      rfl
    · simp only [Action.run_get, if_neg h, Action.run_bind, Action.run_modify,
        Action.run_lift, requestArray_unbounded, allocate_unbounded, Action.run_set]
      split <;> rfl

end Decode

section Integers

variable {n : Nat}

/-- What a decoder makes of any bits under a limit: as many integers as the outline says, none of them
above the highest plane, and all zeros non-negative, from exactly the bits that were to be read. -/
structure Decoded.IsSound (d : Decoded (BitVec n)) (outline : Outline) (limit : BitLimit) :
    Prop where
  bitCount : d.bitCount = outline.required limit
  size_magnitudes : d.magnitudes.size = outline.dims.volume
  size_signs : d.signs.size = outline.dims.volume
  lt : ∀ i < outline.dims.volume,
    (d.magnitudes.getD i 0#n).toNat < 2 ^ (outline.topPlane.toInt + 1).toNat
  sign : ∀ i < outline.dims.volume, d.magnitudes.getD i 0#n = 0#n → d.signs.getD i true = true

theorem checkTopPlane_integers (n : Nat) (top : Int) :
    checkTopPlane (BitVec n) top = if top < n then .ok () else .error (.tooNarrow top n) := by
  unfold checkTopPlane
  have hiff : Magnitude.maxPlane (BitVec n) < top ↔ ¬top < n := by
    show (n : Int) - 1 < top ↔ _
    omega
  by_cases h : top < n
  · rw [if_neg (fun hm => hiff.mp hm h), if_pos h]
  · rw [if_pos (hiff.mpr h), if_neg h]
    rfl

/-- A decoder that has enough bits comes to an end: the outline turns out to declare more bits than
the planes take, or the result is sound, and exactly the bits in question have been read. -/
theorem decode_of_room {outline : Outline} {limit : BitLimit} {t : Tape}
    (hd : outline.dims.validate = .ok ()) (hn : outline.topPlane.toInt < n)
    (hroom : outline.required limit ≤ t.writePosition) :
    (∃ read < outline.bitCount, read ≤ outline.required limit ∧
      ((decode (α := BitVec n) .unbounded outline limit).on t).1 =
        .error (.inconsistent (.bitCount read outline.bitCount))) ∨
    ∃ d : Decoded (BitVec n),
      ((decode (α := BitVec n) .unbounded outline limit).on t).1 = .ok d ∧
      d.IsSound outline limit ∧
      ((decode (α := BitVec n) .unbounded outline limit).on t).2.readPosition =
        outline.required limit := by
  have hle := outline.required_le limit
  obtain ⟨hcount, hmoved, hstopped⟩ := Decoder.run_bitCount (α := BitVec n) outline.dims
    (outline.required limit) outline.topPlane.toInt (Tape.isFresh_seekRead t 0)
  obtain ⟨e, ph, hsound⟩ := Decoder.run_sound (outline.required limit) (t.seekRead 0) hd hn
  rw [decode_run outline limit t hd, checkTopPlane_integers, if_pos hn]
  dsimp only
  rw [if_neg (Nat.not_lt.mpr hroom)]
  generalize Decoder.run (α := BitVec n) outline.dims (outline.required limit)
    outline.topPlane.toInt (t.seekRead 0) = result at *
  obtain ⟨finished, s⟩ := result
  dsimp only at *
  by_cases hend : finished.isSome = true ∧ s.bitCount ≠ outline.bitCount
  · rw [if_pos hend]
    exact .inl ⟨s.bitCount, by have := hend.2; omega, hcount, rfl⟩
  · have hread : s.bitCount = outline.required limit := by
      cases finished with
      | none => exact hstopped rfl
      | some p =>
        have heq : s.bitCount = outline.bitCount := by simpa using hend
        omega
    rw [if_neg hend]
    refine .inr ⟨_, rfl, ⟨hread, hsound.size_magnitudes, hsound.size_signs, hsound.lt,
      hsound.sign⟩, ?_⟩
    rw [← hread]
    exact hmoved.readPosition.trans (Nat.zero_add _)

/-- Any bits can be decoded as integers without harm. The type is found too narrow exactly if it does
not hold the planes, and the stream too short exactly if it has not got the bits that are to be read.
Otherwise the result is sound, unless the outline declares more bits than there are in the planes;
all questions are about elements of the array, there are at most so many for each plane, and no sum
wraps around. -/
theorem decode_any_stream (w : Width) (outline : Outline) (limit : BitLimit) (t : Tape)
    (hd : outline.dims.validate = .ok ()) :
    let top := outline.topPlane.toInt
    let required := outline.required limit
    let run := (decode (α := BitVec w.bits) .unbounded outline limit).on t
    ((∃ planes width, run.1 = .error (.tooNarrow planes width)) ↔ (w.bits : Int) ≤ top) ∧
    ((∃ available needed, run.1 = .error (.truncated available needed)) ↔
      top < w.bits ∧ t.writePosition < required) ∧
    (top < w.bits → required ≤ t.writePosition →
      ((∃ read, run.1 = .error (.inconsistent (.bitCount read outline.bitCount))) ∨
        ∃ d, run.1 = .ok d ∧ d.IsSound outline limit ∧ run.2.readPosition = required) ∧
      (∀ q ∈ Decoder.questions (BitVec w.bits) outline required t,
        ∀ i ∈ q.indices outline.dims, i < outline.dims.volume) ∧
      (Decoder.questions (BitVec w.bits) outline required t).length ≤
        (top + 1).toNat * planeFee outline.dims ∧
      ∀ x ∈ Decoder.additions (BitVec w.bits) outline required t,
        x.1.toNat + x.2.toNat < 2 ^ (top + 1).toNat) := by
  intro top required run
  have hrun : run = _ := decode_run (α := BitVec w.bits) outline limit t hd
  rw [checkTopPlane_integers] at hrun
  by_cases hn : top < w.bits
  · rw [if_pos hn] at hrun
    dsimp only at hrun
    by_cases hshort : t.writePosition < required
    · rw [if_pos hshort] at hrun
      refine ⟨⟨fun h => ?_, fun h => ?_⟩, ⟨fun _ => ⟨hn, hshort⟩, fun _ => ?_⟩, fun _ h => ?_⟩
      · obtain ⟨planes, width, h⟩ := h
        rw [hrun] at h
        cases h
      · omega
      · exact ⟨_, _, congrArg Prod.fst hrun⟩
      · omega
    · have hroom : required ≤ t.writePosition := Nat.not_lt.mp hshort
      have hcases := decode_of_room hd hn hroom
      have hresult : (∃ read, run.1 = .error (.inconsistent (.bitCount read outline.bitCount))) ∨
          ∃ d, run.1 = .ok d ∧ d.IsSound outline limit ∧ run.2.readPosition = required := by
        rcases hcases with ⟨read, -, -, h⟩ | h
        · exact .inl ⟨read, h⟩
        · exact .inr h
      obtain ⟨hrange, hlength⟩ :=
        Decoder.questions_inside (α := BitVec w.bits) outline required t hd
      rw [Decoder.integerPlanes] at hlength
      refine ⟨⟨fun h => ?_, fun h => ?_⟩, ⟨fun h => ?_, fun h => ?_⟩,
        fun _ _ => ⟨hresult, hrange, hlength, Decoder.additions_lt required t hd hn⟩⟩
      · obtain ⟨planes, width, h⟩ := h
        rcases hresult with ⟨read, hr⟩ | ⟨d, hr, -⟩ <;> (rw [hr] at h; cases h)
      · omega
      · obtain ⟨available, needed, h⟩ := h
        rcases hresult with ⟨read, hr⟩ | ⟨d, hr, -⟩ <;> (rw [hr] at h; cases h)
      · omega
  · rw [if_neg hn] at hrun
    refine ⟨⟨fun _ => ?_, fun _ => ?_⟩, ⟨fun h => ?_, fun h => ?_⟩, fun h => ?_⟩
    · omega
    · exact ⟨_, _, congrArg Prod.fst hrun⟩
    · obtain ⟨available, needed, h⟩ := h
      rw [hrun] at h
      cases h
    · exact absurd h.1 hn
    · exact absurd h hn

/-- The case of two bytes that are decoded from three set bits under a limit. -/
theorem decode_any_stream_pair : (Axes.row 2).validate = .ok () ∧ (2 : Int) < Width.w8.bits ∧
    ∃ d : Decoded (BitVec 8),
      ((decode .unbounded ⟨Axes.row 2, 2, 8⟩ (some 3)).on (Tape.ofBits [7] 8)).1 = .ok d ∧
      d.IsSound ⟨Axes.row 2, 2, 8⟩ (some 3) ∧
      ∀ x ∈ Decoder.additions (BitVec 8) ⟨Axes.row 2, 2, 8⟩ 3 (Tape.ofBits [7] 8),
        x.1.toNat + x.2.toNat < 8 := by
  have hd : (Axes.row 2).validate = .ok () := rfl
  have hsome : ((decode (α := BitVec 8) .unbounded ⟨Axes.row 2, 2, 8⟩ (some 3)).on
      (Tape.ofBits [7] 8)).1.isOk = true := by decide +kernel
  obtain ⟨-, -, h⟩ := decode_any_stream .w8 ⟨Axes.row 2, 2, 8⟩ (some 3) (Tape.ofBits [7] 8) hd
  obtain ⟨hresult, -, -, hadd⟩ := h (by decide) (by decide)
  refine ⟨hd, by decide, ?_⟩
  rcases hresult with ⟨read, hr⟩ | ⟨d, hr, hsound, -⟩
  · rw [show Width.w8.bits = 8 from rfl] at hr
    rw [hr] at hsome
    cases hsome
  · exact ⟨d, hr, hsound, hadd⟩

end Integers

end VolumeCodec
