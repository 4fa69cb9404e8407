import VolumeCodec.Proofs.CodedTapes

namespace VolumeCodec

/-- The types of numbers that are coded: integers of four widths, and doubles. -/
inductive NumberType
  | integer (w : Width)
  | double

def NumberType.Carrier : NumberType → Type
  | integer w => BitVec w.bits
  | double => Float

instance (n : NumberType) : Magnitude n.Carrier :=
  match n with
  | .integer w => inferInstanceAs (Magnitude (BitVec w.bits))
  | .double => inferInstanceAs (Magnitude Float)

instance (n : NumberType) : BoundedPlanes n.Carrier :=
  match n with
  | .integer w => inferInstanceAs (BoundedPlanes (BitVec w.bits))
  | .double => inferInstanceAs (BoundedPlanes Float)

/-- The bits coded under a limit are the first ones of all bits, and a decoder makes the same of
them whether it is stopped by a limit of its own, by the end of what it was given, or by the count
that came with them. -/
theorem encode_embedded (n : NumberType) {dims : Extents} {magnitudes : Array n.Carrier}
    {signs : Array Bool} (hd : dims.validate = .ok ()) (hm : magnitudes.size = dims.volume)
    (hs : signs.size = dims.volume) (b : Nat) (t t' t'' : Tape) :
    ∃ (info short : Outline) (full cut : Tape),
      (encode .unbounded ⟨dims, signs, none, .never⟩ magnitudes).on t = (.ok info, full) ∧
      (encode .unbounded ⟨dims, signs, some b, .never⟩ magnitudes).on t' = (.ok short, cut) ∧
      short.topPlane = info.topPlane ∧ short.bitCount = min b info.bitCount ∧
      cut.writePosition = short.bitCount ∧ (∀ i < short.bitCount, cut.bit i = full.bit i) ∧
      (b ≤ info.bitCount → ∃ d : Decoded n.Carrier, d.bitCount = b ∧
        ((decode .unbounded info (some b)).on full).1 = .ok d ∧
        (∀ k ≥ b, ∃ part,
          (Tape.load .unbounded (full.toBytes k) b).on t'' = (.ok (), part) ∧
          ((decode .unbounded info (some b)).on part).1 = .ok d) ∧
        ((decode .unbounded short none).on cut).1 = .ok d) := by
  let all : Encoder.Task n.Carrier Unit := ⟨dims, signs, none, .never⟩
  let limited : Encoder.Task n.Carrier Unit := ⟨dims, signs, some b, .never⟩
  have hfirst : Encoder.written limited magnitudes = (Encoder.written all magnitudes).take b :=
    Encoder.written_of_limit b magnitudes
  have hlen : (Encoder.written limited magnitudes).length =
      min b (Encoder.written all magnitudes).length := by
    rw [hfirst, List.length_take]
  obtain ⟨-, hposf, hbitf⟩ := Tape.recorded_spec t (Encoder.written all magnitudes)
  obtain ⟨-, hposc, hbitc⟩ := Tape.recorded_spec t' (Encoder.written limited magnitudes)
  refine ⟨_, _, _, _, encode_on all magnitudes t hd hm hs, encode_on limited magnitudes t' hd hm hs,
    rfl, hlen, hposc, fun i hi => ?_, fun hb => ?_⟩
  · change i < (Encoder.written limited magnitudes).length at hi
    have hia : i < (Encoder.written all magnitudes).length := by omega
    rw [hbitc i hi, hbitf i hia, List.getD_eq_getElem _ _ hi, List.getD_eq_getElem _ _ hia]
    simp only [hfirst, List.getElem_take]
  · change b ≤ (Encoder.written all magnitudes).length at hb
    have hlb : (Encoder.written limited magnitudes).length = b := by omega
    refine ⟨Decoded.ofBits n.Carrier dims (topPlane magnitudes).toInt
      ((Encoder.written all magnitudes).take b), ?_, ?_, fun k hk => ?_, ?_⟩
    · show ((Encoder.written all magnitudes).take b).length = b
      rw [← hfirst, hlb]
    · refine decode_on all magnitudes (some b) hd hb (Nat.min_eq_left hb) ?_ ?_ ?_
      · exact Nat.lt_or_eq_of_le hb
      · rw [hposf]
        exact hb
      · exact fun i hi => hbitf i (by omega)
    · have hbytes :
          bytesFor b ≤ ((t.recorded (Encoder.written all magnitudes)).toBytes k).length := by
        rw [Tape.length_toBytes]
        unfold bytesFor
        omega
      refine ⟨_, Tape.load_on hbytes t'', ?_⟩
      refine decode_on all magnitudes (some b) hd hb (Nat.min_eq_left hb) ?_ (Nat.le_refl b) ?_
      · exact Nat.lt_or_eq_of_le hb
      · intro i hi
        have hik : i < k := by omega
        rw [Tape.bit_ofBits, Tape.bitOfBytes_toBytes, hbitf i (by omega)]
        simp [hi, hik]
    · have hdec := decode_on limited magnitudes none
        (t := t'.recorded (Encoder.written limited magnitudes)) hd (Nat.le_of_eq hlb.symm)
        (rfl : (none : BitLimit).elim b (min · b) = b) (.inr rfl)
        (by rw [hposc]; omega) (fun i hi => hbitc i (by omega))
      rw [hfirst, List.take_take, Nat.min_self, ← hfirst] at hdec
      show ((decode .unbounded (outlineOf dims magnitudes
        (Encoder.written limited magnitudes).length) none).on _).1 = _
      rw [hlb, ← hfirst]
      exact hdec

/-- The case of two bytes, the second of them one, under a limit of one bit. -/
theorem encode_embedded_pair :
    (Axes.row 2).validate = .ok () ∧ ∃ (info short : Outline) (full cut : Tape),
      (encode .unbounded ⟨Axes.row 2, #[true, true], none, .never⟩ #[0#8, 1#8]).on .empty =
        (.ok info, full) ∧
      (encode .unbounded ⟨Axes.row 2, #[true, true], some 1, .never⟩ #[0#8, 1#8]).on .empty =
        (.ok short, cut) ∧
      short.topPlane = info.topPlane ∧ short.bitCount = min 1 info.bitCount ∧
      ∀ i < short.bitCount, cut.bit i = full.bit i := by
  obtain ⟨info, short, full, cut, hinfo, hshort, htop, hcount, -, hbits, -⟩ :=
    @encode_embedded (.integer .w8) (Axes.row 2) #[0#8, 1#8] #[true, true] rfl rfl rfl 1
      .empty .empty .empty
  exact ⟨rfl, info, short, full, cut, hinfo, hshort, htop, hcount, hbits⟩

end VolumeCodec
