import VolumeCodec.Proofs.QuantizedCorrections

namespace VolumeCodec

section Coded

variable {c : Corrections} {outline : CorrectionOutline} {t full : Tape}

theorem validate_row_iff {length : Nat} :
    (Axes.row length).validate = .ok () ↔ length ≠ 0 ∧ length < 2 ^ 64 := by
  have hvolume : (Axes.row length).volume = length := by simp [Axes.row, Axes.volume]
  rw [validate_eq_ok_iff, isFlat_eq_false_iff, hvolume]
  simp [Axes.row, Nat.pos_iff_ne_zero]

theorem Corrections.encodes_iff (ht : isTolerance c.tolerance = true)
    (hd : (Axes.row c.length).validate = .ok ()) (t : Tape) :
    (∃ outline full, (c.encode .unbounded).on t = (.ok outline, full)) ↔
      AreCodable c.length c.tolerance c.list.toList := by
  constructor
  · intro h
    obtain ⟨outline, full, h⟩ := h
    obtain ⟨-, q, hq, -⟩ := encode_on h
    exact (quantize_eq_ok hq ht).1
  · intro h
    obtain ⟨q, hq⟩ := exists_quantize ht h
    obtain ⟨-, hall⟩ := quantize_eq_ok hq ht
    exact ⟨_, _, encode_of_quantize hq hd hall.size_magnitudes hall.size_signs t⟩

/-- Whatever tape begins with the bits of coded corrections, the nearest multiples of the tolerance
are decoded from it. -/
theorem Corrections.decode_encoded (ht : isTolerance c.tolerance = true)
    (h : (c.encode .unbounded).on t = (.ok outline, full)) :
    ∃ decoded, decoded.Pairwise (·.position < ·.position) ∧
      decoded.Perm (c.list.toList.map (Correction.nearest c.tolerance)) ∧
      full.writePosition = outline.row.bitCount ∧
      ∀ s : Tape, outline.row.bitCount ≤ s.writePosition →
        (∀ i < outline.row.bitCount, s.bit i = full.bit i) →
          ((Corrections.decode .unbounded outline).on s).1 = .ok decoded := by
  obtain ⟨hd, q, hq, rfl, rfl⟩ := encode_on h
  obtain ⟨hcodable, hall⟩ := quantize_eq_ok hq ht
  obtain ⟨hascending, hperm⟩ := hall.restore ht hcodable
  obtain ⟨-, hpos, hbit⟩ := Tape.recorded_spec t (q.code.bits c.length)
  refine ⟨q.restore c.tolerance, hascending, hperm, hpos, fun s hs hsame => ?_⟩
  rw [← Quantized.restored_code c.tolerance hd hall.size_magnitudes hall.size_signs hall.lt]
  exact q.code.decode_on ht hd hs fun i hi => (hsame i hi).trans (hbit i hi)

theorem Corrections.header_encoded (hmax : c.length ≤ maxElements)
    (h : (c.encode .unbounded).on t = (.ok outline, full)) :
    (CorrectionHeader.ofOutline outline).toOutline = .ok outline := by
  obtain ⟨hd, q, -, rfl, -⟩ := encode_on h
  exact q.code.toOutline_ofOutline hd hmax

theorem Corrections.fields_foldl_add (c : Corrections) (list : List Correction) :
    (list.foldl add c).length = c.length ∧ (list.foldl add c).tolerance = c.tolerance ∧
      (list.foldl add c).list.toList = c.list.toList ++ list := by
  induction list generalizing c with
  | nil => exact ⟨rfl, rfl, (List.append_nil _).symm⟩
  | cons x rest ih =>
    obtain ⟨hlength, htolerance, hlist⟩ := ih (c.add x)
    refine ⟨hlength, htolerance, hlist.trans ?_⟩
    simp [add]

end Coded

/-- Corrections are coded exactly if they are at different positions of the array, and each is
finite, no smaller than the tolerance and below `2 ^ 64` tolerances. Decoding gives back each of
them and nothing else, by ascending position, as the nearest multiple of the tolerance in the
direction of the error; and the same after a way through bytes, as long as a header may declare the
length. -/
theorem corrections_roundtrip {length : Nat} {tolerance : Float} {c : Corrections}
    (hc : Corrections.create length tolerance = .ok c) (hlength : length < 2 ^ 64)
    (list : List Correction) (t : Tape) :
    let c := list.foldl Corrections.add c
    ((∃ outline full, (c.encode .unbounded).on t = (.ok outline, full)) ↔
      AreCodable length tolerance list) ∧
    ∀ outline full, (c.encode .unbounded).on t = (.ok outline, full) →
      ∃ decoded, ((Corrections.decode .unbounded outline).on full).1 = .ok decoded ∧
        decoded.Pairwise (·.position < ·.position) ∧
        decoded.Perm (list.map (Correction.nearest tolerance)) ∧
        (length ≤ maxElements →
          let header := CorrectionHeader.ofOutline outline
          (∀ rest, CorrectionHeader.read.from (header.toBytes ++ rest) = (.ok header, rest)) ∧
          header.toOutline = .ok outline ∧
          ∀ s, ∃ loaded, (Tape.load .unbounded (full.toBytes outline.row.bitCount)
              outline.row.bitCount).on s = (.ok (), loaded) ∧
            ((Corrections.decode .unbounded outline).on loaded).1 = .ok decoded) := by
  obtain ⟨ht, hne, rfl⟩ := Corrections.create_eq_ok_iff.mp hc
  have hd := validate_row_iff.mpr ⟨hne, hlength⟩
  have hfields := Corrections.fields_foldl_add ⟨length, tolerance, #[]⟩ list
  generalize list.foldl Corrections.add ⟨length, tolerance, #[]⟩ = c at hfields
  obtain ⟨rfl, rfl, rfl⟩ := hfields
  intro c
  refine ⟨Corrections.encodes_iff ht hd t, fun outline full h => ?_⟩
  obtain ⟨decoded, hascending, hperm, hposition, hdecode⟩ := Corrections.decode_encoded ht h
  refine ⟨decoded, hdecode full (Nat.le_of_eq hposition.symm) fun _ _ => rfl, hascending, hperm,
    fun hmax => ⟨CorrectionHeader.gets _, Corrections.header_encoded hmax h, fun s => ?_⟩⟩
  refine ⟨_, Tape.load_on (Nat.le_of_eq (Tape.length_toBytes _ _).symm) s, ?_⟩
  exact hdecode _ (Nat.le_refl _) fun i hi => Tape.bit_ofBits_toBytes full hi

/-- Two corrections in the wrong order, of which one is not a multiple of the tolerance. -/
theorem corrections_roundtrip_pair :
    let list : List Correction := [⟨3, -1.6⟩, ⟨0, 2⟩]
    let c : Corrections := list.foldl Corrections.add ⟨5, 0.5, #[]⟩
    ∃ outline full decoded, (c.encode .unbounded).on .empty = (.ok outline, full) ∧
      ((Corrections.decode .unbounded outline).on full).1 = .ok decoded ∧
      decoded.map (fun x => (x.position, x.error.toBits)) =
        [(0, (2 : Float).toBits), (3, (-1.5 : Float).toBits)] := by
  intro list c
  have hc : Corrections.create 5 0.5 = .ok ⟨5, 0.5, #[]⟩ :=
    Corrections.create_eq_ok_iff.mpr ⟨by decide +kernel, by decide, rfl⟩
  obtain ⟨hiff, hall⟩ := corrections_roundtrip hc (by decide) list .empty
  have hcodable : AreCodable 5 0.5 list := by
    refine ⟨?_, by decide⟩
    simp only [list, List.forall_mem_cons, List.not_mem_nil, false_implies, implies_true, and_true]
    exact ⟨⟨by decide, by decide +kernel, by decide +kernel, by decide +kernel⟩,
      ⟨by decide, by decide +kernel, by decide +kernel, by decide +kernel⟩⟩
  obtain ⟨outline, full, hencode⟩ := hiff.mpr hcodable
  obtain ⟨decoded, hdecode, hascending, hperm, -⟩ := hall outline full hencode
  refine ⟨outline, full, decoded, hencode, hdecode, ?_⟩
  have hlist : decoded = [Correction.nearest 0.5 ⟨0, 2⟩, Correction.nearest 0.5 ⟨3, -1.6⟩] := by
    refine List.Perm.eq_of_pairwise (fun x y _ _ hxy hyx => absurd hxy (Nat.lt_asymm hyx))
      hascending ?_ (hperm.trans (List.Perm.swap _ _ _))
    simp [Correction.nearest]
  rw [hlist]
  decide +kernel

end VolumeCodec
