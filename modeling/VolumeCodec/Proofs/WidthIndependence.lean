import VolumeCodec.Proofs.CutCodes
import VolumeCodec.Proofs.QuantizedCorrections
import VolumeCodec.Proofs.TrueAnswers

namespace VolumeCodec

section Encoding

variable {v w : Width} {narrow : Array (BitVec v.bits)} {wide : Array (BitVec w.bits)}

theorem topPlane_toNat {n : Nat} (magnitudes : Array (BitVec n)) :
    topPlane magnitudes = (magnitudes.map BitVec.toNat).foldl
      (fun top a => max top (if a = 0 then Int32.minValue else Int32.ofNat a.log2))
      Int32.minValue := by
  rw [Array.foldl_map]
  unfold topPlane
  congr 1
  funext top a
  show max top (if a = 0#n then _ else _) = _
  simp only [← BitVec.toNat_inj, BitVec.toNat_zero]

/-- What is written of some numbers does not depend on the width in which they are kept. -/
theorem written_of_numbers {dims : Extents} (signs : Array Bool) (limit : BitLimit)
    (hd : dims.validate = .ok ()) (hm : narrow.size = dims.volume)
    (h : narrow.map BitVec.toNat = wide.map BitVec.toNat) :
    Encoder.written (⟨dims, signs, limit, .never⟩ : Encoder.Task _ Unit) narrow =
      Encoder.written (⟨dims, signs, limit, .never⟩ : Encoder.Task _ Unit) wide := by
  have hm' : wide.size = dims.volume := by
    rw [← hm, ← Array.size_map, ← h, Array.size_map]
  have hnumbers : (fun i => (narrow.getD i 0#v.bits).toNat) =
      fun i => (wide.getD i 0#w.bits).toNat := by
    funext i
    have hentry := congrArg (·[i]?) h
    simp only [Array.getElem?_map] at hentry
    rw [Array.getD_eq_getD_getElem?, Array.getD_eq_getD_getElem?]
    cases hn : narrow[i]? <;> cases hw : wide[i]? <;> rw [hn, hw] at hentry
    · rfl
    · cases hentry
    · cases hentry
    · exact Option.some.inj hentry
  have htop : topPlane narrow = topPlane wide := by rw [topPlane_toNat, topPlane_toNat, h]
  have hall : Encoder.written (⟨dims, signs, none, .never⟩ : Encoder.Task _ Unit) narrow =
      Encoder.written (⟨dims, signs, none, .never⟩ : Encoder.Task _ Unit) wide := by
    rw [Encoder.written_eq_answers hd (counted_integers hm),
      Encoder.written_eq_answers hd (counted_integers hm'), (bottom_integers narrow).1,
      (bottom_integers wide).1, htop, hnumbers]
    rfl
  cases limit with
  | none => exact hall
  | some n => rw [Encoder.written_of_limit, Encoder.written_of_limit, hall]

/-- All that is coded of an array is its highest plane and the bits that are written. -/
theorem encode_eq {α κ : Type} [Magnitude α] (memory : Memory) (task : Encoder.Task α κ)
    (magnitudes : Array α) : encode memory task magnitudes = (do
      task.dims.validate
      if magnitudes.size ≠ task.dims.volume ∨ task.signs.size ≠ task.dims.volume then
        throw (.invalidArgument (.magnitudeCount task.dims magnitudes.size task.signs.size))
      modify Tape.rewind
      let _ ← IndexSet.allocate memory task.dims.volume
      Tape.writeAll memory (Encoder.written task magnitudes)
      modify Tape.commit
      pure (outlineOf task.dims magnitudes (Encoder.written task magnitudes).length)) := by
  unfold encode outlineOf
  rw [← (Encoder.written_spec task magnitudes).1]
  rfl

theorem encode_of_numbers (memory : Memory) {dims : Extents} {signs : Array Bool}
    {limit : BitLimit} (h : narrow.map BitVec.toNat = wide.map BitVec.toNat) (t : Tape) :
    (encode memory (⟨dims, signs, limit, .never⟩ : Encoder.Task _ Unit) narrow).on t =
      (encode memory (⟨dims, signs, limit, .never⟩ : Encoder.Task _ Unit) wide).on t := by
  have hsize : narrow.size = wide.size := by
    rw [← Array.size_map (f := BitVec.toNat), h, Array.size_map]
  have htop : topPlane narrow = topPlane wide := by rw [topPlane_toNat, topPlane_toNat, h]
  rw [encode_eq, encode_eq]
  unfold Tape.Update.on outlineOf
  rw [Action.run_bind, Action.run_bind, Action.run_lift]
  cases hd : dims.validate with
  | error fault => rfl
  | ok _ =>
    dsimp only
    by_cases hm : narrow.size = dims.volume
    · have hwritten := written_of_numbers signs limit hd hm h
      rw [hsize, htop, hwritten]
    · have hmiss : narrow.size ≠ dims.volume ∨ signs.size ≠ dims.volume := .inl hm
      rw [if_pos hmiss, if_pos (hsize ▸ hmiss), hsize, Action.run_bind, Action.run_bind,
        Action.run_throw]

end Encoding

section Decoding

variable {β : Type} {n k : Nat} {v w : Width}

/-- The lowest bits of the numbers that have been recovered. -/
def Sketch.low (k : Nat) (a : Sketch (BitVec n)) : Sketch Nat :=
  ⟨a.magnitudes.map (·.toNat % 2 ^ k), a.signs⟩

theorem toNat_pow2_mod (hk : k ≤ n) (plane : Int) :
    (Magnitude.pow2 plane : BitVec n).toNat % 2 ^ k = 2 ^ plane.toNat % 2 ^ k := by
  show (BitVec.twoPow n plane.toNat).toNat % 2 ^ k = _
  rw [BitVec.toNat_twoPow, Nat.mod_mod_of_dvd _ (Nat.pow_dvd_pow 2 hk)]

theorem map_modify {γ δ : Type} {f : γ → δ} {g : γ → γ} {g' : δ → δ} (h : ∀ a, f (g a) = g' (f a))
    (values : Array γ) (i : Nat) : (values.modify i g).map f = (values.map f).modify i g' := by
  refine Array.ext_getElem? fun j => ?_
  rw [Array.getElem?_map, Array.getElem?_modify, Array.getElem?_modify, Array.getElem?_map]
  split
  · cases values[j]? with
    | none => rfl
    | some a => exact congrArg some (h a)
  · rfl

/-- A carry out of the lowest bits does not change them. -/
theorem map_low_modify (hk : k ≤ n) (values : Array (BitVec n)) (i : Nat) (plane : Int) :
    (values.modify i (Magnitude.add · (Magnitude.pow2 plane))).map (·.toNat % 2 ^ k) =
      (values.map (·.toNat % 2 ^ k)).modify i fun x => (x + 2 ^ plane.toNat % 2 ^ k) % 2 ^ k := by
  refine map_modify (fun a => ?_) values i
  show (a + Magnitude.pow2 plane).toNat % 2 ^ k = _
  rw [BitVec.toNat_add, Nat.mod_mod_of_dvd _ (Nat.pow_dvd_pow 2 hk), Nat.add_mod,
    toNat_pow2_mod hk]

/-- What a bit does to the lowest bits does not depend on those above. -/
theorem Sketch.low_use (hv : k ≤ v.bits) (hw : k ≤ w.bits) {a : Sketch (BitVec v.bits)}
    {b : Sketch (BitVec w.bits)} (h : a.low k = b.low k) (q : Int × Query) (bit : Bool) :
    (a.use q bit).low k = (b.use q bit).low k := by
  obtain ⟨hmagnitudes, hsigns⟩ := Sketch.mk.inj h
  obtain ⟨plane, q⟩ := q
  cases q with
  | significance subject implied => exact h
  | sign i =>
    simp only [use, low, Array.map_setIfInBounds, hmagnitudes, hsigns, toNat_pow2_mod hv,
      toNat_pow2_mod hw]
  | refinement i =>
    cases bit with
    | false => exact h
    | true =>
      simp only [use, low, if_true, hsigns, map_low_modify hv, map_low_modify hw, hmagnitudes]

namespace Decoder

/-- Two decoders of different widths that have come to the same. -/
structure Alike (k : Nat) (s : State (BitVec v.bits)) (t : State (BitVec w.bits)) : Prop where
  low : s.sketch.low k = t.sketch.low k
  tape : s.tape = t.tape
  bitCount : s.bitCount = t.bitCount

theorem conduct_alike (hv : k ≤ v.bits) (hw : k ≤ w.bits) (d : Dialogue (Int × Query) β)
    {s : State (BitVec v.bits)} {t : State (BitVec w.bits)} (h : Alike k s t) (limit : Nat) :
    (d.conduct (respond limit) s).1 = (d.conduct (respond limit) t).1 ∧
      Alike k (d.conduct (respond limit) s).2 (d.conduct (respond limit) t).2 := by
  induction d generalizing s t with
  | done a => exact ⟨rfl, h⟩
  | ask q next ih =>
    simp only [Dialogue.conduct]
    cases hf : isFree q with
    | true =>
      rw [respond_of_free hf, respond_of_free hf]
      exact ih true h
    | false =>
      by_cases hl : limit ≤ s.bitCount
      · rw [respond_at_limit hf hl, respond_at_limit hf (h.bitCount ▸ hl)]
        exact ⟨rfl, h⟩
      · obtain ⟨s', hs, hstape, hscount, hssketch⟩ := respond_of_coded hf (Nat.not_le.mp hl)
        obtain ⟨t', ht, httape, htcount, htsketch⟩ :=
          respond_of_coded (s := t) hf (h.bitCount ▸ Nat.not_le.mp hl)
        rw [hs, ht, ← h.tape]
        refine ih _ ⟨?_, ?_, ?_⟩
        · rw [hssketch, htsketch, ← h.tape]
          exact Sketch.low_use hv hw h.low q _
        · rw [hstape, httape, h.tape]
        · rw [hscount, htcount, h.bitCount]

theorem low_of_sound {dims : Extents} {e : Nat} {ph : Nat → Phase} {a : Sketch (BitVec n)}
    (h : Sketch.IsSound dims k e ph a) : (a.low k).magnitudes = a.magnitudes.map BitVec.toNat := by
  refine Array.map_congr_left fun x hx => Nat.mod_eq_of_lt ?_
  obtain ⟨i, hi, rfl⟩ := Array.mem_iff_getElem.mp hx
  have hlt := h.lt i (h.size_magnitudes ▸ hi)
  rwa [Array.getD, dif_pos hi] at hlt

/-- Decoders whose widths hold the planes come to the same from the same bits. -/
theorem run_of_widths {dims : Extents} {highest : Int} (hd : dims.validate = .ok ())
    (hv : highest < v.bits) (hw : highest < w.bits) (limit : Nat) (tape : Tape) :
    let a := run (α := BitVec v.bits) dims limit highest tape
    let b := run (α := BitVec w.bits) dims limit highest tape
    a.1 = b.1 ∧ a.2.magnitudes.map BitVec.toNat = b.2.magnitudes.map BitVec.toNat ∧
      a.2.signs = b.2.signs ∧ a.2.tape = b.2.tape ∧ a.2.bitCount = b.2.bitCount := by
  intro a b
  have ha : a = (allPlanes (BitVec v.bits) dims highest).conduct (respond limit)
      (State.initial (BitVec v.bits) dims tape) := conductPlanes_eq_conduct ..
  have hb : b = (allPlanes (BitVec v.bits) dims highest).conduct (respond limit)
      (State.initial (BitVec w.bits) dims tape) := conductPlanes_eq_conduct ..
  have hinitial : Alike (highest + 1).toNat (State.initial (BitVec v.bits) dims tape)
      (State.initial (BitVec w.bits) dims tape) := by
    refine ⟨?_, rfl, rfl⟩
    simp [State.initial, State.sketch, Sketch.low, Magnitude.zero]
  have hkv : (highest + 1).toNat ≤ v.bits := by omega
  have hkw : (highest + 1).toNat ≤ w.bits := by omega
  have halike := conduct_alike hkv hkw (allPlanes (BitVec v.bits) dims highest) hinitial
  obtain ⟨hresult, hlow, htape, hcount⟩ := halike limit
  rw [← ha, ← hb] at hresult hlow htape hcount
  obtain ⟨e, ph, hsound⟩ := run_sound (n := v.bits) limit tape hd hv
  obtain ⟨e', ph', hsound'⟩ := run_sound (n := w.bits) limit tape hd hw
  obtain ⟨hmagnitudes, hsigns⟩ := Sketch.mk.inj hlow
  refine ⟨hresult, ?_, hsigns, htape, hcount⟩
  exact (low_of_sound hsound).symm.trans (hmagnitudes.trans (low_of_sound hsound'))

end Decoder

/-- Decoded integers as numbers. -/
def Decoded.toNats (d : Decoded (BitVec n)) : Decoded Nat :=
  ⟨d.magnitudes.map BitVec.toNat, d.signs, d.bitCount⟩

/-- The memory that a decoder asks for its magnitudes, in bytes. -/
def Outline.bytesFor (outline : Outline) (w : Width) : Nat :=
  min (outline.dims.volume * (w.bits / 8)) (2 ^ 64 - 1)

theorem requestArray_bytesFor (memory : Memory) (outline : Outline) (w : Width) :
    memory.requestArray outline.dims.volume (Magnitude.bytes (BitVec w.bits)) =
      if memory.grants (outline.bytesFor w) then .ok ()
      else .error (.allocation (outline.bytesFor w)) := rfl

/-- A decoder is refused the memory for its magnitudes. -/
def IsRefused (memory : Memory) (outline : Outline) (w : Width)
    (result : Except Fault (Decoded (BitVec w.bits))) : Prop :=
  memory.grants (outline.bytesFor w) = false ∧
    result = .error (.allocation (outline.bytesFor w))

theorem decode_refused {memory : Memory} {outline : Outline} {limit : BitLimit} {t : Tape}
    (hd : outline.dims.validate = .ok ()) (hw : outline.topPlane.toInt < w.bits)
    (hroom : outline.required limit ≤ t.writePosition)
    (h : memory.grants (outline.bytesFor w) = false) :
    ((decode (α := BitVec w.bits) memory outline limit).on t).1 =
      .error (.allocation (outline.bytesFor w)) := by
  rw [decode_outcome, hd, checkTopPlane_integers, if_pos hw, if_neg (Nat.not_lt.mpr hroom),
    requestArray_bytesFor, h]
  rfl

theorem decode_of_widths (memory : Memory) (outline : Outline) (limit : BitLimit) (t : Tape)
    (hv : outline.topPlane.toInt < v.bits) (hw : outline.topPlane.toInt < w.bits) :
    let a := (decode (α := BitVec v.bits) memory outline limit).on t
    let b := (decode (α := BitVec w.bits) memory outline limit).on t
    (a.1.map Decoded.toNats, a.2) = (b.1.map Decoded.toNats, b.2) ∨
      IsRefused memory outline v a.1 ∨ IsRefused memory outline w b.1 := by
  unfold decode Tape.Update.on
  simp only [Action.run_bind, Action.run_lift, checkTopPlane_integers, if_pos hv, if_pos hw,
    Action.run_get]
  cases hd : outline.dims.validate with
  | error fault => exact .inl rfl
  | ok _ =>
    dsimp only
    generalize limit.elim outline.bitCount (min · outline.bitCount) = required
    by_cases hshort : t.writePosition < required
    · simp only [if_pos hshort]
      exact .inl rfl
    · simp only [if_neg hshort, Action.run_bind, Action.run_modify, Action.run_lift,
        requestArray_bytesFor]
      cases hgv : memory.grants (outline.bytesFor v) with
      | false => exact .inr (.inl ⟨hgv, rfl⟩)
      | true =>
        cases hgw : memory.grants (outline.bytesFor w) with
        | false => exact .inr (.inr ⟨hgw, rfl⟩)
        | true =>
          left
          obtain ⟨hresult, hmagnitudes, hsigns, htape, hcount⟩ :=
            Decoder.run_of_widths (v := v) (w := w) hd hv hw required (t.seekRead 0)
          simp only [if_true]
          cases memory.requestArray outline.dims.volume 1 with
          | error fault => rfl
          | ok _ =>
            dsimp only
            cases IndexSet.allocate memory outline.dims.volume with
            | error fault => rfl
            | ok _ =>
              simp only [Action.run_get, Action.run_set, hresult, hcount]
              generalize Decoder.run (α := BitVec v.bits) outline.dims required _ _ = a at *
              generalize Decoder.run (α := BitVec w.bits) outline.dims required _ _ = b at *
              split
              · rw [Action.run_bind, Action.run_bind, Action.run_throw, Action.run_throw, htape]
                rfl
              · simp only [Action.run_pure, Except.map, Decoded.toNats, hmagnitudes, hsigns, htape]

end Decoding

end VolumeCodec
