import VolumeCodec.Proofs.ArbitraryHeaders
import VolumeCodec.Proofs.WholeContainers

namespace VolumeCodec

variable {α β : Type}

namespace Reader

/-- A reader and a writer that undo one another. What was written is read as it was, if it may be
read, and what follows is left; and whatever is read, writing it gives back the bytes it was read
from. -/
structure IsFormat (r : Reader α) (write : α → List UInt8) (valid : α → Prop) : Prop where
  gets : ∀ a, valid a → r.Gets (write a) a
  exact : ∀ input a rest, r.from input = (.ok a, rest) → valid a ∧ input = write a ++ rest

/-- A format of headers that are all of one size. A header that was cut off is a bad one. -/
structure IsHeader (r : Reader α) (write : α → List UInt8) (valid : α → Prop) (size : Nat) : Prop
    extends r.IsFormat write valid where
  length : ∀ a, (write a).length = size
  short : ∀ a k, k < size → ∃ why, (r.from ((write a).take k)).1 = .error (.badHeader why)

/-- The value that is made and the bytes that are taken for it have a property, unless the header is
a bad one. -/
def Takes (r : Reader α) (post : α → List UInt8 → Prop) : Prop :=
  ∀ input, match r.from input with
    | (.ok a, rest) => ∃ taken, input = taken ++ rest ∧ post a taken
    | (.error fault, _) => ∃ why, fault = .badHeader why

section Rules

variable {r : Reader α} {post : α → List UInt8 → Prop} {post' : β → List UInt8 → Prop}

theorem Takes.bind {f : α → Reader β} (h : r.Takes post)
    (hf : ∀ a taken, post a taken → (f a).Takes fun b more => post' b (taken ++ more)) :
    (r >>= f).Takes post' := by
  intro input
  have hr := h input
  rw [from_bind]
  rcases hrun : r.from input with ⟨fault | a, rest⟩
  · rw [hrun] at hr
    exact hr
  · rw [hrun] at hr
    obtain ⟨taken, rfl, ha⟩ := hr
    have hnext := hf a taken ha rest
    dsimp only
    rcases hrun' : (f a).from rest with ⟨fault | b, last⟩
    · rw [hrun'] at hnext
      exact hnext
    · rw [hrun'] at hnext
      obtain ⟨more, rfl, hb⟩ := hnext
      exact ⟨taken ++ more, (List.append_assoc _ _ _).symm, hb⟩

theorem takes_pure {a : α} (h : post a []) : (pure a : Reader α).Takes post :=
  fun _ => ⟨[], rfl, h⟩

theorem Takes.map {f : α → β} (h : r.Takes post)
    (hf : ∀ a taken, post a taken → post' (f a) taken) : (f <$> r).Takes post' := by
  rw [map_eq_pure_bind]
  refine h.bind fun a taken ha => takes_pure ?_
  rw [List.append_nil]
  exact hf a taken ha

theorem takes_throw (why : Corruption) : (throw (.badHeader why) : Reader α).Takes post :=
  fun _ => ⟨why, rfl⟩

theorem takes_check {c : Prop} [Decidable c] {why : Corruption} (h : ¬c → r.Takes post) :
    (do if c then throw (.badHeader why)
        r : Reader α).Takes post := by
  by_cases hc : c
  · rw [if_pos hc]
    exact takes_throw why
  · rw [if_neg hc]
    exact h hc

theorem Takes.isHeader {write : α → List UInt8} {valid : α → Prop} {size : Nat}
    (h : r.Takes fun a taken => valid a ∧ taken = write a)
    (hgets : ∀ a, valid a → r.Gets (write a) a) (hlength : ∀ a, (write a).length = size) :
    r.IsHeader write valid size := by
  have hexact : ∀ input a rest, r.from input = (.ok a, rest) →
      valid a ∧ input = write a ++ rest := by
    intro input a rest hrun
    have hr := h input
    rw [hrun] at hr
    obtain ⟨taken, rfl, ha, rfl⟩ := hr
    exact ⟨ha, rfl⟩
  refine ⟨⟨hgets, hexact⟩, hlength, fun a k hk => ?_⟩
  have hr := h ((write a).take k)
  rcases hrun : r.from ((write a).take k) with ⟨fault | b, rest⟩
  · rw [hrun] at hr
    obtain ⟨why, rfl⟩ := hr
    exact ⟨why, rfl⟩
  · -- A value that was made was made of more bytes than there are.
    obtain ⟨-, htake⟩ := hexact _ _ _ hrun
    have hbytes := congrArg List.length htake
    rw [List.length_take, List.length_append, hlength, hlength] at hbytes
    omega

end Rules

section Primitives

theorem natOfBytes_lt (bytes : List UInt8) : natOfBytes bytes < 2 ^ (8 * bytes.length) := by
  have hvalue := natOfBytes_bytesOfNat bytes.length (natOfBytes bytes)
  rw [bytesOfNat_natOfBytes, Nat.one_shiftLeft] at hvalue
  rw [hvalue]
  exact Nat.mod_lt _ (Nat.two_pow_pos _)

theorem bytes_takes (n : Nat) : (bytes n).Takes fun a taken => a.length = n ∧ taken = a := by
  intro input
  unfold bytes Reader.from
  simp only [Action.run_bind, Action.run_get, Action.run_set]
  by_cases hlt : input.length < n
  · rw [if_pos hlt]
    exact ⟨.short, rfl⟩
  · rw [if_neg hlt]
    exact ⟨input.take n, (List.take_append_drop n input).symm,
      List.length_take_of_le (Nat.not_lt.mp hlt), rfl⟩

theorem nat_takes (n : Nat) :
    (nat n).Takes fun value taken => value < 2 ^ (8 * n) ∧ taken = bytesOfNat n value := by
  refine (bytes_takes n).map fun a taken h => ?_
  obtain ⟨rfl, rfl⟩ := h
  exact ⟨natOfBytes_lt taken, (bytesOfNat_natOfBytes taken).symm⟩

theorem uint8_takes : uint8.Takes fun b taken => taken = [b] := by
  refine (nat_takes 1).map fun value taken h => ?_
  rw [h.2]
  rfl

theorem uint64_takes : uint64.Takes fun n taken => taken = bytesOfUInt64 n := by
  refine (nat_takes 8).map fun value taken h => ?_
  rw [h.2, bytesOfUInt64, UInt64.toNat_ofNat_of_lt' h.1]

theorem int32_takes : int32.Takes fun n taken => taken = bytesOfInt32 n := by
  refine (nat_takes 4).map fun value taken h => ?_
  rw [h.2, bytesOfInt32]
  exact congrArg (bytesOfNat 4) (UInt32.toNat_ofNat_of_lt' h.1).symm

theorem extents_takes :
    extents.Takes fun e taken => e.AreDeclared ∧ taken = bytesOfExtents e := by
  refine (nat_takes 8).bind fun x _ hx => (nat_takes 8).bind fun y _ hy =>
    (nat_takes 8).bind fun z _ hz => ?_
  obtain ⟨-, rfl⟩ := hx
  obtain ⟨-, rfl⟩ := hy
  obtain ⟨-, rfl⟩ := hz
  dsimp only
  cases hd : Axes.validate ⟨x, y, z⟩ with
  | error fault => exact takes_throw _
  | ok u =>
    refine takes_check fun hv => takes_pure ⟨⟨hd, Nat.not_lt.mp hv⟩, ?_⟩
    have hbytes := bytesOfExtents_append ⟨x, y, z⟩ []
    rw [List.append_nil] at hbytes
    exact hbytes.symm

end Primitives

end Reader

open Reader

theorem Axes.AreDeclared.declared {e : Extents} (h : e.AreDeclared) :
    e.AreWords ∧ declaredExtents e = .ok e :=
  ⟨areWords_of_validate h.validate, declaredExtents_of_validate h.validate h.volume_le⟩

theorem Preamble.takes :
    Preamble.read.Takes fun p taken => p.dims.AreDeclared ∧ taken = p.toBytes := by
  refine (bytes_takes 4).bind fun found _ h => ?_
  obtain ⟨-, rfl⟩ := h
  refine takes_check fun hmagic => ?_
  refine uint8_takes.bind fun v _ h => ?_
  subst h
  refine takes_check fun hversion => ?_
  refine uint8_takes.bind fun flags _ h => ?_
  subst h
  refine extents_takes.bind fun dims _ h => ?_
  obtain ⟨hd, rfl⟩ := h
  refine takes_pure ⟨hd, ?_⟩
  rw [toBytes_eq, Decidable.not_not.mp hmagic, Decidable.not_not.mp hversion]

theorem Preamble.isHeader :
    Preamble.read.IsHeader toBytes (fun p => p.dims.AreDeclared) 30 := by
  refine takes.isHeader (fun p hp => gets hp.declared.1 hp.declared.2) fun p => ?_
  simp [toBytes, magic, length_bytesOfExtents]

theorem Scale.takes : Scale.read.Takes fun s taken => s.isUsable = true ∧ taken = s.toBytes := by
  refine uint64_takes.bind fun mean _ h => ?_
  subst h
  refine uint64_takes.bind fun step _ h => ?_
  subst h
  refine takes_check fun husable => takes_pure ⟨by simpa using husable, ?_⟩
  rw [toBytes_eq]

theorem Scale.isHeader : Scale.read.IsHeader toBytes (fun s => s.isUsable = true) 16 := by
  refine takes.isHeader (fun s hs => gets hs) fun s => ?_
  simp [toBytes, length_bytesOfUInt64]

theorem TileTable.takes :
    TileTable.read.Takes fun t taken => t.extents.AreDeclared ∧ taken = t.toBytes := by
  refine extents_takes.bind fun extents _ h => ?_
  obtain ⟨hd, rfl⟩ := h
  refine uint64_takes.bind fun count _ h => ?_
  subst h
  refine takes_pure ⟨hd, ?_⟩
  rw [toBytes_eq]

theorem TileTable.isHeader :
    TileTable.read.IsHeader toBytes (fun t => t.extents.AreDeclared) 32 := by
  refine takes.isHeader (fun t ht => gets ht.declared.1 ht.declared.2) fun t => ?_
  simp [toBytes, length_bytesOfUInt64, length_bytesOfExtents]

theorem CodeHeader.takes : CodeHeader.read.Takes fun h taken => True ∧ taken = h.toBytes := by
  refine int32_takes.bind fun topPlane _ h => ?_
  subst h
  refine uint64_takes.bind fun bitCount _ h => ?_
  subst h
  refine takes_pure ⟨trivial, ?_⟩
  rw [toBytes_eq]

theorem CodeHeader.isHeader : CodeHeader.read.IsHeader toBytes (fun _ => True) 12 := by
  refine takes.isHeader (fun h _ => gets h) fun h => ?_
  simp [toBytes, length_bytesOfUInt64, length_bytesOfInt32]

theorem Width.ofTag_cases (tag : UInt8) :
    (∃ w, Width.ofTag tag = .ok w ∧ w.tag = tag) ∨
      Width.ofTag tag = .error (.badHeader (.widthTag tag)) := by
  unfold Width.ofTag
  split
  next h => exact .inl ⟨.w8, rfl, h.symm⟩
  next =>
    split
    next h => exact .inl ⟨.w16, rfl, h.symm⟩
    next =>
      split
      next h => exact .inl ⟨.w32, rfl, h.symm⟩
      next =>
        split
        next h => exact .inl ⟨.w64, rfl, h.symm⟩
        next => exact .inr rfl

theorem Width.ofTag_takes (tag : UInt8) :
    (liftM (Width.ofTag tag) : Reader Width).Takes fun w taken => w.tag = tag ∧ taken = [] := by
  rcases ofTag_cases tag with ⟨w, hw, htag⟩ | herror
  · rw [hw]
    exact takes_pure ⟨htag, rfl⟩
  · rw [herror]
    exact takes_throw _

theorem CorrectionHeader.takes :
    CorrectionHeader.read.Takes fun h taken => True ∧ taken = h.toBytes := by
  refine uint8_takes.bind fun tag _ h => ?_
  subst h
  refine (Width.ofTag_takes tag).bind fun width _ h => ?_
  obtain ⟨rfl, rfl⟩ := h
  refine uint64_takes.bind fun tolerance _ h => ?_
  subst h
  refine uint64_takes.bind fun length _ h => ?_
  subst h
  refine CodeHeader.takes.bind fun code _ h => ?_
  obtain ⟨-, rfl⟩ := h
  refine takes_pure ⟨trivial, ?_⟩
  rw [toBytes_eq]

theorem CorrectionHeader.isHeader : CorrectionHeader.read.IsHeader toBytes (fun _ => True) 29 := by
  refine takes.isHeader (fun h _ => gets h) fun h => ?_
  simp [toBytes, CodeHeader.toBytes, length_bytesOfUInt64, length_bytesOfInt32]

theorem Reader.isFormat_block :
    Reader.block.IsFormat bytesOfBlock (fun bytes => bytes.length < 2 ^ 64) := by
  refine ⟨fun bytes h => gets_block h, fun input bytes rest hrun => ?_⟩
  obtain ⟨length, more, hlength, h⟩ := Action.run_bind_eq_ok.mp hrun
  have htaken := uint64_takes input
  unfold Reader.from at htaken
  rw [hlength] at htaken
  obtain ⟨_, rfl, rfl⟩ := htaken
  simp only [Action.run_bind, Action.run_get, Action.run_set] at h
  by_cases hlt : more.length < length.toNat
  · rw [if_pos hlt] at h
    cases h
  · rw [if_neg hlt] at h
    cases h
    have htake := List.length_take_of_le (Nat.not_lt.mp hlt)
    refine ⟨htake.symm ▸ length.toNat_lt, ?_⟩
    rw [bytesOfBlock, htake, List.append_assoc, List.take_append_drop, bytesOfUInt64]

/-- Extents are declared exactly if none of them is zero, and if they have not too many elements,
counted without bound. -/
theorem areDeclared_iff {e : Extents} :
    e.AreDeclared ↔ (0 < e.x ∧ 0 < e.y ∧ 0 < e.z) ∧ e.x * e.y * e.z ≤ 2 ^ 36 := by
  rw [← isFlat_eq_false_iff]
  constructor
  · intro h
    exact ⟨(validate_eq_ok_iff.mp h.validate).1, h.volume_le⟩
  · intro h
    have hmax : maxElements < 1 <<< 64 := by decide
    exact ⟨validate_eq_ok_iff.mpr ⟨h.1, Nat.lt_of_le_of_lt h.2 hmax⟩, h.2⟩

theorem extents_from_of_not_declared {e : Extents} (hw : e.AreWords) (h : ¬e.AreDeclared)
    (rest : List UInt8) :
    ∃ why, Reader.extents.from (bytesOfExtents e ++ rest) = (.error (.badHeader why), rest) := by
  rw [extents_from hw]
  unfold declaredExtents
  split
  next => exact ⟨_, rfl⟩
  next u hd =>
    have hv : maxElements < e.volume := Nat.not_le.mp fun hv => h ⟨hd, hv⟩
    exact ⟨_, congrArg (·, rest) (if_pos hv)⟩

/-- Every header and every block is written and read exactly. What may be written is read as it was,
and what was read is written as it was found; a header that was cut off is a bad one; and extents
are accepted exactly if none of them is zero and they have no more than `2 ^ 36` elements, which
machine words can then count. -/
theorem formats_exact :
    Preamble.read.IsHeader Preamble.toBytes (fun p => p.dims.AreDeclared) 30 ∧
    Scale.read.IsHeader Scale.toBytes (fun s => s.isUsable = true) 16 ∧
    TileTable.read.IsHeader TileTable.toBytes (fun t => t.extents.AreDeclared) 32 ∧
    CodeHeader.read.IsHeader CodeHeader.toBytes (fun _ => True) 12 ∧
    CorrectionHeader.read.IsHeader CorrectionHeader.toBytes (fun _ => True) 29 ∧
    Reader.block.IsFormat bytesOfBlock (fun bytes => bytes.length < 2 ^ 64) ∧
    (∀ e : Extents,
      (e.AreDeclared ↔ (0 < e.x ∧ 0 < e.y ∧ 0 < e.z) ∧ e.x * e.y * e.z ≤ 2 ^ 36) ∧
      (e.AreDeclared → e.machineVolume.toNat = e.x * e.y * e.z ∧
        Reader.extents.Gets (bytesOfExtents e) e) ∧
      (e.AreWords → ¬e.AreDeclared → ∀ rest, ∃ why,
        Reader.extents.from (bytesOfExtents e ++ rest) = (.error (.badHeader why), rest))) := by
  refine ⟨Preamble.isHeader, Scale.isHeader, TileTable.isHeader, CodeHeader.isHeader,
    CorrectionHeader.isHeader, isFormat_block, fun e => ⟨areDeclared_iff, fun h => ?_,
      extents_from_of_not_declared⟩⟩
  exact ⟨toNat_machineVolume h.validate, gets_extents h.declared.1 h.declared.2⟩

/-- A scale between other bytes and without its last one, and extents of which machine words count
no elements at all. -/
theorem formats_exact_pair :
    let s := Scale.ofFloats (-1.5) 0.25
    Scale.read.from (s.toBytes ++ [7]) = (.ok s, [7]) ∧
    (∃ why, (Scale.read.from (s.toBytes.take 15)).1 = .error (.badHeader why)) ∧
    (⟨2 ^ 32, 2 ^ 32, 1⟩ : Extents).machineVolume = 0 ∧
    ∃ why, Reader.extents.from (bytesOfExtents ⟨2 ^ 32, 2 ^ 32, 1⟩ ++ []) =
      (.error (.badHeader why), []) := by
  intro s
  obtain ⟨-, hscale, -, -, -, -, hextents⟩ := formats_exact
  obtain ⟨hiff, -, hrefused⟩ := hextents ⟨2 ^ 32, 2 ^ 32, 1⟩
  have husable : s.isUsable = true := by decide +kernel
  refine ⟨hscale.gets s husable [7], hscale.short s 15 (by decide), by decide, ?_⟩
  refine hrefused ⟨by decide, by decide, by decide⟩ (fun h => ?_) []
  exact absurd (hiff.mp h).2 (by decide)

end VolumeCodec
