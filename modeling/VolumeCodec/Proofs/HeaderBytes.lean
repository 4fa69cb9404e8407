import Mathlib.Algebra.Order.Ring.Int
import VolumeCodec.Layout
import VolumeCodec.Proofs.ActionRuns

namespace VolumeCodec

variable {α β : Type}

namespace Reader

/-- A reader makes a value of some bytes, and leaves whatever comes behind them. -/
def Gets (r : Reader α) (bytes : List UInt8) (a : α) : Prop :=
  ∀ rest, r.from (bytes ++ rest) = (.ok a, rest)

theorem from_bind (r : Reader α) (f : α → Reader β) (bytes : List UInt8) :
    (r >>= f).from bytes = match r.from bytes with
      | (.ok a, rest) => (f a).from rest
      | (.error e, rest) => (.error e, rest) := by
  unfold Reader.from
  rw [Action.run_bind]
  rcases r.run.run bytes with ⟨_ | a, rest⟩ <;> rfl

theorem bind_from_of_ok {r : Reader α} {bytes rest : List UInt8} {a : α}
    (h : r.from bytes = (.ok a, rest)) (f : α → Reader β) :
    (r >>= f).from bytes = (f a).from rest := by
  rw [from_bind, h]

theorem Gets.bind_from {r : Reader α} {bytes : List UInt8} {a : α} (h : r.Gets bytes a)
    (f : α → Reader β) (rest : List UInt8) :
    (r >>= f).from (bytes ++ rest) = (f a).from rest :=
  bind_from_of_ok (h rest) f

theorem Gets.bind {r : Reader α} {f : α → Reader β} {bytes more : List UInt8} {a : α} {b : β}
    (h : r.Gets bytes a) (h' : (f a).Gets more b) : (r >>= f).Gets (bytes ++ more) b := by
  intro rest
  rw [List.append_assoc, h.bind_from, h' rest]

theorem gets_pure (a : α) : (pure a : Reader α).Gets [] a := fun _ => rfl

theorem Gets.map {r : Reader α} {bytes : List UInt8} {a : α} (h : r.Gets bytes a) (f : α → β) :
    (f <$> r).Gets bytes (f a) := by
  intro rest
  unfold Reader.from
  rw [Action.run_map]
  exact congrArg (fun p : Except Fault α × List UInt8 => (p.1.map f, p.2)) (h rest)

theorem gets_of_check {c : Prop} [Decidable c] {fault : Fault} {r : Reader α} {bytes : List UInt8}
    {a : α} (hc : ¬c) (h : r.Gets bytes a) :
    (do if c then throw fault
        r : Reader α).Gets bytes a := by
  rw [if_neg hc]
  exact h

theorem gets_of_eq_ok {e : Except Fault α} {a : α} (h : e = .ok a) :
    (liftM e : Reader α).Gets [] a := fun rest => by
  rw [h]
  rfl

theorem gets_bytes (bytes : List UInt8) {n : Nat} (h : bytes.length = n) :
    (Reader.bytes n).Gets bytes bytes := by
  intro rest
  have hlen : ¬(bytes ++ rest).length < n := by
    rw [List.length_append]
    omega
  have hdrop : (bytes ++ rest).drop n = rest := by rw [← h, List.drop_left]
  have htake : (bytes ++ rest).take n = bytes := by rw [← h, List.take_left]
  unfold Reader.bytes Reader.from
  simp only [Action.run_bind, Action.run_get, Action.run_set, hlen, if_false, Action.run_pure,
    hdrop, htake]

theorem gets_nat (n : Nat) {value : Nat} (h : value < 2 ^ (8 * n)) :
    (Reader.nat n).Gets (bytesOfNat n value) value := by
  have hget := (gets_bytes (bytesOfNat n value) (length_bytesOfNat n value)).map natOfBytes
  rw [natOfBytes_bytesOfNat, Nat.one_shiftLeft, Nat.mod_eq_of_lt h] at hget
  exact hget

theorem gets_uint8 (b : UInt8) : Reader.uint8.Gets [b] b := by
  have hget := (gets_nat 1 b.toNat_lt).map UInt8.ofNat
  have hb : bytesOfNat 1 b.toNat = [b] := by
    rw [bytesOfNat, bytesOfNat, UInt8.ofNat_toNat]
  rw [hb, UInt8.ofNat_toNat] at hget
  exact hget

theorem gets_uint64 (n : UInt64) : Reader.uint64.Gets (bytesOfUInt64 n) n := by
  have hget := (gets_nat 8 n.toNat_lt).map UInt64.ofNat
  rw [UInt64.ofNat_toNat] at hget
  exact hget

theorem gets_int32 (n : Int32) : Reader.int32.Gets (bytesOfInt32 n) n := by
  have hget := (gets_nat 4 n.toUInt32.toNat_lt).map
    fun k => (UInt32.ofNat k).toInt32
  rw [UInt32.ofNat_toNat] at hget
  exact hget

theorem gets_block {bytes : List UInt8} (h : bytes.length < 2 ^ 64) :
    Reader.block.Gets (bytesOfBlock bytes) bytes := by
  have hlength : Reader.uint64.Gets (bytesOfNat 8 bytes.length) (UInt64.ofNat bytes.length) :=
    (gets_nat 8 h).map UInt64.ofNat
  have hn : (UInt64.ofNat bytes.length).toNat = bytes.length := UInt64.toNat_ofNat_of_lt' h
  apply hlength.bind
  intro rest
  have hlen : ¬(bytes ++ rest).length < bytes.length := by
    rw [List.length_append]
    omega
  unfold Reader.from
  simp only [Action.run_bind, Action.run_get, Action.run_set, hn, hlen, if_false, Action.run_pure,
    List.drop_left, List.take_left]

end Reader

theorem length_bytesOfUInt64 (n : UInt64) : (bytesOfUInt64 n).length = 8 := length_bytesOfNat 8 _

theorem length_bytesOfInt32 (n : Int32) : (bytesOfInt32 n).length = 4 := length_bytesOfNat 4 _

theorem length_bytesOfExtents (e : Extents) : (bytesOfExtents e).length = 24 := by
  simp [bytesOfExtents, Axes.toList]

theorem length_bytesOfBlock (bytes : List UInt8) :
    (bytesOfBlock bytes).length = 8 + bytes.length := by
  rw [bytesOfBlock, List.length_append, length_bytesOfNat]

/-- Extents that machine words can hold. -/
def Axes.AreWords (e : Extents) : Prop :=
  e.x < 2 ^ 64 ∧ e.y < 2 ^ 64 ∧ e.z < 2 ^ 64

/-- Extents that a header may declare are none of them zero, and have not too many elements. -/
def declaredExtents (e : Extents) : Except Fault Extents :=
  match e.validate with
  | .error _ => .error (.badHeader (.dimensions e))
  | .ok _ =>
    if maxElements < e.volume then .error (.badHeader (.tooManyValues e maxElements)) else .ok e

theorem declaredExtents_of_validate {e : Extents} (hd : e.validate = .ok ())
    (hv : e.volume ≤ maxElements) : declaredExtents e = .ok e := by
  unfold declaredExtents
  rw [hd]
  exact if_neg (Nat.not_lt.mpr hv)

theorem declaredExtents_of_lt {e : Extents} (hv : maxElements < e.volume) :
    ∃ fault, declaredExtents e = .error fault := by
  unfold declaredExtents
  split
  next => exact ⟨_, rfl⟩
  next => exact ⟨_, if_pos hv⟩

theorem declaredExtents_eq_ok {e e' : Extents} (h : declaredExtents e = .ok e') :
    e.validate = .ok () ∧ e' = e := by
  unfold declaredExtents at h
  cases hd : e.validate with
  | error fault =>
    rw [hd] at h
    cases h
  | ok u =>
    rw [hd] at h
    dsimp only at h
    split at h
    next => cases h
    next => exact ⟨rfl, (Except.ok.inj h).symm⟩

/-- Extents without a zero may be declared exactly if they have not too many elements. -/
theorem declaredExtents_succeeds_iff {e : Extents} (hf : e.isFlat = false) :
    (∃ e', declaredExtents e = .ok e') ↔ e.volume ≤ maxElements := by
  constructor
  · intro h
    obtain ⟨e', h⟩ := h
    apply Nat.le_of_not_lt
    intro hlt
    obtain ⟨fault, hfault⟩ := declaredExtents_of_lt hlt
    rw [hfault] at h
    cases h
  · intro hv
    have hmax : maxElements < 1 <<< 64 := by decide
    have hd : e.validate = .ok () := by
      unfold Axes.validate
      rw [hf, if_neg (not_or.mpr ⟨Bool.false_ne_true, by omega⟩)]
    exact ⟨e, declaredExtents_of_validate hd hv⟩

theorem bytesOfExtents_append (e : Extents) (rest : List UInt8) :
    bytesOfExtents e ++ rest =
      bytesOfNat 8 e.x ++ (bytesOfNat 8 e.y ++ (bytesOfNat 8 e.z ++ rest)) := by
  simp [bytesOfExtents, Axes.toList]

theorem extents_from {e : Extents} (h : e.AreWords) (rest : List UInt8) :
    Reader.extents.from (bytesOfExtents e ++ rest) = (declaredExtents e, rest) := by
  obtain ⟨hx, hy, hz⟩ := h
  rw [bytesOfExtents_append, Reader.extents, (Reader.gets_nat 8 hx).bind_from,
    (Reader.gets_nat 8 hy).bind_from, (Reader.gets_nat 8 hz).bind_from]
  unfold declaredExtents Reader.from
  rcases hv : e.validate with fault | ok
  · simp only [hv, Action.run_bind, Action.run_throw]
  · simp only [hv, Action.run_bind, Action.run_pure, Action.run_ite, Action.run_throw]
    split <;> rfl

theorem gets_extents {e : Extents} (hw : e.AreWords) (hd : declaredExtents e = .ok e) :
    Reader.extents.Gets (bytesOfExtents e) e := fun rest => by
  rw [extents_from hw, hd]

namespace Preamble

/-- The fields of a header one after the other, as they are read, with nothing behind them. -/
theorem toBytes_eq (p : Preamble) :
    p.toBytes = magic ++ ([version] ++ ([p.flags] ++ (bytesOfExtents p.dims ++ []))) := by
  simp [toBytes]

theorem gets {p : Preamble} (hw : p.dims.AreWords) (hd : declaredExtents p.dims = .ok p.dims) :
    Preamble.read.Gets p.toBytes p := by
  rw [toBytes_eq]
  refine (Reader.gets_bytes magic rfl).bind (Reader.gets_of_check (by simp) ?_)
  refine (Reader.gets_uint8 version).bind (Reader.gets_of_check (by simp) ?_)
  exact (Reader.gets_uint8 p.flags).bind ((gets_extents hw hd).bind (Reader.gets_pure _))

end Preamble

namespace Scale

theorem toBytes_eq (s : Scale) :
    s.toBytes = bytesOfUInt64 s.meanBits ++ (bytesOfUInt64 s.stepBits ++ []) := by
  simp [toBytes]

theorem gets {s : Scale} (h : s.isUsable = true) : Scale.read.Gets s.toBytes s := by
  rw [toBytes_eq]
  refine (Reader.gets_uint64 s.meanBits).bind ((Reader.gets_uint64 s.stepBits).bind ?_)
  exact Reader.gets_of_check (by simp [h]) (Reader.gets_pure _)

theorem read_of_not_usable {s : Scale} (h : s.isUsable = false) (rest : List UInt8) :
    Scale.read.from (s.toBytes ++ rest) =
      (.error (.badHeader (.volumeScale s.mean s.step)), rest) := by
  rw [toBytes, List.append_assoc, read, (Reader.gets_uint64 s.meanBits).bind_from,
    (Reader.gets_uint64 s.stepBits).bind_from]
  simp only [Reader.from, Action.run_bind, h, Bool.not_false, if_true, Action.run_throw]

end Scale

namespace TileTable

theorem toBytes_eq (t : TileTable) :
    t.toBytes = bytesOfExtents t.extents ++ (bytesOfUInt64 t.count ++ []) := by
  simp [toBytes]

theorem gets {t : TileTable} (hw : t.extents.AreWords)
    (hd : declaredExtents t.extents = .ok t.extents) : TileTable.read.Gets t.toBytes t := by
  rw [toBytes_eq]
  exact (gets_extents hw hd).bind ((Reader.gets_uint64 t.count).bind (Reader.gets_pure _))

theorem read_of_error {t : TileTable} {fault : Fault} (hw : t.extents.AreWords)
    (hd : declaredExtents t.extents = .error fault) (rest : List UInt8) :
    (TileTable.read.from (t.toBytes ++ rest)).1 = .error fault := by
  rw [toBytes, List.append_assoc, read, Reader.from_bind, extents_from hw, hd]

end TileTable

namespace CodeHeader

theorem toBytes_eq (h : CodeHeader) :
    h.toBytes = bytesOfInt32 h.topPlane ++ (bytesOfUInt64 h.bitCount ++ []) := by
  simp [toBytes]

theorem gets (h : CodeHeader) : CodeHeader.read.Gets h.toBytes h := by
  rw [toBytes_eq]
  exact (Reader.gets_int32 h.topPlane).bind ((Reader.gets_uint64 h.bitCount).bind
    (Reader.gets_pure _))

theorem toOutline_ofOutline {outline : Outline} (h : outline.bitCount < 2 ^ 64) :
    (ofOutline outline).toOutline outline.dims = outline := by
  unfold toOutline ofOutline
  rw [UInt64.toNat_ofNat_of_lt' h]

end CodeHeader

theorem Width.ofTag_tag (w : Width) : Width.ofTag w.tag = .ok w := by
  cases w <;> rfl

namespace CorrectionHeader

/-- Between the tag and the tolerance the width is looked up. -/
theorem toBytes_eq (h : CorrectionHeader) :
    h.toBytes = [h.width.tag] ++ ([] ++ (bytesOfUInt64 h.toleranceBits ++
      (bytesOfUInt64 h.length ++ (h.code.toBytes ++ [])))) := by
  simp [toBytes]

theorem gets (h : CorrectionHeader) : CorrectionHeader.read.Gets h.toBytes h := by
  rw [toBytes_eq]
  refine (Reader.gets_uint8 h.width.tag).bind
    ((Reader.gets_of_eq_ok (Width.ofTag_tag h.width)).bind ?_)
  exact (Reader.gets_uint64 h.toleranceBits).bind ((Reader.gets_uint64 h.length).bind
    (h.code.gets.bind (Reader.gets_pure _)))

end CorrectionHeader

end VolumeCodec
