import Mathlib.Order.Bounds.Basic
import VolumeCodec.Proofs.BitSequences

namespace VolumeCodec

/-- The first `n` bits of some bytes, in as few bytes as they take. What the last of these has
besides is cleared. -/
def firstBits (n : Nat) (bytes : List UInt8) : List UInt8 :=
  bytes.take (n / 8) ++
    if n % 8 = 0 then [] else [UInt8.ofNat ((bytes.getD (n / 8) 0).toNat % 2 ^ (n % 8))]

section Bytes

variable {a b bytes : List UInt8} {n : Nat}

theorem bytesFor_le_iff {k : Nat} : bytesFor n ≤ k ↔ n ≤ 8 * k := by
  unfold bytesFor
  omega

theorem bitOfBytes_of_le {i : Nat} (h : 8 * bytes.length ≤ i) : bitOfBytes bytes i = false := by
  have hq : bytes.length ≤ i / 8 := by omega
  rw [bitOfBytes, List.getD_eq_default _ _ hq]
  exact Nat.zero_testBit _

/-- Bytes are determined by their bits. -/
theorem bytes_ext_bit (hlength : a.length = b.length)
    (hbit : ∀ i, bitOfBytes a i = bitOfBytes b i) : a = b := by
  refine List.ext_getElem hlength fun k ha hb => UInt8.toNat_inj.mp (Nat.eq_of_testBit_eq fun j => ?_)
  by_cases hj : j < 8
  · have h := hbit (8 * k + j)
    have hq : (8 * k + j) / 8 = k := by omega
    have hr : (8 * k + j) % 8 = j := by omega
    rwa [bitOfBytes, bitOfBytes, hq, hr, List.getD_eq_getElem _ _ ha,
      List.getD_eq_getElem _ _ hb] at h
  · have hclear : ∀ x : UInt8, x.toNat.testBit j = false := fun x =>
      Nat.testBit_lt_two_pow (Nat.lt_of_lt_of_le x.toNat_lt
        (Nat.pow_le_pow_right (by decide) (Nat.not_lt.mp hj)))
    rw [hclear, hclear]

theorem length_firstBits (h : n ≤ 8 * bytes.length) : (firstBits n bytes).length = bytesFor n := by
  have hle : n / 8 ≤ bytes.length := by omega
  unfold firstBits bytesFor
  rw [List.length_append, List.length_take, Nat.min_eq_left hle]
  split
  next => rw [List.length_nil]; omega
  next => rw [List.length_singleton]; omega

theorem bitOfBytes_firstBits (h : n ≤ 8 * bytes.length) (i : Nat) :
    bitOfBytes (firstBits n bytes) i = (decide (i < n) && bitOfBytes bytes i) := by
  have hle : n / 8 ≤ bytes.length := by omega
  rw [firstBits, bitOfBytes_append, List.length_take, Nat.min_eq_left hle, bitOfBytes_take]
  by_cases hwhole : i < 8 * (n / 8)
  · have hi : i < n := by omega
    simp [hwhole, hi]
  · rw [if_neg hwhole]
    by_cases hr : n % 8 = 0
    · have hi : ¬i < n := by omega
      simp [hr, hi, bitOfBytes]
    · rw [if_neg hr]
      by_cases hlast : i < 8 * (n / 8) + 8
      · have hq : i / 8 = n / 8 := by omega
        have hz : (i - 8 * (n / 8)) / 8 = 0 := by omega
        have hm : (i - 8 * (n / 8)) % 8 = i % 8 := by omega
        have hin : i < n ↔ i % 8 < n % 8 := by omega
        have hbyte : (UInt8.ofNat ((bytes.getD (n / 8) 0).toNat % 2 ^ (n % 8))).toNat =
            (bytes.getD (n / 8) 0).toNat % 2 ^ (n % 8) := by
          rw [UInt8.toNat_ofNat']
          exact Nat.mod_eq_of_lt (Nat.lt_of_le_of_lt (Nat.mod_le _ _) (UInt8.toNat_lt _))
        rw [bitOfBytes, bitOfBytes, hz, hm, hq, List.getD_cons_zero, hbyte, Nat.testBit_mod_two_pow,
          decide_eq_decide.mpr hin]
      · have hi : ¬i < n := by omega
        rw [bitOfBytes_of_le (by rw [List.length_singleton]; omega)]
        simp [hi]

end Bytes

namespace Tape

/-- What is to be expected of a tape onto which the first `n` bits of some bytes were loaded. -/
structure Holds (t : Tape) (bytes : List UInt8) (n : Nat) : Prop where
  writePosition : t.writePosition = n
  readPosition : t.readPosition = 0
  bit : ∀ i, t.bit i = (decide (i < n) && bitOfBytes bytes i)
  capacity : IsLeast {c | 64 ∣ c ∧ n ≤ c} t.capacity
  toBytes : t.toBytes n = firstBits n bytes

theorem toBytes_ofBits {bytes : List UInt8} {n : Nat} (h : n ≤ 8 * bytes.length) :
    (ofBits bytes n).toBytes n = firstBits n bytes := by
  refine bytes_ext_bit ?_ fun i => ?_
  · rw [length_toBytes, length_firstBits h]
  · rw [bitOfBytes_toBytes, bit_ofBits, bitOfBytes_firstBits h, ← Bool.and_assoc, Bool.and_self]

theorem firstBits_toBytes (t : Tape) (n : Nat) : firstBits n (t.toBytes n) = t.toBytes n := by
  have hroom : n ≤ 8 * (t.toBytes n).length := by
    rw [length_toBytes]
    exact bytesFor_le_iff.mp (Nat.le_refl _)
  refine bytes_ext_bit ?_ fun i => ?_
  · rw [length_firstBits hroom, length_toBytes]
  · rw [bitOfBytes_firstBits hroom, bitOfBytes_toBytes, ← Bool.and_assoc, Bool.and_self]

theorem isLeast_capacity_ofBits (bytes : List UInt8) (n : Nat) :
    IsLeast {c | 64 ∣ c ∧ n ≤ c} (ofBits bytes n).capacity := by
  have hsize : (ofBits bytes n).words.size = wordsFor n :=
    congrArg BitSequence.room (view_ofBits bytes n)
  unfold capacity
  rw [hsize]
  unfold wordsFor
  refine ⟨⟨Nat.dvd_mul_right 64 _, by omega⟩, fun c hc => ?_⟩
  obtain ⟨⟨k, rfl⟩, hle⟩ := hc
  omega

theorem holds_ofBits {bytes : List UInt8} {n : Nat} (h : n ≤ 8 * bytes.length) :
    (ofBits bytes n).Holds bytes n where
  writePosition := rfl
  readPosition := rfl
  bit := bit_ofBits bytes n
  capacity := isLeast_capacity_ofBits bytes n
  toBytes := toBytes_ofBits h

/-- The first bits of a tape, those that are only pending among them, are packed into as few bytes
as they take. Loading bytes makes every tape the same one, which has the bits of the bytes and
nothing of its own. One way and back again are the bytes that were packed before, and the other way
the loaded ones without the unused bits of the last. -/
theorem bits_packed (t : Tape) (n : Nat) :
    IsLeast {k | n ≤ 8 * k} (t.toBytes n).length ∧
      (∀ i, bitOfBytes (t.toBytes n) i = (decide (i < n) && t.bit i)) ∧
      (∀ bytes : List UInt8, n ≤ 8 * bytes.length → (ofBits bytes n).Holds bytes n ∧
        ∀ target, (load .unbounded bytes n).on target = (.ok (), ofBits bytes n)) ∧
      ∀ target, ∃ loaded, (load .unbounded (t.toBytes n) n).on target = (.ok (), loaded) ∧
        loaded.toBytes n = t.toBytes n := by
  have hroom : n ≤ 8 * (t.toBytes n).length := by
    rw [length_toBytes]
    exact bytesFor_le_iff.mp (Nat.le_refl _)
  refine ⟨⟨hroom, fun k hk => ?_⟩, bitOfBytes_toBytes t n, fun bytes h => ⟨holds_ofBits h, ?_⟩, ?_⟩
  · rw [length_toBytes]
    exact bytesFor_le_iff.mpr hk
  · exact load_on (bytesFor_le_iff.mpr h)
  · intro target
    refine ⟨_, load_on (bytesFor_le_iff.mpr hroom) target, ?_⟩
    rw [toBytes_ofBits hroom, firstBits_toBytes]

/-- Thirteen bits, of which the last ones are pending, and three bytes of ones for as many. -/
theorem bits_packed_thirteen :
    let t := (empty.widen 1).pushBits 0x12A5 13
    t.toBytes 13 = [0xA5, 0x12] ∧ 13 ≤ 8 * [0xFF, 0xFF, (0xFF : UInt8)].length ∧
      ∃ loaded, (load .unbounded [0xFF, 0xFF, 0xFF] 13).on t = (.ok (), loaded) ∧
        loaded.toBytes 13 = [0xFF, 0x1F] ∧ loaded.capacity = 64 := by
  intro t
  obtain ⟨-, -, hload, -⟩ := bits_packed t 13
  obtain ⟨hholds, hrun⟩ := hload [0xFF, 0xFF, 0xFF] (by decide)
  exact ⟨by decide, by decide, _, hrun t, hholds.toBytes, by decide⟩

end Tape

end VolumeCodec
