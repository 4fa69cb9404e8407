import Mathlib.Algebra.Order.Ring.Int
import Mathlib.Data.List.GetD
import VolumeCodec.Proofs.TapeBits

namespace VolumeCodec

/-- Bit `i` of a byte sequence, the lowest bit of a byte first; behind the last byte it is clear. -/
def bitOfBytes (bytes : List UInt8) (i : Nat) : Bool :=
  (bytes.getD (i / 8) 0).toNat.testBit (i % 8)

theorem testBit_natOfBytes (bytes : List UInt8) (i : Nat) :
    (natOfBytes bytes).testBit i = bitOfBytes bytes i := by
  induction bytes generalizing i with
  | nil => simp [natOfBytes, bitOfBytes]
  | cons b rest ih =>
    have hb : b.toNat < 2 ^ 8 := b.toNat_lt
    have hv : natOfBytes (b :: rest) = 2 ^ 8 * natOfBytes rest + b.toNat := by
      rw [natOfBytes]
      omega
    rw [hv, Nat.testBit_two_pow_mul_add _ hb]
    split
    next h =>
      have hq : i / 8 = 0 := by omega
      have hr : i % 8 = i := by omega
      simp [bitOfBytes, hq, hr]
    next h =>
      have hq : i / 8 = (i - 8) / 8 + 1 := by omega
      have hr : i % 8 = (i - 8) % 8 := by omega
      rw [ih, bitOfBytes, bitOfBytes, hq, hr, List.getD_cons_succ]

theorem bitOfBytes_bytesOfNat (n value i : Nat) :
    bitOfBytes (bytesOfNat n value) i = (decide (i < 8 * n) && value.testBit i) := by
  rw [← testBit_natOfBytes, natOfBytes_bytesOfNat, Nat.one_shiftLeft, Nat.testBit_mod_two_pow]

theorem bitOfBytes_take (bytes : List UInt8) (n i : Nat) :
    bitOfBytes (bytes.take n) i = (decide (i < 8 * n) && bitOfBytes bytes i) := by
  unfold bitOfBytes
  by_cases h : i < 8 * n
  · have hq : i / 8 < n := by omega
    simp [List.getD, h, hq]
  · have hq : ¬i / 8 < n := by omega
    simp [List.getD, h, hq]

theorem bitOfBytes_drop (bytes : List UInt8) (n i : Nat) :
    bitOfBytes (bytes.drop n) i = bitOfBytes bytes (8 * n + i) := by
  have hq : (8 * n + i) / 8 = n + i / 8 := by omega
  have hr : (8 * n + i) % 8 = i % 8 := by omega
  simp [bitOfBytes, List.getD, List.getElem?_drop, hq, hr]

theorem bitOfBytes_append (a b : List UInt8) (i : Nat) :
    bitOfBytes (a ++ b) i =
      if i < 8 * a.length then bitOfBytes a i else bitOfBytes b (i - 8 * a.length) := by
  unfold bitOfBytes
  split
  next h =>
    rw [List.getD_append _ _ _ _ (by omega)]
  next h =>
    have hq : (i - 8 * a.length) / 8 = i / 8 - a.length := by omega
    have hr : (i - 8 * a.length) % 8 = i % 8 := by omega
    rw [List.getD_append_right _ _ _ _ (by omega), hq, hr]

namespace Word

theorem bit_ofBytes (bytes : List UInt8) (i : Nat) :
    (ofBytes bytes).bit i = (decide (i < 64) && bitOfBytes bytes i) := by
  rw [bit_eq_getLsbD, ofBytes, UInt64.toBitVec_ofNat', BitVec.getLsbD_ofNat, testBit_natOfBytes]

theorem bitOfBytes_toBytes (w : Word) (i : Nat) : bitOfBytes w.toBytes i = w.bit i := by
  rw [toBytes, bitOfBytes_bytesOfNat, bit_eq_getLsbD]
  by_cases h : i < 8 * 8
  · simp [h, BitVec.getLsbD]
  · rw [BitVec.getLsbD_of_ge _ _ (by omega)]
    simp [h]

@[simp] theorem length_toBytes (w : Word) : w.toBytes.length = 8 :=
  length_bytesOfNat 8 _

end Word

namespace Tape

theorem length_flatMap_words (w : Nat → Word) (n : Nat) :
    ((List.range n).flatMap fun k => (w k).toBytes).length = 8 * n := by
  induction n with
  | zero => rfl
  | succ n ih =>
    rw [List.range_succ, List.flatMap_append, List.length_append, ih]
    simp
    omega

theorem bitOfBytes_flatMap_words (w : Nat → Word) (n i : Nat) :
    bitOfBytes ((List.range n).flatMap fun k => (w k).toBytes) i =
      (decide (i < 64 * n) && (w (i / 64)).bit (i % 64)) := by
  induction n with
  | zero => simp [bitOfBytes]
  | succ n ih =>
    have hl := length_flatMap_words w n
    rw [List.range_succ, List.flatMap_append, bitOfBytes_append, hl, ih]
    simp only [List.flatMap_cons, List.flatMap_nil, List.append_nil]
    split
    next h =>
      have h1 : i < 64 * n := by omega
      have h2 : i < 64 * (n + 1) := by omega
      simp [h1, h2]
    next h =>
      rw [Word.bitOfBytes_toBytes]
      by_cases h2 : i < 64 * (n + 1)
      · have hq : i / 64 = n := by omega
        have hr : i % 64 = i - 8 * (8 * n) := by omega
        simp [h2, hq, hr]
      · rw [Word.bit_of_le _ (by omega)]
        simp [h2]

@[simp] theorem length_toBytes (t : Tape) (n : Nat) : (t.toBytes n).length = bytesFor n := by
  have hl := length_flatMap_words (fun k => (t.word k).low (n - 64 * k)) (wordsFor n)
  rw [toBytes, List.length_take, hl]
  unfold bytesFor wordsFor
  omega

theorem bitOfBytes_toBytes (t : Tape) (n i : Nat) :
    bitOfBytes (t.toBytes n) i = (decide (i < n) && t.bit i) := by
  have hf := bitOfBytes_flatMap_words (fun k => (t.word k).low (n - 64 * k)) (wordsFor n) i
  rw [toBytes, bitOfBytes_take, hf, Word.bit_low, bit]
  by_cases h : i < n
  · have h1 : i < 8 * bytesFor n := by unfold bytesFor; omega
    have h2 : i < 64 * wordsFor n := by unfold wordsFor; omega
    have h3 : i % 64 < n - 64 * (i / 64) := by omega
    simp [h, h1, h2, h3]
  · have h3 : ¬i % 64 < n - 64 * (i / 64) := by omega
    simp [h, h3]

theorem length_wordsOfBytes (n : Nat) (bytes : List UInt8) :
    (wordsOfBytes n bytes).length = n := by
  induction n generalizing bytes with
  | zero => rfl
  | succ n ih => simp [wordsOfBytes, ih]

theorem bit_wordsOfBytes (n : Nat) (bytes : List UInt8) (k i : Nat) (hk : k < n) (hi : i < 64) :
    ((wordsOfBytes n bytes).getD k 0).bit i = bitOfBytes bytes (64 * k + i) := by
  induction n generalizing bytes k with
  | zero => omega
  | succ n ih =>
    cases k with
    | zero =>
      rw [wordsOfBytes, List.getD_cons_zero, Word.bit_ofBytes, bitOfBytes_take]
      simp [hi]
    | succ k =>
      rw [wordsOfBytes, List.getD_cons_succ, ih _ k (by omega), bitOfBytes_drop]
      congr 1
      omega

/-- Pending bits have storage, as they have whenever they were written. -/
def IsBacked (t : Tape) : Prop :=
  t.words.size ≤ t.writePosition / 64 → t.pending = 0

theorem storedWord_commit {t : Tape} (h : t.IsBacked) (k : Nat) :
    t.commit.storedWord k = t.word k := by
  by_cases hp : t.writePosition % 64 = 0
  · simp [commit, word, hp]
  · rw [commit, if_neg hp]
    by_cases hs : t.writePosition / 64 < t.words.size
    · rw [storedWord_store t _ hs]
      split
      next hk => rw [hk]
      next hk => simp [word, hk]
    · have hz := h (Nat.not_lt.mp hs)
      have hn : t.storedWord (t.writePosition / 64) = 0 := by simp [storedWord, Array.getD, hs]
      simp only [store, storedWord, word, Array.setIfInBounds, hs, dif_neg, not_false_eq_true]
      split
      next hk =>
        rw [hk.1, hz]
        simp only [storedWord] at hn
        simp [hn]
      next => rfl

theorem bit_seekWrite {t : Tape} (h : t.IsBacked) (position i : Nat) :
    (t.seekWrite position).bit i = t.bit i := by
  rw [bit_eq]
  have hs : (t.seekWrite position).storedWord (i / 64) = t.word (i / 64) :=
    storedWord_commit h (i / 64)
  rw [hs]
  split
  next hk =>
    have hp : (t.seekWrite position).pending =
        (t.word (position / 64)).low (position % 64) := by
      simp only [seekWrite, storedWord_commit h]
    rw [hp, Word.bit_low]
    simp only [seekWrite] at hk
    simp [hk.2, bit, hk.1]
  next => rfl

@[simp] theorem writePosition_ofBits (bytes : List UInt8) (n : Nat) :
    (ofBits bytes n).writePosition = n := rfl

theorem bit_ofBits (bytes : List UInt8) (n i : Nat) :
    (ofBits bytes n).bit i = (decide (i < n) && bitOfBytes bytes i) := by
  rw [ofBits, bit_seekWrite (fun _ => rfl), bit_eq]
  have hw := length_wordsOfBytes (wordsFor n) (bytes.take (bytesFor n))
  simp only [Nat.zero_mod, Nat.not_lt_zero, and_false, if_false, storedWord, Array.getD,
    Array.size_modify, List.size_toArray, hw]
  split
  next hk =>
    have hlt : i % 64 < 64 := Nat.mod_lt _ (by decide)
    have hb := bit_wordsOfBytes (wordsFor n) (bytes.take (bytesFor n)) (i / 64) (i % 64) hk hlt
    have hi : 64 * (i / 64) + i % 64 = i := Nat.div_add_mod i 64
    rw [hi, bitOfBytes_take] at hb
    rw [List.getD_eq_getElem _ _ (by omega)] at hb
    simp only [Array.getInternal_eq_getElem, Array.getElem_modify, List.getElem_toArray]
    split
    next he =>
      rw [Word.bit_low, hb]
      by_cases h : i < n
      · have h1 : i < 8 * bytesFor n := by unfold bytesFor; omega
        have h2 : i % 64 < n % 64 := by omega
        simp [h, h1, h2]
      · have h2 : ¬i % 64 < n % 64 := by omega
        simp [h, h2]
    next he =>
      have h : i < n := by unfold wordsFor at hk; omega
      have h1 : i < 8 * bytesFor n := by unfold bytesFor; omega
      rw [hb]
      simp [h, h1]
  next hk =>
    have h : ¬i < n := by unfold wordsFor at hk; omega
    simp [h]

theorem load_on {bytes : List UInt8} {n : Nat} (h : bytesFor n ≤ bytes.length) (t : Tape) :
    (load .unbounded bytes n).on t = (.ok (), ofBits bytes n) := by
  unfold load Update.on
  simp only [Nat.not_lt.mpr h, if_false]
  simp only [Action.run_bind, Action.run_get, Action.run_modify, Action.run_ite]
  split <;> rfl

theorem bit_ofBits_toBytes (t : Tape) {n i : Nat} (h : i < n) :
    (ofBits (t.toBytes n) n).bit i = t.bit i := by
  rw [bit_ofBits, bitOfBytes_toBytes]
  simp [h]

end Tape

end VolumeCodec
