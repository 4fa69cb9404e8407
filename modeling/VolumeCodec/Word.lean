import VolumeCodec.LittleEndian

namespace VolumeCodec

/-- Sixty-four bits; bit `i` has the weight `2 ^ i`. -/
abbrev Word := UInt64

namespace Word

/-- Shifts toward higher weights; from 64 places on nothing is left. -/
def shiftUp (w : Word) (n : Nat) : Word :=
  if 64 ≤ n then 0 else w <<< UInt64.ofNat n

def shiftDown (w : Word) (n : Nat) : Word :=
  if 64 ≤ n then 0 else w >>> UInt64.ofNat n

def bit (w : Word) (i : Nat) : Bool :=
  shiftDown w i &&& 1 == 1

/-- The word with exactly the lowest `n` bits set; all of them from 64 on. -/
def ones (n : Nat) : Word :=
  if 64 ≤ n then ~~~0 else shiftUp 1 n - 1

def low (w : Word) (n : Nat) : Word :=
  w &&& ones n

def setBit (w : Word) (i : Nat) (b : Bool) : Word :=
  if b then w ||| shiftUp 1 i else w &&& ~~~shiftUp 1 i

def members (w : Word) : List Nat :=
  if w = 0 then [] else (List.range 64).filter w.bit

def toBytes (w : Word) : List UInt8 :=
  bytesOfNat 8 w.toNat

def ofBytes (bytes : List UInt8) : Word :=
  UInt64.ofNat (natOfBytes bytes)

theorem shiftUp_toBitVec (w : Word) (n : Nat) : (shiftUp w n).toBitVec = w.toBitVec <<< n := by
  unfold shiftUp
  split
  next h => rw [BitVec.shiftLeft_eq_zero h]; rfl
  next h =>
    rw [UInt64.toBitVec_shiftLeft, BitVec.shiftLeft_eq']
    congr 1
    simp
    omega

theorem shiftDown_toBitVec (w : Word) (n : Nat) :
    (shiftDown w n).toBitVec = w.toBitVec >>> n := by
  unfold shiftDown
  split
  next h => rw [BitVec.ushiftRight_eq_zero h]; rfl
  next h =>
    rw [UInt64.toBitVec_shiftRight, BitVec.ushiftRight_eq']
    congr 1
    simp
    omega

theorem bit_eq_getLsbD (w : Word) (i : Nat) : w.bit i = w.toBitVec.getLsbD i := by
  unfold bit
  rw [Bool.eq_iff_iff, beq_iff_eq, ← UInt64.toBitVec_inj, UInt64.toBitVec_and,
    shiftDown_toBitVec]
  constructor
  · intro h
    simpa using congrArg (fun v => v.getLsbD 0) h
  · intro h
    apply BitVec.eq_of_getLsbD_eq
    intro j _
    by_cases hj : j = 0
    · subst hj; simpa using h
    · simp [hj, BitVec.getLsbD_one]

theorem ext_bit {v w : Word} (h : ∀ i < 64, v.bit i = w.bit i) : v = w := by
  apply UInt64.toBitVec_inj.mp
  apply BitVec.eq_of_getLsbD_eq
  intro i hi
  simpa [bit_eq_getLsbD] using h i hi

@[simp] theorem bit_of_le (w : Word) {i : Nat} (h : 64 ≤ i) : w.bit i = false := by
  rw [bit_eq_getLsbD]; exact BitVec.getLsbD_of_ge _ _ h

@[simp] theorem bit_zero (i : Nat) : (0 : Word).bit i = false := by
  simp [bit_eq_getLsbD]

@[simp] theorem bit_and (v w : Word) (i : Nat) : (v &&& w).bit i = (v.bit i && w.bit i) := by
  simp [bit_eq_getLsbD]

@[simp] theorem bit_or (v w : Word) (i : Nat) : (v ||| w).bit i = (v.bit i || w.bit i) := by
  simp [bit_eq_getLsbD]

@[simp] theorem bit_not (w : Word) (i : Nat) :
    (~~~w).bit i = (decide (i < 64) && !w.bit i) := by
  simp [bit_eq_getLsbD]

@[simp] theorem bit_shiftUp (w : Word) (n i : Nat) :
    (shiftUp w n).bit i = (decide (i < 64) && (decide (n ≤ i) && w.bit (i - n))) := by
  simp only [bit_eq_getLsbD, shiftUp_toBitVec, BitVec.getLsbD_shiftLeft]
  by_cases h : i < n
  · simp [h, Nat.not_le.mpr h]
  · simp [h, Nat.not_lt.mp h]

@[simp] theorem bit_shiftDown (w : Word) (n i : Nat) : (shiftDown w n).bit i = w.bit (n + i) := by
  simp [bit_eq_getLsbD, shiftDown_toBitVec]

@[simp] theorem bit_one (i : Nat) : (1 : Word).bit i = decide (i = 0) := by
  simp [bit_eq_getLsbD, BitVec.getLsbD_one]

@[simp] theorem bit_ones (n i : Nat) :
    (ones n).bit i = (decide (i < 64) && decide (i < n)) := by
  unfold ones
  split
  next h =>
    rw [bit_not, bit_zero]
    by_cases hi : i < 64
    · have : i < n := by omega
      simp [this]
    · simp [hi]
  next h =>
    have hm : (shiftUp 1 n - 1).toNat = 2 ^ n - 1 := by
      have h1 : (shiftUp 1 n).toNat = 2 ^ n := by
        rw [← UInt64.toNat_toBitVec, shiftUp_toBitVec]
        simp only [BitVec.toNat_shiftLeft, Nat.shiftLeft_eq]
        have : 2 ^ n < 2 ^ 64 := Nat.pow_lt_pow_right (by decide) (by omega)
        simp only [UInt64.toNat_toBitVec]
        rw [show (1 : UInt64).toNat = 1 from rfl, Nat.one_mul, Nat.mod_eq_of_lt this]
      rw [UInt64.toNat_sub_of_le, h1]
      · rfl
      · rw [UInt64.le_iff_toNat_le, h1]
        exact Nat.one_le_two_pow
    rw [bit_eq_getLsbD, BitVec.getLsbD, UInt64.toNat_toBitVec, hm, Nat.testBit_two_pow_sub_one]
    by_cases hi : i < n
    · have : i < 64 := by omega
      simp [hi, this]
    · simp [hi]

@[simp] theorem bit_low (w : Word) (n i : Nat) :
    (w.low n).bit i = (decide (i < n) && w.bit i) := by
  by_cases h : i < 64
  · simp [low, h, Bool.and_comm]
  · simp [Nat.not_lt.mp h]

@[simp] theorem bit_setBit (w : Word) (i : Nat) (b : Bool) (j : Nat) :
    (w.setBit i b).bit j = if j = i ∧ j < 64 then b else w.bit j := by
  by_cases hj : j < 64
  · by_cases h : j = i
    · subst h; cases b <;> simp [setBit, hj]
    · have : ¬(i ≤ j ∧ j - i = 0) := by omega
      cases b <;> simp [setBit, hj, h] <;> grind
  · simp [Nat.not_lt.mp hj, hj]

@[simp] theorem low_low (w : Word) (m n : Nat) : (w.low m).low n = w.low (min m n) := by
  apply ext_bit
  intro i _
  simp only [bit_low, Nat.lt_min, Bool.decide_and, ← Bool.and_assoc]
  rw [Bool.and_comm (decide (i < n))]

theorem low_eq_self_iff (w : Word) (n : Nat) : w.low n = w ↔ ∀ i, n ≤ i → w.bit i = false := by
  constructor
  · intro h i hi
    rw [← h, bit_low]
    simp [Nat.not_lt.mpr hi]
  · intro h
    apply ext_bit
    intro i _
    by_cases hi : i < n
    · simp [hi]
    · simp [hi, h i (Nat.not_lt.mp hi)]

theorem mem_members (w : Word) (i : Nat) : i ∈ w.members ↔ w.bit i = true := by
  unfold members
  split
  next h => simp [h]
  next =>
    rw [List.mem_filter, List.mem_range]
    constructor
    · exact fun h => h.2
    · intro h
      refine ⟨?_, h⟩
      by_cases hi : i < 64
      · exact hi
      · rw [bit_of_le w (Nat.not_lt.mp hi)] at h
        cases h

end Word

def wordsFor (n : Nat) : Nat :=
  (n + 63) / 64

def bytesFor (n : Nat) : Nat :=
  (n + 7) / 8

def anyFrom (p : Nat → Bool) (start : Nat) : Nat → Bool
  | 0 => false
  | n + 1 => p start || anyFrom p (start + 1) n

theorem anyFrom_eq (p : Nat → Bool) (start n : Nat) :
    anyFrom p start n = (List.range' start n).any p := by
  induction n generalizing start with
  | zero => rfl
  | succ n ih => rw [anyFrom, ih, List.range'_succ, List.any_cons]

/-- Is some bit set at a place from `start` up to but not including `stop`? The bits come in words,
and each word is tested at once under a mask that cuts it to the range. -/
def anyBitSet (word : Nat → Word) (start stop : Nat) : Bool :=
  if stop ≤ start then false
  else
    let first := start / 64
    let last := (stop - 1) / 64
    anyFrom (fun k =>
      let below := if k = first then start % 64 else 0
      let above := if k = last then stop - 64 * k else 64
      word k &&& (Word.ones above &&& ~~~Word.ones below) != 0)
      first (last - first + 1)

end VolumeCodec
