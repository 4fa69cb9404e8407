namespace VolumeCodec

/-- The lowest `8 * n` bits of a number as `n` bytes, the lowest byte first. -/
def bytesOfNat : Nat → Nat → List UInt8
  | 0, _ => []
  | n + 1, value => UInt8.ofNat value :: bytesOfNat n (value / 256)

/-- The number that bytes stand for, the lowest byte first. -/
def natOfBytes : List UInt8 → Nat
  | [] => 0
  | b :: rest => b.toNat + 256 * natOfBytes rest

@[simp] theorem length_bytesOfNat (n value : Nat) : (bytesOfNat n value).length = n := by
  induction n generalizing value with
  | zero => rfl
  | succ n ih => simp [bytesOfNat, ih]

theorem natOfBytes_bytesOfNat (n value : Nat) :
    natOfBytes (bytesOfNat n value) = value % (1 <<< (8 * n)) := by
  induction n generalizing value with
  | zero => simp [bytesOfNat, natOfBytes, Nat.mod_one]
  | succ n ih =>
    have hstep : 1 <<< (8 * (n + 1)) = 256 * 1 <<< (8 * n) := by
      simp only [Nat.shiftLeft_eq, Nat.mul_add, Nat.pow_add]
      omega
    have hlow : (UInt8.ofNat value).toNat = value % 256 := UInt8.toNat_ofNat' ..
    rw [bytesOfNat, natOfBytes, ih, hlow, hstep, Nat.mod_mul]

theorem bytesOfNat_natOfBytes (bytes : List UInt8) :
    bytesOfNat bytes.length (natOfBytes bytes) = bytes := by
  induction bytes with
  | nil => rfl
  | cons b rest ih =>
    have hb := b.toNat_lt
    have hrest : (b.toNat + 256 * natOfBytes rest) / 256 = natOfBytes rest := by omega
    have hlow : UInt8.ofNat (b.toNat + 256 * natOfBytes rest) = b := by
      apply UInt8.toNat_inj.mp
      rw [UInt8.toNat_ofNat']
      omega
    rw [List.length_cons, natOfBytes, bytesOfNat, hrest, ih, hlow]

end VolumeCodec
