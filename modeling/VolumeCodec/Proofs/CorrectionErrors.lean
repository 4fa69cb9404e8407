import VolumeCodec.Proofs.CorrectionRoundTrip

namespace VolumeCodec

open Float.Model UnpackedFloat

namespace Real64

section Signs

variable {x : Float} {n : Nat}

theorem abs_value (x : Float) : |value x| = units x / 2 ^ 1074 := by
  have hnonneg : (0 : ℚ) ≤ units x / 2 ^ 1074 := by positivity
  unfold value
  cases isNegative x
  · rw [if_neg Bool.false_ne_true, one_mul, abs_of_nonneg hnonneg]
  · rw [if_pos rfl, neg_one_mul, abs_neg, abs_of_nonneg hnonneg]

/-- Of the opposite sign a double is the same number of units. -/
theorem neg_spec (h : Counts x n) :
    (-x).isFinite = true ∧ isNegative (-x) = true ∧ units (-x) = n := by
  obtain ⟨y, hfinite, hnegative, hunits⟩ := exists_units true h.isUnits
  have hneg : -x = y := by
    rw [← neg_abs_of_isNegative hfinite hnegative, (counts_abs hfinite).eq (hunits.symm ▸ h)]
  rw [hneg]
  exact ⟨hfinite, hnegative, hunits⟩

theorem lt_zero_iff (h : x.isFinite = true) : x < 0 ↔ isNegative x = true ∧ units x ≠ 0 := by
  have hzero : (0 : Float).toModel.unpack = .zero .positive := rfl
  have hlt : x < 0 ↔ UnpackedFloat.lt x.toModel.unpack (0 : Float).toModel.unpack = true :=
    decide_eq_true_iff
  rw [hlt, hzero, unpack_eq h, sign_eq]
  rcases Nat.eq_zero_or_pos (units x) with hz | hpos
  · rw [hz, unpacked_zero]
    cases isNegative x <;> simp [UnpackedFloat.lt, UnpackedFloat.compare]
  · rw [unpacked_of_pos _ hpos]
    have hne : units x ≠ 0 := by omega
    cases isNegative x <;> simp [UnpackedFloat.lt, UnpackedFloat.compare, hne]

/-- Two doubles that are not zero and of one sign are on the same side of zero. -/
theorem same_side {y : Float} (hx : x.isFinite = true) (hy : y.isFinite = true)
    (hx' : units x ≠ 0) (hy' : units y ≠ 0) (h : isNegative y = isNegative x) :
    0 < x ∧ 0 < y ∨ x < 0 ∧ y < 0 := by
  cases hneg : isNegative x with
  | false =>
    have hpos : ∀ z : Float, z.isFinite = true → isNegative z = false → units z ≠ 0 → 0 < z :=
      fun z hz hn hu => (counts_of_not_isNegative hz hn).zero_lt (Nat.pos_of_ne_zero hu)
    exact .inl ⟨hpos x hx hneg hx', hpos y hy (h.trans hneg) hy'⟩
  | true => exact .inr ⟨(lt_zero_iff hx).mpr ⟨hneg, hx'⟩, (lt_zero_iff hy).mpr ⟨h.trans hneg, hy'⟩⟩

/-- Doubles of one sign are as far apart as their magnitudes. -/
theorem abs_value_sub {y : Float} (h : isNegative y = isNegative x) :
    |value y - value x| = |(units y : ℚ) / 2 ^ 1074 - units x / 2 ^ 1074| := by
  unfold value
  rw [h, ← mul_sub, abs_mul]
  cases isNegative x <;> simp

end Signs

end Real64

open Real64

section Exact

/-- The integer nearest to a number, of two equally near the even one. -/
def nearestEven (q : ℚ) : ℤ :=
  if Int.fract q < 1 / 2 ∨ Int.fract q = 1 / 2 ∧ ⌊q⌋ % 2 = 0 then ⌊q⌋ else ⌊q⌋ + 1

theorem nearestEven_error (q : ℚ) : |(nearestEven q : ℚ) - q| ≤ 1 / 2 := by
  have hsplit := Int.floor_add_fract q
  have hnonneg := Int.fract_nonneg q
  have hlt := Int.fract_lt_one q
  unfold nearestEven
  rw [abs_le]
  split
  next h =>
    have hhalf : Int.fract q ≤ 1 / 2 := by
      rcases h with hbelow | ⟨htie, -⟩
      · exact hbelow.le
      · exact htie.le
    constructor <;> linarith
  next h =>
    have hhalf : 1 / 2 ≤ Int.fract q := by
      by_contra hbelow
      exact h (.inl (not_le.mp hbelow))
    push_cast
    constructor <;> linarith

/-- What a correction is decoded to in exact arithmetic: the nearest multiple of the tolerance, in
the direction of the error. -/
def exactCorrection (tolerance error : ℚ) : ℚ :=
  let size := tolerance * nearestEven (|error| / tolerance)
  if 0 ≤ error then size else -size

theorem exactCorrection_error {tolerance : ℚ} (ht : 0 < tolerance) (error : ℚ) :
    |exactCorrection tolerance error - error| ≤ tolerance / 2 := by
  have hscale : tolerance * nearestEven (|error| / tolerance) - |error| =
      tolerance * (nearestEven (|error| / tolerance) - |error| / tolerance) := by
    field_simp
  have hsize : |tolerance * (nearestEven (|error| / tolerance) - |error| / tolerance)| ≤
      tolerance / 2 := by
    rw [abs_mul, abs_of_pos ht]
    calc tolerance * |(nearestEven (|error| / tolerance) : ℚ) - |error| / tolerance|
      _ ≤ tolerance * (1 / 2) := mul_le_mul_of_nonneg_left (nearestEven_error _) ht.le
      _ = tolerance / 2 := by ring
  rw [← hscale] at hsize
  unfold exactCorrection
  dsimp only
  split
  next h =>
    rwa [abs_of_nonneg h] at hsize ⊢
  next h =>
    rw [abs_of_neg (not_le.mp h)] at hsize ⊢
    rwa [← neg_add', ← sub_neg_eq_add, abs_neg]

end Exact

section Rounded

/-- A multiple of the tolerance is near the error, as long as the roundings of the quotient and of
the product are small against the tolerance. -/
theorem near_of_rounded {tolerance error q k d : ℚ} (ht : 0 < tolerance)
    (hq : |q - error / tolerance| ≤ error / tolerance / 2 ^ 53) (hk : |k - q| ≤ 1 / 2)
    (hle : k ≤ 2 ^ 51 - 1) (hd : |d - tolerance * k| ≤ tolerance * k / 2 ^ 53) :
    |d - error| ≤ tolerance ∧ tolerance * k ≤ error + tolerance := by
  obtain ⟨r, rfl⟩ : ∃ r, error = tolerance * r := ⟨error / tolerance, by field_simp⟩
  rw [mul_div_cancel_left₀ _ ht.ne'] at hq
  obtain ⟨hq₁, hq₂⟩ := abs_le.mp hq
  obtain ⟨hk₁, hk₂⟩ := abs_le.mp hk
  have hr : r ≤ 2 ^ 51 := by linarith
  constructor
  · have hmultiple : |tolerance * k - tolerance * r| ≤ tolerance * (1 / 2 + r / 2 ^ 53) := by
      rw [← mul_sub, abs_mul, abs_of_pos ht]
      refine mul_le_mul_of_nonneg_left ?_ ht.le
      rw [abs_le]
      constructor <;> linarith
    calc |d - tolerance * r|
      _ ≤ |d - tolerance * k| + |tolerance * k - tolerance * r| := abs_sub_le _ _ _
      _ ≤ tolerance * k / 2 ^ 53 + tolerance * (1 / 2 + r / 2 ^ 53) := add_le_add hd hmultiple
      _ = tolerance * (k / 2 ^ 53 + 1 / 2 + r / 2 ^ 53) := by ring
      _ ≤ tolerance * 1 := mul_le_mul_of_nonneg_left (by linarith) ht.le
      _ = tolerance := mul_one _
  · calc tolerance * k
      _ ≤ tolerance * (r + 1) := mul_le_mul_of_nonneg_left (by linarith) ht.le
      _ = tolerance * r + tolerance := by ring

/-- The largest double. -/
def largestDouble : ℚ :=
  (2 ^ 53 - 1) * 2 ^ 971

/-- What is decoded for a correction. It is at the same position and on the same side of zero. As
long as it measures less than `2 ^ 51` tolerances and does not overflow, the double is no farther
from the error than the tolerance; it does not overflow if the error has that much room. In exact
arithmetic it would not be farther than half the tolerance. -/
structure Correction.Restores (tolerance : Float) (x y : Correction) : Prop where
  position : y.position = x.position
  sign : 0 < x.error ∧ 0 < y.error ∨ x.error < 0 ∧ y.error < 0
  near : (Corrections.multiple tolerance x.error).toUInt64.toNat < 2 ^ 51 →
    y.error.isFinite = true → |value y.error - value x.error| ≤ value tolerance
  isFinite : (Corrections.multiple tolerance x.error).toUInt64.toNat < 2 ^ 51 →
    |value x.error| + value tolerance ≤ largestDouble → y.error.isFinite = true
  exact : |exactCorrection (value tolerance) (value x.error) - value x.error| ≤ value tolerance / 2

variable {tolerance : Float} {length : Nat} {x : Correction}

/-- How far the size of a decoded correction, which may be infinite, is from that of the error. -/
theorem Correction.IsCodable.size_spec (h : x.IsCodable length tolerance)
    (ht : isTolerance tolerance = true) :
    let m := Corrections.multiple tolerance x.error
    let size := tolerance * m
    (∃ d, 0 < d ∧ Counts size d ∧ (m.toUInt64.toNat < 2 ^ 51 →
      |(d : ℚ) / 2 ^ 1074 - units x.error / 2 ^ 1074| ≤ value tolerance)) ∨
    size = Float.ofBits 0x7ff0000000000000 ∧ (m.toUInt64.toNat < 2 ^ 51 →
      largestDouble < units x.error / 2 ^ 1074 + value tolerance) := by
  intro m size
  obtain ⟨k, q, hk, hsmall, hwhole, hquotient, hnearest⟩ :=
    Corrections.multiple_rounded ht h.isFinite h.far h.small
  have hinteger : m.toUInt64.toNat = k := hwhole.toUInt64 hsmall
  rw [isTolerance, Bool.and_eq_true, decide_eq_true_eq] at ht
  obtain ⟨htolerance, hpos⟩ := counts_of_zero_lt ht.1 ht.2
  have hvalue : 0 < value tolerance := by
    rw [htolerance.value]
    positivity
  have hratio : (units x.error / units tolerance : ℚ) =
      units x.error / 2 ^ 1074 / value tolerance := by
    rw [htolerance.value, div_div_div_cancel_right₀ (by positivity)]
  have hscaled : ((units tolerance * k : Nat) : ℚ) / 2 ^ 1074 = value tolerance * k := by
    rw [htolerance.value, Nat.cast_mul, mul_div_right_comm]
  have hfew : k < 2 ^ 51 → (k : ℚ) ≤ 2 ^ 51 - 1 := fun hlt => by
    have hle : ((k + 1 : Nat) : ℚ) ≤ (2 ^ 51 : Nat) := by exact_mod_cast hlt
    push_cast at hle
    linarith
  rw [hratio] at hquotient
  rw [hinteger]
  rcases mul_whole htolerance hwhole hpos hk with ⟨d, hd, hclose⟩ | ⟨hinfinite, hbeyond⟩
  · refine .inl ⟨d, ?_, hd, fun hlt => ?_⟩
    · by_contra hz
      have hproduct : (0 : ℚ) < (units tolerance * k : Nat) := by
        exact_mod_cast Nat.mul_pos hpos hk
      rw [Nat.eq_zero_of_not_pos hz, Nat.cast_zero, zero_sub, abs_neg,
        abs_of_pos hproduct] at hclose
      linarith
    · have hproduct : |(d : ℚ) / 2 ^ 1074 - value tolerance * k| ≤ value tolerance * k / 2 ^ 53 := by
        rw [← hscaled, ← sub_div, abs_div, abs_of_pos (show (0 : ℚ) < 2 ^ 1074 by positivity),
          div_right_comm]
        exact div_le_div_of_nonneg_right hclose (by positivity)
      exact (near_of_rounded hvalue hquotient hnearest (hfew hlt) hproduct).1
  · refine .inr ⟨hinfinite, fun hlt => ?_⟩
    have hroom := (near_of_rounded hvalue hquotient hnearest (hfew hlt)
      (d := value tolerance * k) (by rw [sub_self, abs_zero]; positivity)).2
    have hlargest : largestDouble < value tolerance * k := by
      rw [← hscaled, lt_div_iff₀ (by positivity), largestDouble, mul_assoc, ← pow_add]
      exact hbeyond
    exact hlargest.trans_le hroom

/-- The nearest multiple of the tolerance restores a correction that can be coded. -/
theorem Correction.IsCodable.restores (h : x.IsCodable length tolerance)
    (ht : isTolerance tolerance = true) : x.Restores tolerance (x.nearest tolerance) := by
  have hsize := h.size_spec ht
  have hle : 0 ≤ x.error ↔ isNegative x.error = false ∨ units x.error = 0 := zero_le_iff h.isFinite
  rw [isTolerance, Bool.and_eq_true, decide_eq_true_eq] at ht
  obtain ⟨htolerance, hpos⟩ := counts_of_zero_lt ht.1 ht.2
  have hunits : units x.error ≠ 0 := by
    have hfar := (htolerance.le_iff (counts_abs h.isFinite)).mp h.far
    omega
  have hexact : |exactCorrection (value tolerance) (value x.error) - value x.error| ≤ _ :=
    exactCorrection_error (by rw [htolerance.value]; positivity) (value x.error)
  simp only [hunits, or_false] at hle
  unfold nearest
  simp only [hle]
  dsimp only at hsize
  generalize tolerance * Corrections.multiple tolerance x.error = size at hsize
  obtain ⟨y, hy⟩ : ∃ y, y = if isNegative x.error = false then size else -size := ⟨_, rfl⟩
  rw [← hy]
  rcases hsize with ⟨d, hd, hcount, hclose⟩ | ⟨rfl, hbeyond⟩
  · obtain ⟨hfinite, hsign, hcounted⟩ :
        y.isFinite = true ∧ isNegative y = isNegative x.error ∧ units y = d := by
      cases hneg : isNegative x.error with
      | false =>
        rw [hy, hneg, if_pos rfl]
        exact ⟨hcount.isFinite, hcount.isNegative, hcount.units⟩
      | true =>
        rw [hy, hneg, if_neg Bool.true_eq_false_eq_False]
        exact neg_spec hcount
    have hside := same_side h.isFinite hfinite hunits (hcounted ▸ Nat.ne_of_gt hd) hsign
    refine ⟨rfl, hside, fun hlt _ => ?_, fun _ _ => hfinite, hexact⟩
    rw [abs_value_sub hsign, hcounted]
    exact hclose hlt
  · obtain ⟨hinfinite, hside⟩ :
        y.isFinite = false ∧ (0 < x.error ∧ 0 < y ∨ x.error < 0 ∧ y < 0) := by
      cases hneg : isNegative x.error with
      | false =>
        have hpos := (counts_of_not_isNegative h.isFinite hneg).zero_lt (Nat.pos_of_ne_zero hunits)
        rw [hy, hneg, if_pos rfl]
        exact ⟨rfl, .inl ⟨hpos, by decide +kernel⟩⟩
      | true =>
        have hlt := (lt_zero_iff h.isFinite).mpr ⟨hneg, hunits⟩
        rw [hy, hneg, if_neg Bool.true_eq_false_eq_False]
        exact ⟨rfl, .inr ⟨hlt, by decide +kernel⟩⟩
    rw [← abs_value] at hbeyond
    exact ⟨rfl, hside, fun _ hfinite => absurd hfinite (ne_true_of_eq_false hinfinite),
      fun hlt hroom => absurd hroom (not_le.mpr (hbeyond hlt)), hexact⟩

end Rounded

/-- Decoded corrections are those that were coded, one for one, each of them restored to within the
tolerance as far as the doubles between carry it. -/
theorem decoded_corrections_near {length : Nat} {tolerance : Float} {c : Corrections}
    (hc : Corrections.create length tolerance = .ok c) (hlength : length < 2 ^ 64)
    (list : List Correction) (t : Tape) {outline : CorrectionOutline} {full : Tape}
    (h : ((list.foldl Corrections.add c).encode .unbounded).on t = (.ok outline, full)) :
    ∃ decoded, ((Corrections.decode .unbounded outline).on full).1 = .ok decoded ∧
      decoded.length = list.length ∧
      (∀ y ∈ decoded, ∃ x ∈ list, x.Restores tolerance y) ∧
      ∀ x ∈ list, ∃ y ∈ decoded, x.Restores tolerance y := by
  obtain ⟨ht, hne, rfl⟩ := Corrections.create_eq_ok_iff.mp hc
  have hd := validate_row_iff.mpr ⟨hne, hlength⟩
  have hfields := Corrections.fields_foldl_add ⟨length, tolerance, #[]⟩ list
  generalize list.foldl Corrections.add ⟨length, tolerance, #[]⟩ = c at hfields h
  obtain ⟨rfl, rfl, rfl⟩ := hfields
  have hcodable := (Corrections.encodes_iff ht hd t).mp ⟨outline, full, h⟩
  obtain ⟨decoded, -, hperm, hposition, hdecode⟩ := Corrections.decode_encoded ht h
  refine ⟨decoded, hdecode full (Nat.le_of_eq hposition.symm) fun _ _ => rfl, ?_, ?_, ?_⟩
  · rw [hperm.length_eq, List.length_map]
  · intro y hy
    obtain ⟨x, hx, rfl⟩ := List.mem_map.mp (hperm.mem_iff.mp hy)
    exact ⟨x, hx, (hcodable.each x hx).restores ht⟩
  · intro x hx
    exact ⟨_, hperm.mem_iff.mpr (List.mem_map_of_mem hx), (hcodable.each x hx).restores ht⟩

/-- Two errors on both sides of zero, of which one is not a multiple of the tolerance. -/
theorem decoded_corrections_near_pair :
    let list : List Correction := [⟨3, -1.6⟩, ⟨0, 2⟩]
    let c : Corrections := list.foldl Corrections.add ⟨5, 0.5, #[]⟩
    ∃ outline full decoded, (c.encode .unbounded).on .empty = (.ok outline, full) ∧
      ((Corrections.decode .unbounded outline).on full).1 = .ok decoded ∧ decoded.length = 2 ∧
      ∀ x ∈ list, ∃ y ∈ decoded, y.position = x.position ∧
        |value y.error - value x.error| ≤ value 0.5 := by
  intro list c
  have hc : Corrections.create 5 0.5 = .ok ⟨5, 0.5, #[]⟩ :=
    Corrections.create_eq_ok_iff.mpr ⟨by decide +kernel, by decide, rfl⟩
  have hcodable : AreCodable 5 0.5 list := by
    refine ⟨?_, by decide⟩
    simp only [list, List.forall_mem_cons, List.not_mem_nil, false_implies, implies_true, and_true]
    exact ⟨⟨by decide, by decide +kernel, by decide +kernel, by decide +kernel⟩,
      ⟨by decide, by decide +kernel, by decide +kernel, by decide +kernel⟩⟩
  have hfew : ∀ x ∈ list, (Corrections.multiple 0.5 x.error).toUInt64.toNat < 2 ^ 51 ∧
      |value x.error| + value 0.5 ≤ largestDouble := by
    simp only [list, List.forall_mem_cons, List.not_mem_nil, false_implies, implies_true, and_true]
    exact ⟨⟨by decide +kernel, by decide +kernel⟩, by decide +kernel, by decide +kernel⟩
  obtain ⟨outline, full, hencode⟩ := (Corrections.encodes_iff (c := c) (by decide +kernel)
    (validate_row_iff.mpr ⟨by decide, by decide⟩) .empty).mpr hcodable
  obtain ⟨decoded, hdecode, hlength, -, hall⟩ :=
    decoded_corrections_near hc (by decide) list .empty hencode
  refine ⟨outline, full, decoded, hencode, hdecode, hlength, fun x hx => ?_⟩
  obtain ⟨y, hy, h⟩ := hall x hx
  obtain ⟨hlt, hroom⟩ := hfew x hx
  exact ⟨y, hy, h.position, h.near hlt (h.isFinite hlt hroom)⟩

/-- `2 ^ 64` by a tolerance of 49. The quotient is rounded down by 30 tolerances, and the product with
it to the double before `2 ^ 64`, which is 2048 away. -/
theorem decoded_correction_far :
    let list : List Correction := [⟨0, Float.ofBits 0x43f0000000000000⟩]
    let c : Corrections := list.foldl Corrections.add ⟨1, 49, #[]⟩
    Corrections.create 1 49 = .ok ⟨1, 49, #[]⟩ ∧
    ∃ outline full y, (c.encode .unbounded).on .empty = (.ok outline, full) ∧
      ((Corrections.decode .unbounded outline).on full).1 = .ok [y] ∧
      y.position = 0 ∧ y.error.toBits = 0x43efffffffffffff ∧
      ¬|value y.error - value (Float.ofBits 0x43f0000000000000)| ≤ value 49 := by
  intro list c
  have hd : (Axes.row 1).validate = .ok () := validate_row_iff.mpr ⟨by decide, by decide⟩
  have ht : isTolerance 49 = true := by decide +kernel
  have hcodable : AreCodable 1 49 list := by
    refine ⟨?_, by decide⟩
    simp only [list, List.forall_mem_cons, List.not_mem_nil, false_implies, implies_true, and_true]
    exact ⟨by decide, by decide +kernel, by decide +kernel, by decide +kernel⟩
  obtain ⟨outline, full, hencode⟩ := (Corrections.encodes_iff (c := c) ht hd .empty).mpr hcodable
  obtain ⟨decoded, -, hperm, hposition, hdecode⟩ := Corrections.decode_encoded (c := c) ht hencode
  have hlist : decoded = [Correction.nearest 49 ⟨0, Float.ofBits 0x43f0000000000000⟩] :=
    List.perm_singleton.mp hperm
  refine ⟨Corrections.create_eq_ok_iff.mpr ⟨ht, by decide, rfl⟩, outline, full, _, hencode,
    hlist ▸ hdecode full (Nat.le_of_eq hposition.symm) fun _ _ => rfl, rfl, by decide +kernel, ?_⟩
  decide +kernel

end VolumeCodec
