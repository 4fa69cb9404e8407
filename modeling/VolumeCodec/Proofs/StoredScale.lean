import VolumeCodec.Proofs.WholeContainers
import VolumeCodec.Proofs.WholeDoubles

namespace VolumeCodec

theorem toInt_sub_52 {a : Int32} (h : -1074 ≤ a.toInt) : (a - 52).toInt = a.toInt - 52 := by
  have hlt := a.toInt_lt
  have h52 : (52 : Int32).toInt = 52 := by decide
  rw [Int32.toInt_sub, h52]
  exact Int.bmod_eq_of_le (by omega) (by omega)

theorem topPlane_cases (x : Float) :
    Real64.topPlane x = Int32.minValue ∨ -1074 ≤ (Real64.topPlane x).toInt := by
  unfold Real64.topPlane
  split
  next =>
    right
    have he := Real64.exponentField_lt x
    have hlog := log2_fraction_le x
    split
    next =>
      rw [Int32.toInt_ofInt_of_le (by omega) (by omega)]
      omega
    next =>
      rw [Int32.toInt_ofInt_of_le (by omega) (by omega)]
      omega
  next => exact .inl rfl

/-- The step of a finite distance has the exponent of a normal number; otherwise the exponent wraps
around. -/
theorem stepExponent_cases (distance : Float) :
    (stepExponent distance).toInt = 2147483596 ∨
      (-1022 ≤ (stepExponent distance).toInt ∧ (stepExponent distance).toInt ≤ 1023) := by
  have hlow : (-1022 : Int32).toInt = -1022 := by decide
  unfold stepExponent
  rcases topPlane_cases distance with hmin | hplane
  · rw [hmin]
    exact .inl (by decide)
  · right
    have hhigh : (Real64.topPlane distance).toInt ≤ 1023 := BoundedPlanes.topPlane_le distance
    rw [toInt_max, hlow, toInt_sub_52 hplane]
    omega

theorem pow2_stepExponent (distance : Float) :
    (Real64.pow2 (stepExponent distance).toInt).isFinite = true ∧
      0 < Real64.pow2 (stepExponent distance).toInt := by
  rcases stepExponent_cases distance with hwrapped | ⟨hlow, hhigh⟩
  · rw [hwrapped]
    exact ⟨rfl, by decide⟩
  · exact Real64.pow2_positive (by omega) hhigh

theorem topPlane_range {distance : Float} (h : distance.isFinite = true) (hpos : 0 < distance) :
    -1074 ≤ (Real64.topPlane distance).toInt ∧ (Real64.topPlane distance).toInt ≤ 1023 := by
  obtain ⟨hcounts, hunits⟩ := Real64.counts_of_zero_lt h hpos
  refine ⟨?_, BoundedPlanes.topPlane_le distance⟩
  rw [hcounts.toInt_topPlane (by omega)]
  omega

/-- The exponent of a step is computed for every finite distance. -/
theorem checkStep_of_isFinite (mode : Mode) {distance : Float} (h : distance.isFinite = true) :
    checkStep mode distance = .ok () := by
  have hrange : ¬(0 < distance ∧ (Real64.topPlane distance).toInt - 52 < Int32.minValue.toInt) := by
    intro hlow
    obtain ⟨hpos, hlow⟩ := hlow
    have hplane := (topPlane_range h hpos).1
    rw [Int32.toInt_minValue] at hlow
    omega
  cases mode with
  | pointwise tolerance => rfl
  | _ => exact if_neg hrange

/-- The step of a tolerance can be too large for a double. -/
def Mode.hasFiniteStep : Mode → Bool
  | .pointwise tolerance => (1.5 * tolerance).isFinite
  | _ => true

theorem isTolerance_of_check {tolerance : Float} (h : (Mode.pointwise tolerance).check = .ok ()) :
    isTolerance tolerance = true := by
  cases ht : isTolerance tolerance with
  | true => rfl
  | false =>
    simp only [Mode.check, ht] at h
    cases h

theorem stepFor_spec {mode : Mode} (h : mode.check = .ok ()) (distance : Float) :
    (stepFor mode distance).isFinite = mode.hasFiniteStep ∧ 0 < stepFor mode distance := by
  have hother : (if 0 < distance then Real64.pow2 (stepExponent distance).toInt else 1).isFinite =
      true ∧ 0 < if 0 < distance then Real64.pow2 (stepExponent distance).toInt else 1 := by
    split
    next => exact pow2_stepExponent distance
    next => exact ⟨rfl, by decide⟩
  cases mode with
  | lossless => exact hother
  | bits count => exact hother
  | quality decibels => exact hother
  | pointwise tolerance =>
    have ht := isTolerance_of_check h
    rw [isTolerance, Bool.and_eq_true, decide_eq_true_eq] at ht
    exact ⟨rfl, Real64.zero_lt_mul ht.2⟩

section Quantized

variable {mode : Mode} {data : Array Float} {dims : Extents}

theorem size_multiples (mode : Mode) (data : Array Float) :
    (quantizeVolume mode data).multiples.size = data.size := by
  simp [quantizeVolume]

theorem isFinite_mean (h : checkReals (quantizeVolume mode data).multiples dims = .ok ()) :
    (quantizeVolume mode data).mean.isFinite = true := by
  obtain ⟨hd, hs, hfinite⟩ := checkReals_eq_ok_iff.mp h
  obtain ⟨hx, hy, hz⟩ := pos_of_validate hd
  have hpos : 0 < dims.volume := Nat.mul_pos (Nat.mul_pos hx hy) hz
  rw [← hs] at hpos
  have hmultiple := hfinite _ (Array.getElem_mem hpos)
  simp only [quantizeVolume, Array.getElem_map] at hmultiple
  exact Real64.isFinite_of_sub (Real64.isFinite_of_div (Real64.isFinite_of_roundToEven hmultiple))

theorem isFinite_largest {values : Array Float} (h : ∀ v ∈ values, v.isFinite = true) :
    (largest values).isFinite = true := by
  rw [largest, ← Array.foldl_toList]
  refine List.foldlRecOn values.toList _ (motive := fun d : Float => d.isFinite = true) rfl
    fun d hd v hv => ?_
  split
  next => exact (Real64.counts_abs (h v (Array.mem_toList_iff.mp hv))).isFinite
  next => exact hd

theorem isFinite_spread (h : checkReals (quantizeVolume mode data).multiples dims = .ok ()) :
    (spread data).isFinite = true := by
  obtain ⟨-, -, hfinite⟩ := checkReals_eq_ok_iff.mp h
  refine isFinite_largest fun v hv => ?_
  have hmultiple : (roundToEven (v / (quantizeVolume mode data).step)).isFinite = true :=
    hfinite _ (Array.mem_map_of_mem hv)
  exact Real64.isFinite_of_div (Real64.isFinite_of_roundToEven hmultiple)

/-- A stored scale is usable, unless it has the step of too large a tolerance. -/
theorem isUsable_ofFloats (hm : mode.check = .ok ())
    (h : checkReals (quantizeVolume mode data).multiples dims = .ok ()) :
    (Scale.ofFloats (quantizeVolume mode data).mean (quantizeVolume mode data).step).isUsable =
      mode.hasFiniteStep := by
  obtain ⟨hfinite, hpos⟩ : (quantizeVolume mode data).step.isFinite = mode.hasFiniteStep ∧
      0 < (quantizeVolume mode data).step := stepFor_spec hm _
  unfold Scale.isUsable Scale.mean Scale.step Scale.ofFloats
  rw [Float.ofBits_toBits, Float.ofBits_toBits, isFinite_mean h, hfinite, Bool.true_and,
    decide_eq_true hpos, Bool.and_true]

end Quantized

end VolumeCodec
