import VolumeCodec.Proofs.AcceptedOutput
import VolumeCodec.Proofs.DoublePlanes

namespace VolumeCodec

open Float.Model UnpackedFloat

/-- The number is one of 32 bits, so that it is computed without overflow. -/
def FitsInt32 (n : Int) : Prop :=
  -2 ^ 31 ≤ n ∧ n < 2 ^ 31

def Mode.isPointwise : Mode → Bool
  | .pointwise _ => true
  | _ => false

/-- What the step is computed from stays finite: the multiple of a tolerance, or else the distance
of the values from their mean. -/
def Mode.staysFinite (mode : Mode) (distance : Float) : Bool :=
  match mode with
  | .pointwise tolerance => (1.5 * tolerance).isFinite
  | _ => distance.isFinite

/-- The exponent of a step is computed without overflow, from the plane of a distance, which is the
floor of its binary logarithm, to the biased exponent of a normal number. -/
structure IsSoundExponent (distance : Float) : Prop where
  plane : (Real64.topPlane distance).toInt = Int.log 2 (Real64.value distance)
  fits_difference : FitsInt32 ((Real64.topPlane distance).toInt - 52)
  fits_biased : FitsInt32 ((stepExponent distance).toInt + 1023)
  le_exponent : -1022 ≤ (stepExponent distance).toInt
  exponent_le : (stepExponent distance).toInt ≤ 971

/-- What is expected of the step at which a volume is compressed. -/
structure IsSoundStep (mode : Mode) (data : Array Float) : Prop where
  isFinite : (quantizeVolume mode data).step.isFinite = true
  pos : 0 < (quantizeVolume mode data).step
  /-- A header with the step is read back. -/
  gets : ∀ mean : Float, mean.isFinite = true →
    Scale.read.Gets (Scale.ofFloats mean (quantizeVolume mode data).step).toBytes
      (Scale.ofFloats mean (quantizeVolume mode data).step)
  /-- The distance is never a NaN, and so one of the cases below is that of the data. -/
  distance : spread data = 0 ∨ 0 < spread data
  exponent : mode.isPointwise = false → 0 < spread data → IsSoundExponent (spread data)
  /-- Unless the mode is pointwise, the step is a power of two that keeps 53 bits of the distance,
  as far as normal numbers go. -/
  value : mode.isPointwise = false → 0 < spread data →
    Real64.value (quantizeVolume mode data).step =
      2 ^ max (Int.log 2 (Real64.value (spread data)) - 52) (-1022)
  one : mode.isPointwise = false → spread data = 0 → (quantizeVolume mode data).step = 1

section Distances

variable {a b x : Float} {n : Nat} {distance : Float}

theorem isPositive_of_lt {u v : UnpackedFloat} (hu : Real64.isPositive u = true)
    (h : UnpackedFloat.lt u v = true) : Real64.isPositive v = true := by
  have hcases : u = .infinity .positive ∨ ∃ m e, ∃ hm, u = .finite .positive m e hm := by
    unfold Real64.isPositive at hu
    split at hu
    next => exact .inr ⟨_, _, _, rfl⟩
    next => exact .inl rfl
    next => cases hu
  cases v with
  | notANumber => rcases hcases with rfl | ⟨m, e, hm, rfl⟩ <;> cases h
  | zero s => rcases hcases with rfl | ⟨m, e, hm, rfl⟩ <;> cases h
  | infinity s =>
    cases s with
    | positive => rfl
    | negative => rcases hcases with rfl | ⟨m, e, hm, rfl⟩ <;> cases h
  | finite s m' e' hm' =>
    cases s with
    | positive => rfl
    | negative => rcases hcases with rfl | ⟨m, e, hm, rfl⟩ <;> cases h

theorem zero_lt_of_lt (ha : a = 0 ∨ 0 < a) (h : a < b) : 0 < b := by
  rcases ha with rfl | ha
  · exact h
  · rw [Real64.zero_lt_iff] at ha ⊢
    exact isPositive_of_lt ha (of_decide_eq_true h)

/-- The comparison passes over a NaN. -/
theorem largest_cases (values : Array Float) : largest values = 0 ∨ 0 < largest values := by
  refine foldl_invariant (P := fun d : Float => d = 0 ∨ 0 < d) values (.inl rfl) fun d v hd => ?_
  split
  next hlt => exact .inr (zero_lt_of_lt hd hlt)
  next => exact hd

/-- The plane of a finite distance is the floor of its binary logarithm. -/
theorem toInt_topPlane_eq_log (h : distance.isFinite = true) (hpos : 0 < distance) :
    (Real64.topPlane distance).toInt = Int.log 2 (Real64.value distance) := by
  obtain ⟨hcounts, hunits⟩ := Real64.counts_of_zero_lt h hpos
  rw [hcounts.toInt_topPlane (by omega), log_value hcounts hunits]

theorem toInt_stepExponent (h : distance.isFinite = true) (hpos : 0 < distance) :
    (stepExponent distance).toInt =
      max (Int.log 2 (Real64.value distance) - 52) (-1022) := by
  have hlow : (-1022 : Int32).toInt = -1022 := by decide
  rw [stepExponent, toInt_max, hlow, toInt_sub_52 (topPlane_range h hpos).1,
    toInt_topPlane_eq_log h hpos]

theorem topPlane_of_not_isFinite (h : distance.isFinite = false) :
    Real64.topPlane distance = Int32.minValue := by
  rw [Real64.topPlane, Real64.isPositiveFinite, h, Bool.and_false]
  rfl

/-- What stands for the plane of an infinite distance is the least number of 32 bits, from which
nothing can be subtracted. -/
theorem isSoundExponent_iff (hpos : 0 < distance) :
    IsSoundExponent distance ↔ distance.isFinite = true := by
  constructor
  · intro h
    by_contra hinfinite
    obtain ⟨hlow, -⟩ := h.fits_difference
    rw [topPlane_of_not_isFinite (Bool.eq_false_of_not_eq_true hinfinite),
      Int32.toInt_minValue] at hlow
    omega
  · intro h
    have hrange := topPlane_range h hpos
    have hexponent := toInt_stepExponent h hpos
    rw [← toInt_topPlane_eq_log h hpos] at hexponent
    exact {
      plane := toInt_topPlane_eq_log h hpos
      fits_difference := ⟨by omega, by omega⟩
      fits_biased := ⟨by omega, by omega⟩
      le_exponent := by omega
      exponent_le := by omega }

end Distances

section Steps

variable {mode : Mode} {data : Array Float}

theorem step_eq (hp : mode.isPointwise = false) (data : Array Float) :
    (quantizeVolume mode data).step =
      if 0 < spread data then Real64.pow2 (stepExponent (spread data)).toInt else 1 := by
  cases mode with
  | pointwise tolerance => cases hp
  | lossless => rfl
  | bits count => rfl
  | quality decibels => rfl

theorem staysFinite_of_pointwise (hp : mode.isPointwise = true) (distance : Float) :
    mode.staysFinite distance = mode.hasFiniteStep := by
  cases mode with
  | pointwise tolerance => rfl
  | lossless => cases hp
  | bits count => cases hp
  | quality decibels => cases hp

theorem staysFinite_of_relative (hp : mode.isPointwise = false) (distance : Float) :
    mode.staysFinite distance = distance.isFinite ∧ mode.hasFiniteStep = true := by
  cases mode with
  | pointwise tolerance => cases hp
  | lossless => exact ⟨rfl, rfl⟩
  | bits count => exact ⟨rfl, rfl⟩
  | quality decibels => exact ⟨rfl, rfl⟩

theorem hasFiniteStep_of_staysFinite {distance : Float} (h : mode.staysFinite distance = true) :
    mode.hasFiniteStep = true := by
  cases hp : mode.isPointwise with
  | true => rwa [staysFinite_of_pointwise hp] at h
  | false => exact (staysFinite_of_relative hp distance).2

theorem gets_ofFloats {mean step : Float} (hm : mean.isFinite = true) (hs : step.isFinite = true)
    (hpos : 0 < step) :
    Scale.read.Gets (Scale.ofFloats mean step).toBytes (Scale.ofFloats mean step) := by
  refine Scale.gets ?_
  rw [Scale.isUsable, Scale.mean, Scale.step, Scale.ofFloats, Float.ofBits_toBits,
    Float.ofBits_toBits, hm, hs, decide_eq_true hpos]
  rfl

theorem IsSoundStep.staysFinite (hm : mode.check = .ok ()) (h : IsSoundStep mode data) :
    mode.staysFinite (spread data) = true := by
  cases hp : mode.isPointwise with
  | true =>
    have hstep : (quantizeVolume mode data).step.isFinite = mode.hasFiniteStep :=
      (stepFor_spec hm _).1
    rw [staysFinite_of_pointwise hp, ← hstep, h.isFinite]
  | false =>
    rw [(staysFinite_of_relative hp _).1]
    rcases h.distance with hzero | hdistance
    · rw [hzero]
      rfl
    · exact (isSoundExponent_iff hdistance).mp (h.exponent hp hdistance)

theorem isSoundStep_of_staysFinite (hm : mode.check = .ok ())
    (h : mode.staysFinite (spread data) = true) : IsSoundStep mode data := by
  obtain ⟨hfinite, hpos⟩ : (quantizeVolume mode data).step.isFinite = mode.hasFiniteStep ∧
      0 < (quantizeVolume mode data).step := stepFor_spec hm _
  rw [hasFiniteStep_of_staysFinite h] at hfinite
  have hspread : mode.isPointwise = false → (spread data).isFinite = true := fun hp => by
    rwa [(staysFinite_of_relative hp _).1] at h
  exact {
    isFinite := hfinite
    pos := hpos
    gets := fun mean hmean => gets_ofFloats hmean hfinite hpos
    distance := largest_cases _
    exponent := fun hp hdistance => (isSoundExponent_iff hdistance).mpr (hspread hp)
    value := fun hp hdistance => by
      have hsound := (isSoundExponent_iff hdistance).mpr (hspread hp)
      have hlow := hsound.le_exponent
      have hhigh := hsound.exponent_le
      rw [step_eq hp, if_pos hdistance, value_pow2 (by omega) (by omega),
        toInt_stepExponent (hspread hp) hdistance]
    one := fun hp hzero => by
      rw [step_eq hp, hzero]
      rfl }

/-- In every mode that is accepted, and for any data, the step is as expected exactly if what it is
computed from stays finite. -/
theorem isSoundStep_iff (hm : mode.check = .ok ()) (data : Array Float) :
    IsSoundStep mode data ↔ mode.staysFinite (spread data) = true :=
  ⟨fun h => h.staysFinite hm, isSoundStep_of_staysFinite hm⟩

/-- The greatest and the least double lie farthest from their mean, and a distance of a single unit
has the least exponent that a step can have. -/
theorem isSoundStep_extremes :
    Mode.check .lossless = .ok () ∧
      IsSoundStep .lossless #[Float.ofBits 0x7fefffffffffffff, Float.ofBits 0xffefffffffffffff] ∧
      IsSoundStep .lossless #[Float.ofBits 1, Float.ofBits 0] := by
  refine ⟨rfl, (isSoundStep_iff rfl _).mpr ?_, (isSoundStep_iff rfl _).mpr ?_⟩
  · unfold spread
    simp only [List.map_toArray, List.map_cons, List.map_nil]
    decide +kernel
  · unfold spread
    simp only [List.map_toArray, List.map_cons, List.map_nil]
    decide +kernel

/-- The sum of two values can be infinite, and so can the step of a tolerance. -/
theorem steps_unsound :
    (Mode.check .lossless = .ok () ∧
      checkVolume #[Float.ofBits 0x7fefffffffffffff, Float.ofBits 0x7fefffffffffffff] ⟨2, 1, 1⟩ =
        .ok () ∧
      ¬IsSoundStep .lossless
        #[Float.ofBits 0x7fefffffffffffff, Float.ofBits 0x7fefffffffffffff]) ∧
    (Mode.pointwise (Float.ofBits 0x7fefffffffffffff)).check = .ok () ∧
      checkVolume #[0] ⟨1, 1, 1⟩ = .ok () ∧
      ¬IsSoundStep (.pointwise (Float.ofBits 0x7fefffffffffffff)) #[0] := by
  have ht : isTolerance (Float.ofBits 0x7fefffffffffffff) = true := by decide +kernel
  have hm : (Mode.pointwise (Float.ofBits 0x7fefffffffffffff)).check = .ok () := by
    simp only [Mode.check, ht, if_true]
  refine ⟨⟨rfl, ?_, fun h => ?_⟩, hm, checkVolume_zero, fun h => ?_⟩
  · refine checkVolume_eq_ok_iff.mpr ⟨rfl, rfl, by decide, fun v hv => ?_⟩
    have hv : v = Float.ofBits 0x7fefffffffffffff := by simpa using hv
    rw [hv]
    decide +kernel
  · have hinfinite : (spread #[Float.ofBits 0x7fefffffffffffff,
        Float.ofBits 0x7fefffffffffffff]).isFinite = false := by
      unfold spread
      simp only [List.map_toArray, List.map_cons, List.map_nil]
      decide +kernel
    exact absurd ((h.staysFinite rfl).symm.trans hinfinite) (by decide)
  · have hinfinite : (1.5 * Float.ofBits 0x7fefffffffffffff).isFinite = false := by
      decide +kernel
    exact absurd ((h.staysFinite hm).symm.trans hinfinite) (by decide)

end Steps

section Compressed

variable {mode : Mode} {data : Array Float} {dims : Extents} {bytes : List UInt8}

theorem checkStep_spread (hp : mode.isPointwise = false) (data : Array Float) :
    checkStep mode (spread data) =
      if (spread data).isFinite then .ok () else .error .overflow := by
  cases hfinite : (spread data).isFinite with
  | true => exact checkStep_of_isFinite mode hfinite
  | false =>
    have hpos : 0 < spread data := by
      rcases largest_cases (data.map (· - meanOf data)) with hzero | hpos
      · rw [spread, hzero] at hfinite
        cases hfinite
      · exact hpos
    have hlow : (Real64.topPlane (spread data)).toInt - 52 < Int32.minValue.toInt := by
      rw [topPlane_of_not_isFinite hfinite, Int32.toInt_minValue]
      omega
    cases mode with
    | pointwise tolerance => cases hp
    | _ => exact if_pos ⟨hpos, hlow⟩

theorem checkReals_ne_overflow (coefficients : Array Float) (dims : Extents) :
    checkReals coefficients dims ≠ .error .overflow := by
  intro h
  unfold checkReals at h
  cases hd : dims.validate with
  | error fault =>
    rw [hd] at h
    obtain rfl := Except.error.inj h
    unfold Axes.validate at hd
    split at hd <;> cases hd
  | ok u =>
    rw [hd] at h
    change (if coefficients.size ≠ dims.volume then _ else _) = _ at h
    split at h
    next => cases h
    next =>
      split at h
      next => cases h
      next => cases h

/-- Unless the mode is pointwise, a compression is stopped by an overflow exactly if the values lie
infinitely far from their mean, as that is computed. -/
theorem compressWhole_overflow_iff (hp : mode.isPointwise = false) :
    compressWhole .unbounded mode data dims = .error .overflow ↔ (spread data).isFinite = false := by
  rw [compressWhole_eq, checkStep_spread hp]
  cases hfinite : (spread data).isFinite with
  | false => exact ⟨fun _ => rfl, fun _ => rfl⟩
  | true =>
    refine ⟨fun h => ?_, nofun⟩
    change (checkReals (quantizeVolume mode data).multiples dims >>= _) = _ at h
    cases hcheck : checkReals (quantizeVolume mode data).multiples dims with
    | error fault =>
      rw [hcheck] at h
      obtain rfl := Except.error.inj h
      exact absurd hcheck (checkReals_ne_overflow _ _)
    | ok u =>
      rw [hcheck] at h
      cases mode with
      | pointwise tolerance => cases hp
      | _ => cases h

/-- Unless the mode is pointwise, a step that is not as expected reaches no container. -/
theorem isSoundStep_of_compressWhole (hm : mode.check = .ok ()) (hp : mode.isPointwise = false)
    (h : compressWhole .unbounded mode data dims = .ok bytes) : IsSoundStep mode data := by
  rw [compressWhole_eq] at h
  obtain ⟨_, hstep, -⟩ := ok_of_bind h
  rw [checkStep_spread hp] at hstep
  refine isSoundStep_of_staysFinite hm ?_
  rw [(staysFinite_of_relative hp _).1]
  by_contra hinfinite
  rw [if_neg hinfinite] at hstep
  cases hstep

end Compressed

end VolumeCodec
