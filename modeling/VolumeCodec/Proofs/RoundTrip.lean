import VolumeCodec.Proofs.BitBound
import VolumeCodec.Proofs.CodedTapes
import VolumeCodec.Proofs.Lockstep

namespace VolumeCodec

open ExactPlanes (counts)

section Planes

variable {α : Type} [Magnitude α]

theorem le_topPlane {values : Array α} {a : α} (h : a ∈ values) :
    (Magnitude.topPlane a).toInt ≤ (topPlane values).toInt := by
  have hfold : ∀ (l : List α) (start : Int32),
      start.toInt ≤ (l.foldl (fun top v => max top (Magnitude.topPlane v)) start).toInt ∧
        ∀ a ∈ l, (Magnitude.topPlane a).toInt ≤
          (l.foldl (fun top v => max top (Magnitude.topPlane v)) start).toInt := by
    intro l
    induction l with
    | nil => exact fun start => ⟨Int.le_refl _, fun a ha => by cases ha⟩
    | cons b rest ih =>
      intro start
      obtain ⟨hs, hr⟩ := ih (max start (Magnitude.topPlane b))
      rw [toInt_max] at hs
      simp only [List.foldl_cons]
      refine ⟨by omega, fun a ha => ?_⟩
      rcases List.mem_cons.mp ha with rfl | ha
      · omega
      · exact hr a ha
  unfold topPlane
  rw [← Array.foldl_toList]
  exact (hfold values.toList _).2 a (by simpa using h)

theorem lowestPlane_le {values : Array α} {a : α} (h : a ∈ values) :
    (lowestPlane values).toInt ≤ (Magnitude.finestPlane a).toInt := by
  have hfold : ∀ (l : List α) (start : Int32),
      (l.foldl (fun low v => min low (Magnitude.finestPlane v)) start).toInt ≤ start.toInt ∧
        ∀ a ∈ l, (l.foldl (fun low v => min low (Magnitude.finestPlane v)) start).toInt ≤
          (Magnitude.finestPlane a).toInt := by
    intro l
    induction l with
    | nil => exact fun start => ⟨Int.le_refl _, fun a ha => by cases ha⟩
    | cons b rest ih =>
      intro start
      obtain ⟨hs, hr⟩ := ih (min start (Magnitude.finestPlane b))
      rw [toInt_min] at hs
      simp only [List.foldl_cons]
      refine ⟨by omega, fun a ha => ?_⟩
      rcases List.mem_cons.mp ha with rfl | ha
      · omega
      · exact hr a ha
  have hlow := (hfold values.toList Int32.maxValue).2 a (by simpa using h)
  unfold lowestPlane
  rw [toInt_min, ← Array.foldl_toList]
  omega

end Planes

section Exact

variable {α κ : Type} [Magnitude α] [ExactPlanes α]

/-- Each element of an array counts its number of units of the lowest plane. -/
structure Counted (dims : Extents) (magnitudes : Array α) (m : Nat → Nat) : Prop where
  size : magnitudes.size = dims.volume
  counts : ∀ i < dims.volume, counts (magnitudes.getD i Magnitude.zero) (m i)

/-- How far the lowest plane of an array is above the lowest plane of its type. -/
def bottom (magnitudes : Array α) : Nat :=
  ((lowestPlane magnitudes).toInt - Magnitude.minPlane α).toNat

/-- The number of planes that hold a bit of an array. -/
def ownCount (magnitudes : Array α) : Nat :=
  planeCount (topPlane magnitudes).toInt (lowestPlane magnitudes).toInt

theorem lowestPlane_eq (magnitudes : Array α) :
    (lowestPlane magnitudes).toInt = Magnitude.minPlane α + bottom magnitudes := by
  have h := minPlane_le_lowestPlane magnitudes
  unfold bottom
  omega

theorem ownPlane_le {magnitudes : Array α} {n : Nat} (hn : n < ownCount magnitudes) :
    Magnitude.minPlane α + ((bottom magnitudes + n : Nat) : Int) ≤ Magnitude.maxPlane α := by
  have hlow := lowestPlane_eq magnitudes
  have htop := topPlane_le_maxPlane magnitudes
  unfold ownCount planeCount at hn
  omega

namespace Counted

variable {dims : Extents} {magnitudes : Array α} {m : Nat → Nat} {i : Nat}

theorem getD_mem (h : Counted dims magnitudes m) (hi : i < dims.volume) :
    magnitudes.getD i Magnitude.zero ∈ magnitudes := by
  have hs : i < magnitudes.size := by rw [h.size]; exact hi
  simp [Array.getD, hs]

theorem planes (h : Counted dims magnitudes m) (hi : i < dims.volume) (hne : m i ≠ 0) :
    2 ^ bottom magnitudes ∣ m i ∧ (m i).log2 < bottom magnitudes + ownCount magnitudes := by
  have hmem := h.getD_mem hi
  obtain ⟨e, he, hdvd⟩ := ExactPlanes.finestPlane (h.counts i hi) hne
  have htop := ExactPlanes.topPlane (h.counts i hi) hne
  have hle := lowestPlane_le hmem
  have hge := le_topPlane hmem
  have hlow := lowestPlane_eq magnitudes
  have hlog : e ≤ (m i).log2 :=
    (Nat.le_log2 hne).mpr (Nat.le_of_dvd (Nat.pos_of_ne_zero hne) hdvd)
  refine ⟨Nat.dvd_trans (Nat.pow_dvd_pow 2 (by omega)) hdvd, ?_⟩
  unfold ownCount planeCount
  omega

theorem mod_bottom (h : Counted dims magnitudes m) (hi : i < dims.volume) :
    m i % 2 ^ bottom magnitudes = 0 := by
  by_cases hz : m i = 0
  · rw [hz, Nat.zero_mod]
  · exact Nat.mod_eq_zero_of_dvd (h.planes hi hz).1

theorem lt_top (h : Counted dims magnitudes m) (hi : i < dims.volume) :
    m i < 2 ^ (bottom magnitudes + ownCount magnitudes) := by
  by_cases hz : m i = 0
  · rw [hz]
    exact Nat.two_pow_pos _
  · exact (Nat.log2_lt hz).mp (h.planes hi hz).2

theorem bottom_le (h : Counted dims magnitudes m) (hi : i < dims.volume) :
    2 ^ bottom magnitudes ≤ m i ↔ m i ≠ 0 := by
  have hpos := Nat.two_pow_pos (bottom magnitudes)
  refine ⟨fun hle hz => by omega, fun hne => ?_⟩
  exact Nat.le_of_dvd (Nat.pos_of_ne_zero hne) (h.planes hi hne).1

theorem inStep_initial (h : Counted dims magnitudes m) (signs : Array Bool) :
    InStep dims signs m (fun _ => bottom magnitudes + ownCount magnitudes) magnitudes
      (Sketch.blank α dims) where
  size_residuals := h.size
  size_magnitudes := Array.size_replicate
  size_signs := Array.size_replicate
  number i hi := ⟨_, h.counts i hi⟩
  residual i hi := by
    rw [Nat.mod_eq_of_lt (h.lt_top hi)]
    exact h.counts i hi
  recovered i hi := by
    rw [Nat.mod_eq_of_lt (h.lt_top hi), Nat.sub_self]
    have hz : (Sketch.blank α dims).magnitudes.getD i Magnitude.zero = Magnitude.zero := by
      simp [Sketch.blank, Array.getD, hi]
    rw [hz]
    exact ExactPlanes.zero
  sign i hi := by
    rw [if_neg (Nat.not_le.mpr (h.lt_top hi))]
    simp [Sketch.blank, Array.getD, hi]

end Counted

section Run

variable {task : Encoder.Task α κ} {m : Nat → Nat} {e : Nat} {p : Progress} {ph : Nat → Phase}
  {s : Encoder.State α κ × Sketch α}

/-- What is settled after one plane is where the next one below starts from. -/
theorem phase_next {dims : Extents} {ph' : Nat → Phase} (hend : IsEnd dims p ph)
    (hstart : IsStart dims p ph') {i : Nat} (hi : i < dims.volume) :
    (ph i).finest (e + 1) = e + 1 ∧ (ph' i).finest e = (ph i).finest (e + 1) ∧
      (ph' i).isSignificant = (ph i).isSignificant := by
  rw [hend i hi, hstart i hi]
  split <;> exact ⟨rfl, rfl, rfl⟩

theorem Running.next (h : Running task m (e + 1) ph s) (hp : IsEnd task.dims p ph) :
    ∃ ph', IsStart task.dims p ph' ∧ Running task m e ph' s := by
  let ph' : Nat → Phase := fun i => if i ∈ p.lists.significant.toList then .old else .waiting
  have hstart : IsStart task.dims p ph' := fun i _ => rfl
  refine ⟨ph', hstart, h.room, h.inStep.congr fun i hi => ?_, fun i hi => ?_⟩
  · rw [(phase_next hp hstart hi).2.1]
    exact ⟨rfl, .rfl⟩
  · obtain ⟨-, hfinest, hsig⟩ := phase_next (e := e) hp hstart hi
    rw [hfinest, hsig]
    exact h.found i hi

/-- What holds between planes is kept by a run through all planes of an array. -/
theorem ownPlanes_run {σ : Type} {respond : σ → Int × Query → Reply σ}
    {I : Nat → (Nat → Phase) → σ → Prop} {A : Nat → Progress → σ → Prop} {H : σ → Prop}
    (magnitudes : Array α) (hd : task.dims.validate = .ok ())
    (R : ∀ e : Nat, Magnitude.minPlane α + e ≤ Magnitude.maxPlane α → PlaneRule task.dims
      (fun s q => respond s (Magnitude.minPlane α + e, q)) ⟨True, fun i => 2 ^ e ≤ m i⟩
      (fun _ => I e) H)
    (hstart : ∀ e p s, A (e + 1) p s → ∃ ph, IsStart task.dims p ph ∧ I e ph s)
    (hend : ∀ e p ph s, IsEnd task.dims p ph → I e ph s → A e p s) {s : σ}
    (h : A (bottom magnitudes + ownCount magnitudes) (Progress.initial task.dims) s) :
    (Encoder.ownPlanes task magnitudes).Ensures respond s (A (bottom magnitudes)) H := by
  obtain ⟨hsettled, -⟩ := Settled.initial hd
  have hlow := lowestPlane_eq magnitudes
  have hrule : ∀ n < ownCount magnitudes, PlaneRule task.dims
      (fun s q => respond s ((lowestPlane magnitudes).toInt + n, q))
      ⟨True, fun i => 2 ^ (bottom magnitudes + n) ≤ m i⟩ (fun _ => I (bottom magnitudes + n))
      H := by
    intro n hn
    have hplane : (lowestPlane magnitudes).toInt + n =
        Magnitude.minPlane α + ((bottom magnitudes + n : Nat) : Int) := by omega
    rw [hplane]
    exact R _ (ownPlane_le hn)
  refine (codePlanes_ensures (c := 0) (A := fun n _ => A (bottom magnitudes + n)) hrule
    (fun n _ => hstart (bottom magnitudes + n)) (fun n _ => hend (bottom magnitudes + n))
    (Nat.le_refl _) hsettled h).mono ?_
  intro p t h
  exact h.2

/-- Before the first plane nothing is settled, and nothing need be: no number has a bit above. -/
theorem running_initial {magnitudes : Array α} (hd : task.dims.validate = .ok ())
    (hm : Counted task.dims magnitudes m) (hroom : task.limit.isReached 0 = false) :
    IsEnd task.dims (Progress.initial task.dims) (fun _ => .cold) ∧
      Running task m (bottom magnitudes + ownCount magnitudes) (fun _ => .cold)
        (Encoder.State.initial task magnitudes, Sketch.blank α task.dims) := by
  obtain ⟨-, hsig⟩ := Settled.initial hd
  refine ⟨fun i _ => ?_, hroom, hm.inStep_initial _, fun i hi => ?_⟩
  · rw [hsig, if_neg (by simp)]
  · simp [Phase.isSignificant, Phase.finest, hm.lt_top hi]

/-- An encoder with room for bits stays in step with one who follows it through all planes of an
array. -/
theorem ownPlanes_ensures {magnitudes : Array α} (hd : task.dims.validate = .ok ())
    (hm : Counted task.dims magnitudes m) (hroom : task.limit.isReached 0 = false) :
    (Encoder.ownPlanes task magnitudes).Ensures (Encoder.followed task Sketch.use)
      (Encoder.State.initial task magnitudes, Sketch.blank α task.dims)
      (fun p t => ∃ ph, IsEnd task.dims p ph ∧ Running task m (bottom magnitudes) ph t)
      (Stopped task m) := by
  refine ownPlanes_run (A := fun e p t => ∃ ph, IsEnd task.dims p ph ∧ Running task m e ph t)
    magnitudes hd (running_rule task m) ?_ (fun e p ph t hph h => ⟨ph, hph, h⟩)
    ⟨_, running_initial hd hm hroom⟩
  intro e p t h
  obtain ⟨ph, hph, h⟩ := h
  exact h.next hph

/-- All bits of an array, followed from the first one to the last, leave nothing to code. -/
theorem follow_all_bits {dims : Extents} (signs : Array Bool) {magnitudes : Array α}
    (hd : dims.validate = .ok ()) (hm : Counted dims magnitudes m) :
    ∃ residuals, InStep dims signs m (fun _ => bottom magnitudes) residuals
      ((allPlanes α dims (topPlane magnitudes).toInt).follow isFree Sketch.use
        (Encoder.written (⟨dims, signs, none, .never⟩ : Encoder.Task α Unit) magnitudes)
        (Sketch.blank α dims)).2.2 := by
  let all : Encoder.Task α Unit := ⟨dims, signs, none, .never⟩
  have hensures := ownPlanes_ensures hd hm (rfl : all.limit.isReached 0 = false)
  obtain ⟨p, u, hconduct⟩ :=
    Encoder.conduct_all dims signs magnitudes Sketch.use (Sketch.blank α dims)
  unfold Dialogue.Ensures at hensures
  rw [hconduct] at hensures
  obtain ⟨ph, hph, hrunning⟩ := hensures
  refine ⟨_, hrunning.inStep.congr fun i hi => ?_⟩
  have hfinest : (ph i).finest (bottom magnitudes) = bottom magnitudes := by
    rw [hph i hi]
    split <;> rfl
  rw [hfinest]
  exact ⟨rfl, .rfl⟩

/-- Where nothing is left to code, the numbers and the signs of all but zeros are recovered. -/
theorem InStep.complete {dims : Extents} {magnitudes residuals : Array α} {signs : Array Bool}
    {k : Sketch α} (hc : Counted dims magnitudes m)
    (h : InStep dims signs m (fun _ => bottom magnitudes) residuals k) :
    k.magnitudes = magnitudes ∧ k.signs.size = dims.volume ∧ ∀ i < dims.volume,
      k.signs.getD i true = if m i ≠ 0 then signs.getD i true else true := by
  refine ⟨?_, h.size_signs, fun i hi => ?_⟩
  · refine ext_getD Magnitude.zero (h.size_magnitudes.trans hc.size.symm) fun i hi => ?_
    have hv : i < dims.volume := h.size_magnitudes ▸ hi
    have hrec := h.recovered i hv
    rw [hc.mod_bottom hv, Nat.sub_zero] at hrec
    exact ExactPlanes.eq_of_counts hrec (hc.counts i hv)
  · have hsign := h.sign i hi
    simp only [hc.bottom_le hi] at hsign
    exact hsign

end Run

end Exact

/-- The signs that a decoder shows: that of a zero is not coded. -/
def shownSigns {n : Nat} (magnitudes : Array (BitVec n)) (signs : Array Bool) : Array Bool :=
  magnitudes.zipWith (fun a positive => a == 0#n || positive) signs

theorem counted_integers {w : Width} {dims : Extents} {magnitudes : Array (BitVec w.bits)}
    (hm : magnitudes.size = dims.volume) :
    Counted dims magnitudes fun i => (magnitudes.getD i 0#w.bits).toNat :=
  ⟨hm, fun _ _ => rfl⟩

theorem InStep.all_recovered {w : Width} {dims : Extents}
    {magnitudes residuals : Array (BitVec w.bits)}
    {signs : Array Bool} {k : Sketch (BitVec w.bits)} (hm : magnitudes.size = dims.volume)
    (hs : signs.size = dims.volume)
    (h : InStep dims signs (fun i => (magnitudes.getD i 0#w.bits).toNat)
      (fun _ => bottom magnitudes) residuals k) :
    k.magnitudes = magnitudes ∧ k.signs = shownSigns magnitudes signs := by
  obtain ⟨hmagnitudes, hsize, hsigns⟩ := h.complete (counted_integers hm)
  refine ⟨hmagnitudes, Array.ext ?_ fun i hk hi => ?_⟩
  · rw [shownSigns, Array.size_zipWith, hm, hs, Nat.min_self]
    exact hsize
  · have hv : i < dims.volume := by rw [← hsize]; exact hk
    have him : i < magnitudes.size := by omega
    have his : i < signs.size := by omega
    have hsign := hsigns i hv
    simp only [shownSigns, Array.getElem_zipWith]
    simp only [Array.getD_eq_getD_getElem?, Array.getElem?_eq_getElem hk,
      Array.getElem?_eq_getElem him, Array.getElem?_eq_getElem his, Option.getD_some] at hsign
    rw [hsign]
    by_cases hz : magnitudes[i] = 0#w.bits
    · simp [hz]
    · have hne : magnitudes[i].toNat ≠ 0 :=
        fun h0 => hz (BitVec.eq_of_toNat_eq (by simpa using h0))
      simp [hz, hne]

/-- Integers of any width are coded without loss: the decoder returns every number, and the sign of
every number but zero. It reads the bits that were written, of which there are at most so many in
each plane, and a limit that leaves room for them changes nothing. -/
theorem integer_roundtrip (w : Width) {dims : Extents} {magnitudes : Array (BitVec w.bits)}
    {signs : Array Bool} (hd : dims.validate = .ok ()) (hm : magnitudes.size = dims.volume)
    (hs : signs.size = dims.volume) (t : Tape) :
    ∃ (info : Outline) (full : Tape) (d : Decoded (BitVec w.bits)),
      (encode .unbounded ⟨dims, signs, none, .never⟩ magnitudes).on t = (.ok info, full) ∧
      (∀ b ≥ info.bitCount,
        (encode .unbounded ⟨dims, signs, some b, .never⟩ magnitudes).on t = (.ok info, full)) ∧
      ((decode .unbounded info none).on full).1 = .ok d ∧
      d.magnitudes = magnitudes ∧ d.signs = shownSigns magnitudes signs ∧
      d.bitCount = info.bitCount ∧ full.writePosition = info.bitCount ∧
      info.bitCount ≤ w.bits * (4 * dims.volume + 7) := by
  let all : Encoder.Task (BitVec w.bits) Unit := ⟨dims, signs, none, .never⟩
  obtain ⟨residuals, hin⟩ := follow_all_bits signs hd (counted_integers hm)
  have hlen := Encoder.length_written_le_of_planes all magnitudes hd
  have hcount :
      planeCount (Magnitude.maxPlane (BitVec w.bits)) (Magnitude.minPlane (BitVec w.bits)) =
        w.bits := by
    show ((w.bits : Int) - 1 + 1 - 0).toNat = w.bits
    omega
  rw [hcount] at hlen
  obtain ⟨hmags, hsigns⟩ := hin.all_recovered hm hs
  obtain ⟨-, hpos, hbit⟩ := Tape.recorded_spec t (Encoder.written all magnitudes)
  have hdec := decode_on all magnitudes none hd (Nat.le_refl _) rfl (.inr rfl)
    (Nat.le_of_eq hpos.symm) hbit
  rw [List.take_of_length_le (Nat.le_refl _)] at hdec
  refine ⟨_, _, _, encode_on all magnitudes t hd hm hs, fun b hb => ?_, hdec, hmags, hsigns, rfl,
    hpos, hlen⟩
  have hlimited := encode_on (⟨dims, signs, some b, .never⟩ : Encoder.Task (BitVec w.bits) Unit)
    magnitudes t hd hm hs
  rw [Encoder.written_of_limit, List.take_of_length_le hb] at hlimited
  exact hlimited

/-- The case of two bytes with negative signs, the first of them zero. -/
theorem integer_roundtrip_pair :
    (Axes.row 2).validate = .ok () ∧ ∃ (info : Outline) (full : Tape) (d : Decoded (BitVec 8)),
      (encode .unbounded ⟨Axes.row 2, #[false, false], none, .never⟩ #[0#8, 5#8]).on .empty =
        (.ok info, full) ∧
      ((decode .unbounded info none).on full).1 = .ok d ∧
      d.magnitudes = #[0#8, 5#8] ∧ d.signs = #[true, false] := by
  obtain ⟨info, full, d, hinfo, -, hd, hmags, hsigns, -⟩ :=
    @integer_roundtrip .w8 (Axes.row 2) #[0#8, 5#8] #[false, false] rfl rfl rfl .empty
  have hshown : shownSigns #[0#8, 5#8] #[false, false] = #[true, false] := by simp [shownSigns]
  exact ⟨rfl, info, full, d, hinfo, hd, hmags, hsigns.trans hshown⟩

end VolumeCodec
