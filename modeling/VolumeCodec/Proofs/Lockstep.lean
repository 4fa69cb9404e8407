import VolumeCodec.Proofs.DecoderBits
import VolumeCodec.Proofs.ExactPlanes
import VolumeCodec.Proofs.PlaneCoding

namespace VolumeCodec

/-- The lowest plane down to which an element in some phase is settled, in the plane `e`. -/
def Phase.finest (e : Nat) : Phase → Nat
  | old => e + 1
  | waiting => e + 1
  | done => e
  | cold => e

def Phase.isSignificant : Phase → Bool
  | old => true
  | waiting => false
  | done => true
  | cold => false

theorem mod_two_pow_succ_cases (n e : Nat) :
    (2 ^ e ≤ n % 2 ^ (e + 1) ∧ n % 2 ^ (e + 1) = n % 2 ^ e + 2 ^ e) ∨
      (n % 2 ^ (e + 1) < 2 ^ e ∧ n % 2 ^ (e + 1) = n % 2 ^ e) := by
  have hpos : 0 < 2 ^ e := Nat.two_pow_pos e
  have hlt := Nat.mod_lt n hpos
  have hsplit := Nat.mod_pow_succ (x := n) (b := 2) (k := e)
  have htwo : n / 2 ^ e % 2 = 0 ∨ n / 2 ^ e % 2 = 1 := Nat.mod_two_eq_zero_or_one _
  rcases htwo with h | h
  · rw [h, Nat.mul_zero] at hsplit
    exact .inr ⟨by omega, by omega⟩
  · rw [h, Nat.mul_one] at hsplit
    exact .inl ⟨by omega, by omega⟩

section Lockstep

variable {α κ : Type} [Magnitude α] [ExactPlanes α]

open ExactPlanes (counts)

/-- Taking off the threshold of a plane is exact if it leaves what is below. -/
theorem counts_sub_threshold {e n : Nat} {a r : α}
    (he : Magnitude.minPlane α + e ≤ Magnitude.maxPlane α) (ha : counts a n)
    (hr : counts r (n % 2 ^ (e + 1))) (hle : 2 ^ e ≤ n % 2 ^ (e + 1)) :
    n % 2 ^ (e + 1) = n % 2 ^ e + 2 ^ e ∧
      counts (Magnitude.sub r (Magnitude.pow2 (Magnitude.minPlane α + e))) (n % 2 ^ e) := by
  obtain ⟨⟨low, hlow⟩, -⟩ := ExactPlanes.cut e ha
  rcases mod_two_pow_succ_cases n e with ⟨-, hsplit⟩ | ⟨hlt, -⟩
  · rw [hsplit] at hr
    exact ⟨hsplit, ExactPlanes.sub hr (ExactPlanes.pow2 e he) hlow⟩
  · omega

/-- Adding it to what is above is exact, too. -/
theorem counts_add_threshold {e n : Nat} {a r : α}
    (he : Magnitude.minPlane α + e ≤ Magnitude.maxPlane α) (ha : counts a n)
    (hr : counts r (n - n % 2 ^ (e + 1))) (hle : 2 ^ e ≤ n % 2 ^ (e + 1)) :
    n - n % 2 ^ (e + 1) + 2 ^ e = n - n % 2 ^ e ∧
      counts (Magnitude.add r (Magnitude.pow2 (Magnitude.minPlane α + e))) (n - n % 2 ^ e) := by
  obtain ⟨-, high, hhigh⟩ := ExactPlanes.cut e ha
  rcases mod_two_pow_succ_cases n e with ⟨-, hsplit⟩ | ⟨hlt, -⟩
  · have hmod := Nat.mod_le n (2 ^ (e + 1))
    have hsum : n - n % 2 ^ (e + 1) + 2 ^ e = n - n % 2 ^ e := by omega
    rw [← hsum] at hhigh ⊢
    exact ⟨rfl, ExactPlanes.add hr (ExactPlanes.pow2 e he) hhigh⟩
  · omega

/-- An encoder and one who follows its bits are in step: of each number `m i` the follower has the
bits down to some plane, with its sign if there are any, and the encoder has the rest. -/
structure InStep (dims : Extents) (signs : Array Bool) (m finest : Nat → Nat)
    (residuals : Array α) (k : Sketch α) : Prop where
  size_residuals : residuals.size = dims.volume
  size_magnitudes : k.magnitudes.size = dims.volume
  size_signs : k.signs.size = dims.volume
  number : ∀ i < dims.volume, ∃ a : α, counts a (m i)
  residual : ∀ i < dims.volume, counts (residuals.getD i Magnitude.zero) (m i % 2 ^ finest i)
  recovered : ∀ i < dims.volume,
    counts (k.magnitudes.getD i Magnitude.zero) (m i - m i % 2 ^ finest i)
  sign : ∀ i < dims.volume,
    k.signs.getD i true = if 2 ^ finest i ≤ m i then signs.getD i true else true

theorem getD_setIfInBounds {β : Type} (values : Array β) (i j : Nat) (v d : β)
    (h : i < values.size) :
    (values.setIfInBounds i v).getD j d = if j = i then v else values.getD j d := by
  simp only [Array.getD_eq_getD_getElem?, Array.getElem?_setIfInBounds]
  by_cases he : i = j
  · subst he
    simp [h]
  · simp [he, Ne.symm he]

theorem ext_getD {β : Type} (d : β) {values values' : Array β} (hsize : values.size = values'.size)
    (h : ∀ i < values.size, values.getD i d = values'.getD i d) : values = values' := by
  refine Array.ext hsize fun i hi hi' => ?_
  have hsame := h i hi
  rwa [Array.getD_eq_getD_getElem?, Array.getD_eq_getD_getElem?, Array.getElem?_eq_getElem hi,
    Array.getElem?_eq_getElem hi'] at hsame

theorem getD_modify {β : Type} (values : Array β) (i j : Nat) (f : β → β) (d : β)
    (h : i < values.size) :
    (values.modify i f).getD j d = if j = i then f (values.getD j d) else values.getD j d := by
  simp only [Array.getD_eq_getD_getElem?, Array.getElem?_modify]
  by_cases he : i = j
  · subst he
    simp [h]
  · simp [he, Ne.symm he]

namespace InStep

variable {dims : Extents} {signs : Array Bool} {m finest finest' : Nat → Nat}
  {residuals residuals' : Array α} {k k' : Sketch α}

theorem congr (h : InStep dims signs m finest residuals k)
    (hm : ∀ i < dims.volume, m i % 2 ^ finest' i = m i % 2 ^ finest i ∧
      (2 ^ finest' i ≤ m i ↔ 2 ^ finest i ≤ m i)) :
    InStep dims signs m finest' residuals k where
  size_residuals := h.size_residuals
  size_magnitudes := h.size_magnitudes
  size_signs := h.size_signs
  number := h.number
  residual i hi := by
    rw [(hm i hi).1]
    exact h.residual i hi
  recovered i hi := by
    rw [(hm i hi).1]
    exact h.recovered i hi
  sign i hi := by
    rw [h.sign i hi]
    simp only [(hm i hi).2]

theorem change {i : Nat} (h : InStep dims signs m finest residuals k)
    (hsr : residuals'.size = residuals.size) (hsm : k'.magnitudes.size = k.magnitudes.size)
    (hss : k'.signs.size = k.signs.size)
    (hne : ∀ j ≠ i, finest' j = finest j ∧
      residuals'.getD j Magnitude.zero = residuals.getD j Magnitude.zero ∧
      k'.magnitudes.getD j Magnitude.zero = k.magnitudes.getD j Magnitude.zero ∧
      k'.signs.getD j true = k.signs.getD j true)
    (hr : counts (residuals'.getD i Magnitude.zero) (m i % 2 ^ finest' i))
    (hd : counts (k'.magnitudes.getD i Magnitude.zero) (m i - m i % 2 ^ finest' i))
    (hb : k'.signs.getD i true = if 2 ^ finest' i ≤ m i then signs.getD i true else true) :
    InStep dims signs m finest' residuals' k' where
  size_residuals := hsr.trans h.size_residuals
  size_magnitudes := hsm.trans h.size_magnitudes
  size_signs := hss.trans h.size_signs
  number := h.number
  residual j hj := by
    by_cases he : j = i
    · exact he ▸ hr
    · obtain ⟨hf, hres, -, -⟩ := hne j he
      rw [hf, hres]
      exact h.residual j hj
  recovered j hj := by
    by_cases he : j = i
    · exact he ▸ hd
    · obtain ⟨hf, -, hrec, -⟩ := hne j he
      rw [hf, hrec]
      exact h.recovered j hj
  sign j hj := by
    by_cases he : j = i
    · exact he ▸ hb
    · obtain ⟨hf, -, -, hs⟩ := hne j he
      rw [hf, hs]
      exact h.sign j hj

end InStep

/-- What holds in the plane `e` as long as the encoder goes on. -/
structure Running (task : Encoder.Task α κ) (m : Nat → Nat) (e : Nat) (ph : Nat → Phase)
    (s : Encoder.State α κ × Sketch α) : Prop where
  room : task.limit.isReached s.1.bitCount = false
  inStep : InStep task.dims task.signs m (fun i => (ph i).finest e) s.1.residuals s.2
  found : ∀ i < task.dims.volume, ((ph i).isSignificant = true ↔ 2 ^ (ph i).finest e ≤ m i)

/-- What holds when the encoder is stopped. -/
def Stopped (task : Encoder.Task α κ) (m : Nat → Nat) (s : Encoder.State α κ × Sketch α) : Prop :=
  ∃ finest, InStep task.dims task.signs m finest s.1.residuals s.2

theorem InStep.finest_mark {dims : Extents} {signs : Array Bool} {m : Nat → Nat}
    {ph : Nat → Phase} {e i : Nat} {residuals residuals' : Array α} {k k' : Sketch α}
    (h : InStep dims signs m (fun j => (ph j).finest e) residuals k)
    (hsr : residuals'.size = residuals.size) (hsm : k'.magnitudes.size = k.magnitudes.size)
    (hss : k'.signs.size = k.signs.size)
    (hne : ∀ j ≠ i, residuals'.getD j Magnitude.zero = residuals.getD j Magnitude.zero ∧
      k'.magnitudes.getD j Magnitude.zero = k.magnitudes.getD j Magnitude.zero ∧
      k'.signs.getD j true = k.signs.getD j true)
    (hr : counts (residuals'.getD i Magnitude.zero) (m i % 2 ^ e))
    (hd : counts (k'.magnitudes.getD i Magnitude.zero) (m i - m i % 2 ^ e))
    (hb : k'.signs.getD i true = signs.getD i true) (hm : 2 ^ e ≤ m i) :
    InStep dims signs m (fun j => (mark ph [i] .done j).finest e) residuals' k' := by
  have hi : mark ph [i] .done i = .done := mark_of_mem (by simp)
  refine h.change hsr hsm hss (fun j hj => ⟨?_, hne j hj⟩) ?_ ?_ ?_
  · rw [mark_of_not_mem (by simpa using hj)]
  · rw [hi]
    exact hr
  · rw [hi]
    exact hd
  · rw [hi, Phase.finest, if_pos hm]
    exact hb

theorem found_mark {dims : Extents} {m : Nat → Nat} {ph : Nat → Phase} {e i : Nat}
    (h : ∀ j < dims.volume, ((ph j).isSignificant = true ↔ 2 ^ (ph j).finest e ≤ m j))
    (hm : 2 ^ e ≤ m i) (j : Nat) (hj : j < dims.volume) :
    (mark ph [i] .done j).isSignificant = true ↔
      2 ^ (mark ph [i] .done j).finest e ≤ m j := by
  by_cases he : j = i
  · rw [mark_of_mem (by simpa using he)]
    simpa [Phase.isSignificant, Phase.finest, he] using hm
  · rw [mark_of_not_mem (by simpa using he)]
    exact h j hj

theorem Running.lt_of_waiting {task : Encoder.Task α κ} {m : Nat → Nat} {e i : Nat}
    {ph : Nat → Phase} {s : Encoder.State α κ × Sketch α} (h : Running task m e ph s)
    (hi : i < task.dims.volume) (hph : ph i = .waiting) : m i < 2 ^ (e + 1) := by
  have hfound := (h.found i hi).not
  rw [hph] at hfound
  exact Nat.not_le.mp (hfound.mp Bool.false_ne_true)

theorem Running.yields {task : Encoder.Task α κ} {m : Nat → Nat} {e : Nat} {ph ph' : Nat → Phase}
    {s : Encoder.State α κ × Sketch α} {q : Int × Query} (h : Running task m e ph s)
    (hq : q.2.isImplied = false)
    (hin : InStep task.dims task.signs m (fun i => (ph' i).finest e)
      (Encoder.prepare task q.1 s.1 q.2).2.residuals
      (s.2.use q (Encoder.prepare task q.1 s.1 q.2).1))
    (hfound : ∀ i < task.dims.volume,
      ((ph' i).isSignificant = true ↔ 2 ^ (ph' i).finest e ≤ m i)) :
    (Encoder.followed task Sketch.use s q).Yields
      (fun b t => b = (Encoder.prepare task q.1 s.1 q.2).1 ∧ Running task m e ph' t)
      (Stopped task m) := by
  refine Encoder.followed_yields task Sketch.use hq h.room ⟨_, hin⟩ fun hroom => ⟨rfl, ?_⟩
  refine ⟨?_, hin, hfound⟩
  simpa only [Encoder.State.write, Encoder.bitCount_prepare] using hroom

section Steps

variable {task : Encoder.Task α κ} {m : Nat → Nat} {e : Nat} {ph : Nat → Phase}
  {s : Encoder.State α κ} {k : Sketch α}

theorem inStep_refinement {i : Nat} (he : Magnitude.minPlane α + e ≤ Magnitude.maxPlane α)
    (h : InStep task.dims task.signs m (fun j => (ph j).finest e) s.residuals k)
    (hi : i < task.dims.volume) (hph : ph i = .old) (hsig : 2 ^ (e + 1) ≤ m i) :
    InStep task.dims task.signs m (fun j => (mark ph [i] .done j).finest e)
      (Encoder.prepare task (Magnitude.minPlane α + e) s (.refinement i)).2.residuals
      (k.use (Magnitude.minPlane α + e, .refinement i)
        (Encoder.prepare task (Magnitude.minPlane α + e) s (.refinement i)).1) := by
  have hpow := ExactPlanes.pow2 (α := α) e he
  have hm : 2 ^ e ≤ m i := Nat.le_trans (Nat.pow_le_pow_right (by decide) (by omega)) hsig
  have hres : counts (s.residuals.getD i Magnitude.zero) (m i % 2 ^ (e + 1)) := by
    simpa only [hph, Phase.finest] using h.residual i hi
  have hrec : counts (k.magnitudes.getD i Magnitude.zero) (m i - m i % 2 ^ (e + 1)) := by
    simpa only [hph, Phase.finest] using h.recovered i hi
  have hsign : k.signs.getD i true = task.signs.getD i true := by
    have := h.sign i hi
    rwa [hph, Phase.finest, if_pos hsig] at this
  have hreach : Encoder.reaches (Magnitude.pow2 (Magnitude.minPlane α + e)) s.residuals i =
      decide (2 ^ e ≤ m i % 2 ^ (e + 1)) := ExactPlanes.reaches hres hpow
  obtain ⟨a, ha⟩ := h.number i hi
  have hir : i < s.residuals.size := by rw [h.size_residuals]; exact hi
  have him : i < k.magnitudes.size := by rw [h.size_magnitudes]; exact hi
  rcases mod_two_pow_succ_cases (m i) e with ⟨hle, -⟩ | ⟨hlt, hsplit⟩
  · simp only [Encoder.prepare, hreach, hle, decide_true, if_true, Encoder.reduce, Sketch.use]
    refine h.finest_mark (Array.size_setIfInBounds ..) (Array.size_modify ..) rfl
      (fun j hj => ⟨?_, ?_, rfl⟩) ?_ ?_ hsign hm
    · rw [getD_setIfInBounds _ _ _ _ _ hir, if_neg hj]
    · rw [getD_modify _ _ _ _ _ him, if_neg hj]
    · rw [getD_setIfInBounds _ _ _ _ _ hir, if_pos rfl]
      exact (counts_sub_threshold he ha hres hle).2
    · rw [getD_modify _ _ _ _ _ him, if_pos rfl]
      exact (counts_add_threshold he ha hrec hle).2
  · simp only [Encoder.prepare, hreach, Nat.not_le.mpr hlt, decide_false, Bool.false_eq_true,
      if_false, Sketch.use]
    rw [hsplit] at hres hrec
    exact h.finest_mark rfl rfl rfl (fun j _ => ⟨rfl, rfl, rfl⟩) hres hrec hsign hm

theorem inStep_sign {i : Nat} (he : Magnitude.minPlane α + e ≤ Magnitude.maxPlane α)
    (h : InStep task.dims task.signs m (fun j => (ph j).finest e) s.residuals k)
    (hi : i < task.dims.volume) (hph : ph i = .waiting) (hm : 2 ^ e ≤ m i)
    (hlt : m i < 2 ^ (e + 1)) :
    InStep task.dims task.signs m (fun j => (mark ph [i] .done j).finest e)
      (Encoder.prepare task (Magnitude.minPlane α + e) s (.sign i)).2.residuals
      (k.use (Magnitude.minPlane α + e, .sign i)
        (Encoder.prepare task (Magnitude.minPlane α + e) s (.sign i)).1) := by
  have hpow := ExactPlanes.pow2 (α := α) e he
  have hres : counts (s.residuals.getD i Magnitude.zero) (m i % 2 ^ (e + 1)) := by
    simpa only [hph, Phase.finest] using h.residual i hi
  obtain ⟨a, ha⟩ := h.number i hi
  have hir : i < s.residuals.size := by rw [h.size_residuals]; exact hi
  have him : i < k.magnitudes.size := by rw [h.size_magnitudes]; exact hi
  have his : i < k.signs.size := by rw [h.size_signs]; exact hi
  have hmod : m i % 2 ^ (e + 1) = m i := Nat.mod_eq_of_lt hlt
  obtain ⟨hsplit, hsub⟩ := counts_sub_threshold he ha hres (by rwa [hmod])
  have hhigh : m i - m i % 2 ^ e = 2 ^ e := by omega
  simp only [Encoder.prepare, Encoder.reduce, Sketch.use]
  refine h.finest_mark (Array.size_setIfInBounds ..) (Array.size_setIfInBounds ..)
    (Array.size_setIfInBounds ..) (fun j hj => ⟨?_, ?_, ?_⟩) ?_ ?_ ?_ hm
  · rw [getD_setIfInBounds _ _ _ _ _ hir, if_neg hj]
  · rw [getD_setIfInBounds _ _ _ _ _ him, if_neg hj]
  · rw [getD_setIfInBounds _ _ _ _ _ his, if_neg hj]
  · rw [getD_setIfInBounds _ _ _ _ _ hir, if_pos rfl]
    exact hsub
  · rw [getD_setIfInBounds _ _ _ _ _ him, if_pos rfl, hhigh]
    exact hpow
  · rw [getD_setIfInBounds _ _ _ _ _ his, if_pos rfl]

theorem prepare_significance {subject : Subject} (implied : Bool)
    (he : Magnitude.minPlane α + e ≤ Magnitude.maxPlane α)
    (h : InStep task.dims task.signs m (fun j => (ph j).finest e) s.residuals k)
    (hw : ∀ i ∈ subject.indices task.dims,
      i < task.dims.volume ∧ ph i = .waiting ∧ m i < 2 ^ (e + 1)) :
    (Encoder.prepare task (Magnitude.minPlane α + e) s (.significance subject implied)).1 =
      (subject.indices task.dims).any fun i => decide (2 ^ e ≤ m i) := by
  have hpow := ExactPlanes.pow2 (α := α) e he
  simp only [Encoder.prepare]
  rw [Subject.any_eq, Bool.eq_iff_iff, List.any_eq_true, List.any_eq_true]
  refine exists_congr fun i => and_congr_right fun hi => ?_
  obtain ⟨hlt, hph, hm⟩ := hw i hi
  have hres := h.residual i hlt
  simp only [hph, Phase.finest, Nat.mod_eq_of_lt hm] at hres
  exact (congrArg (· = true) (ExactPlanes.reaches hres hpow)).to_iff

end Steps

/-- In a plane that the type holds, an encoder and one who follows its bits stay in step. -/
theorem running_rule (task : Encoder.Task α κ) (m : Nat → Nat) (e : Nat)
    (he : Magnitude.minPlane α + e ≤ Magnitude.maxPlane α) :
    PlaneRule task.dims
      (fun s q => Encoder.followed task Sketch.use s (Magnitude.minPlane α + e, q))
      ⟨True, fun i => 2 ^ e ≤ m i⟩ (fun _ => Running task m e) (Stopped task m) where
  spend h _ := h
  refine {_ ph s i} h hi hph := by
    have hsig : 2 ^ (e + 1) ≤ m i := by
      have := (h.found i hi).mp (by rw [hph]; rfl)
      rwa [hph] at this
    have hm : 2 ^ e ≤ m i := Nat.le_trans (Nat.pow_le_pow_right (by decide) (by omega)) hsig
    exact (h.yields rfl (inStep_refinement he h.inStep hi hph hsig)
      (found_mark h.found hm)).mono fun _ _ hb => hb.2
  sign {_ ph s i} h hi hph hf := by
    obtain ⟨j, hj, hm⟩ := hf trivial
    rw [List.mem_singleton] at hj
    subst hj
    exact (h.yields rfl (inStep_sign he h.inStep hi hph hm (h.lt_of_waiting hi hph))
      (found_mark h.found hm)).mono fun _ _ hb => hb.2
  test {_ ph s subject implied} h hw hf := by
    have hlow : ∀ i ∈ subject.indices task.dims,
        i < task.dims.volume ∧ ph i = .waiting ∧ m i < 2 ^ (e + 1) := by
      intro i hi
      obtain ⟨hlt, hph⟩ := hw i hi
      exact ⟨hlt, hph, h.lt_of_waiting hlt hph⟩
    cases implied with
    | true =>
      have hreply : Encoder.followed task Sketch.use s
          (Magnitude.minPlane α + e, .significance subject true) = .answer true s := rfl
      rw [hreply]
      exact ⟨fun _ => rfl, fun _ => ⟨hf rfl, h⟩, fun hn => by cases hn⟩
    | false =>
      have hanswer := prepare_significance false he h.inStep hlow
      cases hany : (subject.indices task.dims).any fun i => decide (2 ^ e ≤ m i) with
      | true =>
        apply (h.yields (q := (_, .significance subject false)) rfl h.inStep h.found).mono
        intro b t h
        obtain ⟨hb, hr⟩ := h
        rw [hanswer, hany] at hb
        refine ⟨fun hn => Bool.noConfusion hn, fun _ => ⟨fun _ => ?_, hr⟩, fun hn => ?_⟩
        · simpa using hany
        · rw [hb] at hn
          cases hn
      | false =>
        -- None of the elements has this bit, which settles them down to this plane.
        have hcold : ∀ i ∈ subject.indices task.dims, m i < 2 ^ e := by
          intro i hi
          simpa using List.any_eq_false.mp hany i hi
        have hmark : ∀ i < task.dims.volume,
            m i % 2 ^ (mark ph (subject.indices task.dims) .cold i).finest e =
                m i % 2 ^ (ph i).finest e ∧
              (2 ^ (mark ph (subject.indices task.dims) .cold i).finest e ≤ m i ↔
                2 ^ (ph i).finest e ≤ m i) := by
          intro i hi
          by_cases hm : i ∈ subject.indices task.dims
          · obtain ⟨-, hph, hlt⟩ := hlow i hm
            have hc := hcold i hm
            rw [mark_of_mem hm, hph, Phase.finest, Phase.finest, Nat.mod_eq_of_lt hc,
              Nat.mod_eq_of_lt hlt]
            exact ⟨rfl, by omega⟩
          · rw [mark_of_not_mem hm]
            exact ⟨rfl, .rfl⟩
        have hfound : ∀ i < task.dims.volume,
            ((mark ph (subject.indices task.dims) .cold i).isSignificant = true ↔
              2 ^ (mark ph (subject.indices task.dims) .cold i).finest e ≤ m i) := by
          intro i hi
          rw [(hmark i hi).2, ← h.found i hi]
          by_cases hm : i ∈ subject.indices task.dims
          · rw [mark_of_mem hm, (hlow i hm).2.1]
            rfl
          · rw [mark_of_not_mem hm]
        refine (h.yields (q := (_, .significance subject false)) rfl (h.inStep.congr hmark)
          hfound).mono ?_
        intro b t h
        obtain ⟨hb, hr⟩ := h
        rw [hanswer, hany] at hb
        refine ⟨fun hn => Bool.noConfusion hn, fun hy => ?_, fun _ => ⟨fun _ i hi => ?_, hr⟩⟩
        · rw [hb] at hy
          cases hy
        · exact Nat.not_le.mpr (hcold i hi)

end Lockstep

end VolumeCodec
