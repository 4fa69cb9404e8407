import Mathlib
import VolumeCodec.Proofs.History

namespace VolumeCodec

/-- A number without its bits below a plane. -/
def clearBelow {n : Nat} (plane : Nat) (a : BitVec n) : BitVec n :=
  a >>> plane <<< plane

theorem toNat_clearBelow {n : Nat} (plane : Nat) (a : BitVec n) :
    (clearBelow plane a).toNat = a.toNat - a.toNat % 2 ^ plane := by
  have hsplit := Nat.div_add_mod' a.toNat (2 ^ plane)
  have hlt := a.isLt
  rw [clearBelow, BitVec.toNat_shiftLeft, BitVec.toNat_ushiftRight, Nat.shiftRight_eq_div_pow,
    Nat.shiftLeft_eq, Nat.mod_eq_of_lt (by omega)]
  omega

/-- An element of an array with its sign. -/
def signedAt {n : Nat} (magnitudes : Array (BitVec n)) (signs : Array Bool) (i : Nat) : Int :=
  if signs.getD i true then (magnitudes.getD i 0#n).toNat else -(magnitudes.getD i 0#n).toNat

/-- How far an element that was recovered is from the one that was coded. -/
def Decoded.errorAt {n : Nat} (d : Decoded (BitVec n)) (magnitudes : Array (BitVec n))
    (signs : Array Bool) (i : Nat) : Nat :=
  (signedAt magnitudes signs i - signedAt d.magnitudes d.signs i).natAbs

/-- The greatest error of all elements. -/
def Decoded.worstError {n : Nat} (d : Decoded (BitVec n)) (magnitudes : Array (BitVec n))
    (signs : Array Bool) : Nat :=
  (Finset.range magnitudes.size).sup (d.errorAt magnitudes signs)

/-- What has become of an element after bits of the plane `p`, but of none below: all its bits down
to this plane are there, or all down to the plane above, and its sign if any of them is. -/
structure Decoded.IsCutAt {n : Nat} (d : Decoded (BitVec n)) (magnitudes : Array (BitVec n))
    (signs : Array Bool) (p i : Nat) : Prop where
  value : d.magnitudes.getD i 0#n = clearBelow p (magnitudes.getD i 0#n) ∨
    d.magnitudes.getD i 0#n = clearBelow (p + 1) (magnitudes.getD i 0#n)
  le : d.magnitudes.getD i 0#n ≤ magnitudes.getD i 0#n
  error : d.errorAt magnitudes signs i < 2 ^ (p + 1)
  sign : d.magnitudes.getD i 0#n ≠ 0#n → d.signs.getD i true = signs.getD i true

section Cut

variable {α : Type} [Magnitude α] [ExactPlanes α] {dims : Extents} {signs : Array Bool}
  {m finest : Nat → Nat} {highest : Int} {bits : List Bool} {n n₁ n₂ : Nat} {k : Sketch α}
  {x y : Turn (Sketch α) (Int × Query)}

/-- The plane of the last bit that is used says how much there is of each number. -/
theorem Moment.plane_of_last
    (h : Moment dims signs m finest ((Trail.ofBits α dims highest bits).take n) k)
    (hn : n ≤ (Trail.ofBits α dims highest bits).length) (hpos : 0 < n)
    (hx : (Trail.ofBits α dims highest bits)[n - 1]? = some x) :
    ∃ e : Nat, x.question.1 = Magnitude.minPlane α + e ∧
      ∀ i < dims.volume, finest i = e ∨ finest i = e + 1 := by
  apply h.plane
  rw [List.getLast?_eq_getElem?, List.length_take, Nat.min_eq_left hn,
    List.getElem?_take_of_lt (by omega), hx]

/-- There is nothing yet of an element of which the next bit is the sign. -/
theorem Unfolds.lt_of_pending (h : Unfolds dims signs m highest α bits)
    (hmoment : Moment dims signs m finest ((Trail.ofBits α dims highest bits).take n) k)
    (hy : (Trail.ofBits α dims highest bits)[n]? = some y) {i : Nat} (hi : i < dims.volume)
    (hsign : y.question.2.signed? = some i) : m i < 2 ^ finest i := by
  refine Nat.lt_of_not_le fun hle => ?_
  have hbefore := (hmoment.signed i hi).mpr hle
  have hafter : i ∈ signedElements
      (((Trail.ofBits α dims highest bits).drop n).map Turn.question) := by
    obtain ⟨hlt, rfl⟩ := List.getElem?_eq_some_iff.mp hy
    rw [List.drop_eq_getElem_cons hlt]
    exact List.mem_filterMap.mpr ⟨_, List.mem_cons_self, hsign⟩
  have hnodup := h.nodup
  rw [← List.take_append_drop n (Trail.ofBits α dims highest bits), List.map_append,
    signedElements_append, List.nodup_append] at hnodup
  exact hnodup.2.2 i hbefore i hafter rfl

/-- More bits show everything that fewer of them show. -/
theorem Unfolds.grows (h : Unfolds dims signs m highest α bits) (hn₁ : n₁ ≤ n₂)
    (hn₂ : n₂ ≤ bits.length) :
    ∃ coarser finer, Shows dims signs m coarser (Sketch.ofBits α dims highest (bits.take n₁)) ∧
      Shows dims signs m finer (Sketch.ofBits α dims highest (bits.take n₂)) ∧
      ∀ i < dims.volume, finer i ≤ coarser i := by
  obtain ⟨finer, hmoment⟩ := h.moment n₂ hn₂
  rcases Nat.lt_or_eq_of_le hn₁ with hlt | rfl
  · have hlen := h.length
    obtain ⟨x, hx⟩ : ∃ x, (Trail.ofBits α dims highest bits)[n₁]? = some x :=
      ⟨_, List.getElem?_eq_getElem (by omega)⟩
    have hmem : x ∈ (Trail.ofBits α dims highest bits).take n₂ :=
      List.mem_of_getElem? ((List.getElem?_take_of_lt hlt).trans hx)
    obtain ⟨coarser, hshows, hle⟩ := hmoment.grown x hmem
    rw [before_trail hx] at hshows
    exact ⟨coarser, finer, hshows, hmoment.shows, hle⟩
  · exact ⟨finer, finer, hmoment.shows, hmoment.shows, fun _ _ => Nat.le_refl _⟩

end Cut

section Integers

variable {w : Width} {dims : Extents} {magnitudes : Array (BitVec w.bits)} {signs : Array Bool}
  {finest : Nat → Nat} {highest : Int} {bits : List Bool} {i : Nat}

theorem Shows.magnitude
    (h : Shows dims signs (fun i => (magnitudes.getD i 0#w.bits).toNat) finest
      (Sketch.ofBits (BitVec w.bits) dims highest bits)) (hi : i < dims.volume) :
    (Decoded.ofBits (BitVec w.bits) dims highest bits).magnitudes.getD i 0#w.bits =
      clearBelow (finest i) (magnitudes.getD i 0#w.bits) :=
  BitVec.eq_of_toNat_eq ((h.integer hi).1.trans (toNat_clearBelow _ _).symm)

/-- Only what shows has a sign, and it is the right one. -/
theorem Shows.sign_of_ne_zero
    (h : Shows dims signs (fun i => (magnitudes.getD i 0#w.bits).toNat) finest
      (Sketch.ofBits (BitVec w.bits) dims highest bits)) (hi : i < dims.volume)
    (hne : (Decoded.ofBits (BitVec w.bits) dims highest bits).magnitudes.getD i 0#w.bits ≠
      0#w.bits) :
    (Decoded.ofBits (BitVec w.bits) dims highest bits).signs.getD i true =
      signs.getD i true := by
  obtain ⟨hmagnitude, hsign⟩ := h.integer hi
  have hle : 2 ^ finest i ≤ (magnitudes.getD i 0#w.bits).toNat := by
    refine Nat.le_of_not_lt fun hlt => hne (BitVec.eq_of_toNat_eq ?_)
    rw [Nat.mod_eq_of_lt hlt, Nat.sub_self] at hmagnitude
    exact hmagnitude.trans BitVec.toNat_zero.symm
  exact hsign.trans (if_pos hle)

/-- The error is what does not show. -/
theorem Shows.errorAt
    (h : Shows dims signs (fun i => (magnitudes.getD i 0#w.bits).toNat) finest
      (Sketch.ofBits (BitVec w.bits) dims highest bits)) (hi : i < dims.volume) :
    (Decoded.ofBits (BitVec w.bits) dims highest bits).errorAt magnitudes signs i =
      (magnitudes.getD i 0#w.bits).toNat % 2 ^ finest i := by
  obtain ⟨hmagnitude, hsign⟩ := h.integer hi
  change ((Decoded.ofBits (BitVec w.bits) dims highest bits).magnitudes.getD i 0#w.bits).toNat = _
    at hmagnitude
  change (Decoded.ofBits (BitVec w.bits) dims highest bits).signs.getD i true = _ at hsign
  have hle := Nat.mod_le (magnitudes.getD i 0#w.bits).toNat (2 ^ finest i)
  rw [Decoded.errorAt, signedAt, signedAt, hmagnitude, hsign]
  by_cases hshown : 2 ^ finest i ≤ (magnitudes.getD i 0#w.bits).toNat
  · rw [if_pos hshown]
    split <;> omega
  · rw [if_neg hshown, Nat.mod_eq_of_lt (Nat.lt_of_not_le hshown), if_pos rfl]
    split <;> omega

theorem Shows.isCutAt {p : Nat}
    (h : Shows dims signs (fun i => (magnitudes.getD i 0#w.bits).toNat) finest
      (Sketch.ofBits (BitVec w.bits) dims highest bits)) (hi : i < dims.volume)
    (hp : finest i = p ∨ finest i = p + 1) :
    (Decoded.ofBits (BitVec w.bits) dims highest bits).IsCutAt magnitudes signs p i where
  value := by
    rw [h.magnitude hi]
    exact hp.imp (fun he => by rw [he]) (fun he => by rw [he])
  le := by
    rw [h.magnitude hi, BitVec.le_def, toNat_clearBelow]
    exact Nat.sub_le _ _
  error := by
    rw [h.errorAt hi]
    have hlt := Nat.mod_lt (magnitudes.getD i 0#w.bits).toNat (Nat.two_pow_pos (finest i))
    exact Nat.lt_of_lt_of_le hlt (Nat.pow_le_pow_right (by decide) (by omega))
  sign := h.sign_of_ne_zero hi

theorem mod_two_pow_le {n e₁ e₂ : Nat} (h : e₂ ≤ e₁) : n % 2 ^ e₂ ≤ n % 2 ^ e₁ := by
  rw [← Nat.mod_mod_of_dvd n (Nat.pow_dvd_pow 2 h)]
  exact Nat.mod_le _ _

/-- What shows down to a lower plane is not smaller, and not further off. -/
theorem Shows.le_of_finer {finer : Nat → Nat} {more : List Bool}
    (h : Shows dims signs (fun i => (magnitudes.getD i 0#w.bits).toNat) finest
      (Sketch.ofBits (BitVec w.bits) dims highest bits))
    (h' : Shows dims signs (fun i => (magnitudes.getD i 0#w.bits).toNat) finer
      (Sketch.ofBits (BitVec w.bits) dims highest more))
    (hi : i < dims.volume) (hle : finer i ≤ finest i) :
    (Decoded.ofBits (BitVec w.bits) dims highest bits).magnitudes.getD i 0#w.bits ≤
        (Decoded.ofBits (BitVec w.bits) dims highest more).magnitudes.getD i 0#w.bits ∧
      (Decoded.ofBits (BitVec w.bits) dims highest more).errorAt magnitudes signs i ≤
        (Decoded.ofBits (BitVec w.bits) dims highest bits).errorAt magnitudes signs i := by
  have hmod := mod_two_pow_le (n := (magnitudes.getD i 0#w.bits).toNat) hle
  rw [h.magnitude hi, h'.magnitude hi, h.errorAt hi, h'.errorAt hi, BitVec.le_def,
    toNat_clearBelow, toNat_clearBelow]
  exact ⟨Nat.sub_le_sub_left hmod _, hmod⟩

theorem clearBelow_eq_zero {n p : Nat} {a : BitVec n} (h : a.toNat < 2 ^ p) :
    clearBelow p a = 0#n := by
  apply BitVec.eq_of_toNat_eq
  rw [toNat_clearBelow, Nat.mod_eq_of_lt h, Nat.sub_self, BitVec.toNat_zero]

end Integers

/-- The first bits of integers that are coded without loss give every number without its bits below
the plane `p` of the last of these bits, or without its bits below the plane above: nothing at all,
if all that is missing of the number is its sign. All numbers are cut off at the plane `p` if it is
complete. -/
theorem truncated_decoding (w : Width) {dims : Extents} {magnitudes : Array (BitVec w.bits)}
    {signs : Array Bool} (hd : dims.validate = .ok ()) (hm : magnitudes.size = dims.volume)
    (hs : signs.size = dims.volume) (t : Tape) :
    ∃ (info : Outline) (full : Tape) (asked : List (Int × Query)),
      (encode .unbounded ⟨dims, signs, none, .never⟩ magnitudes).on t = (.ok info, full) ∧
      asked = Encoder.transcript (⟨dims, signs, none, .never⟩ : Encoder.Task _ Unit) magnitudes ∧
      asked.length = info.bitCount ∧
      ∀ b, 1 ≤ b → b ≤ info.bitCount →
        ∃ (p : Nat) (q : Query) (d : Decoded (BitVec w.bits)),
          asked[b - 1]? = some ((p : Int), q) ∧
          ((decode .unbounded info (some b)).on full).1 = .ok d ∧ d.bitCount = b ∧
          d.magnitudes.size = dims.volume ∧ d.signs.size = dims.volume ∧
          (∀ i < dims.volume, d.IsCutAt magnitudes signs p i) ∧
          (∀ i < dims.volume, ∀ p', asked[b]? = some (p', .sign i) →
            d.magnitudes.getD i 0#w.bits = 0#w.bits ∧
              clearBelow (p + 1) (magnitudes.getD i 0#w.bits) = 0#w.bits) ∧
          ((∀ p' q', asked[b]? = some (p', q') → p' ≠ p) → ∀ i < dims.volume,
            d.magnitudes.getD i 0#w.bits = clearBelow p (magnitudes.getD i 0#w.bits)) := by
  let all : Encoder.Task (BitVec w.bits) Unit := ⟨dims, signs, none, .never⟩
  let trail := Trail.ofBits (BitVec w.bits) dims (topPlane magnitudes).toInt
    (Encoder.written all magnitudes)
  have hunfolds : Unfolds dims signs _ _ _ (Encoder.written all magnitudes) :=
    unfolds_written signs hd (counted_integers hm)
  have hasked : Encoder.transcript all magnitudes = trail.map Turn.question :=
    Encoder.transcript_eq_turns all magnitudes Sketch.use (Sketch.blank _ dims)
  have hnext : ∀ n, (Encoder.transcript all magnitudes)[n]? = trail[n]?.map Turn.question :=
    fun n => by rw [hasked, List.getElem?_map]
  have hlen : trail.length = (Encoder.written all magnitudes).length := hunfolds.length
  refine ⟨_, _, _, encode_on all magnitudes t hd hm hs, rfl, ?_, fun b hpos hb => ?_⟩
  · rw [← List.length_map (f := Turn.question), ← hasked] at hlen
    exact hlen
  change b ≤ (Encoder.written all magnitudes).length at hb
  obtain ⟨finest, hmoment⟩ := hunfolds.moment b hb
  obtain ⟨x, hx⟩ : ∃ x, trail[b - 1]? = some x := ⟨_, List.getElem?_eq_getElem (by omega)⟩
  obtain ⟨p, hplane, hfinest⟩ :=
    hmoment.plane_of_last (Nat.le_trans hb (Nat.le_of_eq hlen.symm)) hpos hx
  have hp : x.question.1 = p := hplane.trans (Int.zero_add _)
  refine ⟨p, x.question.2, _, ?_, decode_recorded all magnitudes hd t hb, ?_,
    hmoment.shows.size.1, hmoment.shows.size.2,
    fun i hi => hmoment.shows.isCutAt hi (hfinest i hi), fun i hi p' hsign => ?_,
    fun hlast i hi => ?_⟩
  · rw [hnext, hx, Option.map_some, ← hp]
  · rw [Decoded.ofBits, List.length_take, Nat.min_eq_left hb]
  · obtain ⟨y, hy, hquestion⟩ := Option.map_eq_some_iff.mp ((hnext b).symm.trans hsign)
    have hpending := hunfolds.lt_of_pending hmoment hy hi (by rw [hquestion]; rfl)
    refine ⟨(hmoment.shows.magnitude hi).trans (clearBelow_eq_zero hpending),
      clearBelow_eq_zero (Nat.lt_of_lt_of_le hpending ?_)⟩
    exact Nat.pow_le_pow_right (by decide) (by have := hfinest i hi; omega)
  · obtain ⟨e, hplane', hshows⟩ := hunfolds.complete (b - 1) x hx fun y hy hne => by
      rw [Nat.sub_add_cancel hpos] at hy
      have hy' := (hnext b).trans (congrArg (Option.map Turn.question) hy)
      exact hlast _ _ hy' (hne.symm.trans hp)
    rw [Nat.sub_add_cancel hpos] at hshows
    have he : e = p := by
      have := hplane.symm.trans hplane'
      omega
    subst he
    exact hshows.magnitude hi

/-- The case of two bytes, of which the first has its highest bit in the plane 2. -/
theorem truncated_decoding_pair :
    (Axes.row 2).validate = .ok () ∧ ∃ (info : Outline) (full : Tape),
      (encode .unbounded ⟨Axes.row 2, #[false, true], none, .never⟩ #[5#8, 1#8]).on .empty =
        (.ok info, full) ∧
      ∀ b, 1 ≤ b → b ≤ info.bitCount → ∃ (p : Nat) (d : Decoded (BitVec 8)),
        ((decode .unbounded info (some b)).on full).1 = .ok d ∧
        ∀ i < 2, d.IsCutAt #[5#8, 1#8] #[false, true] p i := by
  obtain ⟨info, full, asked, hinfo, -, -, hcut⟩ :=
    @truncated_decoding .w8 (Axes.row 2) #[5#8, 1#8] #[false, true] rfl rfl rfl .empty
  refine ⟨rfl, info, full, hinfo, fun b hpos hb => ?_⟩
  obtain ⟨p, -, d, -, hd, -, -, -, hall, -⟩ := hcut b hpos hb
  exact ⟨p, d, hd, hall⟩

/-- More bits of integers never take anything back: no number gets smaller, and none that shows
changes its sign. So no error grows, and neither does the greatest one. -/
theorem truncated_decoding_mono (w : Width) {dims : Extents} {magnitudes : Array (BitVec w.bits)}
    {signs : Array Bool} (hd : dims.validate = .ok ()) (hm : magnitudes.size = dims.volume)
    (hs : signs.size = dims.volume) (t : Tape) :
    ∃ (info : Outline) (full : Tape),
      (encode .unbounded ⟨dims, signs, none, .never⟩ magnitudes).on t = (.ok info, full) ∧
      ∀ b₁ b₂, b₁ ≤ b₂ → b₂ ≤ info.bitCount → ∃ d₁ d₂ : Decoded (BitVec w.bits),
        ((decode .unbounded info (some b₁)).on full).1 = .ok d₁ ∧ d₁.bitCount = b₁ ∧
        ((decode .unbounded info (some b₂)).on full).1 = .ok d₂ ∧ d₂.bitCount = b₂ ∧
        d₁.magnitudes.size = dims.volume ∧ d₂.magnitudes.size = dims.volume ∧
        (∀ i < dims.volume,
          d₁.magnitudes.getD i 0#w.bits ≤ d₂.magnitudes.getD i 0#w.bits ∧
          d₂.magnitudes.getD i 0#w.bits ≤ magnitudes.getD i 0#w.bits ∧
          (d₁.magnitudes.getD i 0#w.bits ≠ 0#w.bits →
            d₁.signs.getD i true = d₂.signs.getD i true ∧
            d₂.signs.getD i true = signs.getD i true) ∧
          d₂.errorAt magnitudes signs i ≤ d₁.errorAt magnitudes signs i) ∧
        d₂.worstError magnitudes signs ≤ d₁.worstError magnitudes signs := by
  let all : Encoder.Task (BitVec w.bits) Unit := ⟨dims, signs, none, .never⟩
  have hunfolds : Unfolds dims signs _ _ _ (Encoder.written all magnitudes) :=
    unfolds_written signs hd (counted_integers hm)
  refine ⟨_, _, encode_on all magnitudes t hd hm hs, fun b₁ b₂ hle hb => ?_⟩
  change b₂ ≤ (Encoder.written all magnitudes).length at hb
  obtain ⟨coarser, finer, hshows₁, hshows₂, hfiner⟩ := hunfolds.grows hle hb
  have hboth : ∀ i < dims.volume, _ := fun i hi => hshows₁.le_of_finer hshows₂ hi (hfiner i hi)
  have hcount : ∀ b ≤ b₂, (Decoded.ofBits (BitVec w.bits) dims (topPlane magnitudes).toInt
      ((Encoder.written all magnitudes).take b)).bitCount = b := fun b hle => by
    rw [Decoded.ofBits, List.length_take, Nat.min_eq_left (Nat.le_trans hle hb)]
  refine ⟨_, _, decode_recorded all magnitudes hd t (Nat.le_trans hle hb), hcount b₁ hle,
    decode_recorded all magnitudes hd t hb, hcount b₂ (Nat.le_refl _), hshows₁.size.1,
    hshows₂.size.1, fun i hi => ?_, ?_⟩
  · obtain ⟨hmagnitude, herror⟩ := hboth i hi
    refine ⟨hmagnitude, ?_, fun hne => ?_, herror⟩
    · rw [hshows₂.magnitude hi, BitVec.le_def, toNat_clearBelow]
      exact Nat.sub_le _ _
    · have hsign := hshows₂.sign_of_ne_zero hi fun hz => by
        rw [hz] at hmagnitude
        exact hne (BitVec.le_zero_iff.mp hmagnitude)
      exact ⟨(hshows₁.sign_of_ne_zero hi hne).trans hsign.symm, hsign⟩
  · refine Finset.sup_mono_fun fun i hi => (hboth i ?_).2
    rw [← hm]
    exact Finset.mem_range.mp hi

/-- The case of two bytes. -/
theorem truncated_decoding_mono_pair :
    (Axes.row 2).validate = .ok () ∧ ∃ (info : Outline) (full : Tape),
      (encode .unbounded ⟨Axes.row 2, #[false, true], none, .never⟩ #[5#8, 1#8]).on .empty =
        (.ok info, full) ∧
      ∀ b₁ b₂, b₁ ≤ b₂ → b₂ ≤ info.bitCount → ∃ d₁ d₂ : Decoded (BitVec 8),
        ((decode .unbounded info (some b₁)).on full).1 = .ok d₁ ∧
        ((decode .unbounded info (some b₂)).on full).1 = .ok d₂ ∧
        d₂.worstError #[5#8, 1#8] #[false, true] ≤ d₁.worstError #[5#8, 1#8] #[false, true] := by
  obtain ⟨info, full, hinfo, hall⟩ :=
    @truncated_decoding_mono .w8 (Axes.row 2) #[5#8, 1#8] #[false, true] rfl rfl rfl .empty
  refine ⟨rfl, info, full, hinfo, fun b₁ b₂ hle hb => ?_⟩
  obtain ⟨d₁, d₂, hd₁, -, hd₂, -, -, -, -, hworst⟩ := hall b₁ b₂ hle hb
  exact ⟨d₁, d₂, hd₁, hd₂, hworst⟩

end VolumeCodec
