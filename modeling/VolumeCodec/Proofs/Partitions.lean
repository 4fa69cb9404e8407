import VolumeCodec.Proofs.ArbitraryBits
import VolumeCodec.Proofs.BoxBounds

namespace VolumeCodec

/-- In how many places an element stands: how often it is listed as significant, whether it is listed
as insignificant, how many of the waiting boxes it belongs to, and whether the shell holds it. -/
def Progress.occurrences (p : Progress) (dims : Extents) (i : Nat) : Nat :=
  p.lists.significant.toList.count i + (if p.lists.insignificant.test i then 1 else 0) +
    p.lists.stored.countP (fun b => decide (i ∈ (Region.box b).indices dims)) +
    if i ∈ (Region.shell p.rest).indices dims then 1 else 0

/-- Every element of an array stands in exactly one place, and every box waits at its own level. -/
structure Progress.IsPartition (p : Progress) (dims : Extents) : Prop where
  once : ∀ i < dims.volume, p.occurrences dims i = 1
  waits : ∀ level, ∀ b ∈ (p.lists.boxesAt level).toList, b.WaitsAt level ∧ b.Within dims

theorem count_eq_ite_of_nodup {l : List Nat} (h : l.Nodup) (i : Nat) :
    l.count i = if i ∈ l then 1 else 0 := by
  split
  next hi => exact List.count_eq_one_of_mem h hi
  next hi => exact List.count_eq_zero_of_not_mem hi

/-- In boxes that have no element in common, an element is found as often as there are boxes that
hold it. -/
theorem count_places {dims : Extents} {boxes : List Box} (h : (places dims boxes).Nodup) (i : Nat) :
    (places dims boxes).count i =
      boxes.countP fun b => decide (i ∈ (Region.box b).indices dims) := by
  induction boxes with
  | nil => rfl
  | cons b rest ih =>
    rw [places_cons] at h ⊢
    obtain ⟨hb, hrest, -⟩ := List.nodup_append.mp h
    rw [List.count_append, count_eq_ite_of_nodup hb, ih hrest, List.countP_cons, Nat.add_comm]
    simp only [decide_eq_true_eq]

theorem Settled.isPartition {dims : Extents} {p : Progress} (h : Settled dims p)
    (hw : p.lists.Within dims) : p.IsPartition dims := by
  refine ⟨fun i hi => ?_, fun level b hb => ⟨h.stored level b hb, hw level b hb⟩⟩
  obtain ⟨-, hrest, -⟩ := h.disjoint
  obtain ⟨hmembers, hrest, -⟩ := List.nodup_append.mp hrest
  obtain ⟨hplaces, hshell, -⟩ := List.nodup_append.mp hrest
  have hcover := h.cover.count_eq i
  rw [List.count_append, List.count_append, List.count_append, count_eq_ite_of_nodup hmembers,
    count_places hplaces, count_eq_ite_of_nodup hshell, count_eq_ite_of_nodup List.nodup_range]
    at hcover
  simp only [IndexSet.mem_members, List.mem_range, hi, if_true] at hcover
  unfold Progress.occurrences
  omega

section Runs

variable {σ : Type} {dims : Extents} {reply : Int → σ → Query → Reply σ} {lowest : Int}
  {p p' : Progress} {s s' : σ}

/-- A run through some planes goes on where the run through the higher ones of them ends. -/
theorem conductPlanes_add (m n : Nat)
    (h : conductPlanes dims reply (lowest + m) n p s = (some p', s')) :
    conductPlanes dims reply lowest (m + n) p s = conductPlanes dims reply lowest m p' s' := by
  rw [conductPlanes_eq_conduct] at h
  rw [conductPlanes_eq_conduct, conductPlanes_eq_conduct, codePlanes_add, Dialogue.conduct_bind, h]

theorem conductPlanes_within {count : Nat} (hw : p.lists.Within dims)
    (h : conductPlanes dims reply lowest count p s = (some p', s')) : p'.lists.Within dims := by
  induction count generalizing p s with
  | zero =>
    cases h
    exact hw
  | succ n ih =>
    rw [conductPlanes] at h
    rcases hc : (codePlane dims p).conduct (reply (lowest + n)) s with ⟨_ | p'', s''⟩
    · rw [hc] at h
      cases h
    · rw [hc] at h
      exact ih ((codePlane_within hw).of_conduct hc) h

/-- Whoever answers the questions, if only what is implied is affirmed, the worklists are settled
before the first plane and after each one. -/
theorem conductPlanes_settled {count : Nat} (hd : dims.validate = .ok ())
    (himplied : ∀ {plane s subject b t},
      reply plane s (.significance subject true) = .answer b t → b = true)
    (h : conductPlanes dims reply lowest count (Progress.initial dims) s = (some p, s')) :
    Settled dims p := by
  obtain ⟨hsettled, -⟩ := Settled.initial hd
  let respond : σ → Int × Query → Reply σ := fun s q => reply q.1 s q.2
  have hrule : ∀ n < count, PlaneRule dims (fun s q => respond s (lowest + n, q))
      ⟨False, fun _ => False⟩ (fun _ _ _ => True) (fun _ => True) := fun n _ =>
    .of_replies (fun _ _ => trivial) himplied (fun _ _ _ _ => trivial) (fun _ _ _ => trivial)
  have hrun := codePlanes_ensures (s := s) (c := 0) (A := fun _ _ _ _ => True) hrule
    (fun _ _ p _ _ => ⟨fun i => if i ∈ p.lists.significant.toList then .old else .waiting,
      fun _ _ => rfl, trivial⟩) (fun _ _ _ _ _ _ _ => trivial) (Nat.le_refl _) hsettled trivial
  unfold Dialogue.Ensures at hrun
  rw [(conductPlanes_eq_conduct dims reply lowest count _ s).symm.trans h] at hrun
  exact hrun.1

/-- So the elements are partitioned then. -/
theorem conductPlanes_isPartition {count : Nat} (hd : dims.validate = .ok ())
    (himplied : ∀ {plane s subject b t},
      reply plane s (.significance subject true) = .answer b t → b = true)
    (h : conductPlanes dims reply lowest count (Progress.initial dims) s = (some p, s')) :
    p.IsPartition dims :=
  (conductPlanes_settled hd himplied h).isPartition (conductPlanes_within (.initial dims) h)

end Runs

theorem Encoder.reply_implied {α κ : Type} [Magnitude α] {task : Encoder.Task α κ} {plane : Int}
    {s t : Encoder.State α κ} {subject : Subject} {b : Bool}
    (h : Encoder.reply task plane s (.significance subject true) = .answer b t) : b = true := by
  cases h
  rfl

section Decoder

variable {α : Type} [Magnitude α]

theorem Decoder.reply_implied {limit : Nat} {plane : Int} {s t : Decoder.State α}
    {subject : Subject} {b : Bool}
    (h : Decoder.reply limit plane s (.significance subject true) = .answer b t) : b = true := by
  cases h
  rfl

/-- A decoder passes through the progress that it makes down to some plane. -/
theorem Decoder.run_of_runTo {dims : Extents} {limit : Nat} {highest lowest : Int} {tape : Tape}
    {p : Progress} {s : Decoder.State α} (hlow : Magnitude.minPlane α ≤ lowest)
    (hhigh : lowest ≤ highest + 1)
    (h : Decoder.runTo α dims limit highest lowest tape = (some p, s)) :
    Decoder.run dims limit highest tape =
      conductPlanes dims (Decoder.reply limit) (Magnitude.minPlane α)
        (planeCount (lowest - 1) (Magnitude.minPlane α)) p s := by
  have hcount : planeCount highest (Magnitude.minPlane α) =
      planeCount (lowest - 1) (Magnitude.minPlane α) + planeCount highest lowest := by
    unfold planeCount
    omega
  have hplane : lowest = Magnitude.minPlane α +
      (planeCount (lowest - 1) (Magnitude.minPlane α) : Nat) := by
    unfold planeCount
    omega
  unfold Decoder.run
  dsimp only
  rw [hcount]
  refine conductPlanes_add _ _ ?_
  rw [← hplane]
  exact h

end Decoder

/-- The elements of a decoder that are listed as significant are those with a magnitude. -/
theorem Decoder.runTo_found {n : Nat} {dims : Extents} (hd : dims.validate = .ok ()) {limit : Nat}
    {highest lowest : Int} (hn : highest < n) (hlow : 0 ≤ lowest) {tape : Tape} {p : Progress}
    {s : State (BitVec n)}
    (h : Decoder.runTo (BitVec n) dims limit highest lowest tape = (some p, s)) :
    ∀ i < dims.volume, s.magnitudes.getD i 0#n ≠ 0#n ↔ i ∈ p.lists.significant.toList := by
  obtain ⟨low, rfl⟩ := Int.eq_ofNat_of_zero_le hlow
  have hplanes : ∀ m < planeCount highest low, low + m < (highest + 1).toNat := by
    intro m hm
    unfold planeCount at hm
    omega
  have hrun := planes_keep (.sound hplanes (by omega : (highest + 1).toNat ≤ n)) limit tape hd
  have hplain : (codePlanes dims low (planeCount highest low) (Progress.initial dims)).conduct
      (respond limit) (State.initial (BitVec n) dims tape) = (some p, s) :=
    (conductPlanes_eq_conduct ..).symm.trans h
  unfold Dialogue.Ensures at hrun
  rw [hplain] at hrun
  obtain ⟨ph, hph, hr⟩ := hrun
  intro i hi
  refine (hr.found i hi).symm.trans ?_
  rw [hph i hi]
  split
  next hm => simp [Phase.isSignificant, hm]
  next hm => simp [Phase.isSignificant, hm]

/-- In every run through planes, whoever answers, each element stands in exactly one place before
the first plane and after each one that is completed: it is listed once as significant, or listed as
insignificant, or belongs to one box that waits, or lies in the shell. With integers that are
decoded from any bits, the significant elements are those that are not zero. -/
theorem elements_partitioned (w : Width) {dims : Extents} (hd : dims.validate = .ok ()) :
    (∀ {κ : Type} (signs : Array Bool) (limit : BitLimit) (goal : Goal (BitVec w.bits) κ)
      (magnitudes : Array (BitVec w.bits)) (highest lowest : Int) (p : Progress)
      (s : Encoder.State (BitVec w.bits) κ),
      Encoder.run ⟨dims, signs, limit, goal⟩ highest lowest magnitudes = (some p, s) →
        p.IsPartition dims) ∧
    ∀ (limit : Nat) (highest lowest : Int) (tape : Tape) (p : Progress)
      (s : Decoder.State (BitVec w.bits)), highest < w.bits → 0 ≤ lowest →
      Decoder.runTo (BitVec w.bits) dims limit highest lowest tape = (some p, s) →
        p.IsPartition dims ∧ ∀ i < dims.volume,
          s.magnitudes.getD i 0#w.bits ≠ 0#w.bits ↔ i ∈ p.lists.significant.toList := by
  refine ⟨fun signs limit goal magnitudes highest lowest p s h => ?_,
    fun limit highest lowest tape p s hn hlow h =>
      ⟨conductPlanes_isPartition hd Decoder.reply_implied h, Decoder.runTo_found hd hn hlow h⟩⟩
  unfold Encoder.run at h
  dsimp only at h
  split at h
  next => cases h
  next => exact conductPlanes_isPartition hd Encoder.reply_implied h

/-- The case of two bytes: the first of them is significant after the two highest planes, the other
one waits, in the encoder as in a decoder of three set bits. -/
theorem elements_partitioned_pair : (Axes.row 2).validate = .ok () ∧
    (∃ p s, Encoder.run (⟨Axes.row 2, #[true, false], none, .never⟩ :
        Encoder.Task (BitVec 8) Unit) 2 1 #[5#8, 1#8] = (some p, s) ∧
      p.IsPartition (Axes.row 2) ∧ p.lists.significant.toList = [0]) ∧
    ∃ p s, Decoder.runTo (BitVec 8) (Axes.row 2) 20 2 1 (Tape.ofBits [7] 8) = (some p, s) ∧
      p.IsPartition (Axes.row 2) ∧ p.lists.significant.toList = [0] ∧
      s.magnitudes.getD 0 0#8 ≠ 0#8 := by
  have hd : (Axes.row 2).validate = .ok () := rfl
  obtain ⟨hencoder, hdecoder⟩ := elements_partitioned .w8 hd
  have hwritten : ((Encoder.run (⟨Axes.row 2, #[true, false], none, .never⟩ :
      Encoder.Task (BitVec 8) Unit) 2 1 #[5#8, 1#8]).1.map fun p =>
        p.lists.significant.toList) = some [0] := by decide +kernel
  have hread : ((Decoder.runTo (BitVec 8) (Axes.row 2) 20 2 1 (Tape.ofBits [7] 8)).1.map fun p =>
      p.lists.significant.toList) = some [0] := by decide +kernel
  refine ⟨hd, ?_, ?_⟩
  · rcases hrun : Encoder.run (⟨Axes.row 2, #[true, false], none, .never⟩ :
      Encoder.Task (BitVec 8) Unit) 2 1 #[5#8, 1#8] with ⟨_ | p, s⟩
    · rw [hrun] at hwritten
      cases hwritten
    · rw [hrun] at hwritten
      exact ⟨p, s, rfl, hencoder _ _ _ _ _ _ p s hrun, Option.some.inj hwritten⟩
  · rcases hrun : Decoder.runTo (BitVec 8) (Axes.row 2) 20 2 1 (Tape.ofBits [7] 8)
      with ⟨_ | p, s⟩
    · rw [hrun] at hread
      cases hread
    · rw [hrun] at hread
      obtain ⟨hpart, hfound⟩ := hdecoder 20 2 1 _ p s (by decide) (by decide) hrun
      have hlist : p.lists.significant.toList = [0] := Option.some.inj hread
      exact ⟨p, s, rfl, hpart, hlist, (hfound 0 (by decide)).mpr (by rw [hlist]; simp)⟩

end VolumeCodec
