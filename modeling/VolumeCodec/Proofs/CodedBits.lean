import VolumeCodec.Proofs.DecoderBits
import VolumeCodec.Proofs.PlaneRange

namespace VolumeCodec

variable {α κ : Type} [Magnitude α]

namespace Encoder

/-- An encoder before the first plane. -/
def State.initial (task : Task α κ) (magnitudes : Array α) : State α κ :=
  { residuals := magnitudes, missing := task.goal.start magnitudes }

/-- The bits that the coding of an array comes to. -/
def written (task : Task α κ) (magnitudes : Array α) : List Bool :=
  (run task (topPlane magnitudes).toInt (lowestPlane magnitudes).toInt magnitudes).2.bits.reverse

/-- The planes that hold a bit of an array, as one dialogue. -/
def ownPlanes (task : Task α κ) (magnitudes : Array α) : Dialogue (Int × Query) Progress :=
  codePlanes task.dims (lowestPlane magnitudes).toInt
    (planeCount (topPlane magnitudes).toInt (lowestPlane magnitudes).toInt)
    (Progress.initial task.dims)

/-- Either the goal is met at the outset, or all planes are coded one after the other. -/
theorem run_cases (task : Task α κ) (magnitudes : Array α) :
    (run task (topPlane magnitudes).toInt (lowestPlane magnitudes).toInt magnitudes =
        (none, State.initial task magnitudes) ∧
      task.goal.met (task.goal.start magnitudes) = true) ∨
    run task (topPlane magnitudes).toInt (lowestPlane magnitudes).toInt magnitudes =
      (ownPlanes task magnitudes).conduct (respond task) (State.initial task magnitudes) := by
  unfold run
  dsimp only
  split
  next h => exact .inl ⟨rfl, h.2⟩
  next => exact .inr (conductPlanes_eq_conduct ..)

theorem written_spec (task : Task α κ) (magnitudes : Array α) :
    (run task (topPlane magnitudes).toInt (lowestPlane magnitudes).toInt magnitudes).2.bitCount =
        (written task magnitudes).length ∧
      (ownPlanes task magnitudes).Exhausts isFree (written task magnitudes) := by
  unfold written
  rcases run_cases task magnitudes with ⟨h, -⟩ | h
  · rw [h]
    exact ⟨rfl, congrArg Prod.fst (Dialogue.follow_of_no_bits _ _)⟩
  · obtain ⟨written, hbits, hcount, hrest, -⟩ := followed_eq_follow task (fun _ _ _ => ())
      (ownPlanes task magnitudes) (State.initial task magnitudes) ()
    rw [h, conduct_followed task (fun _ _ _ => ()) _ _ ()]
    dsimp only
    have hw : (State.initial task magnitudes).bits = [] := rfl
    rw [hbits, hcount, hw, List.append_nil, List.reverse_reverse]
    exact ⟨Nat.zero_add _, congrArg Prod.fst hrest⟩

theorem run_never {task : Task α Unit} (hg : task.goal = .never) (magnitudes : Array α) :
    run task (topPlane magnitudes).toInt (lowestPlane magnitudes).toInt magnitudes =
      (ownPlanes task magnitudes).conduct (respond task) (State.initial task magnitudes) := by
  rcases run_cases task magnitudes with ⟨-, h⟩ | h
  · rw [hg] at h
    cases h
  · exact h

/-- Who is given the bits afterwards makes the same of them as a follower who was told each of them
when it was written. -/
theorem follow_of_run {τ : Type} {task : Task α κ} {magnitudes : Array α}
    (hrun : run task (topPlane magnitudes).toInt (lowestPlane magnitudes).toInt magnitudes =
      (ownPlanes task magnitudes).conduct (respond task) (State.initial task magnitudes))
    (use : τ → Int × Query → Bool → τ) (t : τ) :
    ((ownPlanes task magnitudes).follow isFree use (written task magnitudes) t).2.2 =
      ((ownPlanes task magnitudes).conduct (followed task use)
        (State.initial task magnitudes, t)).2.2 := by
  obtain ⟨bits, hbits, -, hrest, -⟩ := followed_eq_follow task use (ownPlanes task magnitudes)
    (State.initial task magnitudes) t
  have hw : (State.initial task magnitudes).bits = [] := rfl
  have heq : written task magnitudes = bits := by
    unfold written
    rw [hrun, conduct_followed task use _ _ t]
    dsimp only
    rw [hbits, hw, List.append_nil, List.reverse_reverse]
  rw [heq, hrest]

theorem follow_ownPlanes {τ : Type} {task : Task α Unit} (hg : task.goal = .never)
    (magnitudes : Array α) (use : τ → Int × Query → Bool → τ) (t : τ) :
    ((ownPlanes task magnitudes).follow isFree use (written task magnitudes) t).2.2 =
      ((ownPlanes task magnitudes).conduct (followed task use)
        (State.initial task magnitudes, t)).2.2 :=
  follow_of_run (run_never hg magnitudes) use t

/-- Whatever stops an encoder, the bits before are those that are written without it. -/
theorem written_prefix (task : Task α κ) (magnitudes : Array α) :
    ∃ more, written task.unlimited magnitudes = written task magnitudes ++ more := by
  have hall := run_never (rfl : task.unlimited.goal = .never) magnitudes
  have hbits := conduct_unlimited task (ownPlanes task magnitudes)
    (State.initial task magnitudes) (State.initial task.unlimited magnitudes) ⟨rfl, rfl, rfl⟩
  change run task.unlimited _ _ magnitudes = (ownPlanes task magnitudes).conduct _ _ at hall
  unfold written
  rw [hall]
  rcases run_cases task magnitudes with ⟨h, -⟩ | h
  · rw [h]
    exact ⟨_, rfl⟩
  · rw [h]
    rcases hbits with ⟨a, -, -, hagree⟩ | ⟨-, more, hmore⟩
    · rw [hagree.bits]
      exact ⟨[], (List.append_nil _).symm⟩
    · rw [hmore, List.reverse_append]
      exact ⟨_, rfl⟩

/-- A limit cuts off the bits behind it and changes nothing else. -/
theorem written_of_limit {dims : Extents} {signs : Array Bool} (n : Nat) (magnitudes : Array α) :
    written (⟨dims, signs, some n, .never⟩ : Task α Unit) magnitudes =
      (written (⟨dims, signs, none, .never⟩ : Task α Unit) magnitudes).take n := by
  let task : Task α Unit := ⟨dims, signs, some n, .never⟩
  let all : Task α Unit := ⟨dims, signs, none, .never⟩
  obtain ⟨hlen, -⟩ := written_spec task magnitudes
  have hlimit := bitCount_conduct_limit (rfl : task.limit = some n) (fun _ => rfl)
    (ownPlanes task magnitudes) (State.initial task magnitudes) (Nat.zero_le _)
  have hcut := conduct_unlimited task (ownPlanes task magnitudes)
    (State.initial task magnitudes) (State.initial all magnitudes) ⟨rfl, rfl, rfl⟩
  rw [run_never rfl] at hlen
  rw [hlen] at hlimit
  show written task magnitudes = (written all magnitudes).take n
  have hw := congrArg (fun r => r.2.bits.reverse) (run_never (rfl : task.goal = .never) magnitudes)
  have ha := congrArg (fun r => r.2.bits.reverse) (run_never (rfl : all.goal = .never) magnitudes)
  change written task magnitudes = _ at hw
  change written all magnitudes = _ at ha
  change _ = ((ownPlanes task magnitudes).conduct (respond task.unlimited)
    (State.initial all magnitudes)).2.bits.reverse at ha
  rcases hcut with ⟨a, -, -, hagree⟩ | ⟨hnone, more, hmore⟩
  · rw [ha, ← hagree.bits, ← hw, List.take_of_length_le hlimit.1]
  · have hn := hlimit.2 hnone
    rw [ha, hmore, List.reverse_append, ← hw, ← hn, List.take_left]

end Encoder

/-- All planes of a type from the highest of an array on, as one dialogue. -/
def allPlanes (α : Type) [Magnitude α] (dims : Extents) (highest : Int) :
    Dialogue (Int × Query) Progress :=
  codePlanes dims (Magnitude.minPlane α) (planeCount highest (Magnitude.minPlane α))
    (Progress.initial dims)

/-- What a decoder recovers from some bits. -/
def Decoded.ofBits (α : Type) [Magnitude α] (dims : Extents) (highest : Int) (bits : List Bool) :
    Decoded α :=
  let k := ((allPlanes α dims highest).follow isFree Sketch.use bits (Sketch.blank α dims)).2.2
  ⟨k.magnitudes, k.signs, bits.length⟩

namespace Encoder

variable [BoundedPlanes α] (task : Task α κ) (magnitudes : Array α)

/-- The dialogue of a decoder begins like that of the encoder and goes on below the planes that were
coded, unless nothing was coded at all. -/
theorem allPlanes_cases : written task magnitudes = [] ∨
    ∃ f, allPlanes α task.dims (topPlane magnitudes).toInt =
      (ownPlanes task magnitudes).bind f := by
  have hlow := minPlane_le_lowestPlane magnitudes
  by_cases hcount : planeCount (topPlane magnitudes).toInt (lowestPlane magnitudes).toInt = 0
  · obtain ⟨-, hown⟩ := written_spec task magnitudes
    unfold Dialogue.Exhausts ownPlanes at hown
    rw [hcount, codePlanes] at hown
    exact .inl hown
  · have hsplit : planeCount (topPlane magnitudes).toInt (Magnitude.minPlane α) =
        ((lowestPlane magnitudes).toInt - Magnitude.minPlane α).toNat +
          planeCount (topPlane magnitudes).toInt (lowestPlane magnitudes).toInt := by
      unfold planeCount at *
      omega
    have hbottom : Magnitude.minPlane α +
        (((lowestPlane magnitudes).toInt - Magnitude.minPlane α).toNat : Int) =
          (lowestPlane magnitudes).toInt := by omega
    unfold allPlanes
    rw [hsplit, codePlanes_add, hbottom]
    exact .inr ⟨_, rfl⟩

/-- The planes below those that were coded take no bit. -/
theorem exhausts_written : (allPlanes α task.dims (topPlane magnitudes).toInt).Exhausts isFree
    (written task magnitudes) := by
  rcases allPlanes_cases task magnitudes with hnil | ⟨f, hf⟩
  · rw [hnil]
    exact congrArg Prod.fst (Dialogue.follow_of_no_bits _ _)
  · rw [hf]
    exact (written_spec task magnitudes).2.bind

theorem follow_written {σ : Type} (use : σ → Int × Query → Bool → σ) (s : σ) :
    ((allPlanes α task.dims (topPlane magnitudes).toInt).follow isFree use
        (written task magnitudes) s).2 =
      ((ownPlanes task magnitudes).follow isFree use (written task magnitudes) s).2 := by
  rcases allPlanes_cases task magnitudes with hnil | ⟨f, hf⟩
  · rw [hnil, Dialogue.follow_of_no_bits, Dialogue.follow_of_no_bits]
  · rw [hf]
    exact (written_spec task magnitudes).2.follow_bind s

/-- An encoder without a limit gets through all planes, and leads a follower to what anyone makes of
its bits. -/
theorem conduct_all {τ : Type} (dims : Extents) (signs : Array Bool) (magnitudes : Array α)
    (use : τ → Int × Query → Bool → τ) (k : τ) :
    let all : Task α Unit := ⟨dims, signs, none, .never⟩
    ∃ p u, (ownPlanes all magnitudes).conduct (followed all use) (State.initial all magnitudes, k) =
      (some p, u, ((allPlanes α dims (topPlane magnitudes).toInt).follow isFree use
        (written all magnitudes) k).2.2) := by
  intro all
  have hsome := conduct_unlimited_isSome all (ownPlanes all magnitudes)
    (State.initial all magnitudes)
  have hfollow := follow_ownPlanes (rfl : all.goal = .never) magnitudes use k
  have hrest := follow_written all magnitudes use k
  change ((ownPlanes all magnitudes).conduct (respond all) _).1.isSome = true at hsome
  change ((allPlanes α dims _).follow isFree use _ k).2 = _ at hrest
  rw [conduct_followed all use _ _ k] at hsome
  rw [← congrArg Prod.snd hrest] at hfollow
  obtain ⟨p, hp⟩ := Option.isSome_iff_exists.mp hsome
  exact ⟨p, _, Prod.ext hp (Prod.ext rfl hfollow.symm)⟩

end Encoder

end VolumeCodec
