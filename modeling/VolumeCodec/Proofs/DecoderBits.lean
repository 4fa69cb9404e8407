import VolumeCodec.Decoder
import VolumeCodec.Proofs.EncoderBits
import VolumeCodec.Proofs.TapeBits

namespace VolumeCodec

variable {α β : Type}

/-- What is recovered of an array: magnitudes and signs. -/
structure Sketch (α : Type) where
  magnitudes : Array α
  signs : Array Bool

/-- Nothing is recovered yet: zeros, each of them non-negative. -/
def Sketch.blank (α : Type) [Magnitude α] (dims : Extents) : Sketch α :=
  ⟨Array.replicate dims.volume Magnitude.zero, Array.replicate dims.volume true⟩

variable [Magnitude α]

/-- What one bit adds to a sketch. -/
def Sketch.use (k : Sketch α) (q : Int × Query) (bit : Bool) : Sketch α :=
  match q.2 with
  | .significance _ _ => k
  | .sign i => ⟨k.magnitudes.setIfInBounds i (Magnitude.pow2 q.1), k.signs.setIfInBounds i bit⟩
  | .refinement i =>
    if bit then
      { k with magnitudes := k.magnitudes.modify i (Magnitude.add · (Magnitude.pow2 q.1)) }
    else k

@[simp] theorem Sketch.size_magnitudes_use (k : Sketch α) (q : Int × Query) (bit : Bool) :
    (k.use q bit).magnitudes.size = k.magnitudes.size := by
  unfold use
  split
  next => rfl
  next => simp
  next => split <;> simp

@[simp] theorem Sketch.size_signs_use (k : Sketch α) (q : Int × Query) (bit : Bool) :
    (k.use q bit).signs.size = k.signs.size := by
  unfold use
  split
  next => rfl
  next => simp
  next => split <;> rfl

theorem Sketch.size_follow (d : Dialogue (Int × Query) β) (bits : List Bool) (k : Sketch α) :
    (d.follow isFree use bits k).2.2.magnitudes.size = k.magnitudes.size ∧
      (d.follow isFree use bits k).2.2.signs.size = k.signs.size := by
  induction d generalizing bits k with
  | done a => cases bits <;> exact ⟨rfl, rfl⟩
  | ask q next ih =>
    cases hf : isFree q with
    | true =>
      rw [Dialogue.follow_free hf]
      exact ih true bits k
    | false =>
      cases bits with
      | nil =>
        rw [Dialogue.follow_nil hf]
        exact ⟨rfl, rfl⟩
      | cons b bits =>
        rw [Dialogue.follow_cons hf]
        have h := ih b bits (k.use q b)
        rw [size_magnitudes_use, size_signs_use] at h
        exact h

namespace Decoder

/-- The replies of a decoder to questions that come with their plane. -/
def respond (limit : Nat) (s : State α) (q : Int × Query) : Reply (State α) :=
  reply limit q.1 s q.2

def State.sketch (s : State α) : Sketch α :=
  ⟨s.magnitudes, s.signs⟩

theorem respond_of_coded {limit : Nat} {s : State α} {q : Int × Query} (hf : isFree q = false)
    (hl : s.bitCount < limit) :
    ∃ t, respond limit s q = .answer s.tape.readBit.1 t ∧ t.tape = s.tape.readBit.2 ∧
      t.bitCount = s.bitCount + 1 ∧ t.sketch = s.sketch.use q s.tape.readBit.1 := by
  have hn : ¬limit ≤ s.bitCount := Nat.not_le.mpr hl
  obtain ⟨plane, q⟩ := q
  cases q with
  | significance subject implied =>
    cases implied with
    | true => cases hf
    | false =>
      simp only [respond, reply, next, if_neg hn]
      exact ⟨_, rfl, rfl, rfl, rfl⟩
  | sign i =>
    simp only [respond, reply, next, if_neg hn]
    exact ⟨_, rfl, rfl, rfl, rfl⟩
  | refinement i =>
    simp only [respond, reply, next, if_neg hn]
    refine ⟨_, rfl, ?_, ?_, ?_⟩
    · split <;> rfl
    · split <;> rfl
    · simp only [Sketch.use]
      split <;> rfl

theorem respond_of_free {limit : Nat} {s : State α} {q : Int × Query} (hf : isFree q = true) :
    respond limit s q = .answer true s := by
  obtain ⟨plane, q⟩ := q
  cases q with
  | significance subject implied =>
    cases implied with
    | true => rfl
    | false => cases hf
  | sign i => cases hf
  | refinement i => cases hf

theorem respond_at_limit {limit : Nat} {s : State α} {q : Int × Query} (hf : isFree q = false)
    (hl : limit ≤ s.bitCount) : respond limit s q = .halt s := by
  obtain ⟨plane, q⟩ := q
  cases q with
  | significance subject implied =>
    cases implied with
    | true => cases hf
    | false => simp only [respond, reply, next, if_pos hl]
  | sign i => simp only [respond, reply, next, if_pos hl]
  | refinement i => simp only [respond, reply, next, if_pos hl]

/-- A decoder follows the dialogue with the bits that lie ahead of it on its tape, and moves on by as
many as it counts. -/
theorem conduct_eq_follow (limit : Nat) (d : Dialogue (Int × Query) β) (s : State α)
    (hl : s.bitCount ≤ limit) (ht : s.tape.IsFresh) :
    (d.conduct (respond limit) s).1 =
        (d.follow isFree Sketch.use (s.tape.ahead (limit - s.bitCount)) s.sketch).1 ∧
      (d.conduct (respond limit) s).2.sketch =
        (d.follow isFree Sketch.use (s.tape.ahead (limit - s.bitCount)) s.sketch).2.2 ∧
      (d.conduct (respond limit) s).2.bitCount +
        (d.follow isFree Sketch.use (s.tape.ahead (limit - s.bitCount)) s.sketch).2.1.length =
          limit ∧
      ∃ n, (d.conduct (respond limit) s).2.bitCount = s.bitCount + n ∧
        s.tape.HasMoved n (d.conduct (respond limit) s).2.tape := by
  induction d generalizing s with
  | done a =>
    refine ⟨rfl, rfl, ?_, 0, rfl, .refl s.tape⟩
    simp [Dialogue.conduct, Dialogue.follow]
    omega
  | ask q next ih =>
    simp only [Dialogue.conduct]
    cases hf : isFree q with
    | true =>
      rw [Dialogue.follow_free hf, respond_of_free hf]
      exact ih true s hl ht
    | false =>
      by_cases hlt : s.bitCount < limit
      · obtain ⟨t, hr, htape, hcount, hsketch⟩ := respond_of_coded hf hlt
        have hn : limit - s.bitCount = limit - t.bitCount + 1 := by omega
        rw [hr, hn, Tape.ahead_succ ht, Dialogue.follow_cons hf, ← hsketch, ← htape]
        have hfresh : t.tape.IsFresh := htape ▸ Tape.isFresh_readBit ht
        obtain ⟨h1, h2, h3, n, h4, h5⟩ := ih s.tape.readBit.1 t (by omega) hfresh
        refine ⟨h1, h2, h3, n + 1, ?_, ?_⟩
        · rw [h4, hcount]
          omega
        · rw [htape] at h5
          exact (Tape.HasMoved.readBit s.tape).trans h5
      · -- The follower is out of bits just where the decoder breaks off.
        have hz : limit - s.bitCount = 0 := by omega
        rw [respond_at_limit hf (Nat.not_lt.mp hlt), hz, Tape.ahead_zero, Dialogue.follow_nil hf]
        refine ⟨rfl, rfl, ?_, 0, rfl, .refl s.tape⟩
        simp
        omega

end Decoder

end VolumeCodec
