import Mathlib
import VolumeCodec.Proofs.ArbitraryBits
import VolumeCodec.Proofs.ResidualComplement

namespace VolumeCodec

section Sums

variable {n : Nat}

/-- The sum of the squares of some residuals. -/
def squaredSum (residuals : Array (BitVec n)) : ℚ :=
  ∑ i ∈ Finset.range residuals.size, ((residuals.getD i 0#n).toNat : ℚ) ^ 2

/-- Stops when the sum of the squared residuals, kept exactly, is down to a target, which may be
infinite. -/
def Goal.exactSquares (target : WithTop ℚ) : Goal (BitVec n) ℚ :=
  .squares 0 (fun r => (r.toNat : ℚ)) fun sum => decide ((sum : WithTop ℚ) ≤ target)

theorem foldl_squares (residuals : Array (BitVec n)) :
    residuals.foldl (fun sum r => sum + (r.toNat : ℚ) * r.toNat) 0 = squaredSum residuals := by
  obtain ⟨l⟩ := residuals
  rw [List.foldl_toArray]
  induction l using List.reverseRecOn with
  | nil => rfl
  | append_singleton l r ih =>
    unfold squaredSum at ih ⊢
    have hbefore : ∀ j ∈ Finset.range l.length,
        (((l ++ [r]).toArray.getD j 0#n).toNat : ℚ) ^ 2 =
          ((l.toArray.getD j 0#n).toNat : ℚ) ^ 2 := by
      intro j hj
      rw [Finset.mem_range] at hj
      simp [List.getElem?_append_left hj]
    rw [List.foldl_append, ih, List.size_toArray, List.size_toArray, List.length_append,
      List.length_singleton, Finset.sum_range_succ, Finset.sum_congr rfl hbefore]
    simp [sq]

/-- Writing one residual changes one square. -/
theorem squaredSum_set {residuals : Array (BitVec n)} {i : Nat} (hi : i < residuals.size)
    (v : BitVec n) : squaredSum (residuals.setIfInBounds i v) =
      squaredSum residuals + ((v.toNat : ℚ) * v.toNat -
        ((residuals.getD i 0#n).toNat : ℚ) * (residuals.getD i 0#n).toNat) := by
  have hmem : i ∈ Finset.range residuals.size := Finset.mem_range.mpr hi
  have hothers : ∑ j ∈ (Finset.range residuals.size).erase i,
      (((residuals.setIfInBounds i v).getD j 0#n).toNat : ℚ) ^ 2 =
        ∑ j ∈ (Finset.range residuals.size).erase i, ((residuals.getD j 0#n).toNat : ℚ) ^ 2 :=
    Finset.sum_congr rfl fun j hj => by
      rw [getD_setIfInBounds _ _ _ _ _ hi, if_neg (Finset.ne_of_mem_erase hj)]
  unfold squaredSum
  rw [Array.size_setIfInBounds, ← Finset.add_sum_erase _ _ hmem, hothers,
    ← Finset.add_sum_erase _ (fun j => ((residuals.getD j 0#n).toNat : ℚ) ^ 2) hmem,
    getD_setIfInBounds _ _ _ _ _ hi, if_pos rfl]
  ring

end Sums

namespace Encoder

section Moments

variable {α κ : Type} [Magnitude α]

/-- The state in which a reply leaves an encoder, if it wrote a bit. -/
def moment (before : State α κ) (r : Reply (State α κ)) : List (State α κ) :=
  if before.bitCount < r.state.bitCount then [r.state] else []

/-- The states of an encoder in which it has just written a bit. -/
def moments (task : Task α κ) (magnitudes : Array α) : List (State α κ) :=
  notes (fun _ s _ r => moment s r) task magnitudes

theorem state_of_coded {task : Task α κ} (hl : task.limit = none) (plane : Int) (s : State α κ)
    {q : Query} (hq : q.isImplied = false) : (reply task plane s q).state =
      (prepare task plane s q).2.write (prepare task plane s q).1 := by
  rw [reply_of_coded task plane s hq]
  rcases emit_cases task (prepare task plane s q).1 (prepare task plane s q).2 with
    ⟨-, hreached⟩ | ⟨-, ⟨he, -⟩ | ⟨he, -⟩⟩
  · rw [hl] at hreached
    cases hreached
  · rw [he]
    rfl
  · rw [he]
    rfl

/-- Without a limit only a goal that is met stops an encoder. -/
theorem met_of_stopped {β : Type} {task : Task α κ} (hl : task.limit = none)
    (d : Dialogue (Int × Query) β) {s : State α κ} (h : (d.conduct (respond task) s).1 = none) :
    task.goal.met (d.conduct (respond task) s).2.missing = true := by
  induction d generalizing s with
  | done b => cases h
  | ask q next ih =>
    simp only [Dialogue.conduct, respond] at h ⊢
    cases hq : q.2.isImplied with
    | true =>
      rw [reply_of_implied task q.1 s hq] at h ⊢
      exact ih true h
    | false =>
      rw [reply_of_coded task q.1 s hq] at h ⊢
      rcases emit_cases task (prepare task q.1 s q.2).1 (prepare task q.1 s q.2).2 with
        ⟨-, hreached⟩ | ⟨-, ⟨he, hmet⟩ | ⟨he, -⟩⟩
      · rw [hl] at hreached
        cases hreached
      · rw [hl] at hmet
        rw [he]
        exact hmet
      · rw [he] at h ⊢
        exact ih _ h

end Moments

section Exact

variable {n : Nat} {task : Task (BitVec n) ℚ} {target : WithTop ℚ} {dims : Extents}
  {s : State (BitVec n) ℚ} {q : Query} {ph : Nat → Phase}

/-- The measure of what is missing is the sum of the squared residuals. -/
structure Tracks (dims : Extents) (s : State (BitVec n) ℚ) : Prop where
  size : s.residuals.size = dims.volume
  missing : s.missing = squaredSum s.residuals

theorem Tracks.reduce (hg : task.goal = .exactSquares target) (h : Tracks dims s)
    (threshold : BitVec n) {i : Nat} (hi : i < dims.volume) :
    Tracks dims (reduce task threshold i s) := by
  have hi : i < s.residuals.size := h.size.symm ▸ hi
  refine ⟨Array.size_setIfInBounds.trans h.size, ?_⟩
  show task.goal.update s.missing _ _ = squaredSum (s.residuals.setIfInBounds i _)
  rw [hg, squaredSum_set hi, ← h.missing]
  rfl

/-- What is taken off a residual before a bit goes out is taken into account. -/
theorem Tracks.prepare (hg : task.goal = .exactSquares target) (h : Tracks dims s)
    (hq : q.IsDue dims ph) (plane : Int) : Tracks dims (prepare task plane s q).2 := by
  cases q with
  | significance subject implied => exact h
  | sign i => exact h.reduce hg _ hq.1
  | refinement i =>
    simp only [Encoder.prepare]
    split
    next => exact h.reduce hg _ hq.1
    next => exact h

/-- All moments so far are accounted for, one for each bit. -/
structure Accounts (dims : Extents)
    (s : State (BitVec n) ℚ × List (State (BitVec n) ℚ)) : Prop where
  now : Tracks dims s.1
  each : ∀ x ∈ s.2, Tracks dims x
  count : s.2.map State.bitCount = List.range' 1 s.1.bitCount

theorem Accounts.reply (hl : task.limit = none) (hg : task.goal = .exactSquares target)
    {s : State (BitVec n) ℚ × List (State (BitVec n) ℚ)} (h : Accounts dims s)
    {q : Int × Query} (hq : q.2.IsDue dims ph) :
    Accounts dims (noting (fun s _ r => moment s r) (respond task) s q).state := by
  rw [noting, Reply.state_map]
  unfold respond
  cases hi : q.2.isImplied with
  | true =>
    have hnone : moment s.1 (.answer true s.1) = [] := if_neg (Nat.lt_irrefl _)
    rw [reply_of_implied task q.1 s.1 hi, hnone, List.append_nil]
    exact h
  | false =>
    have hprepared := h.now.prepare hg hq q.1
    have hwritten : Tracks dims ((Encoder.prepare task q.1 s.1 q.2).2.write
        (Encoder.prepare task q.1 s.1 q.2).1) := ⟨hprepared.size, hprepared.missing⟩
    have hcount : ((Encoder.prepare task q.1 s.1 q.2).2.write
        (Encoder.prepare task q.1 s.1 q.2).1).bitCount = s.1.bitCount + 1 := by
      rw [State.write, bitCount_prepare]
    rw [moment, state_of_coded hl q.1 s.1 hi, hcount, if_pos (Nat.lt_succ_self _)]
    refine ⟨hwritten, fun x hx => ?_, ?_⟩
    · rcases List.mem_append.mp hx with hx | hx
      · exact h.each x hx
      · exact List.mem_singleton.mp hx ▸ hwritten
    · rw [List.map_append, h.count, List.map_singleton, hcount, List.range'_1_concat,
        Nat.add_comm 1]

theorem Accounts.initial (hg : task.goal = .exactSquares target) {magnitudes : Array (BitVec n)}
    (hm : magnitudes.size = dims.volume) :
    Accounts dims (State.initial task magnitudes, []) := by
  refine ⟨⟨hm, ?_⟩, nofun, rfl⟩
  show task.goal.start magnitudes = _
  rw [hg]
  exact foldl_squares magnitudes

/-- The final state of an encoder with its moments. -/
theorem accounts_of_run (task : Task (BitVec n) ℚ) (hl : task.limit = none)
    (hg : task.goal = .exactSquares target) (hd : task.dims.validate = .ok ())
    {magnitudes : Array (BitVec n)} (hm : magnitudes.size = task.dims.volume) :
    Accounts task.dims
      ((run task (topPlane magnitudes).toInt (lowestPlane magnitudes).toInt magnitudes).2,
        moments task magnitudes) := by
  have hinitial : Accounts task.dims (State.initial task magnitudes, []) := .initial hg hm
  rcases notes_cases (fun _ s _ r => moment s r) task magnitudes with
    ⟨hrun, hnotes⟩ | ⟨hrun, hnotes⟩
  · unfold moments
    rw [hrun, hnotes]
    exact hinitial
  · have hend : Accounts task.dims ((ownPlanes task magnitudes).conduct
        (noting (fun s _ r => moment s r) (respond task)) (State.initial task magnitudes, [])).2 :=
      kept_by_planes hd (T := Accounts task.dims) (fun hr => by cases hr; rfl)
        (fun h hq => h.reply hl hg hq) _ _ hinitial
    have hmap := Dialogue.conduct_map Prod.fst
      (noting_fst (fun s _ r => moment s r) (respond task)) (ownPlanes task magnitudes)
      (State.initial task magnitudes, [])
    dsimp only at hmap
    unfold moments
    rw [hrun, hnotes, hmap]
    exact hend

/-- What is missing at the end, if the goal stops an encoder. -/
theorem squaredSum_of_stopped (task : Task (BitVec n) ℚ) (hl : task.limit = none)
    (hg : task.goal = .exactSquares target) (hd : task.dims.validate = .ok ())
    {magnitudes : Array (BitVec n)} (hm : magnitudes.size = task.dims.volume)
    (hstop : (run task (topPlane magnitudes).toInt (lowestPlane magnitudes).toInt
      magnitudes).1 = none) : (squaredSum (residuals task magnitudes) : WithTop ℚ) ≤ target := by
  have hmet : task.goal.met (run task (topPlane magnitudes).toInt (lowestPlane magnitudes).toInt
      magnitudes).2.missing = true := by
    rcases run_cases task magnitudes with ⟨hrun, hmet⟩ | hrun
    · rw [hrun]
      exact hmet
    · rw [hrun] at hstop ⊢
      exact met_of_stopped hl _ hstop
  rw [(accounts_of_run task hl hg hd hm).now.missing, hg] at hmet
  exact of_decide_eq_true hmet

end Exact

/-- A goal that is met at the outset costs no bit. -/
theorem bitCount_of_met {α κ : Type} [Magnitude α] {task : Task α κ} {magnitudes : Array α}
    (hmet : task.goal.met (task.goal.start magnitudes) = true) (highest lowest : Int) :
    (run task highest lowest magnitudes).2.bitCount = 0 := by
  unfold run
  dsimp only
  by_cases hcount : planeCount highest lowest = 0
  · rw [if_neg fun h => h.1 hcount, hcount]
    rfl
  · rw [if_pos ⟨hcount, hmet⟩]

end Encoder

theorem bit_recorded_prefix (t : Tape) {bits all more : List Bool} (h : all = bits ++ more) :
    bits.length ≤ all.length ∧
      ∀ i < bits.length, (t.recorded bits).bit i = (t.recorded all).bit i := by
  obtain ⟨-, -, hbit⟩ := Tape.recorded_spec t bits
  obtain ⟨-, -, hall⟩ := Tape.recorded_spec t all
  have hle : bits.length ≤ all.length := by
    rw [h, List.length_append]
    exact Nat.le_add_right _ _
  refine ⟨hle, fun i hi => ?_⟩
  rw [hbit i hi, hall i (Nat.lt_of_lt_of_le hi hle), h, List.getD_append _ _ _ _ hi]

/-- An encoder that aims for a sum of squared errors, which it keeps exactly: each time it writes a
bit, that sum is the one of the squared residuals. Its bits are the first ones of those that are
written without an aim. If it stops before the end of the last plane, a decoder of its bits comes as
close to the numbers as it aims; and if zeros are close enough, it writes nothing. -/
theorem target_stop_sound (w : Width) {dims : Extents} {signs : Array Bool}
    {magnitudes : Array (BitVec w.bits)} (target : WithTop ℚ) (hd : dims.validate = .ok ())
    (hm : magnitudes.size = dims.volume) (hs : signs.size = dims.volume) (t : Tape) :
    let task : Encoder.Task (BitVec w.bits) ℚ := ⟨dims, signs, none, .exactSquares target⟩
    ∃ (info all : Outline) (coded full : Tape) (d : Decoded (BitVec w.bits)),
      (encode .unbounded task magnitudes).on t = (.ok info, coded) ∧
      ((decode .unbounded info none).on coded).1 = .ok d ∧ d.bitCount = info.bitCount ∧
      (Encoder.moments task magnitudes).map (·.bitCount) = List.range' 1 info.bitCount ∧
      (∀ s ∈ Encoder.moments task magnitudes, s.missing =
        ∑ i ∈ Finset.range dims.volume, ((s.residuals.getD i 0#w.bits).toNat : ℚ) ^ 2) ∧
      (encode .unbounded (⟨dims, signs, none, .never⟩ : Encoder.Task (BitVec w.bits) Unit)
        magnitudes).on t = (.ok all, full) ∧
      info.bitCount ≤ all.bitCount ∧ (∀ i < info.bitCount, coded.bit i = full.bit i) ∧
      ((Encoder.run task (topPlane magnitudes).toInt (lowestPlane magnitudes).toInt
          magnitudes).1 = none →
        ((∑ i ∈ Finset.range dims.volume, (((magnitudes.getD i 0#w.bits).toNat : ℚ) -
          (d.magnitudes.getD i 0#w.bits).toNat) ^ 2 : ℚ) : WithTop ℚ) ≤ target) ∧
      (((∑ i ∈ Finset.range dims.volume,
          ((magnitudes.getD i 0#w.bits).toNat : ℚ) ^ 2 : ℚ) : WithTop ℚ) ≤ target →
        info.bitCount = 0) := by
  intro task
  obtain ⟨info, coded, d, hencode, hdecode, hcount, hsize, -, -, hsum, -⟩ :=
    residual_complement w task hd hm hs t
  obtain ⟨hlength, -⟩ := Encoder.written_spec task magnitudes
  obtain ⟨more, hmore⟩ := Encoder.written_prefix task magnitudes
  have haccounts := Encoder.accounts_of_run task rfl rfl hd hm
  obtain ⟨hinfo, hcoded⟩ := Prod.mk.inj (hencode.symm.trans (encode_on task magnitudes t hd hm hs))
  obtain rfl := Except.ok.inj hinfo
  subst hcoded
  obtain ⟨hle, hbits⟩ := bit_recorded_prefix t hmore
  refine ⟨_, _, _, _, d, hencode, hdecode, hcount, ?_, fun s hmem => ?_,
    encode_on task.unlimited magnitudes t hd hm hs, hle, hbits, fun hstop => ?_, fun hzero => ?_⟩
  · show _ = List.range' 1 (Encoder.written task magnitudes).length
    rw [haccounts.count, hlength]
  · have htracks := haccounts.each s hmem
    rw [htracks.missing, squaredSum, htracks.size]
  · have hclose := Encoder.squaredSum_of_stopped task rfl rfl hd hm hstop
    rw [squaredSum, hsize] at hclose
    refine le_of_eq_of_le (congrArg _ (Finset.sum_congr rfl fun i hi => ?_)) hclose
    rw [← hsum i (Finset.mem_range.mp hi), Nat.cast_add, add_sub_cancel_left]
  · have hmet : task.goal.met (task.goal.start magnitudes) = true := by
      have hstart : task.goal.start magnitudes = squaredSum magnitudes := foldl_squares magnitudes
      rw [hstart, squaredSum, hm]
      exact decide_eq_true hzero
    show (Encoder.written task magnitudes).length = 0
    rw [← hlength, Encoder.bitCount_of_met hmet]

/-- Of two bytes the lower one is left out, and that is close enough before the last plane. -/
theorem target_stop_sound_pair :
    let task : Encoder.Task (BitVec 8) ℚ := ⟨Axes.row 2, #[true, false], none, .exactSquares 36⟩
    (Encoder.run task 7 0 #[5#8, 200#8]).1 = none ∧
      ∃ (info : Outline) (coded : Tape) (d : Decoded (BitVec 8)),
        (encode .unbounded task #[5#8, 200#8]).on .empty = (.ok info, coded) ∧
        ((decode .unbounded info none).on coded).1 = .ok d ∧
        ((∑ i ∈ Finset.range 2, (((#[5#8, 200#8].getD i 0#8).toNat : ℚ) -
          (d.magnitudes.getD i 0#8).toNat) ^ 2 : ℚ) : WithTop ℚ) ≤ 36 := by
  intro task
  have hm : #[5#8, 200#8].size = (Axes.row 2).volume := rfl
  have hs : #[true, false].size = (Axes.row 2).volume := rfl
  have hstop : (Encoder.run task 7 0 #[5#8, 200#8]).1 = none := by decide +kernel
  obtain ⟨info, -, coded, -, d, hencode, hdecode, -, -, -, -, -, -, hclose, -⟩ :=
    target_stop_sound .w8 36 rfl hm hs .empty
  exact ⟨hstop, info, coded, d, hencode, hdecode, hclose hstop⟩

end VolumeCodec
