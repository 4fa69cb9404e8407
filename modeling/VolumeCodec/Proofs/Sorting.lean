import VolumeCodec.Proofs.WorklistContents

namespace VolumeCodec

/-- How an element stands in one plane. -/
inductive Phase
  /-- It was significant before the plane, and is not refined yet. -/
  | old
  /-- It is significant, and has been refined or entered in the plane. -/
  | done
  /-- It has not been tested in the plane. -/
  | waiting
  /-- It has been tested, alone or in a region, and is not significant. -/
  | cold
  deriving DecidableEq

/-- The same phases but for some elements. -/
def mark (ph : Nat → Phase) (l : List Nat) (p : Phase) : Nat → Phase :=
  fun i => if i ∈ l then p else ph i

theorem mark_of_mem {ph : Nat → Phase} {l : List Nat} {p : Phase} {i : Nat} (h : i ∈ l) :
    mark ph l p i = p := if_pos h

theorem mark_of_not_mem {ph : Nat → Phase} {l : List Nat} {p : Phase} {i : Nat} (h : i ∉ l) :
    mark ph l p i = ph i := if_neg h

/-- A box that may wait at a level: it has more than one element. -/
structure Box.WaitsAt (b : Box) (level : Nat) : Prop where
  level : b.level = level
  isPixel : b.isPixel = false
  isEmpty : b.isEmpty = false

/-- Every element of the array stands in one place: in a worklist, or among those outside of them
that are at hand. The untested ones are waiting, wherever they stand. -/
structure Sorted (dims : Extents) (ph : Nat → Phase) (w : Worklists)
    (outside untested : List Nat) : Prop where
  bound : w.insignificant.bound = dims.volume
  cover : (w.significant.toList ++ (w.insignificant.members ++
    (places dims w.stored ++ outside))).Perm (List.range dims.volume)
  stored : ∀ level, ∀ b ∈ (w.boxesAt level).toList, b.WaitsAt level
  done : ∀ i ∈ w.significant.toList, ph i = .done
  waiting : ∀ i ∈ untested, ph i = .waiting
  cold : ∀ i < dims.volume, i ∉ w.significant.toList → i ∉ untested → ph i = .cold
  nodup : untested.Nodup

namespace Sorted

variable {dims : Extents} {ph : Nat → Phase} {w w' : Worklists}
  {outside outside' untested untested' : List Nat} {i : Nat}

theorem lt_of_outside (h : Sorted dims ph w outside untested) (hi : i ∈ outside) :
    i < dims.volume :=
  List.mem_range.mp (h.cover.mem_iff.mp (by simp [hi]))

theorem lt_of_member (h : Sorted dims ph w outside untested)
    (hi : i ∈ w.insignificant.members) : i < dims.volume :=
  List.mem_range.mp (h.cover.mem_iff.mp (by simp [hi]))

theorem perm (h : Sorted dims ph w outside untested) (ho : outside'.Perm outside)
    (hu : untested'.Perm untested) : Sorted dims ph w outside' untested' where
  bound := h.bound
  cover := (((ho.append_left _).append_left _).append_left _).trans h.cover
  stored := h.stored
  done := h.done
  waiting i hi := h.waiting i (hu.mem_iff.mp hi)
  cold i hi hs hn := h.cold i hi hs fun hm => hn (hu.mem_iff.mpr hm)
  nodup := hu.nodup_iff.mpr h.nodup

theorem chill {l : List Nat} (h : Sorted dims ph w outside (l ++ untested)) :
    Sorted dims (mark ph l .cold) w outside untested := by
  obtain ⟨-, hnodup, hdisj⟩ := List.nodup_append.mp h.nodup
  refine ⟨h.bound, h.cover, h.stored, fun i hi => ?_, fun i hi => ?_, fun i hi hs hn => ?_, hnodup⟩
  · have hd := h.done i hi
    have hn : i ∉ l := fun hm => by
      rw [h.waiting i (List.mem_append_left _ hm)] at hd
      cases hd
    rw [mark_of_not_mem hn, hd]
  · rw [mark_of_not_mem fun hm => hdisj i hm i hi rfl]
    exact h.waiting i (List.mem_append_right _ hi)
  · by_cases hm : i ∈ l
    · exact mark_of_mem hm
    · rw [mark_of_not_mem hm]
      exact h.cold i hi hs (by simp [hm, hn])

theorem enter (h : Sorted dims ph w (i :: outside) (i :: untested)) :
    Sorted dims (mark ph [i] .done) { w with significant := w.significant.push i } outside
      untested := by
  obtain ⟨hi, hnodup⟩ := List.nodup_cons.mp h.nodup
  refine ⟨h.bound, ?_, h.stored, fun j hj => ?_, fun j hj => ?_, fun j hj hs hn => ?_, hnodup⟩
  · refine .trans (List.perm_iff_count.mpr fun a => ?_) h.cover
    simp only [Array.toList_push, List.count_append, List.count_cons, List.count_nil]
    show _ + (_ + (List.count a (places dims w.stored) + _)) = _
    omega
  · by_cases he : j = i
    · exact mark_of_mem (by simp [he])
    · rw [mark_of_not_mem (by simp [he])]
      exact h.done j (by simpa [he] using hj)
  · have he : j ≠ i := fun he => hi (he ▸ hj)
    rw [mark_of_not_mem (by simp [he])]
    exact h.waiting j (List.mem_cons_of_mem _ hj)
  · have hs' : j ∉ w.significant.toList ∧ j ≠ i := by simpa using hs
    rw [mark_of_not_mem (by simp [hs'.2])]
    exact h.cold j hj hs'.1 (by simp [hs'.2, hn])

theorem insert (h : Sorted dims ph w (i :: outside) untested) :
    Sorted dims ph { w with insignificant := w.insignificant.insert i } outside untested := by
  have hlt := h.lt_of_outside (i := i) (by simp)
  have hn : i ∉ w.insignificant.members := by
    intro hm
    have hc := List.nodup_iff_count_le_one.mp (h.cover.nodup_iff.mpr List.nodup_range) i
    have hpos := List.count_pos_iff.mpr hm
    simp only [List.count_append, List.count_cons_self] at hc
    omega
  have hmembers := IndexSet.members_insert (by rw [h.bound]; exact hlt) hn
  refine ⟨h.bound, ?_, h.stored, h.done, h.waiting, h.cold, h.nodup⟩
  refine .trans (List.perm_iff_count.mpr fun a => ?_) h.cover
  have hc := hmembers.count_eq a
  simp only [List.count_append, List.count_cons] at hc ⊢
  show _ + (_ + (List.count a (places dims w.stored) + _)) = _
  omega

theorem erase (h : Sorted dims ph w outside untested) (hi : i ∈ w.insignificant.members) :
    Sorted dims ph { w with insignificant := w.insignificant.erase i } (i :: outside) untested := by
  have hmembers := IndexSet.members_erase hi
  refine ⟨h.bound, ?_, h.stored, h.done, h.waiting, h.cold, h.nodup⟩
  refine .trans (List.perm_iff_count.mpr fun a => ?_) h.cover
  have hc := hmembers.count_eq a
  simp only [List.count_append, List.count_cons] at hc ⊢
  show _ + (_ + (List.count a (places dims w.stored) + _)) = _
  omega

/-- Boxes at hand are exchanged for those that wait at a level. -/
theorem exchange (level : Nat) (boxes : Array Box) (h : Sorted dims ph w outside untested)
    (hsig : w'.significant = w.significant) (hins : w'.insignificant = w.insignificant)
    (hat : ∀ j, w'.boxesAt j = if j = level then boxes else w.boxesAt j)
    (hboxes : ∀ b ∈ boxes.toList, b.WaitsAt level)
    (hp : (places dims boxes.toList ++ outside').Perm
      (places dims (w.boxesAt level).toList ++ outside)) :
    Sorted dims ph w' outside' untested := by
  refine ⟨by rw [hins, h.bound], ?_, fun j b hb => ?_, by rw [hsig]; exact h.done, h.waiting,
    by rw [hsig]; exact h.cold, h.nodup⟩
  · rw [hsig, hins]
    refine .trans (List.perm_iff_count.mpr fun a => ?_) h.cover
    have hstored := (places_perm dims (Worklists.stored_perm hat)).count_eq a
    have hout := hp.count_eq a
    simp only [places_append, List.count_append] at hstored hout ⊢
    omega
  · rw [hat] at hb
    split at hb
    next he => exact he ▸ hboxes b hb
    next => exact h.stored j b hb

theorem addBox {b : Box} (h : Sorted dims ph w ((Region.box b).indices dims ++ outside) untested)
    (hb : b.WaitsAt b.level) : Sorted dims ph (w.addBox b) outside untested := by
  refine h.exchange b.level ((w.boxesAt b.level).push b) rfl rfl
    (fun j => ?_) (fun c hc => ?_) ?_
  · rw [Worklists.boxesAt_addBox]
    split
    next he => rw [he]
    next => rfl
  · rw [Array.toList_push, List.mem_append, List.mem_singleton] at hc
    rcases hc with hc | rfl
    · exact h.stored b.level c hc
    · exact hb
  · rw [Array.toList_push, places_append, List.append_assoc]
    simp

end Sorted

end VolumeCodec
