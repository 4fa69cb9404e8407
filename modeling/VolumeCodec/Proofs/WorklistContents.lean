import Mathlib.Data.List.Nodup
import VolumeCodec.Proofs.Geometry
import VolumeCodec.Worklists

namespace VolumeCodec

namespace IndexSet

theorem nodup_members (s : IndexSet) : s.members.Nodup := by
  have hword : ∀ w : Word, w.members.Nodup := by
    intro w
    unfold Word.members
    split
    next => exact List.nodup_nil
    next => exact List.nodup_range.filter _
  have hlow : ∀ (w : Word) (i : Nat), i ∈ w.members → i < 64 := by
    intro w i hi
    rw [Word.mem_members] at hi
    by_cases h : i < 64
    · exact h
    · rw [Word.bit_of_le _ (Nat.not_lt.mp h)] at hi
      cases hi
  unfold members
  refine List.nodup_flatMap.mpr ⟨fun k _ => ?_, ?_⟩
  · exact (hword _).map fun a b h => Nat.add_left_cancel h
  · refine List.nodup_range.imp fun {k k'} hne i hk hk' => hne ?_
    obtain ⟨a, ha, rfl⟩ := List.mem_map.mp hk
    obtain ⟨b, hb, he⟩ := List.mem_map.mp hk'
    have h1 := hlow _ a ha
    have h2 := hlow _ b hb
    omega

@[simp] theorem bound_insert (s : IndexSet) (i : Nat) : (s.insert i).bound = s.bound := rfl

@[simp] theorem bound_erase (s : IndexSet) (i : Nat) : (s.erase i).bound = s.bound := rfl

theorem lt_bound_of_mem {s : IndexSet} {i : Nat} (h : i ∈ s.members) : i < s.bound := by
  rw [mem_members] at h
  by_cases hb : i < s.bound
  · exact hb
  · rw [test_of_le s (Nat.not_lt.mp hb)] at h
    cases h

theorem members_empty (bound : Nat) : (empty bound).members = [] := by
  rw [List.eq_nil_iff_forall_not_mem]
  intro i h
  rw [mem_members, test_empty] at h
  cases h

theorem members_insert {s : IndexSet} {i : Nat} (hb : i < s.bound) (hn : i ∉ s.members) :
    (s.insert i).members.Perm (i :: s.members) := by
  refine (List.perm_ext_iff_of_nodup (nodup_members _)
    (List.nodup_cons.mpr ⟨hn, nodup_members s⟩)).mpr fun j => ?_
  rw [mem_members, insert, test_put, List.mem_cons, mem_members]
  by_cases h : j = i
  · simp [h, hb]
  · simp [h]

theorem members_erase {s : IndexSet} {i : Nat} (hi : i ∈ s.members) :
    (i :: (s.erase i).members).Perm s.members := by
  have hb := lt_bound_of_mem hi
  have hn : i ∉ (s.erase i).members := by
    rw [mem_members, erase, test_put]
    simp [hb]
  refine (List.perm_ext_iff_of_nodup (List.nodup_cons.mpr ⟨hn, nodup_members _⟩)
    (nodup_members s)).mpr fun j => ?_
  rw [List.mem_cons, mem_members, mem_members, erase, test_put]
  by_cases h : j = i
  · subst h
    simpa [hb] using (mem_members s j).mp hi
  · simp [h]

end IndexSet

namespace Worklists

theorem getElem?_widened (boxes : Array (Array Box)) (n j : Nat) :
    ((boxes ++ Array.replicate n #[])[j]?).getD #[] = boxes[j]?.getD #[] := by
  rw [Array.getElem?_append]
  split
  next => rfl
  next h =>
    rw [Array.getElem?_eq_none (Nat.not_lt.mp h), Array.getElem?_replicate]
    split <;> rfl

theorem boxesAt_setBoxesAt (w : Worklists) (level : Nat) (boxes : Array Box) (j : Nat) :
    (w.setBoxesAt level boxes).boxesAt j = if j = level then boxes else w.boxesAt j := by
  simp only [boxesAt, setBoxesAt, Array.getD_eq_getD_getElem?, Array.getElem?_setIfInBounds,
    Array.size_append, Array.size_replicate]
  by_cases h : level = j
  · have hlt : level < w.boxes.size + (level + 1 - w.boxes.size) := by omega
    rw [if_pos h, if_pos hlt, if_pos h.symm]
    rfl
  · rw [if_neg h, if_neg fun e => h e.symm]
    exact getElem?_widened _ _ j

theorem boxesAt_addBox (w : Worklists) (b : Box) (j : Nat) :
    (w.addBox b).boxesAt j = if j = b.level then (w.boxesAt j).push b else w.boxesAt j := by
  simp only [boxesAt, addBox, Array.getD_eq_getD_getElem?, Array.getElem?_modify]
  by_cases h : b.level = j
  · rw [if_pos h, if_pos h.symm, ← getElem?_widened w.boxes (b.level + 1 - w.boxes.size) j]
    have hlt : j < (w.boxes ++ Array.replicate (b.level + 1 - w.boxes.size) #[]).size := by
      rw [Array.size_append, Array.size_replicate]
      omega
    rw [Array.getElem?_eq_getElem hlt]
    rfl
  · rw [if_neg h, if_neg fun e => h e.symm]
    exact getElem?_widened _ _ j

/-- The boxes that wait at levels below a bound. -/
def below (w : Worklists) (level : Nat) : List Box :=
  (List.range level).flatMap fun j => (w.boxesAt j).toList

/-- All boxes that wait. -/
def stored (w : Worklists) : List Box :=
  w.below w.boxes.size

theorem below_succ (w : Worklists) (level : Nat) :
    w.below (level + 1) = w.below level ++ (w.boxesAt level).toList := by
  rw [below, List.range_succ, List.flatMap_append, List.flatMap_singleton]
  rfl

theorem below_congr {w w' : Worklists} {level : Nat}
    (h : ∀ j < level, w'.boxesAt j = w.boxesAt j) : w'.below level = w.below level :=
  List.flatMap_congr fun j hj => by rw [h j (List.mem_range.mp hj)]

theorem stored_eq_below (w : Worklists) (level : Nat) (h : w.boxes.size ≤ level) :
    w.stored = w.below level := by
  induction level with
  | zero =>
    have hz : w.boxes.size = 0 := Nat.le_zero.mp h
    rw [stored, hz]
  | succ n ih =>
    by_cases hn : w.boxes.size = n + 1
    · rw [stored, hn]
    · have hempty : w.boxesAt n = #[] := by
        rw [boxesAt, Array.getD_eq_getD_getElem?, Array.getElem?_eq_none (by omega)]
        rfl
      rw [ih (by omega), below_succ, hempty, List.append_nil]

theorem stored_perm {w w' : Worklists} {level : Nat} {boxes : Array Box}
    (h : ∀ j, w'.boxesAt j = if j = level then boxes else w.boxesAt j) :
    (w'.stored ++ (w.boxesAt level).toList).Perm (w.stored ++ boxes.toList) := by
  let bound := max (max w.boxes.size w'.boxes.size) (level + 1)
  have hbelow : ∀ n, level < n → (w'.below n ++ (w.boxesAt level).toList).Perm
      (w.below n ++ boxes.toList) := by
    intro n hn
    induction n with
    | zero => omega
    | succ n ih =>
      rw [below_succ, below_succ, h n]
      by_cases he : n = level
      · have hlow : w'.below n = w.below n :=
          below_congr fun j hj => by rw [h j, if_neg (by omega)]
        rw [if_pos he, hlow, he, List.append_assoc, List.append_assoc]
        exact List.Perm.append_left _ List.perm_append_comm
      · rw [if_neg he, List.append_assoc, List.append_assoc]
        apply (List.Perm.append_left _ List.perm_append_comm).trans
        rw [← List.append_assoc]
        apply ((ih (by omega)).append_right _).trans
        rw [List.append_assoc]
        exact List.Perm.append_left _ List.perm_append_comm
  rw [stored_eq_below w bound (by omega), stored_eq_below w' bound (by omega)]
  exact hbelow bound (by omega)

theorem stored_addBox (w : Worklists) (b : Box) :
    (w.addBox b).stored.Perm (b :: w.stored) := by
  have h : ∀ j, (w.addBox b).boxesAt j =
      if j = b.level then (w.boxesAt b.level).push b else w.boxesAt j := by
    intro j
    rw [boxesAt_addBox]
    split
    next he => rw [he]
    next => rfl
  have hp := stored_perm h
  rw [Array.toList_push, ← List.append_assoc] at hp
  exact (List.perm_append_right_iff _).mp (hp.trans List.perm_append_comm)

theorem mem_stored {w : Worklists} {b : Box} (h : b ∈ w.stored) :
    ∃ level, b ∈ (w.boxesAt level).toList := by
  obtain ⟨level, -, hb⟩ := List.mem_flatMap.mp h
  exact ⟨level, hb⟩

end Worklists

end VolumeCodec
