import VolumeCodec.Proofs.BoxBounds

namespace VolumeCodec

/-- A box with one element is tested as that element. -/
def Box.subject (b : Box) (dims : Extents) : Subject :=
  if b.isPixel then .element (b.index dims) else .region (.box b)

/-- Something that is to be tested, and whether earlier decisions may imply then that it is
significant. -/
structure Due where
  subject : Subject
  inferable : Bool

/-- An empty shell is not tested. -/
def Shell.due (s : Shell) : List Due :=
  if s.isEmpty then [] else [⟨.region (.shell s), false⟩]

/-- What a significant subject leaves to be tested: a box its parts, and a shell the bands that are
peeled off it and its rest. -/
def Subject.offspring (x : Subject) (dims : Extents) : List Due :=
  match x with
  | element _ => []
  | region (.box b) => b.parts.map fun p => ⟨p.subject dims, true⟩
  | region (.shell s) =>
    ((s.peel dims).1.map fun b => ⟨b.subject dims, false⟩) ++ (s.peel dims).2.due

/-- What a decision on a subject leaves to be tested. -/
def Subject.successors (x : Subject) (significant : Bool) (dims : Extents) : List Due :=
  if significant then x.offspring dims else []

theorem Subject.mem_successors {x : Subject} {significant : Bool} {dims : Extents} {d : Due} :
    d ∈ x.successors significant dims ↔ significant = true ∧ d ∈ x.offspring dims := by
  unfold successors
  split <;> simp_all

variable {dims : Extents}

theorem Box.indices_subject (b : Box) (dims : Extents) :
    (b.subject dims).indices dims = (Region.box b).indices dims := by
  unfold subject
  split
  next h => exact (indices_of_isPixel h dims).symm
  next => rfl

/-- The places of the elements of what is due. -/
def duePlaces (dims : Extents) (todo : List Due) : List Nat :=
  todo.flatMap fun d => d.subject.indices dims

@[simp] theorem duePlaces_nil (dims : Extents) : duePlaces dims [] = [] := rfl

@[simp] theorem duePlaces_cons (dims : Extents) (d : Due) (todo : List Due) :
    duePlaces dims (d :: todo) = d.subject.indices dims ++ duePlaces dims todo := rfl

@[simp] theorem duePlaces_append (dims : Extents) (todo todo' : List Due) :
    duePlaces dims (todo ++ todo') = duePlaces dims todo ++ duePlaces dims todo' :=
  List.flatMap_append

theorem duePlaces_boxes (dims : Extents) (boxes : List Box) (inferable : Bool) :
    duePlaces dims (boxes.map fun b => ⟨b.subject dims, inferable⟩) = places dims boxes := by
  unfold duePlaces places
  rw [List.flatMap_map]
  exact List.flatMap_congr fun b _ => b.indices_subject dims

theorem duePlaces_due (dims : Extents) (level : Nat) :
    duePlaces dims (shellAt dims level).due =
      (Region.shell (shellAt dims level)).indices dims := by
  cases level with
  | zero => exact (indices_shellAt_zero dims).symm
  | succ level => exact List.append_nil _

namespace Subject

theorem offspring_shellAt (dims : Extents) (level : Nat) :
    (region (.shell (shellAt dims (level + 1)))).offspring dims =
      ((detailBands dims (level + 1)).map fun b => ⟨b.subject dims, false⟩) ++
        (shellAt dims level).due := by
  simp only [offspring, peel_shellAt]

/-- A subject as it arises in an array: a region has more than one element, or it is the shell of
some level. -/
def IsWhole (x : Subject) (dims : Extents) : Prop :=
  match x with
  | element _ => True
  | region (.box b) => b.isPixel = false ∧ b.isEmpty = false ∧ b.Within dims
  | region (.shell s) => ∃ level, s = shellAt dims (level + 1)

/-- A bound for how far a subject can be divided. -/
def size : Subject → Nat
  | element _ => 0
  | region (.box b) => b.extent.x + b.extent.y + b.extent.z
  | region (.shell s) => s.outer.x + s.outer.y + s.outer.z + s.level

def isShell : Subject → Bool
  | region (.shell _) => true
  | _ => false

theorem countP_isShell_map {α : Type} {f : α → Due} (l : List α)
    (h : ∀ a ∈ l, (f a).subject.isShell = false) :
    (l.map f).countP (·.subject.isShell) = 0 := by
  refine List.countP_eq_zero.mpr fun d hd => ?_
  obtain ⟨a, ha, rfl⟩ := List.mem_map.mp hd
  exact Bool.eq_false_iff.mp (h a ha)

variable {x : Subject} {d : Due}

theorem isWhole_box {b : Box} (he : b.isEmpty = false) (hw : b.Within dims) :
    (b.subject dims).IsWhole dims := by
  unfold Box.subject
  split
  next => trivial
  next hp => exact ⟨by simpa using hp, he, hw⟩

theorem isWhole_due {level : Nat} (hd : d ∈ (shellAt dims level).due) :
    d.subject.IsWhole dims := by
  cases level with
  | zero => cases hd
  | succ level =>
    rw [List.mem_singleton.mp hd]
    exact ⟨level, rfl⟩

/-- What comes off a subject: a part of a box, or a band or the rest of a shell. -/
theorem offspring_cases (h : x.IsWhole dims) (hd : d ∈ x.offspring dims) :
    (∃ b p, x = region (.box b) ∧ p ∈ b.parts ∧ d = ⟨p.subject dims, true⟩) ∨
    (∃ level b, x = region (.shell (shellAt dims (level + 1))) ∧
      b ∈ detailBands dims (level + 1) ∧ d = ⟨b.subject dims, false⟩) ∨
    ∃ level, x = region (.shell (shellAt dims (level + 2))) ∧
      d = ⟨region (.shell (shellAt dims (level + 1))), false⟩ := by
  match x with
  | element _ => cases hd
  | region (.box b) =>
    obtain ⟨p, hp, rfl⟩ := List.mem_map.mp hd
    exact .inl ⟨b, p, rfl, hp, rfl⟩
  | region (.shell s) =>
    obtain ⟨level, rfl⟩ := h
    rw [offspring_shellAt] at hd
    rcases List.mem_append.mp hd with hd | hd
    · obtain ⟨b, hb, rfl⟩ := List.mem_map.mp hd
      exact .inr (.inl ⟨level, b, rfl, hb, rfl⟩)
    · cases level with
      | zero => cases hd
      | succ level => exact .inr (.inr ⟨level, rfl, List.mem_singleton.mp hd⟩)

theorem isWhole_offspring (h : x.IsWhole dims) (hd : d ∈ x.offspring dims) :
    d.subject.IsWhole dims := by
  rcases offspring_cases h hd with ⟨b, p, rfl, hp, rfl⟩ | ⟨level, b, -, hb, rfl⟩ | ⟨level, -, rfl⟩
  · exact isWhole_box (mem_parts hp).2 (h.2.2.of_mem_parts hp)
  · exact isWhole_box (mem_detailBands hb).2 (.of_mem_detailBands hb)
  · exact ⟨level, rfl⟩

/-- A region and its offspring have the same elements. -/
theorem indices_offspring {r : Region} (h : (region r).IsWhole dims) :
    (duePlaces dims ((region r).offspring dims)).Perm (r.indices dims) := by
  match r with
  | .box b =>
    rw [offspring, duePlaces_boxes]
    exact places_parts dims b
  | .shell s =>
    obtain ⟨level, rfl⟩ := h
    rw [offspring_shellAt, duePlaces_append, duePlaces_boxes, duePlaces_due]
    exact (places_peel dims level).symm

theorem indices_of_offspring (h : x.IsWhole dims) (hd : d ∈ x.offspring dims) :
    ∀ i ∈ d.subject.indices dims, i ∈ x.indices dims := by
  intro i hi
  match x with
  | element _ => cases hd
  | region r => exact (indices_offspring h).mem_iff.mp (List.mem_flatMap.mpr ⟨d, hd, hi⟩)

theorem size_box_le {b : Box} (h : b.Within dims) :
    (b.subject dims).size ≤ dims.x + dims.y + dims.z := by
  obtain ⟨hx, hy, hz⟩ := h
  unfold Box.subject
  split
  next => exact Nat.zero_le _
  next =>
    simp only [size]
    omega

theorem size_pos {b : Box} (h : b.isEmpty = false) : 0 < (region (.box b)).size := by
  have hpos := isFlat_eq_false_iff.mp h
  simp only [size]
  omega

theorem size_part_lt {b p : Box} (he : b.isEmpty = false) (hp : p ∈ b.parts) :
    (p.subject dims).size < (region (.box b)).size := by
  unfold Box.subject
  split
  next => exact size_pos he
  next hs =>
    have hpart := (mem_parts hp).2
    obtain ⟨corner, -, rfl⟩ := List.mem_map.mp (List.mem_filter.mp hp).1
    exact Box.part_extent_lt hpart (by simpa using hs)

theorem size_offspring_lt (h : x.IsWhole dims) (hd : d ∈ x.offspring dims) :
    d.subject.size < x.size := by
  rcases offspring_cases h hd with
    ⟨b, p, rfl, hp, rfl⟩ | ⟨level, b, rfl, hb, rfl⟩ | ⟨level, rfl, rfl⟩
  · exact size_part_lt h.2.1 hp
  · exact Nat.lt_of_le_of_lt (size_box_le (.of_mem_detailBands hb))
      (Nat.lt_add_of_pos_right (Nat.succ_pos level))
  · exact Nat.lt_succ_self _

theorem isShell_box (b : Box) (dims : Extents) : (b.subject dims).isShell = false := by
  unfold Box.subject
  split <;> rfl

theorem countP_offspring_le {r : Region} (h : (region r).IsWhole dims) :
    ((region r).offspring dims).countP (·.subject.isShell) ≤
      if (region r).isShell then 1 else 0 := by
  match r with
  | .box b => exact Nat.le_of_eq (countP_isShell_map _ fun p _ => isShell_box p dims)
  | .shell s =>
    obtain ⟨level, rfl⟩ := h
    rw [offspring_shellAt, List.countP_append,
      countP_isShell_map _ fun b _ => isShell_box b dims, Nat.zero_add]
    cases level with
    | zero => exact Nat.zero_le 1
    | succ level => exact Nat.le_refl 1

theorem indices_ne_nil (h : x.IsWhole dims) (hs : x.isShell = false) : x.indices dims ≠ [] := by
  match x with
  | element i => simp [indices]
  | region (.box b) =>
    have hvol := volume_pos h.2.1
    rw [← length_indices_box b dims] at hvol
    exact List.ne_nil_of_length_pos hvol
  | region (.shell s) => cases hs

theorem size_lt_of_isShell {y : Subject} (hx : x.IsWhole dims) (hs : x.isShell = true)
    (hy : y.IsWhole dims) (hn : y.isShell = false) : y.size < x.size := by
  match x, y with
  | region (.shell s), element j =>
    obtain ⟨level, rfl⟩ := hx
    exact Nat.succ_pos _
  | region (.shell s), region (.box b) =>
    obtain ⟨level, rfl⟩ := hx
    obtain ⟨hx, hy, hz⟩ := hy.2.2
    simp only [size, shellAt]
    omega
  | region (.shell s), region (.shell s') => cases hn
  | element i, _ => cases hs
  | region (.box b), _ => cases hs

/-- One subject can be tested after another one without being the same: it is smaller, or it lies
elsewhere. -/
def Follows (dims : Extents) (x y : Subject) : Prop :=
  y.size < x.size ∨ (x.indices dims ≠ [] ∧ ∀ i ∈ x.indices dims, i ∉ y.indices dims)

theorem Follows.ne {y : Subject} (h : x.Follows dims y) : x ≠ y := by
  rintro rfl
  rcases h with h | ⟨hne, h⟩
  · exact Nat.lt_irrefl _ h
  · obtain ⟨i, hi⟩ := List.exists_mem_of_ne_nil _ hne
    exact h i hi hi

theorem Follows.offspring {y : Subject} (h : x.Follows dims y) (hy : y.IsWhole dims)
    (hd : d ∈ y.offspring dims) : x.Follows dims d.subject := by
  rcases h with h | ⟨hne, h⟩
  · exact .inl (Nat.lt_trans (size_offspring_lt hy hd) h)
  · exact .inr ⟨hne, fun i hi hm => h i hi (indices_of_offspring hy hd i hm)⟩

end Subject

/-- What is due at one time: whole subjects, of which no two have an element in common, with one
shell at most. -/
structure ArePending (dims : Extents) (todo : List Due) : Prop where
  whole : ∀ d ∈ todo, d.subject.IsWhole dims
  nodup : (duePlaces dims todo).Nodup
  shell : todo.countP (·.subject.isShell) ≤ 1

namespace ArePending

variable {todo todo' : List Due} {d : Due}

theorem perm (h : ArePending dims todo) (hp : todo.Perm todo') : ArePending dims todo' where
  whole d hd := h.whole d (hp.mem_iff.mpr hd)
  nodup := (hp.flatMap_right _).nodup_iff.mp h.nodup
  shell := hp.countP_eq _ ▸ h.shell

theorem rest (h : ArePending dims (d :: todo)) : ArePending dims todo where
  whole e he := h.whole e (List.mem_cons_of_mem _ he)
  nodup := (List.nodup_append.mp h.nodup).2.1
  shell := Nat.le_trans ((List.sublist_cons_self d todo).countP_le) h.shell

theorem divide {r : Region} {inferable : Bool}
    (h : ArePending dims (⟨.region r, inferable⟩ :: todo)) :
    ArePending dims (todo ++ (Subject.region r).offspring dims) := by
  have hr := h.whole _ List.mem_cons_self
  refine ⟨fun d hd => ?_, ?_, ?_⟩
  · rcases List.mem_append.mp hd with hd | hd
    · exact h.rest.whole d hd
    · exact Subject.isWhole_offspring hr hd
  · rw [duePlaces_append]
    have hp := (Subject.indices_offspring hr).append_left (duePlaces dims todo)
    exact (hp.trans List.perm_append_comm).nodup_iff.mpr h.nodup
  · have hcount := h.shell
    have hle := Subject.countP_offspring_le hr
    rw [List.countP_cons] at hcount
    rw [List.countP_append]
    exact Nat.le_trans (Nat.add_le_add_left hle _) hcount

/-- After a decision its subject is no longer due, but the offspring of a significant one is. -/
theorem next {x : Subject} {inferable : Bool} (h : ArePending dims (⟨x, inferable⟩ :: todo))
    (significant : Bool) : ArePending dims (todo ++ x.successors significant dims) := by
  cases significant with
  | false =>
    rw [Subject.successors, if_neg Bool.false_ne_true, List.append_nil]
    exact h.rest
  | true =>
    rw [Subject.successors, if_pos rfl]
    cases x with
    | element i =>
      rw [Subject.offspring, List.append_nil]
      exact h.rest
    | region r => exact h.divide

theorem follows (h : ArePending dims (d :: todo)) :
    ∀ e ∈ todo, d.subject.Follows dims e.subject := by
  intro e he
  have hd := h.whole d List.mem_cons_self
  have hwhole := h.rest.whole e he
  cases hs : d.subject.isShell with
  | false =>
    obtain ⟨-, -, hdisj⟩ := List.nodup_append.mp h.nodup
    exact .inr ⟨Subject.indices_ne_nil hd hs, fun i hi hm =>
      hdisj i hi i (List.mem_flatMap.mpr ⟨e, he, hm⟩) rfl⟩
  | true =>
    -- A shell may have no elements, but it is larger than all that is not a shell.
    have hcount := h.shell
    rw [List.countP_cons, if_pos hs] at hcount
    have hnone : todo.countP (·.subject.isShell) = 0 :=
      Nat.le_zero.mp (Nat.le_of_succ_le_succ hcount)
    have hshell := List.countP_eq_zero.mp hnone e he
    exact .inl (Subject.size_lt_of_isShell hd hs hwhole (Bool.not_eq_true _ ▸ hshell))

end ArePending

end VolumeCodec
