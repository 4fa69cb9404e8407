import Mathlib.Data.List.Sort
import VolumeCodec.Proofs.Dissection

namespace VolumeCodec

section Scanning

variable {α β σ : Type}

/-- Asks a test about the members of a list one after another until it says yes. The test may
remember what it has been asked. -/
def scan (test : α → σ → Bool × σ) : List α → σ → Bool × σ
  | [], s => (false, s)
  | a :: rest, s =>
    match test a s with
    | (true, s) => (true, s)
    | (false, s) => scan test rest s

/-- A test that also notes what it was asked and what it said. -/
def noted (test : α → σ → Bool × σ) (a : α) (s : σ × List (α × Bool)) :
    Bool × σ × List (α × Bool) :=
  ((test a s.1).1, (test a s.1).2, s.2 ++ [(a, (test a s.1).1)])

/-- What a scan of a list has found and seen: the list from its first member on up to the first that
the test accepts, or all of it. -/
structure IsScan (test : α → σ → Bool × σ) (all : List α) (found : Bool)
    (seen : List (α × Bool)) : Prop where
  initial : seen.map Prod.fst <+: all
  found_iff : found = true ↔ ∃ x ∈ seen, x.2 = true
  rejected : ∀ x ∈ seen.dropLast, x.2 = false
  complete : found = false → seen.map Prod.fst = all
  unstopped : (∀ a s, (test a s).1 = false) → found = false

theorem IsScan.cons_rejected {test : α → σ → Bool × σ} {a : α} {rest : List α} {found : Bool}
    {seen : List (α × Bool)} (h : IsScan test rest found seen) :
    IsScan test (a :: rest) found ((a, false) :: seen) where
  initial := List.cons_prefix_cons.mpr ⟨rfl, h.initial⟩
  found_iff := by simp [h.found_iff]
  rejected x hx := by
    cases seen with
    | nil => cases hx
    | cons y seen =>
      rcases List.mem_cons.mp hx with rfl | hx
      · rfl
      · exact h.rejected x hx
  complete hf := by rw [List.map_cons, h.complete hf]
  unstopped := h.unstopped

theorem scan_noted (test : α → σ → Bool × σ) (all : List α) (s : σ) (log : List (α × Bool)) :
    ∃ seen, scan (noted test) all (s, log) =
        ((scan test all s).1, (scan test all s).2, log ++ seen) ∧
      IsScan test all (scan test all s).1 seen := by
  induction all generalizing s log with
  | nil =>
    exact ⟨[], by simp [scan], ⟨List.prefix_rfl, by simp [scan], by simp, by simp, by simp [scan]⟩⟩
  | cons a rest ih =>
    cases hb : test a s with
    | mk b t =>
      cases b with
      | true =>
        refine ⟨[(a, true)], by simp [scan, noted, hb], ⟨?_, by simp [scan, hb], by simp,
          by simp [scan, hb], fun h => ?_⟩⟩
        · exact List.cons_prefix_cons.mpr ⟨rfl, List.nil_prefix⟩
        · have hfalse := h a s
          rw [hb] at hfalse
          cases hfalse
      | false =>
        obtain ⟨seen, hscan, hseen⟩ := ih t (log ++ [(a, false)])
        refine ⟨(a, false) :: seen, ?_, ?_⟩
        · simpa [scan, noted, hb] using hscan
        · simpa [scan, hb] using hseen.cons_rejected (a := a)

/-- To scan row after row is to scan the rows put together. -/
theorem scan_flatMap (test : β → σ → Bool × σ) (row : α → List β) (rows : List α) (s : σ) :
    scan (fun a => scan test (row a)) rows s = scan test (rows.flatMap row) s := by
  have happend : ∀ (xs ys : List β) (s : σ), scan test (xs ++ ys) s =
      match scan test xs s with
      | (true, s) => (true, s)
      | (false, s) => scan test ys s := by
    intro xs ys s
    induction xs generalizing s with
    | nil => rfl
    | cons x xs ih =>
      rw [List.cons_append, scan, scan]
      rcases test x s with ⟨_ | _, t⟩
      · exact ih t
      · rfl
  induction rows generalizing s with
  | nil => rfl
  | cons a rows ih =>
    rw [List.flatMap_cons, happend, scan]
    rcases scan test (row a) s with ⟨_ | _, t⟩
    · exact ih t
    · rfl

/-- A test without memory is asked about the members before the first that it accepts, and about
that one. -/
theorem scan_memoryless (p : α → Bool) (all seen : List α) :
    scan (fun a seen => (p a, seen ++ [a])) all seen =
      (all.any p, seen ++ all.take ((all.takeWhile fun a => !p a).length + 1)) := by
  induction all generalizing seen with
  | nil => simp [scan]
  | cons a rest ih =>
    cases h : p a with
    | true => simp [scan, h]
    | false => simp [scan, h, ih]

end Scanning

namespace Region

/-- The scan of a region, row after row. -/
def scan {σ : Type} (r : Region) (dims : Extents) (test : Nat → σ → Bool × σ) : σ → Bool × σ :=
  VolumeCodec.scan (fun row => VolumeCodec.scan test (List.range' row.1 row.2)) (r.rows dims)

theorem scan_eq {σ : Type} (r : Region) (dims : Extents) (test : Nat → σ → Bool × σ) (s : σ) :
    r.scan dims test s = VolumeCodec.scan test (r.indices dims) s :=
  scan_flatMap test (fun row : Nat × Nat => List.range' row.1 row.2) (r.rows dims) s

/-- With a test that has no memory, the scan finds what `any` says and asks about the elements that
`tried` lists. -/
theorem scan_any (r : Region) (dims : Extents) (p : Nat → Bool) :
    r.scan dims (fun i seen => (p i, seen ++ [i])) [] = (r.any dims p, r.tried dims p) := by
  rw [scan_eq, scan_memoryless, any_eq]
  rfl

/-- The scan of a region by any test is a scan of the given places. -/
def ScansAs (r : Region) (dims : Extents) (all : List Nat) : Prop :=
  ∀ (σ : Type) (test : Nat → σ → Bool × σ) (s : σ),
    ∃ seen, r.scan dims (noted test) (s, []) =
        ((r.scan dims test s).1, (r.scan dims test s).2, seen) ∧
      IsScan test all (r.scan dims test s).1 seen

theorem scansAs_indices (r : Region) (dims : Extents) : r.ScansAs dims (r.indices dims) := by
  intro σ test s
  simpa only [scan_eq, List.nil_append] using scan_noted test (r.indices dims) s []

end Region

section Order

variable {dims : Extents}

/-- A row ends where a later row starts, or before. -/
theorem index_add_le {x y z n x' y' z' : Nat} (hx : x + n ≤ dims.x) (hy : y < dims.y)
    (hlt : z < z' ∨ z = z' ∧ y < y') :
    dims.index ⟨x, y, z⟩ + n ≤ dims.index ⟨x', y', z'⟩ := by
  have hrow : z * dims.y + y + 1 ≤ z' * dims.y + y' := by
    rcases hlt with hz | ⟨rfl, hy'⟩
    · have hslice : (z + 1) * dims.y ≤ z' * dims.y := Nat.mul_le_mul_right _ hz
      rw [Nat.succ_mul] at hslice
      omega
    · omega
  have hstart := Nat.mul_le_mul_right dims.x hrow
  rw [Nat.succ_mul] at hstart
  simp only [Axes.index]
  omega

/-- Rows of which each ends before the next ones start are laid out in ascending order. -/
theorem pairwise_lt_rows {rows : List (Nat × Nat)}
    (h : rows.Pairwise fun r r' => r.1 + r.2 ≤ r'.1) :
    (rows.flatMap fun r => List.range' r.1 r.2).Pairwise (· < ·) := by
  refine List.pairwise_flatMap.mpr
    ⟨fun r _ => List.pairwise_lt_range', h.imp fun hle i hi i' hi' => ?_⟩
  rw [List.mem_range'_1] at hi hi'
  omega

theorem pairwise_indices_shell {inner : Extents} {level : Nat} (hx : inner.x ≤ dims.x) :
    ((Region.shell ⟨inner, dims, level⟩).indices dims).Pairwise (· < ·) := by
  have hend : ∀ y z, (if z < inner.z ∧ y < inner.y then inner.x else 0) +
      (dims.x - if z < inner.z ∧ y < inner.y then inner.x else 0) ≤ dims.x := by
    intro y z
    split <;> omega
  apply pairwise_lt_rows
  refine List.pairwise_flatMap.mpr ⟨fun z _ => List.pairwise_map.mpr ?_, ?_⟩
  · exact List.pairwise_lt_range.imp_of_mem fun hy _ hlt => index_add_le (hend _ z)
      (List.mem_range.mp hy) (.inr ⟨rfl, hlt⟩)
  · refine List.pairwise_lt_range.imp fun hlt r hr r' hr' => ?_
    obtain ⟨y, hy, rfl⟩ := List.mem_map.mp hr
    obtain ⟨y', -, rfl⟩ := List.mem_map.mp hr'
    exact index_add_le (hend y _) (List.mem_range.mp hy) (.inl hlt)

theorem pairwise_indices_box {b : Box} (hb : b.Within dims) :
    ((Region.box b).indices dims).Pairwise (· < ·) := by
  have hbx := hb.x
  have hby := hb.y
  have hlt : ∀ {y}, y ∈ List.range' b.origin.y b.extent.y → y < dims.y := by
    intro y hy
    rw [List.mem_range'_1] at hy
    omega
  apply pairwise_lt_rows
  refine List.pairwise_flatMap.mpr ⟨fun z _ => List.pairwise_map.mpr ?_, ?_⟩
  · exact List.Pairwise.imp_of_mem (fun hy _ hlt' => index_add_le hbx (hlt hy)
      (.inr ⟨rfl, hlt'⟩)) List.pairwise_lt_range'
  · refine List.Pairwise.imp (fun hlt' r hr r' hr' => ?_) List.pairwise_lt_range'
    obtain ⟨y, hy, rfl⟩ := List.mem_map.mp hr
    obtain ⟨y', -, rfl⟩ := List.mem_map.mp hr'
    exact index_add_le hbx (hlt hy) (.inl hlt')

/-- An ascending list of numbers below a bound holds those that have a property, each once. -/
theorem eq_filter_range {l : List Nat} {n : Nat} {p : Nat → Bool} (h : l.Pairwise (· < ·))
    (hmem : ∀ i, i ∈ l ↔ i < n ∧ p i = true) : l = (List.range n).filter p := by
  have hperm : l.Perm ((List.range n).filter p) :=
    (List.perm_ext_iff_of_nodup (h.imp Nat.ne_of_lt)
      (List.nodup_range.filter p)).mpr fun i => by simp [hmem]
  exact hperm.eq_of_pairwise (fun i j _ _ hij hji => absurd hij (Nat.lt_asymm hji)) h
    (List.pairwise_lt_range.filter p)

end Order

/-- The point whose place is given. -/
def Axes.pointAt (dims : Extents) (i : Nat) : Extents :=
  ⟨i % dims.x, i / dims.x % dims.y, i / dims.x / dims.y⟩

section Points

variable {dims : Extents}

theorem index_pointAt (dims : Extents) (i : Nat) : dims.index (dims.pointAt i) = i := by
  simp only [Axes.index, Axes.pointAt]
  rw [Nat.mul_comm _ dims.y, Nat.div_add_mod, Nat.mul_comm, Nat.div_add_mod]

theorem pointAt_index {p : Extents} (hx : p.x < dims.x) (hy : p.y < dims.y) :
    dims.pointAt (dims.index p) = p := by
  have hrow : dims.index p / dims.x = p.z * dims.y + p.y := by
    rw [Axes.index, Nat.mul_comm, Nat.mul_add_div (by omega), Nat.div_eq_of_lt hx, Nat.add_zero]
  have hplace : dims.index p % dims.x = p.x := by
    rw [Axes.index, Nat.mul_add_mod_self_right, Nat.mod_eq_of_lt hx]
  simp only [Axes.pointAt, hrow, hplace]
  rw [Nat.mul_add_mod_self_right, Nat.mod_eq_of_lt hy, Nat.mul_comm p.z,
    Nat.mul_add_div (by omega), Nat.div_eq_of_lt hy, Nat.add_zero]

instance (b : Box) (point : Extents) : Decidable (b.Contains point) :=
  decidable_of_iff ((b.origin.x ≤ point.x ∧ point.x < b.origin.x + b.extent.x) ∧
      (b.origin.y ≤ point.y ∧ point.y < b.origin.y + b.extent.y) ∧
      (b.origin.z ≤ point.z ∧ point.z < b.origin.z + b.extent.z))
    ⟨fun h => ⟨h.1, h.2.1, h.2.2⟩, fun h => ⟨h.x, h.y, h.z⟩⟩

theorem mem_indices_box {b : Box} {i : Nat} : i ∈ (Region.box b).indices dims ↔
    ∃ point, b.Contains point ∧ dims.index point = i := by
  rw [Region.indices_box]
  unfold grid
  simp only [List.mem_flatMap, List.mem_map, List.mem_range'_1]
  constructor
  · intro h
    obtain ⟨z, hz, y, hy, x, hx, rfl⟩ := h
    exact ⟨⟨x, y, z⟩, ⟨hx, hy, hz⟩, rfl⟩
  · intro h
    obtain ⟨⟨x, y, z⟩, hb, rfl⟩ := h
    exact ⟨z, hb.z, y, hb.y, x, hb.x, rfl⟩

theorem index_lt_volume {p : Extents} (hx : p.x < dims.x) (hy : p.y < dims.y) (hz : p.z < dims.z) :
    dims.index p < dims.volume := by
  have hle : dims.index p + 1 ≤ dims.index ⟨0, 0, dims.z⟩ :=
    index_add_le (y := p.y) (z := p.z) (by omega) hy (.inl hz)
  rw [Axes.volume, Nat.mul_comm dims.x, Nat.mul_comm _ dims.z, ← Nat.mul_assoc]
  simpa [Axes.index, Nat.succ_le_iff] using hle

/-- A box holds the places of its points, in ascending order and each once. -/
theorem indices_box_eq {b : Box} (hb : b.Within dims) : (Region.box b).indices dims =
    (List.range dims.volume).filter fun i => b.Contains (dims.pointAt i) := by
  have hbx := hb.x
  have hby := hb.y
  have hbz := hb.z
  refine eq_filter_range (pairwise_indices_box hb) fun i => ?_
  rw [mem_indices_box, decide_eq_true_iff]
  constructor
  · intro h
    obtain ⟨point, hp, rfl⟩ := h
    have hx := hp.x
    have hy := hp.y
    have hz := hp.z
    have hpx : point.x < dims.x := by omega
    have hpy : point.y < dims.y := by omega
    refine ⟨index_lt_volume hpx hpy (by omega), ?_⟩
    rwa [pointAt_index hpx hpy]
  · exact fun h => ⟨_, h.2, index_pointAt dims i⟩

end Points

/-- Takes bands off a shell so many times: all the bands, and what is left. -/
def Shell.peelTimes (s : Shell) (dims : Extents) : Nat → List Box × Shell
  | 0 => ([], s)
  | j + 1 =>
    let (bands, rest) := s.peelTimes dims j
    let (more, rest) := rest.peel dims
    (bands ++ more, rest)

section Peeling

variable {dims : Extents}

/-- What has been peeled off and what is left make up the shell. -/
theorem peelTimes_shellAt (dims : Extents) (level j : Nat) :
    ((shellAt dims level).peelTimes dims j).2 = shellAt dims (level - j) ∧
      ((Region.shell (shellAt dims level)).indices dims).Perm
        (places dims ((shellAt dims level).peelTimes dims j).1 ++
          (Region.shell (shellAt dims (level - j))).indices dims) := by
  induction j with
  | zero => exact ⟨rfl, .rfl⟩
  | succ j ih =>
    obtain ⟨hrest, hplaces⟩ := ih
    simp only [Shell.peelTimes, hrest]
    cases hl : level - j with
    | zero =>
      have hzero : level - (j + 1) = 0 := by omega
      rw [hl] at hplaces
      simpa [Shell.peel, Shell.isEmpty, shellAt, hzero] using hplaces
    | succ l =>
      have hsub : level - (j + 1) = l := by omega
      rw [hl] at hplaces
      rw [peel_shellAt, hsub]
      refine ⟨rfl, hplaces.trans ?_⟩
      rw [places_append, List.append_assoc]
      exact (places_peel dims l).append_left _

/-- What is left after some peels are the places that neither the approximation nor a band took, in
ascending order. -/
theorem indices_peelTimes (dims : Extents) (j : Nat) :
    (Region.shell ((partition dims).2.peelTimes dims j).2).indices dims =
      (List.range dims.volume).filter fun i =>
        i ∉ places dims ((partition dims).1 :: ((partition dims).2.peelTimes dims j).1) := by
  obtain ⟨hrest, hplaces⟩ := peelTimes_shellAt dims (partitionLevels dims) j
  have hpart := places_partition dims
  rw [partition_eq] at hpart ⊢
  have hall := ((hplaces.append_left _).symm.trans hpart)
  rw [← List.append_assoc, ← places_cons] at hall
  have hdisjoint := List.nodup_append.mp (hall.nodup_iff.mpr List.nodup_range)
  rw [hrest]
  refine eq_filter_range (pairwise_indices_shell (approximation_le dims.x _)) fun i => ?_
  rw [decide_eq_true_iff, ← List.mem_range, ← hall.mem_iff, List.mem_append]
  constructor
  · exact fun h => ⟨.inr h, fun h' => hdisjoint.2.2 i h' i h rfl⟩
  · exact fun h => h.1.resolve_left h.2

theorem eight_le_of_levelsOf {n : Nat} (h : 0 < levelsOf n) : 8 ≤ n := by
  unfold levelsOf at h
  split at h
  next => cases h
  next hn => exact Nat.not_lt.mp hn

/-- An array that has levels has an axis that they halve. -/
theorem exists_halved (h : 0 < partitionLevels dims) : 2 ≤ dims.x ∨ 2 ≤ dims.y ∨ 2 ≤ dims.z := by
  have height := eight_le_of_levelsOf h
  cases hm : (dims.toList.filter (1 < ·)).min? with
  | none => rw [hm] at height; cases height.not_gt (by decide)
  | some n =>
    obtain ⟨hn, -⟩ := List.mem_filter.mp (List.min?_mem hm)
    rw [hm, Option.getD_some] at height
    have haxis : n = dims.x ∨ n = dims.y ∨ n = dims.z := by simpa [Axes.toList] using hn
    omega

theorem approximation_succ_lt {n : Nat} (hn : 2 ≤ n) (level : Nat) :
    (bandLengths n (level + 1)).1 < n := by
  have hle := approximation_le n level
  simp only [bandLengths]
  omega

/-- As long as levels are left, something is left. -/
theorem indices_shellAt_ne_nil (hd : dims.validate = .ok ()) {level : Nat}
    (hl : level + 1 ≤ partitionLevels dims) :
    (Region.shell (shellAt dims (level + 1))).indices dims ≠ [] := by
  intro hnil
  have hlength := (indices_shellAt dims (level + 1)).length_eq
  rw [hnil, List.append_nil, length_grid] at hlength
  simp only [List.length_range, approximation, Axes.map, Axes.volume] at hlength
  obtain ⟨hx, hy, hz⟩ := pos_of_validate hd
  have hlex := approximation_le dims.x (level + 1)
  have hley := approximation_le dims.y (level + 1)
  have hlez := approximation_le dims.z (level + 1)
  have hshort : ∀ {a b c a' b' c' : Nat}, 0 < a → 0 < b → 0 < c → a' ≤ a → b' ≤ b → c' ≤ c →
      (a' < a ∨ b' < b ∨ c' < c) → a' * b' * c' ≠ a * b * c := by
    intro a b c a' b' c' ha hb hc hla hlb hlc hlt
    apply Nat.ne_of_lt
    rcases hlt with hlt | hlt | hlt
    · exact Nat.mul_lt_mul_of_lt_of_le (Nat.mul_lt_mul_of_lt_of_le hlt hlb hb) hlc hc
    · exact Nat.mul_lt_mul_of_lt_of_le (Nat.mul_lt_mul_of_le_of_lt hla hlt ha) hlc hc
    · exact Nat.mul_lt_mul_of_le_of_lt (Nat.mul_le_mul hla hlb) hlt (Nat.mul_pos ha hb)
  refine hshort hx hy hz hlex hley hlez ?_ hlength
  exact (exists_halved (by omega)).imp (approximation_succ_lt · level)
    (Or.imp (approximation_succ_lt · level) (approximation_succ_lt · level))

/-- A peeled shell is empty exactly when it holds no element. -/
theorem isEmpty_peelTimes (hd : dims.validate = .ok ()) (j : Nat) :
    ((partition dims).2.peelTimes dims j).2.isEmpty = true ↔
      (Region.shell ((partition dims).2.peelTimes dims j).2).indices dims = [] := by
  rw [partition_eq, (peelTimes_shellAt dims (partitionLevels dims) j).1]
  cases hl : partitionLevels dims - j with
  | zero => simp [Shell.isEmpty, shellAt, ← indices_shellAt_zero dims]
  | succ level =>
    have hlevel : level + 1 ≤ partitionLevels dims := by omega
    have hnot : ¬(shellAt dims (level + 1)).isEmpty = true := by simp [shellAt, Shell.isEmpty]
    exact ⟨fun h => absurd h hnot, fun h => absurd h (indices_shellAt_ne_nil hd hlevel)⟩

end Peeling

/-- After any number of peels the scan of the shell is a scan of what is left: of the places that
neither the approximation nor a band took. The shell says that it is empty exactly when nothing is
left. The scan of a box in an array is a scan of its points. With a test that has no memory a scan
finds what `any` says. -/
theorem scans_exact {dims : Extents} (hd : dims.validate = .ok ()) :
    (∀ j, let (bands, rest) := (partition dims).2.peelTimes dims j
      let left := (List.range dims.volume).filter fun i =>
        i ∉ places dims ((partition dims).1 :: bands)
      (Region.shell rest).ScansAs dims left ∧ (rest.isEmpty = true ↔ left = [])) ∧
    (∀ b : Box, b.Within dims → (Region.box b).ScansAs dims
      ((List.range dims.volume).filter fun i => b.Contains (dims.pointAt i))) ∧
    ∀ (r : Region) (p : Nat → Bool),
      r.scan dims (fun i seen => (p i, seen ++ [i])) [] = (r.any dims p, r.tried dims p) := by
  refine ⟨fun j => ?_, fun b hb => ?_, fun r p => r.scan_any dims p⟩
  · simp only [← indices_peelTimes]
    exact ⟨Region.scansAs_indices _ _, isEmpty_peelTimes hd j⟩
  · rw [← indices_box_eq hb]
    exact Region.scansAs_indices _ _

/-- In a row of eight the shell starts as the far half, and one peel leaves nothing of it. -/
theorem scans_exact_row :
    (Axes.row 8).validate = .ok () ∧
      (Region.shell ((partition (Axes.row 8)).2.peelTimes (Axes.row 8) 0).2).ScansAs (Axes.row 8)
        [4, 5, 6, 7] ∧
      ((partition (Axes.row 8)).2.peelTimes (Axes.row 8) 1).2.isEmpty = true := by
  have hd : (Axes.row 8).validate = .ok () := rfl
  obtain ⟨hpeeled, -⟩ := scans_exact hd
  exact ⟨hd, (hpeeled 0).1, (hpeeled 1).2.mpr (by decide +kernel)⟩

end VolumeCodec
