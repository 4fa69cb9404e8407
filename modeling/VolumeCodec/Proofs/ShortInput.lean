import VolumeCodec.Proofs.HeaderBytes

namespace VolumeCodec

variable {α β : Type}

/-- A fault was found, and it is the data that is to blame. -/
def BlamesData (r : Except Fault α) : Prop :=
  ∃ fault, r = .error fault ∧ fault.comesFromData = true

theorem BlamesData.bind {r : Except Fault α} (h : BlamesData r) (f : α → Except Fault β) :
    BlamesData (r >>= f) := by
  obtain ⟨fault, rfl, hdata⟩ := h
  exact ⟨fault, rfl, hdata⟩

namespace Reader

/-- A reader is content with nothing less than some bytes. Of a part of them it says that the data
is at fault. With all of them, whatever comes behind, it makes a value that has a property and leaves
the rest, unless it finds the data at fault all the same. -/
structure Demands (r : Reader α) (bytes : List UInt8) (post : α → Prop) : Prop where
  short : ∀ k < bytes.length, BlamesData (r.from (bytes.take k)).1
  enough : ∀ rest, (∃ a, r.from (bytes ++ rest) = (.ok a, rest) ∧ post a) ∨
    BlamesData (r.from (bytes ++ rest)).1

section Rules

variable {r : Reader α} {bytes more : List UInt8} {post : α → Prop} {post' : β → Prop}

theorem blamesData_bind (h : BlamesData (r.from bytes).1) (f : α → Reader β) :
    BlamesData ((r >>= f).from bytes).1 := by
  obtain ⟨fault, hfault, hdata⟩ := h
  rw [from_bind]
  rcases hr : r.from bytes with ⟨e | a, rest⟩
  · rw [hr] at hfault
    cases hfault
    exact ⟨fault, rfl, hdata⟩
  · rw [hr] at hfault
    cases hfault

/-- The second reader is asked to make do with a part of its own bytes only where the first one has
all of its. -/
theorem Demands.bind {f : α → Reader β} (h : r.Demands bytes post)
    (hf : ∀ a, post a → (f a).Demands more post') : (r >>= f).Demands (bytes ++ more) post' where
  short k hk := by
    rw [List.length_append] at hk
    rw [List.take_append]
    rcases Nat.lt_or_ge k bytes.length with hlt | hge
    · rw [Nat.sub_eq_zero_of_le (Nat.le_of_lt hlt), List.take_zero, List.append_nil]
      exact blamesData_bind (h.short k hlt) f
    · rw [List.take_of_length_le hge]
      rcases h.enough (more.take (k - bytes.length)) with ⟨a, hr, ha⟩ | hdata
      · rw [bind_from_of_ok hr]
        exact (hf a ha).short _ (by omega)
      · exact blamesData_bind hdata f
  enough rest := by
    rw [List.append_assoc]
    rcases h.enough (more ++ rest) with ⟨a, hr, ha⟩ | hdata
    · rw [bind_from_of_ok hr]
      exact (hf a ha).enough rest
    · exact .inr (blamesData_bind hdata f)

theorem Demands.map {f : α → β} (h : r.Demands bytes post) (hf : ∀ a, post a → post' (f a)) :
    (f <$> r).Demands bytes post' := by
  rw [map_eq_pure_bind, ← List.append_nil bytes]
  exact h.bind fun a ha => ⟨fun k hk => absurd hk (Nat.not_lt_zero k),
    fun rest => .inl ⟨f a, rfl, hf a ha⟩⟩

theorem demands_pure {a : α} (h : post a) : (pure a : Reader α).Demands [] post :=
  ⟨fun k hk => absurd hk (Nat.not_lt_zero k), fun _ => .inl ⟨a, rfl, h⟩⟩

theorem demands_of_blamesData (h : ∀ input, BlamesData (r.from input).1) : r.Demands bytes post :=
  ⟨fun _ _ => h _, fun _ => .inr (h _)⟩

theorem demands_of_eq_ok {e : Except Fault α} {a : α} (h : e = .ok a) :
    (liftM e : Reader α).Demands [] (· = a) := by
  rw [h]
  exact demands_pure rfl

/-- A check may look at the bytes that are left. -/
theorem demands_check {c : List UInt8 → Prop} [DecidablePred c] {fault : List UInt8 → Fault}
    (hdata : ∀ input, (fault input).comesFromData = true) (h : r.Demands bytes post) :
    (do let input ← get
        if c input then throw (fault input)
        r : Reader α).Demands bytes post := by
  have hfrom : ∀ input, Reader.from (do
      let input ← get
      if c input then throw (fault input)
      r : Reader α) input = if c input then (.error (fault input), input) else r.from input := by
    intro input
    unfold Reader.from
    rw [Action.run_bind, Action.run_get]
    by_cases hc : c input
    · simp only [if_pos hc]
      rfl
    · simp only [if_neg hc]
  constructor
  · intro k hk
    rw [hfrom]
    split
    next => exact ⟨_, rfl, hdata _⟩
    next => exact h.short k hk
  · intro rest
    rw [hfrom]
    split
    next => exact .inr ⟨_, rfl, hdata _⟩
    next => exact h.enough rest

theorem demands_ite {c : Prop} [Decidable c] {fault : Fault} (hdata : fault.comesFromData = true)
    (h : ¬c → r.Demands bytes post) :
    (do if c then throw fault
        r : Reader α).Demands bytes post := by
  by_cases hc : c
  · rw [if_pos hc]
    exact demands_of_blamesData fun _ => ⟨fault, rfl, hdata⟩
  · rw [if_neg hc]
    exact h hc

end Rules

section Primitives

variable {bytes : List UInt8}

theorem demands_take {n : Nat} {fault : List UInt8 → Fault} (h : bytes.length = n)
    (hdata : ∀ input, (fault input).comesFromData = true) :
    (do let rest ← get
        set (rest.drop n)
        if rest.length < n then
          throw (fault rest)
        pure (rest.take n) : Reader (List UInt8)).Demands bytes (· = bytes) := by
  have hfrom : ∀ input, Reader.from (do
      let rest ← get
      set (rest.drop n)
      if rest.length < n then
        throw (fault rest)
      pure (rest.take n) : Reader (List UInt8)) input =
        (if input.length < n then .error (fault input) else .ok (input.take n), input.drop n) := by
    intro input
    unfold Reader.from
    rw [Action.run_bind, Action.run_get]
    dsimp only
    rw [Action.run_bind, Action.run_set]
    by_cases hlt : input.length < n
    · simp only [if_pos hlt]
      rfl
    · simp only [if_neg hlt]
      rfl
  constructor
  · intro k hk
    have hlt : (bytes.take k).length < n := by
      rw [List.length_take]
      omega
    rw [hfrom, if_pos hlt]
    exact ⟨_, rfl, hdata _⟩
  · intro rest
    have hlt : ¬(bytes ++ rest).length < n := by
      rw [List.length_append]
      omega
    refine .inl ⟨bytes, ?_, rfl⟩
    rw [hfrom, if_neg hlt, ← h, List.take_left, List.drop_left]

theorem demands_bytes {n : Nat} (h : bytes.length = n) :
    (Reader.bytes n).Demands bytes (· = bytes) :=
  demands_take h fun _ => rfl

theorem demands_nat (n : Nat) {value : Nat} (h : value < 2 ^ (8 * n)) :
    (Reader.nat n).Demands (bytesOfNat n value) (· = value) := by
  refine (demands_bytes (length_bytesOfNat n value)).map fun bytes hbytes => ?_
  rw [hbytes, natOfBytes_bytesOfNat, Nat.one_shiftLeft, Nat.mod_eq_of_lt h]

theorem demands_uint8 (b : UInt8) : Reader.uint8.Demands [b] (· = b) := by
  have hb : [b] = bytesOfNat 1 b.toNat := by
    rw [bytesOfNat, bytesOfNat, UInt8.ofNat_toNat]
  rw [hb]
  refine (demands_nat 1 b.toNat_lt).map fun n hn => ?_
  rw [hn, UInt8.ofNat_toNat]

theorem demands_uint64 (n : UInt64) : Reader.uint64.Demands (bytesOfUInt64 n) (· = n) := by
  refine (demands_nat 8 n.toNat_lt).map fun k hk => ?_
  rw [hk, UInt64.ofNat_toNat]

theorem demands_int32 (n : Int32) : Reader.int32.Demands (bytesOfInt32 n) (· = n) := by
  refine (demands_nat 4 n.toUInt32.toNat_lt).map fun k hk => ?_
  rw [hk, UInt32.ofNat_toNat]
  rfl

theorem demands_extents {e : Extents} (hw : e.AreWords) :
    Reader.extents.Demands (bytesOfExtents e) (· = e) := by
  obtain ⟨hx, hy, hz⟩ := hw
  rw [← List.append_nil (bytesOfExtents e), bytesOfExtents_append]
  refine (demands_nat 8 hx).bind fun x h => ?_
  subst h
  refine (demands_nat 8 hy).bind fun y h => ?_
  subst h
  refine (demands_nat 8 hz).bind fun z h => ?_
  subst h
  dsimp only
  cases hd : Axes.validate ⟨e.x, e.y, e.z⟩ with
  | error fault => exact demands_of_blamesData fun _ => ⟨_, rfl, rfl⟩
  | ok u => exact demands_ite rfl fun _ => demands_pure rfl

/-- A block that is cut short is told of where a machine word counts the bits that it declares. -/
theorem demands_block (h : bytes.length < 2 ^ 61) :
    Reader.block.Demands (bytesOfBlock bytes) (· = bytes) := by
  have hword : bytes.length < 2 ^ 64 := by omega
  have hlength : Reader.uint64.Demands (bytesOfNat 8 bytes.length)
      (· = UInt64.ofNat bytes.length) :=
    (demands_nat 8 hword).map fun n hn => by rw [hn]
  refine hlength.bind fun length heq => ?_
  subst heq
  have hdeclared : (UInt64.ofNat bytes.length).toNat = bytes.length :=
    UInt64.toNat_ofNat_of_lt' hword
  have hcount : 8 * (UInt64.ofNat bytes.length).toNat < 1 <<< 64 := by
    rw [hdeclared, Nat.one_shiftLeft]
    omega
  refine demands_take hdeclared.symm fun input => ?_
  rw [shortBlock, if_pos hcount]
  rfl

end Primitives

end Reader

open Reader

theorem Preamble.demands {p : Preamble} (hw : p.dims.AreWords) :
    Preamble.read.Demands p.toBytes (· = p) := by
  rw [toBytes_eq]
  refine (demands_bytes (n := 4) rfl).bind fun found _ => ?_
  refine demands_ite rfl fun _ => ?_
  refine (demands_uint8 version).bind fun v _ => ?_
  refine demands_ite rfl fun _ => ?_
  refine (demands_uint8 p.flags).bind fun flags h => ?_
  subst h
  refine (demands_extents hw).bind fun dims h => ?_
  subst h
  exact demands_pure rfl

theorem Scale.demands (s : Scale) : Scale.read.Demands s.toBytes (· = s) := by
  rw [toBytes_eq]
  refine (demands_uint64 s.meanBits).bind fun mean h => ?_
  subst h
  refine (demands_uint64 s.stepBits).bind fun step h => ?_
  subst h
  exact demands_ite rfl fun _ => demands_pure rfl

theorem TileTable.demands {t : TileTable} (hw : t.extents.AreWords) :
    TileTable.read.Demands t.toBytes (· = t) := by
  rw [toBytes_eq]
  refine (demands_extents hw).bind fun extents h => ?_
  subst h
  refine (demands_uint64 t.count).bind fun count h => ?_
  subst h
  exact demands_pure rfl

theorem CodeHeader.demands (h : CodeHeader) : CodeHeader.read.Demands h.toBytes (· = h) := by
  rw [toBytes_eq]
  refine (demands_int32 h.topPlane).bind fun topPlane heq => ?_
  subst heq
  refine (demands_uint64 h.bitCount).bind fun bitCount heq => ?_
  subst heq
  exact demands_pure rfl

theorem CorrectionHeader.demands (h : CorrectionHeader) :
    CorrectionHeader.read.Demands h.toBytes (· = h) := by
  rw [toBytes_eq]
  refine (demands_uint8 h.width.tag).bind fun tag heq => ?_
  subst heq
  refine (demands_of_eq_ok (Width.ofTag_tag h.width)).bind fun width heq => ?_
  subst heq
  refine (demands_uint64 h.toleranceBits).bind fun tolerance heq => ?_
  subst heq
  refine (demands_uint64 h.length).bind fun length heq => ?_
  subst heq
  refine h.code.demands.bind fun code heq => ?_
  subst heq
  exact demands_pure rfl

end VolumeCodec
