import VolumeCodec.Proofs.ArbitraryHeaders
import VolumeCodec.Proofs.ArbitraryStreams
import VolumeCodec.Proofs.HeaderFormats
import VolumeCodec.Proofs.TapeOperations

namespace VolumeCodec

/-- Something that asks for bits. -/
inductive Demand
  /-- A block, behind the length that these bytes begin with. -/
  | block (bytes : List UInt8)
  /-- The blocks of so many tiles. Each takes at least the eight bytes of its length. -/
  | tiles (count : Nat) (bytes : List UInt8)
  /-- So many bits of those that there are. -/
  | bits (count there : Nat)

namespace Demand

/-- The number of bits that there are. -/
def available : Demand → Nat
  | block bytes => 8 * (bytes.drop 8).length
  | tiles _ bytes => 8 * bytes.length
  | bits _ there => there

/-- The number of bits that are asked for. -/
def required : Demand → Nat
  | block bytes => 8 * natOfBytes (bytes.take 8)
  | tiles count _ => 64 * count
  | bits count _ => count

/-- There are fewer bytes of a block than it declares, and a machine word does not count the bits of
those. -/
def IsOversized : Demand → Prop
  | block bytes =>
    2 ^ 61 ≤ natOfBytes (bytes.take 8) ∧ (bytes.drop 8).length < natOfBytes (bytes.take 8)
  | _ => False

/-- Both numbers are told as they are, the second one up to the largest machine word, and the first
one is the smaller. -/
structure IsTold (d : Demand) (a b : Nat) : Prop where
  available : a = d.available
  required : b = min d.required (2 ^ 64 - 1)
  short : a < b

/-- What becomes of a demand that is not met. -/
def IsRefused (d : Demand) : Fault → Prop
  | .truncated a b => d.IsTold a b
  | .overflow => d.IsOversized
  | _ => False

theorem isTold_of_lt {d : Demand} {a b : Nat} (ha : a = d.available) (hb : b = d.required)
    (h : a < b) (hmax : b < 2 ^ 64) : d.IsTold a b :=
  ⟨ha, by omega, h⟩

theorem told_of_isRefused_bits {count there : Nat} {fault : Fault}
    (h : (bits count there).IsRefused fault) :
    ∃ a b, fault = .truncated a b ∧ (bits count there).IsTold a b := by
  cases fault with
  | truncated a b => exact ⟨a, b, rfl, h⟩
  | _ => exact h.elim

end Demand

/-- The faults that come of missing bits: they are told of, or there are too many to be counted. -/
def Fault.isShortage : Fault → Bool
  | .truncated .. | .overflow => true
  | _ => false

variable {σ α β : Type} {D D' : Demand → Prop}

/-- If there are bits missing, it is one of some demands that is refused. -/
def Tells (r : Except Fault α) (D : Demand → Prop) : Prop :=
  ∀ fault, r = .error fault → fault.isShortage = true → ∃ d, D d ∧ d.IsRefused fault

/-- Whenever bits are said to be missing, what is said is true of one of some demands. There is no
answer exactly if one of them is oversized. -/
structure IsTruthful (r : Except Fault α) (D : Demand → Prop) : Prop where
  told : ∀ a b, r = .error (.truncated a b) → ∃ d, D d ∧ d.IsTold a b
  overflow_iff : r = .error .overflow ↔ ∃ d, D d ∧ d.IsOversized

section Results

variable {r : Except Fault α}

theorem Tells.isTruthful (h : Tells r D)
    (hstop : ∀ d, D d → d.IsOversized → r = .error .overflow) : IsTruthful r D where
  told a b hr := h _ hr rfl
  overflow_iff := by
    refine ⟨fun hr => h _ hr rfl, fun hsize => ?_⟩
    obtain ⟨d, hd, hsize⟩ := hsize
    exact hstop d hd hsize

theorem Tells.mono (h : Tells r D) (hd : ∀ d, D d → D' d) : Tells r D' := by
  intro fault hr hs
  obtain ⟨d, hmem, hrefused⟩ := h fault hr hs
  exact ⟨d, hd d hmem, hrefused⟩

theorem tells_ok (a : α) : Tells (.ok a : Except Fault α) D :=
  nofun

theorem tells_fault {fault : Fault} (h : fault.isShortage = false) :
    Tells (.error fault : Except Fault α) D := by
  intro _ hr hs
  obtain rfl := Except.error.inj hr
  exact absurd (hs.symm.trans h) Bool.noConfusion

theorem tells_bind {f : α → Except Fault β} (h : Tells r D)
    (hf : ∀ a, r = .ok a → Tells (f a) D) : Tells (r >>= f) D := by
  cases r with
  | ok a => exact hf a rfl
  | error fault => exact fun _ hr => h _ (congrArg Except.error (Except.error.inj hr))

theorem tells_check {c : Prop} [Decidable c] {fault : Fault} (hc : fault.isShortage = false)
    (h : ¬c → Tells r D) :
    Tells (do if c then throw fault
              r : Except Fault α) D := by
  by_cases h' : c
  · rw [if_pos h']
    exact tells_fault hc
  · rw [if_neg h']
    exact h h'

/-- An element is only looked at when the steps for those before it have succeeded. -/
theorem tells_mapM {f : β → Except Fault α} {l : List β}
    (h : ∀ before b after, l = before ++ b :: after → (∀ c ∈ before, ∃ a, f c = .ok a) →
      Tells (f b) D) : Tells (l.mapM f) D := by
  induction l with
  | nil => exact tells_ok []
  | cons b rest ih =>
    rw [List.mapM_cons]
    refine tells_bind (h [] b rest rfl nofun) fun a ha => ?_
    refine tells_bind (ih fun before c after heq hbefore => ?_) fun _ _ => tells_ok _
    refine h (b :: before) c after (congrArg (b :: ·) heq) fun x hx => ?_
    rcases List.mem_cons.mp hx with rfl | hx
    · exact ⟨a, ha⟩
    · exact hbefore x hx

theorem tells_request (memory : Memory) (bytes : Nat) : Tells (memory.request bytes) D := by
  unfold Memory.request
  split
  next => exact tells_ok ()
  next => exact tells_fault rfl

theorem tells_requestArray (memory : Memory) (length elementBytes : Nat) :
    Tells (memory.requestArray length elementBytes) D :=
  tells_request memory _

end Results

namespace Action

/-- As `Tells`, for a step on a state. -/
def Tells (u : Action σ α) (s : σ) (D : Demand → Prop) : Prop :=
  VolumeCodec.Tells (u.run.run s).1 D

variable {u : Action σ α} {s : σ}

theorem tells_pure (a : α) : (pure a : Action σ α).Tells s D := tells_ok a

theorem tells_set (t : σ) : (set t : Action σ PUnit).Tells s D := tells_ok PUnit.unit

theorem tells_modify (f : σ → σ) : (modify f : Action σ PUnit).Tells s D := tells_ok PUnit.unit

/-- What the second step comes to, it comes to after the first one. -/
theorem tells_bind {f : α → Action σ β} (h : u.Tells s D)
    (hf : ∀ a t, u.run.run s = (.ok a, t) → (f a).Tells t D) : (u >>= f).Tells s D := by
  unfold Tells at h ⊢
  rw [run_bind]
  rcases hu : u.run.run s with ⟨fault | a, t⟩
  · rw [hu] at h
    exact fun _ hr => h _ (congrArg Except.error (Except.error.inj hr))
  · exact hf a t hu

theorem tells_map {f : α → β} (h : u.Tells s D) : (f <$> u).Tells s D := by
  rw [map_eq_pure_bind]
  exact tells_bind h fun a _ _ => tells_pure (f a)

theorem tells_check {c : Prop} [Decidable c] {fault : Fault} (hc : fault.isShortage = false)
    (h : ¬c → u.Tells s D) :
    (do if c then throw fault
        u : Action σ α).Tells s D := by
  by_cases h' : c
  · rw [if_pos h']
    exact tells_fault hc
  · rw [if_neg h']
    exact h h'

/-- A check that a demand is met. -/
theorem tells_demand {c : Prop} [Decidable c] {fault : Fault} {d : Demand} (hd : D d)
    (hc : c → d.IsRefused fault) (h : ¬c → u.Tells s D) :
    (do if c then throw fault
        u : Action σ α).Tells s D := by
  by_cases h' : c
  · rw [if_pos h']
    intro _ hr _
    obtain rfl := Except.error.inj hr
    exact ⟨d, hd, hc h'⟩
  · rw [if_neg h']
    exact h h'

theorem tells_lift {r : Except Fault α} (h : VolumeCodec.Tells r D) :
    (liftM r : Action σ α).Tells s D := by
  unfold Tells
  rw [run_lift]
  exact h

theorem tells_lift_bind {r : Except Fault α} {f : α → Action σ β} (h : VolumeCodec.Tells r D)
    (hf : ∀ a, r = .ok a → (f a).Tells s D) : (liftM r >>= f : Action σ β).Tells s D := by
  refine tells_bind (tells_lift h) fun a t hrun => ?_
  obtain ⟨ha, rfl⟩ := run_lift_eq_ok hrun
  exact hf a ha

theorem tells_get_bind {f : σ → Action σ β} (h : (f s).Tells s D) : (get >>= f).Tells s D := by
  refine tells_bind (tells_ok s) fun a t hrun => ?_
  cases hrun
  exact h

end Action

namespace Reader

variable {input : List UInt8}

/-- What the first reader fails with, both of them fail with. -/
theorem error_bind {r : Reader α} {f : α → Reader β} {fault : Fault}
    (h : (r.from input).1 = .error fault) : ((r >>= f).from input).1 = .error fault := by
  rw [from_bind]
  rcases hr : r.from input with ⟨e | a, rest⟩
  · rw [hr] at h
    exact congrArg Except.error (Except.error.inj h)
  · rw [hr] at h
    cases h

/-- A header that is too short is a bad one, and nothing else is said of it. -/
theorem Takes.tells {r : Reader α} {post : α → List UInt8 → Prop} (h : r.Takes post) :
    r.Tells input D := by
  have hr := h input
  unfold Reader.from at hr
  unfold Action.Tells
  rcases hrun : r.run.run input with ⟨fault | a, rest⟩
  · rw [hrun] at hr
    obtain ⟨why, rfl⟩ := hr
    exact tells_fault rfl
  · exact tells_ok a

theorem uint64_run {n : UInt64} {rest : List UInt8} (h : uint64.run.run input = (.ok n, rest)) :
    n.toNat = natOfBytes (input.take 8) ∧ rest = input.drop 8 := by
  have htaken := uint64_takes input
  unfold Reader.from at htaken
  rw [h] at htaken
  obtain ⟨_, rfl, rfl⟩ := htaken
  have hlength : (bytesOfUInt64 n).length = 8 := length_bytesOfUInt64 n
  rw [List.take_left' hlength, List.drop_left' hlength, bytesOfUInt64, natOfBytes_bytesOfNat,
    Nat.one_shiftLeft, Nat.mod_eq_of_lt n.toNat_lt]
  exact ⟨rfl, rfl⟩

/-- A block is there, or it is refused. -/
theorem block_tells : block.Tells input (· = .block input) := by
  refine Action.tells_bind uint64_takes.tells fun length rest hlength => ?_
  obtain ⟨hdeclared, rfl⟩ := uint64_run hlength
  refine Action.tells_get_bind (Action.tells_bind (Action.tells_set _) fun _ _ _ => ?_)
  refine Action.tells_demand rfl (fun hshort => ?_) fun _ => Action.tells_pure _
  rw [hdeclared] at hshort ⊢
  rcases shortBlock_cases (input.drop 8).length (natOfBytes (input.take 8)) with
    ⟨hfault, hsize⟩ | ⟨hfault, hsize⟩
  · rw [hfault]
    exact Demand.isTold_of_lt rfl rfl (by omega) (by omega)
  · rw [hfault]
    exact ⟨hsize, hshort⟩

theorem block_of_isOversized (h : (Demand.block input).IsOversized) :
    (block.from input).1 = .error .overflow := by
  obtain ⟨hsize, hshort⟩ := h
  have hbound := natOfBytes_lt (input.take 8)
  have hlength : (input.take 8).length = 8 := by
    -- Fewer than eight bytes cannot hold such a length.
    by_contra hne
    have hle : 8 * (input.take 8).length ≤ 56 := by
      have hle := List.length_take_le 8 input
      omega
    have hpow := Nat.pow_le_pow_right (n := 2) (by decide) hle
    omega
  rw [hlength] at hbound
  have hword : (UInt64.ofNat (natOfBytes (input.take 8))).toNat = natOfBytes (input.take 8) :=
    UInt64.toNat_ofNat_of_lt' hbound
  have hbytes := bytesOfNat_natOfBytes (input.take 8)
  rw [hlength, ← hword] at hbytes
  have hrun : (block.from input).1 = (block.from (bytesOfUInt64 (UInt64.ofNat
      (natOfBytes (input.take 8))) ++ input.drop 8)).1 := by
    rw [bytesOfUInt64, hbytes, List.take_append_drop]
  rw [hrun, block, (gets_uint64 _).bind_from]
  unfold Reader.from
  simp only [Action.run_bind, Action.run_get, Action.run_set, hword, if_pos hshort]
  rcases shortBlock_cases (input.drop 8).length (natOfBytes (input.take 8)) with
    ⟨-, hsmall⟩ | ⟨hfault, -⟩
  · omega
  · rw [hfault]
    rfl

end Reader

section Sources

variable {memory : Memory} {bytes : List UInt8} {n : Nat} {t : Tape}

/-- Once the bytes are known to be there, only the memory can be missing. -/
theorem reload_tells :
    (do let old := (← get).words.size
        modify fun t => { t with words := #[] }
        if old < wordsFor n then
          memory.request (8 * wordsFor n)
        set (Tape.ofBits bytes n) : Tape.Update Unit).Tells t D := by
  refine Action.tells_get_bind ?_
  refine Action.tells_bind (Action.tells_modify _) fun _ _ _ => ?_
  by_cases h : t.words.size < wordsFor n
  · rw [if_pos h]
    exact Action.tells_lift_bind (tells_request memory _) fun _ _ => Action.tells_set _
  · rw [if_neg h]
    exact Action.tells_set _

theorem load_tells (hn : n < 2 ^ 64) :
    (Tape.load memory bytes n).Tells t (· = .bits n (8 * bytes.length)) := by
  refine Action.tells_demand rfl (fun hshort => ?_) fun _ => reload_tells
  refine Demand.isTold_of_lt rfl rfl ?_ hn
  unfold bytesFor at hshort
  omega

/-- What there is can be loaded. -/
theorem load_tells_of_le (hn : bytesFor n ≤ bytes.length) :
    (Tape.load memory bytes n).Tells t D := by
  unfold Tape.load
  rw [if_neg (Nat.not_lt.mpr hn)]
  exact reload_tells

theorem checkTopPlane_tells (α : Type) [Magnitude α] (plane : Int) :
    Tells (checkTopPlane α plane) D := by
  unfold checkTopPlane
  split
  next => cases Magnitude.width? α <;> exact tells_fault rfl
  next => exact tells_ok ()

theorem decode_tells {α : Type} [Magnitude α] {outline : Outline} {limit : BitLimit}
    (hcount : outline.bitCount < 2 ^ 64) :
    (decode (α := α) memory outline limit).Tells t
      (· = .bits (outline.required limit) t.writePosition) := by
  have hallocate : Tells (IndexSet.allocate memory outline.dims.volume)
      (· = .bits (outline.required limit) t.writePosition) :=
    tells_bind (tells_requestArray memory _ _) fun _ _ => tells_ok _
  have hvalidate : Tells outline.dims.validate
      (· = .bits (outline.required limit) t.writePosition) := by
    unfold Axes.validate
    split
    next => exact tells_fault rfl
    next => exact tells_ok ()
  refine Action.tells_lift_bind hvalidate fun _ _ => ?_
  refine Action.tells_lift_bind (checkTopPlane_tells α _) fun _ _ => ?_
  refine Action.tells_get_bind ?_
  refine Action.tells_demand rfl (fun hshort => ?_) fun _ => ?_
  · have hle := outline.required_le limit
    exact Demand.isTold_of_lt rfl rfl hshort (Nat.lt_of_le_of_lt hle hcount)
  · refine Action.tells_bind (Action.tells_modify _) fun _ _ _ => ?_
    refine Action.tells_lift_bind (tells_requestArray memory _ _) fun _ _ => ?_
    refine Action.tells_lift_bind (tells_requestArray memory _ _) fun _ _ => ?_
    refine Action.tells_lift_bind hallocate fun _ _ => ?_
    refine Action.tells_get_bind ?_
    refine Action.tells_bind (Action.tells_set _) fun _ _ _ => ?_
    exact Action.tells_check rfl fun _ => Action.tells_pure _

/-- What there is on a tape can be decoded. -/
theorem decode_tells_of_le {α : Type} [Magnitude α] {outline : Outline} {limit : BitLimit}
    (hcount : outline.bitCount < 2 ^ 64) (h : outline.required limit ≤ t.writePosition) :
    (decode (α := α) memory outline limit).Tells t D := by
  intro fault hrun hs
  obtain ⟨_, rfl, hrefused⟩ := decode_tells hcount fault hrun hs
  obtain ⟨a, b, -, ha, hb, hlt⟩ := Demand.told_of_isRefused_bits hrefused
  have ha : a = t.writePosition := ha
  have hb : b = min (outline.required limit) (2 ^ 64 - 1) := hb
  omega

theorem decodeReals_tells {outline : Outline} {limit : BitLimit}
    (hcount : outline.bitCount < 2 ^ 64) :
    (decodeReals memory outline limit).Tells t
      (· = .bits (outline.required limit) t.writePosition) :=
  Action.tells_bind (decode_tells hcount) fun _ _ _ => Action.tells_pure _

end Sources

end VolumeCodec
