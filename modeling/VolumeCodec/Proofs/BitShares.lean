import VolumeCodec.Proofs.AcceptedOutput
import VolumeCodec.Proofs.TileCover

namespace VolumeCodec

namespace Tile

/-- The share of a tile as a machine computes it: in words of 128 bits, of which the lower half is
kept. -/
def machineShare (t : Tile) (bits total : UInt64) : UInt64 :=
  let product := bits.toBitVec.setWidth 128 * t.extent.machineVolume.toBitVec.setWidth 128
  ⟨(product / total.toBitVec.setWidth 128).setWidth 64⟩

theorem share_le {t : Tile} {total : Nat} (h : t.extent.volume ≤ total) (bits : Nat) :
    t.share bits total ≤ bits :=
  Nat.div_le_of_le_mul ((Nat.mul_le_mul_left bits h).trans (Nat.le_of_eq (Nat.mul_comm _ _)))

theorem share_mono (t : Tile) (total : Nat) {bits bits' : Nat} (h : bits ≤ bits') :
    t.share bits total ≤ t.share bits' total :=
  Nat.div_le_div_right (Nat.mul_le_mul_right t.extent.volume h)

theorem toNat_setWidth_word (w : UInt64) : (w.toBitVec.setWidth 128).toNat = w.toNat := by
  rw [BitVec.toNat_setWidth]
  exact Nat.mod_eq_of_lt (Nat.lt_trans w.toNat_lt (by decide))

/-- Nothing is lost where a machine computes the share of a tile. -/
theorem IsInside.toNat_machineShare {t : Tile} {dims : Extents} (h : t.IsInside dims)
    (hd : dims.validate = .ok ()) (bits : UInt64) :
    bits.toNat * t.extent.volume < 2 ^ 128 ∧
      (t.machineShare bits dims.machineVolume).toNat = t.share bits.toNat dims.volume := by
  have ht := h.validate hd
  have hvolume : t.extent.volume < 2 ^ 64 := by
    have hlt := (validate_eq_ok_iff.mp ht).2
    rwa [Nat.one_shiftLeft] at hlt
  have hproduct : bits.toNat * t.extent.volume < 2 ^ 128 :=
    Nat.lt_of_lt_of_eq (Nat.mul_lt_mul'' bits.toNat_lt hvolume) (Nat.pow_add 2 64 64).symm
  have hshare : t.share bits.toNat dims.volume < 2 ^ 64 :=
    Nat.lt_of_le_of_lt (share_le h.volume_le bits.toNat) bits.toNat_lt
  refine ⟨hproduct, ?_⟩
  show ((_ : BitVec 128).setWidth 64).toNat = _
  rw [BitVec.toNat_setWidth, BitVec.toNat_udiv, BitVec.toNat_mul, toNat_setWidth_word,
    toNat_setWidth_word, toNat_setWidth_word, toNat_machineVolume ht, toNat_machineVolume hd,
    Nat.mod_eq_of_lt hproduct]
  exact Nat.mod_eq_of_lt hshare

end Tile

section Shares

variable {dims nominal : Extents} {ts : List Tile}

/-- The shares of some tiles and what is left over in computing them make up the whole. -/
theorem sum_shares (bits total : Nat) (ts : List Tile) :
    total * (ts.map (·.share bits total)).sum +
        (ts.map fun t => bits * t.extent.volume % total).sum =
      bits * (ts.map (·.extent.volume)).sum := by
  induction ts with
  | nil => rfl
  | cons t rest ih =>
    have hdiv := Nat.div_add_mod (bits * t.extent.volume) total
    simp only [List.map_cons, List.sum_cons, Nat.mul_add, Tile.share] at ih ⊢
    omega

/-- Of each share less than one bit is left over. -/
theorem sum_left_over_le {total : Nat} (htotal : 0 < total) (bits : Nat) (ts : List Tile) :
    (ts.map fun t => bits * t.extent.volume % total).sum + ts.length ≤ total * ts.length := by
  induction ts with
  | nil => exact Nat.zero_le _
  | cons t rest ih =>
    have hmod := Nat.mod_lt (bits * t.extent.volume) htotal
    rw [List.map_cons, List.sum_cons, List.length_cons, Nat.mul_succ]
    omega

theorem sum_volumes (h : tiles dims nominal = .ok ts) :
    (ts.map (·.extent.volume)).sum = dims.volume := by
  have hlength := (places_tiles h).length_eq
  rw [List.length_flatMap, List.length_range] at hlength
  rw [← hlength]
  exact congrArg List.sum (List.map_congr_left fun t _ => (t.length_places dims).symm)

/-- The shares of all tiles add up to the whole, but for less than one bit for each of them. -/
theorem sum_shares_bounds (h : tiles dims nominal = .ok ts) (bits : Nat) :
    (ts.map (·.share bits dims.volume)).sum ≤ bits ∧
      bits < (ts.map (·.share bits dims.volume)).sum + ts.length := by
  have hd := validate_of_checkTiling (checkTiling_of_tiles h).1
  obtain ⟨hx, hy, hz⟩ := pos_of_validate hd
  have hvolume : 0 < dims.volume := Nat.mul_pos (Nat.mul_pos hx hy) hz
  have hsum := sum_shares bits dims.volume ts
  have hrest := sum_left_over_le hvolume bits ts
  have hlength := length_tiles_pos h
  rw [sum_volumes h, Nat.mul_comm bits] at hsum
  constructor
  · exact Nat.le_of_mul_le_mul_left (by omega) hvolume
  · refine Nat.lt_of_mul_lt_mul_left (a := dims.volume) ?_
    rw [Nat.mul_add]
    omega

end Shares

section Stored

/-- A container that was written under a limit declares no more bits than that. -/
theorem bitCount_of_compressWhole {count : Nat} {data : Array Float} {dims : Extents}
    {bytes : List UInt8} (hv : dims.volume ≤ maxElements)
    (h : compressWhole .unbounded (.bits count) data dims = .ok bytes) :
    ∃ code, ((readCode .unbounded).from bytes).1 = .ok code ∧
      code.2.2.outline.bitCount ≤ count := by
  rw [compressWhole_eq] at h
  obtain ⟨_, -, h⟩ := ok_of_bind h
  obtain ⟨_, hcheck, h⟩ := ok_of_bind h
  obtain ⟨corrections, -, h⟩ := ok_of_bind h
  obtain rfl := Except.ok.inj h
  have husable : (Scale.ofFloats (quantizeVolume (.bits count) data).mean
      (quantizeVolume (.bits count) data).step).isUsable = true := isUsable_ofFloats rfl hcheck
  obtain ⟨hd, -, -⟩ := checkReals_eq_ok_iff.mp hcheck
  generalize quantizeVolume (.bits count) data = q at husable ⊢
  have hlt := length_realBits_lt q.multiples (.bits count) hd hv
  have hcode : StoredCode.ofBytes .unbounded (storedReals q.multiples dims (.bits count)) dims =
      _ := StoredCode.ofBytes_toBytes
        (Tape.empty.recorded (realBits q.multiples dims (.bits count)))
        (Nat.lt_trans hlt (by decide))
  refine ⟨_, congrArg Prod.fst (readCode_wholeBytes q _ corrections hcode hd hv husable), ?_⟩
  show (realBits q.multiples dims (.bits count)).length ≤ count
  rw [realBits_of_limit]
  exact List.length_take_le count _

theorem sum_le_of_mapM {α β γ : Type} {f : β → Except Fault γ} {size : γ → Nat} {bound : α → Nat}
    {as : List α} {bs : List β}
    (h : List.Forall₂ (fun a b => ∃ c, f b = .ok c ∧ size c ≤ bound a) as bs) :
    ∃ cs, bs.mapM f = .ok cs ∧ (cs.map size).sum ≤ (as.map bound).sum := by
  induction h with
  | nil => exact ⟨[], rfl, Nat.le_refl _⟩
  | cons h _ ih =>
    obtain ⟨c, hc, hle⟩ := h
    obtain ⟨cs, hcs, hsum⟩ := ih
    refine ⟨c :: cs, ?_, Nat.add_le_add hle hsum⟩
    rw [List.mapM_cons, hc, hcs]
    rfl

end Stored

/-- A number of bits is shared out over the tiles of a volume. Machines compute each share without
loss, it is no more than the whole, and grows with it; the shares add up to the whole, but for less
than one bit for each tile. So all codes in a container with tiles declare no more bits together
than the whole. -/
theorem bits_shared {dims nominal : Extents} {ts : List Tile} (h : tiles dims nominal = .ok ts)
    (bits : UInt64) :
    (∀ t ∈ ts,
      bits.toNat * t.extent.volume < 2 ^ 128 ∧
      (t.machineShare bits dims.machineVolume).toNat = t.share bits.toNat dims.volume ∧
      t.machineShare bits dims.machineVolume ≤ bits ∧
      ∀ more : UInt64, bits ≤ more →
        t.machineShare bits dims.machineVolume ≤ t.machineShare more dims.machineVolume) ∧
    (ts.map (·.share bits.toNat dims.volume)).sum ≤ bits.toNat ∧
    bits.toNat < (ts.map (·.share bits.toNat dims.volume)).sum + ts.length ∧
    ∀ data bytes, compressTiles .unbounded (.bits bits.toNat) data dims nominal = .ok bytes →
      ∃ blocks codes, bytes = tiledBytes dims nominal blocks ∧ blocks.length = ts.length ∧
        blocks.mapM (fun block => ((readCode .unbounded).from block).1) = .ok codes ∧
        (codes.map (·.2.2.outline.bitCount)).sum ≤ bits.toNat := by
  have hd := validate_of_checkTiling (checkTiling_of_tiles h).1
  obtain ⟨hsum, hlow⟩ := sum_shares_bounds h bits.toNat
  refine ⟨fun t ht => ?_, hsum, hlow, fun data bytes hbytes => ?_⟩
  · have hin := isInside_of_mem_tiles h ht
    obtain ⟨hproduct, hexact⟩ := hin.toNat_machineShare hd bits
    refine ⟨hproduct, hexact, ?_, fun more hmore => ?_⟩
    · rw [UInt64.le_iff_toNat_le, hexact]
      exact Tile.share_le hin.volume_le bits.toNat
    · rw [UInt64.le_iff_toNat_le, hexact, (hin.toNat_machineShare hd more).2]
      exact t.share_mono dims.volume (UInt64.le_iff_toNat_le.mp hmore)
  · obtain ⟨ts', blocks, hwritten⟩ := writtenTiles_of_compressTiles rfl hbytes
    obtain rfl := Except.ok.inj (h.symm.trans hwritten.tiles)
    obtain ⟨-, -, hv, -⟩ := checkVolume_eq_ok_iff.mp hwritten.check
    have hblocks : List.Forall₂ (fun (t : Tile) block => ∃ code,
        ((readCode .unbounded).from block).1 = .ok code ∧
          code.2.2.outline.bitCount ≤ t.share bits.toNat dims.volume) ts blocks := by
      refine List.forall₂_iff_zip.mpr ⟨hwritten.length_eq.symm, fun {t block} hp => ?_⟩
      have hle := (volume_le_of_mem_tiles h (List.of_mem_zip hp).1).trans hv
      exact bitCount_of_compressWhole hle (hwritten.written _ hp)
    obtain ⟨codes, hcodes, htotal⟩ := sum_le_of_mapM hblocks
    exact ⟨blocks, codes, hwritten.bytes_eq, hwritten.length_eq, hcodes, htotal.trans hsum⟩

/-- Three bits for two tiles of the same size: each gets one, and one is left. -/
theorem bits_shared_pair :
    ∃ ts, tiles ⟨2, 1, 1⟩ ⟨1, 1, 1⟩ = .ok ts ∧ ts.map (·.share 3 2) = [1, 1] ∧
      (∀ t ∈ ts, t.machineShare 3 2 ≤ 3) ∧
      ∃ blocks codes, compressTiles .unbounded (.bits 3) #[1, 3] ⟨2, 1, 1⟩ ⟨1, 1, 1⟩ =
          .ok (tiledBytes ⟨2, 1, 1⟩ ⟨1, 1, 1⟩ blocks) ∧
        blocks.mapM (fun block => ((readCode .unbounded).from block).1) = .ok codes ∧
        (codes.map (·.2.2.outline.bitCount)).sum ≤ 3 := by
  have h : tiles ⟨2, 1, 1⟩ ⟨1, 1, 1⟩ =
      .ok [⟨⟨0, 0, 0⟩, ⟨1, 1, 1⟩⟩, ⟨⟨1, 0, 0⟩, ⟨1, 1, 1⟩⟩] := rfl
  obtain ⟨heach, -, -, hstored⟩ := bits_shared h 3
  obtain ⟨written, hwritten⟩ := compressTiles_pair (.bits 3) nofun
  obtain ⟨blocks, codes, hbytes, -, hcodes, hsum⟩ := hstored #[1, 3] _ hwritten
  refine ⟨_, h, rfl, fun t ht => (heach t ht).2.2.1, blocks, codes, ?_, hcodes, hsum⟩
  rw [← hbytes]
  exact hwritten

end VolumeCodec
