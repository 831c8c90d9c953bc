import Nova.Parity

/-! Where a whole-block write stores its checksums and parity, and the restore that reads them. -/
namespace Nova

/-- Where block `blocknr`'s checksum slots and parity stripe lie, as the restore needs them:
stripes that divide the block, a block and a parity stripe other than NULL, and the block, its
parity stripe and the two 4-byte checksum slots of each of its stripes all apart. -/
structure ParitySpace (cfg : ParityCfg) (blocknr : Nat) : Prop where
  shift_le : cfg.strpShift ≤ 12
  block_ne : blocknr ≠ 0
  parity_ne : cfg.parityAddr blocknr ≠ 0
  parity_block : cfg.parityAddr blocknr + cfg.strpSize ≤ blocknr * 4096 ∨
    blocknr * 4096 + 4096 ≤ cfg.parityAddr blocknr
  slot_block : ∀ s < cfg.numStrps, ∀ r < 2,
    cfg.dataCsumAddr (blocknr * cfg.numStrps + s) r + 4 ≤ blocknr * 4096 ∨
      blocknr * 4096 + 4096 ≤ cfg.dataCsumAddr (blocknr * cfg.numStrps + s) r
  slot_parity : ∀ s < cfg.numStrps, ∀ r < 2,
    cfg.dataCsumAddr (blocknr * cfg.numStrps + s) r + 4 ≤ cfg.parityAddr blocknr ∨
      cfg.parityAddr blocknr + cfg.strpSize ≤ cfg.dataCsumAddr (blocknr * cfg.numStrps + s) r
  slots_apart : ∀ s < cfg.numStrps, ∀ r < 2, ∀ s' < cfg.numStrps, ∀ r' < 2, (s ≠ s' ∨ r ≠ r') →
    cfg.dataCsumAddr (blocknr * cfg.numStrps + s) r + 4 ≤ cfg.dataCsumAddr (blocknr * cfg.numStrps + s') r' ∨
      cfg.dataCsumAddr (blocknr * cfg.numStrps + s') r' + 4 ≤ cfg.dataCsumAddr (blocknr * cfg.numStrps + s) r

section Stripes
variable {cfg : ParityCfg}

theorem strpSize_pos (cfg : ParityCfg) : 0 < cfg.strpSize := Nat.two_pow_pos _

theorem strpSize_mul_numStrps (h : cfg.strpShift ≤ 12) : cfg.strpSize * cfg.numStrps = 4096 :=
  Nat.mul_div_cancel' (Nat.pow_dvd_pow 2 h)

theorem stripe_nr (h : cfg.strpShift ≤ 12) (blocknr b : Nat) :
    (blocknr * 4096 + b * cfg.strpSize) / cfg.strpSize = blocknr * cfg.numStrps + b := by
  rw [← strpSize_mul_numStrps h, Nat.mul_left_comm, Nat.mul_comm cfg.strpSize, ← Nat.add_mul,
    Nat.mul_div_cancel _ (strpSize_pos cfg)]

theorem whole_block_stripes (h : cfg.strpShift ≤ 12) :
    (0 % cfg.strpSize + 4096 - 1) / cfg.strpSize + 1 = cfg.numStrps := by
  have hsucc := Nat.succ_div 4095 cfg.strpSize
  rw [if_pos (show cfg.strpSize ∣ 4095 + 1 from Nat.pow_dvd_pow 2 h)] at hsucc
  simp only [Nat.zero_mod, Nat.zero_add]
  exact hsucc.symm

theorem div_strpSize_eq_iff {x b : Nat} :
    x / cfg.strpSize = b ↔ b * cfg.strpSize ≤ x ∧ x < b * cfg.strpSize + cfg.strpSize := by
  constructor
  · rintro rfl
    exact ⟨Nat.div_mul_le_self x _, Nat.lt_div_mul_add (strpSize_pos cfg)⟩
  · rintro ⟨h1, h2⟩
    exact Nat.div_eq_of_lt_le h1 (by rw [Nat.succ_mul]; exact h2)

theorem stripe_nr_add (h : cfg.strpShift ≤ 12) (blocknr offset : Nat) :
    (blocknr * 4096 + offset) / cfg.strpSize = blocknr * cfg.numStrps + offset / cfg.strpSize := by
  rw [← strpSize_mul_numStrps h, Nat.mul_left_comm, Nat.add_comm,
    Nat.add_mul_div_left _ _ (strpSize_pos cfg), Nat.add_comm]

theorem touched_le (h : cfg.strpShift ≤ 12) {offset bytes : Nat} (hb : 0 < bytes)
    (hoff : offset + bytes ≤ 4096) :
    offset / cfg.strpSize + ((offset % cfg.strpSize + bytes - 1) / cfg.strpSize + 1) ≤
      cfg.numStrps := by
  have hq := Nat.div_add_mod offset cfg.strpSize
  have ht := Nat.div_mul_le_self (offset % cfg.strpSize + bytes - 1) cfg.strpSize
  rw [Nat.mul_comm] at ht
  have hlt : cfg.strpSize * (offset / cfg.strpSize + (offset % cfg.strpSize + bytes - 1) /
      cfg.strpSize) < cfg.strpSize * cfg.numStrps := by
    rw [strpSize_mul_numStrps h, Nat.mul_add]; omega
  have := Nat.lt_of_mul_lt_mul_left hlt
  omega

theorem untouched_apart {offset bytes s i : Nat} (hb : 0 < bytes)
    (hu : s < offset / cfg.strpSize ∨
      offset / cfg.strpSize + ((offset % cfg.strpSize + bytes - 1) / cfg.strpSize + 1) ≤ s)
    (hi : i < cfg.strpSize) :
    s * cfg.strpSize + i < offset ∨ offset + bytes ≤ s * cfg.strpSize + i := by
  have hq := Nat.div_add_mod' offset cfg.strpSize
  rcases hu with hu | hu
  · have := Nat.mul_le_mul_right cfg.strpSize (Nat.succ_le_of_lt hu)
    rw [Nat.succ_mul] at this
    omega
  · have := Nat.mul_le_mul_right cfg.strpSize hu
    have ht := Nat.lt_div_mul_add (a := offset % cfg.strpSize + bytes - 1) (strpSize_pos cfg)
    rw [Nat.add_mul, Nat.add_mul, Nat.one_mul] at this
    omega

end Stripes

section Csum
variable {cfg : ParityCfg} {src : Nat → UInt8} {block blocknr offset bytes : Nat}

theorem mem_novaUpdateBlockCsum {o : Op} (ho : o ∈ novaUpdateBlockCsum cfg src block blocknr offset bytes) :
    ∃ s < (offset % cfg.strpSize + bytes - 1) / cfg.strpSize + 1, ∃ r < 2,
      o = .storeNt (cfg.dataCsumAddr ((blocknr * 4096 + offset) / cfg.strpSize + s) r) 4
        (le (crc32c cfg.initCsum
          (bytesOf src (block + (offset / cfg.strpSize + s) * cfg.strpSize) cfg.strpSize)).toNat) := by
  simp only [novaUpdateBlockCsum, List.mem_flatten, List.mem_map, List.mem_range] at ho
  obtain ⟨_, ⟨s, hs, rfl⟩, ho⟩ := ho
  simp only [List.mem_cons, List.mem_singleton, List.not_mem_nil, or_false] at ho
  rcases ho with rfl | rfl
  exacts [⟨s, hs, 0, by decide, rfl⟩, ⟨s, hs, 1, by decide, rfl⟩]

theorem storeNt_mem_novaUpdateBlockCsum {s r : Nat}
    (hs : s < (offset % cfg.strpSize + bytes - 1) / cfg.strpSize + 1) (hr : r < 2) :
    Op.storeNt (cfg.dataCsumAddr ((blocknr * 4096 + offset) / cfg.strpSize + s) r) 4
        (le (crc32c cfg.initCsum
          (bytesOf src (block + (offset / cfg.strpSize + s) * cfg.strpSize) cfg.strpSize)).toNat) ∈
      novaUpdateBlockCsum cfg src block blocknr offset bytes := by
  simp only [novaUpdateBlockCsum, List.mem_flatten, List.mem_map, List.mem_range]
  refine ⟨_, ⟨s, hs, rfl⟩, ?_⟩
  rcases r with _ | _ | r
  · exact List.mem_cons_self _ _
  · exact List.mem_cons_of_mem _ (List.mem_cons_self _ _)
  · omega

end Csum

section Write
variable {cfg : ParityCfg} {blocknr offset bytes : Nat} (hsp : ParitySpace cfg blocknr)
  (hcsum : cfg.dataCsum > 0) (hpar : cfg.dataParity > 0) {src : Nat → UInt8} {m : Pmem}
include hsp hcsum hpar

/-- A write with checksums and parity on: the checksum replicas of the stripes it touches, then
the parity stripe of the whole block, unlocked for the copy. -/
theorem genericCsumParity_eq :
    genericCsumParity cfg true src (blocknr * 4096) blocknr offset bytes =
      novaUpdateBlockCsum cfg src (blocknr * 4096) blocknr offset bytes ++
        (novaMemunlockRange cfg.protect (cfg.parityAddr blocknr) cfg.strpSize ++
          [.storeNt (cfg.parityAddr blocknr) cfg.strpSize
            (novaCalculateBlockParity cfg src (fun _ => 0) (blocknr * 4096))] ++
          novaMemlockRange cfg.protect (cfg.parityAddr blocknr) cfg.strpSize) := by
  have hblock : blocknr * 4096 ≠ 0 := Nat.mul_ne_zero hsp.block_ne (by decide)
  simp only [genericCsumParity, csumParityTail, novaUpdateBlockParity, hcsum, hpar, hblock,
    Bool.false_eq_true, not_false_eq_true, and_self, if_true, not_true, or_self, if_false]

theorem csum_store_mem {s r : Nat}
    (hs : offset / cfg.strpSize ≤ s ∧
      s < offset / cfg.strpSize + ((offset % cfg.strpSize + bytes - 1) / cfg.strpSize + 1))
    (hr : r < 2) :
    Op.storeNt (cfg.dataCsumAddr (blocknr * cfg.numStrps + s) r) 4
        (le (crc32c cfg.initCsum (bytesOf src (blocknr * 4096 + s * cfg.strpSize) cfg.strpSize)).toNat) ∈
      genericCsumParity cfg true src (blocknr * 4096) blocknr offset bytes := by
  obtain ⟨k, rfl⟩ : ∃ k, s = offset / cfg.strpSize + k := ⟨s - offset / cfg.strpSize, by omega⟩
  have hmem := @storeNt_mem_novaUpdateBlockCsum cfg src (blocknr * 4096) blocknr offset bytes k r
    (by omega) hr
  rw [stripe_nr_add hsp.shift_le, Nat.add_assoc] at hmem
  rw [genericCsumParity_eq hsp hcsum hpar]
  exact List.mem_append_left _ hmem

theorem csumParity_stores {o : Op}
    (ho : o ∈ genericCsumParity cfg true src (blocknr * 4096) blocknr offset bytes) {y : Nat}
    (hy : o.Writes y) :
    (∃ s, (offset / cfg.strpSize ≤ s ∧
        s < offset / cfg.strpSize + ((offset % cfg.strpSize + bytes - 1) / cfg.strpSize + 1)) ∧
      ∃ r < 2, o = .storeNt (cfg.dataCsumAddr (blocknr * cfg.numStrps + s) r) 4
        (le (crc32c cfg.initCsum (bytesOf src (blocknr * 4096 + s * cfg.strpSize) cfg.strpSize)).toNat)) ∨
    o = .storeNt (cfg.parityAddr blocknr) cfg.strpSize
      (novaCalculateBlockParity cfg src (fun _ => 0) (blocknr * 4096)) := by
  rw [genericCsumParity_eq hsp hcsum hpar] at ho
  simp only [List.mem_append, List.mem_singleton] at ho
  rcases ho with ho | ((ho | rfl) | ho)
  · obtain ⟨s, hs, r, hr, rfl⟩ := mem_novaUpdateBlockCsum ho
    refine .inl ⟨offset / cfg.strpSize + s, by omega, r, hr, ?_⟩
    rw [stripe_nr_add hsp.shift_le, Nat.add_assoc]
  · exact absurd hy (not_writes_of_mem_memunlockRange ho)
  · exact .inr rfl
  · exact absurd hy (not_writes_of_mem_memlockRange ho)

variable (hb : 0 < bytes) (hoff : offset + bytes ≤ 4096)
include hb hoff

theorem csumParity_block {x : Nat} (hx : x < 4096) :
    (m.run (genericCsumParity cfg true m.bytes (blocknr * 4096) blocknr offset bytes)).bytes
        (blocknr * 4096 + x) = m.bytes (blocknr * 4096 + x) :=
  Pmem.run_bytes_of_not_writes fun o ho hy => by
    have hn := touched_le hsp.shift_le hb hoff
    rcases csumParity_stores hsp hcsum hpar ho hy with ⟨s, hs, r, hr, rfl⟩ | rfl <;>
      simp only [Op.Writes] at hy
    · rcases hsp.slot_block s (by omega) r hr with h | h <;> omega
    · rcases hsp.parity_block with h | h <;> omega

theorem csumParity_parity {j : Nat} (hj : j < cfg.strpSize) :
    (m.run (genericCsumParity cfg true m.bytes (blocknr * 4096) blocknr offset bytes)).bytes
        (cfg.parityAddr blocknr + j) =
      novaCalculateBlockParity cfg (fun x => m.bytes (blocknr * 4096 + x)) (fun _ => 0) 0 j := by
  have hn := touched_le hsp.shift_le hb hoff
  have hmem : Op.storeNt (cfg.parityAddr blocknr) cfg.strpSize
      (novaCalculateBlockParity cfg m.bytes (fun _ => 0) (blocknr * 4096)) ∈
      genericCsumParity cfg true m.bytes (blocknr * 4096) blocknr offset bytes := by
    rw [genericCsumParity_eq hsp hcsum hpar]
    simp
  rw [Pmem.run_bytes_of_writers (v := novaCalculateBlockParity cfg m.bytes (fun _ => 0) (blocknr * 4096) j)
    (fun o ho hy m' => ?_) m, if_pos ⟨_, hmem, by simp only [Op.Writes]; omega⟩]
  · rw [novaCalculateBlockParity_eq _ _ _ _ hj, novaCalculateBlockParity_eq _ _ _ _ hj]
    simp only [stripeXor, Nat.zero_add, Nat.add_assoc]
  · rcases csumParity_stores hsp hcsum hpar ho hy with ⟨s, hs, r, hr, rfl⟩ | rfl <;>
      simp only [Op.Writes] at hy
    · rcases hsp.slot_parity s (by omega) r hr with h | h <;> omega
    · simp only [Pmem.step, Pmem.write_bytes]
      rw [if_pos hy, Nat.add_sub_cancel_left]

theorem csumParity_csum {s r : Nat}
    (hs : offset / cfg.strpSize ≤ s ∧
      s < offset / cfg.strpSize + ((offset % cfg.strpSize + bytes - 1) / cfg.strpSize + 1))
    (hr : r < 2) :
    readLe (m.run (genericCsumParity cfg true m.bytes (blocknr * 4096) blocknr offset bytes)).bytes
        (cfg.dataCsumAddr (blocknr * cfg.numStrps + s) r) 4 =
      (crc32c cfg.initCsum (bytesOf m.bytes (blocknr * 4096 + s * cfg.strpSize) cfg.strpSize)).toNat := by
  have hn := touched_le hsp.shift_le hb hoff
  have hbyte : ∀ i < 4, (m.run (genericCsumParity cfg true m.bytes (blocknr * 4096) blocknr offset bytes)).bytes
      (cfg.dataCsumAddr (blocknr * cfg.numStrps + s) r + i) =
      le (crc32c cfg.initCsum (bytesOf m.bytes (blocknr * 4096 + s * cfg.strpSize) cfg.strpSize)).toNat i :=
    fun i hi => by
      rw [Pmem.run_bytes_of_writers (fun o ho hy m' => ?_) m,
        if_pos ⟨_, csum_store_mem hsp hcsum hpar hs hr, by simp only [Op.Writes]; omega⟩]
      rcases csumParity_stores hsp hcsum hpar ho hy with ⟨s', hs', r', hr', rfl⟩ | rfl <;>
        simp only [Op.Writes] at hy
      · by_cases hsr : s' = s ∧ r' = r
        · obtain ⟨rfl, rfl⟩ := hsr
          simp only [Pmem.step, Pmem.write_bytes]
          rw [if_pos hy, Nat.add_sub_cancel_left]
        · rcases hsp.slots_apart s (by omega) r hr s' (by omega) r' hr' (by omega) with h | h <;> omega
      · rcases hsp.slot_parity s (by omega) r hr with h | h <;> omega
  rw [readLe_congr 4 (g := fun i => le _ i) (b := 0) fun i hi => by rw [hbyte i hi, Nat.zero_add],
    readLe_le]
  exact Nat.mod_eq_of_lt (UInt32.toNat_lt_size _)

theorem csumParity_slot_untouched {s r : Nat} (hs : s < cfg.numStrps)
    (hu : s < offset / cfg.strpSize ∨
      offset / cfg.strpSize + ((offset % cfg.strpSize + bytes - 1) / cfg.strpSize + 1) ≤ s)
    (hr : r < 2) :
    readLe (m.run (genericCsumParity cfg true m.bytes (blocknr * 4096) blocknr offset bytes)).bytes
        (cfg.dataCsumAddr (blocknr * cfg.numStrps + s) r) 4 =
      readLe m.bytes (cfg.dataCsumAddr (blocknr * cfg.numStrps + s) r) 4 :=
  readLe_congr 4 fun _ _ => Pmem.run_bytes_of_not_writes fun o ho hy => by
    have hn := touched_le hsp.shift_le hb hoff
    rcases csumParity_stores hsp hcsum hpar ho hy with ⟨s', hs', r', hr', rfl⟩ | rfl <;>
      simp only [Op.Writes] at hy
    · rcases hsp.slots_apart s hs r hr s' (by omega) r' hr' (by omega) with h | h <;> omega
    · rcases hsp.slot_parity s hs r hr with h | h <;> omega

end Write

section Restore
variable {cfg : ParityCfg} {m : Pmem} {blocknr b : Nat} {B : Nat → UInt8} {fromPmem : Nat → Int}

/-- nova_restore_data when both buffers are allocated, no stripe read fails and the stripe it
rebuilds matches the first stored checksum: 0, with stripe `b` written back as `B`'s. -/
theorem novaRestoreData_of_match (hread : ∀ i < cfg.numStrps, fromPmem i = 0) (hb : b < cfg.numStrps)
    (hpar : cfg.parityAddr blocknr ≠ 0)
    (hother : ∀ x < 4096, x / cfg.strpSize ≠ b → m.bytes (blocknr * 4096 + x) = B x)
    (hparity : ∀ j < cfg.strpSize,
      m.bytes (cfg.parityAddr blocknr + j) = novaCalculateBlockParity cfg B (fun _ => 0) 0 j)
    (hmatch : (crc32c cfg.initCsum (bytesOf B (b * cfg.strpSize) cfg.strpSize)).toNat =
      readLe m.bytes (cfg.dataCsumAddr ((blocknr * 4096 + b * cfg.strpSize) / cfg.strpSize) 0) 4) :
    (novaRestoreData cfg true fromPmem m blocknr b).1 = 0 ∧
      ∀ x < 4096, (m.run (novaRestoreData cfg true fromPmem m blocknr b).2).bytes (blocknr * 4096 + x) = B x := by
  have hfind : (List.range cfg.numStrps).find? (fromPmem · < 0) = none :=
    List.find?_eq_none.mpr fun i hi => by simp [hread i (List.mem_range.mp hi)]
  have hlast : ((List.range cfg.numStrps).map fromPmem).getLastD 0 = 0 :=
    getLastD_of_forall fun r hr => by
      obtain ⟨i, hi, rfl⟩ := List.mem_map.mp hr; exact hread i (List.mem_range.mp hi)
  have hstripe : bytesOf (novaCalculateBlockParity cfg (fun x => if x / cfg.strpSize = b then
        m.bytes (cfg.parityAddr blocknr + x % cfg.strpSize) else m.bytes (blocknr * 4096 + x))
      (fun _ => 0) 0) 0 cfg.strpSize = bytesOf B (b * cfg.strpSize) cfg.strpSize :=
    bytesOf_congr fun i hi => by rw [Nat.zero_add]; exact restore_stripe_eq hb hother hparity hi
  simp only [novaRestoreData, hpar, hfind, hlast, hstripe, not_true, if_false, ← hmatch, true_or,
    if_true]
  refine ⟨trivial, fun x hx => ?_⟩
  simp only [Pmem.run_append, run_memunlockRange, run_memlockRange, Pmem.run_cons, Pmem.run_nil,
    Pmem.step, Pmem.write_bytes]
  split_ifs with hin
  · rw [restore_stripe_eq hb hother hparity (by omega)]
    congr 1; omega
  · exact hother x hx fun hxb => hin (by rw [div_strpSize_eq_iff] at hxb; omega)

end Restore

end Nova
