import Nova.ParityRestore

/-! The unrolled path of nova_update_block_csum_parity against the plain calls. -/
namespace Nova

/-- Where the unrolled path of block `blocknr` stores: each replica holds the checksums of the
block's eight stripes one after the other, and the two replicas and the parity stripe lie
apart. -/
structure UnrollSpace (cfg : ParityCfg) (blocknr : Nat) : Prop where
  slots : ∀ s < 8, ∀ r < 2,
    cfg.dataCsumAddr (blocknr * 8 + s) r = cfg.dataCsumAddr (blocknr * 8) r + 4 * s
  replicas_apart : cfg.dataCsumAddr (blocknr * 8) 0 + 32 ≤ cfg.dataCsumAddr (blocknr * 8) 1 ∨
    cfg.dataCsumAddr (blocknr * 8) 1 + 32 ≤ cfg.dataCsumAddr (blocknr * 8) 0
  replica_parity : ∀ r < 2, cfg.dataCsumAddr (blocknr * 8) r + 32 ≤ cfg.parityAddr blocknr ∨
    cfg.parityAddr blocknr + cfg.strpSize ≤ cfg.dataCsumAddr (blocknr * 8) r

section Unrolled
variable {cfg : ParityCfg} {src : Nat → UInt8} {block blocknr offset bytes : Nat}

/-- The bytes of crc[8] once each acc[k] holds the checksum of stripe `k`: crc[k] little-endian
in bytes `4 k` to `4 k + 3`. -/
def stripeCsumBytes (cfg : ParityCfg) (src : Nat → UInt8) (block j : Nat) : UInt8 :=
  le (crc32c cfg.initCsum (bytesOf src (block + j / 4 * cfg.strpSize) cfg.strpSize)).toNat (j % 4)

theorem strpSize_of_eight (h : 4096 / cfg.strpSize = 8) : cfg.strpSize = 512 := by
  have h1 := Nat.div_mul_le_self 4096 cfg.strpSize
  have h2 := Nat.lt_div_mul_add (a := 4096) (strpSize_pos cfg)
  rw [h] at h1 h2
  have hle : cfg.strpShift ≤ 9 := (Nat.pow_le_pow_iff_right (by decide)).mp
    (show 2 ^ cfg.strpShift ≤ 2 ^ 9 by unfold ParityCfg.strpSize at h1; omega)
  have hlt : 8 < cfg.strpShift := (Nat.pow_lt_pow_iff_right (by decide)).mp
    (show 2 ^ 8 < 2 ^ cfg.strpShift by unfold ParityCfg.strpSize at h2; omega)
  unfold ParityCfg.strpSize
  rw [show cfg.strpShift = 9 by omega]
  rfl

/-- The parity buffer of the unrolled loop is the parity nova_calculate_block_parity computes. -/
theorem unrolled_parity_eq (hS : cfg.strpSize = 512) (hpar : cfg.dataParity > 0) (uc : Bool)
    (acc : Nat → UInt32) :
    (unrollLoop cfg src uc ⟨block, acc, fun _ => 0⟩ (cfg.strpSize / 8)).parity =
      novaCalculateBlockParity cfg src (fun _ => 0) block := by
  have h8 : cfg.numStrps = 8 := by rw [ParityCfg.numStrps, hS]
  funext j
  rw [unrollLoop_parity]
  unfold novaCalculateBlockParity parityLoop
  cases cfg.sse2 <;> simp only [foldl_parityChunk, hS, h8, hpar, true_and, if_true, if_false,
    Bool.false_eq_true]

theorem unrolled_acc_eq (hS : cfg.strpSize = 512) (hc : cfg.dataCsum > 0 ∧ cfg.sse42 = true) (k : Nat) :
    (unrollLoop cfg src cfg.sse42 ⟨block, fun _ => cfg.initCsum, fun _ => 0⟩ (cfg.strpSize / 8)).acc k =
      crc32c cfg.initCsum (bytesOf src (block + k * cfg.strpSize) cfg.strpSize) := by
  rw [unrollLoop_acc, if_pos hc, hS]

/-- Without SSE4.2 the unrolled loop computes the parity only, and nova_update_block_csum then
runs on `block` as the loop advanced it, a stripe further on. -/
theorem novaUpdateBlockCsumParity_no_sse42
    (hun : 4096 / cfg.strpSize = 8 ∧ (offset % cfg.strpSize + bytes - 1) / cfg.strpSize + 1 = 8)
    (hsse : cfg.sse42 = false) (hcsum : cfg.dataCsum > 0)
    (hpar : cfg.dataParity > 0) :
    novaUpdateBlockCsumParity cfg true src block blocknr offset bytes =
      some (novaMemunlockRange cfg.protect (cfg.parityAddr blocknr) cfg.strpSize ++
        [.storeNt (cfg.parityAddr blocknr) cfg.strpSize
          (novaCalculateBlockParity cfg src (fun _ => 0) block)] ++
        novaMemlockRange cfg.protect (cfg.parityAddr blocknr) cfg.strpSize ++
        novaUpdateBlockCsum cfg src (block + cfg.strpSize) blocknr offset bytes) := by
  have hS := strpSize_of_eight hun.1
  have hblk : 8 * (cfg.strpSize / 8) = cfg.strpSize := by rw [hS]
  simp only [novaUpdateBlockCsumParity, csumParityTail, hun, hsse, hcsum, hpar, unrollLoop_block,
    unrolled_parity_eq hS hpar, and_self, decide_True, Bool.true_and, Bool.false_eq_true, and_false,
    if_false, if_true, or_true, List.nil_append, not_false_eq_true, not_true, List.append_nil,
    decide_False, true_and, hblk]

variable (hun : 4096 / cfg.strpSize = 8 ∧ (offset % cfg.strpSize + bytes - 1) / cfg.strpSize + 1 = 8)
  (hoff : offset + bytes ≤ 4096)
include hun hoff

theorem offset_div_strpSize : offset / cfg.strpSize = 0 := by
  have hS := strpSize_of_eight hun.1
  have h2 := hun.2
  rw [hS] at h2 ⊢
  omega

theorem stripe_nr_of_eight : (blocknr * 4096 + offset) / cfg.strpSize = blocknr * 8 := by
  have h0 := offset_div_strpSize hun hoff
  rw [strpSize_of_eight hun.1] at h0 ⊢
  omega

theorem mem_novaUpdateBlockCsum_unrolled (hsp : UnrollSpace cfg blocknr) {o : Op}
    (ho : o ∈ novaUpdateBlockCsum cfg src block blocknr offset bytes) :
    ∃ s < 8, ∃ r < 2, o = .storeNt (cfg.dataCsumAddr (blocknr * 8) r + 4 * s) 4
      (le (crc32c cfg.initCsum (bytesOf src (block + s * cfg.strpSize) cfg.strpSize)).toNat) := by
  obtain ⟨s, hs, r, hr, rfl⟩ := mem_novaUpdateBlockCsum ho
  rw [hun.2] at hs
  rw [stripe_nr_of_eight hun hoff, offset_div_strpSize hun hoff, Nat.zero_add, hsp.slots s hs r hr]
  exact ⟨s, hs, r, hr, rfl⟩

theorem storeNt_mem_novaUpdateBlockCsum_unrolled (hsp : UnrollSpace cfg blocknr) {s r : Nat}
    (hs : s < 8) (hr : r < 2) :
    Op.storeNt (cfg.dataCsumAddr (blocknr * 8) r + 4 * s) 4
        (le (crc32c cfg.initCsum (bytesOf src (block + s * cfg.strpSize) cfg.strpSize)).toNat) ∈
      novaUpdateBlockCsum cfg src block blocknr offset bytes := by
  have hmem := @storeNt_mem_novaUpdateBlockCsum cfg src block blocknr offset bytes s r
    (by rw [hun.2]; exact hs) hr
  rwa [stripe_nr_of_eight hun hoff, offset_div_strpSize hun hoff, Nat.zero_add,
    hsp.slots s hs r hr] at hmem

theorem run_novaUpdateBlockCsum_unrolled (hsp : UnrollSpace cfg blocknr) (m : Pmem) :
    m.run (novaUpdateBlockCsum cfg src block blocknr offset bytes) =
      (m.write (cfg.dataCsumAddr (blocknr * 8) 0) 32 (stripeCsumBytes cfg src block)).write
        (cfg.dataCsumAddr (blocknr * 8) 1) 32 (stripeCsumBytes cfg src block) := by
  have hstores := @Pmem.run_slots_tails_of_stores (novaUpdateBlockCsum cfg src block blocknr offset bytes)
    (fun o ho => by
      obtain ⟨s, -, r, -, rfl⟩ := mem_novaUpdateBlockCsum_unrolled hun hoff hsp ho
      exact ⟨_, _, _, rfl⟩) m
  refine Pmem.eq_of_parts (funext fun x => ?_) hstores.1 hstores.2
  have hslot : ∀ c s, c + 4 * s ≤ x → x < c + 4 * s + 4 →
      le (crc32c cfg.initCsum (bytesOf src (block + s * cfg.strpSize) cfg.strpSize)).toNat (x - (c + 4 * s)) =
        stripeCsumBytes cfg src block (x - c) :=
    fun c s h1 h2 => by
      rw [stripeCsumBytes, show (x - c) / 4 = s by omega, show (x - c) % 4 = x - (c + 4 * s) by omega]
  have hapart := hsp.replicas_apart
  rw [Pmem.run_bytes_of_writers (fun o ho hx m' => ?_) m]
  · split_ifs with hw
    · rfl
    · -- a byte in either array is stored to by the slot it falls in
      have hno : ∀ r < 2, ¬ (cfg.dataCsumAddr (blocknr * 8) r ≤ x ∧ x < cfg.dataCsumAddr (blocknr * 8) r + 32) :=
        fun r hr h => hw ⟨_, storeNt_mem_novaUpdateBlockCsum_unrolled hun hoff hsp
          (s := (x - cfg.dataCsumAddr (blocknr * 8) r) / 4) (by omega) hr, by simp only [Op.Writes]; omega⟩
      simp only [Pmem.write_bytes]
      rw [if_neg (hno 1 (by decide)), if_neg (hno 0 (by decide))]
  · obtain ⟨s, hs, r, hr, rfl⟩ := mem_novaUpdateBlockCsum_unrolled hun hoff hsp ho
    simp only [Op.Writes] at hx
    simp only [Pmem.step, Pmem.write_bytes]
    rw [if_pos hx]
    obtain rfl | rfl : r = 0 ∨ r = 1 := by omega
    · rw [if_neg (by omega), if_pos (by omega), hslot _ _ hx.1 hx.2]
    · rw [if_pos (by omega), hslot _ _ hx.1 hx.2]

theorem readLe_run_novaUpdateBlockCsum_unrolled (hsp : UnrollSpace cfg blocknr) (m : Pmem) :
    readLe (m.run (novaUpdateBlockCsum cfg src block blocknr offset bytes)).bytes
        (cfg.dataCsumAddr (blocknr * 8) 0) 4 =
      (crc32c cfg.initCsum (bytesOf src block cfg.strpSize)).toNat := by
  have hapart := hsp.replicas_apart
  refine (readLe_congr 4 (g := le _) (b := 0) fun i hi => ?_).trans
    ((readLe_le _ 4).trans (Nat.mod_eq_of_lt (UInt32.toNat_lt_size _)))
  rw [run_novaUpdateBlockCsum_unrolled hun hoff hsp]
  simp (disch := omega) only [Pmem.write_bytes, stripeCsumBytes, if_pos, if_neg,
    Nat.add_sub_cancel_left, Nat.zero_add, Nat.div_eq_of_lt, Nat.mod_eq_of_lt, Nat.zero_mul,
    Nat.add_zero]

end Unrolled

/-- With parity on, and SSE4.2 or data checksums off, nova_update_block_csum_parity leaves the
memory nova_update_block_csum followed by nova_update_block_parity leaves, whichever path it
takes. -/
theorem unrolled_csum_parity_eq_generic {cfg : ParityCfg} {src : Nat → UInt8}
    {block blocknr offset bytes : Nat} (hsp : UnrollSpace cfg blocknr) (hpar : cfg.dataParity > 0)
    (hsse : cfg.sse42 = true ∨ cfg.dataCsum = 0) (hblock : block ≠ 0) (hoff : offset + bytes ≤ 4096) :
    ∃ ops, novaUpdateBlockCsumParity cfg true src block blocknr offset bytes = some ops ∧
      ∀ m : Pmem, m.run ops = m.run (genericCsumParity cfg true src block blocknr offset bytes) := by
  by_cases hun : 4096 / cfg.strpSize = 8 ∧ (offset % cfg.strpSize + bytes - 1) / cfg.strpSize + 1 = 8
  · have hS := strpSize_of_eight hun.1
    have hnr : blocknr * 4096 / cfg.strpSize = blocknr * 8 := by rw [hS]; omega
    have hflag : (cfg.dataCsum > 0 ∧ cfg.sse42 = true) ↔ cfg.dataCsum > 0 :=
      ⟨And.left, fun h => ⟨h, hsse.resolve_right (by omega)⟩⟩
    have hnot : ¬ (cfg.dataCsum > 0 ∧ ¬ cfg.sse42 = true) := fun h => h.2 (hflag.mpr h.1).2
    simp only [novaUpdateBlockCsumParity, genericCsumParity, csumParityTail, novaUpdateBlockParity,
      hun, hpar, hblock, hnr, hflag, hnot, and_self, decide_True, true_and, Bool.decide_eq_true,
      Bool.true_or, or_true, if_true, not_true, and_false, if_false, List.append_nil,
      Bool.false_eq_true, not_false_eq_true, or_self, Option.some.injEq, exists_eq_left',
      unrolled_parity_eq hS hpar, Nat.reduceMul]
    intro m
    by_cases hc : cfg.dataCsum > 0
    · simp only [hc, and_true, if_true, Pmem.run_append, run_memunlockRange, run_memlockRange,
        Pmem.run_cons, Pmem.run_nil, run_novaUpdateBlockCsum_unrolled hun hoff hsp, Pmem.step,
        unrolled_acc_eq hS (hflag.mpr hc)]
      rfl
    · simp only [hc, and_true, if_false, List.nil_append, List.append_assoc]
  · refine ⟨_, ?_, fun _ => rfl⟩
    simp only [novaUpdateBlockCsumParity, hun, false_and, decide_False, Bool.false_eq_true, or_self,
      if_false, genericCsumParity]

/-- Data checksums and parity on, on a CPU with SSE2 and SSE4.2, 512-byte stripes; each checksum
replica is an array of 4-byte slots indexed by the stripe number. -/
def eightStripeCfg : ParityCfg :=
  ⟨9, 1, 1, true, true, fun nr r => 8192 + 4 * nr + 65536 * r, fun nr => 131072 + 512 * nr, 1,
    false⟩

theorem eight_stripe_write_eq_generic :
    ∃ ops, novaUpdateBlockCsumParity eightStripeCfg true (fun a => (a % 251).toUInt8) 4096 1 0 4096 = some ops ∧
      ∀ m : Pmem, m.run ops =
        m.run (genericCsumParity eightStripeCfg true (fun a => (a % 251).toUInt8) 4096 1 0 4096) :=
  unrolled_csum_parity_eq_generic
    ⟨fun s _ r _ => by
        change 8192 + 4 * (1 * 8 + s) + 65536 * r = 8192 + 4 * (1 * 8) + 65536 * r + 4 * s
        omega,
      by decide,
      fun r _ => by
        change 8192 + 4 * (1 * 8) + 65536 * r + 32 ≤ 131072 + 512 * 1 ∨ _
        omega⟩
    (by decide) (.inl rfl) (by decide) (by decide)

/-- `eightStripeCfg` on a CPU without SSE4.2. -/
def noSse42Cfg : ParityCfg := { eightStripeCfg with sse42 := false }

/-- A block buffer at 4096 of zeros but for a 1 at the start of its second stripe. -/
def secondStripeMarked (a : Nat) : UInt8 := if a = 4608 then 1 else 0

theorem unrolled_csum_reads_next_stripe :
    ∃ ops, novaUpdateBlockCsumParity noSse42Cfg true secondStripeMarked 4096 16 0 4096 = some ops ∧
      ∀ m : Pmem,
        readLe (m.run ops).bytes (noSse42Cfg.dataCsumAddr (16 * 8) 0) 4 =
          (crc32c 1 (bytesOf secondStripeMarked 4608 512)).toNat ∧
        readLe (m.run (genericCsumParity noSse42Cfg true secondStripeMarked 4096 16 0 4096)).bytes
            (noSse42Cfg.dataCsumAddr (16 * 8) 0) 4 =
          (crc32c 1 (bytesOf secondStripeMarked 4096 512)).toNat ∧
        readLe (m.run ops).bytes (noSse42Cfg.dataCsumAddr (16 * 8) 0) 4 ≠
          readLe (m.run (genericCsumParity noSse42Cfg true secondStripeMarked 4096 16 0 4096)).bytes
            (noSse42Cfg.dataCsumAddr (16 * 8) 0) 4 := by
  have hsp : UnrollSpace noSse42Cfg 16 :=
    ⟨fun s _ r _ => by
        change 8192 + 4 * (16 * 8 + s) + 65536 * r = 8192 + 4 * (16 * 8) + 65536 * r + 4 * s
        omega,
      by decide,
      fun r _ => by
        change 8192 + 4 * (16 * 8) + 65536 * r + 32 ≤ 131072 + 512 * 16 ∨ _
        omega⟩
  have hun : 4096 / noSse42Cfg.strpSize = 8 ∧
      (0 % noSse42Cfg.strpSize + 4096 - 1) / noSse42Cfg.strpSize + 1 = 8 := by decide
  have hoff : 0 + 4096 ≤ 4096 := le_refl _
  have h1 : ∀ m : Pmem, readLe (m.run (novaUpdateBlockCsum noSse42Cfg secondStripeMarked
      (4096 + noSse42Cfg.strpSize) 16 0 4096)).bytes (noSse42Cfg.dataCsumAddr (16 * 8) 0) 4 =
      (crc32c 1 (bytesOf secondStripeMarked 4608 512)).toNat :=
    readLe_run_novaUpdateBlockCsum_unrolled hun hoff hsp
  have h0 : ∀ m : Pmem, readLe (m.run (genericCsumParity noSse42Cfg true secondStripeMarked 4096 16 0
      4096)).bytes (noSse42Cfg.dataCsumAddr (16 * 8) 0) 4 =
      (crc32c 1 (bytesOf secondStripeMarked 4096 512)).toNat := fun m => by
    have hg : genericCsumParity noSse42Cfg true secondStripeMarked 4096 16 0 4096 =
        novaUpdateBlockCsum noSse42Cfg secondStripeMarked 4096 16 0 4096 ++
          [.storeNt 139264 512 (novaCalculateBlockParity noSse42Cfg secondStripeMarked (fun _ => 0) 4096)] :=
      rfl
    rw [hg, Pmem.run_append, Pmem.run_cons, Pmem.run_nil]
    refine (readLe_congr 4 fun i hi => ?_).trans (readLe_run_novaUpdateBlockCsum_unrolled hun hoff hsp m)
    simp only [Pmem.step, Pmem.write_bytes]
    exact if_neg (by change ¬ (139264 ≤ 8192 + 4 * (16 * 8) + 65536 * 0 + i ∧ _); omega)
  -- the two stripes differ in their first byte only
  have hne : crc32c 1 (bytesOf secondStripeMarked 4608 512) ≠
      crc32c 1 (bytesOf secondStripeMarked 4096 512) := by
    have hrest : bytesOf secondStripeMarked 4609 511 = bytesOf secondStripeMarked 4097 511 :=
      bytesOf_congr fun i hi => by
        simp only [secondStripeMarked]; rw [if_neg (by omega), if_neg (by omega)]
    rw [show 512 = 1 + 511 from rfl, bytesOf_add, bytesOf_add, hrest]
    exact crc32c_ne_of_byte_ne 1 [] _ (by decide)
  refine ⟨_, novaUpdateBlockCsumParity_no_sse42 hun rfl (by decide) (by decide), fun m => ?_⟩
  rw [Pmem.run_append, h1, h0]
  exact ⟨rfl, rfl, fun h => hne (UInt32.toNat.inj h)⟩

end Nova
