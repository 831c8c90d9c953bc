import Nova.ParityRestore

/-! The invariant nova_restore_data relies on, kept by every write: the checksums and the parity
stripe agree with the block. -/
namespace Nova

/-- Block `blocknr` of `m` agrees with its checksums and parity: both replicas of each stripe's
checksum hold crc32c(NOVA_INIT_CSUM) of the stripe, and the parity stripe holds the XOR of the
stripes. -/
structure ParityConsistent (cfg : ParityCfg) (m : Pmem) (blocknr : Nat) : Prop where
  csum : ∀ s < cfg.numStrps, ∀ r < 2,
    readLe m.bytes (cfg.dataCsumAddr (blocknr * cfg.numStrps + s) r) 4 =
      (crc32c cfg.initCsum (bytesOf m.bytes (blocknr * 4096 + s * cfg.strpSize) cfg.strpSize)).toNat
  parity : ∀ j < cfg.strpSize, m.bytes (cfg.parityAddr blocknr + j) =
    novaCalculateBlockParity cfg (fun x => m.bytes (blocknr * 4096 + x)) (fun _ => 0) 0 j

/-- A write into a data block: `bytes` bytes of `data` at `offset`. -/
structure BlockWrite where
  offset : Nat
  bytes : Nat
  data : Nat → UInt8

/-- The write lies in the block and writes something. -/
def BlockWrite.InBlock (w : BlockWrite) : Prop := 0 < w.bytes ∧ w.offset + w.bytes ≤ 4096

/-- The write as the block's bytes see it. -/
def BlockWrite.apply (w : BlockWrite) (blk : Nat → UInt8) (x : Nat) : UInt8 :=
  if w.offset ≤ x ∧ x < w.offset + w.bytes then w.data (x - w.offset) else blk x

/-- The write copied to block `blocknr` of the medium, then nova_update_block_csum and
nova_update_block_parity over the block as written, as nova_update_block_csum_parity calls them
when it does not unroll. -/
def csumParityWrite (cfg : ParityCfg) (blocknr : Nat) (m : Pmem) (w : BlockWrite) : Pmem :=
  let m' := m.write (blocknr * 4096 + w.offset) w.bytes w.data
  m'.run (genericCsumParity cfg true m'.bytes (blocknr * 4096) blocknr w.offset w.bytes)

theorem foldl_apply_congr {x : Nat} (ws : List BlockWrite) : ∀ {blk blk' : Nat → UInt8},
    blk x = blk' x →
      ws.foldl (fun b w => w.apply b) blk x = ws.foldl (fun b w => w.apply b) blk' x := by
  induction ws with
  | nil => exact id
  | cons w ws ih => exact fun h => ih (by simp only [BlockWrite.apply, h])

theorem calculateBlockParity_congr {cfg : ParityCfg} (h : cfg.strpShift ≤ 12) {f g : Nat → UInt8}
    (hfg : ∀ x < 4096, f x = g x) {j : Nat} (hj : j < cfg.strpSize) :
    novaCalculateBlockParity cfg f (fun _ => 0) 0 j = novaCalculateBlockParity cfg g (fun _ => 0) 0 j := by
  have hn : 0 < cfg.numStrps := Nat.pos_of_ne_zero fun h0 => by
    simpa [h0] using strpSize_mul_numStrps h
  rw [novaCalculateBlockParity_eq _ _ _ _ hj, novaCalculateBlockParity_eq _ _ _ _ hj,
    stripeXor_eq_foldl _ _ _ _ hn, stripeXor_eq_foldl _ _ _ _ hn]
  exact List.foldl_ext _ _ _ fun _ i hi => by
    rw [Nat.zero_add, hfg _ (stripe_byte_lt (List.mem_range.mp hi) hj)]

section Restore
variable {cfg : ParityCfg} {blocknr : Nat} (hsp : ParitySpace cfg blocknr)
include hsp

/-- From a block in agreement with its checksums and parity, whatever happens to stripe `b`,
nova_restore_data of it with every read succeeding returns 0 and gives the block back. -/
theorem ParityConsistent.restore {m g : Pmem} {b : Nat} {fromPmem : Nat → Int}
    (hc : ParityConsistent cfg m blocknr) (hb : b < cfg.numStrps)
    (hread : ∀ i < cfg.numStrps, fromPmem i = 0)
    (hdamage : ∀ x, ¬ (blocknr * 4096 + b * cfg.strpSize ≤ x ∧
        x < blocknr * 4096 + b * cfg.strpSize + cfg.strpSize) → g.bytes x = m.bytes x) :
    (novaRestoreData cfg true fromPmem g blocknr b).1 = 0 ∧
      ∀ x < 4096, (g.run (novaRestoreData cfg true fromPmem g blocknr b).2).bytes (blocknr * 4096 + x) =
        m.bytes (blocknr * 4096 + x) := by
  have hbS : b * cfg.strpSize + cfg.strpSize ≤ 4096 := by
    rw [← strpSize_mul_numStrps hsp.shift_le, ← Nat.succ_mul, Nat.mul_comm cfg.strpSize]
    exact Nat.mul_le_mul_right _ hb
  refine novaRestoreData_of_match hread hb hsp.parity_ne (fun x hx hxb => ?_) (fun j hj => ?_) ?_
  · rw [Ne, div_strpSize_eq_iff] at hxb
    exact hdamage _ (by omega)
  · rw [hdamage _ (by rcases hsp.parity_block with h | h <;> omega)]
    exact hc.parity j hj
  · have hslot := hsp.slot_block b hb 0 (by decide)
    rw [stripe_nr hsp.shift_le, readLe_congr 4 fun i hi => hdamage _ (by omega),
      hc.csum b hb 0 (by decide)]
    exact congrArg _ (congrArg _ (bytesOf_congr fun i _ => by rw [Nat.add_assoc]))

end Restore

section Update
variable {cfg : ParityCfg} {blocknr offset bytes : Nat} (hsp : ParitySpace cfg blocknr)
  (hcsum : cfg.dataCsum > 0) (hpar : cfg.dataParity > 0) {m : Pmem}
include hsp hcsum hpar

section Touched
variable (hb : 0 < bytes) (hoff : offset + bytes ≤ 4096)
include hb hoff

theorem csumParity_parity_block {j : Nat} (hj : j < cfg.strpSize) :
    (m.run (genericCsumParity cfg true m.bytes (blocknr * 4096) blocknr offset bytes)).bytes
        (cfg.parityAddr blocknr + j) =
      novaCalculateBlockParity cfg (fun x => (m.run (genericCsumParity cfg true m.bytes
        (blocknr * 4096) blocknr offset bytes)).bytes (blocknr * 4096 + x)) (fun _ => 0) 0 j := by
  rw [csumParity_parity hsp hcsum hpar hb hoff hj]
  exact calculateBlockParity_congr hsp.shift_le
    (fun x hx => (csumParity_block hsp hcsum hpar hb hoff hx).symm) hj

theorem csumParity_csum_block {s r : Nat}
    (hs : offset / cfg.strpSize ≤ s ∧
      s < offset / cfg.strpSize + ((offset % cfg.strpSize + bytes - 1) / cfg.strpSize + 1))
    (hr : r < 2) :
    readLe (m.run (genericCsumParity cfg true m.bytes (blocknr * 4096) blocknr offset bytes)).bytes
        (cfg.dataCsumAddr (blocknr * cfg.numStrps + s) r) 4 =
      (crc32c cfg.initCsum (bytesOf (m.run (genericCsumParity cfg true m.bytes (blocknr * 4096)
        blocknr offset bytes)).bytes (blocknr * 4096 + s * cfg.strpSize) cfg.strpSize)).toNat := by
  have hn := touched_le hsp.shift_le hb hoff
  rw [csumParity_csum hsp hcsum hpar hb hoff hs hr]
  exact congrArg _ (congrArg _ (bytesOf_congr fun i hi => by
    rw [Nat.add_assoc, csumParity_block hsp hcsum hpar hb hoff (stripe_byte_lt (by omega) hi)]))

/-- The step lemma: the update after a write into a block in agreement (`m₀` before the write,
`m` after its bytes went in) leaves the block in agreement. -/
theorem ParityConsistent.update {m₀ : Pmem} (hc : ParityConsistent cfg m₀ blocknr)
    (hm : ∀ x, ¬ (blocknr * 4096 + offset ≤ x ∧ x < blocknr * 4096 + offset + bytes) →
      m.bytes x = m₀.bytes x) :
    ParityConsistent cfg
      (m.run (genericCsumParity cfg true m.bytes (blocknr * 4096) blocknr offset bytes)) blocknr where
  csum s hs r hr := by
    by_cases ht : offset / cfg.strpSize ≤ s ∧
        s < offset / cfg.strpSize + ((offset % cfg.strpSize + bytes - 1) / cfg.strpSize + 1)
    · exact csumParity_csum_block hsp hcsum hpar hb hoff ht hr
    have hu : s < offset / cfg.strpSize ∨
        offset / cfg.strpSize + ((offset % cfg.strpSize + bytes - 1) / cfg.strpSize + 1) ≤ s := by
      omega
    have hslot := hsp.slot_block s hs r hr
    rw [csumParity_slot_untouched hsp hcsum hpar hb hoff hs hu hr,
      readLe_congr 4 fun i hi => hm _ (by omega), hc.csum s hs r hr]
    exact congrArg _ (congrArg _ (bytesOf_congr fun i hi => by
      have := untouched_apart hb hu hi
      rw [Nat.add_assoc, csumParity_block hsp hcsum hpar hb hoff (stripe_byte_lt hs hi),
        hm _ (by omega)]))
  parity j hj := csumParity_parity_block hsp hcsum hpar hb hoff hj

end Touched

/-- The initial state: an update after a write of the whole block leaves it in agreement, from
any medium. -/
theorem ParityConsistent.whole (m : Pmem) :
    ParityConsistent cfg
      (m.run (genericCsumParity cfg true m.bytes (blocknr * 4096) blocknr 0 4096)) blocknr where
  csum s hs r hr := csumParity_csum_block hsp hcsum hpar (by decide) (by decide)
    (by rw [whole_block_stripes hsp.shift_le, Nat.zero_div]; omega) hr
  parity j hj := csumParity_parity_block hsp hcsum hpar (by decide) (by decide) hj

theorem ParityConsistent.write {w : BlockWrite} (hc : ParityConsistent cfg m blocknr)
    (hw : w.InBlock) : ParityConsistent cfg (csumParityWrite cfg blocknr m w) blocknr :=
  hc.update hsp hcsum hpar hw.1 hw.2 fun _ hx => by rw [Pmem.write_bytes, if_neg hx]

/-- The run lemma: so does every run of writes inside the block. -/
theorem ParityConsistent.writes {ws : List BlockWrite} (hc : ParityConsistent cfg m blocknr)
    (hws : ∀ w ∈ ws, w.InBlock) :
    ParityConsistent cfg (ws.foldl (csumParityWrite cfg blocknr) m) blocknr := by
  induction ws generalizing m with
  | nil => exact hc
  | cons w ws ih =>
    exact ih (hc.write hsp hcsum hpar (hws w (List.mem_cons_self w ws)))
      fun w' h => hws w' (List.mem_cons_of_mem w h)

theorem csumParityWrite_block {w : BlockWrite} (hw : w.InBlock) {x : Nat} (hx : x < 4096) :
    (csumParityWrite cfg blocknr m w).bytes (blocknr * 4096 + x) =
      w.apply (fun x => m.bytes (blocknr * 4096 + x)) x := by
  simp only [csumParityWrite]
  rw [csumParity_block hsp hcsum hpar hw.1 hw.2 hx]
  simp only [Pmem.write_bytes, BlockWrite.apply]
  split_ifs <;> first | omega | rfl | (congr 1; omega)

theorem csumParityWrites_block {ws : List BlockWrite} (hws : ∀ w ∈ ws, w.InBlock) {x : Nat}
    (hx : x < 4096) :
    (ws.foldl (csumParityWrite cfg blocknr) m).bytes (blocknr * 4096 + x) =
      ws.foldl (fun blk w => w.apply blk) (fun x => m.bytes (blocknr * 4096 + x)) x := by
  induction ws generalizing m with
  | nil => rfl
  | cons w ws ih =>
    rw [List.foldl_cons, List.foldl_cons, ih fun w' h => hws w' (List.mem_cons_of_mem w h)]
    exact foldl_apply_congr ws (csumParityWrite_block hsp hcsum hpar (hws w (List.mem_cons_self w ws)) hx)

end Update

/-- The parity round trip of a data block: after a whole-block write with checksums and parity
on, whatever happens to one stripe, nova_restore_data of it returns 0 and gives the block back. -/
theorem damaged_stripe_restored {cfg : ParityCfg} {blocknr b : Nat} {m g : Pmem}
    {fromPmem : Nat → Int} (hsp : ParitySpace cfg blocknr) (hcsum : cfg.dataCsum > 0)
    (hpar : cfg.dataParity > 0) (hb : b < cfg.numStrps) (hread : ∀ i < cfg.numStrps, fromPmem i = 0)
    (hdamage : ∀ x, ¬ (blocknr * 4096 + b * cfg.strpSize ≤ x ∧
        x < blocknr * 4096 + b * cfg.strpSize + cfg.strpSize) →
      g.bytes x = (m.run (genericCsumParity cfg true m.bytes (blocknr * 4096) blocknr 0 4096)).bytes x) :
    (novaRestoreData cfg true fromPmem g blocknr b).1 = 0 ∧
      ∀ x < 4096, (g.run (novaRestoreData cfg true fromPmem g blocknr b).2).bytes (blocknr * 4096 + x) =
        m.bytes (blocknr * 4096 + x) := by
  obtain ⟨h0, hblock⟩ := (ParityConsistent.whole hsp hcsum hpar m).restore hsp hb hread hdamage
  exact ⟨h0, fun x hx => (hblock x hx).trans (csumParity_block hsp hcsum hpar (by decide) (by decide) hx)⟩

theorem twoStripe_space : ParitySpace twoStripeCfg 1 :=
  ⟨by decide, by decide, by decide, by decide, by decide, by decide,
    fun s hs r hr s' hs' r' hr' _ => by
      change s < 2 at hs; change s' < 2 at hs'
      change 8192 + 4 * (1 * 2 + s) + 65536 * r + 4 ≤ 8192 + 4 * (1 * 2 + s') + 65536 * r' ∨
        8192 + 4 * (1 * 2 + s') + 65536 * r' + 4 ≤ 8192 + 4 * (1 * 2 + s) + 65536 * r
      omega⟩

/-- Block 1 holding `onesTwos`: a stripe of ones and a stripe of twos under `twoStripeCfg`. -/
def onesTwosBlock : Pmem :=
  ⟨fun a => if 4096 ≤ a ∧ a < 8192 then onesTwos (a - 4096) else 0, fun _ => default, fun _ => 0⟩

/-- The medium after a whole-block write of it, with its second stripe then overwritten. -/
def onesTwosDamaged : Pmem :=
  (onesTwosBlock.run (genericCsumParity twoStripeCfg true onesTwosBlock.bytes (1 * 4096) 1 0 4096)).write
    6144 2048 fun _ => 0xff

theorem second_stripe_restored_after_write :
    (novaRestoreData twoStripeCfg true (fun _ => 0) onesTwosDamaged 1 1).1 = 0 ∧
      ∀ x < 4096, (onesTwosDamaged.run
          (novaRestoreData twoStripeCfg true (fun _ => 0) onesTwosDamaged 1 1).2).bytes (1 * 4096 + x) =
        onesTwosBlock.bytes (1 * 4096 + x) :=
  damaged_stripe_restored twoStripe_space (by decide) (by decide) (by decide) (fun _ _ => rfl) fun x hx => by
      have hS : twoStripeCfg.strpSize = 2048 := rfl
      rw [hS] at hx
      simp only [onesTwosDamaged, Pmem.write_bytes]
      rw [if_neg (by omega)]

/-- Parity over whole runs of writes: from a block in agreement, after any writes inside it and
whatever then happens to one stripe, nova_restore_data of it returns 0 and gives back the block
the writes made. -/
theorem stripe_restored_after_writes {cfg : ParityCfg} {blocknr b : Nat} {m g : Pmem}
    {ws : List BlockWrite} {fromPmem : Nat → Int} (hsp : ParitySpace cfg blocknr)
    (hcsum : cfg.dataCsum > 0) (hpar : cfg.dataParity > 0) (hc : ParityConsistent cfg m blocknr)
    (hws : ∀ w ∈ ws, w.InBlock) (hb : b < cfg.numStrps) (hread : ∀ i < cfg.numStrps, fromPmem i = 0)
    (hdamage : ∀ x, ¬ (blocknr * 4096 + b * cfg.strpSize ≤ x ∧
        x < blocknr * 4096 + b * cfg.strpSize + cfg.strpSize) →
      g.bytes x = (ws.foldl (csumParityWrite cfg blocknr) m).bytes x) :
    (novaRestoreData cfg true fromPmem g blocknr b).1 = 0 ∧
      ∀ x < 4096, (g.run (novaRestoreData cfg true fromPmem g blocknr b).2).bytes (blocknr * 4096 + x) =
        ws.foldl (fun blk w => w.apply blk) (fun x => m.bytes (blocknr * 4096 + x)) x := by
  obtain ⟨h0, hblock⟩ := (hc.writes hsp hcsum hpar hws).restore hsp hb hread hdamage
  exact ⟨h0, fun x hx => (hblock x hx).trans (csumParityWrites_block hsp hcsum hpar hws hx)⟩

/-- Block 1 of `twoStripeCfg` after the whole-block write of `onesTwos`. -/
def onesTwosWritten : Pmem :=
  onesTwosBlock.run (genericCsumParity twoStripeCfg true onesTwosBlock.bytes (1 * 4096) 1 0 4096)

/-- Two writes into it, one across both stripes and one at the end of the second. -/
def twoWrites : List BlockWrite := [⟨100, 3000, fun _ => 5⟩, ⟨4000, 96, fun _ => 7⟩]

/-- The medium after the two writes, with the block's first stripe then overwritten. -/
def twoWritesDamaged : Pmem :=
  (twoWrites.foldl (csumParityWrite twoStripeCfg 1) onesTwosWritten).write 4096 2048 fun _ => 0

theorem first_stripe_restored_after_two_writes :
    (novaRestoreData twoStripeCfg true (fun _ => 0) twoWritesDamaged 1 0).1 = 0 ∧
      ∀ x < 4096, (twoWritesDamaged.run
          (novaRestoreData twoStripeCfg true (fun _ => 0) twoWritesDamaged 1 0).2).bytes (1 * 4096 + x) =
        twoWrites.foldl (fun blk w => w.apply blk) (fun x => onesTwosWritten.bytes (1 * 4096 + x)) x :=
  stripe_restored_after_writes twoStripe_space (by decide) (by decide)
    (ParityConsistent.whole twoStripe_space (by decide) (by decide) onesTwosBlock)
    (by simp [twoWrites, BlockWrite.InBlock]) (by decide) (fun _ _ => rfl) fun x hx => by
      have hS : twoStripeCfg.strpSize = 2048 := rfl
      rw [hS] at hx
      simp only [twoWritesDamaged, Pmem.write_bytes]
      rw [if_neg (by omega)]

end Nova
