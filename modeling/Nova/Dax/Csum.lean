import Nova.File
import Nova.Crc

/-! Per-block data checksums of the copy-on-write path: computing them over a whole block from
the write buffer and the partial head and tail, and verifying them before a read. -/
namespace Nova

/-- The mount-time settings the data path reads. The checksum seed and the placement of the
checksum slots come from nova.h, which is not among the sources, so they are parameters. -/
structure Sb where
  /-- NOVA_SB(sb)->block_csum_base: zero when data checksums are off. -/
  blockCsumBase : Nat
  /-- nova_get_block_csum_addr: where the checksum of a data block is kept. -/
  blockCsumAddr : Nat → Nat
  /-- NOVA_INIT_CSUM. -/
  initCsum : UInt32

def novaCalcDataCsum (init : UInt32) (buf : List UInt8) : UInt32 := crc32c init buf

/-- The checksum store: cpu_to_le32(csum) copied to the block's slot around the cache
(NOVA_DATA_CSUM_LEN = 4 bytes). -/
def csumStore (sb : Sb) (blocknr : Nat) (csum : UInt32) : Op :=
  .storeNt (sb.blockCsumAddr blocknr) 4 (le csum.toNat)

/-- The cursor of nova_update_cow_csum: next block number, buffer offset, block address, and
bytes of the buffer checksummed so far. -/
structure CsumCursor where
  blocknr : Nat
  bufptr : Nat
  blockptr : Nat
  csummed : Nat

/-- The whole-block loop of nova_update_cow_csum, `while (csummed + blocksize < bytes)`, run
with at most `fuel` iterations. -/
def cowCsumLoop (sb : Sb) (blocksize bytes : Nat) (wrbuf : Nat → UInt8) :
    Nat → World × CsumCursor → World × CsumCursor
  | 0, st => st
  | fuel + 1, (w, c) =>
    if c.csummed + blocksize < bytes then
      cowCsumLoop sb blocksize bytes wrbuf fuel
        (w.emit [csumStore sb c.blocknr (novaCalcDataCsum sb.initCsum (bytesOf wrbuf c.bufptr blocksize))],
          ⟨c.blocknr + 1, c.bufptr + blocksize, c.blockptr + blocksize, c.csummed + blocksize⟩)
    else (w, c)

/-- The partial head block of nova_update_cow_csum: the old head bytes, the first buffer bytes
and, when the write ends inside this block, the bytes after it. -/
def cowCsumHead (sb : Sb) (blocksize : Nat) (w : World) (blocknr : Nat) (wrbuf : Nat → UInt8)
    (offset bytes : Nat) : World × CsumCursor :=
  let blockptr := blocknr * 4096
  if offset ≠ 0 then
    let csummed := if blocksize - offset < bytes then blocksize - offset else bytes
    let csum := novaCalcDataCsum
      (novaCalcDataCsum sb.initCsum (bytesOf w.mem.bytes blockptr offset)) (bytesOf wrbuf 0 csummed)
    let csum := if offset + csummed < blocksize then
        novaCalcDataCsum csum (bytesOf w.mem.bytes (blockptr + offset + csummed) (blocksize - offset - csummed))
      else csum
    (w.emit [csumStore sb blocknr csum], ⟨blocknr + 1, csummed, blockptr + blocksize, csummed⟩)
  else (w, ⟨blocknr, 0, blockptr, 0⟩)

/-- nova_update_cow_csum: checksum every block the `bytes` of `wrbuf` written at `offset` of
block `blocknr` touch. Returns the number of bytes not checksummed. -/
def novaUpdateCowCsum (sb : Sb) (blocksize : Nat) (w : World) (blocknr : Nat) (wrbuf : Nat → UInt8)
    (offset bytes : Nat) : Nat × World :=
  let (w, c) := cowCsumHead sb blocksize w blocknr wrbuf offset bytes
  if c.csummed < bytes then
    let (w, c) := cowCsumLoop sb blocksize bytes wrbuf bytes (w, c)
    if c.csummed < bytes then
      let csum := novaCalcDataCsum sb.initCsum (bytesOf wrbuf c.bufptr (bytes - c.csummed))
      let csum := novaCalcDataCsum csum
        (bytesOf w.mem.bytes (c.blockptr + bytes - c.csummed) (blocksize - (bytes - c.csummed)))
      (0, w.emit [csumStore sb c.blocknr csum])
    else (bytes - c.csummed, w)
  else (bytes - c.csummed, w)

/-- The block loop of nova_verify_data_csum: compare `blocks` blocks with their stored
checksums, stopping at the first mismatch. -/
def verifyBlocks (sb : Sb) (blocksize : Nat) (m : Pmem) : (blocks blocknr blockptr : Nat) → Bool
  | 0, _, _ => true
  | blocks + 1, blocknr, blockptr =>
    if (novaCalcDataCsum sb.initCsum (bytesOf m.bytes blockptr blocksize)).toNat =
        readLe m.bytes (sb.blockCsumAddr blocknr) 4 then
      verifyBlocks sb blocksize m blocks (blocknr + 1) (blockptr + blocksize)
    else false

/-- nova_verify_data_csum: the `blocks` blocks of entry `e` from page `index` on match their
stored checksums. -/
def novaVerifyDataCsum (sb : Sb) (blocksize : Nat) (m : Pmem) (e : WriteEntry) (index blocks : Nat) :
    Bool :=
  verifyBlocks sb blocksize m blocks (getNvmm e index) (getNvmm e index * 4096)

/-- What nova_verify_data_csum checks of one page-sized block: the checksum of the block as
memory holds it is the one stored in its slot. -/
def CsumOk (sb : Sb) (m : Pmem) (blocknr : Nat) : Prop :=
  (novaCalcDataCsum sb.initCsum (bytesOf m.bytes (blocknr * 4096) 4096)).toNat =
    readLe m.bytes (sb.blockCsumAddr blocknr) 4

instance (sb : Sb) (m : Pmem) : DecidablePred (CsumOk sb m) :=
  fun _ => inferInstanceAs (Decidable (_ = _))

/-- The verify loop over page-sized blocks succeeds exactly when every block it visits is intact. -/
theorem verifyBlocks_eq_true {sb : Sb} {m : Pmem} :
    ∀ {n b : Nat}, verifyBlocks sb 4096 m n b (b * 4096) = true ↔ ∀ j < n, CsumOk sb m (b + j)
  | 0, _ => by simp [verifyBlocks]
  | n + 1, b => by
    rw [verifyBlocks, show b * 4096 + 4096 = (b + 1) * 4096 by omega, Nat.forall_lt_succ_left]
    split_ifs with h
    · have h : CsumOk sb m b := h
      simp only [verifyBlocks_eq_true, Nat.add_zero, h, true_and, ← Nat.add_assoc,
        Nat.add_right_comm b _ 1]
    · exact iff_of_false id fun h' => h h'.1


section CowCsum
variable {sb : Sb} {bs : Nat} {mem wrbuf : Nat → UInt8} {blocknr offset bytes : Nat}

/-- The bytes of the blocks once `bytes` bytes of `wrbuf` are written at address `start`: the
buffer inside the written range, `mem` outside it. -/
def cowImage (mem wrbuf : Nat → UInt8) (start bytes : Nat) (x : Nat) : UInt8 :=
  if start ≤ x ∧ x < start + bytes then wrbuf (x - start) else mem x

/-- The checksum store of block `k` of a write of `bytes` bytes at `offset` of block `blocknr`:
crc32c of the whole block as the write leaves it. -/
def blockCsumOp (sb : Sb) (blocksize : Nat) (mem : Nat → UInt8) (blocknr : Nat) (wrbuf : Nat → UInt8)
    (offset bytes k : Nat) : Op :=
  csumStore sb (blocknr + k) (crc32c sb.initCsum
    (bytesOf (cowImage mem wrbuf (blocknr * 4096 + offset) bytes) (blocknr * 4096 + k * blocksize) blocksize))

/-- What nova_update_cow_csum is for, in the words of its comment: one checksum, over the whole
block, for each block that `[offset, offset + bytes)` touches, in block order. -/
def wholeBlockCsums (sb : Sb) (blocksize : Nat) (mem : Nat → UInt8) (blocknr : Nat) (wrbuf : Nat → UInt8)
    (offset bytes : Nat) : List Op :=
  (List.range ((offset + bytes - 1) / blocksize + 1)).map (blockCsumOp sb blocksize mem blocknr wrbuf offset bytes)

/-- The cursor of nova_update_cow_csum once it stands at block `j` of the write, past the head. -/
def cursorAt (blocknr offset blocksize j : Nat) : CsumCursor :=
  ⟨blocknr + j, j * blocksize - offset, blocknr * 4096 + j * blocksize, j * blocksize - offset⟩

theorem bytesOf_cowImage_in {start p n : Nat} (h1 : start ≤ p) (h2 : p + n ≤ start + bytes) :
    bytesOf (cowImage mem wrbuf start bytes) p n = bytesOf wrbuf (p - start) n :=
  bytesOf_congr fun i _ => by
    rw [cowImage, if_pos (by omega)]
    congr 1
    omega

theorem bytesOf_cowImage_out {start p n : Nat} (h : ∀ i < n, p + i < start ∨ start + bytes ≤ p + i) :
    bytesOf (cowImage mem wrbuf start bytes) p n = bytesOf mem p n :=
  bytesOf_congr fun i hi => by rw [cowImage, if_neg (by have := h i hi; omega)]

theorem blockCsumOp_full {j : Nat} (h1 : offset ≤ j * bs) (h2 : j * bs + bs ≤ offset + bytes) :
    blockCsumOp sb bs mem blocknr wrbuf offset bytes j =
      csumStore sb (blocknr + j) (novaCalcDataCsum sb.initCsum (bytesOf wrbuf (j * bs - offset) bs)) := by
  rw [blockCsumOp, bytesOf_cowImage_in (by omega) (by omega), novaCalcDataCsum,
    show blocknr * 4096 + j * bs - (blocknr * 4096 + offset) = j * bs - offset by omega]

theorem blockCsumOp_head (hoff : offset < bs) :
    blockCsumOp sb bs mem blocknr wrbuf offset bytes 0 = csumStore sb blocknr
      (crc32c (crc32c (crc32c sb.initCsum (bytesOf mem (blocknr * 4096) offset))
        (bytesOf wrbuf 0 (min (bs - offset) bytes)))
        (bytesOf mem (blocknr * 4096 + offset + min (bs - offset) bytes) (bs - offset - min (bs - offset) bytes))) := by
  have hsplit : bs = offset + min (bs - offset) bytes + (bs - offset - min (bs - offset) bytes) := by omega
  rw [blockCsumOp, Nat.add_zero, Nat.zero_mul, Nat.add_zero, hsplit, bytesOf_add, bytesOf_add,
    crc32c_append, crc32c_append, ← hsplit, bytesOf_cowImage_out (fun i hi => by omega),
    bytesOf_cowImage_in (by omega) (by omega), bytesOf_cowImage_out (fun i hi => by omega), Nat.sub_self,
    Nat.add_assoc]

theorem blockCsumOp_tail {q : Nat} (h1 : offset ≤ q * bs) (h2 : q * bs < offset + bytes)
    (h3 : offset + bytes ≤ q * bs + bs) :
    blockCsumOp sb bs mem blocknr wrbuf offset bytes q = csumStore sb (blocknr + q)
      (crc32c (crc32c sb.initCsum (bytesOf wrbuf (q * bs - offset) (bytes - (q * bs - offset))))
        (bytesOf mem (blocknr * 4096 + q * bs + bytes - (q * bs - offset)) (bs - (bytes - (q * bs - offset))))) := by
  have hsplit : bs = (bytes - (q * bs - offset)) + (bs - (bytes - (q * bs - offset))) := by omega
  rw [blockCsumOp]
  conv_lhs => rw [hsplit, bytesOf_add, crc32c_append]
  rw [← hsplit, bytesOf_cowImage_in (by omega) (by omega), bytesOf_cowImage_out (fun i hi => by omega),
    show blocknr * 4096 + q * bs - (blocknr * 4096 + offset) = q * bs - offset by omega,
    show blocknr * 4096 + q * bs + bytes - (q * bs - offset) =
      blocknr * 4096 + q * bs + (bytes - (q * bs - offset)) by omega]

theorem cowCsumHead_eq (hoff : offset < bs) (h0 : offset ≠ 0) (w : World) :
    cowCsumHead sb bs w blocknr wrbuf offset bytes =
      (w.emit [blockCsumOp sb bs w.mem.bytes blocknr wrbuf offset bytes 0],
        ⟨blocknr + 1, min (bs - offset) bytes, blocknr * 4096 + bs, min (bs - offset) bytes⟩) := by
  have hmin : (if bs - offset < bytes then bs - offset else bytes) = min (bs - offset) bytes := by
    split <;> omega
  rw [cowCsumHead, if_pos h0, blockCsumOp_head hoff]
  dsimp only
  simp only [hmin, novaCalcDataCsum]
  split
  · rfl
  · rw [show bs - offset - min (bs - offset) bytes = 0 by omega, bytesOf_zero, crc32c_nil]

theorem cowCsumLoop_eq (mem : Nat → UInt8) {q : Nat} (hq1 : q * bs < offset + bytes)
    (hq2 : offset + bytes ≤ q * bs + bs) : ∀ fuel j (w : World), offset ≤ j * bs → j ≤ q → q - j ≤ fuel →
      cowCsumLoop sb bs bytes wrbuf fuel (w, cursorAt blocknr offset bs j) =
        (w.emit ((List.range' j (q - j)).map (blockCsumOp sb bs mem blocknr wrbuf offset bytes)),
          cursorAt blocknr offset bs q)
  | 0, j, w, _, hj, hf => by
    obtain rfl : j = q := by omega
    simp [cowCsumLoop]
  | fuel + 1, j, w, h1, hj, hf => by
    rw [cowCsumLoop]
    by_cases hjq : j < q
    · have hmul : j * bs + bs ≤ q * bs := by rw [← Nat.succ_mul]; exact Nat.mul_le_mul_right _ hjq
      have hnext : (⟨(cursorAt blocknr offset bs j).blocknr + 1, (cursorAt blocknr offset bs j).bufptr + bs,
          (cursorAt blocknr offset bs j).blockptr + bs, (cursorAt blocknr offset bs j).csummed + bs⟩ :
            CsumCursor) = cursorAt blocknr offset bs (j + 1) := by
        simp only [cursorAt, CsumCursor.mk.injEq, Nat.succ_mul]
        omega
      rw [if_pos (by simp only [cursorAt]; omega), hnext,
        cowCsumLoop_eq mem hq1 hq2 fuel (j + 1) _ (by rw [Nat.succ_mul]; omega) hjq (by omega), World.emit_emit,
        show q - j = q - (j + 1) + 1 by omega, List.range'_succ, List.map_cons, List.singleton_append,
        blockCsumOp_full h1 (by omega)]
      rfl
    · obtain rfl : j = q := by omega
      rw [if_neg (by simp only [cursorAt]; omega)]
      simp

theorem run_blockCsumOps_bytes (m : Pmem) {K : Nat}
    (hapart : ∀ k < K, blocknr * 4096 + K * bs ≤ sb.blockCsumAddr (blocknr + k) ∨
      sb.blockCsumAddr (blocknr + k) + 4 ≤ blocknr * 4096)
    {ks : List Nat} (hks : ∀ k ∈ ks, k < K) {x : Nat} (hx1 : blocknr * 4096 ≤ x) (hx2 : x < blocknr * 4096 + K * bs) :
    (m.run (ks.map (blockCsumOp sb bs mem blocknr wrbuf offset bytes))).bytes x = m.bytes x := by
  refine Pmem.run_bytes_of_not_writes fun o ho => ?_
  obtain ⟨k, hk, rfl⟩ := List.mem_map.mp ho
  have := hapart k (hks k hk)
  simp only [blockCsumOp, csumStore, Op.Writes]
  omega

theorem tailStore_eq (w : World) (ops : List Op) {q : Nat} (h1 : offset ≤ q * bs) (h2 : q * bs < offset + bytes)
    (h3 : offset + bytes ≤ q * bs + bs)
    (hframe : ∀ x, blocknr * 4096 + q * bs ≤ x → x < blocknr * 4096 + q * bs + bs →
      (w.emit ops).mem.bytes x = w.mem.bytes x) :
    csumStore sb (cursorAt blocknr offset bs q).blocknr (novaCalcDataCsum
        (novaCalcDataCsum sb.initCsum (bytesOf wrbuf (cursorAt blocknr offset bs q).bufptr
          (bytes - (cursorAt blocknr offset bs q).csummed)))
        (bytesOf (w.emit ops).mem.bytes ((cursorAt blocknr offset bs q).blockptr + bytes -
          (cursorAt blocknr offset bs q).csummed) (bs - (bytes - (cursorAt blocknr offset bs q).csummed)))) =
      blockCsumOp sb bs w.mem.bytes blocknr wrbuf offset bytes q := by
  rw [blockCsumOp_tail h1 h2 h3, cursorAt, novaCalcDataCsum, novaCalcDataCsum]
  dsimp only
  rw [bytesOf_congr fun i hi => hframe _ (by omega) (by omega)]

theorem lt_blocks_iff_touched (hoff : offset < bs) (hbytes : 0 < bytes) (k : Nat) :
    k < (offset + bytes - 1) / bs + 1 ↔ ∃ x, offset ≤ x ∧ x < offset + bytes ∧ x / bs = k := by
  have hbs : 0 < bs := by omega
  constructor
  · intro hk
    have hkq : k * bs ≤ offset + bytes - 1 := (Nat.le_div_iff_mul_le hbs).mp (Nat.lt_succ_iff.mp hk)
    rcases Nat.eq_zero_or_pos k with rfl | hk0
    · exact ⟨offset, Nat.le_refl _, by omega, Nat.div_eq_of_lt hoff⟩
    · have hbk : bs ≤ k * bs := Nat.le_mul_of_pos_left bs hk0
      exact ⟨k * bs, by omega, by omega, Nat.mul_div_cancel k hbs⟩
  · rintro ⟨x, h1, h2, rfl⟩
    exact Nat.lt_succ_of_le (Nat.div_le_div_right (by omega))

/-- nova_update_cow_csum stores the whole-block checksums of the blocks the write touches, when
their checksum slots lie outside them. -/
theorem novaUpdateCowCsum_eq (w : World) (hoff : offset < bs) (hbytes : 0 < bytes)
    (hapart : ∀ k < (offset + bytes - 1) / bs + 1,
      blocknr * 4096 + ((offset + bytes - 1) / bs + 1) * bs ≤ sb.blockCsumAddr (blocknr + k) ∨
        sb.blockCsumAddr (blocknr + k) + 4 ≤ blocknr * 4096) :
    novaUpdateCowCsum sb bs w blocknr wrbuf offset bytes =
      (0, w.emit (wholeBlockCsums sb bs w.mem.bytes blocknr wrbuf offset bytes)) := by
  have hbs : 0 < bs := by omega
  have hdm := Nat.div_add_mod (offset + bytes - 1) bs
  have hml := Nat.mod_lt (offset + bytes - 1) hbs
  unfold novaUpdateCowCsum wholeBlockCsums
  generalize (offset + bytes - 1) / bs = q at hdm hapart ⊢
  generalize (offset + bytes - 1) % bs = r at hdm hml
  rw [Nat.mul_comm] at hdm
  have hq1 : q * bs < offset + bytes := by omega
  have hq2 : offset + bytes ≤ q * bs + bs := by omega
  have hframe : ∀ ks : List Nat, (∀ k ∈ ks, k < q + 1) → ∀ x, blocknr * 4096 + q * bs ≤ x →
      x < blocknr * 4096 + q * bs + bs →
      (w.emit (ks.map (blockCsumOp sb bs w.mem.bytes blocknr wrbuf offset bytes))).mem.bytes x = w.mem.bytes x :=
    fun ks hks x h1 h2 => run_blockCsumOps_bytes w.mem hapart hks (by omega) (by rw [Nat.succ_mul]; omega)
  have hrange : ∀ k ∈ List.range' 0 q, k < q + 1 := fun k hk => by
    have := List.mem_range'_1.mp hk; omega
  rw [List.range_succ, List.map_append, List.range_eq_range', List.map_singleton]
  rcases Nat.eq_zero_or_pos offset with h0 | h0
  · subst h0
    have hhead : cowCsumHead sb bs w blocknr wrbuf 0 bytes = (w, cursorAt blocknr 0 bs 0) := by
      simp [cowCsumHead, cursorAt]
    rw [hhead]
    dsimp only
    rw [if_pos (by simp only [cursorAt]; omega), cowCsumLoop_eq w.mem.bytes hq1 hq2 bytes 0 w (by simp)
      (Nat.zero_le _) (by have := Nat.le_mul_of_pos_right q hbs; omega)]
    dsimp only
    rw [if_pos (by simp only [cursorAt]; omega), World.emit_emit, Nat.sub_zero,
      tailStore_eq w _ (Nat.zero_le _) hq1 hq2 (hframe _ hrange)]
  · rw [cowCsumHead_eq hoff (by omega) w]
    dsimp only
    rcases Nat.eq_zero_or_pos q with hq0 | hq0
    · subst hq0
      rw [if_neg (by omega)]
      simp only [Nat.zero_mul, Nat.zero_add] at hq2
      simp [show bytes - min (bs - offset) bytes = 0 by omega]
    · have hbq : bs ≤ q * bs := Nat.le_mul_of_pos_left bs hq0
      have h1 : offset ≤ 1 * bs := by omega
      have hf : q - 1 ≤ bytes := by
        have := Nat.le_mul_of_pos_right (q - 1) hbs; rw [Nat.sub_one_mul] at this; omega
      rw [if_pos (by omega), show (⟨blocknr + 1, min (bs - offset) bytes, blocknr * 4096 + bs,
          min (bs - offset) bytes⟩ : CsumCursor) = cursorAt blocknr offset bs 1 by
            simp only [cursorAt, CsumCursor.mk.injEq, Nat.one_mul, true_and, and_self]; omega,
        cowCsumLoop_eq w.mem.bytes hq1 hq2 bytes 1 _ h1 hq0 hf]
      dsimp only
      obtain ⟨p, rfl⟩ : ∃ p, q = p + 1 := ⟨q - 1, by omega⟩
      rw [if_pos (by simp only [cursorAt]; omega), World.emit_emit w, Nat.add_sub_cancel, List.singleton_append,
        ← List.map_cons (blockCsumOp sb bs w.mem.bytes blocknr wrbuf offset bytes) 0,
        show 0 :: List.range' 1 p = List.range' 0 (p + 1) from (List.range'_succ 0 p 1).symm,
        tailStore_eq w _ (by omega) hq1 hq2 (hframe _ hrange), World.emit_emit]

theorem update_cow_csum_whole_blocks (w : World) (hoff : offset < bs) (hbytes : 0 < bytes)
    (hapart : ∀ k < (offset + bytes - 1) / bs + 1,
      blocknr * 4096 + ((offset + bytes - 1) / bs + 1) * bs ≤ sb.blockCsumAddr (blocknr + k) ∨
        sb.blockCsumAddr (blocknr + k) + 4 ≤ blocknr * 4096) :
    (∀ k, k < (offset + bytes - 1) / bs + 1 ↔ ∃ x, offset ≤ x ∧ x < offset + bytes ∧ x / bs = k) ∧
    novaUpdateCowCsum sb bs w blocknr wrbuf offset bytes =
      (0, w.emit (wholeBlockCsums sb bs w.mem.bytes blocknr wrbuf offset bytes)) :=
  ⟨lt_blocks_iff_touched hoff hbytes, novaUpdateCowCsum_eq w hoff hbytes hapart⟩

end CowCsum

/-- Block checksums on, seed 1, the checksum of block `n` kept at 65536 + 4n. -/
def csumOn : Sb := ⟨1, fun n => 65536 + 4 * n, 1⟩

/-- An empty file (inode 1) on a zeroed device. -/
def freshWorld : World :=
  ⟨⟨1, fun _ => none, 0, 0, false⟩, ⟨fun _ => 0, fun _ => default, fun _ => 0⟩, [], [], []⟩

/-- 5000 bytes at offset 100 of block 1000 touch blocks 1000 and 1001, whose checksum slots lie
below the data. -/
theorem update_cow_csum_two_blocks :
    100 < 4096 ∧ 0 < 5000 ∧
    (∀ k < (100 + 5000 - 1) / 4096 + 1,
      1000 * 4096 + ((100 + 5000 - 1) / 4096 + 1) * 4096 ≤ csumOn.blockCsumAddr (1000 + k) ∨
        csumOn.blockCsumAddr (1000 + k) + 4 ≤ 1000 * 4096) ∧
    ((∀ k, k < (100 + 5000 - 1) / 4096 + 1 ↔ ∃ x, 100 ≤ x ∧ x < 100 + 5000 ∧ x / 4096 = k) ∧
      novaUpdateCowCsum csumOn 4096 freshWorld 1000 (fun _ => 7) 100 5000 =
        (0, freshWorld.emit (wholeBlockCsums csumOn 4096 freshWorld.mem.bytes 1000 (fun _ => 7) 100 5000))) :=
  have hapart : ∀ k < (100 + 5000 - 1) / 4096 + 1,
      1000 * 4096 + ((100 + 5000 - 1) / 4096 + 1) * 4096 ≤ csumOn.blockCsumAddr (1000 + k) ∨
        csumOn.blockCsumAddr (1000 + k) + 4 ≤ 1000 * 4096 := by decide
  ⟨by decide, by decide, hapart, update_cow_csum_whole_blocks freshWorld (by decide) (by decide) hapart⟩

end Nova
