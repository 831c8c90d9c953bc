import Nova.Dax.CowWrite
import Nova.Dax.Read

/-! nova_dax_get_blocks, the page-fault path: it maps a page that has a block, and with `create`
fills a hole. -/
namespace Nova

/-- How the environment answers one call of nova_dax_get_blocks. -/
structure FaultEnv where
  /-- nova_get_trans_id(sb). -/
  transId : Nat
  /-- CURRENT_TIME_SEC. -/
  time : Nat
  /-- nova_find_next_entry(sb, sih, iblock), not among the sources: the entry of the next
  mapped page after `iblock`. -/
  nextEntry : Option WriteEntry
  /-- nova_new_data_blocks asked for `n` blocks, with `zero` set: (allocated, blocknr). -/
  alloc : Nat → Int × Nat
  /-- Whether nova_append_file_write_entry finds room. -/
  room : Bool
  /-- Where the first entry of a still empty log goes. -/
  firstSlot : Nat

/-- The end of a hole fill: the `allocated` new blocks at `blocknr`, zeroed ("Return initialized
blocks to the user"), become one write entry for the pages from `iblock`, which is published and
assigned. Returns the value, the world and the block mapped into `bh`. -/
def publishFill (fe : FaultEnv) (w : World) (iblock allocated blocknr : Nat) : Int × World × Nat :=
  let w := (w.obtain blocknr allocated).emit [.storeNt (blocknr * 4096) (4096 * allocated) fun _ => 0]
  let entry : WriteEntry :=
    { entryType := fileWrite, reassigned := 0, transId := fe.transId, pgoff := iblock
      numPages := allocated, invalidPages := 0, block := blocknr * 4096, mtime := fe.time
      size := w.inode.iSize }
  let (currEntry, w) := novaAppendFileWriteEntry w fe.firstSlot fe.room entry
    (w.mem.tails w.inode.ino)
  if currEntry = 0 then
    (-Errno.nospc, (novaCleanupIncompleteWrite w blocknr allocated 0 0).2, 0) else
  let i := w.inode
  let w := (w.setInode { i with iBlocks := i.iBlocks + allocated }).emit
    (novaUpdateTail i.ino (currEntry + 1))
  let (r, w) := novaReassignFileTree w currEntry
  if r ≠ 0 then (r, (novaCleanupIncompleteWrite w blocknr allocated 0 (currEntry + 1)).2, 0)
  else (allocated, w, blocknr)

theorem publishFill_bytes (fe : FaultEnv) (w : World) (iblock allocated blocknr x : Nat) :
    (publishFill fe w iblock allocated blocknr).2.1.mem.bytes x =
      if blocknr * 4096 ≤ x ∧ x < blocknr * 4096 + 4096 * allocated then 0 else w.mem.bytes x := by
  unfold publishFill
  dsimp only
  generalize hz : (w.obtain blocknr allocated).emit _ = wz
  have zeroed : wz.mem.bytes x = if blocknr * 4096 ≤ x ∧ x < blocknr * 4096 + 4096 * allocated
      then 0 else w.mem.bytes x := by
    rw [← hz]; rfl
  rw [← zeroed]
  generalize ha : novaAppendFileWriteEntry wz fe.firstSlot fe.room _ _ = a
  obtain ⟨c, wa⟩ := a
  have hwa : wa.mem.bytes = wz.mem.bytes := by
    rw [← novaAppendFileWriteEntry_bytes wz fe.firstSlot fe.room, ha]
  generalize hr : novaReassignFileTree _ c = rr
  obtain ⟨r, wr⟩ := rr
  have hwr : wr.mem.bytes = wa.mem.bytes := by
    rw [show wr = (novaReassignFileTree _ c).2 by rw [hr], novaReassignFileTree_bytes]; rfl
  split
  · rw [novaCleanupIncompleteWrite_bytes, hwa]
  · split
    · rw [novaCleanupIncompleteWrite_bytes, hwr, hwa]
    · rw [hwr, hwa]

theorem publishFill_mapped {fe : FaultEnv} {w : World} {iblock allocated blocknr : Nat}
    (h : (publishFill fe w iblock allocated blocknr).2.2 ≠ 0) :
    (publishFill fe w iblock allocated blocknr).1 = allocated ∧
      (publishFill fe w iblock allocated blocknr).2.2 = blocknr := by
  unfold publishFill at h ⊢
  dsimp only at h ⊢
  generalize novaAppendFileWriteEntry _ fe.firstSlot fe.room _ _ = a at h ⊢
  obtain ⟨c, wa⟩ := a
  dsimp only at h ⊢
  split at h
  · exact absurd rfl h
  · rw [if_neg ‹_›]
    generalize novaReassignFileTree _ c = rr at h ⊢
    obtain ⟨r, wr⟩ := rr
    dsimp only at h ⊢
    split at h
    · exact absurd rfl h
    · rw [if_neg ‹_›]; exact ⟨rfl, rfl⟩

/-- A hole fill from the allocation on, asking for `numBlocks` blocks. -/
def fillHole (fe : FaultEnv) (w : World) (iblock numBlocks : Nat) : Int × World × Nat :=
  let allocated := min (fe.alloc numBlocks).1 numBlocks
  let blocknr := (fe.alloc numBlocks).2
  if allocated < 0 then (allocated, (novaCleanupIncompleteWrite w blocknr allocated 0 0).2, 0) else
  if allocated = 0 then (numBlocks, w, 0) else
  publishFill fe w iblock allocated.toNat blocknr

/-- nova_dax_get_blocks(inode, iblock, max_blocks, bh, create): what it returns, the world it
leaves, and the block it maps into `bh`. The BUG() on a next entry at or before `iblock` is
followed in the code by `-EINVAL`. -/
def novaDaxGetBlocks (fe : FaultEnv) (w : World) (iblock maxBlocks : Nat) (create : Bool) :
    Int × World × Nat :=
  if maxBlocks = 0 then (0, w, 0) else
  match w.inode.index iblock with
  | some s =>
    let e := w.mem.slots s
    let numBlocks := if e.invalidPages = 0 then e.numPages - (iblock - e.pgoff) else 1
    (min numBlocks maxBlocks, w, getNvmm e iblock)
  | none =>
    if ¬ create then (0, w, 0) else
    match fe.nextEntry with
    | some e =>
      if e.pgoff ≤ iblock then (-Errno.inval, w, 0)
      else fillHole fe w iblock (min (e.pgoff - iblock) maxBlocks)
    | none => fillHole fe w iblock maxBlocks

theorem fillHole_bytes {fe : FaultEnv} {w : World} {iblock numBlocks : Nat}
    (hn : (fillHole fe w iblock numBlocks).2.2 ≠ 0) (x : Nat) :
    (fillHole fe w iblock numBlocks).2.1.mem.bytes x =
      if (fillHole fe w iblock numBlocks).2.2 * 4096 ≤ x ∧
        x < (fillHole fe w iblock numBlocks).2.2 * 4096 + 4096 * (fillHole fe w iblock numBlocks).1.toNat
      then 0 else w.mem.bytes x := by
  unfold fillHole at hn ⊢
  dsimp only at hn ⊢
  split at hn; · exact absurd rfl hn
  split at hn; · exact absurd rfl hn
  rw [if_neg ‹_›, if_neg ‹_›]
  obtain ⟨h1, h2⟩ := publishFill_mapped hn
  rw [publishFill_bytes, h1, h2, Int.toNat_ofNat]

/-- A hole fill that maps a block (a nonzero `nvmm`) zeroes the blocks it maps and stores no
other byte: no checksum of the new blocks is written. -/
theorem novaDaxGetBlocks_fill {fe : FaultEnv} {w : World} {iblock maxBlocks : Nat} {create : Bool}
    (hhole : w.inode.index iblock = none)
    (hn : (novaDaxGetBlocks fe w iblock maxBlocks create).2.2 ≠ 0) (x : Nat) :
    (novaDaxGetBlocks fe w iblock maxBlocks create).2.1.mem.bytes x =
      if (novaDaxGetBlocks fe w iblock maxBlocks create).2.2 * 4096 ≤ x ∧
        x < (novaDaxGetBlocks fe w iblock maxBlocks create).2.2 * 4096 +
          4096 * (novaDaxGetBlocks fe w iblock maxBlocks create).1.toNat
      then 0 else w.mem.bytes x := by
  have hm : maxBlocks ≠ 0 := fun h => hn (by simp [novaDaxGetBlocks, h])
  have hc : create = true := by
    cases create; · exact absurd (by simp [novaDaxGetBlocks, hhole]) hn
    rfl
  subst hc
  simp only [novaDaxGetBlocks, hhole, hm, if_false, not_true_eq_false] at hn ⊢
  cases hne : fe.nextEntry with
  | none => simp only [hne] at hn ⊢; exact fillHole_bytes hn x
  | some e =>
    simp only [hne] at hn ⊢
    by_cases hle : e.pgoff ≤ iblock
    · simp only [if_pos hle] at hn; exact absurd rfl hn
    · simp only [if_neg hle] at hn ⊢; exact fillHole_bytes hn x

/-- A hole fill whose allocation hands out no block returns the count it asked for, at least one
and at most `max_blocks`, with `bh` mapped to block 0 and the world unchanged: `ret` is still 0
at `out:`, so the cleanup is skipped and `num_blocks` is returned. -/
theorem get_blocks_returns_unmapped_count {fe : FaultEnv} {w : World} {iblock maxBlocks : Nat}
    (hhole : w.inode.index iblock = none) (hm : 0 < maxBlocks)
    (hnext : ∀ e, fe.nextEntry = some e → iblock < e.pgoff) (halloc : ∀ n, (fe.alloc n).1 = 0) :
    ∃ n : Nat, 0 < n ∧ n ≤ maxBlocks ∧ novaDaxGetBlocks fe w iblock maxBlocks true = ((n : Int), w, 0) := by
  have hfill : ∀ n : Nat, fillHole fe w iblock n = ((n : Int), w, 0) := fun n => by
    simp only [fillHole, halloc, min_eq_left (Int.natCast_nonneg n), lt_irrefl, if_false, if_true]
  simp only [novaDaxGetBlocks, hhole, Nat.pos_iff_ne_zero.mp hm, if_false, not_true_eq_false]
  cases hne : fe.nextEntry with
  | none => exact ⟨maxBlocks, hm, le_refl _, hfill _⟩
  | some e =>
    have hlt := hnext e hne
    have hpos : 0 < min (e.pgoff - iblock) maxBlocks := Nat.lt_min.mpr ⟨by omega, hm⟩
    simp only [if_neg (Nat.not_le.mpr hlt)]
    exact ⟨_, hpos, Nat.min_le_right _ _, hfill _⟩

/-- A write fault on a file with no mapped page, no entry after the fault, and an allocation that
hands out no block. -/
def noBlockFault : FaultEnv := ⟨6, 10, none, fun _ => (0, 0), true, 100⟩

theorem get_blocks_empty_alloc_on_fresh_file :
    freshFile.inode.index 0 = none ∧ 0 < 1 ∧ (∀ e, noBlockFault.nextEntry = some e → 0 < e.pgoff) ∧
    (∀ n, (noBlockFault.alloc n).1 = 0) ∧
    ∃ n : Nat, 0 < n ∧ n ≤ 1 ∧ novaDaxGetBlocks noBlockFault freshFile 0 1 true = ((n : Int), freshFile, 0) :=
  ⟨rfl, Nat.one_pos, fun _ he => (by cases he), fun _ => rfl,
    get_blocks_returns_unmapped_count rfl Nat.one_pos (fun _ he => (by cases he)) fun _ => rfl⟩

/-- Block checksums on, with seed NOVA_INIT_CSUM = 1 and the checksum of block `nr` at
65536 + 4 * nr. -/
def csumSb : Sb := ⟨1, fun nr => 65536 + 4 * nr, 1⟩

/-- A write that gets block 1000 and copies everything. -/
def oneBlockEnv : WriteEnv :=
  ⟨true, 0, 5, 9, fun _ _ => (1, 1000), fun _ _ => 0, fun _ => true, 1, fun _ => 7⟩

/-- Inode 1 after one byte written at 4096: i_size 4097, page 1 in block 1000, page 0 a hole. -/
def sparseFile : World :=
  (novaCowFileWrite csumSb oneBlockEnv freshFile (fun _ => 7) 1 4096 false).w

/-- A write fault on page 0, filled with block 2000. -/
def holeFault : FaultEnv := ⟨6, 10, some (sparseFile.mem.slots 100), fun _ => (1, 2000), true, 1⟩

/-- The file once the fault has filled page 0. -/
def filledFile : World := (novaDaxGetBlocks holeFault sparseFile 0 1 true).2.1

/-- The fill maps block 2000 under page 0, below i_size, and leaves its checksum slot as the
fresh device had it; the next read of page 0 fails its checksum with -EIO. -/
theorem hole_fill_leaves_stale_checksum :
    (novaDaxGetBlocks holeFault sparseFile 0 1 true).1 = 1 ∧
    (novaDaxGetBlocks holeFault sparseFile 0 1 true).2.2 = 2000 ∧
    filledFile.inode.iSize = 4097 ∧ filledFile.inode.index 0 = some 101 ∧
    readLe filledFile.mem.bytes (csumSb.blockCsumAddr 2000) 4 = 0 ∧
    (doDaxMappingRead csumSb ⟨true, fun _ _ => 0⟩ filledFile.inode filledFile.mem 4096 0).1 =
      -Errno.io := by
  have hn : (novaDaxGetBlocks holeFault sparseFile 0 1 true).2.2 = 2000 := by decide
  have hr : (novaDaxGetBlocks holeFault sparseFile 0 1 true).1 = 1 := by decide
  have zeroed : bytesOf filledFile.mem.bytes 8192000 4096 = List.replicate 4096 0 := by
    refine List.eq_replicate_iff.mpr ⟨bytesOf_length .., fun b hb => ?_⟩
    obtain ⟨i, hi, rfl⟩ := List.mem_map.mp hb
    have := @novaDaxGetBlocks_fill holeFault sparseFile 0 1 true (by decide) (by rw [hn]; decide)
      (8192000 + i)
    rwa [hn, hr, if_pos (by simp at hi; omega)] at this
  have slot : readLe filledFile.mem.bytes (65536 + 4 * 2000) 4 = 0 := by decide
  have he : filledFile.mem.slots 101 = ⟨1, 0, 6, 0, 1, 0, 8192000, 10, 4097⟩ := by decide
  -- the checksum of 4096 zero bytes is not the zero left in the slot
  have hv : novaVerifyDataCsum csumSb 4096 filledFile.mem ⟨1, 0, 6, 0, 1, 0, 8192000, 10, 4097⟩ 0 1
      = false := by
    have hcrc := @crc32c_replicate_zero_ne 1 (by decide) 4096
    show (if (crc32c 1 (bytesOf filledFile.mem.bytes 8192000 4096)).toNat =
        readLe filledFile.mem.bytes (65536 + 4 * 2000) 4
      then verifyBlocks csumSb 4096 filledFile.mem 0 2001 8196096 else false) = false
    rw [zeroed, slot, if_neg fun h => hcrc (UInt32.toNat.inj (h.trans rfl : _ = (0 : UInt32).toNat))]
  have hidx : filledFile.inode.index 0 = some 101 := by decide
  have hstart : readStart ⟨true, fun _ _ => 0⟩ filledFile.inode 4096 0 =
      ⟨0, 4097, 4096, 0, 0, 0, [], 0, none, none⟩ := by decide
  have hlook : readLookup csumSb filledFile.inode filledFile.mem
      ⟨0, 4097, 4096, 0, 0, 0, [], 0, none, none⟩ =
        readOut ⟨0, 4097, 4096, 0, 0, 0, [], 0, none, none⟩ (-Errno.io) := by
    simp only [readLookup, hidx, he, Nat.reduceSub, Nat.reduceDiv, Nat.reduceMod, Nat.reduceAdd,
      Nat.reduceMul, Nat.not_lt_zero, if_false, Nat.zero_ne_one, false_and, Nat.le_zero, or_self,
      Nat.zero_sub, Nat.sub_zero, Nat.min_def, Nat.le_refl, if_true]
    rw [if_neg (by decide), if_pos ⟨by decide, hv⟩]
  refine ⟨hr, hn, by decide, hidx, slot, ?_⟩
  exact doDaxMappingRead_of_lookup (by rw [hstart]) (by rw [hstart, hlook]; rfl)
    (by rw [hstart, hlook]; rfl)

end Nova
