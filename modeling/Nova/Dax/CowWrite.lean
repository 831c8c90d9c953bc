import Mathlib.Algebra.Group.Int
import Nova.Dax.HeadTail
import Nova.Dax.Csum
import Nova.Dax.Log

/-! nova_cow_file_write: the copy-on-write write path. The allocator, the user copy and the log
append are answered by the environment at each step of the loop. -/
namespace Nova

/-- How the environment answers one call of the write path. -/
structure WriteEnv where
  /-- access_ok(VERIFY_READ, buf, len). -/
  accessOk : Bool
  /-- file_remove_privs(filp). -/
  removePrivs : Int
  /-- nova_get_trans_id(sb). -/
  transId : Nat
  /-- CURRENT_TIME_SEC. -/
  time : Nat
  /-- nova_new_data_blocks at loop step `k` asked for `n` blocks: (allocated, blocknr). -/
  alloc : Nat → Nat → Int × Nat
  /-- memcpy_to_pmem_nocache at loop step `k` asked for `n` bytes: the bytes it leaves uncopied. -/
  left : Nat → Nat → Nat
  /-- Whether nova_append_file_write_entry finds room at loop step `k`. -/
  room : Nat → Bool
  /-- Where the first entry of a still empty log goes. -/
  firstSlot : Nat
  /-- The user buffer as nova_update_cow_csum reads it, after the copy. -/
  csumSrc : Nat → UInt8

/-- The value a `size_t` variable holds after `r` is assigned to it. -/
def sizeT (r : Int) : Int := r % 2 ^ 64

theorem sizeT_nonneg (r : Int) : 0 ≤ sizeT r := Int.emod_nonneg _ (by decide)

/-- The locals of nova_cow_file_write's loop; `written` is also how far `buf` has advanced. -/
structure CowLoop where
  w : World
  pos : Nat
  count : Nat
  numBlocks : Nat
  written : Nat
  status : Int
  step : Nat
  blocknr : Nat
  allocated : Int
  beginTail : Nat
  tempTail : Nat

/-- How the loop is left. -/
inductive LoopEnd where
  /-- The loop condition failed, or `break`. -/
  | done (s : CowLoop)
  /-- `goto out` with the value of `ret`. -/
  | out (s : CowLoop) (ret : Int)

/-- The write entry of one loop step. -/
def cowEntry (env : WriteEnv) (isize pos copied allocated blocknr : Nat) : WriteEntry :=
  { entryType := fileWrite, reassigned := 0, transId := env.transId, pgoff := pos / 4096
    numPages := allocated, invalidPages := 0, block := blocknr * 4096, mtime := env.time
    size := if pos + copied > isize then pos + copied else isize }

namespace CowLoop
variable (env : WriteEnv) (s : CowLoop)

/-- allocated: what nova_new_data_blocks returns at this step. It never hands out more than it
was asked for, so its answer is read that way. -/
def alloc : Int := min (env.alloc s.step s.numBlocks).1 s.numBlocks

/-- blocknr: the first block it hands out. -/
def block : Nat := (env.alloc s.step s.numBlocks).2

/-- bytes: what the step covers, up to the end of the blocks it got. -/
def bytes : Nat := min (4096 * (s.alloc env).toNat - s.pos % 4096) s.count

/-- copied: memcpy_to_pmem_nocache never leaves more than it was given. -/
def copied : Nat := s.bytes env - min (env.left s.step (s.bytes env)) (s.bytes env)

/-- The data stores of a step: the blocks are taken, their partial head and tail filled, and the
user bytes copied around the cache. -/
def fill (buf : Nat → UInt8) : World :=
  let offset := s.pos % 4096
  let kmem := s.block env * 4096
  let w := s.w.obtain (s.block env) (s.alloc env).toNat
  let w := if offset ≠ 0 ∨ (offset + s.bytes env) % 4096 ≠ 0 then
      novaHandleHeadTailBlocks w s.pos (s.bytes env) kmem else w
  w.emit [.storeNt (kmem + offset) (s.copied env) fun i => buf (s.written + i)]

/-- `if (copied > 0)`: advance over the copied bytes, and num_blocks over the blocks. -/
def advance (copied : Nat) (allocated : Int) : CowLoop :=
  if copied > 0 then
    { s with
      status := copied, written := s.written + copied, pos := s.pos + copied
      count := s.count - copied, numBlocks := s.numBlocks - allocated.toNat }
  else s

/-- `if (unlikely(copied != bytes))`: a short copy turns a status that is not yet an error into
-EFAULT. -/
def shortCopy (copied bytes : Nat) : CowLoop :=
  if copied ≠ bytes ∧ 0 ≤ s.status then { s with status := -Errno.fault } else s

theorem advance_of_pos {copied : Nat} (allocated : Int) (h : 0 < copied) :
    s.advance copied allocated =
      { s with
        status := copied, written := s.written + copied, pos := s.pos + copied
        count := s.count - copied, numBlocks := s.numBlocks - allocated.toNat } := if_pos h

theorem advance_count (copied : Nat) (allocated : Int) : (s.advance copied allocated).count = s.count - copied := by
  unfold advance; split
  · rfl
  · omega

theorem advance_written (copied : Nat) (allocated : Int) :
    (s.advance copied allocated).written = s.written + copied := by
  unfold advance; split
  · rfl
  · omega

theorem shortCopy_of_eq (copied : Nat) : s.shortCopy copied copied = s := if_neg fun h => h.1 rfl

theorem shortCopy_status_neg {copied bytes : Nat} (h : copied ≠ bytes) : (s.shortCopy copied bytes).status < 0 := by
  unfold shortCopy; split
  · exact (by decide : -Errno.fault < 0)
  · omega

theorem shortCopy_count (copied bytes : Nat) : (s.shortCopy copied bytes).count = s.count := by
  unfold shortCopy; split <;> rfl

theorem shortCopy_written (copied bytes : Nat) : (s.shortCopy copied bytes).written = s.written := by
  unfold shortCopy; split <;> rfl

end CowLoop

/-- `if ((copied > 0) && block_csum_base)`: checksum the blocks of the step, reading the user
buffer from where this step's copy began. -/
def cowCsum (sb : Sb) (env : WriteEnv) (w : World) (blocknr written offset copied : Nat) : World :=
  if copied > 0 ∧ sb.blockCsumBase ≠ 0 then
    (novaUpdateCowCsum sb 4096 w blocknr (fun i => env.csumSrc (written + i)) offset copied).2
  else w

/-- One iteration of the loop: allocate, fill head and tail, copy from the user, append the
entry, checksum, advance. -/
def cowStep (sb : Sb) (env : WriteEnv) (buf : Nat → UInt8) (isize : Nat) (s : CowLoop) :
    LoopEnd ⊕ CowLoop :=
  let offset := s.pos % 4096
  let allocated := s.alloc env
  let blocknr := s.block env
  if allocated ≤ 0 then .inl (.out { s with blocknr, allocated } allocated) else
  let bytes := s.bytes env
  let copied := s.copied env
  let entry := cowEntry env isize s.pos copied allocated.toNat blocknr
  let (currEntry, w) := novaAppendFileWriteEntry (s.fill env buf) env.firstSlot (env.room s.step)
    entry s.tempTail
  let s := { s with w, step := s.step + 1, blocknr, allocated }
  if currEntry = 0 then .inl (.out s (-Errno.nospc)) else
  let w := cowCsum sb env w blocknr s.written offset copied
  let s := ({ s with w }.advance copied allocated).shortCopy copied bytes
  if s.status < 0 then .inl (.done s) else
  .inr { s with
    beginTail := if s.beginTail = 0 then currEntry else s.beginTail
    tempTail := currEntry + 1 }

/-- `while (num_blocks > 0)`, for at most `fuel` iterations. -/
def cowLoop (sb : Sb) (env : WriteEnv) (buf : Nat → UInt8) (isize : Nat) : Nat → CowLoop → LoopEnd
  | 0, s => .done s
  | fuel + 1, s =>
    if 0 < s.numBlocks then
      match cowStep sb env buf isize s with
      | .inl e => e
      | .inr s => cowLoop sb env buf isize fuel s
    else .done s

/-- What one write returns to its caller, the world it leaves, and `*ppos`. -/
structure WriteOutcome where
  ret : Int
  w : World
  ppos : Nat

/-- The `out:` label: `if (ret < 0)` on the `size_t` ret, then the cleanup. -/
def cowOut (s : CowLoop) (ret : Int) (ppos : Nat) : WriteOutcome :=
  let w := if sizeT ret < 0 then
      (novaCleanupIncompleteWrite s.w s.blocknr s.allocated s.beginTail s.tempTail).2 else s.w
  ⟨ret, w, ppos⟩

/-- After the loop: account the blocks, publish the tail, reassign, update size and position. -/
def cowPublish (s : CowLoop) (totalBlocks ppos : Nat) : WriteOutcome :=
  let i := s.w.inode
  let w := (s.w.setInode { i with iBlocks := i.iBlocks + totalBlocks }).emit
    (novaUpdateTail i.ino s.tempTail)
  let (r, w) := novaReassignFileTree w s.beginTail
  if r ≠ 0 then cowOut { s with w } r ppos else
  let i := w.inode
  let w := if s.pos > i.iSize then w.setInode { i with iSize := s.pos } else w
  cowOut { s with w } s.written s.pos

/-- nova_cow_file_write(filp, buf, len, ppos, need_mutex) on a file whose state is `w`;
`oAppend` is O_APPEND in f_flags. -/
def novaCowFileWrite (sb : Sb) (env : WriteEnv) (w : World) (buf : Nat → UInt8)
    (len ppos : Nat) (oAppend : Bool) : WriteOutcome :=
  if len = 0 then ⟨0, w, ppos⟩ else
  if w.inode.mapped then ⟨-Errno.acces, w, ppos⟩ else
  let pos := if oAppend then w.inode.iSize else ppos
  let totalBlocks := (len + pos % 4096 - 1) / 4096 + 1
  let s : CowLoop :=
    { w, pos, count := len, numBlocks := totalBlocks, written := 0, status := 0, step := 0
      blocknr := 0, allocated := 0, beginTail := 0, tempTail := w.mem.tails w.inode.ino }
  if ¬ env.accessOk then cowOut s (-Errno.fault) ppos else
  if env.removePrivs ≠ 0 then cowOut s env.removePrivs ppos else
  match cowLoop sb env buf w.inode.iSize totalBlocks s with
  | .out s ret => cowOut s ret ppos
  | .done s => cowPublish s totalBlocks ppos

/-- A file of inode 1 that maps no page yet, with its log ending at slot 100. -/
def freshFile : World :=
  ⟨⟨1, fun _ => none, 0, 0, false⟩, ⟨fun _ => 0, fun _ => default, fun _ => 100⟩, [], [], []⟩

/-- An allocator handing out one block per call (1000, then 1001) and a user copy that
faults after 100 bytes at the second step. -/
def secondCopyFaults : WriteEnv :=
  ⟨true, 0, 5, 9, fun k _ => (1, 1000 + k), fun k n => if k = 0 then 0 else n - 100,
    fun _ => true, 1, fun _ => 7⟩

/-- The two-block write of 8192 bytes at 0 under `secondCopyFaults`, checksums off. -/
def shortCopyWrite : WriteOutcome :=
  novaCowFileWrite ⟨0, id, 1⟩ secondCopyFaults freshFile (fun _ => 7) 8192 0 false

/-- It returns 4196 and moves `*ppos` and i_size to 4196, but the only entry it publishes
(slot 100, tail 100 → 101) maps page 0 and records size 4096: the 100 bytes of the second
block are counted, never published. -/
theorem cow_write_counts_unpublished_bytes :
    shortCopyWrite.ret = 4196 ∧ shortCopyWrite.ppos = 4196 ∧ shortCopyWrite.w.inode.iSize = 4196 ∧
      shortCopyWrite.w.mem.tails 1 = 101 ∧ (shortCopyWrite.w.mem.slots 100).pgoff = 0 ∧
      (shortCopyWrite.w.mem.slots 100).numPages = 1 ∧ (shortCopyWrite.w.mem.slots 100).size = 4096 := by
  decide

/-- An allocator that hands out block 1000 and then fails with -ENOSPC. -/
def secondAllocFails : WriteEnv :=
  ⟨true, 0, 5, 9, fun k _ => if k = 0 then (1, 1000) else (-Errno.nospc, 0), fun _ _ => 0,
    fun _ => true, 1, fun _ => 7⟩

/-- The same write under `secondAllocFails`. -/
def failedAllocWrite : WriteOutcome :=
  novaCowFileWrite ⟨0, id, 1⟩ secondAllocFails freshFile (fun _ => 7) 8192 0 false

/-- It returns -ENOSPC with the log tail still at 100, so no published entry references block
1000, and nothing is freed: `ret` is a `size_t`, so the `ret < 0` that guards
nova_cleanup_incomplete_write never holds. -/
theorem cow_write_leaks_on_failed_alloc :
    failedAllocWrite.ret = -Errno.nospc ∧ failedAllocWrite.w.obtained = [(1000, 1)] ∧
      failedAllocWrite.w.mem.tails 1 = 100 ∧ failedAllocWrite.w.freed = [] := by
  decide

end Nova
