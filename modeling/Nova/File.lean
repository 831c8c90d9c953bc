import Nova.Persist

/-! A file as the DAX path sees it: the DRAM page index over its write log, and 4 KiB data
blocks (PAGE_SHIFT = 12). -/
namespace Nova

-- Linux error numbers the DAX path returns, negated, as the code does.
namespace Errno
def io : Int := 5
def nomem : Int := 12
def acces : Int := 13
def fault : Int := 14
def inval : Int := 22
def nospc : Int := 28
end Errno

/-- Modelled from the spec: the entry kind tag of a write-log entry (FILE_WRITE). -/
def fileWrite : Nat := 1

/-- The VFS and NOVA inode fields the DAX path reads and writes. -/
structure Inode where
  ino : Nat
  /-- sih->tree: the log slot of the write entry that maps each page. -/
  index : Nat → Option Nat
  iSize : Nat
  /-- sih->i_blocks. -/
  iBlocks : Nat
  /-- mapping_mapped(filp->f_mapping). -/
  mapped : Bool

/-- get_nvmm: the block that holds page `pgoff` of the extent written by `e`. -/
def getNvmm (e : WriteEntry) (pgoff : Nat) : Nat := e.block / 4096 + pgoff - e.pgoff

/-- Modelled from the spec: nova_get_block, the direct-map address of a PM offset, which is
NULL for offset 0 (the case nova_copy_partial_block checks for). -/
def novaGetBlock (off : Nat) : Option Nat := if off = 0 then none else some off

theorem novaGetBlock_eq_some {off a : Nat} (h : novaGetBlock off = some a) : a = off := by
  unfold novaGetBlock at h
  split at h
  · cases h
  · exact (Option.some.inj h).symm

/-- The byte at file position `x`: read through its page's current mapping, zero in a hole. -/
def fileByte (i : Inode) (m : Pmem) (x : Nat) : UInt8 :=
  match i.index (x / 4096) with
  | none => 0
  | some s => m.bytes (getNvmm (m.slots s) (x / 4096) * 4096 + x % 4096)

theorem fileByte_hole {i : Inode} (m : Pmem) {p : Nat} (h : i.index p = none) {o : Nat}
    (ho : o < 4096) : fileByte i m (p * 4096 + o) = 0 := by
  have h1 : (p * 4096 + o) / 4096 = p := by omega
  simp only [fileByte, h1, h]

theorem fileByte_mapped {i : Inode} (m : Pmem) {p s : Nat} (h : i.index p = some s) {o : Nat}
    (ho : o < 4096) : fileByte i m (p * 4096 + o) = m.bytes (getNvmm (m.slots s) p * 4096 + o) := by
  have h1 : (p * 4096 + o) / 4096 = p := by omega
  have h2 : (p * 4096 + o) % 4096 = o := by omega
  simp only [fileByte, h1, h2, h]

theorem fileByte_some {i : Inode} (m : Pmem) {x q : Nat} (h : i.index (x / 4096) = some q) :
    fileByte i m x = m.bytes (getNvmm (m.slots q) (x / 4096) * 4096 + x % 4096) := by
  simp only [fileByte, h]

theorem fileByte_congr {i : Inode} {m m' : Pmem} {x : Nat}
    (h : ∀ q, i.index (x / 4096) = some q → m'.slots q = m.slots q ∧
      m'.bytes (getNvmm (m.slots q) (x / 4096) * 4096 + x % 4096) =
        m.bytes (getNvmm (m.slots q) (x / 4096) * 4096 + x % 4096)) :
    fileByte i m' x = fileByte i m x := by
  unfold fileByte
  split
  · rfl
  · rename_i q hq; rw [(h q hq).1]; exact (h q hq).2

/-- What one call sees and leaves: the inode, persistent memory as loads see it, every
operation issued so far, and the block ranges taken from and given back to the allocator. -/
structure World where
  inode : Inode
  mem : Pmem
  trace : List Op
  obtained : List (Nat × Nat)
  freed : List (Nat × Nat)

namespace World
variable (w : World)

def emit (ops : List Op) : World := { w with mem := w.mem.run ops, trace := w.trace ++ ops }

def free (blocknr num : Nat) : World := { w with freed := w.freed ++ [(blocknr, num)] }

def obtain (blocknr num : Nat) : World := { w with obtained := w.obtained ++ [(blocknr, num)] }

def setInode (i : Inode) : World := { w with inode := i }

@[simp] theorem emit_inode (ops : List Op) : (w.emit ops).inode = w.inode := rfl
@[simp] theorem emit_mem (ops : List Op) : (w.emit ops).mem = w.mem.run ops := rfl
@[simp] theorem emit_trace (ops : List Op) : (w.emit ops).trace = w.trace ++ ops := rfl
@[simp] theorem emit_obtained (ops : List Op) : (w.emit ops).obtained = w.obtained := rfl
@[simp] theorem emit_freed (ops : List Op) : (w.emit ops).freed = w.freed := rfl
@[simp] theorem free_inode (b n : Nat) : (w.free b n).inode = w.inode := rfl
@[simp] theorem free_mem (b n : Nat) : (w.free b n).mem = w.mem := rfl
@[simp] theorem free_trace (b n : Nat) : (w.free b n).trace = w.trace := rfl
@[simp] theorem free_obtained (b n : Nat) : (w.free b n).obtained = w.obtained := rfl
@[simp] theorem free_freed (b n : Nat) : (w.free b n).freed = w.freed ++ [(b, n)] := rfl
@[simp] theorem obtain_inode (b n : Nat) : (w.obtain b n).inode = w.inode := rfl
@[simp] theorem obtain_mem (b n : Nat) : (w.obtain b n).mem = w.mem := rfl
@[simp] theorem obtain_trace (b n : Nat) : (w.obtain b n).trace = w.trace := rfl
@[simp] theorem obtain_obtained (b n : Nat) : (w.obtain b n).obtained = w.obtained ++ [(b, n)] := rfl
@[simp] theorem obtain_freed (b n : Nat) : (w.obtain b n).freed = w.freed := rfl
@[simp] theorem setInode_inode (i : Inode) : (w.setInode i).inode = i := rfl
@[simp] theorem setInode_mem (i : Inode) : (w.setInode i).mem = w.mem := rfl
@[simp] theorem setInode_trace (i : Inode) : (w.setInode i).trace = w.trace := rfl
@[simp] theorem setInode_obtained (i : Inode) : (w.setInode i).obtained = w.obtained := rfl
@[simp] theorem setInode_freed (i : Inode) : (w.setInode i).freed = w.freed := rfl

@[simp] theorem emit_nil : w.emit [] = w := by simp [emit]
theorem emit_emit (xs ys : List Op) : (w.emit xs).emit ys = w.emit (xs ++ ys) := by
  simp [emit, List.append_assoc]

@[simp] theorem emit_store_bytes (a n : Nat) (src : Nat → UInt8) (x : Nat) :
    (w.emit [.store a n src]).mem.bytes x = if a ≤ x ∧ x < a + n then src (x - a) else w.mem.bytes x :=
  rfl

@[simp] theorem emit_storeNt_bytes (a n : Nat) (src : Nat → UInt8) (x : Nat) :
    (w.emit [.storeNt a n src]).mem.bytes x = if a ≤ x ∧ x < a + n then src (x - a) else w.mem.bytes x :=
  rfl

@[simp] theorem emit_flush_mem (a n : Nat) : (w.emit [.flush a n]).mem = w.mem := rfl

end World
end Nova
