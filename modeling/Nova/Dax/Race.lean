import Nova.Dax.CowWrite
import Nova.Dax.Read

/-! A lock-free reader against writers that share persistent memory and the allocator. -/
namespace Nova

/-- Every inode with the memory and the allocator they share. -/
structure Fs where
  inodes : Nat → Inode
  mem : Pmem
  trace : List Op
  obtained : List (Nat × Nat)
  freed : List (Nat × Nat)

namespace Fs

def world (fs : Fs) (ino : Nat) : World := ⟨fs.inodes ino, fs.mem, fs.trace, fs.obtained, fs.freed⟩

def put (fs : Fs) (ino : Nat) (w : World) : Fs :=
  ⟨Function.update fs.inodes ino w.inode, w.mem, w.trace, w.obtained, w.freed⟩

end Fs

/-- One step of a schedule. -/
inductive Act where
  /-- The lookup half of the reader's next iteration. -/
  | lookup
  /-- The copy half. -/
  | copy
  /-- nova_cow_file_write(buf, len, ppos) on inode `ino`, without O_APPEND. -/
  | write (ino : Nat) (env : WriteEnv) (buf : Nat → UInt8) (len ppos : Nat)

/-- One step, for a reader of inode `rino`. A lookup runs only when the last one has been copied
and the read has not returned. -/
def raceStep (sb : Sb) (renv : ReadEnv) (rino : Nat) (st : Fs × Reader) : Act → Fs × Reader
  | .lookup =>
    (st.1, if st.2.ret = none ∧ st.2.pending = none
      then readLookup sb (st.1.inodes rino) st.1.mem st.2 else st.2)
  | .copy => (st.1, readCopy renv st.1.mem st.2)
  | .write ino env buf len ppos =>
    (st.1.put ino (novaCowFileWrite sb env (st.1.world ino) buf len ppos false).w, st.2)

def raceStates (sb : Sb) (renv : ReadEnv) (rino : Nat) (st : Fs × Reader) (acts : List Act) :
    List (Fs × Reader) :=
  acts.scanl (raceStep sb renv rino) st

/-- Inode 1 maps page 0, through the entry in slot 100, to block 1000, which holds 97s; inode 2
is empty, with its log at slot 200. -/
def twoFiles : Fs :=
  ⟨fun ino => ⟨ino, fun p => if ino = 1 ∧ p = 0 then some 100 else none,
      if ino = 1 then 4096 else 0, if ino = 1 then 1 else 0, false⟩,
    ⟨fun x => if 4096000 ≤ x ∧ x < 4100096 then 97 else 0,
      fun s => if s = 100 then ⟨fileWrite, 0, 1, 0, 1, 0, 4096000, 0, 4096⟩ else default,
      fun ino => if ino = 1 then 101 else 200⟩, [], [], []⟩

/-- A write whose allocator hands out block `b`. -/
def allocAt (b : Nat) : WriteEnv :=
  ⟨true, 0, 2, 3, fun _ _ => (1, b), fun _ _ => 0, fun _ => true, 1, fun _ => 0⟩

/-- The reader of byte 0 of inode 1 looks page 0 up; inode 1 is overwritten with 99s, into
block 1001, which frees block 1000; inode 2 is written with 98s and gets block 1000; the reader
copies. -/
def reuseSchedule : List Act :=
  [.lookup, .write 1 (allocAt 1001) (fun _ => 99) 4096 0,
    .write 2 (allocAt 1000) (fun _ => 98) 4096 0, .copy]

def reuseRun : List (Fs × Reader) :=
  raceStates ⟨0, id, 1⟩ ⟨true, fun _ _ => 0⟩ 1
    (twoFiles, readStart ⟨true, fun _ _ => 0⟩ (twoFiles.inodes 1) 1 0) reuseSchedule

/-- Byte 0 of inode 1 is 97 and then 99 throughout, block 1000 is freed before the allocator
hands it out again, and the read returns 98, a byte of inode 2. -/
theorem read_copies_reused_block :
    reuseRun.map (fun st => fileByte (st.1.inodes 1) st.1.mem 0) = [97, 97, 99, 99, 99] ∧
    (reuseRun.map fun st => (st.1.obtained, st.1.freed)) =
      [([], []), ([], []), ([(1001, 1)], [(1000, 1)]), ([(1001, 1), (1000, 1)], [(1000, 1)]),
        ([(1001, 1), (1000, 1)], [(1000, 1)])] ∧
    (reuseRun.getLast?.map fun st => (st.2.ret, st.2.out)) = some (some (1, 1), [98]) := by
  decide

end Nova
