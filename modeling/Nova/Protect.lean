import Nova.Crc
import Nova.Pmem

/-! Write protection (mprotect.h): the ranges a nova_memunlock_* call opened and no
nova_memlock_* call has closed since. -/
namespace Nova

/-- nova_memunlock_range: with protection on, `[p, p + len)` becomes writable. -/
def novaMemunlockRange (protect : Bool) (p len : Nat) : List Op :=
  if protect then [.unlock p len] else []

def novaMemlockRange (protect : Bool) (p len : Nat) : List Op :=
  if protect then [.lock p len] else []

-- nova.h is not among the sources: NOVA_SB_SIZE, NOVA_INODE_SIZE, JOURNAL_START, the reserved
-- block count and sb->s_blocksize are arguments of the calls below.

/-- nova_memunlock_super: the primary super block, NOVA_SB_SIZE bytes. -/
def novaMemunlockSuper (protect : Bool) (ps sbSize : Nat) : List Op :=
  novaMemunlockRange protect ps sbSize

/-- nova_memunlock_reserved: the reserved blocks at the start of the device. -/
def novaMemunlockReserved (protect : Bool) (ps reservedBlocks : Nat) : List Op :=
  novaMemunlockRange protect ps (reservedBlocks * 4096)

def novaMemlockReserved (protect : Bool) (ps reservedBlocks : Nat) : List Op :=
  novaMemlockRange protect ps (reservedBlocks * 4096)

/-- nova_memunlock_journal: block JOURNAL_START, which holds the per-CPU pointer pairs. -/
def novaMemunlockJournal (protect : Bool) (journalStart : Nat) : List Op :=
  novaMemunlockRange protect (4096 * journalStart) 4096

def novaMemlockJournal (protect : Bool) (journalStart : Nat) : List Op :=
  novaMemlockRange protect (4096 * journalStart) 4096

def novaMemunlockInode (protect : Bool) (pi inodeSize : Nat) : List Op :=
  novaMemunlockRange protect pi inodeSize

/-- nova_memlock_inode (its nova_sync_inode is compiled out). -/
def novaMemlockInode (protect : Bool) (pi inodeSize : Nat) : List Op :=
  novaMemlockRange protect pi inodeSize

def novaMemunlockBlock (protect : Bool) (bp blocksize : Nat) : List Op :=
  novaMemunlockRange protect bp blocksize

def novaMemlockBlock (protect : Bool) (bp blocksize : Nat) : List Op :=
  novaMemlockRange protect bp blocksize

@[simp] theorem run_memunlockRange (m : Pmem) (protect : Bool) (p len : Nat) :
    m.run (novaMemunlockRange protect p len) = m := by
  cases protect <;> rfl

@[simp] theorem run_memlockRange (m : Pmem) (protect : Bool) (p len : Nat) :
    m.run (novaMemlockRange protect p len) = m := by
  cases protect <;> rfl

theorem not_writes_of_mem_memunlockRange {o : Op} {protect : Bool} {p len y : Nat}
    (h : o ∈ novaMemunlockRange protect p len) : ¬ o.Writes y := by
  cases protect <;> simp only [novaMemunlockRange, List.mem_singleton, List.not_mem_nil,
    Bool.false_eq_true, if_false, if_true] at h
  subst h; exact id

theorem not_writes_of_mem_memlockRange {o : Op} {protect : Bool} {p len y : Nat}
    (h : o ∈ novaMemlockRange protect p len) : ¬ o.Writes y := by
  cases protect <;> simp only [novaMemlockRange, List.mem_singleton, List.not_mem_nil,
    Bool.false_eq_true, if_false, if_true] at h
  subst h; exact id

/-- What nova_sync_super needs of struct nova_super_block (nova_def.h is not among the sources).
s_sum is its first field: the checksum starts right after it. -/
structure SuperLayout where
  /-- NOVA_SB_SIZE: the redundant copy starts this far after the primary. -/
  sbSize : Nat
  /-- NOVA_SB_STATIC_SIZE(ps). -/
  staticSize : Nat
  /-- sizeof(struct nova_super_block). -/
  structSize : Nat
  /-- The offset of s_wtime. -/
  wtimeOff : Nat

/-- nova_sync_super: stamp s_wtime, recompute s_sum with crc16 over the static part (s_sum
zeroed first), and copy the super block NOVA_SB_SIZE bytes on. crc16 and get_seconds() come
from the kernel and are arguments. -/
def novaSyncSuper (lay : SuperLayout) (crc16 : UInt16 → List UInt8 → UInt16) (seconds : Nat)
    (m : Pmem) (ps : Nat) : List Op :=
  let stamp : List Op := [.store (ps + lay.wtimeOff) 4 (le seconds), .store ps 2 (le 0)]
  let m := m.run stamp
  let sum : Op := .store ps 2 (le (crc16 0xFFFF (bytesOf m.bytes (ps + 2) (lay.staticSize - 2))).toNat)
  let m := m.step sum
  stamp ++ [sum, .store (ps + lay.sbSize) lay.structSize fun i => m.bytes (ps + i)]

/-- nova_memlock_super: nova_sync_super, then the primary super block is protected again. -/
def novaMemlockSuper (protect : Bool) (lay : SuperLayout) (crc16 : UInt16 → List UInt8 → UInt16)
    (seconds : Nat) (m : Pmem) (ps : Nat) : List Op :=
  novaSyncSuper lay crc16 seconds m ps ++ novaMemlockRange protect ps lay.sbSize

/-- s_sum of the super block at `a` holds crc16(~0) of the rest of its static part, as
nova_sync_super computes it. -/
def superSumOk (lay : SuperLayout) (crc16 : UInt16 → List UInt8 → UInt16) (m : Pmem) (a : Nat) :
    Prop :=
  readLe m.bytes a 2 = (crc16 0xFFFF (bytesOf m.bytes (a + 2) (lay.staticSize - 2))).toNat

/-- A layout as struct nova_super_block has it: s_sum first, s_wtime after it, the static part
inside the struct and the struct inside NOVA_SB_SIZE. -/
structure SuperLayout.Valid (lay : SuperLayout) : Prop where
  static_ge : 2 ≤ lay.staticSize
  static_le : lay.staticSize ≤ lay.structSize
  struct_le : lay.structSize ≤ lay.sbSize
  wtime_ge : 2 ≤ lay.wtimeOff
  wtime_le : lay.wtimeOff + 4 ≤ lay.structSize

/-- The check reads the static part only: a copy of it checks as the original does. -/
theorem superSumOk_of_copy {lay : SuperLayout} {crc16 : UInt16 → List UInt8 → UInt16} {m : Pmem}
    {a b : Nat} (hs : 2 ≤ lay.staticSize) (h : ∀ i < lay.staticSize, m.bytes (b + i) = m.bytes (a + i))
    (ha : superSumOk lay crc16 m a) : superSumOk lay crc16 m b := by
  have hbytes : bytesOf m.bytes (b + 2) (lay.staticSize - 2) = bytesOf m.bytes (a + 2) (lay.staticSize - 2) :=
    bytesOf_congr fun i hi => by rw [Nat.add_assoc, Nat.add_assoc]; exact h _ (by omega)
  rw [superSumOk, hbytes, readLe_congr 2 fun i hi => h i (by omega)]
  exact ha

/-- What nova_sync_super leaves: s_sum checks, the redundant copy NOVA_SB_SIZE on is the same
struct and so checks too, and s_wtime holds the time, truncated to 32 bits. -/
theorem sync_super_verifies {lay : SuperLayout} (hlay : lay.Valid)
    (crc16 : UInt16 → List UInt8 → UInt16) (seconds : Nat) (m : Pmem) (ps : Nat) :
    let m' := m.run (novaSyncSuper lay crc16 seconds m ps)
    superSumOk lay crc16 m' ps ∧ superSumOk lay crc16 m' (ps + lay.sbSize) ∧
      (∀ i < lay.structSize, m'.bytes (ps + lay.sbSize + i) = m'.bytes (ps + i)) ∧
      readLe m'.bytes (ps + lay.wtimeOff) 4 = seconds % 2 ^ 32 := by
  intro m'
  have := hlay.struct_le
  have := hlay.static_le
  have := hlay.wtime_ge
  have := hlay.wtime_le
  have hcopy : ∀ i < lay.structSize, m'.bytes (ps + lay.sbSize + i) = m'.bytes (ps + i) :=
    fun i hi => by
      simp (disch := omega) only [m', novaSyncSuper, Pmem.run_append, Pmem.run_cons, Pmem.run_nil,
        Pmem.step, List.cons_append, List.nil_append, Pmem.write_bytes, if_pos, if_neg,
        Nat.add_sub_cancel_left]
  have hstatic : bytesOf m'.bytes (ps + 2) (lay.staticSize - 2) =
      bytesOf ((m.write (ps + lay.wtimeOff) 4 (le seconds)).write ps 2 (le 0)).bytes (ps + 2)
        (lay.staticSize - 2) := bytesOf_congr fun i hi => by
    simp (disch := omega) only [m', novaSyncSuper, Pmem.run_append, Pmem.run_cons, Pmem.run_nil,
      Pmem.step, List.cons_append, List.nil_append, Pmem.write_bytes, if_neg]
  have hsum : superSumOk lay crc16 m' ps := by
    rw [superSumOk, hstatic]
    refine (readLe_congr 2 fun i hi => ?_).trans
      ((readLe_le _ 2).trans (Nat.mod_eq_of_lt (UInt16.toNat_lt_size _)))
    simp (disch := omega) only [m', novaSyncSuper, Pmem.run_append, Pmem.run_cons, Pmem.run_nil,
      Pmem.step, List.cons_append, List.nil_append, Pmem.write_bytes, if_pos, if_neg,
      Nat.add_sub_cancel_left, Nat.zero_add]
  refine ⟨hsum, superSumOk_of_copy hlay.static_ge (fun i hi => hcopy i (by omega)) hsum, hcopy, ?_⟩
  rw [readLe_congr 4 (g := fun i => le seconds i) (b := 0) fun i hi => by
    simp (disch := omega) only [m', novaSyncSuper, Pmem.run_append, Pmem.run_cons, Pmem.run_nil,
      Pmem.step, List.cons_append, List.nil_append, Pmem.write_bytes, if_pos, if_neg,
      Nat.add_sub_cancel_left, Nat.zero_add], readLe_le]
  rfl

/-- Super blocks NOVA_SB_SIZE = 512 bytes apart, a 128-byte struct whose checksummed static part
is its first 64 bytes, and s_wtime at offset 8. -/
def sbLayout512 : SuperLayout := ⟨512, 64, 128, 8⟩

theorem synced_super_copy_verifies :
    sbLayout512.Valid ∧ superSumOk sbLayout512 (fun s l => l.foldl (fun a b => a + b.toUInt16) s)
      ((⟨fun _ => 0, fun _ => default, fun _ => 0⟩ : Pmem).run (novaSyncSuper sbLayout512
        (fun s l => l.foldl (fun a b => a + b.toUInt16) s) 1000
        ⟨fun _ => 0, fun _ => default, fun _ => 0⟩ 4096)) (4096 + sbLayout512.sbSize) :=
  have h : sbLayout512.Valid := ⟨by decide, by decide, by decide, by decide, by decide⟩
  ⟨h, (sync_super_verifies h _ 1000 _ 4096).2.1⟩

/-- The writable ranges after one operation: an unlock opens its range, a lock closes the range
it names. -/
def Op.unlocked (u : List (Nat × Nat)) : Op → List (Nat × Nat)
  | .unlock a n => (a, n) :: u
  | .lock a n => u.erase (a, n)
  | _ => u

def unlockedAfter (u : List (Nat × Nat)) (ops : List Op) : List (Nat × Nat) :=
  ops.foldl (fun u o => o.unlocked u) u

/-- Every byte the operation stores lies in one of the writable ranges `u`. -/
def Op.storesIn (u : List (Nat × Nat)) : Op → Bool
  | .store a n _ | .storeNt a n _ =>
    (List.range n).all fun i => u.any fun r => r.1 ≤ a + i ∧ a + i < r.1 + r.2
  | _ => true

/-- A run under protection, from the writable ranges `u`: every store falls in a range open at
that moment. -/
def guarded (u : List (Nat × Nat)) : List Op → Bool
  | [] => true
  | o :: os => o.storesIn u && guarded (o.unlocked u) os

private theorem forall_lt_iff_forall_range {a n : Nat} {P : Nat → Prop} :
    (∀ i < n, P (a + i)) ↔ ∀ x, a ≤ x ∧ x < a + n → P x :=
  ⟨fun h x hx => by simpa [Nat.add_sub_cancel' hx.1] using h (x - a) (by omega),
    fun h i hi => h _ ⟨by omega, by omega⟩⟩

theorem Op.storesIn_iff {o : Op} {u : List (Nat × Nat)} :
    o.storesIn u = true ↔ ∀ x, o.Writes x → ∃ r ∈ u, r.1 ≤ x ∧ x < r.1 + r.2 := by
  cases o <;> simp only [Op.storesIn, Op.Writes, List.all_eq_true, List.mem_range, List.any_eq_true,
    decide_eq_true_eq, true_iff, false_imp_iff, implies_true]
  all_goals exact forall_lt_iff_forall_range (P := fun x => ∃ r ∈ u, r.1 ≤ x ∧ x < r.1 + r.2)

theorem guarded_append (u : List (Nat × Nat)) (xs ys : List Op) :
    guarded u (xs ++ ys) = (guarded u xs && guarded (unlockedAfter u xs) ys) := by
  induction xs generalizing u with
  | nil => rfl
  | cons o os ih =>
    rw [List.cons_append]
    simp only [guarded, ih, unlockedAfter, List.foldl_cons, Bool.and_assoc]

theorem unlockedAfter_append (u : List (Nat × Nat)) (xs ys : List Op) :
    unlockedAfter u (xs ++ ys) = unlockedAfter (unlockedAfter u xs) ys :=
  List.foldl_append _ _ _ _

end Nova
