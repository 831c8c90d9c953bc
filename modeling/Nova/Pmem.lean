import Mathlib.Logic.Function.Basic

/-! Persistent memory as the direct map shows it, and the operations the code issues on it.
Write entries and log tails are cells: the byte layout of nova_def.h is not among the sources. -/
namespace Nova

/-- struct nova_file_write_entry: the fields the DAX path fills in and reads back. -/
structure WriteEntry where
  entryType : Nat
  reassigned : Nat
  transId : Nat
  pgoff : Nat
  numPages : Nat
  invalidPages : Nat
  block : Nat
  mtime : Nat
  size : Nat
  deriving DecidableEq, Repr, Inhabited

/-- One operation on persistent memory, in the order the code issues them. -/
inductive Op where
  /-- memcpy, memset or a plain field store: `len` bytes of `src` at `addr`, through the cache. -/
  | store (addr len : Nat) (src : Nat → UInt8)
  /-- memcpy_to_pmem_nocache: the same bytes, written around the cache. -/
  | storeNt (addr len : Nat) (src : Nat → UInt8)
  /-- The clflush loop of nova_flush_buffer over [addr, addr + len). -/
  | flush (addr len : Nat)
  /-- PERSISTENT_BARRIER, also the fence nova_flush_buffer issues when asked to. -/
  | fence
  /-- A write entry copied into its log slot around the cache. -/
  | putEntry (slot : Nat) (e : WriteEntry)
  /-- pi->log_tail = tail, a plain store into the inode. -/
  | putTail (ino tail : Nat)
  /-- The flush of the cache line holding pi->log_tail. -/
  | flushTail (ino : Nat)
  /-- __nova_memunlock_range: [addr, addr + len) becomes writable. -/
  | unlock (addr len : Nat)
  /-- __nova_memlock_range: [addr, addr + len) is write protected again. -/
  | lock (addr len : Nat)

/-- The byte addresses an operation stores to. -/
def Op.Writes : Op → Nat → Prop
  | .store a n _, x => a ≤ x ∧ x < a + n
  | .storeNt a n _, x => a ≤ x ∧ x < a + n
  | _, _ => False

instance Op.decWrites : (o : Op) → (x : Nat) → Decidable (o.Writes x)
  | .store a n _, x => inferInstanceAs (Decidable (a ≤ x ∧ x < a + n))
  | .storeNt a n _, x => inferInstanceAs (Decidable (a ≤ x ∧ x < a + n))
  | .flush .., _ => isFalse id
  | .fence, _ => isFalse id
  | .putEntry .., _ => isFalse id
  | .putTail .., _ => isFalse id
  | .flushTail _, _ => isFalse id
  | .unlock .., _ => isFalse id
  | .lock .., _ => isFalse id

/-- Persistent memory: the bytes of the direct map, the write-log slots and each inode's
log tail. -/
structure Pmem where
  bytes : Nat → UInt8
  slots : Nat → WriteEntry
  tails : Nat → Nat

namespace Pmem
variable (m : Pmem)

def write (addr len : Nat) (src : Nat → UInt8) : Pmem :=
  { m with bytes := fun a => if addr ≤ a ∧ a < addr + len then src (a - addr) else m.bytes a }

/-- The visible effect of one operation. -/
def step : Op → Pmem
  | .store a n s => m.write a n s
  | .storeNt a n s => m.write a n s
  | .putEntry i e => { m with slots := Function.update m.slots i e }
  | .putTail i t => { m with tails := Function.update m.tails i t }
  | _ => m

/-- The visible memory after a sequence of operations. -/
def run (ops : List Op) : Pmem := ops.foldl step m

variable {m}

@[simp] theorem write_bytes (addr len : Nat) (src : Nat → UInt8) (a : Nat) :
    (m.write addr len src).bytes a =
      if addr ≤ a ∧ a < addr + len then src (a - addr) else m.bytes a := rfl
@[simp] theorem write_slots (addr len : Nat) (src : Nat → UInt8) :
    (m.write addr len src).slots = m.slots := rfl
@[simp] theorem write_tails (addr len : Nat) (src : Nat → UInt8) :
    (m.write addr len src).tails = m.tails := rfl

@[simp] theorem run_nil : m.run [] = m := rfl
@[simp] theorem run_cons (o : Op) (os : List Op) : m.run (o :: os) = (m.step o).run os := rfl
@[simp] theorem run_append (xs ys : List Op) : m.run (xs ++ ys) = (m.run xs).run ys :=
  List.foldl_append _ _ _ _

theorem step_bytes_of_not_writes {o : Op} {a : Nat} (h : ¬ o.Writes a) :
    (m.step o).bytes a = m.bytes a := by
  cases o <;> simp only [step, Op.Writes, write_bytes] at h ⊢ <;> simp [h]

theorem step_bytes_congr {m m' : Pmem} (h : m.bytes = m'.bytes) (o : Op) :
    (m.step o).bytes = (m'.step o).bytes := by
  cases o <;> simp only [step, write, h]

theorem run_bytes_congr {m m' : Pmem} (h : m.bytes = m'.bytes) :
    ∀ ops : List Op, (m.run ops).bytes = (m'.run ops).bytes
  | [] => h
  | o :: os => run_bytes_congr (step_bytes_congr h o) os

/-- Frame: a byte no operation stores to keeps its value. -/
theorem run_bytes_of_not_writes {ops : List Op} {a : Nat} (h : ∀ o ∈ ops, ¬ o.Writes a) :
    (m.run ops).bytes a = m.bytes a := by
  induction ops generalizing m with
  | nil => rfl
  | cons o os ih =>
    rw [run_cons, ih (fun o' h' => h o' (List.mem_cons_of_mem _ h')),
      step_bytes_of_not_writes (h o (List.mem_cons_self _ _))]

/-- A run leaves at `x` the value every store of it that writes `x` puts there, or what `x`
held when none does. -/
theorem run_bytes_of_writers {ops : List Op} {x : Nat} {v : UInt8}
    (h : ∀ o ∈ ops, o.Writes x → ∀ m' : Pmem, (m'.step o).bytes x = v) :
    ∀ m : Pmem, (m.run ops).bytes x = if ∃ o ∈ ops, o.Writes x then v else m.bytes x := by
  induction ops with
  | nil => intro m; simp
  | cons o os ih =>
    intro m
    rw [run_cons, ih (fun o' ho' => h o' (List.mem_cons_of_mem _ ho')) (m.step o)]
    by_cases ho : o.Writes x
    · have hv := h o (List.mem_cons_self _ _) ho m
      have hex : ∃ o' ∈ o :: os, o'.Writes x := ⟨o, List.mem_cons_self _ _, ho⟩
      rw [if_pos hex]
      split_ifs <;> first | rfl | exact hv
    · rw [step_bytes_of_not_writes ho]
      by_cases hos : ∃ o' ∈ os, o'.Writes x
      · obtain ⟨o', h1, h2⟩ := hos
        have hex : ∃ o' ∈ o :: os, o'.Writes x := ⟨o', List.mem_cons_of_mem _ h1, h2⟩
        rw [if_pos ⟨o', h1, h2⟩, if_pos hex]
      · have hex : ¬ ∃ o' ∈ o :: os, o'.Writes x := fun ⟨o', h1, h2⟩ =>
          (List.mem_cons.mp h1).elim (fun e => ho (e ▸ h2)) fun h1 => hos ⟨o', h1, h2⟩
        rw [if_neg hos, if_neg hex]

theorem run_slots_tails_of_stores {ops : List Op} (h : ∀ o ∈ ops, ∃ a n f, o = .storeNt a n f) :
    ∀ m : Pmem, (m.run ops).slots = m.slots ∧ (m.run ops).tails = m.tails := by
  induction ops with
  | nil => intro m; exact ⟨rfl, rfl⟩
  | cons o os ih =>
    intro m
    obtain ⟨a, n, f, rfl⟩ := h o (List.mem_cons_self _ _)
    exact ih (fun o ho => h o (List.mem_cons_of_mem _ ho)) _

theorem eq_of_parts {m m' : Pmem} (hb : m.bytes = m'.bytes) (hs : m.slots = m'.slots)
    (ht : m.tails = m'.tails) : m = m' := by
  cases m; cases m'; cases hb; cases hs; cases ht; rfl

end Pmem
end Nova
