import Nova.File
import Nova.Protect

/-! The lite journal (journal.c): per-CPU undo entries, the transactions that write them, and
recovery at mount. -/
namespace Nova

/-- What journal.c takes from journal.h and nova.h, which are not among the sources: the layout
of struct nova_lite_journal_entry (little-endian fields, the checksum in its last four bytes),
the entry types, sizeof(struct nova_inode), the replica_inode parameter, and where the per-CPU
struct ptr_pair lives (journal_head, then journal_tail). -/
structure JournalCfg where
  entrySize : Nat
  typeOff : Nat
  paddingOff : Nat
  paddingLen : Nat
  data1Off : Nat
  data2Off : Nat
  /-- JOURNAL_INODE and JOURNAL_ENTRY. -/
  journalInode : Nat
  journalEntry : Nat
  inodeSize : Nat
  replicaInode : Bool
  /-- JOURNAL_START, the block holding the pointer pairs. -/
  journalStart : Nat
  /-- nova_get_journal_pointers(sb, cpu); 0 is NULL. -/
  pairAddr : Nat → Nat
  protect : Bool
  fields_inside : typeOff + 8 ≤ entrySize ∧ data1Off + 8 ≤ entrySize ∧ data2Off + 8 ≤ entrySize
  pairs_apart : ∀ i j, i ≠ j → pairAddr i + 16 ≤ pairAddr j ∨ pairAddr j + 16 ≤ pairAddr i

def journalHead (m : Pmem) (pair : Nat) : Nat := readLe m.bytes pair 8

def journalTail (m : Pmem) (pair : Nat) : Nat := readLe m.bytes (pair + 8) 8

section Entries
variable (jc : JournalCfg)

def entryType (m : Pmem) (entry : Nat) : Nat := readLe m.bytes (entry + jc.typeOff) 8

def entryData1 (m : Pmem) (entry : Nat) : Nat := readLe m.bytes (entry + jc.data1Off) 8

def entryData2 (m : Pmem) (entry : Nat) : Nat := readLe m.bytes (entry + jc.data2Off) 8

/-- nova_update_entry_checksum: crc32c(~0) of the entry up to its checksum, stored in it. -/
def novaUpdateEntryChecksum (m : Pmem) (entry : Nat) : Op :=
  .store (entry + jc.entrySize - 4) 4
    (le (crc32c 0xFFFFFFFF (bytesOf m.bytes entry (jc.entrySize - 4))).toNat)

/-- nova_check_entry_integrity, true where it returns 0. -/
def novaCheckEntryIntegrity (m : Pmem) (entry : Nat) : Bool :=
  readLe m.bytes (entry + jc.entrySize - 4) 4 =
    (crc32c 0xFFFFFFFF (bytesOf m.bytes entry (jc.entrySize - 4))).toNat

theorem novaCheckEntryIntegrity_of_sealed {m : Pmem} {p : Nat}
    (h : ∀ i < 4, m.bytes (p + jc.entrySize - 4 + i) =
      le (crc32c 0xFFFFFFFF (bytesOf m.bytes p (jc.entrySize - 4))).toNat i) :
    novaCheckEntryIntegrity jc m p = true := by
  simp only [novaCheckEntryIntegrity, decide_eq_true_eq]
  rw [readLe_congr 4 (g := fun i => le _ i) (b := 0) fun i hi => by rw [h i hi, Nat.zero_add],
    readLe_le]
  exact Nat.mod_eq_of_lt (UInt32.toNat_lt_size _)

theorem novaCheckEntryIntegrity_update (m : Pmem) (p : Nat) (h4 : 4 ≤ jc.entrySize) :
    novaCheckEntryIntegrity jc (m.step (novaUpdateEntryChecksum jc m p)) p = true := by
  have body : bytesOf (m.step (novaUpdateEntryChecksum jc m p)).bytes p (jc.entrySize - 4) =
      bytesOf m.bytes p (jc.entrySize - 4) := bytesOf_congr fun i hi => by
    simp only [novaUpdateEntryChecksum, Pmem.step, Pmem.write_bytes]
    rw [if_neg (by omega)]
  refine novaCheckEntryIntegrity_of_sealed jc fun i hi => ?_
  rw [body]
  simp only [novaUpdateEntryChecksum, Pmem.step, Pmem.write_bytes]
  rw [if_pos (by omega), Nat.add_sub_cancel_left]

/-- next_lite_journal: the next entry of the page, back to the page's start when the next one
would reach its end. -/
def nextLiteJournal (currP : Nat) : Nat :=
  if currP % 4096 + jc.entrySize ≥ 4096 then currP - currP % 4096 else currP + jc.entrySize

/-- The stores of nova_append_inode_journal and nova_append_entry_journal: type, padding,
data1, data2 when there is one, then the checksum over them. Returns the next entry. -/
def appendEntry (m : Pmem) (currP type data1 : Nat) (data2 : Option Nat) : List Op × Nat :=
  let fields : List Op := [.store (currP + jc.typeOff) 8 (le type),
    .store (currP + jc.paddingOff) jc.paddingLen (le 0), .store (currP + jc.data1Off) 8 (le data1)] ++
    data2.toList.map fun d => .store (currP + jc.data2Off) 8 (le d)
  (fields ++ [novaUpdateEntryChecksum jc (m.run fields) currP], nextLiteJournal jc currP)

/-- nova_append_inode_journal: an entry for the inode at `piAddr`; its replica's address is
recorded only with replica_inode set. -/
def novaAppendInodeJournal (m : Pmem) (currP piAddr alterPiAddr : Nat) : List Op × Nat :=
  appendEntry jc m currP jc.journalInode piAddr (if jc.replicaInode then some alterPiAddr else none)

/-- nova_append_entry_journal: an entry holding the address of a 64-bit field and its value. -/
def novaAppendEntryJournal (m : Pmem) (currP field : Nat) : List Op × Nat :=
  appendEntry jc m currP jc.journalEntry field (some (readLe m.bytes field 8))

end Entries

/-- What a transaction journals: an inode with its replica, or a 64-bit field. -/
inductive JournalItem where
  | inode (piAddr alterPiAddr : Nat)
  | field (addr : Nat)

section Transactions
variable (jc : JournalCfg)

def appendItem (m : Pmem) (currP : Nat) : JournalItem → List Op × Nat
  | .inode pi alt => novaAppendInodeJournal jc m currP pi alt
  | .field f => novaAppendEntryJournal jc m currP f

def appendItems : Pmem → Nat → List JournalItem → List Op × Nat
  | _, currP, [] => ([], currP)
  | m, currP, it :: its =>
    let r := appendItem jc m currP it
    let r' := appendItems (m.run r.1) r.2 its
    (r.1 ++ r'.1, r'.2)

/-- The body shared by nova_create_inode_transaction and nova_create_rename_transaction. BUG()
(none) without a pair, with journal_head 0 or with a transaction open; otherwise the entries
from journal_head, journal_tail moved past them, and the pair's line flushed and fenced. -/
def createTransaction (m : Pmem) (cpu : Nat) (items : List JournalItem) : Option (List Op × Nat) :=
  let pair := jc.pairAddr cpu
  let head := journalHead m pair
  if pair = 0 ∨ head = 0 ∨ head ≠ journalTail m pair then none else
  let r := appendItems jc m head items
  some (r.1 ++ [.store (pair + 8) 8 (le r.2), .flush pair 64, .fence], r.2)

/-- nova_create_inode_transaction: each inode is its address and its replica's. -/
def novaCreateInodeTransaction (m : Pmem) (inode1 inode2 : Nat × Nat) (cpu : Nat) :
    Option (List Op × Nat) :=
  createTransaction jc m cpu [.inode inode1.1 inode1.2, .inode inode2.1 inode2.2]

def novaCreateRenameTransaction (m : Pmem) (oldInode oldDir : Nat × Nat)
    (newInode newDir : Option (Nat × Nat)) (fatherIno : Option Nat) (cpu : Nat) :
    Option (List Op × Nat) :=
  createTransaction jc m cpu ([.inode oldInode.1 oldInode.2, .inode oldDir.1 oldDir.2] ++
    (newInode.toList ++ newDir.toList).map (fun i => .inode i.1 i.2) ++ fatherIno.toList.map .field)

/-- nova_commit_lite_transaction: BUG() unless journal_tail is `tail`; journal_head := tail. -/
def novaCommitLiteTransaction (m : Pmem) (tail cpu : Nat) : Option (List Op) :=
  let pair := jc.pairAddr cpu
  if pair = 0 ∨ journalTail m pair ≠ tail then none
  else some [.store pair 8 (le tail), .flush pair 64, .fence]

theorem Op.not_schedules_store (a n : Nat) (src : Nat → UInt8) (L : Line) :
    ¬ (Op.store a n src).Schedules L := by
  cases L <;> exact id

theorem appendEntry_stores (m : Pmem) (currP type data1 : Nat) (data2 : Option Nat) :
    ∀ o ∈ (appendEntry jc m currP type data1 data2).1, ∃ a n src, o = .store a n src := by
  have hs : ∀ a n src, ∃ a' n' src', (Op.store a n src) = .store a' n' src' := fun a n src => ⟨a, n, src, rfl⟩
  simp only [appendEntry, novaUpdateEntryChecksum, List.forall_mem_append, List.forall_mem_cons,
    List.forall_mem_map]
  exact ⟨⟨⟨hs _ _ _, hs _ _ _, hs _ _ _, fun _ h => nomatch h⟩, fun _ _ => hs _ _ _⟩, hs _ _ _,
    fun _ h => nomatch h⟩

theorem appendItems_stores (m : Pmem) (currP : Nat) (items : List JournalItem) :
    ∀ o ∈ (appendItems jc m currP items).1, ∃ a n src, o = .store a n src := by
  induction items generalizing m currP with
  | nil => exact fun _ h => nomatch h
  | cons it its ih =>
    simp only [appendItems, List.mem_append]
    rintro o (ho | ho)
    · cases it <;> exact appendEntry_stores jc _ _ _ _ _ o ho
    · exact ih _ _ o ho

/-- nova_create_*_transaction sends only the pointer pair's line towards the medium: the
entries are plain stores that nothing flushes. -/
theorem createTransaction_schedules {m : Pmem} {cpu : Nat} {items : List JournalItem}
    {ops : List Op} {tail : Nat} (h : createTransaction jc m cpu items = some (ops, tail))
    {o : Op} {L : Line} (ho : o ∈ ops) (hs : o.Schedules L) :
    ∃ l, L = .data l ∧ l * 64 < jc.pairAddr cpu + 64 ∧ jc.pairAddr cpu < l * 64 + 64 := by
  dsimp only [createTransaction] at h
  split at h
  · cases h
  · obtain ⟨rfl, -⟩ := Prod.mk.inj (Option.some.inj h)
    simp only [List.mem_append, List.mem_cons, List.mem_singleton, List.not_mem_nil,
      or_false] at ho
    rcases ho with ho | rfl | rfl | rfl
    · obtain ⟨a, n, src, rfl⟩ := appendItems_stores jc _ _ _ o ho
      exact absurd hs (Op.not_schedules_store a n src L)
    · exact absurd hs (Op.not_schedules_store _ _ _ L)
    · cases L <;> simp only [Op.Schedules] at hs
      exact ⟨_, rfl, by omega, by omega⟩
    · cases L <;> exact hs.elim

end Transactions

section Recovery
variable (jc : JournalCfg)

/-- nova_recover_journal_inode: with replica_inode set, the primary inode at data1 becomes a
copy of the replica at data2, written around the cache. -/
def novaRecoverJournalInode (m : Pmem) (entry : Nat) : List Op :=
  if jc.replicaInode then
    [.storeNt (entryData1 jc m entry) jc.inodeSize fun i => m.bytes (entryData2 jc m entry + i)]
  else []

/-- nova_recover_journal_entry: the value in data2 goes back to the 64-bit field at data1, whose
line is then flushed. -/
def novaRecoverJournalEntry (m : Pmem) (entry : Nat) : List Op :=
  [.store (entryData1 jc m entry) 8 (le (entryData2 jc m entry)), .flush (entryData1 jc m entry) 64]

def novaUndoLiteJournalEntry (m : Pmem) (entry : Nat) : List Op :=
  if entryType jc m entry = jc.journalInode then novaRecoverJournalInode jc m entry
  else if entryType jc m entry = jc.journalEntry then novaRecoverJournalEntry jc m entry
  else []

/-- The loop of nova_recover_lite_journal from entry `curr`: undo entries until journal_tail
(read again at every test), at most `fuel` of them. -/
def recoverWalk (pair : Nat) : (fuel : Nat) → Pmem → Nat → Option (List Op)
  | 0, m, curr => if curr = journalTail m pair then some [] else none
  | fuel + 1, m, curr =>
    if curr = journalTail m pair then some [] else
    let u := novaUndoLiteJournalEntry jc m curr
    (recoverWalk pair fuel (m.run u) (nextLiteJournal jc curr)).map (u ++ ·)

/-- nova_recover_lite_journal: unlock the journal, undo the entries from journal_head to
journal_tail, set journal_tail to journal_head, lock, and flush the pair with a fence. -/
def novaRecoverLiteJournal (fuel : Nat) (m : Pmem) (pair : Nat) : Option (List Op) :=
  let unlock := novaMemunlockJournal jc.protect jc.journalStart
  (recoverWalk jc pair fuel (m.run unlock) (journalHead m pair)).map fun undo =>
    unlock ++ undo ++ [.store (pair + 8) 8 (le (journalHead (m.run (unlock ++ undo)) pair))] ++
      novaMemlockJournal jc.protect jc.journalStart ++ [.flush pair 64, .fence]

/-- The loop of nova_check_journal_entries: true when every entry from `curr` to `tail` passes
nova_check_entry_integrity, false at the first that does not. -/
def checkWalk (m : Pmem) (tail : Nat) : (fuel curr : Nat) → Option Bool
  | 0, curr => if curr = tail then some true else none
  | fuel + 1, curr =>
    if curr = tail then some true
    else if novaCheckEntryIntegrity jc m curr then checkWalk m tail fuel (nextLiteJournal jc curr)
    else some false

/-- nova_check_journal_entries, true where it returns 0. -/
def novaCheckJournalEntries (fuel : Nat) (m : Pmem) (pair : Nat) : Option Bool :=
  checkWalk jc m (journalTail m pair) fuel (journalHead m pair)

/-- The CPU loop of nova_lite_journal_soft_init, with the value of ret so far. -/
def softInitLoop (fuel : Nat) : List Nat → Pmem → Int → Option (Int × List Op)
  | [], _, ret => some (ret, [])
  | i :: is, m, ret =>
    let pair := jc.pairAddr i
    if journalHead m pair = journalTail m pair then softInitLoop fuel is m ret else
    match novaCheckJournalEntries jc fuel m pair with
    | none => none
    | some false => some (-Errno.inval, [])
    | some true =>
      match novaRecoverLiteJournal jc fuel m pair with
      | none => none
      | some ops => (softInitLoop fuel is (m.run ops) 0).map fun r => (r.1, ops ++ r.2)

/-- nova_lite_journal_soft_init. `ret0` is the indeterminate value ret starts with, and
`kzallocOk` whether the array of journal locks was allocated. -/
def novaLiteJournalSoftInit (fuel : Nat) (kzallocOk : Bool) (cpus : Nat) (ret0 : Int) (m : Pmem) :
    Option (Int × List Op) :=
  if kzallocOk then softInitLoop jc fuel (List.range cpus) m ret0 else some (-Errno.nomem, [])

/-- The CPU loop of nova_lite_journal_hard_init. `alloc i` is what nova_new_log_blocks returns
for CPU `i` and the block number it sets; the block becomes the CPU's journal, with
journal_head = journal_tail at its start. -/
def hardInitLoop (alloc : Nat → Int × Nat) : List Nat → Option Int × List Op
  | [] => (none, [])
  | i :: is =>
    let pair := jc.pairAddr i
    if pair = 0 then (some (-Errno.inval), []) else
    if (alloc i).1 ≠ 1 ∨ (alloc i).2 = 0 then (some (-Errno.nospc), []) else
    let block := (alloc i).2 * 4096
    let r := hardInitLoop alloc is
    (r.1, novaMemunlockRange jc.protect pair 64 ++
      [.store (pair + 8) 8 (le block), .store pair 8 (le block), .flush pair 64] ++
      novaMemlockRange jc.protect pair 64 ++ r.2)

/-- nova_lite_journal_hard_init: the journals, PERSISTENT_BARRIER, nova_lite_journal_soft_init. -/
def novaLiteJournalHardInit (alloc : Nat → Int × Nat) (fuel : Nat) (kzallocOk : Bool) (cpus : Nat)
    (ret0 : Int) (m : Pmem) : Option (Int × List Op) :=
  match hardInitLoop jc alloc (List.range cpus) with
  | (some err, ops) => some (err, ops)
  | (none, ops) =>
    (novaLiteJournalSoftInit jc fuel kzallocOk cpus ret0 (m.run (ops ++ [.fence]))).map
      fun r => (r.1, ops ++ [.fence] ++ r.2)

end Recovery

/-- One CPU, 32-byte entries (type, data1, data2, padding, checksum), the pointer pair at 8192. -/
def liteCfg : JournalCfg :=
  ⟨32, 0, 24, 4, 8, 16, 1, 2, 128, true, 2, fun cpu => 8192 + 64 * cpu, false, by decide,
    fun i j h => by dsimp only; omega⟩

def zeroPmem : Pmem := ⟨fun _ => 0, fun _ => default, fun _ => 0⟩

/-- nova_lite_journal_hard_init on a zeroed device, the journal in log block 100, then
nova_create_inode_transaction for the inodes at 40960 and 41088 (replicas at 45056 and 45184). -/
def journalRun : List Op :=
  let init := ((novaLiteJournalHardInit liteCfg (fun _ => (1, 100)) 0 true 1 0 zeroPmem).map
    Prod.snd).getD []
  init ++ (((novaCreateInodeTransaction liteCfg (zeroPmem.run init) (40960, 45056) (41088, 45184)
    0).map Prod.fst).getD [])

/-- The medium after a crash right after the transaction's fence, the line of its two entries
not having been evicted. -/
def journalCrash : Pmem :=
  zeroPmem.image journalRun fun L => if L = .data 6400 then 0 else journalRun.length

theorem journal_tail_persists_before_entries :
    Crash zeroPmem journalRun journalCrash ∧
    journalHead journalCrash 8192 ≠ journalTail journalCrash 8192 ∧
    readLe journalCrash.bytes 409600 8 ≠ liteCfg.journalInode := by
  -- the initialisation flushes only the pointer pair, and so does the transaction
  have unflushed : ∀ o ∈ journalRun, ¬ o.Schedules (.data 6400) := by
    intro o ho hs
    rcases List.mem_append.mp ho with hi | ht <;> clear ho
    · revert hs; revert o; decide
    · generalize htx : novaCreateInodeTransaction liteCfg _ _ _ 0 = r at ht
      rcases r with _ | ⟨ops, tail⟩
      · nomatch ht
      · obtain ⟨l, hl, hlo, -⟩ := createTransaction_schedules liteCfg htx ht hs
        cases hl
        exact absurd hlo (by decide)
  refine ⟨⟨journalRun.length, le_refl _, _, fun L => ?_, fun L i ⟨o, ho, hs, j, hij, hjn, _⟩ => ?_,
    rfl⟩, by decide, by decide⟩
  · split <;> omega
  · by_cases hL : L = .data 6400
    · subst hL; exact absurd hs (unflushed o (List.getElem?_mem ho))
    · simp only [if_neg hL]; omega

section Undo
variable (jc : JournalCfg)

/-- `ps` are the entries from `curr` up to `tail` along next_lite_journal. -/
def JournalRange (tail : Nat) : Nat → List Nat → Prop
  | curr, [] => curr = tail
  | curr, p :: ps => p = curr ∧ curr ≠ tail ∧ JournalRange tail (nextLiteJournal jc curr) ps

/-- The bytes the undo of the entry at `entry` restores: the primary inode of a JOURNAL_INODE
entry, the field of a JOURNAL_ENTRY one. -/
def undoCovers (m : Pmem) (entry x : Nat) : Bool :=
  if entryType jc m entry = jc.journalInode then
    entryData1 jc m entry ≤ x ∧ x < entryData1 jc m entry + jc.inodeSize
  else entryType jc m entry = jc.journalEntry ∧ entryData1 jc m entry ≤ x ∧ x < entryData1 jc m entry + 8

/-- The bytes it copies from: the replica inode of a JOURNAL_INODE entry. -/
def UndoSource (m : Pmem) (entry y : Nat) : Prop :=
  entryType jc m entry = jc.journalInode ∧ entryData2 jc m entry ≤ y ∧
    y < entryData2 jc m entry + jc.inodeSize

/-- The byte it restores at `x`: from the replica, or from the recorded value. -/
def undoByte (m : Pmem) (entry x : Nat) : UInt8 :=
  if entryType jc m entry = jc.journalInode then
    m.bytes (entryData2 jc m entry + (x - entryData1 jc m entry))
  else le (entryData2 jc m entry) (x - entryData1 jc m entry)

/-- Undoing the entries `ps` in order at byte `x`, which held `b`: the last entry covering `x`
decides, reading the entries and replicas of `m`. -/
def undoFold (m : Pmem) (ps : List Nat) (b : UInt8) (x : Nat) : UInt8 :=
  ps.foldl (fun b p => if undoCovers jc m p x then undoByte jc m p x else b) b

/-- The journal itself: the pointer pair of every CPU and the entries `ps`. -/
def InJournal (cpus : Nat) (ps : List Nat) (x : Nat) : Prop :=
  (∃ j < cpus, jc.pairAddr j ≤ x ∧ x < jc.pairAddr j + 16) ∨ ∃ p ∈ ps, p ≤ x ∧ x < p + jc.entrySize

variable {jc}

theorem JournalRange.unique {tail : Nat} :
    ∀ {c : Nat} {ps ps' : List Nat}, JournalRange jc tail c ps → JournalRange jc tail c ps' → ps = ps'
  | _, [], [], _, _ => rfl
  | _, [], _ :: _, h, h' => absurd h h'.2.1
  | _, _ :: _, [], h, h' => absurd h' h.2.1
  | _, _ :: _, _ :: _, h, h' => by
    rw [h.1, h'.1, JournalRange.unique h.2.2 h'.2.2]

theorem JournalRange.from_mem {tail : Nat} :
    ∀ {c c' : Nat} {ps : List Nat}, JournalRange jc tail c ps → c' ∈ ps →
      ∃ ps', JournalRange jc tail c' ps' ∧ ps'.length ≤ ps.length
  | _, _, [], _, h => absurd h (List.not_mem_nil _)
  | _, _, _ :: ps, h, hm => by
    rcases List.mem_cons.mp hm with rfl | hm
    · exact ⟨_, h.1 ▸ h, le_refl _⟩
    · obtain ⟨ps', h', hl⟩ := JournalRange.from_mem h.2.2 hm
      exact ⟨ps', h', by simp only [List.length_cons]; omega⟩

theorem JournalRange.nodup {tail : Nat} :
    ∀ {c : Nat} {ps : List Nat}, JournalRange jc tail c ps → ps.Nodup
  | _, [], _ => List.nodup_nil
  | c, p :: ps, h => by
    obtain ⟨rfl, hne, h'⟩ := h
    refine List.nodup_cons.mpr ⟨fun hm => ?_, h'.nodup⟩
    obtain ⟨ps', hr, hl⟩ := h'.from_mem hm
    have hp : JournalRange jc tail p (p :: ps) := by unfold JournalRange; exact ⟨rfl, hne, h'⟩
    have := congrArg List.length (JournalRange.unique hr hp)
    simp only [List.length_cons] at this
    omega

theorem undoFold_of_not_covers {m : Pmem} {ps : List Nat} {x : Nat}
    (h : ∀ p ∈ ps, undoCovers jc m p x = false) (b : UInt8) : undoFold jc m ps b x = b := by
  induction ps generalizing b with
  | nil => rfl
  | cons p ps ih =>
    simp only [undoFold, List.foldl_cons, h p (List.mem_cons_self _ _), if_false]
    exact ih (fun q hq => h q (List.mem_cons_of_mem _ hq)) b

theorem undoFold_of_covers {m : Pmem} {ps : List Nat} {x : Nat}
    (h : ∃ p ∈ ps, undoCovers jc m p x = true) (b b' : UInt8) :
    undoFold jc m ps b x = undoFold jc m ps b' x := by
  induction ps generalizing b b' with
  | nil => simp at h
  | cons p ps ih =>
    simp only [undoFold, List.foldl_cons]
    by_cases hp : undoCovers jc m p x = true
    · simp only [hp, if_true]
    · obtain ⟨q, hq, hqx⟩ := h
      rcases List.mem_cons.mp hq with rfl | hq
      · exact absurd hqx hp
      · simp only [hp, if_false, Bool.false_eq_true]; exact ih ⟨q, hq, hqx⟩ _ _

theorem entry_congr {m m' : Pmem} {p : Nat}
    (h : ∀ i < jc.entrySize, m'.bytes (p + i) = m.bytes (p + i)) :
    entryType jc m' p = entryType jc m p ∧ entryData1 jc m' p = entryData1 jc m p ∧
      entryData2 jc m' p = entryData2 jc m p := by
  obtain ⟨h1, h2, h3⟩ := jc.fields_inside
  refine ⟨readLe_congr 8 fun i hi => ?_, readLe_congr 8 fun i hi => ?_,
    readLe_congr 8 fun i hi => ?_⟩ <;> rw [Nat.add_assoc] <;> exact h _ (by omega)

theorem undo_step {m m' : Pmem} {p : Nat} (hrep : jc.replicaInode = true)
    (hent : ∀ i < jc.entrySize, m'.bytes (p + i) = m.bytes (p + i))
    (hsrc : ∀ y, UndoSource jc m p y → m'.bytes y = m.bytes y) :
    (∀ x, (m'.run (novaUndoLiteJournalEntry jc m' p)).bytes x =
      if undoCovers jc m p x then undoByte jc m p x else m'.bytes x) ∧
    ∀ o ∈ novaUndoLiteJournalEntry jc m' p, ∀ y, o.Writes y → undoCovers jc m p y = true := by
  obtain ⟨ht, h1, h2⟩ := entry_congr hent
  simp only [novaUndoLiteJournalEntry, novaRecoverJournalInode, novaRecoverJournalEntry, undoCovers,
    undoByte, ht, h1, h2, hrep, if_true]
  by_cases hi : entryType jc m p = jc.journalInode
  · simp only [hi, if_true, Pmem.run_cons, Pmem.run_nil, Pmem.step, Pmem.write_bytes,
      List.mem_singleton, forall_eq, Op.Writes, decide_eq_true_eq]
    refine ⟨fun x => ?_, fun y hy => hy⟩
    split_ifs with hx
    · exact hsrc _ ⟨hi, by omega, by omega⟩
    · rfl
  · by_cases he : entryType jc m p = jc.journalEntry
    · simp only [if_neg hi, if_pos he]
      simp [he, Pmem.step, Op.Writes]
    · simp [hi, he]

/-- The loop of nova_recover_lite_journal over a range whose targets miss the pair and the
entries, no target meeting another entry's replica. On a memory that agrees with `m` on the
entries and the replicas, it undoes the entries in order and stores only to their targets. -/
theorem recoverWalk_spec {m : Pmem} {pair tail : Nat} (hrep : jc.replicaInode = true) :
    ∀ {qs : List Nat} {curr fuel : Nat} {m' : Pmem}, JournalRange jc tail curr qs →
    qs.length ≤ fuel →
    (∀ p ∈ qs, ∀ x, undoCovers jc m p x = true →
      ¬ (pair ≤ x ∧ x < pair + 16) ∧ ∀ q ∈ qs, ¬ (q ≤ x ∧ x < q + jc.entrySize)) →
    (∀ p ∈ qs, ∀ q ∈ qs, p ≠ q → ∀ x, undoCovers jc m p x = true → ¬ UndoSource jc m q x) →
    (∀ q ∈ qs, ∀ i < jc.entrySize, m'.bytes (q + i) = m.bytes (q + i)) →
    (∀ q ∈ qs, ∀ y, UndoSource jc m q y → m'.bytes y = m.bytes y) →
    journalTail m' pair = tail →
    ∃ ops, recoverWalk jc pair fuel m' curr = some ops ∧
      (∀ x, (m'.run ops).bytes x = undoFold jc m qs (m'.bytes x) x) ∧
      ∀ o ∈ ops, ∀ y, o.Writes y → ∃ p ∈ qs, undoCovers jc m p y = true
  | [], curr, fuel, m', hr, _, _, _, _, _, ht => by
    have hr : curr = tail := hr
    refine ⟨[], ?_, fun x => rfl, by simp⟩
    cases fuel <;> simp only [recoverWalk, ht, hr, if_true]
  | p :: qs, curr, fuel, m', hr, hf, hdis, hsrc, hent, hsrc', ht => by
    have hnd := (JournalRange.nodup hr : (p :: qs).Nodup)
    obtain ⟨rfl, hne, hr'⟩ := hr
    obtain ⟨f, rfl⟩ : ∃ f, fuel = f + 1 := ⟨fuel - 1, by simp only [List.length_cons] at hf; omega⟩
    have hp := List.mem_cons_self p qs
    obtain ⟨hstep, hw⟩ := undo_step hrep (hent p hp) (hsrc' p hp)
    have keep : ∀ x, undoCovers jc m p x = false →
        (m'.run (novaUndoLiteJournalEntry jc m' p)).bytes x = m'.bytes x := fun x hx => by
      rw [hstep, hx]; rfl
    obtain ⟨ops, hops, hb, hwr⟩ := recoverWalk_spec hrep hr'
      (show qs.length ≤ f by simp only [List.length_cons] at hf; omega)
      (fun q hq x hx => ⟨(hdis q (List.mem_cons_of_mem _ hq) x hx).1,
        fun r hr => (hdis q (List.mem_cons_of_mem _ hq) x hx).2 r (List.mem_cons_of_mem _ hr)⟩)
      (fun q hq r hr => hsrc q (List.mem_cons_of_mem _ hq) r (List.mem_cons_of_mem _ hr))
      (fun q hq i hi => by
        rw [keep (q + i) (Bool.eq_false_iff.mpr fun h => (hdis p hp _ h).2 q
          (List.mem_cons_of_mem _ hq) ⟨by omega, by omega⟩)]
        exact hent q (List.mem_cons_of_mem _ hq) i hi)
      (fun q hq y hy => by
        rw [keep y (Bool.eq_false_iff.mpr fun h => hsrc p hp q (List.mem_cons_of_mem _ hq)
          (fun e => (List.nodup_cons.mp hnd).1 (e ▸ hq)) y h hy)]
        exact hsrc' q (List.mem_cons_of_mem _ hq) y hy)
      (by
        rw [← ht]
        exact readLe_congr 8 fun i hi => keep (pair + 8 + i) (Bool.eq_false_iff.mpr fun h =>
          (hdis p hp _ h).1 ⟨by omega, by omega⟩))
    refine ⟨novaUndoLiteJournalEntry jc m' p ++ ops, ?_, fun x => ?_, fun o ho y hy => ?_⟩
    · simp only [recoverWalk, if_neg (ht ▸ hne : p ≠ journalTail m' pair), hops, Option.map_some']
    · rw [Pmem.run_append, hb, hstep]
      simp only [undoFold, List.foldl_cons]
    · rcases List.mem_append.mp ho with ho | ho
      · exact ⟨p, hp, hw o ho y hy⟩
      · obtain ⟨q, hq, h⟩ := hwr o ho y hy
        exact ⟨q, List.mem_cons_of_mem _ hq, h⟩

/-- nova_recover_lite_journal over a journal range, on a memory `m'` that agrees with `m` on the
pointer pair, the entries and the replicas: every target holds what undoing the entries in
order gives, journal_tail holds journal_head, and nothing else is stored to. -/
theorem novaRecoverLiteJournal_spec {m m' : Pmem} {pair fuel : Nat} {ps : List Nat}
    (hrep : jc.replicaInode = true)
    (hr : JournalRange jc (journalTail m pair) (journalHead m pair) ps) (hf : ps.length ≤ fuel)
    (hdis : ∀ p ∈ ps, ∀ x, undoCovers jc m p x = true →
      ¬ (pair ≤ x ∧ x < pair + 16) ∧ ∀ q ∈ ps, ¬ (q ≤ x ∧ x < q + jc.entrySize))
    (hsrc : ∀ p ∈ ps, ∀ q ∈ ps, p ≠ q → ∀ x, undoCovers jc m p x = true → ¬ UndoSource jc m q x)
    (hent : ∀ q ∈ ps, ∀ i < jc.entrySize, m'.bytes (q + i) = m.bytes (q + i))
    (hsrc' : ∀ q ∈ ps, ∀ y, UndoSource jc m q y → m'.bytes y = m.bytes y)
    (hpair : ∀ i < 16, m'.bytes (pair + i) = m.bytes (pair + i)) :
    ∃ ops, novaRecoverLiteJournal jc fuel m' pair = some ops ∧
      (∀ x, (m'.run ops).bytes x = if pair + 8 ≤ x ∧ x < pair + 16 then
        le (journalHead m pair) (x - (pair + 8)) else undoFold jc m ps (m'.bytes x) x) ∧
      ∀ o ∈ ops, ∀ y, o.Writes y →
        (∃ p ∈ ps, undoCovers jc m p y = true) ∨ (pair + 8 ≤ y ∧ y < pair + 16) := by
  have hhead : journalHead m' pair = journalHead m pair :=
    readLe_congr 8 fun i hi => hpair i (by omega)
  have htail : journalTail m' pair = journalTail m pair :=
    readLe_congr 8 fun i hi => by rw [Nat.add_assoc]; exact hpair _ (by omega)
  rw [← hhead, ← htail] at hr
  obtain ⟨undo, hw, hb, hwr⟩ := recoverWalk_spec hrep hr hf hdis hsrc hent hsrc' rfl
  have hhead' : journalHead (m'.run undo) pair = journalHead m pair := by
    rw [← hhead]
    refine readLe_congr 8 fun i hi => ?_
    rw [hb, undoFold_of_not_covers fun p hp => Bool.eq_false_iff.mpr fun h =>
      (hdis p hp _ h).1 ⟨by omega, by omega⟩]
  refine ⟨novaMemunlockJournal jc.protect jc.journalStart ++ undo ++
    [.store (pair + 8) 8 (le (journalHead m pair))] ++ novaMemlockJournal jc.protect jc.journalStart ++
    [.flush pair 64, .fence], ?_, fun x => ?_, fun o ho y hy => ?_⟩
  · simp only [novaRecoverLiteJournal, novaMemunlockJournal, run_memunlockRange, hw,
      Option.map_some', Pmem.run_append, hhead']
  · simp only [novaMemunlockJournal, novaMemlockJournal, Pmem.run_append, run_memunlockRange,
      run_memlockRange, Pmem.run_cons, Pmem.run_nil, Pmem.step, Pmem.write_bytes, hb]
  · simp only [List.mem_append, List.mem_cons, List.mem_singleton, List.not_mem_nil,
      or_false] at ho
    rcases ho with (((ho | ho) | rfl) | ho) | rfl | rfl
    · exact absurd hy (not_writes_of_mem_memunlockRange ho)
    · exact .inl (hwr o ho y hy)
    · exact .inr hy
    · exact absurd hy (not_writes_of_mem_memlockRange ho)
    · exact hy.elim
    · exact hy.elim

theorem novaCheckEntryIntegrity_congr {m m' : Pmem} {p : Nat}
    (h : ∀ i < jc.entrySize, m'.bytes (p + i) = m.bytes (p + i)) :
    novaCheckEntryIntegrity jc m' p = novaCheckEntryIntegrity jc m p := by
  have h4 : 4 ≤ jc.entrySize := by have := jc.fields_inside; omega
  have hcsum : readLe m'.bytes (p + jc.entrySize - 4) 4 = readLe m.bytes (p + jc.entrySize - 4) 4 :=
    readLe_congr 4 fun i hi => by
      rw [show p + jc.entrySize - 4 + i = p + (jc.entrySize - 4 + i) by omega]
      exact h _ (by omega)
  have hbody : bytesOf m'.bytes p (jc.entrySize - 4) = bytesOf m.bytes p (jc.entrySize - 4) :=
    bytesOf_congr fun i hi => h i (by omega)
  simp only [novaCheckEntryIntegrity, hcsum, hbody]

theorem checkWalk_range {m : Pmem} {tail : Nat} :
    ∀ {ps : List Nat} {curr fuel : Nat}, JournalRange jc tail curr ps → ps.length ≤ fuel →
    (∀ p ∈ ps, novaCheckEntryIntegrity jc m p = true) → checkWalk jc m tail fuel curr = some true
  | [], curr, fuel, hr, _, _ => by
    have hr : curr = tail := hr
    cases fuel <;> simp only [checkWalk, hr, if_true]
  | p :: ps, curr, fuel, hr, hf, hok => by
    obtain ⟨rfl, hne, hr'⟩ := hr
    obtain ⟨f, rfl⟩ : ∃ f, fuel = f + 1 := ⟨fuel - 1, by simp only [List.length_cons] at hf; omega⟩
    simp only [checkWalk, if_neg hne, hok p (List.mem_cons_self _ _), if_true]
    exact checkWalk_range hr' (by simp only [List.length_cons] at hf; omega)
      fun q hq => hok q (List.mem_cons_of_mem _ hq)

theorem softInitLoop_append_closed {fuel : Nat} {m : Pmem} {is : List Nat} :
    ∀ {js : List Nat} {ret : Int},
      (∀ j ∈ js, journalHead m (jc.pairAddr j) = journalTail m (jc.pairAddr j)) →
      softInitLoop jc fuel (js ++ is) m ret = softInitLoop jc fuel is m ret
  | [], _, _ => rfl
  | j :: js, ret, h => by
    simp only [List.cons_append, softInitLoop, h j (List.mem_cons_self _ _), if_true]
    exact softInitLoop_append_closed fun k hk => h k (List.mem_cons_of_mem _ hk)

theorem softInitLoop_skip {fuel : Nat} {m : Pmem} {js : List Nat} {ret : Int}
    (h : ∀ j ∈ js, journalHead m (jc.pairAddr j) = journalTail m (jc.pairAddr j)) :
    softInitLoop jc fuel js m ret = some (ret, []) := by
  simpa using (softInitLoop_append_closed h : softInitLoop jc fuel (js ++ []) m ret = _)

theorem softInitLoop_one {fuel cpu : Nat} {m : Pmem} {ops : List Op}
    (hne : journalHead m (jc.pairAddr cpu) ≠ journalTail m (jc.pairAddr cpu))
    (hchk : novaCheckJournalEntries jc fuel m (jc.pairAddr cpu) = some true)
    (hrec : novaRecoverLiteJournal jc fuel m (jc.pairAddr cpu) = some ops) :
    ∀ {js : List Nat} {ret : Int}, js.Nodup → cpu ∈ js →
      (∀ j ∈ js, j ≠ cpu → journalHead m (jc.pairAddr j) = journalTail m (jc.pairAddr j)) →
      (∀ j ∈ js, j ≠ cpu →
        journalHead (m.run ops) (jc.pairAddr j) = journalTail (m.run ops) (jc.pairAddr j)) →
      softInitLoop jc fuel js m ret = some (0, ops)
  | [], _, _, hmem, _, _ => absurd hmem (List.not_mem_nil _)
  | j :: js, ret, hnd, hmem, hbefore, hafter => by
    obtain ⟨hj, hnd⟩ := List.nodup_cons.mp hnd
    by_cases hjc : j = cpu
    · subst hjc
      simp only [softInitLoop, if_neg hne, hchk, hrec,
        softInitLoop_skip fun k hk => hafter k (List.mem_cons_of_mem _ hk) fun e => hj (e ▸ hk),
        Option.map_some', List.append_nil]
    · simp only [softInitLoop, hbefore j (List.mem_cons_self _ _) hjc, if_true]
      exact softInitLoop_one hne hchk hrec hnd ((List.mem_cons.mp hmem).resolve_left (Ne.symm hjc))
        (fun k hk => hbefore k (List.mem_cons_of_mem _ hk))
        (fun k hk => hafter k (List.mem_cons_of_mem _ hk))

theorem softInitLoop_open {fuel cpu : Nat} {m : Pmem} {ops : List Op} {is : List Nat} {ret : Int}
    (hne : journalHead m (jc.pairAddr cpu) ≠ journalTail m (jc.pairAddr cpu))
    (hchk : novaCheckJournalEntries jc fuel m (jc.pairAddr cpu) = some true)
    (hrec : novaRecoverLiteJournal jc fuel m (jc.pairAddr cpu) = some ops) :
    softInitLoop jc fuel (cpu :: is) m ret =
      (softInitLoop jc fuel is (m.run ops) 0).map fun r => (r.1, ops ++ r.2) := by
  simp only [softInitLoop, if_neg hne, hchk, hrec]

theorem recoverWalk_congr {pair : Nat} (fuel : Nat) :
    ∀ {m m' : Pmem} (curr : Nat), m.bytes = m'.bytes →
      recoverWalk jc pair fuel m curr = recoverWalk jc pair fuel m' curr := by
  induction fuel with
  | zero => intro m m' curr h; simp only [recoverWalk, journalTail, h]
  | succ fuel ih =>
    intro m m' curr h
    have hu : novaUndoLiteJournalEntry jc m curr = novaUndoLiteJournalEntry jc m' curr := by
      simp only [novaUndoLiteJournalEntry, novaRecoverJournalInode, novaRecoverJournalEntry,
        entryType, entryData1, entryData2, h]
    simp only [recoverWalk, journalTail, h, hu]
    rw [ih _ (Pmem.run_bytes_congr h _)]

theorem checkWalk_congr {m m' : Pmem} (h : m.bytes = m'.bytes) (tail fuel : Nat) :
    ∀ curr, checkWalk jc m tail fuel curr = checkWalk jc m' tail fuel curr := by
  induction fuel with
  | zero => intro curr; rfl
  | succ fuel ih => intro curr; simp only [checkWalk, novaCheckEntryIntegrity, h, ih]

/-- nova_lite_journal_soft_init reads nothing of the medium but its bytes. -/
theorem softInitLoop_congr {fuel : Nat} :
    ∀ (js : List Nat) {m m' : Pmem} (ret : Int), m.bytes = m'.bytes →
      softInitLoop jc fuel js m ret = softInitLoop jc fuel js m' ret
  | [], _, _, _, _ => rfl
  | j :: js, m, m', ret, h => by
    have hrec : novaRecoverLiteJournal jc fuel m (jc.pairAddr j) =
        novaRecoverLiteJournal jc fuel m' (jc.pairAddr j) := by
      simp only [novaRecoverLiteJournal, journalHead, h, Pmem.run_bytes_congr h,
        recoverWalk_congr fuel _ (Pmem.run_bytes_congr h _)]
    simp only [softInitLoop, novaCheckJournalEntries, journalHead, journalTail, h,
      checkWalk_congr h, hrec, softInitLoop_congr js ret h]
    rcases novaRecoverLiteJournal jc fuel m' (jc.pairAddr j) with _ | ops
    · rfl
    · simp only [softInitLoop_congr js 0 (Pmem.run_bytes_congr h ops)]

theorem softInitLoop_run_congr {fuel : Nat} {m m' : Pmem} (h : m.bytes = m'.bytes) (js : List Nat)
    (ret : Int) :
    (softInitLoop jc fuel js m ret).map (fun r => (r.1, (m.run r.2).bytes)) =
      (softInitLoop jc fuel js m' ret).map (fun r => (r.1, (m'.run r.2).bytes)) := by
  rw [softInitLoop_congr js ret h]
  rcases softInitLoop jc fuel js m' ret with _ | r
  · rfl
  · simp only [Option.map_some', Pmem.run_bytes_congr h]

/-- A crash during a run that stores only to `targets` and to journal_tail, with journal_tail's
reset not on the medium: every other byte is as it was. -/
theorem crash_agree {m g : Pmem} {ops : List Op} {pair : Nat} {targets : Nat → Prop}
    (hc : Crash m ops g)
    (hw : ∀ o ∈ ops, ∀ y, o.Writes y → targets y ∨ (pair + 8 ≤ y ∧ y < pair + 16))
    (ht : journalTail g pair = journalTail m pair) {x : Nat} (hx : ¬ targets x) :
    g.bytes x = m.bytes x := by
  by_cases hxt : pair + 8 ≤ x ∧ x < pair + 16
  · have := readLe_inj 8 ht (x - (pair + 8)) (by omega)
    rwa [show pair + 8 + (x - (pair + 8)) = x by omega] at this
  · obtain ⟨n, -, k, -, -, rfl⟩ := hc
    exact Pmem.run_bytes_of_not_writes fun o ho hwr =>
      (hw o (List.mem_of_mem_take ho) x hwr).elim hx hxt

end Undo

/-- The bytes of `oneEntryJournal` before its entry is sealed. -/
def oneEntryRaw (pi alt x : Nat) : UInt8 :=
  if 8192 ≤ x ∧ x < 8200 then le 409600 (x - 8192)
  else if 8200 ≤ x ∧ x < 8208 then le 409632 (x - 8200)
  else if 409600 ≤ x ∧ x < 409608 then le 1 (x - 409600)
  else if 409608 ≤ x ∧ x < 409616 then le pi (x - 409608)
  else if 409616 ≤ x ∧ x < 409624 then le alt (x - 409616)
  else if 409624 ≤ x ∧ x < 409628 then 0
  else UInt8.ofNat x

/-- CPU 0 with an open transaction, on a device whose byte `x` is `x % 256` elsewhere:
journal_head 409600, journal_tail 409632, and at 409600 one JOURNAL_INODE entry for the inode
at `pi` with its replica at `alt`, sealed with its checksum. -/
def oneEntryJournal (pi alt : Nat) : Pmem where
  bytes x := if 409628 ≤ x ∧ x < 409632 then
    le (crc32c 0xFFFFFFFF (bytesOf (oneEntryRaw pi alt) 409600 28)).toNat (x - 409628)
    else oneEntryRaw pi alt x
  slots _ := default
  tails _ := 0

theorem oneEntryJournal_sealed (pi alt : Nat) :
    novaCheckEntryIntegrity liteCfg (oneEntryJournal pi alt) 409600 = true := by
  have body : bytesOf (oneEntryJournal pi alt).bytes 409600 28 =
      bytesOf (oneEntryRaw pi alt) 409600 28 :=
    bytesOf_congr fun i hi => if_neg (by omega)
  refine novaCheckEntryIntegrity_of_sealed liteCfg fun i hi => ?_
  show (if 409628 ≤ 409628 + i ∧ 409628 + i < 409632 then _ else _) =
    le (crc32c 0xFFFFFFFF (bytesOf (oneEntryJournal pi alt).bytes 409600 28)).toNat i
  rw [if_pos (by omega), body]
  exact congrArg _ (show 409600 + 32 - 4 + i - 409628 = i by omega)

theorem inode_40960_misses_journal {m : Pmem} (ht : entryType liteCfg m 409600 = 1)
    (hd : entryData1 liteCfg m 409600 = 40960) :
    ∀ x, undoCovers liteCfg m 409600 x = true → ¬ InJournal liteCfg 1 [409600] x := by
  intro x hx
  have hin : liteCfg.journalInode = 1 := rfl
  have hsz : liteCfg.inodeSize = 128 := rfl
  simp only [undoCovers, ht, hd, hin, hsz, if_true, decide_eq_true_eq] at hx
  simp only [InJournal, liteCfg, List.mem_singleton, exists_eq_left, Nat.lt_one_iff, exists_eq_left,
    Nat.mul_zero, Nat.add_zero, not_or]
  omega

/-- nova_recover_lite_journal undoes the entries of one CPU's journal in order and resets
journal_tail. When no target meets its own entry's replica and the earlier CPUs' journals are
closed, soft_init after a crash in the recovery that lost the reset returns and leaves what the
uninterrupted soft_init does. -/
theorem recover_lite_journal_undoes_idempotently (jc : JournalCfg) (m : Pmem)
    (cpu cpus fuel : Nat) (ret0 : Int) (ps : List Nat) (hrep : jc.replicaInode = true)
    (hcpu : cpu < cpus)
    (hr : JournalRange jc (journalTail m (jc.pairAddr cpu)) (journalHead m (jc.pairAddr cpu)) ps)
    (hok : ∀ p ∈ ps, novaCheckEntryIntegrity jc m p = true)
    (hjournal : ∀ p ∈ ps, ∀ x, undoCovers jc m p x = true → ¬ InJournal jc cpus ps x)
    (hsrc : ∀ p ∈ ps, ∀ q ∈ ps, p ≠ q → ∀ x, undoCovers jc m p x = true → ¬ UndoSource jc m q x)
    (hf : ps.length ≤ fuel) :
    ∃ ops, novaRecoverLiteJournal jc fuel m (jc.pairAddr cpu) = some ops ∧
      (∀ x, (m.run ops).bytes x =
        if jc.pairAddr cpu + 8 ≤ x ∧ x < jc.pairAddr cpu + 16 then
          le (journalHead m (jc.pairAddr cpu)) (x - (jc.pairAddr cpu + 8))
        else undoFold jc m ps (m.bytes x) x) ∧
      ((∀ p ∈ ps, ∀ x, undoCovers jc m p x = true → ¬ UndoSource jc m p x) →
        (∀ j < cpu, journalHead m (jc.pairAddr j) = journalTail m (jc.pairAddr j)) →
        ∀ g, Crash m ops g → journalTail g (jc.pairAddr cpu) = journalTail m (jc.pairAddr cpu) →
          (novaLiteJournalSoftInit jc fuel true cpus ret0 g).map (fun r => (r.1, (g.run r.2).bytes)) =
            (novaLiteJournalSoftInit jc fuel true cpus ret0 m).map
              (fun r => (r.1, (m.run r.2).bytes))) := by
  have hdis : ∀ p ∈ ps, ∀ x, undoCovers jc m p x = true →
      ¬ (jc.pairAddr cpu ≤ x ∧ x < jc.pairAddr cpu + 16) ∧
        ∀ q ∈ ps, ¬ (q ≤ x ∧ x < q + jc.entrySize) := fun p hp x hx =>
    ⟨fun h => hjournal p hp x hx (.inl ⟨cpu, hcpu, h⟩),
      fun q hq h => hjournal p hp x hx (.inr ⟨q, hq, h⟩)⟩
  obtain ⟨ops, hrec, hb, hw⟩ := novaRecoverLiteJournal_spec hrep hr hf hdis hsrc
    (fun _ _ _ _ => rfl) (fun _ _ _ _ => rfl) (fun _ _ => rfl)
  refine ⟨ops, hrec, hb, fun hself hearlier g hc hgt => ?_⟩
  -- what no entry restores is on the medium as it was: the journal and the replicas
  have agree : ∀ x, (∀ p ∈ ps, undoCovers jc m p x = false) → g.bytes x = m.bytes x :=
    fun x hx => crash_agree hc hw hgt fun ⟨p, hp, h⟩ => by rw [hx p hp] at h; cases h
  have journal_agree : ∀ x, InJournal jc cpus ps x → g.bytes x = m.bytes x := fun x hx =>
    agree x fun p hp => Bool.eq_false_iff.mpr fun h => hjournal p hp x h hx
  have hpair : ∀ j < cpus, ∀ i < 16, g.bytes (jc.pairAddr j + i) = m.bytes (jc.pairAddr j + i) :=
    fun j hj i hi => journal_agree _ (.inl ⟨j, hj, by omega, by omega⟩)
  have head_eq : ∀ j < cpus, journalHead g (jc.pairAddr j) = journalHead m (jc.pairAddr j) :=
    fun j hj => readLe_congr 8 fun i hi => hpair j hj i (by omega)
  have tail_eq : ∀ j < cpus, journalTail g (jc.pairAddr j) = journalTail m (jc.pairAddr j) :=
    fun j hj => readLe_congr 8 fun i hi => by rw [Nat.add_assoc]; exact hpair j hj _ (by omega)
  -- soft_init passes over the CPUs before this one on both media
  have hsplit : List.range cpus = List.range cpu ++ cpu :: List.range' (cpu + 1) (cpus - (cpu + 1)) := by
    obtain ⟨k, rfl⟩ : ∃ k, cpus = k + 1 + cpu := ⟨cpus - (cpu + 1), by omega⟩
    rw [List.range_eq_range', List.range_eq_range', ← List.range'_append, List.range'_succ,
      show k + 1 + cpu - (cpu + 1) = k by omega]
    simp
  have closed_g : ∀ j ∈ List.range cpu,
      journalHead g (jc.pairAddr j) = journalTail g (jc.pairAddr j) := fun j hj => by
    have hj := List.mem_range.mp hj
    rw [head_eq j (by omega), tail_eq j (by omega)]; exact hearlier j hj
  simp only [novaLiteJournalSoftInit, if_true, hsplit, softInitLoop_append_closed closed_g,
    softInitLoop_append_closed fun j hj => hearlier j (List.mem_range.mp hj)]
  rcases ps with _ | ⟨p0, ps⟩
  · -- an empty journal: the crash changed no byte
    exact softInitLoop_run_congr (funext fun x => agree x fun _ h => absurd h (List.not_mem_nil _)) _ _
  · -- an open journal: both media pass the check and recover it, to the same bytes
    have hne : journalHead m (jc.pairAddr cpu) ≠ journalTail m (jc.pairAddr cpu) := by
      obtain ⟨-, h, -⟩ := hr; exact h
    have hent : ∀ q ∈ p0 :: ps, ∀ i < jc.entrySize, g.bytes (q + i) = m.bytes (q + i) :=
      fun q hq i hi => journal_agree _ (.inr ⟨q, hq, by omega, by omega⟩)
    have hsrcg : ∀ q ∈ p0 :: ps, ∀ y, UndoSource jc m q y → g.bytes y = m.bytes y :=
      fun q hq y hy => agree y fun p hp => Bool.eq_false_iff.mpr fun h => by
        by_cases hpq : p = q
        · exact hself p hp y h (hpq ▸ hy)
        · exact hsrc p hp q hq hpq y h hy
    have hchk : novaCheckJournalEntries jc fuel m (jc.pairAddr cpu) = some true :=
      checkWalk_range hr hf hok
    have hchk' : novaCheckJournalEntries jc fuel g (jc.pairAddr cpu) = some true := by
      simp only [novaCheckJournalEntries, head_eq cpu hcpu, hgt]
      exact checkWalk_range hr hf fun p hp =>
        (novaCheckEntryIntegrity_congr (hent p hp)).trans (hok p hp)
    obtain ⟨ops', hrec', hb', -⟩ :=
      novaRecoverLiteJournal_spec hrep hr hf hdis hsrc hent hsrcg (hpair cpu hcpu)
    have hsame : (g.run ops').bytes = (m.run ops).bytes := funext fun x => by
      rw [hb', hb]
      split_ifs with hx
      · rfl
      · by_cases hcov : ∃ p ∈ p0 :: ps, undoCovers jc m p x = true
        · exact undoFold_of_covers hcov _ _
        · rw [agree x fun p hp => Bool.eq_false_iff.mpr fun h => hcov ⟨p, hp, h⟩]
    rw [softInitLoop_open (by rw [head_eq cpu hcpu, hgt]; exact hne) hchk' hrec',
      softInitLoop_open hne hchk hrec]
    simpa only [Option.map_map, Function.comp_def, Pmem.run_append] using
      softInitLoop_run_congr hsame _ _

/-- The bytes of `twoEntryJournal` before its entries are sealed. CPU 0's journal, from 409600
to 409664, holds a JOURNAL_INODE entry for the inode at 40960 with its replica at 45056, then a
JOURNAL_ENTRY entry recording 5 for the field at 41200; CPU 1's journal, from 413696 to 413728,
is open too. -/
def twoEntryRaw (x : Nat) : UInt8 :=
  if 8192 ≤ x ∧ x < 8200 then le 409600 (x - 8192)
  else if 8200 ≤ x ∧ x < 8208 then le 409664 (x - 8200)
  else if 8256 ≤ x ∧ x < 8264 then le 413696 (x - 8256)
  else if 8264 ≤ x ∧ x < 8272 then le 413728 (x - 8264)
  else if 409600 ≤ x ∧ x < 409608 then le 1 (x - 409600)
  else if 409608 ≤ x ∧ x < 409616 then le 40960 (x - 409608)
  else if 409616 ≤ x ∧ x < 409624 then le 45056 (x - 409616)
  else if 409632 ≤ x ∧ x < 409640 then le 2 (x - 409632)
  else if 409640 ≤ x ∧ x < 409648 then le 41200 (x - 409640)
  else if 409648 ≤ x ∧ x < 409656 then le 5 (x - 409648)
  else if 409624 ≤ x ∧ x < 409628 ∨ 409656 ≤ x ∧ x < 409660 then 0
  else UInt8.ofNat x

/-- Two CPUs with open journals, CPU 0's two entries sealed with their checksums. -/
def twoEntryJournal : Pmem where
  bytes x := if 409628 ≤ x ∧ x < 409632 then
      le (crc32c 0xFFFFFFFF (bytesOf twoEntryRaw 409600 28)).toNat (x - 409628)
    else if 409660 ≤ x ∧ x < 409664 then
      le (crc32c 0xFFFFFFFF (bytesOf twoEntryRaw 409632 28)).toNat (x - 409660)
    else twoEntryRaw x
  slots _ := default
  tails _ := 0

theorem twoEntryJournal_sealed {p : Nat} (hp : p = 409600 ∨ p = 409632) :
    novaCheckEntryIntegrity liteCfg twoEntryJournal p = true := by
  have body : bytesOf twoEntryJournal.bytes p 28 = bytesOf twoEntryRaw p 28 :=
    bytesOf_congr fun i hi => by
      simp only [twoEntryJournal]; rw [if_neg (by omega), if_neg (by omega)]
  refine novaCheckEntryIntegrity_of_sealed liteCfg fun i hi => ?_
  change twoEntryJournal.bytes (p + 28 + i) = le (crc32c 0xFFFFFFFF (bytesOf twoEntryJournal.bytes p 28)).toNat i
  rw [body]
  rcases hp with rfl | rfl
  · simp only [twoEntryJournal]; rw [if_pos (by omega), Nat.add_sub_cancel_left]
  · simp only [twoEntryJournal]; rw [if_neg (by omega), if_pos (by omega), Nat.add_sub_cancel_left]

/-- The medium after a crash in CPU 0's recovery once its first undo, the copy of the inode from
its replica, reached the medium, before the second undo and the reset of journal_tail. -/
def twoEntryCrash : Pmem :=
  twoEntryJournal.image ((novaRecoverLiteJournal liteCfg 2 twoEntryJournal 8192).getD []) fun _ => 1

theorem rerun_after_partial_recovery_matches :
    (novaLiteJournalSoftInit liteCfg 2 true 2 0 twoEntryCrash).map
        (fun r => (r.1, (twoEntryCrash.run r.2).bytes)) =
      (novaLiteJournalSoftInit liteCfg 2 true 2 0 twoEntryJournal).map
        (fun r => (r.1, (twoEntryJournal.run r.2).bytes)) := by
  have ht0 : entryType liteCfg twoEntryJournal 409600 = 1 := by decide
  have ht1 : entryType liteCfg twoEntryJournal 409632 = 2 := by decide
  have hd0 : entryData1 liteCfg twoEntryJournal 409600 = 40960 := by decide
  have hd1 : entryData1 liteCfg twoEntryJournal 409632 = 41200 := by decide
  have hs0 : entryData2 liteCfg twoEntryJournal 409600 = 45056 := by decide
  have hcov : ∀ p ∈ [409600, 409632], ∀ x, undoCovers liteCfg twoEntryJournal p x = true →
      40960 ≤ x ∧ x < 41088 ∨ 41200 ≤ x ∧ x < 41208 := by
    intro p hp x hx
    simp only [List.mem_cons, List.mem_singleton, List.not_mem_nil, or_false] at hp
    rcases hp with rfl | rfl <;>
      simp only [undoCovers, ht0, ht1, hd0, hd1, show liteCfg.journalInode = 1 from rfl,
        show liteCfg.journalEntry = 2 from rfl, show liteCfg.inodeSize = 128 from rfl,
        Nat.reduceEqDiff, if_true, if_false, decide_eq_true_eq, true_and] at hx <;> omega
  have hsource : ∀ q ∈ [409600, 409632], ∀ y, UndoSource liteCfg twoEntryJournal q y →
      45056 ≤ y ∧ y < 45184 := by
    intro q hq y hy
    simp only [List.mem_cons, List.mem_singleton, List.not_mem_nil, or_false] at hq
    rcases hq with rfl | rfl <;> simp only [UndoSource, ht0, ht1, hs0] at hy
    · exact ⟨hy.2.1, hy.2.2⟩
    · exact absurd hy.1 (by decide)
  obtain ⟨ops, h, -, hidem⟩ := recover_lite_journal_undoes_idempotently liteCfg twoEntryJournal
    0 2 2 0 [409600, 409632] rfl (by decide) (by simp only [JournalRange]; decide)
    (fun p hp => twoEntryJournal_sealed (by simpa using hp))
    (fun p hp x hx hin => by
      have := hcov p hp x hx
      simp only [InJournal, liteCfg, List.mem_cons, List.mem_singleton, List.not_mem_nil,
        or_false] at hin
      omega)
    (fun p hp q hq _ x hx hy => by have := hcov p hp x hx; have := hsource q hq x hy; omega)
    (le_refl 2)
  have hops : (novaRecoverLiteJournal liteCfg 2 twoEntryJournal 8192).getD [] = ops := by
    rw [show (8192 : Nat) = liteCfg.pairAddr 0 from rfl, h]; rfl
  exact hidem (fun p hp x hx hy => by have := hcov p hp x hx; have := hsource p hp x hy; omega)
    (fun j hj => absurd hj (Nat.not_lt_zero j)) twoEntryCrash
    ⟨1, by rw [← hops]; decide, _, fun _ => le_refl 1, fun L i ⟨o, ho, _, j, hij, hj, _⟩ => by omega,
      by rw [twoEntryCrash, hops]⟩
    (by decide)

/-- The recovery of a journal whose primary inode at 40960 overlaps its own replica at 40961. -/
def overlapRecovery : List Op :=
  (novaRecoverLiteJournal liteCfg 1 (oneEntryJournal 40960 40961) 8192).getD []

/-- A crash right after the undo's copy, which reached the medium, before journal_tail is
reset. -/
def overlapCrash : Pmem := (oneEntryJournal 40960 40961).image overlapRecovery fun _ => 1

theorem recover_lite_journal_rerun_differs :
    JournalRange liteCfg (journalTail (oneEntryJournal 40960 40961) 8192)
      (journalHead (oneEntryJournal 40960 40961) 8192) [409600] ∧
    novaCheckEntryIntegrity liteCfg (oneEntryJournal 40960 40961) 409600 = true ∧
    (∀ x, undoCovers liteCfg (oneEntryJournal 40960 40961) 409600 x = true →
      ¬ InJournal liteCfg 1 [409600] x) ∧
    novaRecoverLiteJournal liteCfg 1 (oneEntryJournal 40960 40961) 8192 = some overlapRecovery ∧
    Crash (oneEntryJournal 40960 40961) overlapRecovery overlapCrash ∧
    journalTail overlapCrash 8192 = journalTail (oneEntryJournal 40960 40961) 8192 ∧
    ∀ r ops, novaLiteJournalSoftInit liteCfg 1 true 1 0 overlapCrash = some (r, ops) →
      (overlapCrash.run ops).bytes ≠ ((oneEntryJournal 40960 40961).run overlapRecovery).bytes := by
  have hsealed := oneEntryJournal_sealed 40960 40961
  -- the crash left the entry as it was, so it still passes its check
  have untouched : ∀ i < 32, ∀ o ∈ overlapRecovery.take 1, ¬ o.Writes (409600 + i) := by decide
  have hcheck : novaCheckEntryIntegrity liteCfg overlapCrash 409600 = true :=
    (novaCheckEntryIntegrity_congr fun i hi =>
      Pmem.run_bytes_of_not_writes (untouched i hi)).trans hsealed
  have hh : journalHead overlapCrash 8192 = 409600 := by decide
  have ht : journalTail overlapCrash 8192 = 409632 := by decide
  have hnext : nextLiteJournal liteCfg 409600 = 409632 := by decide
  have hsoft : novaLiteJournalSoftInit liteCfg 1 true 1 0 overlapCrash =
      (novaRecoverLiteJournal liteCfg 1 overlapCrash 8192).map fun ops => (0, ops ++ []) := by
    rw [novaLiteJournalSoftInit, if_pos rfl, show List.range 1 = [0] from rfl, softInitLoop,
      show liteCfg.pairAddr 0 = 8192 from rfl, hh, ht, if_neg (by decide), novaCheckJournalEntries,
      hh, ht, checkWalk, if_neg (by decide), if_pos hcheck, hnext, checkWalk, if_pos rfl]
    cases novaRecoverLiteJournal liteCfg 1 overlapCrash 8192 <;> rfl
  -- the rerun copies the inode from its replica as the copy before the crash left it
  have hrerun : (novaRecoverLiteJournal liteCfg 1 overlapCrash 8192).map
      (fun ops => (overlapCrash.run ops).bytes 40960) = some 2 := by decide
  refine ⟨by simp only [JournalRange]; decide, hsealed,
    inode_40960_misses_journal (by decide) (by decide), rfl,
    ⟨1, by decide, _, fun _ => by decide, fun L i ⟨o, ho, _, j, hij, hj, _⟩ => by omega, rfl⟩,
    by decide, fun r ops h heq => ?_⟩
  rw [hsoft] at h
  obtain ⟨ops', hops', hr⟩ := Option.map_eq_some'.mp h
  simp only [Prod.mk.injEq, List.append_nil] at hr
  rw [hops', Option.map_some', hr.2, congrFun heq 40960] at hrerun
  revert hrerun
  decide

end Nova
