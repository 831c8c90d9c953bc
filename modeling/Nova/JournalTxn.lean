import Mathlib.Data.List.Forall2
import Mathlib.Logic.Function.Iterate
import Nova.JournalInit

/-! What a lite transaction leaves in the journal, and how soft_init rolls back an interrupted
one. -/
namespace Nova

/-- The layout journal.h gives struct nova_lite_journal_entry, as journal.c relies on it:
32 bytes ("One page holds 128 entries"), the type and data fields apart from each other and
before the checksum, the padding inside the entry, and two entry types that fit their field. -/
structure LiteLayout (jc : JournalCfg) : Prop where
  size : jc.entrySize = 32
  type_end : jc.typeOff + 8 ≤ 28
  data1_end : jc.data1Off + 8 ≤ 28
  data2_end : jc.data2Off + 8 ≤ 28
  padding_end : jc.paddingOff + jc.paddingLen ≤ 32
  type_padding : jc.typeOff + 8 ≤ jc.paddingOff ∨ jc.paddingOff + jc.paddingLen ≤ jc.typeOff
  type_data1 : jc.typeOff + 8 ≤ jc.data1Off ∨ jc.data1Off + 8 ≤ jc.typeOff
  type_data2 : jc.typeOff + 8 ≤ jc.data2Off ∨ jc.data2Off + 8 ≤ jc.typeOff
  data1_data2 : jc.data1Off + 8 ≤ jc.data2Off ∨ jc.data2Off + 8 ≤ jc.data1Off
  types_ne : jc.journalInode ≠ jc.journalEntry
  inode_lt : jc.journalInode < 2 ^ 64
  entry_lt : jc.journalEntry < 2 ^ 64

theorem liteCfg_layout : LiteLayout liteCfg :=
  ⟨rfl, by decide, by decide, by decide, by decide, by decide, by decide, by decide, by decide,
    by decide, by decide, by decide⟩

theorem readLe_lt (f : Nat → UInt8) : ∀ (a n : Nat), readLe f a n < 256 ^ n
  | _, 0 => Nat.one_pos
  | a, n + 1 => by
    have := (f a).toNat_lt_size
    have := readLe_lt f (a + 1) n
    simp only [readLe, UInt8.size, Nat.pow_succ'] at *
    omega

theorem Pmem.run_store_bytes {m : Pmem} {l r : List Op} {a n x : Nat} {src : Nat → UInt8}
    (hx : a ≤ x ∧ x < a + n) (h : ∀ o ∈ r, ¬ o.Writes x) :
    (m.run (l ++ .store a n src :: r)).bytes x = src (x - a) := by
  rw [Pmem.run_append, Pmem.run_cons, Pmem.run_bytes_of_not_writes h]
  simp only [Pmem.step, Pmem.write_bytes, if_pos hx]

theorem readLe_run_store {m : Pmem} {l r : List Op} {a v : Nat}
    (h : ∀ o ∈ r, ∀ i < 8, ¬ o.Writes (a + i)) :
    readLe (m.run (l ++ .store a 8 (le v) :: r)).bytes a 8 = v % 2 ^ 64 := by
  rw [readLe_congr 8 (g := fun i => le v i) (b := 0) fun i hi => by
    rw [Pmem.run_store_bytes (by omega) fun o ho => h o ho i hi, Nat.add_sub_cancel_left,
      Nat.zero_add], readLe_le]
  rfl

section Entry
variable {jc : JournalCfg} (hl : LiteLayout jc)
include hl

theorem appendEntry_writes (m : Pmem) (currP type data1 : Nat) (data2 : Option Nat) :
    ∀ o ∈ (appendEntry jc m currP type data1 data2).1, ∀ y, o.Writes y → currP ≤ y ∧ y < currP + 32 := by
  have := hl.size; have := hl.type_end; have := hl.data1_end; have := hl.data2_end
  have := hl.padding_end
  cases data2 <;>
    simp only [appendEntry, novaUpdateEntryChecksum, Option.toList, List.map, List.cons_append,
      List.nil_append, List.mem_cons, List.mem_singleton, List.not_mem_nil, or_false] <;>
    rintro o (rfl | rfl | rfl | rfl | rfl) y hy <;> simp only [Op.Writes] at hy <;> omega

theorem appendEntry_decode (m : Pmem) (currP type data1 : Nat) (data2 : Option Nat) :
    novaCheckEntryIntegrity jc (m.run (appendEntry jc m currP type data1 data2).1) currP = true ∧
      entryType jc (m.run (appendEntry jc m currP type data1 data2).1) currP = type % 2 ^ 64 ∧
      entryData1 jc (m.run (appendEntry jc m currP type data1 data2).1) currP = data1 % 2 ^ 64 ∧
      ∀ d ∈ data2, entryData2 jc (m.run (appendEntry jc m currP type data1 data2).1) currP = d % 2 ^ 64 := by
  have := hl.size; have := hl.type_end; have := hl.data1_end; have := hl.data2_end
  have := hl.type_padding; have := hl.type_data1; have := hl.type_data2; have := hl.data1_data2
  refine ⟨?_, ?_⟩
  · simp only [appendEntry, Pmem.run_append, Pmem.run_cons, Pmem.run_nil]
    exact novaCheckEntryIntegrity_update jc _ _ (by omega)
  cases data2 <;>
    simp only [appendEntry, Option.toList, List.map_cons, List.map_nil, List.append_nil,
      List.cons_append, List.nil_append, Option.mem_def, reduceCtorEq, false_implies, implies_true,
      and_true, Option.some.injEq, forall_eq']
  · refine ⟨readLe_run_store (l := []) ?_, readLe_run_store (l := [_, _]) ?_⟩ <;>
      simp only [novaUpdateEntryChecksum, List.mem_cons, List.mem_singleton, List.not_mem_nil,
        or_false] <;>
      rintro o (rfl | rfl | rfl) i hi <;> simp only [Op.Writes] <;> omega
  · refine ⟨readLe_run_store (l := []) ?_, readLe_run_store (l := [_, _]) ?_,
      readLe_run_store (l := [_, _, _]) ?_⟩ <;>
      simp only [novaUpdateEntryChecksum, List.mem_cons, List.mem_singleton, List.not_mem_nil,
        or_false] <;>
      rintro o (rfl | rfl | rfl | rfl) i hi <;> simp only [Op.Writes] <;> omega

end Entry

/-- The bytes an item journals: an inode, or a 64-bit field. -/
def JournalItem.Target (jc : JournalCfg) : JournalItem → Nat → Prop
  | .inode pi _, y => pi ≤ y ∧ y < pi + jc.inodeSize
  | .field f, y => f ≤ y ∧ y < f + 8

/-- The bytes recovery copies an item back from: an inode's replica. -/
def JournalItem.Replica (jc : JournalCfg) : JournalItem → Nat → Prop
  | .inode _ alt, y => alt ≤ y ∧ y < alt + jc.inodeSize
  | .field _, _ => False

/-- An item's addresses fit the entry's 64-bit fields. -/
def JournalItem.Fits : JournalItem → Prop
  | .inode pi alt => pi < 2 ^ 64 ∧ alt < 2 ^ 64
  | .field f => f < 2 ^ 64

section Records
variable {jc : JournalCfg}

variable (jc) in
/-- The entry at `p` of `m'` is sealed and records `it`; a field's value is the one it had in
`m`. -/
def Records (m m' : Pmem) (p : Nat) : JournalItem → Prop
  | .inode pi alt => novaCheckEntryIntegrity jc m' p = true ∧ entryType jc m' p = jc.journalInode ∧
      entryData1 jc m' p = pi % 2 ^ 64 ∧ (jc.replicaInode = true → entryData2 jc m' p = alt % 2 ^ 64)
  | .field f => novaCheckEntryIntegrity jc m' p = true ∧ entryType jc m' p = jc.journalEntry ∧
      entryData1 jc m' p = f % 2 ^ 64 ∧ entryData2 jc m' p = readLe m.bytes f 8

theorem Records.sealed {m m' : Pmem} {p : Nat} : ∀ {it : JournalItem}, Records jc m m' p it →
    novaCheckEntryIntegrity jc m' p = true
  | .inode .., h => h.1
  | .field _, h => h.1

theorem Records.congr (hl : LiteLayout jc) {m m' m'' : Pmem} {p : Nat} {it : JournalItem}
    (h : Records jc m m' p it) (he : ∀ i < 32, m''.bytes (p + i) = m'.bytes (p + i)) :
    Records jc m m'' p it := by
  rw [← hl.size] at he
  obtain ⟨ht, h1, h2⟩ := entry_congr he
  cases it <;> simpa only [Records, novaCheckEntryIntegrity_congr he, ht, h1, h2] using h

theorem Records.rebase {m₀ m m' : Pmem} {p : Nat} : ∀ {it : JournalItem}, Records jc m m' p it →
    (∀ f, it = .field f → readLe m.bytes f 8 = readLe m₀.bytes f 8) → Records jc m₀ m' p it
  | .inode .., h, _ => h
  | .field f, h, hb => by rw [Records, ← hb f rfl]; exact h

theorem appendItem_records (hl : LiteLayout jc) (m : Pmem) (currP : Nat) :
    ∀ it, Records jc m (m.run (appendItem jc m currP it).1) currP it
  | .inode pi alt => by
    obtain ⟨hs, ht, h1, h2⟩ := appendEntry_decode hl m currP jc.journalInode pi
      (if jc.replicaInode then some alt else none)
    exact ⟨hs, ht.trans (Nat.mod_eq_of_lt hl.inode_lt), h1, fun hr => h2 alt (by simp [hr])⟩
  | .field f => by
    obtain ⟨hs, ht, h1, h2⟩ := appendEntry_decode hl m currP jc.journalEntry f
      (some (readLe m.bytes f 8))
    exact ⟨hs, ht.trans (Nat.mod_eq_of_lt hl.entry_lt), h1,
      (h2 _ rfl).trans (Nat.mod_eq_of_lt (readLe_lt m.bytes f 8))⟩

theorem appendItem_snd (m : Pmem) (currP : Nat) :
    ∀ it, (appendItem jc m currP it).2 = nextLiteJournal jc currP
  | .inode .. => rfl
  | .field _ => rfl

theorem appendItem_writes (hl : LiteLayout jc) (m : Pmem) (currP : Nat) :
    ∀ it, ∀ o ∈ (appendItem jc m currP it).1, ∀ y, o.Writes y → currP ≤ y ∧ y < currP + 32
  | .inode .. => appendEntry_writes hl _ _ _ _ _
  | .field _ => appendEntry_writes hl _ _ _ _ _

end Records

section Page
variable (jc : JournalCfg)

/-- The `n` entries from `p` on, along next_lite_journal. -/
def entriesFrom (p : Nat) : Nat → List Nat
  | 0 => []
  | n + 1 => p :: entriesFrom (nextLiteJournal jc p) n

variable {jc}

theorem entriesFrom_eq_map : ∀ (p n : Nat),
    entriesFrom jc p n = (List.range n).map fun i => (nextLiteJournal jc)^[i] p
  | _, 0 => rfl
  | p, n + 1 => by
    rw [entriesFrom, entriesFrom_eq_map _ n, List.range_succ_eq_map, List.map_cons, List.map_map]
    rfl

theorem iterate_nextLiteJournal (hs : jc.entrySize = 32) {p : Nat} (hp : p % 32 = 0) :
    ∀ i, (nextLiteJournal jc)^[i] p = p - p % 4096 + (p % 4096 + 32 * i) % 4096
  | 0 => by simp only [Function.iterate_zero, id_eq]; omega
  | i + 1 => by
    rw [Function.iterate_succ_apply', iterate_nextLiteJournal hs hp i, nextLiteJournal, hs]
    split_ifs <;> omega

theorem entriesFrom_on_page (hs : jc.entrySize = 32) {p n : Nat} (hp : p % 32 = 0) :
    ∀ q ∈ entriesFrom jc p n, ∀ i < 32, (q + i) / 4096 = p / 4096 := by
  simp only [entriesFrom_eq_map, List.mem_map, List.mem_range, iterate_nextLiteJournal hs hp]
  rintro _ ⟨j, -, rfl⟩ i hi
  omega

theorem entriesFrom_apart (hs : jc.entrySize = 32) {p n : Nat} (hp : p % 32 = 0) (hn : n < 128) :
    (entriesFrom jc p n).Pairwise (fun q q' => q + 32 ≤ q' ∨ q' + 32 ≤ q) ∧
    ∀ q ∈ entriesFrom jc p n, q ≠ (nextLiteJournal jc)^[n] p := by
  simp only [entriesFrom_eq_map, List.mem_map, List.mem_range, List.pairwise_map,
    iterate_nextLiteJournal hs hp]
  refine ⟨(List.pairwise_lt_range n).imp_of_mem fun hi hj hij => ?_, ?_⟩
  · have := List.mem_range.mp hi; have := List.mem_range.mp hj; omega
  · rintro _ ⟨j, hj, rfl⟩; omega

theorem entriesFrom_off_page (hs : jc.entrySize = 32) {p n : Nat} (hp : p % 32 = 0)
    {y : Nat} (hy : y / 4096 ≠ p / 4096) : ∀ q ∈ entriesFrom jc p n, ¬ (q ≤ y ∧ y < q + 32) :=
  fun q hq hin => hy (by rw [← entriesFrom_on_page hs hp q hq (y - q) (by omega),
    Nat.add_sub_cancel' hin.1])

theorem journalRange_entriesFrom : ∀ {p : Nat} (n : Nat),
    (∀ q ∈ entriesFrom jc p n, q ≠ (nextLiteJournal jc)^[n] p) →
    JournalRange jc ((nextLiteJournal jc)^[n] p) p (entriesFrom jc p n)
  | _, 0, _ => rfl
  | p, n + 1, h => ⟨rfl, h p (List.mem_cons_self _ _),
      journalRange_entriesFrom n fun q hq => h q (List.mem_cons_of_mem _ hq)⟩

end Page

section Items
variable {jc : JournalCfg} (hl : LiteLayout jc)
include hl

theorem appendItems_writes : ∀ (items : List JournalItem) (m : Pmem) (currP : Nat),
    ∀ o ∈ (appendItems jc m currP items).1, ∀ y, o.Writes y →
      ∃ q ∈ entriesFrom jc currP items.length, q ≤ y ∧ y < q + 32
  | [], _, _ => fun o h => absurd h (List.not_mem_nil o)
  | it :: its, m, currP => fun o ho y hy => by
    rcases List.mem_append.mp ho with ho | ho
    · exact ⟨currP, List.mem_cons_self _ _, appendItem_writes hl m currP it o ho y hy⟩
    · obtain ⟨q, hq, h⟩ := appendItems_writes its _ _ o ho y hy
      rw [appendItem_snd] at hq
      exact ⟨q, List.mem_cons_of_mem _ hq, h⟩

/-- The entries of a transaction's items, written one after the other from `currP` to entries
32 bytes apart: the walk ends `items.length` steps on, and each entry records its item, a
field's value as it was in `m₀` before the first entry. -/
theorem appendItems_spec (m₀ : Pmem) : ∀ (items : List JournalItem) (m : Pmem) (currP : Nat),
    (entriesFrom jc currP items.length).Pairwise (fun q q' => q + 32 ≤ q' ∨ q' + 32 ≤ q) →
    (∀ f, .field f ∈ items → ∀ i < 8, ∀ q ∈ entriesFrom jc currP items.length,
      ¬ (q ≤ f + i ∧ f + i < q + 32)) →
    (∀ f, .field f ∈ items → readLe m.bytes f 8 = readLe m₀.bytes f 8) →
    (appendItems jc m currP items).2 = (nextLiteJournal jc)^[items.length] currP ∧
    List.Forall₂ (Records jc m₀ (m.run (appendItems jc m currP items).1))
      (entriesFrom jc currP items.length) items
  | [], _, _, _, _, _ => ⟨rfl, .nil⟩
  | it :: its, m, currP, hpw, hfield, hbase => by
    obtain ⟨hapart, hpw⟩ := List.pairwise_cons.mp hpw
    have hw0 := appendItem_writes hl m currP it
    -- the first entry leaves every field of the others as it was
    have keep : ∀ f, .field f ∈ it :: its → readLe (m.run (appendItem jc m currP it).1).bytes f 8 =
        readLe m.bytes f 8 := fun f hf => readLe_congr 8 fun i hi =>
      Pmem.run_bytes_of_not_writes fun o ho hwr =>
        hfield f hf i hi currP (List.mem_cons_self _ _) (hw0 o ho _ hwr)
    obtain ⟨hend, hrec⟩ := appendItems_spec m₀ its _ (nextLiteJournal jc currP)
      hpw (fun f hf i hi q hq => hfield f (List.mem_cons_of_mem _ hf) i hi q (List.mem_cons_of_mem _ hq))
      (fun f hf => (keep f (List.mem_cons_of_mem _ hf)).trans (hbase f (List.mem_cons_of_mem _ hf)))
    have hw := appendItems_writes hl its (m.run (appendItem jc m currP it).1) (nextLiteJournal jc currP)
    simp only [appendItems, appendItem_snd] at hend hrec ⊢
    rw [Pmem.run_append]
    refine ⟨hend, .cons ?_ hrec⟩
    · refine ((appendItem_records hl m currP it).rebase fun f hf => ?_).congr hl fun i hi =>
        Pmem.run_bytes_of_not_writes fun o ho hwr => ?_
      · subst hf; exact hbase f (List.mem_cons_self _ _)
      · obtain ⟨q, hq, h⟩ := hw o ho _ hwr
        rcases hapart q hq with h' | h' <;> omega

end Items

theorem forall₂_exists_of_mem {α β : Type} {R : α → β → Prop} {l₁ : List α} {l₂ : List β} {a : α}
    (h : List.Forall₂ R l₁ l₂) (ha : a ∈ l₁) : ∃ b ∈ l₂, R a b := by
  induction h with
  | nil => exact absurd ha (List.not_mem_nil _)
  | cons hr _ ih =>
    rcases List.mem_cons.mp ha with rfl | ha
    · exact ⟨_, List.mem_cons_self _ _, hr⟩
    · obtain ⟨b, hb, h⟩ := ih ha
      exact ⟨b, List.mem_cons_of_mem _ hb, h⟩

section Create
variable {jc : JournalCfg}

theorem createTransaction_some {m : Pmem} {cpu : Nat} {items : List JournalItem} {ops : List Op}
    {tail : Nat} (h : createTransaction jc m cpu items = some (ops, tail)) :
    journalHead m (jc.pairAddr cpu) = journalTail m (jc.pairAddr cpu) ∧
    tail = (appendItems jc m (journalHead m (jc.pairAddr cpu)) items).2 ∧
    ops = (appendItems jc m (journalHead m (jc.pairAddr cpu)) items).1 ++
      [.store (jc.pairAddr cpu + 8) 8 (le tail), .flush (jc.pairAddr cpu) 64, .fence] := by
  dsimp only [createTransaction] at h
  split at h
  · cases h
  · rename_i hc
    obtain ⟨rfl, rfl⟩ := Prod.mk.inj (Option.some.inj h)
    simp only [not_or, not_not] at hc
    exact ⟨hc.2.2, rfl, rfl⟩

variable (hl : LiteLayout jc)
include hl

/-- A transaction of fewer than 128 items from an entry boundary, with the pointer pair and the
journaled fields off the journal page: journal_head stays, journal_tail is the end of the walk,
the entries between them record the items in order, and nothing else is stored to. -/
theorem createTransaction_spec {m : Pmem} {cpu : Nat} {items : List JournalItem} {ops : List Op}
    {tail : Nat} (h : createTransaction jc m cpu items = some (ops, tail)) (hlen : items.length < 128)
    (hal : journalHead m (jc.pairAddr cpu) % 32 = 0)
    (hpair : ∀ i < 16, (jc.pairAddr cpu + i) / 4096 ≠ journalHead m (jc.pairAddr cpu) / 4096)
    (hfield : ∀ f, .field f ∈ items → ∀ i < 8, (f + i) / 4096 ≠ journalHead m (jc.pairAddr cpu) / 4096) :
    journalHead m (jc.pairAddr cpu) = journalTail m (jc.pairAddr cpu) ∧
    journalHead (m.run ops) (jc.pairAddr cpu) = journalHead m (jc.pairAddr cpu) ∧
    journalTail (m.run ops) (jc.pairAddr cpu) = tail ∧
    JournalRange jc tail (journalHead m (jc.pairAddr cpu))
      (entriesFrom jc (journalHead m (jc.pairAddr cpu)) items.length) ∧
    List.Forall₂ (Records jc m (m.run ops)) (entriesFrom jc (journalHead m (jc.pairAddr cpu)) items.length)
      items ∧
    ∀ o ∈ ops, ∀ y, o.Writes y →
      (∃ q ∈ entriesFrom jc (journalHead m (jc.pairAddr cpu)) items.length, q ≤ y ∧ y < q + 32) ∨
        (jc.pairAddr cpu + 8 ≤ y ∧ y < jc.pairAddr cpu + 16) := by
  obtain ⟨hclosed, htail, rfl⟩ := createTransaction_some h
  have hon := entriesFrom_on_page (n := items.length) hl.size hal
  obtain ⟨hpw, hne⟩ := entriesFrom_apart hl.size hal hlen
  have off := fun y => entriesFrom_off_page (y := y) (n := items.length) hl.size hal
  obtain ⟨hend, hrec⟩ := appendItems_spec hl m items m _ hpw
    (fun f hf i hi => off _ (hfield f hf i hi)) fun _ _ => rfl
  have hw := appendItems_writes hl items m (journalHead m (jc.pairAddr cpu))
  rw [hend] at htail
  have hwr : ∀ o ∈ (appendItems jc m (journalHead m (jc.pairAddr cpu)) items).1 ++
      [.store (jc.pairAddr cpu + 8) 8 (le tail), .flush (jc.pairAddr cpu) 64, .fence], ∀ y, o.Writes y →
      (∃ q ∈ entriesFrom jc (journalHead m (jc.pairAddr cpu)) items.length, q ≤ y ∧ y < q + 32) ∨
        (jc.pairAddr cpu + 8 ≤ y ∧ y < jc.pairAddr cpu + 16) := by
    simp only [List.mem_append, List.mem_cons, List.mem_singleton, List.not_mem_nil, or_false]
    rintro o (ho | rfl | rfl | rfl) y hy
    · exact .inl (hw o ho y hy)
    · exact .inr hy
    · exact hy.elim
    · exact hy.elim
  have htail_lt : tail < 2 ^ 64 := by
    have := readLe_lt m.bytes (jc.pairAddr cpu) 8
    rw [htail, iterate_nextLiteJournal hl.size hal]
    unfold journalHead
    simp only [show (256 : Nat) ^ 8 = 2 ^ 64 from rfl] at this
    omega
  refine ⟨hclosed, readLe_congr 8 fun i hi => Pmem.run_bytes_of_not_writes fun o ho hy => ?_,
    (readLe_run_store fun o ho i hi => ?_).trans (Nat.mod_eq_of_lt htail_lt),
    htail ▸ journalRange_entriesFrom _ hne, ?_, hwr⟩
  · rcases hwr o ho _ hy with ⟨q, hq, hin⟩ | hin
    · exact off _ (hpair i (by omega)) q hq hin
    · omega
  · simp only [List.mem_cons, List.mem_singleton, List.not_mem_nil, or_false] at ho
    rcases ho with rfl | rfl <;> exact id
  · refine ((List.forall₂_and_left _ _).mpr ⟨fun q hq => hq, hrec⟩).imp fun q it ⟨hq, hr⟩ =>
      hr.congr hl fun i hi => ?_
    rw [Pmem.run_append]
    refine Pmem.run_bytes_of_not_writes fun o ho hy => ?_
    simp only [List.mem_cons, List.mem_singleton, List.not_mem_nil, or_false] at ho
    rcases ho with rfl | rfl | rfl
    · have := hon q hq i hi
      exact hpair (q + i - jc.pairAddr cpu) (by simp only [Op.Writes] at hy; omega)
        (by rw [Nat.add_sub_cancel' (by simp only [Op.Writes] at hy; omega)]; exact this)
    · exact hy
    · exact hy

/-- The round trip of a lite transaction: the entries nova_create_*_transaction leaves between
journal_head and journal_tail record its items in order, a field with the value it had before,
and nova_check_journal_entries accepts them. -/
theorem create_transaction_round_trip {m : Pmem} {cpu : Nat} {items : List JournalItem}
    {ops : List Op} {tail : Nat} (h : createTransaction jc m cpu items = some (ops, tail))
    (hlen : items.length < 128) (hal : journalHead m (jc.pairAddr cpu) % 32 = 0)
    (hpair : ∀ i < 16, (jc.pairAddr cpu + i) / 4096 ≠ journalHead m (jc.pairAddr cpu) / 4096)
    (hfield : ∀ f, .field f ∈ items → ∀ i < 8, (f + i) / 4096 ≠ journalHead m (jc.pairAddr cpu) / 4096) :
    ∃ ps, JournalRange jc (journalTail (m.run ops) (jc.pairAddr cpu))
        (journalHead (m.run ops) (jc.pairAddr cpu)) ps ∧
      List.Forall₂ (Records jc m (m.run ops)) ps items ∧
      ∀ fuel, items.length ≤ fuel → novaCheckJournalEntries jc fuel (m.run ops) (jc.pairAddr cpu) = some true := by
  obtain ⟨-, hh, ht, hr, hrec, -⟩ := createTransaction_spec hl h hlen hal hpair hfield
  refine ⟨_, by rw [hh, ht]; exact hr, hrec, fun fuel hf => ?_⟩
  rw [novaCheckJournalEntries, hh, ht]
  refine checkWalk_range hr (by rw [hrec.length_eq]; exact hf) fun p hp => ?_
  obtain ⟨it, -, hit⟩ := forall₂_exists_of_mem hrec hp
  exact hit.sealed

end Create

/-- nova_create_inode_transaction on the formatted journal, for the inodes at 40960 and 41088
with their replicas at 45056 and 45184: its stores and the new journal_tail. -/
def inodeTxn : List Op × Nat :=
  (novaCreateInodeTransaction liteCfg formattedJournal (40960, 45056) (41088, 45184) 0).getD ([], 0)

theorem novaCreateInodeTransaction_formatted :
    novaCreateInodeTransaction liteCfg formattedJournal (40960, 45056) (41088, 45184) 0 =
      some (inodeTxn.1, inodeTxn.2) := by
  have hh : journalHead formattedJournal 8192 = 409600 := by decide
  have ht : journalTail formattedJournal 8192 = 409600 := by decide
  simp only [inodeTxn, novaCreateInodeTransaction, createTransaction,
    show liteCfg.pairAddr 0 = 8192 from rfl, hh, ht]
  rfl

theorem create_inode_transaction_round_trip :
    ∃ ps, JournalRange liteCfg (journalTail (formattedJournal.run inodeTxn.1) (liteCfg.pairAddr 0))
        (journalHead (formattedJournal.run inodeTxn.1) (liteCfg.pairAddr 0)) ps ∧
      List.Forall₂ (Records liteCfg formattedJournal (formattedJournal.run inodeTxn.1)) ps
        [.inode 40960 45056, .inode 41088 45184] ∧
      ∀ fuel, 2 ≤ fuel →
        novaCheckJournalEntries liteCfg fuel (formattedJournal.run inodeTxn.1) (liteCfg.pairAddr 0) = some true :=
  create_transaction_round_trip liteCfg_layout novaCreateInodeTransaction_formatted (by decide)
    (by decide) (by decide) fun f hf => by simp at hf

section Recovery
variable {jc : JournalCfg}

theorem Crash.bytes_of_not_writes {m g : Pmem} {t : List Op} (hc : Crash m t g) {x : Nat}
    (h : ∀ o ∈ t, ¬ o.Writes x) : g.bytes x = m.bytes x := by
  obtain ⟨n, -, k, -, -, rfl⟩ := hc
  exact Pmem.run_bytes_of_not_writes fun o ho => h o (List.mem_of_mem_take ho)

theorem JournalRange.eq_nil {tail curr : Nat} {ps : List Nat} (h : JournalRange jc tail curr ps)
    (he : curr = tail) : ps = [] := by
  cases ps with
  | nil => rfl
  | cons p ps => exact absurd he h.2.1

theorem undoFold_restores {m : Pmem} {ps : List Nat} {x : Nat} {v : UInt8}
    (h : ∀ p ∈ ps, undoCovers jc m p x = true → undoByte jc m p x = v) : undoFold jc m ps v x = v := by
  induction ps with
  | nil => rfl
  | cons p ps ih =>
    have hp : (if undoCovers jc m p x then undoByte jc m p x else v) = v := by
      split_ifs with hc
      · exact h p (List.mem_cons_self _ _) hc
      · rfl
    simp only [undoFold, List.foldl_cons, hp]
    exact ih fun q hq => h q (List.mem_cons_of_mem _ hq)

variable (hl : LiteLayout jc)
include hl

theorem Records.undoCovers_iff {m m' : Pmem} {p : Nat} {it : JournalItem} (h : Records jc m m' p it)
    (hfit : it.Fits) (x : Nat) : undoCovers jc m' p x = true ↔ it.Target jc x := by
  cases it with
  | inode pi alt =>
    obtain ⟨-, ht, h1, -⟩ := h
    simp only [undoCovers, ht, h1, Nat.mod_eq_of_lt hfit.1, if_true, decide_eq_true_eq,
      JournalItem.Target]
  | field f =>
    obtain ⟨-, ht, h1, -⟩ := h
    simp only [undoCovers, ht, h1, Nat.mod_eq_of_lt (show f < 2 ^ 64 from hfit),
      if_neg hl.types_ne.symm, true_and, decide_eq_true_eq, JournalItem.Target]

theorem Records.undoSource_iff (hrep : jc.replicaInode = true) {m m' : Pmem} {p : Nat}
    {it : JournalItem} (h : Records jc m m' p it) (hfit : it.Fits) (y : Nat) :
    UndoSource jc m' p y ↔ it.Replica jc y := by
  cases it with
  | inode pi alt =>
    obtain ⟨-, ht, -, h2⟩ := h
    simp only [UndoSource, ht, h2 hrep, Nat.mod_eq_of_lt hfit.2, true_and, JournalItem.Replica]
  | field f =>
    obtain ⟨-, ht, -, -⟩ := h
    simp only [UndoSource, ht, hl.types_ne.symm, false_and, JournalItem.Replica]

theorem Records.undoByte_eq (hrep : jc.replicaInode = true) {m m' : Pmem} {p : Nat}
    {it : JournalItem} (h : Records jc m m' p it) (hfit : it.Fits) {x : Nat} (hx : it.Target jc x)
    (hsync : ∀ pi alt, it = .inode pi alt → m'.bytes (alt + (x - pi)) = m.bytes x) :
    undoByte jc m' p x = m.bytes x := by
  cases it with
  | inode pi alt =>
    obtain ⟨-, ht, h1, h2⟩ := h
    simp only [undoByte, ht, if_true, h1, h2 hrep, Nat.mod_eq_of_lt hfit.1, Nat.mod_eq_of_lt hfit.2]
    exact hsync pi alt rfl
  | field f =>
    obtain ⟨-, ht, h1, h2⟩ := h
    simp only [JournalItem.Target] at hx
    simp only [undoByte, ht, if_neg hl.types_ne.symm, h1, h2, Nat.mod_eq_of_lt (show f < 2 ^ 64 from hfit)]
    rw [le_readLe m.bytes f 8 (x - f) (by omega), Nat.add_sub_cancel' hx.1]

end Recovery

/-- What recovery needs of a transaction's items, for the CPU whose journal page holds `head`
among `cpus`, in the memory `m` the transaction starts from: the pointer pairs lie off the
journal page; every address fits its field; the targets and replicas lie off the journal page
and off every pointer pair; no replica meets a target; each replica holds a copy of its inode. -/
structure Undoable (jc : JournalCfg) (m : Pmem) (cpus head : Nat) (items : List JournalItem) :
    Prop where
  pairs_off_page : ∀ j < cpus, ∀ i < 16, (jc.pairAddr j + i) / 4096 ≠ head / 4096
  fits : ∀ it ∈ items, it.Fits
  off_page : ∀ it ∈ items, ∀ y, it.Target jc y ∨ it.Replica jc y → y / 4096 ≠ head / 4096
  off_pairs : ∀ it ∈ items, ∀ y, it.Target jc y ∨ it.Replica jc y →
    ∀ j < cpus, ¬ (jc.pairAddr j ≤ y ∧ y < jc.pairAddr j + 16)
  replicas_apart : ∀ it ∈ items, ∀ it' ∈ items, ∀ y, it.Replica jc y → ¬ it'.Target jc y
  in_sync : ∀ pi alt, .inode pi alt ∈ items → ∀ i < jc.inodeSize, m.bytes (alt + i) = m.bytes (pi + i)

/-- What a crash of a transaction started from `m` leaves on the medium `g` when it keeps the
entries `ps` and journal_tail: the entries record the items between journal_head and
journal_tail, the other journals are closed, and every other untargeted byte is as in `m`. -/
structure Interrupted (jc : JournalCfg) (m g : Pmem) (cpu cpus : Nat) (ps : List Nat)
    (items : List JournalItem) : Prop where
  closed : journalHead m (jc.pairAddr cpu) = journalTail m (jc.pairAddr cpu)
  head : journalHead g (jc.pairAddr cpu) = journalHead m (jc.pairAddr cpu)
  range : JournalRange jc (journalTail g (jc.pairAddr cpu)) (journalHead g (jc.pairAddr cpu)) ps
  on_page : ∀ q ∈ ps, ∀ i < 32, (q + i) / 4096 = journalHead m (jc.pairAddr cpu) / 4096
  records : List.Forall₂ (Records jc m g) ps items
  others : ∀ j ∈ List.range cpus, j ≠ cpu → journalHead g (jc.pairAddr j) = journalTail g (jc.pairAddr j)
  agree : ∀ x, (∀ q ∈ ps, ¬ (q ≤ x ∧ x < q + 32)) →
    ¬ (jc.pairAddr cpu + 8 ≤ x ∧ x < jc.pairAddr cpu + 16) → (∀ it ∈ items, ¬ it.Target jc x) →
    g.bytes x = m.bytes x

theorem pair_congr {m m' : Pmem} {pair : Nat} (h : ∀ i < 16, m'.bytes (pair + i) = m.bytes (pair + i)) :
    journalHead m' pair = journalHead m pair ∧ journalTail m' pair = journalTail m pair :=
  ⟨readLe_congr 8 fun i hi => h i (by omega),
    readLe_congr 8 fun i hi => by rw [Nat.add_assoc]; exact h _ (by omega)⟩

section Interrupted
variable {jc : JournalCfg} {m g : Pmem} {cpu cpus : Nat} {ps : List Nat} {items : List JournalItem}

theorem Interrupted.not_entry (hi : Interrupted jc m g cpu cpus ps items) {y : Nat}
    (hy : y / 4096 ≠ journalHead m (jc.pairAddr cpu) / 4096) : ∀ q ∈ ps, ¬ (q ≤ y ∧ y < q + 32) :=
  fun q hq hin => hy (by rw [← hi.on_page q hq (y - q) (by omega), Nat.add_sub_cancel' hin.1])

theorem Interrupted.replica (hi : Interrupted jc m g cpu cpus ps items) (hcpu : cpu < cpus)
    (hu : Undoable jc m cpus (journalHead m (jc.pairAddr cpu)) items) :
    ∀ it ∈ items, ∀ y, it.Replica jc y → g.bytes y = m.bytes y := fun it hit y hy =>
  hi.agree y (hi.not_entry (hu.off_page it hit y (.inr hy)))
    (fun hin => hu.off_pairs it hit y (.inr hy) cpu hcpu ⟨by omega, by omega⟩)
    fun it' hit' => hu.replicas_apart it hit it' hit' y hy

theorem Interrupted.undoFold_eq (hl : LiteLayout jc) (hrep : jc.replicaInode = true)
    (hi : Interrupted jc m g cpu cpus ps items) (hcpu : cpu < cpus)
    (hu : Undoable jc m cpus (journalHead m (jc.pairAddr cpu)) items) {x : Nat}
    (hx : ∀ q ∈ ps, ¬ (q ≤ x ∧ x < q + 32)) (htf : ¬ (jc.pairAddr cpu + 8 ≤ x ∧ x < jc.pairAddr cpu + 16)) :
    undoFold jc g ps (g.bytes x) x = m.bytes x := by
  by_cases hcx : ∃ p ∈ ps, undoCovers jc g p x = true
  · -- a journaled byte: every entry that covers it puts back what `m` held
    rw [undoFold_of_covers hcx _ (m.bytes x)]
    refine undoFold_restores fun p hp hpx => ?_
    obtain ⟨it, hit, hr⟩ := forall₂_exists_of_mem hi.records hp
    have htg := (hr.undoCovers_iff hl (hu.fits it hit) x).mp hpx
    refine hr.undoByte_eq hl hrep (hu.fits it hit) htg fun pi alt he => ?_
    subst he
    simp only [JournalItem.Target] at htg
    rw [hi.replica hcpu hu _ hit _ ⟨by omega, by omega⟩, hu.in_sync pi alt hit _ (by omega),
      Nat.add_sub_cancel' htg.1]
  · -- a byte no entry covers: no item's, so the caller never stored to it
    rw [undoFold_of_not_covers fun p hp => Bool.eq_false_iff.mpr fun h => hcx ⟨p, hp, h⟩]
    refine hi.agree x hx htf fun it hit htg => hcx ?_
    obtain ⟨p, hp, hr⟩ :=
      forall₂_exists_of_mem (List.Forall₂.flip (R := flip (Records jc m g)) hi.records) hit
    exact ⟨p, hp, (hr.undoCovers_iff hl (hu.fits it hit) x).mpr htg⟩

end Interrupted

section Rollback
variable {jc : JournalCfg} (hl : LiteLayout jc)
include hl

/-- A crash after nova_create_*_transaction and caller stores confined to the journaled bytes,
which keeps the new journal_tail and the entries, leaves an interrupted transaction. -/
theorem interrupted_of_crash {m g : Pmem} {cpu cpus : Nat} {items : List JournalItem}
    {ops upd : List Op} {tail : Nat}
    (h : createTransaction jc m cpu items = some (ops, tail)) (hcpu : cpu < cpus)
    (hlen : items.length < 128) (hal : journalHead m (jc.pairAddr cpu) % 32 = 0)
    (hu : Undoable jc m cpus (journalHead m (jc.pairAddr cpu)) items)
    (hothers : ∀ j < cpus, j ≠ cpu → journalHead m (jc.pairAddr j) = journalTail m (jc.pairAddr j))
    (hupd : ∀ o ∈ upd, ∀ y, o.Writes y → ∃ it ∈ items, it.Target jc y)
    (hc : Crash m (ops ++ upd) g) (hgt : journalTail g (jc.pairAddr cpu) = tail)
    (hent : ∀ q ∈ entriesFrom jc (journalHead m (jc.pairAddr cpu)) items.length, ∀ i < 32,
      g.bytes (q + i) = (m.run ops).bytes (q + i)) :
    Interrupted jc m g cpu cpus (entriesFrom jc (journalHead m (jc.pairAddr cpu)) items.length) items := by
  have hoff := fun y => entriesFrom_off_page (y := y) (n := items.length) hl.size hal
  obtain ⟨hclosed, -, -, hr, hrec, hw⟩ := createTransaction_spec hl h hlen hal (hu.pairs_off_page cpu hcpu)
    fun f hf i hi => hu.off_page _ hf _ (.inl ⟨by omega, by omega⟩)
  have agree : ∀ x, (∀ q ∈ entriesFrom jc (journalHead m (jc.pairAddr cpu)) items.length,
      ¬ (q ≤ x ∧ x < q + 32)) → ¬ (jc.pairAddr cpu + 8 ≤ x ∧ x < jc.pairAddr cpu + 16) →
      (∀ it ∈ items, ¬ it.Target jc x) → g.bytes x = m.bytes x := fun x he ht htg =>
    hc.bytes_of_not_writes fun o ho hwx => by
      rcases List.mem_append.mp ho with ho | ho
      · rcases hw o ho x hwx with ⟨q, hq, hin⟩ | hin
        · exact he q hq hin
        · exact ht hin
      · obtain ⟨it, hit, hx⟩ := hupd o ho x hwx
        exact htg it hit hx
  -- the pointer pairs are as they were, but for this CPU's journal_tail
  have hpairs : ∀ j < cpus, ∀ i < 16, (j ≠ cpu ∨ i < 8) →
      g.bytes (jc.pairAddr j + i) = m.bytes (jc.pairAddr j + i) := fun j hj i hi hji =>
    agree _ (hoff _ (hu.pairs_off_page j hj i hi))
      (fun hin => by
        by_cases hjc : j = cpu
        · subst hjc; omega
        · rcases jc.pairs_apart j cpu hjc with h' | h' <;> omega)
      fun it hit htg => hu.off_pairs it hit _ (.inl htg) j hj ⟨by omega, by omega⟩
  have hhead : journalHead g (jc.pairAddr cpu) = journalHead m (jc.pairAddr cpu) :=
    readLe_congr 8 fun i hi => hpairs cpu hcpu i (by omega) (.inr hi)
  refine ⟨hclosed, hhead, by rw [hhead, hgt]; exact hr, entriesFrom_on_page hl.size hal,
    ((List.forall₂_and_left _ _).mpr ⟨fun q hq => hq, hrec⟩).imp fun q _ ⟨hq, hr⟩ =>
      hr.congr hl (hent q hq), fun j hj hjc => ?_, agree⟩
  have hj := List.mem_range.mp hj
  have hp := pair_congr fun i hi => hpairs j hj i hi (.inl hjc)
  rw [hp.1, hp.2]
  exact hothers j hj hjc

/-- nova_lite_journal_soft_init on an interrupted transaction, with replica_inode set, brings
every byte outside the entries back to what it was before the transaction. -/
theorem softInit_of_interrupted (hrep : jc.replicaInode = true) {m g : Pmem} {cpu cpus fuel : Nat}
    {ret0 : Int} {ps : List Nat} {items : List JournalItem} (hcpu : cpu < cpus)
    (hu : Undoable jc m cpus (journalHead m (jc.pairAddr cpu)) items)
    (hi : Interrupted jc m g cpu cpus ps items) (hf : items.length ≤ fuel) :
    ∃ r ops', novaLiteJournalSoftInit jc fuel true cpus ret0 g = some (r, ops') ∧
      ∀ x, (∀ q ∈ ps, ¬ (q ≤ x ∧ x < q + 32)) → (g.run ops').bytes x = m.bytes x := by
  -- journal_tail's bytes in `m` encode journal_head: the journal was closed
  have htailm : ∀ x, jc.pairAddr cpu + 8 ≤ x → x < jc.pairAddr cpu + 16 →
      le (journalHead m (jc.pairAddr cpu)) (x - (jc.pairAddr cpu + 8)) = m.bytes x := fun x h1 h2 => by
    rw [hi.closed, journalTail, le_readLe _ _ _ _ (by omega), Nat.add_sub_cancel' h1]
  by_cases hne : journalHead g (jc.pairAddr cpu) = journalTail g (jc.pairAddr cpu)
  · -- nothing was journaled: the journal is closed on the medium too
    have hnil : items = [] := List.length_eq_zero.mp (hi.records.length_eq.symm.trans
      (congrArg List.length (hi.range.eq_nil hne)))
    subst hnil
    refine ⟨ret0, [], ?_, fun x hx => ?_⟩
    · simp only [novaLiteJournalSoftInit, if_true]
      exact softInitLoop_skip fun j hj => by
        by_cases hjc : j = cpu
        · subst hjc; exact hne
        · exact hi.others j hj hjc
    · by_cases htf : jc.pairAddr cpu + 8 ≤ x ∧ x < jc.pairAddr cpu + 16
      · have := readLe_inj 8 (hne.symm.trans (hi.head.trans hi.closed)) (x - (jc.pairAddr cpu + 8))
          (by omega)
        rwa [Nat.add_sub_cancel' htf.1] at this
      · exact hi.agree x hx htf fun _ h => absurd h (List.not_mem_nil _)
  -- recovery undoes the entries, which pass their check
  have hitem : ∀ p ∈ ps, ∃ it ∈ items, Records jc m g p it := fun p hp =>
    forall₂_exists_of_mem hi.records hp
  have hcov : ∀ p ∈ ps, ∀ x, undoCovers jc g p x = true → ∃ it ∈ items, it.Target jc x :=
    fun p hp x hx => by
      obtain ⟨it, hit, hr⟩ := hitem p hp
      exact ⟨it, hit, (hr.undoCovers_iff hl (hu.fits it hit) x).mp hx⟩
  have hfps : ps.length ≤ fuel := by rw [hi.records.length_eq]; exact hf
  obtain ⟨ops', hrec', hb, hw'⟩ := novaRecoverLiteJournal_spec hrep hi.range hfps
    (fun p hp x hx => by
      obtain ⟨it, hit, htg⟩ := hcov p hp x hx
      exact ⟨hu.off_pairs it hit x (.inl htg) cpu hcpu,
        by rw [hl.size]; exact hi.not_entry (hu.off_page it hit x (.inl htg))⟩)
    (fun p hp q hq _ x hx hs => by
      obtain ⟨it, hit, htg⟩ := hcov p hp x hx
      obtain ⟨it', hit', hr'⟩ := hitem q hq
      exact hu.replicas_apart it' hit' it hit x ((hr'.undoSource_iff hl hrep (hu.fits it' hit') x).mp hs) htg)
    (fun _ _ _ _ => rfl) (fun _ _ _ _ => rfl) (fun _ _ => rfl)
  have hchk : novaCheckJournalEntries jc fuel g (jc.pairAddr cpu) = some true := by
    rw [novaCheckJournalEntries]
    refine checkWalk_range hi.range hfps fun p hp => ?_
    obtain ⟨it, -, hr⟩ := hitem p hp
    exact hr.sealed
  -- recovery stores only to targets and to this CPU's journal_tail: the other pairs stay closed
  have hafter : ∀ j ∈ List.range cpus, j ≠ cpu →
      journalHead (g.run ops') (jc.pairAddr j) = journalTail (g.run ops') (jc.pairAddr j) := by
    intro j hj hjc
    have keep : ∀ i < 16, (g.run ops').bytes (jc.pairAddr j + i) = g.bytes (jc.pairAddr j + i) :=
      fun i hi => Pmem.run_bytes_of_not_writes fun o ho hwr => by
        rcases hw' o ho _ hwr with ⟨p, hp, hx⟩ | hx
        · obtain ⟨it, hit, htg⟩ := hcov p hp _ hx
          exact hu.off_pairs it hit _ (.inl htg) j (List.mem_range.mp hj) ⟨by omega, by omega⟩
        · rcases jc.pairs_apart j cpu hjc with h' | h' <;> omega
    rw [(pair_congr keep).1, (pair_congr keep).2]
    exact hi.others j hj hjc
  refine ⟨0, ops', ?_, fun x hx => ?_⟩
  · simp only [novaLiteJournalSoftInit, if_true]
    exact softInitLoop_one hne hchk hrec' (List.nodup_range cpus) (List.mem_range.mpr hcpu) hi.others hafter
  rw [hb]
  split_ifs with htf
  · rw [hi.head]; exact htailm x htf.1 htf.2
  · exact hi.undoFold_eq hl hrep hcpu hu hx htf

/-- A transaction interrupted by a crash that kept its entries and journal_tail is rolled back at
mount: soft_init brings every byte outside the entries back to what it was before the
transaction, whatever the caller stored to the journaled bytes. -/
theorem interrupted_transaction_rolls_back (hrep : jc.replicaInode = true) {m g : Pmem}
    {cpu cpus fuel : Nat} {ret0 : Int} {items : List JournalItem} {ops upd : List Op} {tail : Nat}
    (h : createTransaction jc m cpu items = some (ops, tail)) (hcpu : cpu < cpus)
    (hlen : items.length < 128) (hal : journalHead m (jc.pairAddr cpu) % 32 = 0)
    (hu : Undoable jc m cpus (journalHead m (jc.pairAddr cpu)) items)
    (hothers : ∀ j < cpus, j ≠ cpu → journalHead m (jc.pairAddr j) = journalTail m (jc.pairAddr j))
    (hupd : ∀ o ∈ upd, ∀ y, o.Writes y → ∃ it ∈ items, it.Target jc y) (hf : items.length ≤ fuel)
    (hc : Crash m (ops ++ upd) g) (hgt : journalTail g (jc.pairAddr cpu) = tail)
    (hent : ∀ q ∈ entriesFrom jc (journalHead m (jc.pairAddr cpu)) items.length, ∀ i < 32,
      g.bytes (q + i) = (m.run ops).bytes (q + i)) :
    ∃ r ops', novaLiteJournalSoftInit jc fuel true cpus ret0 g = some (r, ops') ∧
      ∀ x, (∀ q ∈ entriesFrom jc (journalHead m (jc.pairAddr cpu)) items.length, ¬ (q ≤ x ∧ x < q + 32)) →
        (g.run ops').bytes x = m.bytes x :=
  softInit_of_interrupted hl hrep hcpu hu
    (interrupted_of_crash hl h hcpu hlen hal hu hothers hupd hc hgt hent) hf

end Rollback

/-- The medium after a crash once the transaction and the caller's store of 7s over the first
inode have all reached it. -/
def inodeTxnCrash : Pmem :=
  formattedJournal.image (inodeTxn.1 ++ [Op.store 40960 128 (fun _ => 7)])
    fun _ => (inodeTxn.1 ++ [Op.store 40960 128 (fun _ => 7)]).length

theorem inode_transaction_rolls_back :
    ∃ r ops', novaLiteJournalSoftInit liteCfg 2 true 1 0 inodeTxnCrash = some (r, ops') ∧
      ∀ x, (∀ q ∈ entriesFrom liteCfg (journalHead formattedJournal (liteCfg.pairAddr 0)) 2,
        ¬ (q ≤ x ∧ x < q + 32)) → (inodeTxnCrash.run ops').bytes x = formattedJournal.bytes x := by
  have hh : journalHead formattedJournal (liteCfg.pairAddr 0) = 409600 := by decide
  have hzero : ∀ x, 8208 ≤ x → formattedJournal.bytes x = 0 := fun x hx => by
    show (zeroPmem.run [.store (8192 + 8) 8 (le 409600), .store 8192 8 (le 409600), .flush 8192 64,
      .fence]).bytes x = 0
    simp only [Pmem.run_cons, Pmem.run_nil, Pmem.step, Pmem.write_bytes]
    rw [if_neg (by omega), if_neg (by omega)]; rfl
  have hitems : ∀ it ∈ [JournalItem.inode 40960 45056, .inode 41088 45184],
      it = .inode 40960 45056 ∨ it = .inode 41088 45184 := by simp
  refine interrupted_transaction_rolls_back liteCfg_layout rfl novaCreateInodeTransaction_formatted
    (by decide) (by decide) (by decide)
    ⟨by decide, by simp [JournalItem.Fits], fun it hit y hy => ?_, fun it hit y hy j hj => ?_,
      fun it hit it' hit' y hy => ?_, fun pi alt hit i hi => ?_⟩
    (fun j hj hj0 => absurd (Nat.lt_one_iff.mp hj) hj0)
    (fun o ho y hy => ⟨.inode 40960 45056, List.mem_cons_self _ _, ?_⟩) (by decide) (crash_full _ _)
    (by decide) fun q hq i hi => ?_
  · rw [hh]
    rcases hitems it hit with rfl | rfl <;>
      simp only [JournalItem.Target, JournalItem.Replica, liteCfg] at hy <;> omega
  · rcases hitems it hit with rfl | rfl <;>
      simp only [JournalItem.Target, JournalItem.Replica, liteCfg] at hy ⊢ <;> omega
  · rcases hitems it hit with rfl | rfl <;> rcases hitems it' hit' with rfl | rfl <;>
      simp only [JournalItem.Target, JournalItem.Replica, liteCfg] at hy ⊢ <;> omega
  · simp only [List.mem_cons, List.mem_singleton, JournalItem.inode.injEq, List.not_mem_nil,
      or_false] at hit
    rcases hit with ⟨rfl, rfl⟩ | ⟨rfl, rfl⟩ <;> rw [hzero _ (by omega), hzero _ (by omega)]
  · simp only [List.mem_singleton] at ho
    subst ho; exact hy
  · show (formattedJournal.run ((inodeTxn.1 ++ [Op.store 40960 128 (fun _ => 7)]).take
      (inodeTxn.1 ++ [Op.store 40960 128 (fun _ => 7)]).length)).bytes (q + i) = _
    rw [List.take_length, Pmem.run_append]
    rw [hh] at hq
    replace hq : q ∈ [409600, 409632] := hq
    refine Pmem.run_bytes_of_not_writes fun o ho hw => ?_
    simp only [List.mem_singleton] at ho
    subst ho
    simp only [List.mem_cons, List.mem_singleton, List.not_mem_nil, or_false] at hq
    simp only [Op.Writes] at hw
    omega

end Nova
