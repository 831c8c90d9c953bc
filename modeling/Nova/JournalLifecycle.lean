import Nova.JournalTxn

/-! The two ends of a lite journal's life: hard_init leaves every journal closed, and so does a
crash after a commit. -/
namespace Nova

section HardInit
variable {jc : JournalCfg} {alloc : Nat → Int × Nat}

/-- What nova_lite_journal_hard_init needs of each CPU: a pointer pair, and one block from
nova_new_log_blocks, not block 0, whose offset fits 64 bits. -/
def AllocOk (jc : JournalCfg) (alloc : Nat → Int × Nat) (i : Nat) : Prop :=
  jc.pairAddr i ≠ 0 ∧ (alloc i).1 = 1 ∧ (alloc i).2 ≠ 0 ∧ (alloc i).2 * 4096 < 2 ^ 64

theorem hardInitLoop_ok : ∀ {is : List Nat}, (∀ i ∈ is, AllocOk jc alloc i) →
    (hardInitLoop jc alloc is).1 = none
  | [], _ => rfl
  | i :: is, h => by
    obtain ⟨hp, h1, h2, -⟩ := h i (List.mem_cons_self _ _)
    simp only [hardInitLoop, hp, h1, h2, if_false, ne_eq, not_true_eq_false, or_self]
    exact hardInitLoop_ok fun j hj => h j (List.mem_cons_of_mem _ hj)

theorem hardInitLoop_writes : ∀ {is : List Nat} {o : Op}, o ∈ (hardInitLoop jc alloc is).2 →
    ∀ y, o.Writes y → ∃ i ∈ is, o = .store (jc.pairAddr i + 8) 8 (le ((alloc i).2 * 4096)) ∨
      o = .store (jc.pairAddr i) 8 (le ((alloc i).2 * 4096))
  | [], o, h => absurd h (List.not_mem_nil o)
  | i :: is, o, h => fun y hy => by
    simp only [hardInitLoop] at h
    split_ifs at h
    · exact absurd h (List.not_mem_nil o)
    · exact absurd h (List.not_mem_nil o)
    simp only [List.mem_append, List.mem_cons, List.mem_singleton, List.not_mem_nil,
      or_false] at h
    rcases h with ((((h | rfl | rfl | rfl) | h)) | h)
    · exact absurd hy (not_writes_of_mem_memunlockRange h)
    · exact ⟨i, List.mem_cons_self _ _, .inl rfl⟩
    · exact ⟨i, List.mem_cons_self _ _, .inr rfl⟩
    · exact hy.elim
    · exact absurd hy (not_writes_of_mem_memlockRange h)
    · obtain ⟨j, hj, ho⟩ := hardInitLoop_writes h y hy
      exact ⟨j, List.mem_cons_of_mem _ hj, ho⟩

theorem store_mem_hardInitLoop : ∀ {is : List Nat}, (∀ i ∈ is, AllocOk jc alloc i) → ∀ j ∈ is,
    Op.store (jc.pairAddr j + 8) 8 (le ((alloc j).2 * 4096)) ∈ (hardInitLoop jc alloc is).2 ∧
      Op.store (jc.pairAddr j) 8 (le ((alloc j).2 * 4096)) ∈ (hardInitLoop jc alloc is).2
  | [], _, j, hj => absurd hj (List.not_mem_nil j)
  | i :: is, h, j, hj => by
    obtain ⟨hp, h1, h2, -⟩ := h i (List.mem_cons_self _ _)
    simp only [hardInitLoop, hp, h1, h2, if_false, ne_eq, not_true_eq_false, or_self,
      List.mem_append, List.mem_cons, List.mem_singleton]
    rcases List.mem_cons.mp hj with rfl | hj
    · exact ⟨.inl (.inl (.inr (.inl rfl))), .inl (.inl (.inr (.inr (.inl rfl))))⟩
    · obtain ⟨h1', h2'⟩ := store_mem_hardInitLoop (fun k hk => h k (List.mem_cons_of_mem _ hk)) j hj
      exact ⟨.inr h1', .inr h2'⟩

theorem flushesByte_pair_stores (p b x : Nat) :
    FlushesByte x [.store (p + 8) 8 (le b), .store p 8 (le b), .flush p 64] :=
  ⟨fun hw => .inr ⟨.flush p 64, by simp, by simp only [Op.Writes] at hw; simp only [Op.Schedules]; omega⟩,
    fun hw => .inr ⟨.flush p 64, by simp, by simp only [Op.Writes] at hw; simp only [Op.Schedules]; omega⟩,
    fun hw => hw.elim, trivial⟩

theorem hardInitLoop_flushes (x : Nat) : ∀ is : List Nat, FlushesByte x (hardInitLoop jc alloc is).2
  | [] => trivial
  | i :: is => by
    simp only [hardInitLoop]
    split_ifs
    · trivial
    · trivial
    exact (((FlushesByte.of_not_writes fun o ho => not_writes_of_mem_memunlockRange ho).append
      (flushesByte_pair_stores _ _ x)).append
        (FlushesByte.of_not_writes fun o ho => not_writes_of_mem_memlockRange ho)).append
          (hardInitLoop_flushes x is)

theorem hardInitLoop_pair {is : List Nat} (h : ∀ i ∈ is, AllocOk jc alloc i) {j : Nat} (hj : j ∈ is)
    (m : Pmem) :
    journalHead (m.run (hardInitLoop jc alloc is).2) (jc.pairAddr j) = (alloc j).2 * 4096 ∧
      journalTail (m.run (hardInitLoop jc alloc is).2) (jc.pairAddr j) = (alloc j).2 * 4096 := by
  have hbyte : ∀ i < 16, (m.run (hardInitLoop jc alloc is).2).bytes (jc.pairAddr j + i) =
      le ((alloc j).2 * 4096) (i % 8) := fun i hi => by
    rw [Pmem.run_bytes_of_writers (fun o ho hw m' => ?_) m]
    · obtain ⟨hs1, hs2⟩ := store_mem_hardInitLoop h j hj
      rw [if_pos]
      by_cases hi8 : i < 8
      · exact ⟨_, hs2, by simp only [Op.Writes]; omega⟩
      · exact ⟨_, hs1, by simp only [Op.Writes]; omega⟩
    · obtain ⟨k, -, rfl | rfl⟩ := hardInitLoop_writes ho _ hw <;>
        simp only [Op.Writes] at hw <;>
        obtain rfl : k = j := by
          by_contra hkj; rcases jc.pairs_apart k j hkj with h' | h' <;> omega
      all_goals
        simp only [Pmem.step, Pmem.write_bytes]
        rw [if_pos hw]
        congr 1
        omega
  have hlt := (h j hj).2.2.2
  constructor
  · rw [journalHead, readLe_congr 8 (g := fun i => le ((alloc j).2 * 4096) i) (b := 0) fun i hi => by
      rw [hbyte i (by omega), Nat.mod_eq_of_lt hi, Nat.zero_add], readLe_le]
    exact Nat.mod_eq_of_lt hlt
  · rw [journalTail, readLe_congr 8 (g := fun i => le ((alloc j).2 * 4096) i) (b := 0) fun i hi => by
      rw [Nat.add_assoc, hbyte (8 + i) (by omega), Nat.add_mod_left, Nat.mod_eq_of_lt hi, Nat.zero_add],
      readLe_le]
    exact Nat.mod_eq_of_lt hlt

/-- A medium whose pointer pairs read as the loop left them has every journal closed:
nova_lite_journal_soft_init returns ret and undoes nothing. -/
theorem softInit_of_formatted {cpus fuel : Nat} {m g : Pmem} (r : Int)
    (h : ∀ i ∈ List.range cpus, AllocOk jc alloc i)
    (hg : ∀ j < cpus, ∀ i < 16, g.bytes (jc.pairAddr j + i) =
      (m.run (hardInitLoop jc alloc (List.range cpus)).2).bytes (jc.pairAddr j + i)) :
    novaLiteJournalSoftInit jc fuel true cpus r g = some (r, []) := by
  simp only [novaLiteJournalSoftInit, if_true]
  refine softInitLoop_skip fun j hj => ?_
  have hj := List.mem_range.mp hj
  have hp := hardInitLoop_pair h (List.mem_range.mpr hj) m
  rw [(pair_congr (hg j hj)).1, (pair_congr (hg j hj)).2, hp.1, hp.2]

/-- With a pair and a block for every CPU, hard_init issues the loop's stores and the barrier,
and returns the value ret had: the soft_init it ends with finds every journal closed. -/
theorem novaLiteJournalHardInit_ok {fuel cpus : Nat} {ret0 : Int} {m : Pmem}
    (h : ∀ i ∈ List.range cpus, AllocOk jc alloc i) :
    novaLiteJournalHardInit jc alloc fuel true cpus ret0 m =
      some (ret0, (hardInitLoop jc alloc (List.range cpus)).2 ++ [.fence]) := by
  have hrun : novaLiteJournalSoftInit jc fuel true cpus ret0
      (m.run ((hardInitLoop jc alloc (List.range cpus)).2 ++ [.fence])) = some (ret0, []) :=
    softInit_of_formatted ret0 h fun j _ i _ => by rw [Pmem.run_append]; rfl
  rw [novaLiteJournalHardInit, show hardInitLoop jc alloc (List.range cpus) =
    (none, (hardInitLoop jc alloc (List.range cpus)).2) from Prod.ext (hardInitLoop_ok h) rfl]
  simp only [hrun, Option.map_some', List.append_nil]

/-- nova_lite_journal_hard_init, with a pair and a block for every CPU, returns the value ret
had, having formatted every journal. After any crash that follows its return, each CPU's journal
is closed at the start of its own block: mount undoes nothing, and a transaction can start on
every CPU. -/
theorem hard_init_formats_journals {fuel cpus : Nat} {ret0 : Int} {m : Pmem}
    (halloc : ∀ i < cpus, AllocOk jc alloc i) :
    ∃ ops, novaLiteJournalHardInit jc alloc fuel true cpus ret0 m = some (ret0, ops) ∧
      ∀ k : Line → Nat, (∀ L i, Durable ops ops.length L i → i < k L) →
        (∀ r : Int, novaLiteJournalSoftInit jc fuel true cpus r (m.image ops k) = some (r, [])) ∧
        ∀ i < cpus, journalHead (m.image ops k) (jc.pairAddr i) = (alloc i).2 * 4096 ∧
          journalTail (m.image ops k) (jc.pairAddr i) = (alloc i).2 * 4096 ∧
          ∀ items, createTransaction jc (m.image ops k) i items ≠ none := by
  have h : ∀ i ∈ List.range cpus, AllocOk jc alloc i := fun i hi => halloc i (List.mem_range.mp hi)
  refine ⟨_, novaLiteJournalHardInit_ok h, fun k hk => ?_⟩
  -- the crash image holds every pointer the loop stored: each was flushed before the barrier
  have himage : ∀ x, (m.image ((hardInitLoop jc alloc (List.range cpus)).2 ++ [.fence]) k).bytes x =
      (m.run (hardInitLoop jc alloc (List.range cpus)).2).bytes x := fun x =>
    image_bytes_fenced (hardInitLoop_flushes x _) fun i hi =>
      hk _ i (by rwa [List.length_append, List.length_singleton])
  refine ⟨fun r => softInit_of_formatted r h fun j _ i _ => himage _, fun i hi => ?_⟩
  have hp := @pair_congr _ (m.image ((hardInitLoop jc alloc (List.range cpus)).2 ++ [.fence]) k)
    (jc.pairAddr i) fun j _ => himage _
  obtain ⟨hh, ht⟩ := hardInitLoop_pair h (List.mem_range.mpr hi) m
  rw [hp.1, hp.2, hh, ht]
  obtain ⟨hpi, -, h2, -⟩ := halloc i hi
  refine ⟨rfl, rfl, fun items => ?_⟩
  simp only [createTransaction, hpi, hp.1, hp.2, hh, ht, ne_eq, Nat.mul_eq_zero, h2, or_self,
    not_true_eq_false, if_false, reduceCtorEq, not_false_eq_true]

theorem hardInitLoop_guarded (hprot : jc.protect = true) :
    ∀ (is : List Nat) (u : List (Nat × Nat)), (∀ i ∈ is, AllocOk jc alloc i) →
      guarded u (hardInitLoop jc alloc is).2 = true ∧ unlockedAfter u (hardInitLoop jc alloc is).2 = u
  | [], _, _ => ⟨rfl, rfl⟩
  | i :: is, u, h => by
    obtain ⟨hp, h1, h2, -⟩ := h i (List.mem_cons_self _ _)
    obtain ⟨hg, hu⟩ := hardInitLoop_guarded hprot is u fun j hj => h j (List.mem_cons_of_mem _ hj)
    simp only [hardInitLoop, hp, h1, h2, if_false, ne_eq, not_true_eq_false, or_self, hprot,
      novaMemunlockRange, novaMemlockRange, if_true, List.cons_append, List.singleton_append,
      List.nil_append]
    have he : ((jc.pairAddr i, 64) :: u).erase (jc.pairAddr i, 64) = u := List.erase_cons_head _ _
    have hin : ∀ a, jc.pairAddr i ≤ a → a + 8 ≤ jc.pairAddr i + 16 → ∀ v : Nat,
        (Op.store a 8 (le v)).storesIn ((jc.pairAddr i, 64) :: u) = true := fun a h1 h2 v =>
      Op.storesIn_iff.mpr fun x hx => ⟨_, List.mem_cons_self _ _, by simp only [Op.Writes] at hx; omega⟩
    simp only [unlockedAfter, Op.unlocked] at hu
    simp only [guarded, unlockedAfter, List.foldl_cons, Op.unlocked, he, hg, hu,
      hin _ (Nat.le_add_right _ 8) (Nat.le_refl _), hin _ (Nat.le_refl _) (by omega)]
    exact ⟨rfl, trivial⟩

/-- nova_lite_journal_hard_init respects write protection: with protection on, every byte it
stores lies in a range it has unlocked and not locked again, and it leaves the unlocked ranges
as it found them. -/
theorem hard_init_stays_unlocked {fuel cpus : Nat} {ret0 : Int} {m : Pmem} (hprot : jc.protect = true)
    (halloc : ∀ i < cpus, AllocOk jc alloc i) (u : List (Nat × Nat)) :
    ∃ ops, novaLiteJournalHardInit jc alloc fuel true cpus ret0 m = some (ret0, ops) ∧
      guarded u ops = true ∧ unlockedAfter u ops = u := by
  have h : ∀ i ∈ List.range cpus, AllocOk jc alloc i := fun i hi => halloc i (List.mem_range.mp hi)
  obtain ⟨hg, hu⟩ := hardInitLoop_guarded hprot _ u h
  refine ⟨_, novaLiteJournalHardInit_ok h, ?_, ?_⟩
  · rw [guarded_append, hg, hu]; rfl
  · rw [unlockedAfter_append, hu]; rfl

end HardInit

theorem one_journal_formatted :
    ∃ ops, novaLiteJournalHardInit liteCfg (fun _ => (1, 100)) 2 true 1 0 zeroPmem = some (0, ops) ∧
      ∀ k : Line → Nat, (∀ L i, Durable ops ops.length L i → i < k L) →
        (∀ r : Int, novaLiteJournalSoftInit liteCfg 2 true 1 r (zeroPmem.image ops k) = some (r, [])) ∧
        ∀ i < 1, journalHead (zeroPmem.image ops k) (liteCfg.pairAddr i) = 100 * 4096 ∧
          journalTail (zeroPmem.image ops k) (liteCfg.pairAddr i) = 100 * 4096 ∧
          ∀ items, createTransaction liteCfg (zeroPmem.image ops k) i items ≠ none :=
  hard_init_formats_journals fun i _ => ⟨by simp only [liteCfg]; omega, rfl,
    show (100 : Nat) ≠ 0 by decide, show 100 * 4096 < 2 ^ 64 by decide⟩

theorem one_journal_stays_unlocked :
    ∃ ops, novaLiteJournalHardInit { liteCfg with protect := true } (fun _ => (1, 100)) 2 true 1 0
        zeroPmem = some (0, ops) ∧ guarded [] ops = true ∧ unlockedAfter [] ops = [] :=
  @hard_init_stays_unlocked { liteCfg with protect := true } (fun _ => (1, 100)) 2 1 0 zeroPmem rfl
    (fun i _ => ⟨by simp only [liteCfg]; omega, rfl, show (100 : Nat) ≠ 0 by decide,
      show 100 * 4096 < 2 ^ 64 by decide⟩) []

section Commit
variable {jc : JournalCfg}

theorem novaCommitLiteTransaction_some {m : Pmem} {tail cpu : Nat} {cops : List Op}
    (h : novaCommitLiteTransaction jc m tail cpu = some cops) :
    journalTail m (jc.pairAddr cpu) = tail ∧
      cops = [.store (jc.pairAddr cpu) 8 (le tail), .flush (jc.pairAddr cpu) 64, .fence] := by
  dsimp only [novaCommitLiteTransaction] at h
  split at h
  · cases h
  · rename_i hc
    simp only [not_or, not_not] at hc
    exact ⟨hc.2, (Option.some.inj h).symm⟩

theorem flushesByte_store_flush {a n b x : Nat} {src : Nat → UInt8} {rest : List Op}
    (h : b ≤ a ∧ a + n ≤ b + 64) (hr : FlushesByte x rest) :
    FlushesByte x (.store a n src :: .flush b 64 :: rest) :=
  ⟨fun hw => .inr ⟨_, List.mem_cons_self _ _, by
      simp only [Op.Writes] at hw; simp only [Op.Schedules]; omega⟩,
    fun hw => hw.elim, hr⟩

variable (hl : LiteLayout jc)
include hl

/-- A committed transaction is kept: after a crash past the commit's fence every journal is closed,
soft_init undoes nothing, and every byte off the journal page, the caller's flushed stores among
them, is on the medium as the run left it. -/
theorem committed_transaction_kept {m : Pmem} {cpu cpus fuel : Nat} {ret0 : Int}
    {items : List JournalItem} {ops upd cops : List Op} {tail : Nat} {k : Line → Nat}
    (h : createTransaction jc m cpu items = some (ops, tail))
    (hal : journalHead m (jc.pairAddr cpu) % 32 = 0)
    (hpairs : ∀ j < cpus, ∀ i < 16, (jc.pairAddr j + i) / 4096 ≠ journalHead m (jc.pairAddr cpu) / 4096)
    (hothers : ∀ j < cpus, j ≠ cpu → journalHead m (jc.pairAddr j) = journalTail m (jc.pairAddr j))
    (hupd : ∀ o ∈ upd, ∀ y, o.Writes y → ∀ j < cpus, ¬ (jc.pairAddr j ≤ y ∧ y < jc.pairAddr j + 16))
    (hflush : FlushedBy upd)
    (hcommit : novaCommitLiteTransaction jc (m.run (ops ++ upd)) tail cpu = some cops)
    (hk : ∀ L i, Durable (ops ++ upd ++ cops) (ops ++ upd ++ cops).length L i → i < k L) :
    novaLiteJournalSoftInit jc fuel true cpus ret0 (m.image (ops ++ upd ++ cops) k) = some (ret0, []) ∧
      ∀ x, x / 4096 ≠ journalHead m (jc.pairAddr cpu) / 4096 →
        (m.image (ops ++ upd ++ cops) k).bytes x = (m.run (ops ++ upd ++ cops)).bytes x := by
  obtain ⟨-, -, hops⟩ := createTransaction_some h
  obtain ⟨htail, hcops⟩ := novaCommitLiteTransaction_some hcommit
  have hE := appendItems_writes hl items m (journalHead m (jc.pairAddr cpu))
  have hoffE := fun y => entriesFrom_off_page (y := y) (n := items.length) hl.size hal
  have hrun : ops ++ upd ++ cops = (ops ++ upd ++
      [.store (jc.pairAddr cpu) 8 (le tail), .flush (jc.pairAddr cpu) 64]) ++ [.fence] := by
    rw [hcops]; simp only [List.append_assoc, List.cons_append, List.singleton_append, List.nil_append]
  -- off the journal page, the crash image is the run: every store there is flushed and fenced
  have hoff : ∀ x, x / 4096 ≠ journalHead m (jc.pairAddr cpu) / 4096 →
      (m.image (ops ++ upd ++ cops) k).bytes x = (m.run (ops ++ upd ++ cops)).bytes x := by
    intro x hx
    have hP : FlushesByte x (ops ++ upd ++
        [.store (jc.pairAddr cpu) 8 (le tail), .flush (jc.pairAddr cpu) 64]) := by
      rw [hops]
      refine (((FlushesByte.of_not_writes fun o ho hw => ?_).append
        (flushesByte_store_flush (by omega)
          (show FlushesByte x [Op.fence] from ⟨fun hw => hw.elim, trivial⟩))).append
          hflush.flushesByte).append (flushesByte_store_flush (by omega) trivial)
      obtain ⟨q, hq, hin⟩ := hE o ho x hw
      exact hoffE x hx q hq hin
    rw [hrun] at hk ⊢
    rw [image_bytes_fenced hP fun i hi => hk _ i (by rwa [List.length_append, List.length_singleton])]
    simp only [Pmem.run_append]
    rfl
  refine ⟨?_, hoff⟩
  -- the run closes this CPU's journal and leaves the other pairs alone
  have hlt : tail < 2 ^ 64 := htail ▸ readLe_lt _ _ 8
  have hc : ∀ o ∈ cops, ∀ i < 8, ¬ o.Writes (jc.pairAddr cpu + 8 + i) := fun o ho i hi hw => by
    rw [hcops] at ho
    simp only [List.mem_cons, List.mem_singleton, List.not_mem_nil, or_false] at ho
    rcases ho with rfl | rfl | rfl
    · simp only [Op.Writes] at hw; omega
    · exact hw
    · exact hw
  have htl : journalTail (m.run (ops ++ upd ++ cops)) (jc.pairAddr cpu) =
      journalTail (m.run (ops ++ upd)) (jc.pairAddr cpu) :=
    readLe_congr 8 fun i hi => by
      rw [Pmem.run_append (ops ++ upd) cops]
      exact Pmem.run_bytes_of_not_writes fun o ho => hc o ho i hi
  have hhd : journalHead (m.run (ops ++ upd ++ cops)) (jc.pairAddr cpu) = tail := by
    rw [hcops]
    exact (readLe_run_store fun o ho i hi => by
      simp only [List.mem_cons, List.mem_singleton, List.not_mem_nil, or_false] at ho
      rcases ho with rfl | rfl <;> exact id).trans (Nat.mod_eq_of_lt hlt)
  have hothers' : ∀ j < cpus, j ≠ cpu → ∀ i < 16,
      (m.run (ops ++ upd ++ cops)).bytes (jc.pairAddr j + i) = m.bytes (jc.pairAddr j + i) :=
    fun j hj hjc i hi => Pmem.run_bytes_of_not_writes fun o ho hw => by
      have hapart := jc.pairs_apart j cpu hjc
      rw [hops, hcops] at ho
      simp only [List.mem_append, List.mem_cons, List.mem_singleton, List.not_mem_nil,
        or_false] at ho
      rcases ho with ((ho | rfl | rfl | rfl) | ho) | rfl | rfl | rfl <;>
        try simp only [Op.Writes] at hw
      · obtain ⟨q, hq, hin⟩ := hE o ho _ hw
        exact hoffE _ (hpairs j hj i hi) q hq hin
      · omega
      · exact hupd o ho _ hw j hj ⟨by omega, by omega⟩
      · omega
  simp only [novaLiteJournalSoftInit, if_true]
  refine softInitLoop_skip fun j hj => ?_
  have hj := List.mem_range.mp hj
  have hp := pair_congr (m := m.run (ops ++ upd ++ cops)) fun i hi => hoff _ (hpairs j hj i hi)
  rw [hp.1, hp.2]
  by_cases hjc : j = cpu
  · subst hjc; rw [hhd, htl, htail]
  · have hq := pair_congr (hothers' j hj hjc)
    rw [hq.1, hq.2]
    exact hothers j hj hjc

end Commit

/-- The caller's flushed store of 7s over the first inode of `inodeTxn`. -/
def inodeTxnUpdate : List Op := [.store 40960 128 (fun _ => 7), .flush 40960 128]

/-- nova_commit_lite_transaction after `inodeTxn` and the caller's store. -/
def inodeTxnCommit : List Op :=
  (novaCommitLiteTransaction liteCfg (formattedJournal.run (inodeTxn.1 ++ inodeTxnUpdate)) inodeTxn.2 0).getD []

theorem novaCommitLiteTransaction_inodeTxn :
    novaCommitLiteTransaction liteCfg (formattedJournal.run (inodeTxn.1 ++ inodeTxnUpdate)) inodeTxn.2 0 =
      some inodeTxnCommit := by
  have ht : journalTail (formattedJournal.run (inodeTxn.1 ++ inodeTxnUpdate)) (liteCfg.pairAddr 0) =
      inodeTxn.2 := by
    obtain ⟨-, -, ht, -⟩ := createTransaction_spec liteCfg_layout novaCreateInodeTransaction_formatted
      (by decide) (by decide) (by decide) fun f hf => by simp at hf
    refine (readLe_congr 8 fun i hi => ?_).trans ht
    rw [Pmem.run_append]
    refine Pmem.run_bytes_of_not_writes fun o ho hw => ?_
    simp only [inodeTxnUpdate, List.mem_cons, List.mem_singleton, List.not_mem_nil, or_false] at ho
    rcases ho with rfl | rfl
    · simp only [Op.Writes, liteCfg] at hw; omega
    · exact hw
  simp only [inodeTxnCommit, novaCommitLiteTransaction, ht, show liteCfg.pairAddr 0 ≠ 0 by decide,
    ne_eq, not_true_eq_false, or_self, if_false, Option.getD_some]

theorem inode_transaction_commit_kept :
    novaLiteJournalSoftInit liteCfg 2 true 1 0 (formattedJournal.image
        (inodeTxn.1 ++ inodeTxnUpdate ++ inodeTxnCommit)
        fun _ => (inodeTxn.1 ++ inodeTxnUpdate ++ inodeTxnCommit).length) = some (0, []) ∧
      ∀ x, x / 4096 ≠ journalHead formattedJournal (liteCfg.pairAddr 0) / 4096 →
        (formattedJournal.image (inodeTxn.1 ++ inodeTxnUpdate ++ inodeTxnCommit)
            fun _ => (inodeTxn.1 ++ inodeTxnUpdate ++ inodeTxnCommit).length).bytes x =
          (formattedJournal.run (inodeTxn.1 ++ inodeTxnUpdate ++ inodeTxnCommit)).bytes x := by
  have hh : journalHead formattedJournal (liteCfg.pairAddr 0) = 409600 := by decide
  refine committed_transaction_kept liteCfg_layout novaCreateInodeTransaction_formatted
    (by decide) (fun j hj i hi => ?_) (fun j hj hj0 => absurd (Nat.lt_one_iff.mp hj) hj0)
    (fun o ho y hy j hj => ?_) (flushedBy_store_flush _ _ _) novaCommitLiteTransaction_inodeTxn
    fun _ i ⟨_, ho, _⟩ => (List.getElem?_eq_some_iff.mp ho).1
  · rw [hh]
    simp only [liteCfg]
    omega
  · simp only [inodeTxnUpdate, List.mem_cons, List.mem_singleton, List.not_mem_nil, or_false] at ho
    rcases ho with rfl | rfl
    · simp only [Op.Writes] at hy; simp only [liteCfg]; omega
    · exact hy.elim

end Nova
