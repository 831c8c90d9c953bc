import Nova.Journal

/-! What nova_lite_journal_soft_init makes of the journals it finds, and the walk of
nova_check_journal_entries. -/
namespace Nova

section Walk
variable {jc : JournalCfg}

/-- A walk confined to entries that all pass the check, none of them journal_tail, never ends:
it is out of every number of iterations. -/
theorem checkWalk_none_of_closed {m : Pmem} {tail : Nat} {S : Nat → Prop}
    (hnext : ∀ p, S p → S (nextLiteJournal jc p)) (htail : ¬ S tail)
    (hok : ∀ p, S p → novaCheckEntryIntegrity jc m p = true) :
    ∀ fuel {curr}, S curr → checkWalk jc m tail fuel curr = none
  | 0, curr, hc => by simp only [checkWalk, if_neg fun h : curr = tail => htail (h ▸ hc)]
  | fuel + 1, curr, hc => by
    simp only [checkWalk, if_neg fun h : curr = tail => htail (h ▸ hc), hok curr hc, if_true]
    exact checkWalk_none_of_closed hnext htail hok fuel (hnext curr hc)

theorem nextLiteJournal_same_page {p page : Nat} (h : p / 4096 = page ∧ p % jc.entrySize = 0)
    (hsz : 4096 % jc.entrySize = 0) :
    nextLiteJournal jc p / 4096 = page ∧ nextLiteJournal jc p % jc.entrySize = 0 := by
  unfold nextLiteJournal
  split_ifs with hend
  · refine ⟨by omega, ?_⟩
    rw [Nat.sub_mod_eq_zero_of_mod_eq (by rw [Nat.mod_mod_of_dvd _ (Nat.dvd_of_mod_eq_zero hsz)])]
  · refine ⟨by omega, by rw [Nat.add_mod_right]; exact h.2⟩

end Walk

/-- The medium after nova_lite_journal_hard_init's PERSISTENT_BARRIER on a zeroed device, the
journal of CPU 0 in log block 100. -/
def formattedJournal : Pmem :=
  zeroPmem.run ((hardInitLoop liteCfg (fun _ => (1, 100)) (List.range 1)).2 ++ [.fence])

theorem soft_init_returns_uninitialized_ret (fuel : Nat) (ret0 : Int) :
    journalHead formattedJournal 8192 = 409600 ∧ journalTail formattedJournal 8192 = 409600 ∧
    novaLiteJournalSoftInit liteCfg fuel true 1 ret0 formattedJournal = some (ret0, []) ∧
    (novaLiteJournalHardInit liteCfg (fun _ => (1, 100)) fuel true 1 ret0 zeroPmem).map Prod.fst =
      some ret0 := by
  have hclosed : ∀ j ∈ List.range 1, journalHead formattedJournal (liteCfg.pairAddr j) =
      journalTail formattedJournal (liteCfg.pairAddr j) := by decide
  have hsoft : novaLiteJournalSoftInit liteCfg fuel true 1 ret0 formattedJournal = some (ret0, []) :=
    softInitLoop_skip hclosed
  refine ⟨by decide, by decide, hsoft, ?_⟩
  show Option.map Prod.fst (Option.map (fun r => (r.1, _))
    (novaLiteJournalSoftInit liteCfg fuel true 1 ret0 formattedJournal)) = some ret0
  rw [hsoft]; rfl

/-- A journal page (block 100) the journal has wrapped around: each of its 128 entries holds
zeros and their checksum. journal_head is the page's first entry and journal_tail points into
the next page. -/
def strayTailJournal : Pmem :=
  ⟨fun a => if a / 4096 = 100 then
      (if a % 32 < 28 then 0 else le (crc32c 0xFFFFFFFF (bytesOf (fun _ => 0) 0 28)).toNat (a % 32 - 28))
    else if 8192 ≤ a ∧ a < 8200 then le 409600 (a - 8192)
    else if 8200 ≤ a ∧ a < 8208 then le 413696 (a - 8200) else 0,
    fun _ => default, fun _ => 0⟩

theorem strayTailJournal_sealed {p : Nat} (hp : p / 4096 = 100 ∧ p % 32 = 0) :
    novaCheckEntryIntegrity liteCfg strayTailJournal p = true := by
  have hbody : bytesOf strayTailJournal.bytes p 28 = bytesOf (fun _ => 0) 0 28 :=
    bytesOf_congr fun i hi => by
      simp only [strayTailJournal]
      rw [if_pos (by omega), if_pos (by omega)]
  refine novaCheckEntryIntegrity_of_sealed liteCfg fun i hi => ?_
  show strayTailJournal.bytes (p + 28 + i) = le (crc32c 0xFFFFFFFF (bytesOf _ p 28)).toNat i
  rw [hbody]
  simp only [strayTailJournal]
  rw [if_pos (by omega), if_neg (by omega)]
  congr 1; omega

theorem soft_init_never_ends_on_stray_tail (fuel : Nat) (ret0 : Int) :
    journalHead strayTailJournal 8192 = 409600 ∧ journalTail strayTailJournal 8192 = 413696 ∧
    (∀ p, p / 4096 = 100 → p % 32 = 0 → novaCheckEntryIntegrity liteCfg strayTailJournal p = true) ∧
    novaLiteJournalSoftInit liteCfg fuel true 1 ret0 strayTailJournal = none := by
  have hhead : journalHead strayTailJournal 8192 = 409600 := by decide
  have htail : journalTail strayTailJournal 8192 = 413696 := by decide
  have hwalk : checkWalk liteCfg strayTailJournal 413696 fuel 409600 = none :=
    checkWalk_none_of_closed (S := fun p => p / 4096 = 100 ∧ p % 32 = 0)
      (fun p hp => nextLiteJournal_same_page hp (by decide)) (by decide)
      (fun p hp => strayTailJournal_sealed hp) fuel ⟨by decide, by decide⟩
  refine ⟨hhead, htail, fun p h1 h2 => strayTailJournal_sealed ⟨h1, h2⟩, ?_⟩
  show softInitLoop liteCfg fuel [0] strayTailJournal ret0 = none
  simp only [softInitLoop, show liteCfg.pairAddr 0 = 8192 from rfl, hhead, htail,
    novaCheckJournalEntries, hwalk]
  rfl

end Nova
