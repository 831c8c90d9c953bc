import Nova.Dax.CowWrite

/-! What one iteration of nova_cow_file_write's loop does to the file, and what the loop does
as a whole: the content the page index will show once the entries are assigned. -/
namespace Nova

/-- A byte outside every data-block checksum slot. -/
def NotCsum (sb : Sb) (x : Nat) : Prop :=
  ∀ nr, ¬ (sb.blockCsumAddr nr ≤ x ∧ x < sb.blockCsumAddr nr + 4)

/-- Stores to checksum slots only: the inode, the log and every other byte as they were, and the
operations so far kept. -/
structure CsumOnly (sb : Sb) (w w' : World) : Prop where
  inode : w'.inode = w.inode
  slots : w'.mem.slots = w.mem.slots
  tails : w'.mem.tails = w.mem.tails
  bytes : ∀ x, NotCsum sb x → w'.mem.bytes x = w.mem.bytes x
  trace : w.trace <+: w'.trace

theorem CsumOnly.refl (sb : Sb) (w : World) : CsumOnly sb w w :=
  ⟨rfl, rfl, rfl, fun _ _ => rfl, List.prefix_refl _⟩

theorem CsumOnly.trans {sb : Sb} {w₁ w₂ w₃ : World} (h₁ : CsumOnly sb w₁ w₂) (h₂ : CsumOnly sb w₂ w₃) :
    CsumOnly sb w₁ w₃ :=
  ⟨h₂.inode.trans h₁.inode, h₂.slots.trans h₁.slots, h₂.tails.trans h₁.tails,
    fun x hx => (h₂.bytes x hx).trans (h₁.bytes x hx), h₁.trace.trans h₂.trace⟩

theorem csumStore_only (sb : Sb) (w : World) (nr : Nat) (c : UInt32) :
    CsumOnly sb w (w.emit [csumStore sb nr c]) :=
  ⟨rfl, rfl, rfl, fun x hx => by
    simp only [csumStore, World.emit_storeNt_bytes]; exact if_neg (hx nr), ⟨_, rfl⟩⟩

section Stores
variable {sb : Sb} (R : World → World → Prop) (refl : ∀ w, R w w)
  (trans : ∀ {w₁ w₂ w₃}, R w₁ w₂ → R w₂ w₃ → R w₁ w₃) (store : ∀ w nr c, R w (w.emit [csumStore sb nr c]))
include refl trans store

-- nova_update_cow_csum issues checksum stores and nothing else: a relation between worlds that is
-- reflexive, transitive and holds across one checksum store holds across the whole call.

theorem cowCsumLoop_rel (bs bytes : Nat) (wrbuf : Nat → UInt8) :
    ∀ fuel (w : World) (c : CsumCursor), R w (cowCsumLoop sb bs bytes wrbuf fuel (w, c)).1
  | 0, w, _ => refl w
  | fuel + 1, w, c => by
    unfold cowCsumLoop
    split
    · exact trans (store w _ _) (cowCsumLoop_rel bs bytes wrbuf fuel _ _)
    · exact refl w

omit trans in
theorem cowCsumHead_rel (bs : Nat) (w : World) (blocknr : Nat) (wrbuf : Nat → UInt8) (offset bytes : Nat) :
    R w (cowCsumHead sb bs w blocknr wrbuf offset bytes).1 := by
  unfold cowCsumHead
  split
  · exact store w _ _
  · exact refl w

theorem novaUpdateCowCsum_rel (bs : Nat) (w : World) (blocknr : Nat) (wrbuf : Nat → UInt8) (offset bytes : Nat) :
    R w (novaUpdateCowCsum sb bs w blocknr wrbuf offset bytes).2 := by
  unfold novaUpdateCowCsum
  have hh := cowCsumHead_rel R refl store bs w blocknr wrbuf offset bytes
  generalize cowCsumHead sb bs w blocknr wrbuf offset bytes = hc at hh ⊢
  obtain ⟨w₁, c₁⟩ := hc
  dsimp only
  split
  · have hl := cowCsumLoop_rel R refl trans store bs bytes wrbuf bytes w₁ c₁
    generalize cowCsumLoop sb bs bytes wrbuf bytes (w₁, c₁) = lc at hl ⊢
    obtain ⟨w₂, c₂⟩ := lc
    dsimp only
    split
    · exact trans hh (trans hl (store w₂ _ _))
    · exact trans hh hl
  · exact hh

end Stores

theorem novaUpdateCowCsum_only (sb : Sb) (bs : Nat) (w : World) (blocknr : Nat)
    (wrbuf : Nat → UInt8) (offset bytes : Nat) :
    CsumOnly sb w (novaUpdateCowCsum sb bs w blocknr wrbuf offset bytes).2 :=
  novaUpdateCowCsum_rel (CsumOnly sb) (CsumOnly.refl sb) (fun h₁ h₂ => h₁.trans h₂) (csumStore_only sb) ..

section Fill
variable {env : WriteEnv} {s : CowLoop} (buf : Nat → UInt8)

private theorem fill_eq : s.fill env buf =
    (novaHandleHeadTailBlocks (s.w.obtain (s.block env) (s.alloc env).toNat) s.pos (s.bytes env)
      (s.block env * 4096)).emit
      [.storeNt (s.block env * 4096 + s.pos % 4096) (s.copied env) fun i => buf (s.written + i)] := by
  unfold CowLoop.fill
  dsimp only
  split
  · rfl
  · rename_i h
    push_neg at h
    rw [novaHandleHeadTailBlocks, headFill_of_aligned _ _ h.1, tailFill_of_aligned _ _ (by omega)]

theorem CowLoop.fill_log :
    (s.fill env buf).inode = s.w.inode ∧ (s.fill env buf).mem.slots = s.w.mem.slots ∧
      (s.fill env buf).mem.tails = s.w.mem.tails := by
  obtain ⟨hi, hs, ht⟩ := headFill_log (s.w.obtain (s.block env) (s.alloc env).toNat) s.pos (s.block env * 4096)
  obtain ⟨hi', hs', ht'⟩ := tailFill_log (headFill (s.w.obtain (s.block env) (s.alloc env).toNat) s.pos
    (s.block env * 4096)) s.pos (s.bytes env) (s.block env * 4096)
  rw [fill_eq]
  exact ⟨hi'.trans hi, hs'.trans hs, ht'.trans ht⟩

theorem CowLoop.fill_trace : s.w.trace <+: (s.fill env buf).trace ∧
    .storeNt (s.block env * 4096 + s.pos % 4096) (s.copied env) (fun i => buf (s.written + i)) ∈
      (s.fill env buf).trace := by
  rw [fill_eq]
  refine ⟨(List.IsPrefix.trans ?_ (tailFill_trace _ _ _ _)).trans ⟨_, rfl⟩, by simp⟩
  exact headFill_trace (s.w.obtain (s.block env) (s.alloc env).toNat) _ _

variable (hsrc : ∀ p q, s.w.inode.index p = some q → getNvmm (s.w.mem.slots q) p ≠ 0 ∧
  (getNvmm (s.w.mem.slots q) p < s.block env ∨ s.block env + (s.alloc env).toNat ≤ getNvmm (s.w.mem.slots q) p))
include hsrc

theorem fill_bytes_block (hb : 0 < s.bytes env) (hcopy : s.copied env = s.bytes env)
    (hnum : (s.alloc env).toNat = (s.bytes env + s.pos % 4096 - 1) / 4096 + 1) {j : Nat}
    (hj : j < 4096 * (s.alloc env).toNat) :
    (s.fill env buf).mem.bytes (s.block env * 4096 + j) =
      if s.pos % 4096 ≤ j ∧ j < s.pos % 4096 + s.bytes env then buf (s.written + (j - s.pos % 4096))
      else fileByte s.w.inode s.w.mem (s.pos / 4096 * 4096 + j) := by
  rw [fill_eq, World.emit_storeNt_bytes, hcopy]
  by_cases hd : s.pos % 4096 ≤ j ∧ j < s.pos % 4096 + s.bytes env
  · rw [if_pos (by omega), if_pos hd]
    exact congrArg (fun i => buf (s.written + i)) (by omega)
  obtain ⟨hi, hs, -⟩ := headFill_log (s.w.obtain (s.block env) (s.alloc env).toNat) s.pos (s.block env * 4096)
  rw [if_neg (by omega), if_neg hd, novaHandleHeadTailBlocks, tailFill_bytes _ _ _ _ _ fun q hq => by
    rw [hi] at hq; rw [hs]; exact (hsrc _ q hq).1]
  split
  · rename_i ht
    rw [hi]
    refine (fileByte_congr fun q hq => ⟨congrFun hs q, ?_⟩).trans (congrArg _ (by omega))
    have hg := hsrc _ q hq
    simp only [World.obtain_mem] at hg ⊢
    rw [headFill_bytes (s.w.obtain (s.block env) (s.alloc env).toNat) _ _ _ fun q hq => (hsrc _ q hq).1,
      if_neg (by omega)]
    rfl
  · rename_i ht
    rw [headFill_bytes (s.w.obtain (s.block env) (s.alloc env).toNat) _ _ _ fun q hq => (hsrc _ q hq).1, if_pos (by omega)]
    exact congrArg (fileByte _ _) (by omega)

theorem fill_bytes_outside (ha : 0 < s.alloc env) {y : Nat}
    (hy : y < s.block env * 4096 ∨ s.block env * 4096 + 4096 * (s.alloc env).toNat ≤ y) :
    (s.fill env buf).mem.bytes y = s.w.mem.bytes y := by
  have hc : s.copied env ≤ s.bytes env := Nat.sub_le _ _
  have hbytes : s.bytes env ≤ 4096 * (s.alloc env).toNat - s.pos % 4096 := min_le_left _ _
  rw [fill_eq, World.emit_storeNt_bytes, if_neg (by omega), novaHandleHeadTailBlocks,
    tailFill_bytes _ _ _ _ _ fun q hq => by
      obtain ⟨hi, hs, -⟩ := headFill_log (s.w.obtain (s.block env) (s.alloc env).toNat) s.pos
        (s.block env * 4096)
      rw [hi] at hq; rw [hs]; exact (hsrc _ q hq).1,
    if_neg (by omega), headFill_bytes (s.w.obtain (s.block env) (s.alloc env).toNat) _ _ _
      fun q hq => (hsrc _ q hq).1, if_neg (by omega)]
  rfl

end Fill

theorem cowCsum_only (sb : Sb) (env : WriteEnv) (w : World) (blocknr written offset copied : Nat) :
    CsumOnly sb w (cowCsum sb env w blocknr written offset copied) ∧
      (sb.blockCsumBase = 0 → cowCsum sb env w blocknr written offset copied = w) := by
  unfold cowCsum
  constructor <;> split
  · exact novaUpdateCowCsum_only ..
  · exact .refl sb w
  · exact fun h0 => absurd h0 ‹_ ∧ _›.2
  · exact fun _ => rfl

def CowLoop.slot (env : WriteEnv) (s : CowLoop) : Nat := if s.tempTail = 0 then env.firstSlot else s.tempTail

/-- What a step that goes on to the next iteration did: it got blocks, copied every byte it
covers, appended its entry and checksummed, and advanced by those bytes. -/
structure CowLoop.Advances (sb : Sb) (env : WriteEnv) (buf : Nat → UInt8) (isize : Nat)
    (s s' : CowLoop) : Prop where
  alloc : 0 < s.alloc env
  copied : s.copied env = s.bytes env
  slot : s.slot env ≠ 0
  stores : CsumOnly sb ((s.fill env buf).emit [.putEntry (s.slot env)
    (cowEntry env isize s.pos (s.bytes env) (s.alloc env).toNat (s.block env))]) s'.w
  pos : s'.pos = s.pos + s.bytes env
  count : s'.count = s.count - s.bytes env
  written : s'.written = s.written + s.bytes env
  numBlocks : s'.numBlocks = s.numBlocks - (s.alloc env).toNat
  status : s'.status = s.bytes env
  step : s'.step = s.step + 1
  beginTail : s'.beginTail = if s.beginTail = 0 then s.slot env else s.beginTail
  tempTail : s'.tempTail = s.slot env + 1
  /-- With checksums off nothing is stored after the entry. -/
  plain : sb.blockCsumBase = 0 → s'.w = (s.fill env buf).emit [.putEntry (s.slot env)
    (cowEntry env isize s.pos (s.bytes env) (s.alloc env).toNat (s.block env))]
  /-- The world the step leaves: the data stores, the entry, then the checksums. -/
  world : s'.w = cowCsum sb env ((s.fill env buf).emit [.putEntry (s.slot env)
    (cowEntry env isize s.pos (s.bytes env) (s.alloc env).toNat (s.block env))]) (s.block env) s.written
    (s.pos % 4096) (s.bytes env)

theorem CowLoop.bytes_pos {env : WriteEnv} {s : CowLoop} (ha : 0 < s.alloc env) (hc : 0 < s.count) :
    0 < s.bytes env := by
  unfold CowLoop.bytes
  omega

theorem cowStep_inr {sb : Sb} {env : WriteEnv} {buf : Nat → UInt8} {isize : Nat} {s s' : CowLoop}
    (h : cowStep sb env buf isize s = .inr s') (hc : 0 < s.count) :
    s.Advances sb env buf isize s' := by
  unfold cowStep at h
  dsimp only at h
  split at h
  · cases h
  rename_i ha
  have hb := CowLoop.bytes_pos (not_le.mp ha) hc
  by_cases hr : env.room s.step = true ∧ s.slot env ≠ 0
  swap
  · rw [show novaAppendFileWriteEntry (s.fill env buf) env.firstSlot (env.room s.step) _ s.tempTail =
      (0, s.fill env buf) from if_neg hr] at h
    cases h
  rw [show novaAppendFileWriteEntry (s.fill env buf) env.firstSlot (env.room s.step)
      (cowEntry env isize s.pos (s.copied env) (s.alloc env).toNat (s.block env)) s.tempTail =
      (s.slot env, (s.fill env buf).emit [.putEntry (s.slot env)
        (cowEntry env isize s.pos (s.copied env) (s.alloc env).toNat (s.block env))]) from if_pos hr] at h
  dsimp only at h
  rw [if_neg hr.2] at h
  split at h
  · cases h
  rename_i hst
  have hcb : s.copied env = s.bytes env := by
    by_contra hne
    exact hst (CowLoop.shortCopy_status_neg _ hne)
  rw [hcb, CowLoop.shortCopy_of_eq, CowLoop.advance_of_pos _ _ hb] at h
  cases h
  obtain ⟨hcs, hoff⟩ := cowCsum_only sb env ((s.fill env buf).emit [.putEntry (s.slot env)
    (cowEntry env isize s.pos (s.bytes env) (s.alloc env).toNat (s.block env))]) (s.block env) s.written
    (s.pos % 4096) (s.bytes env)
  exact ⟨not_le.mp ha, hcb, hr.2, hcs, rfl, rfl, rfl, rfl, rfl, rfl, rfl, rfl, hoff, rfl⟩

/-- How a step leaves the loop early: `goto out` with an error or with what nova_new_data_blocks
returned, never positive; or `break` on a short copy, with bytes left and none lost on the way. -/
def LoopEnd.Early (s : CowLoop) : LoopEnd → Prop
  | .out _ ret => ret ≤ 0
  | .done s' => 0 < s'.count ∧ s'.written + s'.count = s.written + s.count

theorem cowStep_inl {sb : Sb} {env : WriteEnv} {buf : Nat → UInt8} {isize : Nat} {s : CowLoop}
    {e : LoopEnd} (h : cowStep sb env buf isize s = .inl e) (hc : 0 < s.count) : e.Early s := by
  unfold cowStep at h
  dsimp only at h
  split at h
  · cases h; exact ‹_›
  rename_i ha
  have hb := CowLoop.bytes_pos (not_le.mp ha) hc
  have hbc : s.bytes env ≤ s.count := min_le_right _ _
  by_cases hr : env.room s.step = true ∧ s.slot env ≠ 0
  swap
  · rw [show novaAppendFileWriteEntry (s.fill env buf) env.firstSlot (env.room s.step) _ s.tempTail =
      (0, s.fill env buf) from if_neg hr] at h
    cases h; exact (show -Errno.nospc ≤ 0 by decide)
  rw [show novaAppendFileWriteEntry (s.fill env buf) env.firstSlot (env.room s.step)
      (cowEntry env isize s.pos (s.copied env) (s.alloc env).toNat (s.block env)) s.tempTail =
      (s.slot env, (s.fill env buf).emit [.putEntry (s.slot env)
        (cowEntry env isize s.pos (s.copied env) (s.alloc env).toNat (s.block env))]) from if_pos hr] at h
  dsimp only at h
  rw [if_neg hr.2] at h
  split at h
  · cases h
    rename_i hst
    have hcb : s.copied env < s.bytes env := by
      by_contra hge
      have hcb : s.copied env = s.bytes env := Nat.le_antisymm (Nat.sub_le _ _) (not_lt.mp hge)
      rw [hcb, CowLoop.shortCopy_of_eq, CowLoop.advance_of_pos _ _ hb] at hst
      exact absurd hst (by simp only [not_lt]; omega)
    simp only [LoopEnd.Early, CowLoop.shortCopy_count, CowLoop.shortCopy_written, CowLoop.advance_count,
      CowLoop.advance_written]
    omega
  · cases h

theorem cowStep_inr_of_ok {sb : Sb} {env : WriteEnv} {buf : Nat → UInt8} {isize : Nat} {s : CowLoop}
    (ha : 0 < s.alloc env) (hl : env.left s.step (s.bytes env) = 0) (hr : env.room s.step = true)
    (hs : s.slot env ≠ 0) (hc : 0 < s.count) : ∃ s', cowStep sb env buf isize s = .inr s' := by
  have hb := CowLoop.bytes_pos ha hc
  have hcb : s.copied env = s.bytes env := by simp only [CowLoop.copied, hl, Nat.zero_min, Nat.sub_zero]
  unfold cowStep
  dsimp only
  rw [if_neg (not_le.mpr ha), show novaAppendFileWriteEntry (s.fill env buf) env.firstSlot (env.room s.step)
      (cowEntry env isize s.pos (s.copied env) (s.alloc env).toNat (s.block env)) s.tempTail =
      (s.slot env, (s.fill env buf).emit [.putEntry (s.slot env)
        (cowEntry env isize s.pos (s.copied env) (s.alloc env).toNat (s.block env))]) from if_pos ⟨hr, hs⟩]
  dsimp only
  rw [if_neg hs, hcb, CowLoop.shortCopy_of_eq, CowLoop.advance_of_pos _ _ hb, if_neg (by dsimp only; omega)]
  exact ⟨_, rfl⟩

section Advance
variable {sb : Sb} {env : WriteEnv} {buf : Nat → UInt8} {isize : Nat} {s s' : CowLoop}
  (A : s.Advances sb env buf isize s')
include A

theorem CowLoop.Advances.inode : s'.w.inode = s.w.inode :=
  A.stores.inode.trans (CowLoop.fill_log buf).1

theorem CowLoop.Advances.tails : s'.w.mem.tails = s.w.mem.tails :=
  A.stores.tails.trans (CowLoop.fill_log buf).2.2

theorem CowLoop.Advances.slots : s'.w.mem.slots = Function.update s.w.mem.slots (s.slot env)
    (cowEntry env isize s.pos (s.bytes env) (s.alloc env).toNat (s.block env)) := by
  rw [A.stores.slots, ← (CowLoop.fill_log buf).2.1]
  rfl

theorem CowLoop.Advances.bytes (y : Nat) (hy : sb.blockCsumBase ≠ 0 → NotCsum sb y) :
    s'.w.mem.bytes y = (s.fill env buf).mem.bytes y := by
  by_cases h0 : sb.blockCsumBase = 0
  · rw [A.plain h0]; rfl
  · rw [A.stores.bytes y (hy h0)]; rfl

theorem CowLoop.Advances.trace : s.w.trace <+: s'.w.trace ∧
    .storeNt (s.block env * 4096 + s.pos % 4096) (s.bytes env) (fun i => buf (s.written + i)) ∈ s'.w.trace := by
  obtain ⟨hp, hm⟩ := @CowLoop.fill_trace env s buf
  have hpre := (List.prefix_append (s.fill env buf).trace _).trans A.stores.trace
  exact ⟨hp.trans hpre, A.copied ▸ hpre.subset hm⟩

end Advance

end Nova
