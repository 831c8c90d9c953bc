import Nova.Dax.CowStep

/-! A write that returns `len` leaves the old content with the payload over [pos, pos + len). -/
namespace Nova

/-- nova_new_data_blocks at loop step `k`, asked for `n` blocks, hands out block `blk`. -/
def WriteEnv.Hands (env : WriteEnv) (k n blk : Nat) : Prop :=
  (env.alloc k n).2 ≤ blk ∧ blk < (env.alloc k n).2 + (min (env.alloc k n).1 n).toNat

/-- The slot of the write's first entry: the log tail, or a new log page while the log is empty. -/
def logStart (env : WriteEnv) (w : World) : Nat :=
  if w.mem.tails w.inode.ino = 0 then env.firstSlot else w.mem.tails w.inode.ino

/-- What a write takes for granted about the file and its environment: every mapped page is in a
published entry and on a block other than 0; the allocator hands out blocks no page maps, and never
one block at two steps; checksum slots are no data block's bytes; file_remove_privs returns 0 or an
error. -/
structure WriteSafe (sb : Sb) (env : WriteEnv) (w : World) : Prop where
  published : ∀ p q, w.inode.index p = some q → q < w.mem.tails w.inode.ino
  nonzero : ∀ p q, w.inode.index p = some q → getNvmm (w.mem.slots q) p ≠ 0
  fresh : ∀ k n blk p q, env.Hands k n blk → w.inode.index p = some q → getNvmm (w.mem.slots q) p ≠ blk
  apart : ∀ k k' n n' blk, env.Hands k n blk → env.Hands k' n' blk → k = k'
  csumApart : sb.blockCsumBase ≠ 0 → ∀ blk o, o < 4096 →
    ((∃ k n, env.Hands k n blk) ∨ ∃ p q, w.inode.index p = some q ∧ getNvmm (w.mem.slots q) p = blk) →
    NotCsum sb (blk * 4096 + o)
  privs : env.removePrivs ≤ 0

/-- A block that the loop, from the step of `s` on, neither hands out nor checksums into. -/
def Kept (sb : Sb) (env : WriteEnv) (s : CowLoop) (blk : Nat) : Prop :=
  (∀ k n, s.step ≤ k → ¬ env.Hands k n blk) ∧
    (sb.blockCsumBase ≠ 0 → ∀ o, o < 4096 → NotCsum sb (blk * 4096 + o))

/-- The page index once the entries the loop has appended are assigned. -/
def pendingIndex (env : WriteEnv) (w₀ : World) (s : CowLoop) : Nat → Option Nat :=
  assignFrom s.w.mem.slots s.step (logStart env w₀) w₀.inode.index

/-- The loop invariant of a write of `len` bytes of `buf` at `pos₀` into the file `w₀`. The inode
and the published log are untouched, the entries appended so far sit in consecutive slots from
`logStart`, and under the index they will give the file reads as the payload up to `pos` and as
before elsewhere. -/
structure CowInv (sb : Sb) (env : WriteEnv) (buf : Nat → UInt8) (w₀ : World) (pos₀ len : Nat)
    (s : CowLoop) : Prop where
  inode : s.w.inode = w₀.inode
  tails : s.w.mem.tails = w₀.mem.tails
  slots : ∀ q, q < logStart env w₀ ∨ logStart env w₀ + s.step ≤ q → s.w.mem.slots q = w₀.mem.slots q
  written : s.written + s.count = len
  pos : s.pos = pos₀ + s.written
  numBlocks : s.numBlocks = if s.count = 0 then 0 else (s.count + s.pos % 4096 - 1) / 4096 + 1
  aligned : 0 < s.step → 0 < s.count → s.pos % 4096 = 0
  start : s.step = 0 → s.written = 0
  slot : 0 < s.step → 0 < logStart env w₀
  beginTail : s.beginTail = if s.step = 0 then 0 else logStart env w₀
  tempTail : s.tempTail = if s.step = 0 then w₀.mem.tails w₀.inode.ino else logStart env w₀ + s.step
  old : ∀ x, fileByte w₀.inode s.w.mem x = fileByte w₀.inode w₀.mem x
  untouched : ∀ p, p < pos₀ / 4096 ∨ (s.pos + 4095) / 4096 ≤ p → pendingIndex env w₀ s p = w₀.inode.index p
  points : ∀ p q, pendingIndex env w₀ s p = some q →
    q < logStart env w₀ + s.step ∧ Kept sb env s (getNvmm (s.w.mem.slots q) p)
  content : ∀ x, fileByte { w₀.inode with index := pendingIndex env w₀ s } s.w.mem x =
    if pos₀ ≤ x ∧ x < s.pos then buf (x - pos₀) else fileByte w₀.inode w₀.mem x

theorem step_arith {nb count p a b : Nat} (hc : 0 < count) (hb : 0 < b)
    (hN : nb = (count + p % 4096 - 1) / 4096 + 1) (ha : a = (b + p % 4096 - 1) / 4096 + 1)
    (hB : b = min (4096 * a - p % 4096) count) :
    (0 < count - b → (p + b) % 4096 = 0) ∧
      nb - a = if count - b = 0 then 0 else (count - b + (p + b) % 4096 - 1) / 4096 + 1 := by
  by_cases hlt : 4096 * a - p % 4096 < count
  · rw [min_eq_left hlt.le] at hB
    clear ha
    have hmod : (p + b) % 4096 = 0 := by omega
    exact ⟨fun _ => hmod, by rw [if_neg (by omega), hmod]; omega⟩
  · rw [min_eq_right (by omega)] at hB
    subst hB
    exact ⟨fun h => absurd h (by omega), by rw [if_pos (Nat.sub_self _)]; omega⟩

section Step
variable {sb : Sb} {env : WriteEnv} {buf : Nat → UInt8} {w₀ : World} {pos₀ len isize : Nat}
  {s s' : CowLoop}

theorem WriteSafe.mapped_lt (hs : WriteSafe sb env w₀) {p q : Nat} (h : w₀.inode.index p = some q) :
    q < logStart env w₀ := by
  have := hs.published p q h
  unfold logStart
  split <;> omega

theorem Kept.advance {blk : Nat} (hk : Kept sb env s blk) (h : s'.step = s.step + 1) : Kept sb env s' blk :=
  ⟨fun k n hk' => hk.1 k n (by omega), hk.2⟩

theorem fileByte_index_congr (i : Inode) {idx idx' : Nat → Option Nat} (m : Pmem) {x : Nat}
    (h : idx' (x / 4096) = idx (x / 4096)) :
    fileByte { i with index := idx' } m x = fileByte { i with index := idx } m x := by
  unfold fileByte
  dsimp only
  rw [h]

variable (hs : WriteSafe sb env w₀) (hi : CowInv sb env buf w₀ pos₀ len s)
include hs hi

theorem WriteSafe.kept_mapped {p q : Nat} (h : w₀.inode.index p = some q) :
    Kept sb env s (getNvmm (s.w.mem.slots q) p) := by
  rw [hi.slots q (.inl (hs.mapped_lt h))]
  exact ⟨fun k n _ hk => hs.fresh k n _ p q hk h rfl,
    fun h0 o ho => hs.csumApart h0 _ o ho (.inr ⟨p, q, h, rfl⟩)⟩

omit hs in
theorem CowInv.slot_eq : s.slot env = logStart env w₀ + s.step := by
  unfold CowLoop.slot
  rw [hi.tempTail]
  by_cases h : s.step = 0
  · simp only [h, if_true, Nat.add_zero, logStart]
  · simp only [h, if_false]
    exact if_neg (by omega)

omit hs in
theorem CowInv.count_pos (hn : 0 < s.numBlocks) : 0 < s.count := by
  have := hi.numBlocks
  split at this <;> omega

omit hs in
theorem CowInv.alloc_eq (hn : 0 < s.numBlocks) (ha : 0 < s.alloc env) :
    (s.alloc env).toNat = (s.bytes env + s.pos % 4096 - 1) / 4096 + 1 := by
  have hc := hi.count_pos hn
  have hN := hi.numBlocks
  rw [if_neg (by omega)] at hN
  have hle : s.alloc env ≤ s.numBlocks := min_le_right _ _
  have hA : ((s.alloc env).toNat : Int) = s.alloc env := Int.toNat_of_nonneg ha.le
  unfold CowLoop.bytes
  omega

theorem CowInv.src : ∀ p q, s.w.inode.index p = some q → getNvmm (s.w.mem.slots q) p ≠ 0 ∧
    (getNvmm (s.w.mem.slots q) p < s.block env ∨
      s.block env + (s.alloc env).toNat ≤ getNvmm (s.w.mem.slots q) p) := by
  intro p q hq
  rw [hi.inode] at hq
  rw [hi.slots q (.inl (hs.mapped_lt hq))]
  refine ⟨hs.nonzero p q hq, ?_⟩
  by_contra hin
  push_neg at hin
  exact hs.fresh s.step s.numBlocks _ p q hin hq rfl

omit hi in
theorem WriteSafe.notCsum_handed {j : Nat} (hj : j < 4096 * (s.alloc env).toNat) :
    sb.blockCsumBase ≠ 0 → NotCsum sb (s.block env * 4096 + j) := fun h0 => by
  have h := hs.csumApart h0 (s.block env + j / 4096) (j % 4096) (Nat.mod_lt _ (by decide))
    (.inl ⟨s.step, s.numBlocks, show s.block env ≤ _ ∧ _ < s.block env + (s.alloc env).toNat by omega⟩)
  rwa [show (s.block env + j / 4096) * 4096 + j % 4096 = s.block env * 4096 + j by omega] at h

variable (A : s.Advances sb env buf isize s')
include A

theorem CowInv.kept_bytes {blk o : Nat} (hk : Kept sb env s blk) (ho : o < 4096) :
    s'.w.mem.bytes (blk * 4096 + o) = s.w.mem.bytes (blk * 4096 + o) := by
  have hout : blk < s.block env ∨ s.block env + (s.alloc env).toNat ≤ blk := by
    by_contra h
    push_neg at h
    exact hk.1 s.step s.numBlocks le_rfl h
  rw [A.bytes _ fun h0 => hk.2 h0 o ho, fill_bytes_outside buf (hi.src hs) A.alloc (by omega)]

omit hs in
theorem CowInv.slots_ne {q : Nat} (hq : q ≠ logStart env w₀ + s.step) :
    s'.w.mem.slots q = s.w.mem.slots q := by
  rw [A.slots, Function.update_noteq (by rw [hi.slot_eq]; exact hq)]

omit hs in
theorem CowInv.pending_advance (p : Nat) : pendingIndex env w₀ s' p =
    if (cowEntry env isize s.pos (s.bytes env) (s.alloc env).toNat (s.block env)).Maps p
    then some (logStart env w₀ + s.step) else pendingIndex env w₀ s p := by
  have hcong : assignFrom s'.w.mem.slots s.step (logStart env w₀) w₀.inode.index =
      assignFrom s.w.mem.slots s.step (logStart env w₀) w₀.inode.index :=
    assignFrom_congr _ _ (fun q _ hq => by rw [hi.slots_ne A (by omega)]) _
  unfold pendingIndex
  rw [A.step, assignFrom_succ, hcong, A.slots, hi.slot_eq, Function.update_same]

theorem CowInv.content_advance (hn : 0 < s.numBlocks) (x : Nat) :
    fileByte { w₀.inode with index := pendingIndex env w₀ s' } s'.w.mem x =
      if pos₀ ≤ x ∧ x < s'.pos then buf (x - pos₀) else fileByte w₀.inode w₀.mem x := by
  have hc := hi.count_pos hn
  have hb := CowLoop.bytes_pos A.alloc hc
  have hnum := hi.alloc_eq hn A.alloc
  have hbc : s.bytes env ≤ 4096 * (s.alloc env).toNat - s.pos % 4096 := min_le_left _ _
  have hal := hi.aligned
  have hst := hi.start
  have hpos := hi.pos
  rw [A.pos]
  by_cases hm : (cowEntry env isize s.pos (s.bytes env) (s.alloc env).toNat (s.block env)).Maps (x / 4096)
  · have hm' := hm
    simp only [WriteEntry.Maps, cowEntry, true_and] at hm'
    have hidx : pendingIndex env w₀ s' (x / 4096) = some (logStart env w₀ + s.step) := by
      rw [hi.pending_advance A, if_pos hm]
    have haddr : getNvmm (s'.w.mem.slots (logStart env w₀ + s.step)) (x / 4096) * 4096 + x % 4096 =
        s.block env * 4096 + (x - s.pos / 4096 * 4096) := by
      rw [A.slots, hi.slot_eq, Function.update_same]
      simp only [getNvmm, cowEntry]
      omega
    have hj : x - s.pos / 4096 * 4096 < 4096 * (s.alloc env).toNat := by omega
    rw [fileByte_some _ hidx, haddr, A.bytes _ (hs.notCsum_handed hj), fill_bytes_block buf (hi.src hs) hb A.copied hnum hj]
    by_cases hd : s.pos % 4096 ≤ x - s.pos / 4096 * 4096 ∧ x - s.pos / 4096 * 4096 < s.pos % 4096 + s.bytes env
    · rw [if_pos hd, if_pos (by omega)]
      exact congrArg buf (by omega)
    · rw [if_neg hd, if_neg (by omega), hi.inode, show s.pos / 4096 * 4096 + (x - s.pos / 4096 * 4096) = x by omega]
      exact hi.old x
  · have hm' := hm
    simp only [WriteEntry.Maps, cowEntry, true_and, not_and_or, not_le, not_lt] at hm'
    rw [fileByte_index_congr _ _ (by rw [hi.pending_advance A, if_neg hm]),
      fileByte_congr fun q hq => ?_, hi.content x]
    · have hiff : (pos₀ ≤ x ∧ x < s.pos) ↔ (pos₀ ≤ x ∧ x < s.pos + s.bytes env) := by omega
      simp only [hiff]
    · obtain ⟨hq', hk⟩ := hi.points _ q hq
      exact ⟨hi.slots_ne A (by omega), hi.kept_bytes hs A hk (Nat.mod_lt _ (by decide))⟩

/-- One step of the loop keeps the invariant. -/
theorem CowInv.advance (hn : 0 < s.numBlocks) : CowInv sb env buf w₀ pos₀ len s' := by
  have hc := hi.count_pos hn
  have hb := CowLoop.bytes_pos A.alloc hc
  have hbc : s.bytes env ≤ s.count := min_le_right _ _
  have hN := hi.numBlocks
  rw [if_neg (by omega)] at hN
  obtain ⟨haligned, hnb⟩ := step_arith hc hb hN (hi.alloc_eq hn A.alloc) rfl
  have hslot := hi.slot_eq
  have hlt := hi.slot
  have hpos := hi.pos
  have hw := hi.written
  refine ⟨A.inode.trans hi.inode, A.tails.trans hi.tails, fun q hq => ?_, ?_, ?_, ?_, ?_, ?_, ?_, ?_, ?_,
    fun x => ?_, fun p hp => ?_, fun p q hq => ?_, hi.content_advance hs A hn⟩
  case refine_1 =>
    rw [A.step] at hq
    rw [hi.slots_ne A (by omega), hi.slots q (by omega)]
  case refine_2 => rw [A.written, A.count]; omega
  case refine_3 => rw [A.pos, A.written]; omega
  case refine_4 => rw [A.numBlocks, A.count, A.pos]; exact hnb
  case refine_5 => rw [A.count, A.pos]; exact fun _ h => haligned h
  case refine_6 => rw [A.step]; omega
  case refine_7 => have := A.slot; rw [A.step]; omega
  case refine_8 =>
    rw [A.beginTail, A.step, hslot, hi.beginTail, if_neg (Nat.succ_ne_zero _)]
    by_cases h : s.step = 0
    · simp only [h, if_true, Nat.add_zero]
    · simp only [h, if_false, Nat.pos_iff_ne_zero.mp (hlt (by omega))]
  case refine_9 => rw [A.tempTail, A.step, hslot, if_neg (Nat.succ_ne_zero _), Nat.add_assoc]
  case refine_10 =>
    rw [← hi.old x]
    exact fileByte_congr fun q hq => ⟨hi.slots_ne A (by have := hs.mapped_lt hq; omega),
      hi.kept_bytes hs A (hs.kept_mapped hi hq) (Nat.mod_lt _ (by decide))⟩
  case refine_11 =>
    have hnum := hi.alloc_eq hn A.alloc
    rw [A.pos] at hp
    rw [hi.pending_advance A, if_neg fun hm => by simp only [WriteEntry.Maps, cowEntry, true_and] at hm; omega,
      hi.untouched p (by omega)]
  case refine_12 =>
    rw [hi.pending_advance A] at hq
    split at hq
    · rename_i hm
      cases hq
      simp only [WriteEntry.Maps, cowEntry, true_and] at hm
      refine ⟨by rw [A.step]; omega, ?_⟩
      rw [A.slots, hslot, Function.update_same]
      have hh : env.Hands s.step s.numBlocks (getNvmm (cowEntry env isize s.pos (s.bytes env)
          (s.alloc env).toNat (s.block env)) p) := by
        show s.block env ≤ _ ∧ _ < s.block env + (s.alloc env).toNat
        simp only [getNvmm, cowEntry]
        omega
      exact ⟨fun k n hk hk' => by have := hs.apart _ _ _ _ _ hh hk'; rw [A.step] at hk; omega,
        fun h0 o ho => hs.csumApart h0 _ o ho (.inl ⟨_, _, hh⟩)⟩
    · obtain ⟨hq', hk⟩ := hi.points p q hq
      refine ⟨by rw [A.step]; omega, ?_⟩
      rw [hi.slots_ne A (by omega)]
      exact hk.advance A.step

end Step

/-- Where the loop can end from a state of the invariant `P`: a `goto out` never with a positive
value, and a `break` or a finished loop that lost no byte, in `P` when every byte was copied. -/
def LoopEnd.Reached (len : Nat) (P : CowLoop → Prop) : LoopEnd → Prop
  | .out _ ret => ret ≤ 0
  | .done s => s.written + s.count = len ∧ (s.count = 0 → P s)

theorem cowInv_start {sb : Sb} {env : WriteEnv} {buf : Nat → UInt8} {w : World} {ppos len : Nat}
    (hs : WriteSafe sb env w) (hlen : 0 < len) :
    CowInv sb env buf w ppos len
      { w, pos := ppos, count := len, numBlocks := (len + ppos % 4096 - 1) / 4096 + 1, written := 0,
        status := 0, step := 0, blocknr := 0, allocated := 0, beginTail := 0,
        tempTail := w.mem.tails w.inode.ino } := by
  refine ⟨rfl, rfl, fun _ _ => rfl, Nat.zero_add len, rfl, (if_neg (show ¬ len = 0 by omega)).symm,
    fun h => absurd h (Nat.lt_irrefl 0), fun _ => rfl, fun h => absurd h (Nat.lt_irrefl 0), rfl, rfl,
    fun _ => rfl, fun _ _ => rfl, fun p q hq => ⟨hs.mapped_lt hq, fun k n _ hk => hs.fresh k n _ p q hk hq rfl,
      fun h0 o ho => hs.csumApart h0 _ o ho (.inr ⟨p, q, hq, rfl⟩)⟩, fun x => ?_⟩
  show fileByte w.inode w.mem x = if ppos ≤ x ∧ x < ppos then buf (x - ppos) else fileByte w.inode w.mem x
  rw [if_neg (by omega)]

section Loop
variable {sb : Sb} {env : WriteEnv} {buf : Nat → UInt8} {w₀ : World} {pos₀ len isize : Nat}
  (hs : WriteSafe sb env w₀)
include hs

/-- From a state of the invariant, the loop runs until it copies everything, keeping the
invariant, or stops early with an error or with bytes left. -/
theorem cowLoop_reached : ∀ (fuel : Nat) (s : CowLoop), CowInv sb env buf w₀ pos₀ len s →
    (cowLoop sb env buf isize fuel s).Reached len (CowInv sb env buf w₀ pos₀ len)
  | 0, _, hi => ⟨hi.written, fun _ => hi⟩
  | fuel + 1, s, hi => by
    rw [cowLoop]
    split
    · rename_i hn
      have hc := hi.count_pos hn
      split
      · rename_i e he
        have he' := cowStep_inl he hc
        have hw := hi.written
        cases e with
        | out _ _ => exact he'
        | done s' =>
          obtain ⟨hpos, hsum⟩ := he'
          exact ⟨by omega, fun h0 => absurd hpos (by omega)⟩
      · rename_i s' he
        exact cowLoop_reached fuel s' (hi.advance hs (cowStep_inr he hc) hn)
    · exact ⟨hi.written, fun _ => hi⟩

end Loop

/-- The file a write of `len` bytes of `buf` at `pos` into `w` leaves: the payload over
[pos, pos + len) and the old content elsewhere, read through the page index (zeros in a hole), the
pages outside the written ones mapped as before, and i_size grown to cover the write. -/
structure Wrote (w : World) (buf : Nat → UInt8) (pos len : Nat) (w' : World) : Prop where
  content : ∀ x, fileByte w'.inode w'.mem x =
    if pos ≤ x ∧ x < pos + len then buf (x - pos) else fileByte w.inode w.mem x
  index : ∀ p, p < pos / 4096 ∨ (pos + len - 1) / 4096 < p → w'.inode.index p = w.inode.index p
  iSize : w'.inode.iSize = max w.inode.iSize (pos + len)

theorem cowOut_eq (s : CowLoop) (ret : Int) (ppos : Nat) : cowOut s ret ppos = ⟨ret, s.w, ppos⟩ := by
  simp only [cowOut, if_neg (not_lt.mpr (sizeT_nonneg ret))]

theorem cowPublish_ret (s : CowLoop) (totalBlocks ppos : Nat) :
    (cowPublish s totalBlocks ppos).ret ≤ 0 ∨ (cowPublish s totalBlocks ppos).ret = s.written := by
  unfold cowPublish
  dsimp only
  split <;> rw [cowOut_eq]
  · exact .inl (novaReassignFileTree_nonpos _ _)
  · exact .inr rfl

theorem cowPublish_bytes (s : CowLoop) (totalBlocks ppos : Nat) :
    (cowPublish s totalBlocks ppos).w.mem.bytes = s.w.mem.bytes := by
  unfold cowPublish
  dsimp only
  split <;> rw [cowOut_eq]
  · exact novaReassignFileTree_bytes _ _
  · dsimp only
    split <;> exact novaReassignFileTree_bytes _ _

theorem cowPublish_wrote {sb : Sb} {env : WriteEnv} {buf : Nat → UInt8} {w₀ : World} {pos₀ len : Nat}
    {s : CowLoop} (hi : CowInv sb env buf w₀ pos₀ len s) (hc : s.count = 0) (hlen : 0 < len)
    (totalBlocks ppos : Nat) :
    (cowPublish s totalBlocks ppos).ret = len ∧ Wrote w₀ buf pos₀ len (cowPublish s totalBlocks ppos).w := by
  have hw := hi.written
  have hstep : 0 < s.step := by
    by_contra h
    have := hi.start (by omega)
    omega
  have hL := hi.slot hstep
  unfold cowPublish
  dsimp only
  generalize hW : (s.w.setInode _).emit (novaUpdateTail s.w.inode.ino s.tempTail) = W
  have hWi : W.inode.index = w₀.inode.index ∧ W.inode.iSize = w₀.inode.iSize := by
    rw [← hW, ← hi.inode]; exact ⟨rfl, rfl⟩
  have hWm : W.mem.slots = s.w.mem.slots ∧ W.mem.bytes = s.w.mem.bytes := by rw [← hW]; exact ⟨rfl, rfl⟩
  have ht : W.mem.tails W.inode.ino = logStart env w₀ + s.step := by
    rw [← hW]
    simp only [World.emit_mem, World.emit_inode, World.setInode_inode, World.setInode_mem, novaUpdateTail,
      Pmem.run_cons, Pmem.run_nil, Pmem.step, Function.update_same, hi.tempTail, if_neg hstep.ne']
  have hre : novaReassignFileTree W s.beginTail = reassignWalk W s.step (logStart env w₀) := by
    rw [novaReassignFileTree, ht, hi.beginTail, if_neg hstep.ne', Nat.add_sub_cancel_left]
  obtain ⟨hr0, hbk, hidx⟩ := reassignWalk_spec s.step (logStart env w₀) W hL ht
  rw [hre]
  generalize reassignWalk W s.step (logStart env w₀) = R at hr0 hbk hidx
  obtain ⟨r, W₂⟩ := R
  dsimp only at hr0 hbk hidx ⊢
  subst hr0
  have hidx' : W₂.inode.index = pendingIndex env w₀ s := by rw [hidx, hWm.1, hWi.1]; rfl
  have hsz : W₂.inode.iSize = w₀.inode.iSize := (congrArg Inode.iSize hbk.inode).trans hWi.2
  simp only [ne_eq, not_true_eq_false, if_false, cowOut_eq]
  have hpos := hi.pos
  refine ⟨by omega, ?_⟩
  have wrote : ∀ W₃ : World, W₃.inode.index = W₂.inode.index → W₃.mem = W₂.mem →
      W₃.inode.iSize = max w₀.inode.iSize (pos₀ + len) → Wrote w₀ buf pos₀ len W₃ := fun W₃ hi₃ hm₃ hs₃ =>
    ⟨fun x => (fileByte_extent_congr (hi₃.trans hidx') (fun q => by rw [hm₃, hbk.extent, hWm.1])
      (by rw [hm₃, hbk.bytes, hWm.2]) x).trans ((hi.content x).trans (by rw [hpos, show s.written = len by omega])),
     fun p hp => by rw [hi₃, hidx', hi.untouched p (by omega)], hs₃⟩
  split
  · exact wrote _ rfl rfl (by simp only [World.setInode_inode]; omega)
  · exact wrote _ rfl rfl (by omega)

/-- An allocator handing out one block per loop step, 1000 + step, and copies that go through. -/
def blockPerStep : WriteEnv :=
  ⟨true, 0, 5, 9, fun k _ => (1, 1000 + k), fun _ _ => 0, fun _ => true, 1, fun _ => 7⟩

/-- Inode 1 maps page 0, through the entry in slot 100, to block 500, which holds 97s. -/
def pageZeroFile : World :=
  ⟨⟨1, fun p => if p = 0 then some 100 else none, 4096, 1, false⟩,
    ⟨fun x => if 2048000 ≤ x ∧ x < 2052096 then 97 else 0,
      fun s => if s = 100 then ⟨fileWrite, 0, 1, 0, 1, 0, 2048000, 0, 4096⟩ else default, fun _ => 101⟩,
    [], [], []⟩

/-- A write that returns `len` has written: the file reads as the old content with the payload
over [ppos, ppos + len), the pages outside the written ones keep their mapping, and i_size covers
the write. -/
theorem cow_write_replaces_range {sb : Sb} {env : WriteEnv} {w : World} {buf : Nat → UInt8}
    {len ppos : Nat} (hs : WriteSafe sb env w) (hlen : 0 < len)
    (hret : (novaCowFileWrite sb env w buf len ppos false).ret = len) :
    Wrote w buf ppos len (novaCowFileWrite sb env w buf len ppos false).w := by
  unfold novaCowFileWrite at hret ⊢
  simp only [Nat.pos_iff_ne_zero.mp hlen, if_false, Bool.false_eq_true] at hret ⊢
  have hlen' : (0 : Int) < len := by omega
  by_cases hm : w.inode.mapped = true
  · simp only [hm, if_true] at hret
    exact absurd hret (by unfold Errno.acces; omega)
  by_cases ha : env.accessOk = true
  swap
  · simp only [hm, ha, if_false, Bool.false_eq_true, not_false_eq_true, if_true, cowOut_eq] at hret
    exact absurd hret (by unfold Errno.fault; omega)
  by_cases hp : env.removePrivs ≠ 0
  · simp only [hm, ha, hp, if_false, Bool.false_eq_true, not_false_eq_true, not_true_eq_false, if_true,
      ne_eq, cowOut_eq] at hret
    exact absurd hret (by have := hs.privs; omega)
  simp only [hm, ha, hp, if_false, Bool.false_eq_true, not_true_eq_false] at hret ⊢
  have hloop := @cowLoop_reached sb env buf w ppos len w.inode.iSize hs ((len + ppos % 4096 - 1) / 4096 + 1) _
    (cowInv_start hs hlen)
  generalize cowLoop sb env buf w.inode.iSize _ _ = e at hloop hret ⊢
  cases e with
  | out s' r =>
    dsimp only at hret
    rw [cowOut_eq] at hret
    exact absurd hloop (by dsimp only [LoopEnd.Reached] at hret ⊢; omega)
  | done s' =>
    obtain ⟨hsum, hinv⟩ := hloop
    have hc : s'.count = 0 := by
      rcases cowPublish_ret s' ((len + ppos % 4096 - 1) / 4096 + 1) ppos with h | h <;> dsimp only at hret <;> omega
    exact (cowPublish_wrote (hinv hc) hc hlen _ ppos).2

/-- 100 bytes at 4000 into `pageZeroFile`, checksums off: the head of page 0 comes from block 500,
the tail of page 1 is a hole. -/
theorem cow_write_across_pages :
    WriteSafe ⟨0, id, 1⟩ blockPerStep pageZeroFile ∧
      (novaCowFileWrite ⟨0, id, 1⟩ blockPerStep pageZeroFile (fun _ => 7) 100 4000 false).ret = 100 ∧
      Wrote pageZeroFile (fun _ => 7) 4000 100
        (novaCowFileWrite ⟨0, id, 1⟩ blockPerStep pageZeroFile (fun _ => 7) 100 4000 false).w := by
  have hidx : ∀ p q, pageZeroFile.inode.index p = some q → p = 0 ∧ q = 100 := by
    intro p q h
    simp only [pageZeroFile] at h
    split at h <;> simp_all
  have hs : WriteSafe ⟨0, id, 1⟩ blockPerStep pageZeroFile := by
    refine ⟨fun p q h => ?_, fun p q h => ?_, fun k n blk p q hk h => ?_, fun k k' n n' blk hk hk' => ?_,
      fun h0 => absurd rfl h0, Int.le_refl 0⟩
    · obtain ⟨rfl, rfl⟩ := hidx p q h; decide
    · obtain ⟨rfl, rfl⟩ := hidx p q h; decide
    · obtain ⟨rfl, rfl⟩ := hidx p q h
      simp only [WriteEnv.Hands, blockPerStep] at hk
      show 500 ≠ blk
      omega
    · simp only [WriteEnv.Hands, blockPerStep] at hk hk'
      omega
  have hret : (novaCowFileWrite ⟨0, id, 1⟩ blockPerStep pageZeroFile (fun _ => 7) 100 4000 false).ret = 100 := by
    decide
  exact ⟨hs, hret, cow_write_replaces_range hs (by decide) hret⟩

end Nova
