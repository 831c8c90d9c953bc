import Nova.Dax.CowTile
import Nova.Dax.GetBlocks
import Nova.Dax.Index

/-! The DAX file refines a flat file: its bytes and its size. -/
namespace Nova

section Loop
variable {sb : Sb} {env : WriteEnv} {buf : Nat → UInt8} {w₀ : World} {pos₀ len isize : Nat}

theorem cowLoop_reached_and (hs : WriteSafe sb env w₀) {Q : CowLoop → Prop}
    (hQ : ∀ s s', CowInv sb env buf w₀ pos₀ len s → 0 < s.numBlocks → s.Advances sb env buf isize s' →
      Q s → Q s') :
    ∀ (fuel : Nat) (s : CowLoop), CowInv sb env buf w₀ pos₀ len s → Q s →
      (cowLoop sb env buf isize fuel s).Reached len (fun s => CowInv sb env buf w₀ pos₀ len s ∧ Q s)
  | 0, _, hi, hq => ⟨hi.written, fun _ => ⟨hi, hq⟩⟩
  | fuel + 1, s, hi, hq => by
    rw [cowLoop]
    split
    · rename_i hn
      have hc := hi.count_pos hn
      split
      · rename_i e he
        have hw := hi.written
        cases e with
        | out _ _ => exact cowStep_inl he hc
        | done s' =>
          obtain ⟨hpos, hsum⟩ := cowStep_inl he hc
          exact ⟨by omega, fun h0 => absurd hpos (by omega)⟩
      · rename_i s' he
        have A := cowStep_inr he hc
        exact cowLoop_reached_and hs hQ fuel s' (hi.advance hs A hn) (hQ s s' hi hn A hq)
    · exact ⟨hi.written, fun _ => ⟨hi, hq⟩⟩

/-- The entries the loop has appended hold blocks other than 0. -/
def AppendedBlocks (env : WriteEnv) (w₀ : World) (s : CowLoop) : Prop :=
  BlocksFrom s.w (logStart env w₀) s.step

theorem AppendedBlocks.advance (hzero : ∀ k n blk, env.Hands k n blk → blk ≠ 0) {s s' : CowLoop}
    (hi : CowInv sb env buf w₀ pos₀ len s) (A : s.Advances sb env buf isize s')
    (h : AppendedBlocks env w₀ s) : AppendedBlocks env w₀ s' := by
  intro q h1 h2 hty p hp1 hp2
  rw [A.step] at h2
  rw [A.slots, hi.slot_eq] at hty hp1 hp2 ⊢
  by_cases hq : q = logStart env w₀ + s.step
  · subst hq
    simp only [Function.update_same, cowEntry, getNvmm] at hp1 hp2 ⊢
    have hb := hzero s.step s.numBlocks (s.block env) ⟨Nat.le_refl _, Nat.lt_add_of_pos_right (by
      have := A.alloc; unfold CowLoop.alloc at this; omega)⟩
    omega
  · simp only [Function.update_noteq hq] at hty hp1 hp2 ⊢
    exact h q h1 (by omega) hty p hp1 hp2

end Loop

/-- A write that returns its length `len > 0` ran its loop to the end, copying everything, and
published: the loop's final state keeps the invariant and its entries hold blocks other than 0
when the allocator never hands out block 0. -/
theorem novaCowFileWrite_published {sb : Sb} {env : WriteEnv} {w : World} {buf : Nat → UInt8}
    {len ppos : Nat} (hs : WriteSafe sb env w) (hzero : ∀ k n blk, env.Hands k n blk → blk ≠ 0)
    (hlen : 0 < len) (hret : (novaCowFileWrite sb env w buf len ppos false).ret = len) :
    ∃ s, CowInv sb env buf w ppos len s ∧ AppendedBlocks env w s ∧ s.count = 0 ∧
      novaCowFileWrite sb env w buf len ppos false = cowPublish s ((len + ppos % 4096 - 1) / 4096 + 1) ppos := by
  have hlen' : (0 : Int) < len := by omega
  have hm : w.inode.mapped = false := by
    cases h : w.inode.mapped
    · rfl
    · simp only [novaCowFileWrite, Nat.pos_iff_ne_zero.mp hlen, h, if_false, if_true] at hret
      exact absurd hret (by unfold Errno.acces; omega)
  have ha : env.accessOk = true := by
    cases h : env.accessOk
    · simp only [novaCowFileWrite, Nat.pos_iff_ne_zero.mp hlen, hm, h, if_false, Bool.false_eq_true,
        not_false_eq_true, if_true, cowOut_eq] at hret
      exact absurd hret (by unfold Errno.fault; omega)
    · rfl
  have hp : env.removePrivs = 0 := by
    by_contra h
    simp only [novaCowFileWrite, Nat.pos_iff_ne_zero.mp hlen, hm, ha, h, if_false, Bool.false_eq_true,
      not_true_eq_false, ne_eq, not_false_eq_true, if_true, cowOut_eq] at hret
    have := hs.privs
    omega
  rw [novaCowFileWrite_eq_loop (Nat.pos_iff_ne_zero.mp hlen) hm ha hp] at hret ⊢
  have hloop := @cowLoop_reached_and sb env buf w ppos len w.inode.iSize hs (AppendedBlocks env w)
    (fun s s' hi _ A h => h.advance hzero hi A) ((len + ppos % 4096 - 1) / 4096 + 1) (cowStart w ppos len)
    (cowInv_start hs hlen) (fun q h1 h2 => by dsimp only [cowStart] at h2; omega)
  generalize cowLoop sb env buf w.inode.iSize _ _ = e at hloop hret ⊢
  cases e with
  | out s r =>
    dsimp only at hret
    rw [cowOut_eq] at hret
    exact absurd hloop (by dsimp only [LoopEnd.Reached] at hret ⊢; omega)
  | done s =>
    obtain ⟨hsum, hinv⟩ := hloop
    have hc : s.count = 0 := by
      rcases cowPublish_ret s ((len + ppos % 4096 - 1) / 4096 + 1) ppos with h | h <;> dsimp only at hret <;> omega
    exact ⟨s, (hinv hc).1, (hinv hc).2, hc, rfl⟩

theorem cowPublish_ppos (s : CowLoop) (totalBlocks p p' : Nat) :
    (cowPublish s totalBlocks p).w = (cowPublish s totalBlocks p').w ∧
      (cowPublish s totalBlocks p).ret = (cowPublish s totalBlocks p').ret := by
  unfold cowPublish
  dsimp only
  split <;> exact ⟨rfl, rfl⟩

theorem novaCowFileWrite_append (sb : Sb) (env : WriteEnv) (w : World) (buf : Nat → UInt8) (len ppos : Nat) :
    (novaCowFileWrite sb env w buf len ppos true).w = (novaCowFileWrite sb env w buf len w.inode.iSize false).w ∧
      (novaCowFileWrite sb env w buf len ppos true).ret =
        (novaCowFileWrite sb env w buf len w.inode.iSize false).ret := by
  unfold novaCowFileWrite
  simp only [if_true, Bool.false_eq_true, if_false]
  split; · exact ⟨rfl, rfl⟩
  split; · exact ⟨rfl, rfl⟩
  split; · exact ⟨rfl, rfl⟩
  split; · exact ⟨rfl, rfl⟩
  split
  · exact ⟨rfl, rfl⟩
  · exact cowPublish_ppos _ _ _ _

theorem cowPublish_indexOk {sb : Sb} {env : WriteEnv} {buf : Nat → UInt8} {w₀ : World} {pos₀ len : Nat}
    {s : CowLoop} (hs : WriteSafe sb env w₀) (hok : IndexOk w₀.inode w₀.mem)
    (hi : CowInv sb env buf w₀ pos₀ len s) (hb : AppendedBlocks env w₀ s) (hc : s.count = 0)
    (hlen : 0 < len) (totalBlocks ppos : Nat) :
    IndexOk (cowPublish s totalBlocks ppos).w.inode (cowPublish s totalBlocks ppos).w.mem ∧
      ∀ p q, (cowPublish s totalBlocks ppos).w.inode.index p = some q →
        q < (cowPublish s totalBlocks ppos).w.mem.tails (cowPublish s totalBlocks ppos).w.inode.ino := by
  have hw := hi.written
  have hstep : 0 < s.step := by
    by_contra h
    have := hi.start (by omega)
    omega
  have hL := hi.slot hstep
  unfold cowPublish
  dsimp only
  generalize hW : (s.w.setInode _).emit (novaUpdateTail s.w.inode.ino s.tempTail) = W
  have hWi : W.inode.index = w₀.inode.index ∧ W.inode.ino = w₀.inode.ino := by
    rw [← hW, ← hi.inode]; exact ⟨rfl, rfl⟩
  have hWs : W.mem.slots = s.w.mem.slots := by rw [← hW]; rfl
  have ht : W.mem.tails W.inode.ino = logStart env w₀ + s.step := by
    rw [← hW]
    simp only [World.emit_mem, World.emit_inode, World.setInode_inode, World.setInode_mem, novaUpdateTail,
      Pmem.run_cons, Pmem.run_nil, Pmem.step, Function.update_same, hi.tempTail, if_neg hstep.ne']
  have hokW : IndexOk W.inode W.mem := fun p q h => by
    rw [hWi.1] at h
    rw [hWs, hi.slots q (.inl (hs.mapped_lt h)), hWi.1]
    exact hok p q h
  have hre : novaReassignFileTree W s.beginTail = reassignWalk W s.step (logStart env w₀) := by
    rw [novaReassignFileTree, ht, hi.beginTail, if_neg hstep.ne', Nat.add_sub_cancel_left]
  have hokR := reassignWalk_indexOk s.step (logStart env w₀) W hL ht hokW
    (BlocksFrom.congr hb fun q => by rw [hWs])
  obtain ⟨hr0, hbk, hidx⟩ := reassignWalk_spec s.step (logStart env w₀) W hL ht
  rw [hre]
  generalize reassignWalk W s.step (logStart env w₀) = R at hr0 hbk hidx hokR
  obtain ⟨r, W₂⟩ := R
  dsimp only at hr0 hbk hidx hokR ⊢
  subst hr0
  have hpub : ∀ p q, W₂.inode.index p = some q → q < W₂.mem.tails W₂.inode.ino := fun p q h => by
    rw [hbk.tails, hbk.inode]
    dsimp only
    rw [ht]
    rw [hidx] at h
    rcases assignFrom_range _ _ _ _ p q h with h' | h'
    · rw [hWi.1] at h'
      have := hs.mapped_lt h'
      omega
    · omega
  simp only [ne_eq, not_true_eq_false, if_false, cowOut_eq]
  split
  · exact ⟨hokR, hpub⟩
  · exact ⟨hokR, hpub⟩

/-- A file as its users see it: its bytes and its size. -/
structure FlatFile where
  bytes : Nat → UInt8
  size : Nat

/-- Writing `len` bytes of `buf` at `pos`: they replace what was there, and the file grows to hold
them. -/
def FlatFile.write (f : FlatFile) (buf : Nat → UInt8) (pos len : Nat) : FlatFile :=
  ⟨fun x => if pos ≤ x ∧ x < pos + len then buf (x - pos) else f.bytes x, max f.size (pos + len)⟩

/-- The world holds the file `f`: the page index is well formed and points into the published log,
and the file reads through it as `f`'s bytes, with `f`'s size as i_size. -/
structure Holds (w : World) (f : FlatFile) : Prop where
  index : IndexOk w.inode w.mem
  published : ∀ p q, w.inode.index p = some q → q < w.mem.tails w.inode.ino
  bytes : ∀ x, fileByte w.inode w.mem x = f.bytes x
  size : w.inode.iSize = f.size

section Holds
variable {w : World} {f : FlatFile}

/-- A write that returns its length keeps the world holding the file, with the payload written,
when the allocator never hands out block 0. -/
theorem Holds.write {sb : Sb} {env : WriteEnv} {buf : Nat → UInt8} {len ppos : Nat} (hw : Holds w f)
    (hs : WriteSafe sb env w) (hzero : ∀ k n blk, env.Hands k n blk → blk ≠ 0) (hlen : 0 < len)
    (hret : (novaCowFileWrite sb env w buf len ppos false).ret = len) :
    Holds (novaCowFileWrite sb env w buf len ppos false).w (f.write buf ppos len) := by
  obtain ⟨s, hi, hb, hc, heq⟩ := novaCowFileWrite_published hs hzero hlen hret
  rw [heq]
  obtain ⟨hok, hpub⟩ := cowPublish_indexOk hs hw.index hi hb hc hlen _ ppos
  have hwr := (cowPublish_wrote hi hc hlen ((len + ppos % 4096 - 1) / 4096 + 1) ppos).2
  exact ⟨hok, hpub, fun x => by rw [hwr.content, hw.bytes]; rfl, by rw [hwr.iSize, hw.size]; rfl⟩

/-- A read of `len > 0` bytes the file holds, with checksums off and every copy going through,
returns them and moves `*ppos` past them. -/
theorem Holds.read {sb : Sb} {env : ReadEnv} {len ppos : Nat} (hw : Holds w f) (hcs : sb.blockCsumBase = 0)
    (hacc : env.accessOk = true) (hleft : ∀ k n, env.left k n = 0) (hlen : 0 < len)
    (hin : ppos + len ≤ f.size) :
    doDaxMappingRead sb env w.inode w.mem len ppos = ((len : Int), bytesOf f.bytes ppos len, ppos + len) := by
  rw [← hw.size] at hin
  have hclamp : ¬ (ppos ≤ w.inode.iSize ∧ w.inode.iSize - ppos < len) := by omega
  have hstart : readStart env w.inode len ppos =
      ⟨ppos, w.inode.iSize, len, ppos / 4096, ppos % 4096, 0, [], 0, none, none⟩ := by
    simp only [readStart, hacc, not_true_eq_false, if_false, Nat.pos_iff_ne_zero.mp (by omega : 0 < w.inode.iSize),
      hclamp, Nat.pos_iff_ne_zero.mp hlen]
  have hinv := @readStart_inv env w.inode w.mem ppos len
  rw [hstart] at hinv
  obtain ⟨hret, hcop⟩ := readLoop_finishes hw.index hcs hleft (len + 1) _ hinv (by dsimp only; omega) rfl
    (by dsimp only; omega) (by dsimp only; omega)
  have hout := (@readLoop_inv sb env w.inode w.mem ppos hw.index (len + 1) _ hinv).1
  unfold doDaxMappingRead
  rw [hstart]
  dsimp only at hret hcop hout ⊢
  rw [hret]
  dsimp only
  rw [hout, hcop]
  exact congrArg (fun l => ((len : Int), l, ppos + len)) (bytesOf_congr fun k _ => hw.bytes _)

theorem Holds.congr {w' : World} (hw : Holds w f) (hi : w'.inode = w.inode) (hm : w'.mem = w.mem) :
    Holds w' f := by
  obtain ⟨h1, h2, h3, h4⟩ := hw
  exact ⟨by rw [hi, hm]; exact h1, by rw [hi, hm]; exact h2, by rw [hi, hm]; exact h3, by rw [hi]; exact h4⟩

theorem Holds.frame {w' : World} (hw : Holds w f) (hi : w'.inode = w.inode) (hs : w'.mem.slots = w.mem.slots)
    (ht : w'.mem.tails = w.mem.tails)
    (hb : ∀ p q o, w.inode.index p = some q → o < 4096 →
      w'.mem.bytes (getNvmm (w.mem.slots q) p * 4096 + o) = w.mem.bytes (getNvmm (w.mem.slots q) p * 4096 + o)) :
    Holds w' f := by
  refine ⟨fun p q h => ?_, fun p q h => ?_, fun x => ?_, by rw [hi]; exact hw.size⟩
  · rw [hi] at h ⊢; rw [hs]; exact hw.index p q h
  · rw [hi] at h ⊢; rw [ht]; exact hw.published p q h
  · rw [← hw.bytes x, hi]
    exact fileByte_congr fun q hq => ⟨by rw [hs], hb _ q _ hq (Nat.mod_lt _ (by decide))⟩

theorem publishFill_holds {fe : FaultEnv} {iblock allocated blocknr : Nat} (hw : Holds w f)
    (hhole : ∀ p, iblock ≤ p → p < iblock + allocated → w.inode.index p = none)
    (hfresh : ∀ p q, w.inode.index p = some q →
      getNvmm (w.mem.slots q) p < blocknr ∨ blocknr + allocated ≤ getNvmm (w.mem.slots q) p)
    (hnz : blocknr ≠ 0) :
    Holds (publishFill fe w iblock allocated blocknr).2.1 f := by
  unfold publishFill
  dsimp only
  generalize hz : (w.obtain blocknr allocated).emit [.storeNt (blocknr * 4096) (4096 * allocated) fun _ => 0] = wz
  have hzb : ∀ x, wz.mem.bytes x =
      if blocknr * 4096 ≤ x ∧ x < blocknr * 4096 + 4096 * allocated then 0 else w.mem.bytes x := fun x => by
    rw [← hz]; rfl
  have hzi : wz.inode = w.inode := by rw [← hz]; rfl
  have hzs : wz.mem.slots = w.mem.slots := by rw [← hz]; rfl
  have hzt : wz.mem.tails = w.mem.tails := by rw [← hz]; rfl
  have hwz : Holds wz f := hw.frame hzi hzs hzt fun p q o h ho => by
    rw [hzb, if_neg (by have := hfresh p q h; omega)]
  generalize hentry : (⟨fileWrite, 0, fe.transId, iblock, allocated, 0, blocknr * 4096, fe.time,
    wz.inode.iSize⟩ : WriteEntry) = entry
  have hpg : entry.pgoff = iblock := by rw [← hentry]
  have hnp : entry.numPages = allocated := by rw [← hentry]
  have hbl : entry.block = blocknr * 4096 := by rw [← hentry]
  generalize hc : (if wz.mem.tails wz.inode.ino = 0 then fe.firstSlot else wz.mem.tails wz.inode.ino) = c
  -- the slot of the entry is past every slot the index points to
  have hslot : ∀ p q, w.inode.index p = some q → q < c := fun p q h => by
    have := hw.published p q h
    rw [hzt, hzi] at hc
    split at hc <;> omega
  by_cases hroom : fe.room = true ∧ c ≠ 0
  swap
  · -- no room: the cleanup gives the blocks back
    simp only [novaAppendFileWriteEntry, hc, if_neg hroom, if_true]
    obtain ⟨hi, hm⟩ := novaCleanupIncompleteWrite_frame wz blocknr allocated 0 0
    exact hwz.congr hi hm
  · -- the entry is appended and published
    simp only [novaAppendFileWriteEntry, hc, if_pos hroom, if_neg hroom.2]
    generalize hW : ((wz.emit [.putEntry c entry]).setInode { (wz.emit [.putEntry c entry]).inode with
      iBlocks := (wz.emit [.putEntry c entry]).inode.iBlocks + allocated }).emit
        (novaUpdateTail (wz.emit [.putEntry c entry]).inode.ino (c + 1)) = W
    have hWi : W.inode.index = w.inode.index ∧ W.inode.ino = w.inode.ino ∧ W.inode.iSize = w.inode.iSize := by
      rw [← hW, ← hzi]; exact ⟨rfl, rfl, rfl⟩
    have hWs : W.mem.slots = Function.update w.mem.slots c entry := by rw [← hW, ← hzs]; rfl
    have hWb : W.mem.bytes = wz.mem.bytes := by rw [← hW]; rfl
    have ht : W.mem.tails W.inode.ino = c + 1 := by
      rw [← hW]
      simp only [World.emit_mem, World.emit_inode, World.setInode_inode, World.setInode_mem, novaUpdateTail,
        Pmem.run_cons, Pmem.run_nil, Pmem.step, Function.update_same]
    have hold : ∀ p q, w.inode.index p = some q → W.mem.slots q = w.mem.slots q := fun p q h => by
      rw [hWs, Function.update_noteq (Nat.ne_of_lt (hslot p q h))]
    have hokW : IndexOk W.inode W.mem := fun p q h => by
      rw [hWi.1] at h ⊢; rw [hold p q h]; exact hw.index p q h
    have hblocks : BlocksFrom W c 1 := fun q h1 h2 _ p hp1 hp2 => by
      obtain rfl : q = c := by omega
      rw [hWs, Function.update_same] at hp1 hp2 ⊢
      simp only [getNvmm, hpg, hbl]
      rw [hpg] at hp1
      omega
    have hre : novaReassignFileTree W c = reassignWalk W 1 c := by
      rw [novaReassignFileTree, ht, Nat.add_sub_cancel_left]
    have hokR := reassignWalk_indexOk 1 c W (Nat.pos_of_ne_zero hroom.2) ht hokW hblocks
    obtain ⟨hr0, hbk, hidx⟩ := reassignWalk_spec 1 c W (Nat.pos_of_ne_zero hroom.2) ht
    rw [hre]
    generalize reassignWalk W 1 c = R at hr0 hbk hidx hokR
    obtain ⟨r, W₂⟩ := R
    dsimp only at hr0 hbk hidx hokR ⊢
    subst hr0
    rw [if_neg (not_not.mpr rfl)]
    have hidx' : ∀ p, W₂.inode.index p = if entry.Maps p then some c else w.inode.index p := fun p => by
      rw [hidx, assignFrom, hWs, Function.update_same, hWi.1]; rfl
    refine ⟨hokR, fun p q h => ?_, fun x => ?_, by rw [hbk.inode]; exact hWi.2.2.trans hw.size⟩
    · rw [hbk.tails, hbk.inode]
      dsimp only
      rw [ht]
      rw [hidx'] at h
      split_ifs at h
      · cases h; omega
      · have := hslot p q h; omega
    · rw [← hw.bytes x]
      by_cases hm : entry.Maps (x / 4096)
      · -- a page of the hole reads the zeroed block
        have hx : W₂.inode.index (x / 4096) = some c := by rw [hidx', if_pos hm]
        obtain ⟨-, h1, h2⟩ := hm
        rw [hpg] at h1 h2
        rw [hnp] at h2
        rw [fileByte_some _ hx, getNvmm_congr (hbk.extent c), hbk.bytes, hWb, hzb, hWs, Function.update_same,
          fileByte, hhole _ h1 h2]
        simp only [getNvmm, hpg, hbl]
        rw [if_pos (by omega)]
      · -- any other page reads what it read before
        have hx : W₂.inode.index (x / 4096) = w.inode.index (x / 4096) := by rw [hidx', if_neg hm]
        unfold fileByte
        rw [hx]
        split
        · rfl
        · rename_i q hq
          have := hfresh _ q hq
          rw [getNvmm_congr (hbk.extent q), hold _ q hq, hbk.bytes, hWb, hzb, if_neg (by omega)]

/-- nova_new_data_blocks, asked for `n` blocks by the fault path, hands out block `blk`. -/
def FaultEnv.Hands (fe : FaultEnv) (n blk : Nat) : Prop :=
  (fe.alloc n).2 ≤ blk ∧ blk < (fe.alloc n).2 + (min (fe.alloc n).1 n).toNat

/-- What a write fault at page `iblock` takes for granted: nova_find_next_entry finds the entry of
the next mapped page, so the pages before it are holes; the allocator hands out blocks other than
0 that no page maps. -/
structure FaultSafe (fe : FaultEnv) (w : World) (iblock : Nat) : Prop where
  next : ∀ p, iblock ≤ p → (∀ e, fe.nextEntry = some e → p < e.pgoff) → w.inode.index p = none
  fresh : ∀ n blk p q, fe.Hands n blk → w.inode.index p = some q → getNvmm (w.mem.slots q) p ≠ blk
  nonzero : ∀ n blk, fe.Hands n blk → blk ≠ 0

theorem fillHole_holds {fe : FaultEnv} {iblock numBlocks : Nat} (hw : Holds w f) (hsafe : FaultSafe fe w iblock)
    (hhole : ∀ p, iblock ≤ p → p < iblock + numBlocks → w.inode.index p = none) :
    Holds (fillHole fe w iblock numBlocks).2.1 f := by
  unfold fillHole
  dsimp only
  split
  · obtain ⟨hi, hm⟩ := novaCleanupIncompleteWrite_frame w (fe.alloc numBlocks).2 (min (fe.alloc numBlocks).1 numBlocks) 0 0
    exact hw.congr hi hm
  split
  · exact hw
  rename_i h1 h2
  have hpos : 0 < (min (fe.alloc numBlocks).1 numBlocks).toNat := by omega
  have hle : (min (fe.alloc numBlocks).1 numBlocks).toNat ≤ numBlocks := by
    have : min (fe.alloc numBlocks).1 numBlocks ≤ numBlocks := min_le_right _ _
    omega
  refine publishFill_holds hw (fun p h1 h2 => hhole p h1 (by omega)) (fun p q hq => ?_)
    (hsafe.nonzero numBlocks _ ⟨Nat.le_refl _, Nat.lt_add_of_pos_right hpos⟩)
  by_contra hin
  exact hsafe.fresh numBlocks _ p q ⟨by omega, by omega⟩ hq rfl

/-- nova_dax_get_blocks keeps the file as it was, whatever it returns: it maps a page that has a
block, or fills holes with zeroed blocks, or gives up. -/
theorem novaDaxGetBlocks_holds {fe : FaultEnv} {iblock maxBlocks : Nat} {create : Bool} (hw : Holds w f)
    (hsafe : FaultSafe fe w iblock) : Holds (novaDaxGetBlocks fe w iblock maxBlocks create).2.1 f := by
  unfold novaDaxGetBlocks
  split
  · exact hw
  split
  · exact hw
  split
  · exact hw
  split
  · rename_i e he
    split
    · exact hw
    · exact fillHole_holds hw hsafe fun p h1 h2 => hsafe.next p h1 fun e' he' => by
        rw [he] at he'; cases he'; omega
  · rename_i he
    exact fillHole_holds hw hsafe fun p h1 _ => hsafe.next p h1 fun e' he' => by rw [he] at he'; cases he'

end Holds

/-- One call on the file: nova_cow_file_write of `len` bytes of `buf` at `pos` (at the end with
O_APPEND), or nova_dax_get_blocks for a write fault at page `iblock`. -/
inductive FileCall where
  | write (env : WriteEnv) (buf : Nat → UInt8) (len pos : Nat) (oAppend : Bool)
  | fault (fe : FaultEnv) (iblock maxBlocks : Nat)

def FileCall.run (sb : Sb) (w : World) : FileCall → World
  | .write env buf len pos oAppend => (novaCowFileWrite sb env w buf len pos oAppend).w
  | .fault fe iblock maxBlocks => (novaDaxGetBlocks fe w iblock maxBlocks true).2.1

/-- What a call does to the file as its users see it. -/
def FileCall.apply (f : FlatFile) : FileCall → FlatFile
  | .write _ buf len pos oAppend => f.write buf (if oAppend then f.size else pos) len
  | .fault .. => f

/-- The call is one the model covers from `w`: a write from a safe environment whose allocator
never hands out block 0, returning its length `len > 0`; a fault from a safe environment. -/
def FileCall.Ok (sb : Sb) (w : World) : FileCall → Prop
  | .write env buf len pos oAppend => WriteSafe sb env w ∧ (∀ k n blk, env.Hands k n blk → blk ≠ 0) ∧
      0 < len ∧ (novaCowFileWrite sb env w buf len pos oAppend).ret = len
  | .fault fe iblock _ => FaultSafe fe w iblock

def runCalls (sb : Sb) (w : World) (cs : List FileCall) : World :=
  cs.foldl (fun w c => c.run sb w) w

/-- Every call of a run is covered from the world it starts on. -/
def RunOk (sb : Sb) : World → List FileCall → Prop
  | _, [] => True
  | w, c :: cs => c.Ok sb w ∧ RunOk sb (c.run sb w) cs

theorem Holds.call {sb : Sb} {w : World} {f : FlatFile} {c : FileCall} (hw : Holds w f) (hc : c.Ok sb w) :
    Holds (c.run sb w) (c.apply f) := by
  cases c with
  | write env buf len pos oAppend =>
    obtain ⟨hs, hzero, hlen, hret⟩ := hc
    cases oAppend with
    | false => exact hw.write hs hzero hlen hret
    | true =>
      obtain ⟨hw', hr'⟩ := novaCowFileWrite_append sb env w buf len pos
      rw [hr'] at hret
      show Holds (novaCowFileWrite sb env w buf len pos true).w (f.write buf f.size len)
      rw [hw', ← hw.size]
      exact hw.write hs hzero hlen hret
  | fault fe iblock maxBlocks => exact novaDaxGetBlocks_holds hw hc

theorem Holds.run {sb : Sb} : ∀ {w : World} {f : FlatFile} {cs : List FileCall}, Holds w f → RunOk sb w cs →
    Holds (runCalls sb w cs) (cs.foldl FileCall.apply f)
  | _, _, [], hw, _ => hw
  | w, f, c :: cs, hw, ⟨hc, hrun⟩ =>
    (Holds.run (hw.call hc) hrun : Holds (runCalls sb (c.run sb w) cs) (cs.foldl FileCall.apply (c.apply f)))

/-- The DAX file refines the flat file over any run of writes that return their length and write
faults: the world holds the file the calls build, one after another, and with checksums off a
read of its bytes returns them. -/
theorem dax_file_refines_flat_file {sb : Sb} {w : World} {f : FlatFile} {cs : List FileCall}
    (hw : Holds w f) (hrun : RunOk sb w cs) :
    Holds (runCalls sb w cs) (cs.foldl FileCall.apply f) ∧
      ∀ (env : ReadEnv) (len ppos : Nat), sb.blockCsumBase = 0 → env.accessOk = true →
        (∀ k n, env.left k n = 0) → 0 < len → ppos + len ≤ (cs.foldl FileCall.apply f).size →
        doDaxMappingRead sb env (runCalls sb w cs).inode (runCalls sb w cs).mem len ppos =
          ((len : Int), bytesOf (cs.foldl FileCall.apply f).bytes ppos len, ppos + len) :=
  ⟨hw.run hrun, fun _ _ _ hcs hacc hleft hlen hin => (hw.run hrun).read hcs hacc hleft hlen hin⟩

/-- The empty file of `freshFile`, written 100 bytes at 4000 by one block per step, checksums off. -/
theorem dax_file_one_write :
    Holds freshFile ⟨fun _ => 0, 0⟩ ∧ RunOk ⟨0, id, 1⟩ freshFile [.write blockPerStep (fun _ => 7) 100 4000 false] ∧
      Holds (runCalls ⟨0, id, 1⟩ freshFile [.write blockPerStep (fun _ => 7) 100 4000 false])
          ([FileCall.write blockPerStep (fun _ => 7) 100 4000 false].foldl FileCall.apply ⟨fun _ => 0, 0⟩) ∧
      ∀ (env : ReadEnv) (len ppos : Nat), (⟨0, id, 1⟩ : Sb).blockCsumBase = 0 → env.accessOk = true →
        (∀ k n, env.left k n = 0) → 0 < len →
        ppos + len ≤ ([FileCall.write blockPerStep (fun _ => 7) 100 4000 false].foldl FileCall.apply ⟨fun _ => 0, 0⟩).size →
        doDaxMappingRead ⟨0, id, 1⟩ env (runCalls ⟨0, id, 1⟩ freshFile [.write blockPerStep (fun _ => 7) 100 4000 false]).inode
          (runCalls ⟨0, id, 1⟩ freshFile [.write blockPerStep (fun _ => 7) 100 4000 false]).mem len ppos =
          ((len : Int), bytesOf ([FileCall.write blockPerStep (fun _ => 7) 100 4000 false].foldl FileCall.apply
            ⟨fun _ => 0, 0⟩).bytes ppos len, ppos + len) := by
  have hw : Holds freshFile ⟨fun _ => 0, 0⟩ :=
    ⟨(fun _ _ h => nomatch h), (fun _ _ h => nomatch h), fun _ => rfl, rfl⟩
  have hs : WriteSafe ⟨0, id, 1⟩ blockPerStep freshFile :=
    ⟨(fun _ _ h => nomatch h), (fun _ _ h => nomatch h), (fun _ _ _ _ _ _ h => nomatch h),
      fun k k' n n' blk hk hk' => by simp only [WriteEnv.Hands, blockPerStep] at hk hk'; omega,
      fun h0 => absurd rfl h0, Int.le_refl 0⟩
  have hrun : RunOk ⟨0, id, 1⟩ freshFile [.write blockPerStep (fun _ => 7) 100 4000 false] :=
    ⟨⟨hs, fun k n blk hk => by simp only [WriteEnv.Hands, blockPerStep] at hk; omega, by decide, by decide⟩,
      trivial⟩
  exact ⟨hw, hrun, dax_file_refines_flat_file hw hrun⟩

end Nova
