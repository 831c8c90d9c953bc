import Nova.Dax.CowSpec

/-! What a crash in the middle of nova_cow_file_write leaves on the medium: the old file, or
everything the write stored. -/
namespace Nova

/-- What an operation of the write loop may be: a store or a copy into the bytes `F`, a flush, or
a log entry at slot `lo` or past it. -/
def LoopOp (F : Nat → Prop) (lo : Nat) : Op → Prop
  | .store a n _ => ∀ x, a ≤ x → x < a + n → F x
  | .storeNt a n _ => ∀ x, a ≤ x → x < a + n → F x
  | .flush .. => True
  | .putEntry s _ => lo ≤ s
  | _ => False

section LoopOp
variable {F F' : Nat → Prop} {lo : Nat} {o : Op}

theorem LoopOp.mono (h : ∀ x, F x → F' x) (ho : LoopOp F lo o) : LoopOp F' lo o := by
  cases o <;> simp only [LoopOp] at ho ⊢
  all_goals first | exact fun x h1 h2 => h x (ho x h1 h2) | exact ho

theorem LoopOp.writes (ho : LoopOp F lo o) {x : Nat} (hw : o.Writes x) : F x := by
  cases o <;> simp only [LoopOp, Op.Writes] at ho hw
  all_goals exact ho x hw.1 hw.2

theorem LoopOp.not_touches_tail (ho : LoopOp F lo o) (i : Nat) : ¬ o.Touches (.tail i) := by
  cases o <;> simp only [LoopOp, Op.Touches, not_false_eq_true] at ho ⊢

theorem LoopOp.not_touches_slot (ho : LoopOp F lo o) {q : Nat} (hq : q < lo) : ¬ o.Touches (.slot q) := by
  cases o <;> simp only [LoopOp, Op.Touches, not_false_eq_true] at ho ⊢
  omega

end LoopOp

theorem flushedBy_of_self {ops : List Op} (h : ∀ o ∈ ops, ∀ L, o.Touches L → o.Schedules L) :
    FlushedBy ops := by
  induction ops with
  | nil => trivial
  | cons o os ih =>
    exact ⟨fun L hL => .inl (h o (List.mem_cons_self _ _) L hL),
      ih fun o' h' => h o' (List.mem_cons_of_mem _ h')⟩

theorem flushedBy_storeNt (a n : Nat) (src : Nat → UInt8) : FlushedBy [.storeNt a n src] :=
  flushedBy_of_self fun _ h L hL => by
    rw [List.mem_singleton.mp h] at hL ⊢
    cases L <;> simp only [Op.Touches, Op.Schedules] at hL ⊢
    exact hL

theorem flushedBy_putEntry (q : Nat) (e : WriteEntry) : FlushedBy [.putEntry q e] :=
  flushedBy_of_self fun _ h L hL => by
    rw [List.mem_singleton.mp h] at hL ⊢
    cases L <;> simp only [Op.Touches, Op.Schedules] at hL ⊢
    exact hL

/-- `w'` is `w` after the operations `ops`, each of them `P`, that send every line they change
towards the medium. -/
def Emits (P : Op → Prop) (w w' : World) : Prop :=
  ∃ ops, w'.trace = w.trace ++ ops ∧ w'.mem = w.mem.run ops ∧ (∀ o ∈ ops, P o) ∧ FlushedBy ops

section Emits
variable {P P' : Op → Prop} {w w₁ w₂ w₃ : World}

theorem Emits.of_eq (ht : w₂.trace = w₁.trace) (hm : w₂.mem = w₁.mem) : Emits P w₁ w₂ :=
  ⟨[], by rw [ht, List.append_nil], hm, (fun _ h => nomatch h), trivial⟩

theorem Emits.emit {ops : List Op} (hp : ∀ o ∈ ops, P o) (hf : FlushedBy ops) : Emits P w (w.emit ops) :=
  ⟨ops, rfl, rfl, hp, hf⟩

theorem Emits.trans (h₁ : Emits P w₁ w₂) (h₂ : Emits P w₂ w₃) : Emits P w₁ w₃ := by
  obtain ⟨o₁, ht₁, hm₁, hp₁, hf₁⟩ := h₁
  obtain ⟨o₂, ht₂, hm₂, hp₂, hf₂⟩ := h₂
  exact ⟨o₁ ++ o₂, by rw [ht₂, ht₁, List.append_assoc], by rw [hm₂, hm₁, Pmem.run_append],
    List.forall_mem_append.mpr ⟨hp₁, hp₂⟩, hf₁.append hf₂⟩

theorem Emits.mono (h : ∀ o, P o → P' o) (he : Emits P w₁ w₂) : Emits P' w₁ w₂ :=
  let ⟨ops, ht, hm, hp, hf⟩ := he
  ⟨ops, ht, hm, fun o ho => h o (hp o ho), hf⟩

end Emits

section Fills
variable {F : Nat → Prop} {lo : Nat} (w : World)

theorem Emits.storeFlush {a n : Nat} (src : Nat → UInt8) (h : ∀ x, a ≤ x → x < a + n → F x) :
    Emits (LoopOp F lo) w ((w.emit [.store a n src]).emit [.flush a n]) := by
  rw [World.emit_emit]
  refine .emit (fun o ho => ?_) (flushedBy_store_flush a n src)
  rcases List.mem_pair.mp ho with rfl | rfl
  exacts [h, trivial]

theorem Emits.flush (a n : Nat) : Emits (LoopOp F lo) w (w.emit [.flush a n]) :=
  .emit (by simp only [List.mem_singleton, forall_eq, LoopOp])
    (flushedBy_of_self fun _ h L hL => by rw [List.mem_singleton.mp h] at hL; cases L <;> simp only [Op.Touches] at hL)

theorem headFill_emits (pos kmem : Nat) :
    Emits (LoopOp (fun x => kmem ≤ x ∧ x < kmem + pos % 4096) lo) w (headFill w pos kmem) := by
  unfold headFill novaCopyPartialBlock
  dsimp only
  split
  · split
    · exact .storeFlush w _ fun x h1 h2 => ⟨h1, h2⟩
    · split
      · exact .flush w _ _
      · exact .storeFlush w _ fun x h1 h2 => ⟨h1, h2⟩
  · exact .of_eq rfl rfl

theorem tailFill_emits (pos count kmem : Nat) :
    Emits (LoopOp (fun x => kmem ≤ x ∧ x < kmem + ((count + pos % 4096 - 1) / 4096 + 1) * 4096) lo) w
      (tailFill w pos count kmem) := by
  have he := Nat.mod_lt (pos + count) (show 4096 > 0 by decide)
  unfold tailFill novaCopyPartialBlock
  dsimp only
  split
  · split
    · exact .storeFlush w _ fun x h1 h2 => ⟨by omega, by omega⟩
    · split
      · exact .flush w _ _
      · exact .storeFlush w _ fun x h1 h2 => ⟨by omega, by omega⟩
  · exact .of_eq rfl rfl

end Fills

theorem CowLoop.fill_emits {env : WriteEnv} {s : CowLoop} (buf : Nat → UInt8) (ha : 0 < s.alloc env)
    (lo : Nat) :
    Emits (LoopOp (fun x => s.block env * 4096 ≤ x ∧ x < s.block env * 4096 + 4096 * (s.alloc env).toNat) lo)
      s.w (s.fill env buf) := by
  have hoff := Nat.mod_lt s.pos (show 4096 > 0 by decide)
  have hb : s.bytes env + s.pos % 4096 ≤ 4096 * (s.alloc env).toNat := by unfold CowLoop.bytes; omega
  have hc : s.copied env ≤ s.bytes env := Nat.sub_le _ _
  have hobt : Emits (LoopOp (fun x => s.block env * 4096 ≤ x ∧ x < s.block env * 4096 + 4096 * (s.alloc env).toNat)
      lo) s.w (s.w.obtain (s.block env) (s.alloc env).toNat) := .of_eq rfl rfl
  unfold CowLoop.fill
  dsimp only
  refine Emits.trans ?_ (.emit (fun o ho => ?_) (flushedBy_of_self fun o ho L hL => ?_))
  · split
    · exact hobt.trans (((headFill_emits _ _ _).mono fun o => LoopOp.mono fun x hx => ⟨hx.1, by omega⟩).trans
        ((tailFill_emits _ _ _ _).mono fun o => LoopOp.mono fun x hx => ⟨hx.1, by omega⟩))
    · exact hobt
  · rw [List.mem_singleton.mp ho]
    exact fun x h1 h2 => ⟨by omega, by omega⟩
  · rw [List.mem_singleton.mp ho] at hL ⊢; cases L <;> exact hL

/-- The bytes the write loop may store to: those of a block nova_new_data_blocks hands out at some
step, and, with checksums on, the checksum slots. -/
def LoopStore (sb : Sb) (env : WriteEnv) (x : Nat) : Prop :=
  (∃ k n, env.Hands k n (x / 4096)) ∨ (sb.blockCsumBase ≠ 0 ∧ ¬ NotCsum sb x)

theorem cowCsum_emits (sb : Sb) (env : WriteEnv) (w : World) (blocknr written offset copied lo : Nat) :
    Emits (LoopOp (LoopStore sb env) lo) w (cowCsum sb env w blocknr written offset copied) := by
  unfold cowCsum
  split
  · rename_i h
    refine novaUpdateCowCsum_rel (Emits _) (fun _ => .of_eq rfl rfl) (fun h₁ h₂ => h₁.trans h₂)
      (fun w nr c => .emit (fun o ho => ?_) (flushedBy_storeNt _ _ _)) ..
    rw [List.mem_singleton.mp ho]
    exact fun x h1 h2 => .inr ⟨h.2, fun hn => hn nr ⟨h1, h2⟩⟩
  · exact .of_eq rfl rfl

theorem CowLoop.advance_w (s : CowLoop) (copied : Nat) (allocated : Int) : (s.advance copied allocated).w = s.w := by
  unfold CowLoop.advance; split <;> rfl

theorem CowLoop.shortCopy_w (s : CowLoop) (copied bytes : Nat) : (s.shortCopy copied bytes).w = s.w := by
  unfold CowLoop.shortCopy; split <;> rfl

def LoopEnd.last : LoopEnd → CowLoop
  | .done s => s
  | .out s _ => s

theorem cowStep_emits {sb : Sb} {env : WriteEnv} {buf : Nat → UInt8} {isize lo : Nat} {s : CowLoop}
    (hlo : lo ≤ s.slot env) :
    Emits (LoopOp (LoopStore sb env) lo) s.w ((cowStep sb env buf isize s).elim LoopEnd.last id).w := by
  unfold cowStep
  dsimp only
  split
  · exact .of_eq rfl rfl
  rename_i ha
  have hfill : Emits (LoopOp (LoopStore sb env) lo) s.w (s.fill env buf) :=
    (s.fill_emits buf (not_le.mp ha) lo).mono fun o => LoopOp.mono fun x hx => .inl ⟨s.step, s.numBlocks,
      show s.block env ≤ x / 4096 ∧ x / 4096 < s.block env + (s.alloc env).toNat by omega⟩
  by_cases hr : env.room s.step = true ∧ s.slot env ≠ 0
  swap
  · rw [show novaAppendFileWriteEntry (s.fill env buf) env.firstSlot (env.room s.step) _ s.tempTail =
      (0, s.fill env buf) from if_neg hr]
    exact hfill
  rw [show novaAppendFileWriteEntry (s.fill env buf) env.firstSlot (env.room s.step)
      (cowEntry env isize s.pos (s.copied env) (s.alloc env).toNat (s.block env)) s.tempTail =
      (s.slot env, (s.fill env buf).emit [.putEntry (s.slot env)
        (cowEntry env isize s.pos (s.copied env) (s.alloc env).toNat (s.block env))]) from if_pos hr]
  dsimp only
  rw [if_neg hr.2]
  have hW : Emits (LoopOp (LoopStore sb env) lo) s.w (cowCsum sb env ((s.fill env buf).emit [.putEntry (s.slot env)
      (cowEntry env isize s.pos (s.copied env) (s.alloc env).toNat (s.block env))]) (s.block env) s.written
      (s.pos % 4096) (s.copied env)) :=
    (hfill.trans (.emit (fun o ho => by rw [List.mem_singleton.mp ho]; exact hlo) (flushedBy_putEntry _ _))).trans
      (cowCsum_emits sb env _ _ _ _ _ lo)
  split <;> simpa only [Sum.elim_inl, Sum.elim_inr, LoopEnd.last, id, CowLoop.shortCopy_w,
    CowLoop.advance_w] using hW

section Loop
variable {sb : Sb} {env : WriteEnv} {buf : Nat → UInt8} {w₀ : World} {pos₀ len isize : Nat}
  (hs : WriteSafe sb env w₀)
include hs

theorem cowLoop_emits : ∀ (fuel : Nat) (s : CowLoop), CowInv sb env buf w₀ pos₀ len s →
    Emits (LoopOp (LoopStore sb env) (logStart env w₀)) s.w (cowLoop sb env buf isize fuel s).last.w
  | 0, _, _ => .of_eq rfl rfl
  | fuel + 1, s, hi => by
    rw [cowLoop]
    split
    · rename_i hn
      have hst := @cowStep_emits sb env buf isize _ s
        (show logStart env w₀ ≤ s.slot env by rw [hi.slot_eq]; exact Nat.le_add_right _ _)
      split
      · rename_i e he
        rw [he] at hst
        exact hst
      · rename_i s' he
        rw [he] at hst
        exact hst.trans (cowLoop_emits fuel s' (hi.advance hs (cowStep_inr he (hi.count_pos hn)) hn))
    · exact .of_eq rfl rfl

end Loop

/-- Operations each of which keeps the extent of every log slot. -/
def KeepsExtents : Pmem → List Op → Prop
  | _, [] => True
  | m, o :: os => (∀ q, ((m.step o).slots q).extent = (m.slots q).extent) ∧ KeepsExtents (m.step o) os

section Keeps
variable {m : Pmem} {ops xs ys : List Op}

theorem KeepsExtents.append (hx : KeepsExtents m xs) (hy : KeepsExtents (m.run xs) ys) :
    KeepsExtents m (xs ++ ys) := by
  induction xs generalizing m with
  | nil => exact hy
  | cons o os ih => exact ⟨hx.1, ih hx.2 hy⟩

theorem KeepsExtents.take_extent (h : KeepsExtents m ops) (j q : Nat) :
    ((m.run (ops.take j)).slots q).extent = (m.slots q).extent := by
  induction ops generalizing m j with
  | nil => rw [List.take_nil, Pmem.run_nil]
  | cons o os ih =>
    cases j with
    | zero => rfl
    | succ j => exact (ih h.2 j).trans (h.1 q)

theorem keepsExtents_of_not_touches (h : ∀ o ∈ ops, ∀ q, ¬ o.Touches (.slot q)) : KeepsExtents m ops := by
  induction ops generalizing m with
  | nil => trivial
  | cons o os ih =>
    refine ⟨fun q => ?_, ih fun o' h' => h o' (List.mem_cons_of_mem _ h')⟩
    have hq : (m.step o).slots q = m.slots q := Pmem.step_agree m (h o (List.mem_cons_self _ _) q)
    rw [hq]

end Keeps

theorem Op.IsPutEntry.touches {o : Op} (h : o.IsPutEntry) {L : Line} (hL : o.Touches L) : ∃ q, L = .slot q := by
  cases o <;> simp only [Op.IsPutEntry] at h
  cases L <;> simp only [Op.Touches] at hL
  exact ⟨_, rfl⟩

/-- The stores of the index bookkeeping: log entries only, each keeping the extent of its slot. -/
def Reassigns (w w' : World) : Prop :=
  ∃ ops, w'.trace = w.trace ++ ops ∧ w'.mem = w.mem.run ops ∧ KeepsExtents w.mem ops ∧ ∀ o ∈ ops, o.IsPutEntry

section Reassign
variable {w₁ w₂ w₃ : World}

theorem Reassigns.of_eq (ht : w₂.trace = w₁.trace) (hm : w₂.mem = w₁.mem) : Reassigns w₁ w₂ :=
  ⟨[], by rw [ht, List.append_nil], hm, trivial, (fun _ h => nomatch h)⟩

theorem Reassigns.trans (h₁ : Reassigns w₁ w₂) (h₂ : Reassigns w₂ w₃) : Reassigns w₁ w₃ := by
  obtain ⟨o₁, ht₁, hm₁, hk₁, hp₁⟩ := h₁
  obtain ⟨o₂, ht₂, hm₂, hk₂, hp₂⟩ := h₂
  exact ⟨o₁ ++ o₂, by rw [ht₂, ht₁, List.append_assoc], by rw [hm₂, hm₁, Pmem.run_append],
    hk₁.append (hm₁ ▸ hk₂), List.forall_mem_append.mpr ⟨hp₁, hp₂⟩⟩

theorem assignPage_reassigns (s : Nat) (w : World) (p : Nat) : Reassigns w (assignPage s w p) := by
  unfold assignPage
  dsimp only
  split
  · exact .of_eq rfl rfl
  · rename_i o _
    refine ⟨[.putEntry o _], rfl, rfl, ⟨fun q => ?_, trivial⟩, fun _ h => by rw [List.mem_singleton.mp h]; trivial⟩
    by_cases hq : q = o
    · subst hq; simp only [Pmem.step, Function.update_same]; rfl
    · simp only [Pmem.step, Function.update_noteq hq]

theorem foldl_assignPage_reassigns (s : Nat) : ∀ (ps : List Nat) (w : World), Reassigns w (ps.foldl (assignPage s) w)
  | [], _ => .of_eq rfl rfl
  | p :: ps, w => (assignPage_reassigns s w p).trans (foldl_assignPage_reassigns s ps _)

theorem reassignWalk_reassigns : ∀ (fuel curr : Nat) (w : World), Reassigns w (reassignWalk w fuel curr).2
  | 0, _, _ => by unfold reassignWalk; split <;> exact .of_eq rfl rfl
  | fuel + 1, curr, w => by
    unfold reassignWalk
    split; · exact .of_eq rfl rfl
    split; · exact .of_eq rfl rfl
    split
    · exact reassignWalk_reassigns fuel _ w
    · exact (foldl_assignPage_reassigns curr _ w).trans (reassignWalk_reassigns fuel _ _)

end Reassign

theorem cowPublish_ops (s : CowLoop) (totalBlocks ppos : Nat) :
    ∃ Q, (cowPublish s totalBlocks ppos).w.trace = s.w.trace ++ (novaUpdateTail s.w.inode.ino s.tempTail ++ Q) ∧
      (cowPublish s totalBlocks ppos).w.mem = s.w.mem.run (novaUpdateTail s.w.inode.ino s.tempTail ++ Q) ∧
      KeepsExtents (s.w.mem.run (novaUpdateTail s.w.inode.ino s.tempTail)) Q ∧ ∀ o ∈ Q, o.IsPutEntry := by
  unfold cowPublish
  dsimp only
  obtain ⟨Q, ht, hm, hk, hp⟩ := reassignWalk_reassigns _ s.beginTail
    ((s.w.setInode { s.w.inode with iBlocks := s.w.inode.iBlocks + totalBlocks }).emit
      (novaUpdateTail s.w.inode.ino s.tempTail))
  rw [← novaReassignFileTree] at ht hm
  generalize novaReassignFileTree _ s.beginTail = R at ht hm ⊢
  obtain ⟨r, W⟩ := R
  dsimp only at ht hm ⊢
  have key : ∀ W' : World, W'.trace = W.trace → W'.mem = W.mem →
      W'.trace = s.w.trace ++ (novaUpdateTail s.w.inode.ino s.tempTail ++ Q) ∧
        W'.mem = s.w.mem.run (novaUpdateTail s.w.inode.ino s.tempTail ++ Q) := fun W' ht' hm' =>
    ⟨by rw [ht', ht, World.emit_trace, World.setInode_trace, List.append_assoc],
      by rw [hm', hm, World.emit_mem, World.setInode_mem, Pmem.run_append]⟩
  suffices h : ∃ W' : World, (if r ≠ 0 then cowOut { s with w := W } r ppos else _).w = W' ∧
      W'.trace = W.trace ∧ W'.mem = W.mem from
    let ⟨W', hW, ht', hm'⟩ := h
    ⟨Q, hW ▸ (key W' ht' hm').1, hW ▸ (key W' ht' hm').2, by rwa [World.emit_mem, World.setInode_mem] at hk, hp⟩
  split
  · exact ⟨W, by rw [cowOut_eq], rfl, rfl⟩
  · rw [cowOut_eq]
    dsimp only
    split <;> exact ⟨_, rfl, rfl, rfl⟩

/-- What a write issues after its loop: nothing, when it leaves by `out:`, or nova_update_tail
and the stores of the index bookkeeping. -/
def Published (m : Pmem) (R : List Op) : Prop :=
  R = [] ∨ ∃ ino T Q, R = novaUpdateTail ino T ++ Q ∧ KeepsExtents (m.run (novaUpdateTail ino T)) Q ∧
    ∀ o ∈ Q, o.IsPutEntry

/-- Everything one write issues: loop operations that flush what they store, their entries at the
log tail or past it, then what publishing issues. -/
theorem novaCowFileWrite_ops {sb : Sb} {env : WriteEnv} {w : World} {buf : Nat → UInt8} {len ppos : Nat}
    {oAppend : Bool} (hs : WriteSafe sb env w) :
    ∃ P R, (novaCowFileWrite sb env w buf len ppos oAppend).w.trace = w.trace ++ (P ++ R) ∧
      (novaCowFileWrite sb env w buf len ppos oAppend).w.mem = w.mem.run (P ++ R) ∧
      (∀ o ∈ P, LoopOp (LoopStore sb env) (logStart env w) o) ∧ FlushedBy P ∧ Published (w.mem.run P) R := by
  have early : ∀ W : World, W.trace = w.trace → W.mem = w.mem → ∃ P R, W.trace = w.trace ++ (P ++ R) ∧
      W.mem = w.mem.run (P ++ R) ∧ (∀ o ∈ P, LoopOp (LoopStore sb env) (logStart env w) o) ∧ FlushedBy P ∧
      Published (w.mem.run P) R := fun W ht hm =>
    ⟨[], [], by rw [ht]; simp, hm, (fun _ h => nomatch h), trivial, .inl rfl⟩
  unfold novaCowFileWrite
  by_cases hlen : len = 0
  · rw [if_pos hlen]; exact early _ rfl rfl
  rw [if_neg hlen]
  by_cases hm : w.inode.mapped = true
  · rw [if_pos hm]; exact early _ rfl rfl
  rw [if_neg hm]
  by_cases ha : env.accessOk = true
  swap
  · rw [if_pos ha, cowOut_eq]; exact early _ rfl rfl
  rw [if_neg (not_not.mpr ha)]
  by_cases hp : env.removePrivs ≠ 0
  · rw [if_pos hp, cowOut_eq]; exact early _ rfl rfl
  rw [if_neg hp]
  have hloop := @cowLoop_emits sb env buf w (if oAppend then w.inode.iSize else ppos) len w.inode.iSize hs
    ((len + (if oAppend then w.inode.iSize else ppos) % 4096 - 1) / 4096 + 1) _
    (cowInv_start hs (Nat.pos_of_ne_zero hlen))
  split
  · rename_i s ret he
    rw [he] at hloop
    obtain ⟨P, ht, hm, hp, hf⟩ := hloop
    dsimp only [LoopEnd.last] at ht hm
    rw [cowOut_eq]
    exact ⟨P, [], by rw [List.append_nil]; exact ht, by rw [List.append_nil]; exact hm, hp, hf, .inl rfl⟩
  · rename_i s he
    rw [he] at hloop
    obtain ⟨P, ht, hm, hp, hf⟩ := hloop
    dsimp only [LoopEnd.last] at ht hm
    obtain ⟨Q, ht', hm', hk, hq⟩ := cowPublish_ops s
      ((len + (if oAppend then w.inode.iSize else ppos) % 4096 - 1) / 4096 + 1) ppos
    rw [hm] at hk
    exact ⟨P, _, by rw [ht', ht, List.append_assoc], by simp only [hm', hm, Pmem.run_append], hp, hf,
      .inr ⟨_, _, Q, rfl, hk, hq⟩⟩

section Crash
variable {m : Pmem} {k : Line → Nat} {F : Nat → Prop} {lo : Nat} {P : List Op}

theorem image_bytes_of_not_writes {t : List Op} {x : Nat} (h : ∀ o ∈ t, ¬ o.Writes x) :
    (m.image t k).bytes x = m.bytes x :=
  Pmem.run_bytes_of_not_writes fun o ho => h o (List.mem_of_mem_take ho)

theorem image_extent_before {R : List Op} (hP : ∀ o ∈ P, LoopOp F lo o) (hR : KeepsExtents (m.run P) R)
    {q : Nat} (hq : q < lo) : ((m.image (P ++ R) k).slots q).extent = (m.slots q).extent := by
  have hPq : ∀ j, (m.run (P.take j)).slots q = m.slots q := fun j =>
    Pmem.run_agree m fun o ho => (hP o (List.mem_of_mem_take ho)).not_touches_slot hq
  show ((m.run ((P ++ R).take (k (.slot q)))).slots q).extent = _
  by_cases hj : k (.slot q) ≤ P.length
  · rw [List.take_append_of_le_length hj, hPq]
  · obtain ⟨i, hi⟩ : ∃ i, k (.slot q) = P.length + i := ⟨_, (Nat.add_sub_cancel' (by omega)).symm⟩
    rw [hi, List.take_append, Pmem.run_append, hR.take_extent, ← hPq P.length, List.take_length]

theorem image_tail {ino T i : Nat} {Q : List Op} (hP : ∀ o ∈ P, LoopOp F lo o) (hQ : ∀ o ∈ Q, o.IsPutEntry) :
    (m.image (P ++ (novaUpdateTail ino T ++ Q)) k).tails i = m.tails i ∨
      i = ino ∧ (m.image (P ++ (novaUpdateTail ino T ++ Q)) k).tails i = T ∧ P.length + 1 < k (.tail i) := by
  have hPt : ∀ o ∈ P, ¬ o.Touches (.tail i) := fun o ho => (hP o ho).not_touches_tail i
  have hPi : (m.run P).tails i = m.tails i := Pmem.run_agree (L := .tail i) m hPt
  change (m.run ((P ++ (novaUpdateTail ino T ++ Q)).take (k (.tail i)))).tails i = _ ∨
    i = ino ∧ (m.run ((P ++ (novaUpdateTail ino T ++ Q)).take (k (.tail i)))).tails i = T ∧ _
  by_cases hj : k (.tail i) ≤ P.length + 1
  · have ht : P ++ (novaUpdateTail ino T ++ Q) =
        (P ++ [Op.fence]) ++ (Op.putTail ino T :: Op.flushTail ino :: Op.fence :: Q) := by
      simp [novaUpdateTail]
    rw [ht, List.take_append_of_le_length (by simpa using hj)]
    refine .inl (Pmem.run_agree (L := .tail i) m fun o ho => ?_)
    rcases List.mem_append.mp (List.mem_of_mem_take ho) with h | h
    · exact hPt o h
    · rw [List.mem_singleton.mp h]; exact id
  · obtain ⟨d, hd⟩ : ∃ d, k (.tail i) = (P ++ [Op.fence, Op.putTail ino T]).length + d :=
      ⟨k (.tail i) - P.length - 2, by simp; omega⟩
    have ht : P ++ (novaUpdateTail ino T ++ Q) =
        (P ++ [Op.fence, Op.putTail ino T]) ++ (Op.flushTail ino :: Op.fence :: Q) := by
      simp [novaUpdateTail]
    have hrest : ((m.run (P ++ [Op.fence, Op.putTail ino T])).run ((Op.flushTail ino :: Op.fence :: Q).take d)).tails i =
        (m.run (P ++ [Op.fence, Op.putTail ino T])).tails i := Pmem.run_agree (L := .tail i) _ fun o ho => by
      rcases List.mem_cons.mp (List.mem_of_mem_take ho) with rfl | ho
      · exact id
      rcases List.mem_cons.mp ho with rfl | ho
      · exact id
      · intro hL
        obtain ⟨_, h⟩ := (hQ o ho).touches hL
        cases h
    rw [ht, hd, List.take_append, Pmem.run_append, hrest, Pmem.run_append]
    by_cases hi : i = ino
    · subst hi
      exact .inr ⟨rfl, by simp [Pmem.step], by simp; omega⟩
    · exact .inl (by simpa [Pmem.step, Function.update_noteq hi] using hPi)

theorem image_published {ino T n : Nat} {Q : List Op} (hPf : FlushedBy P) (hQ : ∀ o ∈ Q, o.IsPutEntry)
    (hK : KeepsExtents ((m.run P).run (novaUpdateTail ino T)) Q) (hn : P.length < n) (hk : ∀ L, k L ≤ n)
    (hnt : n ≤ (P ++ (novaUpdateTail ino T ++ Q)).length)
    (hd : ∀ L i, Durable (P ++ (novaUpdateTail ino T ++ Q)) n L i → i < k L) :
    (∀ x, (m.image (P ++ (novaUpdateTail ino T ++ Q)) k).bytes x = (m.run (P ++ (novaUpdateTail ino T ++ Q))).bytes x) ∧
      ∀ q, ((m.image (P ++ (novaUpdateTail ino T ++ Q)) k).slots q).extent =
        ((m.run (P ++ (novaUpdateTail ino T ++ Q))).slots q).extent := by
  have hR : KeepsExtents (m.run P) (novaUpdateTail ino T ++ Q) :=
    (keepsExtents_of_not_touches fun o ho q => by
      simp only [novaUpdateTail, List.mem_cons, List.mem_singleton, List.not_mem_nil, or_false] at ho
      rcases ho with rfl | rfl | rfl | rfl <;> exact id).append hK
  refine ⟨fun x => ?_, fun q => ?_⟩
  · have h := image_agree_run (m := m) (Q := .putTail ino T :: .flushTail ino :: .fence :: Q) (L := .data (x / 64))
      hPf hn (hk _) hnt (hd _) fun o ho hL => ?_
    · exact h x rfl
    rcases List.mem_cons.mp ho with rfl | ho
    · exact hL
    rcases List.mem_cons.mp ho with rfl | ho
    · exact hL
    rcases List.mem_cons.mp ho with rfl | ho
    · exact hL
    · obtain ⟨_, h⟩ := (hQ o ho).touches hL; cases h
  · have h : (m.image (P ++ (novaUpdateTail ino T ++ Q)) k).slots q =
        (m.run ((P ++ (novaUpdateTail ino T ++ Q)).take (max (k (.slot q)) P.length))).slots q :=
      image_agree_fenced (L := .slot q) hPf hn (hd _)
    obtain ⟨i, hi⟩ : ∃ i, max (k (.slot q)) P.length = P.length + i :=
      ⟨_, (Nat.add_sub_cancel' (Nat.le_max_right _ _)).symm⟩
    rw [h, hi, List.take_append, Pmem.run_append, hR.take_extent, Pmem.run_append,
      ← hR.take_extent (novaUpdateTail ino T ++ Q).length, List.take_length]

end Crash

/-- A crash anywhere in a write keeps every byte the loop does not store to and every extent
before the log tail; the tail is the old one, or the new one with everything the write left. -/
theorem crash_published {m g : Pmem} {P R : List Op} {F : Nat → Prop} {lo i : Nat}
    (hP : ∀ o ∈ P, LoopOp F lo o) (hPf : FlushedBy P) (hR : Published (m.run P) R) (hg : Crash m (P ++ R) g) :
    (∀ x, ¬ F x → g.bytes x = m.bytes x) ∧ (∀ q, q < lo → (g.slots q).extent = (m.slots q).extent) ∧
      (g.tails i = m.tails i ∨ g.tails i = (m.run (P ++ R)).tails i ∧
        (∀ x, g.bytes x = (m.run (P ++ R)).bytes x) ∧ ∀ q, (g.slots q).extent = ((m.run (P ++ R)).slots q).extent) := by
  obtain ⟨n, hnt, k, hk, hd, rfl⟩ := hg
  have hRw : ∀ o ∈ R, ∀ x, ¬ o.Writes x := by
    rcases hR with rfl | ⟨ino, T, Q, rfl, -, hQ⟩
    · exact fun _ h => nomatch h
    · intro o ho x hw
      rcases List.mem_append.mp ho with ho | ho
      · simp only [novaUpdateTail, List.mem_cons, List.mem_singleton, List.not_mem_nil, or_false] at ho
        rcases ho with rfl | rfl | rfl | rfl <;> exact hw
      · obtain ⟨q, hq⟩ := (hQ o ho).touches (Op.touches_of_writes hw); cases hq
  have hRk : KeepsExtents (m.run P) R := by
    rcases hR with rfl | ⟨ino, T, Q, rfl, hK, -⟩
    · trivial
    · exact (keepsExtents_of_not_touches fun o ho q => by
        simp only [novaUpdateTail, List.mem_cons, List.mem_singleton, List.not_mem_nil, or_false] at ho
        rcases ho with rfl | rfl | rfl | rfl <;> exact id).append hK
  refine ⟨fun x hx => image_bytes_of_not_writes fun o ho hw => ?_, fun q hq => image_extent_before hP hRk hq, ?_⟩
  · rcases List.mem_append.mp ho with h | h
    · exact hx ((hP o h).writes hw)
    · exact hRw o h x hw
  rcases hR with rfl | ⟨ino, T, Q, rfl, hK, hQ⟩
  · exact .inl (Pmem.run_agree m fun o ho => (hP o (List.mem_of_mem_take (by simpa using ho))).not_touches_tail i)
  rcases image_tail (k := k) (i := i) hP hQ with h | ⟨hi, h, hkt⟩
  · exact .inl h
  subst ino
  have hPi : (m.run P).tails i = m.tails i := Pmem.run_agree m fun o ho => (hP o ho).not_touches_tail i
  have hrun : (m.run (P ++ (novaUpdateTail i T ++ Q))).tails i = T := by
    have hQt : (((m.run P).run (novaUpdateTail i T)).run Q).tails i = ((m.run P).run (novaUpdateTail i T)).tails i :=
      Pmem.run_agree (L := .tail i) _ fun o ho hL => by obtain ⟨_, h⟩ := (hQ o ho).touches hL; cases h
    rw [Pmem.run_append, Pmem.run_append, hQt]
    simp [novaUpdateTail, Pmem.step]
  exact .inr ⟨h.trans hrun.symm, image_published hPf hQ hK (by have := hk (.tail i); omega) hk hnt hd⟩

/-- Modelled from the spec: nova_rebuild_file_inode_tree, not among the sources. At mount the page
index of a file is rebuilt from the log on the medium: every write entry from the log head up to
pi->log_tail is assigned in turn. -/
def rebuildIndex (m : Pmem) (ino head : Nat) : Nat → Option Nat :=
  assignFrom m.slots (m.tails ino - head) head fun _ => none

/-- The file `i` as a mount rebuilds it from the medium `m`, its log starting at `head`. -/
def rebuiltByte (m : Pmem) (i : Inode) (head x : Nat) : UInt8 :=
  fileByte { i with index := rebuildIndex m i.ino head } m x

theorem rebuiltByte_congr {m m' : Pmem} {i : Inode} {head x : Nat} (ht : m'.tails i.ino = m.tails i.ino)
    (hs : ∀ q, q < m.tails i.ino → (m'.slots q).extent = (m.slots q).extent)
    (hb : ∀ q, rebuildIndex m i.ino head (x / 4096) = some q →
      m'.bytes (getNvmm (m.slots q) (x / 4096) * 4096 + x % 4096) =
        m.bytes (getNvmm (m.slots q) (x / 4096) * 4096 + x % 4096)) :
    rebuiltByte m' i head x = rebuiltByte m i head x := by
  have hidx : rebuildIndex m' i.ino head = rebuildIndex m i.ino head := by
    unfold rebuildIndex
    rw [ht]
    exact assignFrom_congr _ _ (fun q h1 h2 => hs q (by omega)) _
  unfold rebuiltByte fileByte
  dsimp only
  rw [hidx]
  split
  · rfl
  · rename_i q hq
    rcases assignFrom_range _ _ _ _ _ _ hq with h | h
    · cases h
    · rw [getNvmm_congr (hs q (by omega)), hb q hq]

theorem cow_write_crash_atomic {sb : Sb} {env : WriteEnv} {w : World} {buf : Nat → UInt8}
    {len ppos head : Nat} {oAppend : Bool} {g : Pmem} (hs : WriteSafe sb env w)
    (hcons : w.inode.index = rebuildIndex w.mem w.inode.ino head)
    (hg : Crash w.mem ((novaCowFileWrite sb env w buf len ppos oAppend).w.trace.drop w.trace.length) g) :
    (g.tails w.inode.ino = w.mem.tails w.inode.ino ∧ ∀ x, rebuiltByte g w.inode head x = fileByte w.inode w.mem x) ∨
    (g.tails w.inode.ino = (novaCowFileWrite sb env w buf len ppos oAppend).w.mem.tails w.inode.ino ∧
      (∀ x, g.bytes x = (novaCowFileWrite sb env w buf len ppos oAppend).w.mem.bytes x) ∧
      (∀ q, (g.slots q).extent = ((novaCowFileWrite sb env w buf len ppos oAppend).w.mem.slots q).extent) ∧
      ∀ x, rebuiltByte g w.inode head x =
        rebuiltByte (novaCowFileWrite sb env w buf len ppos oAppend).w.mem w.inode head x) := by
  obtain ⟨P, R, ht, hm, hP, hPf, hR⟩ := @novaCowFileWrite_ops sb env w buf len ppos oAppend hs
  rw [ht, List.drop_left] at hg
  rw [hm]
  obtain ⟨hbytes, hslots, htail⟩ := crash_published (i := w.inode.ino) hP hPf hR hg
  rcases htail with htl | ⟨htl, hb, hx⟩
  · refine .inl ⟨htl, fun x => ?_⟩
    have hpre : fileByte w.inode w.mem x = rebuiltByte w.mem w.inode head x := by
      unfold rebuiltByte; rw [← hcons]
    rw [hpre]
    refine rebuiltByte_congr htl (fun q hq => hslots q ?_) fun q hq => hbytes _ ?_
    · unfold logStart; split <;> omega
    · rw [← hcons] at hq
      rintro (⟨k, n, hk⟩ | ⟨h0, hnc⟩)
      · exact hs.fresh k n _ _ q hk hq (by omega)
      · exact hnc (hs.csumApart h0 _ _ (Nat.mod_lt _ (by decide)) (.inr ⟨_, q, hq, rfl⟩))
  · exact .inr ⟨htl, hb, hx, fun x => rebuiltByte_congr htl (fun q _ => hx q) fun q _ => hb _⟩

/-- One page of 7s written at 0 into `freshFile`, checksums off, one block per step. -/
def pageWrite : WriteOutcome := novaCowFileWrite ⟨0, id, 1⟩ blockPerStep freshFile (fun _ => 7) 4096 0 false

/-- The medium a crash leaves just before `pageWrite`'s last fence: the payload and the entry
are on it, the tail store is still in the cache. -/
def pageWriteTornCrash : Pmem :=
  freshFile.mem.image (pageWrite.w.trace.drop freshFile.trace.length)
    fun L => if L = .tail freshFile.inode.ino then 3 else 5

theorem cow_write_crash_tail_unflushed :
    WriteSafe ⟨0, id, 1⟩ blockPerStep freshFile ∧
      freshFile.inode.index = rebuildIndex freshFile.mem freshFile.inode.ino 100 ∧
      Crash freshFile.mem (pageWrite.w.trace.drop freshFile.trace.length) pageWriteTornCrash ∧
      ((pageWriteTornCrash.tails freshFile.inode.ino = freshFile.mem.tails freshFile.inode.ino ∧
          ∀ x, rebuiltByte pageWriteTornCrash freshFile.inode 100 x = fileByte freshFile.inode freshFile.mem x) ∨
        (pageWriteTornCrash.tails freshFile.inode.ino = pageWrite.w.mem.tails freshFile.inode.ino ∧
          (∀ x, pageWriteTornCrash.bytes x = pageWrite.w.mem.bytes x) ∧
          (∀ q, (pageWriteTornCrash.slots q).extent = (pageWrite.w.mem.slots q).extent) ∧
          ∀ x, rebuiltByte pageWriteTornCrash freshFile.inode 100 x =
            rebuiltByte pageWrite.w.mem freshFile.inode 100 x)) := by
  have hs : WriteSafe ⟨0, id, 1⟩ blockPerStep freshFile :=
    ⟨(fun _ _ h => nomatch h), (fun _ _ h => nomatch h), (fun _ _ _ _ _ _ h => nomatch h),
      fun k k' n n' blk hk hk' => by simp only [WriteEnv.Hands, blockPerStep] at hk hk'; omega,
      fun h0 => absurd rfl h0, Int.le_refl 0⟩
  -- the trace is storeNt, putEntry, fence, putTail, flushTail, fence: before the last fence
  -- only the first two operations are durable
  have hfence : ∀ j < 5, (pageWrite.w.trace.drop freshFile.trace.length)[j]? = some .fence → j = 2 := by
    intro j hj hf
    obtain rfl | rfl | rfl | rfl | rfl : j = 0 ∨ j = 1 ∨ j = 2 ∨ j = 3 ∨ j = 4 := by omega
    all_goals first | rfl | cases hf
  have hg : Crash freshFile.mem (pageWrite.w.trace.drop freshFile.trace.length) pageWriteTornCrash :=
    ⟨5, by decide, _, fun L => by split <;> omega, fun L i ⟨_, _, _, j, hij, hj, hf⟩ => by
      have := hfence j hj hf; split <;> omega, rfl⟩
  exact ⟨hs, rfl, hg, @cow_write_crash_atomic _ _ _ (fun _ => 7) 4096 0 100 false _ hs rfl hg⟩

end Nova