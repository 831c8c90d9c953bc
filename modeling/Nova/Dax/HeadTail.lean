import Nova.File

/-! The partial head and tail blocks of a copy-on-write extent: what the new blocks hold outside
the written range before the user bytes arrive. -/
namespace Nova

/-- nova_copy_partial_block: copy bytes [0, offset) (`isEndBlk = false`) or [offset, 4096) of the
block that maps page `index` into the new block at `kmem`. -/
def novaCopyPartialBlock (w : World) (e : WriteEntry) (index offset kmem : Nat) (isEndBlk : Bool) :
    World :=
  match novaGetBlock (getNvmm e index * 4096) with
  | none => w
  | some ptr =>
    if isEndBlk then w.emit [.store (kmem + offset) (4096 - offset) fun i => w.mem.bytes (ptr + offset + i)]
    else w.emit [.store kmem offset fun i => w.mem.bytes (ptr + i)]

/-- The first half of nova_handle_head_tail_blocks: bytes [0, offset) of the first new block. -/
def headFill (w : World) (pos kmem : Nat) : World :=
  let offset := pos % 4096
  let startBlk := pos / 4096
  if offset ≠ 0 then
    (match w.inode.index startBlk with
      | none => w.emit [.store kmem offset fun _ => 0]
      | some s => novaCopyPartialBlock w (w.mem.slots s) startBlk offset kmem false).emit
      [.flush kmem offset]
  else w

/-- The second half: bytes [eblk_offset, 4096) of the last new block. -/
def tailFill (w : World) (pos count kmem : Nat) : World :=
  let offset := pos % 4096
  let numBlocks := (count + offset - 1) / 4096 + 1
  let endBlk := pos / 4096 + numBlocks - 1
  let kmem := kmem + (numBlocks - 1) * 4096
  let eblkOffset := (pos + count) % 4096
  if eblkOffset ≠ 0 then
    (match w.inode.index endBlk with
      | none => w.emit [.store (kmem + eblkOffset) (4096 - eblkOffset) fun _ => 0]
      | some s => novaCopyPartialBlock w (w.mem.slots s) endBlk eblkOffset kmem true).emit
      [.flush (kmem + eblkOffset) (4096 - eblkOffset)]
  else w

/-- nova_handle_head_tail_blocks: fill the new start and end blocks from the blocks they replace,
or with zeros over a hole. -/
def novaHandleHeadTailBlocks (w : World) (pos count kmem : Nat) : World :=
  tailFill (headFill w pos kmem) pos count kmem

theorem novaCopyPartialBlock_log (w : World) (e : WriteEntry) (index offset kmem : Nat) (isEndBlk : Bool) :
    (novaCopyPartialBlock w e index offset kmem isEndBlk).inode = w.inode ∧
      (novaCopyPartialBlock w e index offset kmem isEndBlk).mem.slots = w.mem.slots ∧
      (novaCopyPartialBlock w e index offset kmem isEndBlk).mem.tails = w.mem.tails := by
  unfold novaCopyPartialBlock
  split
  · exact ⟨rfl, rfl, rfl⟩
  · split <;> exact ⟨rfl, rfl, rfl⟩

theorem headFill_log (w : World) (pos kmem : Nat) :
    (headFill w pos kmem).inode = w.inode ∧ (headFill w pos kmem).mem.slots = w.mem.slots ∧
      (headFill w pos kmem).mem.tails = w.mem.tails := by
  unfold headFill
  dsimp only
  split
  · split
    · exact ⟨rfl, rfl, rfl⟩
    · exact novaCopyPartialBlock_log w _ _ _ _ _
  · exact ⟨rfl, rfl, rfl⟩

theorem tailFill_log (w : World) (pos count kmem : Nat) :
    (tailFill w pos count kmem).inode = w.inode ∧ (tailFill w pos count kmem).mem.slots = w.mem.slots ∧
      (tailFill w pos count kmem).mem.tails = w.mem.tails := by
  unfold tailFill
  dsimp only
  split
  · split
    · exact ⟨rfl, rfl, rfl⟩
    · exact novaCopyPartialBlock_log w _ _ _ _ _
  · exact ⟨rfl, rfl, rfl⟩

theorem novaCopyPartialBlock_trace (w : World) (e : WriteEntry) (index offset kmem : Nat) (isEndBlk : Bool) :
    w.trace <+: (novaCopyPartialBlock w e index offset kmem isEndBlk).trace := by
  unfold novaCopyPartialBlock
  split
  · exact List.prefix_refl _
  · split <;> exact ⟨_, rfl⟩

theorem headFill_trace (w : World) (pos kmem : Nat) : w.trace <+: (headFill w pos kmem).trace := by
  unfold headFill
  dsimp only
  split
  · refine List.IsPrefix.trans ?_ ⟨_, rfl⟩
    split
    · exact ⟨_, rfl⟩
    · exact novaCopyPartialBlock_trace w _ _ _ _ _
  · exact List.prefix_refl _

theorem tailFill_trace (w : World) (pos count kmem : Nat) : w.trace <+: (tailFill w pos count kmem).trace := by
  unfold tailFill
  dsimp only
  split
  · refine List.IsPrefix.trans ?_ ⟨_, rfl⟩
    split
    · exact ⟨_, rfl⟩
    · exact novaCopyPartialBlock_trace w _ _ _ _ _
  · exact List.prefix_refl _

theorem headFill_of_aligned (w : World) {pos : Nat} (kmem : Nat) (h : pos % 4096 = 0) :
    headFill w pos kmem = w := if_neg (not_not.mpr h)

theorem tailFill_of_aligned (w : World) {pos count : Nat} (kmem : Nat) (h : (pos + count) % 4096 = 0) :
    tailFill w pos count kmem = w := if_neg (not_not.mpr h)

theorem headFill_bytes (w : World) (pos kmem x : Nat)
    (hnz : ∀ s, w.inode.index (pos / 4096) = some s → getNvmm (w.mem.slots s) (pos / 4096) ≠ 0) :
    (headFill w pos kmem).mem.bytes x =
      if pos % 4096 ≠ 0 ∧ kmem ≤ x ∧ x < kmem + pos % 4096
      then fileByte w.inode w.mem (pos / 4096 * 4096 + (x - kmem)) else w.mem.bytes x := by
  unfold headFill
  dsimp only
  split
  · rename_i hoff
    rw [World.emit_flush_mem]
    split
    · rename_i hnone
      simp only [World.emit_store_bytes, hoff, ne_eq, not_false_eq_true, true_and]
      split
      · rw [fileByte_hole _ hnone (by omega)]
      · rfl
    · rename_i s hs
      have hptr : novaGetBlock (getNvmm (w.mem.slots s) (pos / 4096) * 4096) =
          some (getNvmm (w.mem.slots s) (pos / 4096) * 4096) := if_neg (by have := hnz s hs; omega)
      simp only [novaCopyPartialBlock, hptr, Bool.false_eq_true, if_false, World.emit_store_bytes,
        hoff, ne_eq, not_false_eq_true, true_and]
      split
      · rw [fileByte_mapped _ hs (by omega), Nat.add_comm (getNvmm _ _ * 4096)]
      · rfl
  · rename_i hoff
    rw [if_neg fun h => hoff h.1]
theorem tailFill_bytes (w : World) (pos count kmem x : Nat)
    (hnz : ∀ s, w.inode.index (pos / 4096 + ((count + pos % 4096 - 1) / 4096 + 1) - 1) = some s →
      getNvmm (w.mem.slots s) (pos / 4096 + ((count + pos % 4096 - 1) / 4096 + 1) - 1) ≠ 0) :
    (tailFill w pos count kmem).mem.bytes x =
      if (pos + count) % 4096 ≠ 0 ∧
        kmem + (count + pos % 4096 - 1) / 4096 * 4096 + (pos + count) % 4096 ≤ x ∧
        x < kmem + (count + pos % 4096 - 1) / 4096 * 4096 + 4096
      then fileByte w.inode w.mem ((pos / 4096 + (count + pos % 4096 - 1) / 4096) * 4096 +
        (x - (kmem + (count + pos % 4096 - 1) / 4096 * 4096)))
      else w.mem.bytes x := by
  have hend : pos / 4096 + ((count + pos % 4096 - 1) / 4096 + 1) - 1 =
      pos / 4096 + (count + pos % 4096 - 1) / 4096 := by omega
  have hk : (count + pos % 4096 - 1) / 4096 + 1 - 1 = (count + pos % 4096 - 1) / 4096 := by omega
  rw [hend] at hnz
  unfold tailFill
  dsimp only
  rw [hend, hk]
  split
  · rename_i heb
    rw [World.emit_flush_mem]
    by_cases hx : kmem + (count + pos % 4096 - 1) / 4096 * 4096 + (pos + count) % 4096 ≤ x ∧
        x < kmem + (count + pos % 4096 - 1) / 4096 * 4096 + 4096
    · rw [if_pos ⟨heb, hx⟩]
      split
      · rename_i hnone
        rw [World.emit_store_bytes, if_pos ⟨hx.1, by omega⟩, fileByte_hole _ hnone (by omega)]
      · rename_i s hs
        have hptr : novaGetBlock (getNvmm (w.mem.slots s)
            (pos / 4096 + (count + pos % 4096 - 1) / 4096) * 4096) = some (getNvmm (w.mem.slots s)
            (pos / 4096 + (count + pos % 4096 - 1) / 4096) * 4096) := if_neg (by have := hnz s hs; omega)
        simp only [novaCopyPartialBlock, hptr, if_true, hk, World.emit_store_bytes]
        rw [if_pos ⟨hx.1, by omega⟩, fileByte_mapped _ hs (by omega)]
        exact congrArg w.mem.bytes (by omega)
    · rw [if_neg fun h => hx h.2]
      split
      · rw [World.emit_store_bytes, if_neg fun h => hx ⟨h.1, by omega⟩]
      · rename_i s hs
        simp only [novaCopyPartialBlock, hk]
        split
        · rfl
        · rw [if_pos trivial, World.emit_store_bytes, if_neg fun h => hx ⟨h.1, by omega⟩]
  · rename_i heb
    rw [if_neg fun h => heb h.1]

end Nova
