import Nova.File

/-! The per-inode write log. Slots are numbered in entry units; the chaining of log pages is not
among the sources. -/
namespace Nova

/-- Modelled from the spec: nova_append_file_write_entry. The entry goes into the slot at the
running log tail it is given (at `firstSlot`, a new log page, while the log is still empty),
written around the cache; it returns that slot, or 0 when the log cannot grow. -/
def novaAppendFileWriteEntry (w : World) (firstSlot : Nat) (room : Bool) (e : WriteEntry)
    (tail : Nat) : Nat × World :=
  let slot := if tail = 0 then firstSlot else tail
  if room ∧ slot ≠ 0 then (slot, w.emit [.putEntry slot e]) else (0, w)

/-- Modelled from the spec: nova_update_tail, the single durable pointer update that publishes
the log: a fence orders it after everything before, then pi->log_tail is stored and flushed
with a fence. -/
def novaUpdateTail (ino tail : Nat) : List Op := [.fence, .putTail ino tail, .flushTail ino, .fence]

/-- One page of nova_assign_write_entry: page `p` now maps to slot `s`; the entry it mapped to
before is superseded (reassigned, "once superseded, reassigned becomes 1") and counts one more
invalid page, and its block for `p` is released. -/
def assignPage (s : Nat) (w : World) (p : Nat) : World :=
  let i := w.inode
  let w' := w.setInode { i with index := Function.update i.index p (some s) }
  match i.index p with
  | none => w'
  | some o =>
    let old := w.mem.slots o
    let upd : WriteEntry := { old with invalidPages := old.invalidPages + 1, reassigned := 1 }
    (w'.emit [.putEntry o upd]).free (getNvmm old p) 1

/-- Modelled from the spec: nova_assign_write_entry, which points every page of the entry in
slot `s` at it, superseding (and freeing) what mapped those pages before. -/
def novaAssignWriteEntry (w : World) (s : Nat) : World :=
  (List.range' (w.mem.slots s).pgoff (w.mem.slots s).numPages).foldl (assignPage s) w

/-- The loop of nova_reassign_file_tree from slot `curr`, at most `fuel` entries; a walk that
never meets the tail runs off the log, where the next page is 0. -/
def reassignWalk (w : World) : (fuel curr : Nat) → Int × World
  | 0, curr => if curr = w.mem.tails w.inode.ino then (0, w) else (-Errno.inval, w)
  | fuel + 1, curr =>
    if curr = w.mem.tails w.inode.ino then (0, w)
    else if curr = 0 then (-Errno.inval, w)
    else if (w.mem.slots curr).entryType ≠ fileWrite then reassignWalk w fuel (curr + 1)
    else reassignWalk (novaAssignWriteEntry w curr) fuel (curr + 1)

/-- nova_reassign_file_tree: assign every write entry from `beginTail` to pi->log_tail. -/
def novaReassignFileTree (w : World) (beginTail : Nat) : Int × World :=
  reassignWalk w (w.mem.tails w.inode.ino - beginTail) beginTail

/-- The loop of nova_cleanup_incomplete_write: free the extent of every write entry from `curr`
up to `endTail`. -/
def cleanupWalk (endTail : Nat) (w : World) : (fuel curr : Nat) → Int × World
  | 0, curr => if curr = endTail then (0, w) else (-Errno.inval, w)
  | fuel + 1, curr =>
    if curr = endTail then (0, w)
    else if curr = 0 then (-Errno.inval, w)
    else if (w.mem.slots curr).entryType ≠ fileWrite then cleanupWalk endTail w fuel (curr + 1)
    else cleanupWalk endTail (w.free ((w.mem.slots curr).block / 4096) (w.mem.slots curr).numPages)
      fuel (curr + 1)

/-- nova_cleanup_incomplete_write: free the blocks of the current iteration and of every entry
appended but not published. -/
def novaCleanupIncompleteWrite (w : World) (blocknr : Nat) (allocated : Int) (beginTail endTail : Nat) :
    Int × World :=
  let w := if blocknr > 0 ∧ allocated > 0 then w.free blocknr allocated.toNat else w
  if beginTail = 0 ∨ endTail = 0 then (0, w) else cleanupWalk endTail w (endTail - beginTail) beginTail

/-- The fields of a write entry that say where its data is; the bookkeeping never changes them. -/
def WriteEntry.extent (e : WriteEntry) : Nat × Nat × Nat × Nat :=
  (e.entryType, e.pgoff, e.numPages, e.block)

/-- The entry maps page `p`: a write entry whose extent holds `p`. -/
def WriteEntry.Maps (e : WriteEntry) (p : Nat) : Prop :=
  e.entryType = fileWrite ∧ e.pgoff ≤ p ∧ p < e.pgoff + e.numPages

instance (e : WriteEntry) (p : Nat) : Decidable (e.Maps p) :=
  inferInstanceAs (Decidable (_ ∧ _ ∧ _))

theorem getNvmm_congr {e e' : WriteEntry} (h : e'.extent = e.extent) (p : Nat) :
    getNvmm e' p = getNvmm e p := by
  simp only [WriteEntry.extent, Prod.mk.injEq] at h
  simp only [getNvmm, h]

theorem fileByte_extent_congr {i i' : Inode} {m m' : Pmem} (hi : i'.index = i.index)
    (hs : ∀ q, (m'.slots q).extent = (m.slots q).extent) (hb : m'.bytes = m.bytes) (x : Nat) :
    fileByte i' m' x = fileByte i m x := by
  unfold fileByte
  rw [hi]
  split
  · rfl
  · rw [getNvmm_congr (hs _), hb]

theorem WriteEntry.maps_congr {e e' : WriteEntry} (h : e'.extent = e.extent) (p : Nat) :
    e'.Maps p ↔ e.Maps p := by
  simp only [WriteEntry.extent, Prod.mk.injEq] at h
  simp only [WriteEntry.Maps, h]

/-- An operation that stores a log entry. -/
def Op.IsPutEntry : Op → Prop
  | .putEntry .. => True
  | _ => False

/-- What the index bookkeeping of the log may change: the page index and the counters of entries.
No data byte, no tail, no extent of an entry and no other inode field changes, and the operations
it issues store log entries only. -/
structure Bookkeeping (w w' : World) : Prop where
  inode : w'.inode = { w.inode with index := w'.inode.index }
  bytes : w'.mem.bytes = w.mem.bytes
  tails : w'.mem.tails = w.mem.tails
  extent : ∀ q, (w'.mem.slots q).extent = (w.mem.slots q).extent
  trace : ∃ ops, w'.trace = w.trace ++ ops ∧ ∀ o ∈ ops, o.IsPutEntry

theorem Bookkeeping.refl (w : World) : Bookkeeping w w :=
  ⟨rfl, rfl, rfl, fun _ => rfl, [], (List.append_nil _).symm, fun _ h => absurd h (List.not_mem_nil _)⟩

theorem Bookkeeping.trans {w₁ w₂ w₃ : World} (h₁ : Bookkeeping w₁ w₂) (h₂ : Bookkeeping w₂ w₃) :
    Bookkeeping w₁ w₃ := by
  obtain ⟨ops₁, ht₁, hp₁⟩ := h₁.trace
  obtain ⟨ops₂, ht₂, hp₂⟩ := h₂.trace
  refine ⟨by rw [h₂.inode, h₁.inode], h₂.bytes.trans h₁.bytes, h₂.tails.trans h₁.tails,
    fun q => (h₂.extent q).trans (h₁.extent q), ops₁ ++ ops₂, by rw [ht₂, ht₁, List.append_assoc],
    fun o ho => ?_⟩
  rcases List.mem_append.mp ho with h | h
  · exact hp₁ o h
  · exact hp₂ o h

theorem assignPage_spec (s : Nat) (w : World) (p : Nat) :
    Bookkeeping w (assignPage s w p) ∧
      (assignPage s w p).inode.index = Function.update w.inode.index p (some s) := by
  unfold assignPage
  dsimp only
  split
  · exact ⟨⟨rfl, rfl, rfl, fun _ => rfl, [], (List.append_nil _).symm,
      fun _ h => absurd h (List.not_mem_nil _)⟩, rfl⟩
  · rename_i o _
    refine ⟨⟨rfl, rfl, rfl, fun q => ?_, [.putEntry o _], rfl, fun _ h => ?_⟩, rfl⟩
    · simp only [World.free_mem, World.emit_mem, Pmem.run_cons, Pmem.run_nil, Pmem.step]
      by_cases hq : q = o
      · subst hq; simp only [Function.update_same]; rfl
      · simp only [Function.update_noteq hq]; rfl
    · rw [List.mem_singleton.mp h]; trivial

theorem foldl_assignPage_spec (s : Nat) :
    ∀ (ps : List Nat) (w : World), Bookkeeping w (ps.foldl (assignPage s) w) ∧
      ∀ p, (ps.foldl (assignPage s) w).inode.index p = if p ∈ ps then some s else w.inode.index p
  | [], w => ⟨.refl w, fun _ => rfl⟩
  | q :: ps, w => by
    obtain ⟨hb, hi⟩ := assignPage_spec s w q
    obtain ⟨hb', hi'⟩ := foldl_assignPage_spec s ps (assignPage s w q)
    refine ⟨hb.trans hb', fun p => ?_⟩
    rw [List.foldl_cons, hi', hi]
    by_cases hp : p = q
    · subst hp; simp
    · simp [hp, Function.update_noteq hp]

/-- nova_assign_write_entry points every page of the entry in slot `s` at it. -/
theorem novaAssignWriteEntry_spec (w : World) (s : Nat) :
    Bookkeeping w (novaAssignWriteEntry w s) ∧
      ∀ p, (novaAssignWriteEntry w s).inode.index p =
        if (w.mem.slots s).pgoff ≤ p ∧ p < (w.mem.slots s).pgoff + (w.mem.slots s).numPages
        then some s else w.inode.index p := by
  obtain ⟨hb, hi⟩ := foldl_assignPage_spec s (List.range' (w.mem.slots s).pgoff
    (w.mem.slots s).numPages) w
  refine ⟨hb, fun p => ?_⟩
  rw [novaAssignWriteEntry, hi]
  simp only [List.mem_range'_1]

/-- The page index once the entries in the `n` slots from `b` on are assigned, in order. -/
def assignFrom (slots : Nat → WriteEntry) : (n b : Nat) → (Nat → Option Nat) → Nat → Option Nat
  | 0, _, idx => idx
  | n + 1, b, idx => assignFrom slots n (b + 1) fun p => if (slots b).Maps p then some b else idx p

theorem assignFrom_congr {slots slots' : Nat → WriteEntry} :
    ∀ n b, (∀ q, b ≤ q → q < b + n → (slots' q).extent = (slots q).extent) →
      ∀ idx, assignFrom slots' n b idx = assignFrom slots n b idx
  | 0, _, _, _ => rfl
  | n + 1, b, h, idx => by
    simp only [assignFrom, WriteEntry.maps_congr (h b (Nat.le_refl b) (by omega))]
    exact assignFrom_congr n (b + 1) (fun q h1 h2 => h q (by omega) (by omega)) _

theorem assignFrom_range (slots : Nat → WriteEntry) :
    ∀ n b idx p q, assignFrom slots n b idx p = some q → idx p = some q ∨ b ≤ q ∧ q < b + n
  | 0, _, _, _, _, h => .inl h
  | n + 1, b, idx, p, q, h => by
    rcases assignFrom_range slots n (b + 1) _ p q h with h' | h'
    · split at h'
      · cases h'; exact .inr ⟨Nat.le_refl _, by omega⟩
      · exact .inl h'
    · exact .inr ⟨by omega, by omega⟩

theorem assignFrom_succ (slots : Nat → WriteEntry) :
    ∀ n b idx p, assignFrom slots (n + 1) b idx p =
      if (slots (b + n)).Maps p then some (b + n) else assignFrom slots n b idx p
  | 0, _, _, _ => rfl
  | n + 1, b, idx, p => by
    rw [assignFrom, assignFrom_succ slots n (b + 1), Nat.add_right_comm, ← Nat.add_assoc]
    rfl

/-- nova_reassign_file_tree over the `n` entries from slot `b`, the last before the log tail:
it returns 0 and assigns each entry in turn, and changes nothing else. -/
theorem reassignWalk_spec : ∀ (n b : Nat) (w : World), 0 < b → w.mem.tails w.inode.ino = b + n →
    (reassignWalk w n b).1 = 0 ∧ Bookkeeping w (reassignWalk w n b).2 ∧
      (reassignWalk w n b).2.inode.index = assignFrom w.mem.slots n b w.inode.index
  | 0, b, w, _, ht => by
    rw [reassignWalk, if_pos (ht.trans (Nat.add_zero b)).symm]; exact ⟨rfl, .refl w, rfl⟩
  | n + 1, b, w, hb, ht => by
    have hne : b ≠ w.mem.tails w.inode.ino := by omega
    simp only [reassignWalk, hne, Nat.pos_iff_ne_zero.mp hb, if_false]
    split
    · rename_i hty
      obtain ⟨h0, hbk, hi⟩ := reassignWalk_spec n (b + 1) w (by omega) (by omega)
      have skip : (fun p => if (w.mem.slots b).Maps p then some b else w.inode.index p) =
          w.inode.index := funext fun p => if_neg fun hm => hty hm.1
      exact ⟨h0, hbk, by rw [hi, assignFrom, skip]⟩
    · rename_i hty
      obtain ⟨hbk, hidx⟩ := novaAssignWriteEntry_spec w b
      have ht' : (novaAssignWriteEntry w b).mem.tails (novaAssignWriteEntry w b).inode.ino = b + 1 + n := by
        rw [hbk.tails, hbk.inode]; dsimp only; omega
      obtain ⟨h0, hbk', hi⟩ := reassignWalk_spec n (b + 1) _ (by omega) ht'
      have assigned : (novaAssignWriteEntry w b).inode.index =
          fun p => if (w.mem.slots b).Maps p then some b else w.inode.index p := funext fun p => by
        rw [hidx]; simp only [WriteEntry.Maps, not_not.mp hty, true_and]
      exact ⟨h0, hbk.trans hbk', by
        rw [hi, assignFrom_congr _ _ (fun q _ _ => hbk.extent q), assigned, assignFrom]⟩

theorem reassignWalk_nonpos : ∀ (fuel curr : Nat) (w : World), (reassignWalk w fuel curr).1 ≤ 0
  | 0, _, _ => by
    unfold reassignWalk
    split
    · exact Int.le_refl 0
    · exact (by decide : -Errno.inval ≤ 0)
  | fuel + 1, curr, w => by
    unfold reassignWalk
    split; · exact Int.le_refl 0
    split; · exact (by decide : -Errno.inval ≤ 0)
    split
    · exact reassignWalk_nonpos fuel _ w
    · exact reassignWalk_nonpos fuel _ _

theorem novaReassignFileTree_nonpos (w : World) (beginTail : Nat) :
    (novaReassignFileTree w beginTail).1 ≤ 0 :=
  reassignWalk_nonpos _ _ _

section Frame
variable (w : World)

-- The log operations store entries and tails, never data bytes.

theorem novaAppendFileWriteEntry_bytes (firstSlot : Nat) (room : Bool) (e : WriteEntry) (tail : Nat) :
    (novaAppendFileWriteEntry w firstSlot room e tail).2.mem.bytes = w.mem.bytes := by
  unfold novaAppendFileWriteEntry; split <;> dsimp only <;> split <;> rfl

theorem assignPage_bytes (s p : Nat) : (assignPage s w p).mem.bytes = w.mem.bytes := by
  unfold assignPage; dsimp only; split <;> rfl

theorem assignPage_ino (s p : Nat) : (assignPage s w p).inode.ino = w.inode.ino := by
  unfold assignPage; dsimp only; split <;> rfl

theorem novaAssignWriteEntry_bytes (s : Nat) : (novaAssignWriteEntry w s).mem.bytes = w.mem.bytes := by
  unfold novaAssignWriteEntry
  generalize List.range' _ _ = ps
  induction ps generalizing w with
  | nil => rfl
  | cons p ps ih => rw [List.foldl_cons, ih, assignPage_bytes]

theorem reassignWalk_bytes : ∀ (fuel curr : Nat) (w : World),
    (reassignWalk w fuel curr).2.mem.bytes = w.mem.bytes
  | 0, _, _ => by unfold reassignWalk; split <;> rfl
  | fuel + 1, curr, w => by
    unfold reassignWalk
    split; · rfl
    split; · rfl
    split
    · exact reassignWalk_bytes fuel _ w
    · rw [reassignWalk_bytes, novaAssignWriteEntry_bytes]

@[simp] theorem updateTail_bytes (ino tail : Nat) :
    (w.emit (novaUpdateTail ino tail)).mem.bytes = w.mem.bytes := rfl

theorem novaReassignFileTree_bytes (beginTail : Nat) :
    (novaReassignFileTree w beginTail).2.mem.bytes = w.mem.bytes :=
  reassignWalk_bytes _ _ w

theorem cleanupWalk_bytes (endTail : Nat) : ∀ (fuel curr : Nat) (w : World),
    (cleanupWalk endTail w fuel curr).2.mem.bytes = w.mem.bytes
  | 0, _, _ => by unfold cleanupWalk; split <;> rfl
  | fuel + 1, curr, w => by
    unfold cleanupWalk
    split; · rfl
    split; · rfl
    split
    · exact cleanupWalk_bytes endTail fuel _ w
    · exact cleanupWalk_bytes endTail fuel _ _

theorem novaCleanupIncompleteWrite_bytes (blocknr : Nat) (allocated : Int) (beginTail endTail : Nat) :
    (novaCleanupIncompleteWrite w blocknr allocated beginTail endTail).2.mem.bytes = w.mem.bytes := by
  unfold novaCleanupIncompleteWrite
  dsimp only
  split
  · split <;> rfl
  · rw [cleanupWalk_bytes]; split <;> rfl

theorem cleanupWalk_frame (endTail : Nat) : ∀ (fuel curr : Nat) (w : World),
    (cleanupWalk endTail w fuel curr).2.inode = w.inode ∧ (cleanupWalk endTail w fuel curr).2.mem = w.mem
  | 0, _, _ => by unfold cleanupWalk; split <;> exact ⟨rfl, rfl⟩
  | fuel + 1, curr, w => by
    unfold cleanupWalk
    split; · exact ⟨rfl, rfl⟩
    split; · exact ⟨rfl, rfl⟩
    split
    · exact cleanupWalk_frame endTail fuel _ w
    · exact cleanupWalk_frame endTail fuel _ _

theorem novaCleanupIncompleteWrite_frame (blocknr : Nat) (allocated : Int) (beginTail endTail : Nat) :
    (novaCleanupIncompleteWrite w blocknr allocated beginTail endTail).2.inode = w.inode ∧
      (novaCleanupIncompleteWrite w blocknr allocated beginTail endTail).2.mem = w.mem := by
  unfold novaCleanupIncompleteWrite
  dsimp only
  split
  · split <;> exact ⟨rfl, rfl⟩
  · obtain ⟨hi, hm⟩ := cleanupWalk_frame endTail (endTail - beginTail) beginTail
      (if blocknr > 0 ∧ allocated > 0 then w.free blocknr allocated.toNat else w)
    rw [hi, hm]
    split <;> exact ⟨rfl, rfl⟩

end Frame

end Nova
