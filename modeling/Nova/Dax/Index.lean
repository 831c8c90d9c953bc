import Nova.Dax.Log
import Nova.Dax.Read

/-! The page index the read path relies on (IndexOk) is kept by the log bookkeeping. -/
namespace Nova

theorem assignPage_reassigned (s : Nat) (w : World) (p q : Nat) :
    ((assignPage s w p).mem.slots q).reassigned =
      if w.inode.index p = some q then 1 else (w.mem.slots q).reassigned := by
  unfold assignPage
  dsimp only
  rcases h : w.inode.index p with _ | o
  · simp only [reduceCtorEq, if_false]; rfl
  · simp only [Option.some.injEq, World.free_mem, World.emit_mem, Pmem.run_cons, Pmem.run_nil, Pmem.step]
    by_cases hq : o = q
    · subst hq; simp only [Function.update_same, if_true]
    · simp only [Function.update_noteq (Ne.symm hq), hq, if_false]; rfl

theorem foldl_assignPage_reassigned (s q : Nat) :
    ∀ (ps : List Nat) (w : World), ps.Nodup →
      ((ps.foldl (assignPage s) w).mem.slots q).reassigned =
        if ∃ p ∈ ps, w.inode.index p = some q then 1 else (w.mem.slots q).reassigned
  | [], w, _ => by simp
  | p :: ps, w, hnd => by
    obtain ⟨hp, hnd⟩ := List.nodup_cons.mp hnd
    have hsame : (∃ p' ∈ ps, (assignPage s w p).inode.index p' = some q) ↔
        ∃ p' ∈ ps, w.inode.index p' = some q :=
      exists_congr fun p' => and_congr_right fun hp' => by
        rw [(assignPage_spec s w p).2, Function.update_noteq fun h => hp (by rw [← h]; exact hp')]
    rw [List.foldl_cons, foldl_assignPage_reassigned s q ps _ hnd, assignPage_reassigned]
    by_cases h2 : ∃ p' ∈ ps, w.inode.index p' = some q
    · obtain ⟨p', hp', h⟩ := h2
      rw [if_pos (hsame.mpr ⟨p', hp', h⟩), if_pos ⟨p', List.mem_cons_of_mem p hp', h⟩]
    rw [if_neg (mt hsame.mp h2)]
    by_cases h1 : w.inode.index p = some q
    · rw [if_pos h1, if_pos ⟨p, List.mem_cons_self p ps, h1⟩]
    · rw [if_neg h1, if_neg fun ⟨p', hp', h⟩ => (List.mem_cons.mp hp').elim (fun e => h1 (e ▸ h))
        fun hp' => h2 ⟨p', hp', h⟩]

theorem novaAssignWriteEntry_reassigned (w : World) (s q : Nat) :
    ((novaAssignWriteEntry w s).mem.slots q).reassigned =
      if ∃ p ∈ List.range' (w.mem.slots s).pgoff (w.mem.slots s).numPages, w.inode.index p = some q
      then 1 else (w.mem.slots q).reassigned :=
  foldl_assignPage_reassigned s q _ w (List.nodup_range' _ _)

/-- Pointing the pages of the entry in slot `s` at it keeps the index well formed, when it holds a
block other than 0 for each of its pages. -/
theorem novaAssignWriteEntry_indexOk {w : World} {s : Nat} (hok : IndexOk w.inode w.mem)
    (hblk : ∀ p, (w.mem.slots s).pgoff ≤ p → p < (w.mem.slots s).pgoff + (w.mem.slots s).numPages →
      getNvmm (w.mem.slots s) p ≠ 0) :
    IndexOk (novaAssignWriteEntry w s).inode (novaAssignWriteEntry w s).mem := by
  obtain ⟨hbk, hidx⟩ := novaAssignWriteEntry_spec w s
  have hext : ∀ q, ((novaAssignWriteEntry w s).mem.slots q).pgoff = (w.mem.slots q).pgoff ∧
      ((novaAssignWriteEntry w s).mem.slots q).numPages = (w.mem.slots q).numPages ∧
      ∀ p, getNvmm ((novaAssignWriteEntry w s).mem.slots q) p = getNvmm (w.mem.slots q) p := fun q => by
    have h := hbk.extent q
    simp only [WriteEntry.extent, Prod.mk.injEq] at h
    exact ⟨h.2.1, h.2.2.1, getNvmm_congr (hbk.extent q)⟩
  intro p q hq
  obtain ⟨hpg, hnp, hg⟩ := hext q
  rw [hpg, hnp, hg, novaAssignWriteEntry_reassigned]
  rw [hidx] at hq
  split_ifs at hq with hp
  · -- a page of the new entry
    cases hq
    exact ⟨hp.1, hp.2, hblk p hp.1 hp.2, fun _ q' h1 h2 => by rw [hidx, if_pos ⟨h1, h2⟩]⟩
  · -- a page it keeps: its entry is released once it loses another page
    obtain ⟨h1, h2, h3, hall⟩ := hok p q hq
    refine ⟨h1, h2, h3, fun h0 q' hq1 hq2 => ?_⟩
    by_cases hlost : ∃ p' ∈ List.range' (w.mem.slots s).pgoff (w.mem.slots s).numPages,
        w.inode.index p' = some q
    · rw [if_pos hlost] at h0; cases h0
    · rw [if_neg hlost] at h0
      have hq' := hall h0 q' hq1 hq2
      rw [hidx, if_neg fun hin => hlost ⟨q', List.mem_range'_1.mpr hin, hq'⟩, hq']

/-- The write entries in the `n` slots from `b` hold a block other than 0 for each of their
pages. -/
def BlocksFrom (w : World) (b n : Nat) : Prop :=
  ∀ q, b ≤ q → q < b + n → (w.mem.slots q).entryType = fileWrite →
    ∀ p, (w.mem.slots q).pgoff ≤ p → p < (w.mem.slots q).pgoff + (w.mem.slots q).numPages →
      getNvmm (w.mem.slots q) p ≠ 0

theorem BlocksFrom.congr {w w' : World} {b n : Nat} (h : BlocksFrom w b n)
    (he : ∀ q, (w'.mem.slots q).extent = (w.mem.slots q).extent) : BlocksFrom w' b n := by
  intro q h1 h2 hty p hp1 hp2
  have he' := he q
  simp only [WriteEntry.extent, Prod.mk.injEq] at he'
  rw [getNvmm_congr (he q)]
  rw [he'.1] at hty
  rw [he'.2.1] at hp1 hp2
  rw [he'.2.2.1] at hp2
  exact h q h1 h2 hty p hp1 hp2

/-- nova_reassign_file_tree over the `n` entries from slot `b` to the log tail keeps the index well
formed when their write entries hold blocks other than 0. -/
theorem reassignWalk_indexOk : ∀ (n b : Nat) (w : World), 0 < b → w.mem.tails w.inode.ino = b + n →
    IndexOk w.inode w.mem → BlocksFrom w b n → IndexOk (reassignWalk w n b).2.inode (reassignWalk w n b).2.mem
  | 0, b, w, _, ht, hok, _ => by
    rw [reassignWalk, if_pos (ht.trans (Nat.add_zero b)).symm]
    exact hok
  | n + 1, b, w, hb, ht, hok, hfr => by
    have hne : b ≠ w.mem.tails w.inode.ino := by omega
    have hnext : ∀ {w' : World}, BlocksFrom w' b (n + 1) → BlocksFrom w' (b + 1) n :=
      fun h q h1 h2 => h q (by omega) (by omega)
    simp only [reassignWalk, hne, Nat.pos_iff_ne_zero.mp hb, if_false]
    split
    · exact reassignWalk_indexOk n (b + 1) w (by omega) (by omega) hok (hnext hfr)
    · rename_i hty
      obtain ⟨hbk, -⟩ := novaAssignWriteEntry_spec w b
      exact reassignWalk_indexOk n (b + 1) _ (by omega) (by rw [hbk.tails, hbk.inode]; dsimp only; omega)
        (novaAssignWriteEntry_indexOk hok (hfr b (Nat.le_refl b) (by omega) (not_not.mp hty)))
        (hnext (hfr.congr hbk.extent))

end Nova
