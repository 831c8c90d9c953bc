import Mathlib.Algebra.Order.Ring.Nat
import Nova.Dax.CowSpec

/-! The entries nova_cow_file_write's loop appends tile the pages the write spans. -/
namespace Nova

/-- `es` tile the pages `[lo, hi)` in order: each entry starts where the previous one ends. -/
def Tiles : Nat → List WriteEntry → Nat → Prop
  | lo, [], hi => lo = hi
  | lo, e :: es, hi => e.pgoff = lo ∧ Tiles (lo + e.numPages) es hi

theorem Tiles.concat {e : WriteEntry} {mid : Nat} (he : e.pgoff = mid) :
    ∀ {lo : Nat} {es : List WriteEntry}, Tiles lo es mid → Tiles lo (es ++ [e]) (mid + e.numPages)
  | _, [], h => ⟨he.trans h.symm, by rw [h]; rfl⟩
  | _, _ :: _, h => ⟨h.1, Tiles.concat he h.2⟩

theorem Tiles.sum : ∀ {lo hi : Nat} {es : List WriteEntry}, Tiles lo es hi →
    lo + (es.map WriteEntry.numPages).sum = hi
  | _, _, [], h => h
  | _, _, _ :: _, h => by
    rw [List.map_cons, List.sum_cons, ← Nat.add_assoc]
    exact Tiles.sum h.2

/-- The entries the loop has appended so far: one per step, in the slots from `logStart` on. -/
def appended (env : WriteEnv) (w₀ : World) (s : CowLoop) : List WriteEntry :=
  (List.range s.step).map fun k => s.w.mem.slots (logStart env w₀ + k)

/-- The blocks of `e` have received the payload bytes that fall in its pages: the trace holds the
copy of the bytes of `[pos₀, pos₀ + len)` inside `e`'s pages to their place in `e`'s blocks. -/
def Received (buf : Nat → UInt8) (pos₀ len : Nat) (e : WriteEntry) (trace : List Op) : Prop :=
  .storeNt (e.block + max pos₀ (e.pgoff * 4096) - e.pgoff * 4096)
    (min (pos₀ + len) ((e.pgoff + e.numPages) * 4096) - max pos₀ (e.pgoff * 4096))
    (fun i => buf (max pos₀ (e.pgoff * 4096) - pos₀ + i)) ∈ trace

/-- The loop's locals on entry, as nova_cow_file_write sets them for `len` bytes at `pos`. -/
def cowStart (w : World) (pos len : Nat) : CowLoop :=
  { w, pos, count := len, numBlocks := (len + pos % 4096 - 1) / 4096 + 1, written := 0, status := 0
    step := 0, blocknr := 0, allocated := 0, beginTail := 0, tempTail := w.mem.tails w.inode.ino }

/-- A write that passes the checks before the loop runs the loop from `cowStart`, for
total_blocks iterations, and goes to `out:` or publishes as the loop ends. -/
theorem novaCowFileWrite_eq_loop {sb : Sb} {env : WriteEnv} {w : World} {buf : Nat → UInt8}
    {len ppos : Nat} (hlen : len ≠ 0) (hm : w.inode.mapped = false) (ha : env.accessOk = true)
    (hp : env.removePrivs = 0) :
    novaCowFileWrite sb env w buf len ppos false =
      match cowLoop sb env buf w.inode.iSize ((len + ppos % 4096 - 1) / 4096 + 1) (cowStart w ppos len) with
      | .out s ret => cowOut s ret ppos
      | .done s => cowPublish s ((len + ppos % 4096 - 1) / 4096 + 1) ppos := by
  simp only [novaCowFileWrite, hlen, hm, ha, hp, if_false, Bool.false_eq_true, not_true_eq_false, ne_eq,
    not_false_eq_true]
  rfl

/-- The loop after some steps of a write of `len` bytes at `pos₀` into `w₀`, `total` blocks in all:
num_blocks counts the blocks the rest of the write spans, and the entries appended so far tile the
pages before it and have received their bytes. -/
structure Tiled (env : WriteEnv) (buf : Nat → UInt8) (w₀ : World) (pos₀ len total : Nat) (s : CowLoop) :
    Prop where
  written : s.written + s.count = len
  pos : s.pos = pos₀ + s.written
  span : 0 < s.count →
    (s.numBlocks - 1) * 4096 < s.count + s.pos % 4096 ∧ s.count + s.pos % 4096 ≤ s.numBlocks * 4096
  done : s.count = 0 → s.numBlocks = 0
  le_total : s.numBlocks ≤ total
  page : 0 < s.count → s.pos / 4096 = pos₀ / 4096 + (total - s.numBlocks)
  aligned : 0 < s.step → 0 < s.count → s.pos % 4096 = 0
  steps : s.step ≤ total - s.numBlocks
  tempTail : s.tempTail = if s.step = 0 then w₀.mem.tails w₀.inode.ino else logStart env w₀ + s.step
  tiles : Tiles (pos₀ / 4096) (appended env w₀ s) (pos₀ / 4096 + (total - s.numBlocks))
  received : ∀ e ∈ appended env w₀ s, Received buf pos₀ len e s.w.trace
  start : s.step = 0 → s.written = 0

theorem numBlocks_eq_of_span {nb count off : Nat}
    (hs : 0 < count → (nb - 1) * 4096 < count + off ∧ count + off ≤ nb * 4096) (hd : count = 0 → nb = 0) :
    nb = if count = 0 then 0 else (count + off - 1) / 4096 + 1 := by
  split
  · exact hd ‹_›
  · have := hs (by omega); omega

theorem tiled_start {env : WriteEnv} {buf : Nat → UInt8} {w : World} {pos len : Nat} (hlen : 0 < len) :
    Tiled env buf w pos len ((len + pos % 4096 - 1) / 4096 + 1) (cowStart w pos len) :=
  ⟨Nat.zero_add len, rfl, fun _ => by simp only [cowStart]; omega, fun h => absurd h (Nat.pos_iff_ne_zero.mp hlen),
    Nat.le_refl _,
    fun _ => by simp [cowStart], fun h => absurd h (Nat.lt_irrefl 0), Nat.zero_le _, rfl,
    by simp [cowStart, appended, Tiles], fun _ h => absurd h (by simp [cowStart, appended]), fun _ => rfl⟩

section Step
variable {sb : Sb} {env : WriteEnv} {buf : Nat → UInt8} {w₀ : World} {pos₀ len total isize : Nat}
  {s s' : CowLoop} (h : Tiled env buf w₀ pos₀ len total s)

include h in
theorem Tiled.slot : s.slot env = logStart env w₀ + s.step := by
  unfold CowLoop.slot
  rw [h.tempTail]
  by_cases h0 : s.step = 0
  · simp only [h0, if_true, Nat.add_zero]
    rfl
  · simp only [h0, if_false]
    rw [if_neg (by omega)]

theorem CowLoop.alloc_le (env : WriteEnv) (s : CowLoop) : (s.alloc env).toNat ≤ s.numBlocks := by
  have : s.alloc env ≤ s.numBlocks := min_le_right _ _
  omega

theorem appended_of_advances (A : s.Advances sb env buf isize s') (hs : s.slot env = logStart env w₀ + s.step) :
    appended env w₀ s' = appended env w₀ s ++
      [cowEntry env isize s.pos (s.bytes env) (s.alloc env).toNat (s.block env)] := by
  unfold appended
  rw [A.step, List.range_succ, List.map_append, List.map_singleton, A.slots, hs]
  congr 1
  · refine List.map_congr_left fun k hk => Function.update_noteq ?_ _ _
    have := List.mem_range.mp hk
    omega
  · simp

theorem tile_arith {q off count nb a b : Nat} (hoff : off < 4096) (hc : 0 < count) (ha : 0 < a)
    (hle : a ≤ nb) (hs : (nb - 1) * 4096 < count + off ∧ count + off ≤ nb * 4096)
    (hb : b = min (4096 * a - off) count) :
    (0 < count - b → (nb - a - 1) * 4096 < count - b + (4096 * q + off + b) % 4096 ∧
      count - b + (4096 * q + off + b) % 4096 ≤ (nb - a) * 4096) ∧
    (count - b = 0 → nb - a = 0) ∧
    (0 < count - b → (4096 * q + off + b) / 4096 = q + a ∧ (4096 * q + off + b) % 4096 = 0) := by
  by_cases hlt : 4096 * a - off < count
  · rw [min_eq_left (Nat.le_of_lt hlt)] at hb
    subst hb
    have hq : 4096 * q + off + (4096 * a - off) = 4096 * (q + a) := by omega
    rw [hq, Nat.mul_mod_right, Nat.mul_div_cancel_left _ (by decide)]
    exact ⟨fun _ => by omega, fun h0 => by omega, fun _ => ⟨rfl, rfl⟩⟩
  · rw [min_eq_right (by omega)] at hb
    subst hb
    exact ⟨fun h0 => by omega, fun _ => by omega, fun h0 => by omega⟩

include h in
theorem Tiled.count_pos (A : s.Advances sb env buf isize s') : 0 < s.count := by
  by_contra h0
  have := h.done (by omega)
  have := A.alloc
  have := CowLoop.alloc_le env s
  omega

include h in
theorem Tiled.advance (A : s.Advances sb env buf isize s') : Tiled env buf w₀ pos₀ len total s' := by
  have hc := h.count_pos A
  have ha : 0 < (s.alloc env).toNat := by have := A.alloc; omega
  have hle := CowLoop.alloc_le env s
  have hpos : s.pos = 4096 * (s.pos / 4096) + s.pos % 4096 := (Nat.div_add_mod _ _).symm
  obtain ⟨g1, g2, g3⟩ := @tile_arith (s.pos / 4096) _ _ _ _ (s.bytes env) (Nat.mod_lt _ (by decide)) hc ha hle
    (h.span hc) rfl
  rw [← hpos] at g1 g3
  have hbc : s.bytes env ≤ s.count := min_le_right _ _
  have hpage := h.page hc
  have hlt := h.le_total
  have hst := h.steps
  have hw := h.written
  have hp := h.pos
  have hmax : max pos₀ (s.pos / 4096 * 4096) = s.pos := by
    by_cases h0 : s.step = 0
    · have := h.start h0; omega
    · have := h.aligned (by omega) hc; omega
  exact
  { written := by rw [A.written, A.count]; omega
    pos := by rw [A.pos, A.written]; omega
    span := fun hc' => by rw [A.pos, A.count, A.numBlocks]; exact g1 (by rwa [A.count] at hc')
    done := fun h0 => by rw [A.numBlocks]; exact g2 (by rwa [A.count] at h0)
    le_total := by rw [A.numBlocks]; omega
    page := fun hc' => by
      rw [A.pos, A.numBlocks, (g3 (by rwa [A.count] at hc')).1]; omega
    aligned := fun _ hc' => by rw [A.pos]; exact (g3 (by rwa [A.count] at hc')).2
    steps := by rw [A.step, A.numBlocks]; omega
    tempTail := by rw [A.tempTail, A.step, h.slot]; rfl
    tiles := by
      rw [appended_of_advances A h.slot, A.numBlocks,
        show pos₀ / 4096 + (total - (s.numBlocks - (s.alloc env).toNat)) =
          pos₀ / 4096 + (total - s.numBlocks) + (s.alloc env).toNat by omega]
      exact Tiles.concat hpage h.tiles
    received := fun e he => by
      rw [appended_of_advances A h.slot] at he
      rcases List.mem_append.mp he with he | he
      · exact A.trace.1.subset (h.received e he)
      · rw [List.mem_singleton.mp he]
        unfold Received
        dsimp only [cowEntry]
        have hbytes : s.bytes env = min (4096 * (s.alloc env).toNat - s.pos % 4096) s.count := rfl
        rw [hmax, show s.block env * 4096 + s.pos - s.pos / 4096 * 4096 = s.block env * 4096 + s.pos % 4096 by omega,
          show min (pos₀ + len) ((s.pos / 4096 + (s.alloc env).toNat) * 4096) - s.pos = s.bytes env by omega,
          show s.pos - pos₀ = s.written by omega]
        exact A.trace.2
    start := fun h0 => absurd (A.step ▸ h0) (Nat.succ_ne_zero _) }

end Step

section Run
variable {sb : Sb} {env : WriteEnv} {buf : Nat → UInt8} {w₀ : World} {pos₀ len total isize : Nat}
  (halloc : ∀ k n, 0 < n → 1 ≤ (env.alloc k n).1) (hleft : ∀ k n, env.left k n = 0)
  (hroom : ∀ k, env.room k = true) (hslot : logStart env w₀ ≠ 0)
include halloc hleft hroom hslot

/-- When every allocation, copy and log append succeeds, the loop keeps the shape, and given as
many iterations as blocks remain it runs until num_blocks is 0. -/
theorem cowLoop_tiled : ∀ (fuel : Nat) (s : CowLoop), Tiled env buf w₀ pos₀ len total s →
    ∃ s', cowLoop sb env buf isize fuel s = .done s' ∧ Tiled env buf w₀ pos₀ len total s' ∧
      (s.numBlocks ≤ fuel → s'.numBlocks = 0)
  | 0, s, h => ⟨s, rfl, h, Nat.le_zero.mp⟩
  | fuel + 1, s, h => by
    rw [cowLoop]
    split
    · rename_i hn
      have hc : 0 < s.count := by
        by_contra h0; have := h.done (by omega); omega
      have ha : 0 < s.alloc env := by
        have := halloc s.step s.numBlocks hn; unfold CowLoop.alloc; omega
      have hs : s.slot env ≠ 0 := by rw [h.slot]; omega
      obtain ⟨s', hs'⟩ := @cowStep_inr_of_ok sb env buf isize s ha (hleft _ _) (hroom _) hs hc
      rw [hs']
      have A := cowStep_inr hs' hc
      obtain ⟨s'', h1, h2, h3⟩ := cowLoop_tiled fuel s' (h.advance A)
      exact ⟨s'', h1, h2, fun _ => h3 (by have := A.numBlocks; have := A.alloc; omega)⟩
    · exact ⟨s, rfl, h, fun _ => by omega⟩

end Run

theorem cow_loop_tiles_write {sb : Sb} {env : WriteEnv} {buf : Nat → UInt8} {w : World} {pos len : Nat}
    (hlen : 0 < len) (halloc : ∀ k n, 0 < n → 1 ≤ (env.alloc k n).1) (hleft : ∀ k n, env.left k n = 0)
    (hroom : ∀ k, env.room k = true) (hslot : logStart env w ≠ 0) :
    (∀ fuel, ∃ s, cowLoop sb env buf w.inode.iSize fuel (cowStart w pos len) = .done s ∧
      s.numBlocks = if s.count = 0 then 0 else (s.count + s.pos % 4096 - 1) / 4096 + 1) ∧
    ∃ s, cowLoop sb env buf w.inode.iSize ((len + pos % 4096 - 1) / 4096 + 1) (cowStart w pos len) = .done s ∧
      s.count = 0 ∧ s.numBlocks = 0 ∧ s.step ≤ (len + pos % 4096 - 1) / 4096 + 1 ∧
      Tiles (pos / 4096) (appended env w s) (pos / 4096 + ((len + pos % 4096 - 1) / 4096 + 1)) ∧
      ((appended env w s).map WriteEntry.numPages).sum = (len + pos % 4096 - 1) / 4096 + 1 ∧
      ∀ e ∈ appended env w s, Received buf pos len e s.w.trace := by
  have h0 := @tiled_start env buf w pos len hlen
  refine ⟨fun fuel => ?_, ?_⟩
  · obtain ⟨s, h1, h2, -⟩ := @cowLoop_tiled sb env buf w pos len _ w.inode.iSize halloc hleft hroom hslot fuel _ h0
    exact ⟨s, h1, numBlocks_eq_of_span h2.span h2.done⟩
  · obtain ⟨s, h1, h2, h3⟩ := @cowLoop_tiled sb env buf w pos len _ w.inode.iSize halloc hleft hroom hslot _ _ h0
    have hn := h3 (Nat.le_refl _)
    have ht := h2.tiles
    rw [hn, Nat.sub_zero] at ht
    have hcount : s.count = 0 := by
      by_contra hc; have := (h2.span (by omega)).2; omega
    exact ⟨s, h1, hcount, hn, by have := h2.steps; omega, ht, by have := ht.sum; omega, h2.received⟩

/-- Two pages written with one block per step into an empty file: the entries of slots 100 and
101 map pages 0 and 1. -/
theorem cow_loop_tiles_two_pages :
    0 < 8192 ∧ (∀ k n, 0 < n → 1 ≤ (blockPerStep.alloc k n).1) ∧ (∀ k n, blockPerStep.left k n = 0) ∧
      (∀ k, blockPerStep.room k = true) ∧ logStart blockPerStep freshFile ≠ 0 ∧
      ((∀ fuel, ∃ s, cowLoop ⟨0, id, 1⟩ blockPerStep (fun _ => 7) freshFile.inode.iSize fuel
          (cowStart freshFile 0 8192) = .done s ∧
          s.numBlocks = if s.count = 0 then 0 else (s.count + s.pos % 4096 - 1) / 4096 + 1) ∧
      ∃ s, cowLoop ⟨0, id, 1⟩ blockPerStep (fun _ => 7) freshFile.inode.iSize ((8192 + 0 % 4096 - 1) / 4096 + 1)
          (cowStart freshFile 0 8192) = .done s ∧
        s.count = 0 ∧ s.numBlocks = 0 ∧ s.step ≤ (8192 + 0 % 4096 - 1) / 4096 + 1 ∧
        Tiles (0 / 4096) (appended blockPerStep freshFile s) (0 / 4096 + ((8192 + 0 % 4096 - 1) / 4096 + 1)) ∧
        ((appended blockPerStep freshFile s).map WriteEntry.numPages).sum = (8192 + 0 % 4096 - 1) / 4096 + 1 ∧
        ∀ e ∈ appended blockPerStep freshFile s, Received (fun _ => 7) 0 8192 e s.w.trace) :=
  have halloc : ∀ k n, 0 < n → 1 ≤ (blockPerStep.alloc k n).1 := fun _ _ _ => Int.le_refl 1
  have hslot : logStart blockPerStep freshFile ≠ 0 := by decide
  ⟨by decide, halloc, fun _ _ => rfl, fun _ => rfl, hslot,
    cow_loop_tiles_write (by decide) halloc (fun _ _ => rfl) (fun _ => rfl) hslot⟩

/-- An allocator handing out one block per step (1000, then 1001), copies that go through, and a
log with room for one entry only. -/
def secondAppendFails : WriteEnv :=
  ⟨true, 0, 5, 9, fun k _ => (1, 1000 + k), fun _ _ => 0, fun k => k == 0, 1, fun _ => 7⟩

/-- The two-block write of 8192 bytes at 0 into an empty file under `secondAppendFails`. -/
def fullLogWrite : WriteOutcome :=
  novaCowFileWrite ⟨0, id, 1⟩ secondAppendFails freshFile (fun _ => 7) 8192 0 false

/-- The second append finds no room: the call returns -ENOSPC having appended one entry (slot 100,
one page at page 0), so the entries it appends cover one of the write's two blocks. -/
theorem cow_write_stops_on_full_log :
    fullLogWrite.ret = -Errno.nospc ∧ (8192 + 0 % 4096 - 1) / 4096 + 1 = 2 ∧
      (fullLogWrite.w.trace.filter fun o => match o with | .putEntry .. => true | _ => false).length = 1 ∧
      (fullLogWrite.w.mem.slots 100).pgoff = 0 ∧ (fullLogWrite.w.mem.slots 100).numPages = 1 := by
  decide

end Nova
