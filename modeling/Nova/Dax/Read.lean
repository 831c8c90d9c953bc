import Nova.Dax.Csum

/-! do_dax_mapping_read: each iteration resolves a page and then copies from it, two steps a
writer can run between (nova_dax_file_read's rcu_read_lock is commented out). -/
namespace Nova

/-- How the environment answers a read. -/
structure ReadEnv where
  /-- access_ok(VERIFY_WRITE, buf, len). -/
  accessOk : Bool
  /-- __copy_to_user or __clear_user at loop step `k`, asked for `n` bytes: the bytes it leaves. -/
  left : Nat → Nat → Nat

/-- What the lookup half resolved: a hole, which is cleared, or dax_mem, the address of the
resolved block (nova_get_block, NULL for block 0). -/
inductive Source where
  | hole
  | block (daxMem : Option Nat)
  deriving DecidableEq

/-- What a copy of `nr` bytes out of `src` from offset `off` reads: __copy_to_user from the
block, or __clear_user for a hole (or a NULL block, which faults before it reads). -/
def Source.read (src : Source) (m : Pmem) (off nr : Nat) : List UInt8 :=
  match src with
  | .block (some a) => bytesOf m.bytes (a + off) nr
  | _ => List.replicate nr 0

/-- The locals of do_dax_mapping_read. `pending` is what the lookup half resolved, with nr, until
the copy half runs; `ret` is what the call returns and `*ppos` after it, once it has. -/
structure Reader where
  pos : Nat
  isize : Nat
  len : Nat
  index : Nat
  offset : Nat
  copied : Nat
  out : List UInt8
  step : Nat
  pending : Option (Source × Nat)
  ret : Option (Int × Nat)
  deriving DecidableEq

/-- The `out:` label: `*ppos = pos + copied`, and `copied ? copied : error`. -/
def readOut (r : Reader) (error : Int) : Reader :=
  { r with ret := some (if r.copied ≠ 0 then r.copied else error, r.pos + r.copied) }

/-- The first half of an iteration: the end-of-file checks, nova_get_write_entry, the extent
checks, nr, and nova_verify_data_csum over the blocks the copy will read. -/
def readLookup (sb : Sb) (i : Inode) (m : Pmem) (r : Reader) : Reader :=
  let endIndex := (r.isize - 1) / 4096
  if endIndex < r.index then readOut r 0 else
  if r.index = endIndex ∧ (r.isize - 1) % 4096 + 1 ≤ r.offset then readOut r 0 else
  match i.index r.index with
  | none => { r with pending := some (.hole, min (4096 - r.offset) (r.len - r.copied)) }
  | some s =>
    let e := m.slots s
    if r.index < e.pgoff ∨ e.numPages ≤ r.index - e.pgoff then
      { r with ret := some (-Errno.inval, r.pos) }
    else
      let nr := if e.reassigned = 0 then (e.numPages - (r.index - e.pgoff)) * 4096 else 4096
      let nr := min (nr - r.offset) (r.len - r.copied)
      if sb.blockCsumBase ≠ 0 ∧
          novaVerifyDataCsum sb 4096 m e r.index ((r.offset + nr - 1) / 4096 + 1) = false then
        readOut r (-Errno.io)
      else { r with pending := some (.block (novaGetBlock (getNvmm e r.index * 4096)), nr) }

/-- The second half: copy nr bytes out of the resolved block as memory holds it now (or clear
them for a hole), then advance, and leave the loop once `len` bytes are copied. A copy from
NULL faults on its first byte. -/
def readCopy (env : ReadEnv) (m : Pmem) (r : Reader) : Reader :=
  match r.pending with
  | none => r
  | some (src, nr) =>
    let left := match src with
      | .block none => nr
      | _ => min (env.left r.step nr) nr
    let r := { r with step := r.step + 1, pending := none }
    if left ≠ 0 then readOut r (-Errno.fault) else
    let r := { r with
      out := r.out ++ src.read m r.offset nr, copied := r.copied + nr
      index := r.index + (r.offset + nr) / 4096, offset := (r.offset + nr) % 4096 }
    if r.copied < r.len then r else readOut r 0

/-- The checks before the loop. `len` is clamped to `isize - pos`, a comparison done in size_t:
past the end of the file the difference wraps around and `len` is kept. -/
def readStart (env : ReadEnv) (i : Inode) (len ppos : Nat) : Reader :=
  let r : Reader := ⟨ppos, i.iSize, len, ppos / 4096, ppos % 4096, 0, [], 0, none, none⟩
  if ¬ env.accessOk then readOut r (-Errno.fault) else
  if i.iSize = 0 then readOut r 0 else
  let len := if ppos ≤ i.iSize ∧ i.iSize - ppos < len then i.iSize - ppos else len
  if len = 0 then readOut r 0 else { r with len }

/-- The loop run by one reader alone, at most `fuel` iterations. -/
def readLoop (sb : Sb) (env : ReadEnv) (i : Inode) (m : Pmem) : Nat → Reader → Reader
  | 0, r => r
  | fuel + 1, r =>
    match r.ret with
    | some _ => r
    | none => readLoop sb env i m fuel (readCopy env m (readLookup sb i m r))

/-- do_dax_mapping_read(filp, buf, len, ppos) with no concurrent writer: what it returns, the
bytes it copied to the user, and `*ppos`. Every iteration copies at least one byte, so `len + 1`
iterations reach the end. -/
def doDaxMappingRead (sb : Sb) (env : ReadEnv) (i : Inode) (m : Pmem) (len ppos : Nat) :
    Int × List UInt8 × Nat :=
  let r := readLoop sb env i m (len + 1) (readStart env i len ppos)
  match r.ret with
  | some (ret, ppos') => (ret, r.out, ppos')
  | none => (r.copied, r.out, r.pos + r.copied)

theorem readLoop_of_ret {sb : Sb} {env : ReadEnv} {i : Inode} {m : Pmem} {r : Reader} {v : Int × Nat}
    (h : r.ret = some v) : ∀ fuel, readLoop sb env i m fuel r = r
  | 0 => rfl
  | _ + 1 => by simp only [readLoop, h]

theorem doDaxMappingRead_of_lookup {sb : Sb} {env : ReadEnv} {i : Inode} {m : Pmem} {len ppos : Nat}
    {v : Int × Nat} (hs : (readStart env i len ppos).ret = none)
    (h : (readLookup sb i m (readStart env i len ppos)).ret = some v)
    (hp : (readLookup sb i m (readStart env i len ppos)).pending = none) :
    (doDaxMappingRead sb env i m len ppos).1 = v.1 := by
  have hc : readCopy env m (readLookup sb i m (readStart env i len ppos)) =
      readLookup sb i m (readStart env i len ppos) := by simp only [readCopy, hp]
  simp only [doDaxMappingRead, readLoop, hs, hc, readLoop_of_ret h, h]

/-- The page index as the read path relies on it: a mapped page lies in the extent of its entry,
in a block other than block 0, and an entry that is not reassigned still maps every page of its
extent. -/
def IndexOk (i : Inode) (m : Pmem) : Prop :=
  ∀ p s, i.index p = some s →
    (m.slots s).pgoff ≤ p ∧ p < (m.slots s).pgoff + (m.slots s).numPages ∧ getNvmm (m.slots s) p ≠ 0 ∧
      ((m.slots s).reassigned = 0 → ∀ q, (m.slots s).pgoff ≤ q →
        q < (m.slots s).pgoff + (m.slots s).numPages → i.index q = some s)

/-- What a read from `pos` has done so far: it copied the file's bytes from `pos` on, and its
loop stands right after them. -/
def ReadInv (i : Inode) (m : Pmem) (pos : Nat) (r : Reader) : Prop :=
  r.out = bytesOf (fileByte i m) pos r.copied ∧ r.index * 4096 + r.offset = pos + r.copied ∧
    r.offset < 4096 ∧ r.pending = none

section Sequential
variable {sb : Sb} {env : ReadEnv} {i : Inode} {m : Pmem} {pos : Nat}

theorem fileByte_extent (hok : IndexOk i m) {p s o k : Nat} (hs : i.index p = some s)
    (hk : o + k < ((m.slots s).numPages - (p - (m.slots s).pgoff)) * 4096)
    (hre : (m.slots s).reassigned = 0 ∨ o + k < 4096) :
    fileByte i m (p * 4096 + o + k) = m.bytes (getNvmm (m.slots s) p * 4096 + o + k) := by
  obtain ⟨hlo, hhi, -, hall⟩ := hok p s hs
  have hq : i.index (p + (o + k) / 4096) = some s := by
    rcases hre with hre | hre
    · exact hall hre _ (by omega) (by
        have : (o + k) / 4096 < (m.slots s).numPages - (p - (m.slots s).pgoff) :=
          Nat.div_lt_of_lt_mul (by rwa [Nat.mul_comm])
        omega)
    · rwa [Nat.div_eq_of_lt hre, Nat.add_zero]
  have hdiv : (p * 4096 + o + k) / 4096 = p + (o + k) / 4096 := by omega
  have hmod : (p * 4096 + o + k) % 4096 = (o + k) % 4096 := by omega
  simp only [fileByte, hdiv, hmod, hq, getNvmm]
  exact congrArg m.bytes (by omega)

theorem ReadInv.ret {r : Reader} (h : ReadInv i m pos r) (v : Option (Int × Nat)) :
    ReadInv i m pos { r with ret := v } := h

theorem ReadInv.readOut {r : Reader} (h : ReadInv i m pos r) (e : Int) : ReadInv i m pos (readOut r e) := h

theorem readCopy_inv {r : Reader} {src : Source} {nr : Nat} (h : ReadInv i m pos r)
    (hsrc : src.read m r.offset nr = bytesOf (fileByte i m) (pos + r.copied) nr) :
    ReadInv i m pos (readCopy env m { r with pending := some (src, nr) }) := by
  obtain ⟨hout, hpos, hoff, -⟩ := h
  have adv : ReadInv i m pos { r with
      step := r.step + 1, pending := none, out := r.out ++ bytesOf (fileByte i m) (pos + r.copied) nr
      copied := r.copied + nr, index := r.index + (r.offset + nr) / 4096
      offset := (r.offset + nr) % 4096 } := by
    refine ⟨by rw [hout, bytesOf_add], by dsimp only; omega, Nat.mod_lt _ (by decide), rfl⟩
  simp only [readCopy]
  split
  · exact ⟨hout, hpos, hoff, rfl⟩
  · rw [hsrc]
    split
    · exact adv
    · exact adv.readOut 0

theorem readCopy_idle {r : Reader} (hp : r.pending = none) : readCopy env m r = r := by
  simp only [readCopy, hp]

/-- A lookup followed at once by its copy, with no writer between them, copies the file's
bytes. -/
theorem readIter_inv (hok : IndexOk i m) {r : Reader} (h : ReadInv i m pos r) :
    ReadInv i m pos (readCopy env m (readLookup sb i m r)) := by
  have idle : ∀ v, ReadInv i m pos (readCopy env m { r with ret := v }) := fun v => by
    simp only [readCopy, h.2.2.2]; exact ⟨h.1, h.2.1, h.2.2.1, rfl⟩
  have hpos := h.2.1
  have hoff := h.2.2.1
  unfold readLookup
  dsimp only
  by_cases h1 : (r.isize - 1) / 4096 < r.index
  · rw [if_pos h1]; exact idle _
  rw [if_neg h1]
  by_cases h2 : r.index = (r.isize - 1) / 4096 ∧ (r.isize - 1) % 4096 + 1 ≤ r.offset
  · rw [if_pos h2]; exact idle _
  rw [if_neg h2]
  split
  · -- a hole reads as zeros
    rename_i hs
    refine readCopy_inv h (List.eq_replicate_iff.mpr ⟨bytesOf_length .., fun b hb => ?_⟩).symm
    obtain ⟨k, hk, rfl⟩ := List.mem_map.mp hb
    have hk := List.mem_range.mp hk
    have hpage : (pos + r.copied + k) / 4096 = r.index := by omega
    simp only [fileByte, hpage, hs]
  · rename_i s hs
    obtain ⟨hlo, hhi, hg, -⟩ := hok _ _ hs
    rw [if_neg (by omega)]
    have hmem : novaGetBlock (getNvmm (m.slots s) r.index * 4096) =
        some (getNvmm (m.slots s) r.index * 4096) := if_neg (by omega)
    -- nr stays within the extent, and within the page once the entry is reassigned
    have copy : ∀ nr, nr ≤ ((m.slots s).numPages - (r.index - (m.slots s).pgoff)) * 4096 - r.offset →
        ((m.slots s).reassigned = 0 ∨ nr ≤ 4096 - r.offset) →
        ReadInv i m pos (readCopy env m { r with
          pending := some (.block (novaGetBlock (getNvmm (m.slots s) r.index * 4096)), nr) }) := by
      intro nr hnr hre
      refine readCopy_inv h ?_
      simp only [hmem]
      refine bytesOf_congr fun k hk => ?_
      rw [show pos + r.copied + k = r.index * 4096 + r.offset + k by omega,
        fileByte_extent hok hs (by omega) (hre.imp_right fun h => by omega), Nat.add_assoc]
    split
    · split; · exact idle _
      exact copy _ (Nat.min_le_left _ _) (.inl ‹_›)
    · split; · exact idle _
      have := Nat.min_le_left (4096 - r.offset) (r.len - r.copied)
      exact copy _ (by omega) (.inr this)

theorem readLoop_inv (hok : IndexOk i m) :
    ∀ fuel {r : Reader}, ReadInv i m pos r → ReadInv i m pos (readLoop sb env i m fuel r)
  | 0, _, h => h
  | fuel + 1, r, h => by
    unfold readLoop
    split
    · exact h
    · exact readLoop_inv hok fuel (readIter_inv hok h)

theorem readStart_inv (len : Nat) : ReadInv i m pos (readStart env i len pos) := by
  have base : ReadInv i m pos ⟨pos, i.iSize, len, pos / 4096, pos % 4096, 0, [], 0, none, none⟩ :=
    ⟨rfl, by dsimp only; omega, Nat.mod_lt _ (by decide), rfl⟩
  unfold readStart
  dsimp only
  split; · exact base
  split; · exact base
  split <;> split <;> exact base

theorem readLookup_eof {r : Reader} (hoff : r.offset < 4096) (hs : 0 < r.isize)
    (h : r.isize ≤ r.index * 4096 + r.offset) :
    readLookup sb i m r = readOut r 0 := by
  unfold readLookup
  dsimp only
  split
  · rfl
  · rw [if_pos (by omega)]

variable (hok : IndexOk i m) (hcs : sb.blockCsumBase = 0)
include hok hcs

theorem readLookup_resolves {r : Reader} (h : ReadInv i m pos r) (hin : r.index * 4096 + r.offset < r.isize)
    (hc : r.copied < r.len) : ∃ src nr, readLookup sb i m r = { r with pending := some (src, nr) } ∧
      0 < nr ∧ nr ≤ r.len - r.copied ∧ src ≠ .block none := by
  have hoff := h.2.2.1
  unfold readLookup
  dsimp only
  rw [if_neg (by omega), if_neg (by omega)]
  split
  · exact ⟨_, _, rfl, by omega, Nat.min_le_right _ _, fun h => Source.noConfusion h⟩
  · rename_i s hs
    obtain ⟨hlo, hhi, hg, -⟩ := hok _ _ hs
    rw [if_neg (by omega), if_neg (by simp [hcs])]
    have hmem : novaGetBlock (getNvmm (m.slots s) r.index * 4096) =
        some (getNvmm (m.slots s) r.index * 4096) := if_neg (by omega)
    refine ⟨_, _, rfl, ?_, Nat.min_le_right _ _, by rw [hmem]; exact fun h => Source.noConfusion h (fun h => Option.noConfusion h)⟩
    split <;> apply Nat.lt_min.mpr <;> constructor <;> omega

/-- With every copy going through, the loop copies the rest of `len` and returns it: every
iteration copies at least one byte. -/
theorem readLoop_finishes (hleft : ∀ k n, env.left k n = 0) : ∀ (fuel : Nat) (r : Reader),
    ReadInv i m r.pos r → r.pos + r.len ≤ r.isize → r.ret = none → r.copied < r.len → r.len - r.copied ≤ fuel →
    (readLoop sb env i m fuel r).ret = some ((r.len : Int), r.pos + r.len) ∧
      (readLoop sb env i m fuel r).copied = r.len
  | 0, _, _, _, _, hc, hf => absurd hf (by omega)
  | fuel + 1, r, h, hend, hret, hc, hf => by
    have hat := h.2.1
    obtain ⟨src, nr, hl, hnr, hle, hsrc⟩ := readLookup_resolves hok hcs h (by omega) hc
    rw [readLoop, hret]
    dsimp only
    have hcopy : readCopy env m (readLookup sb i m r) =
        if r.copied + nr < r.len then { r with
          step := r.step + 1, pending := none, out := r.out ++ src.read m r.offset nr
          copied := r.copied + nr, index := r.index + (r.offset + nr) / 4096
          offset := (r.offset + nr) % 4096 }
        else readOut { r with
          step := r.step + 1, pending := none, out := r.out ++ src.read m r.offset nr
          copied := r.copied + nr, index := r.index + (r.offset + nr) / 4096
          offset := (r.offset + nr) % 4096 } 0 := by
      simp only [hl, readCopy, hleft, Nat.zero_min, ne_eq, not_true_eq_false, if_false]
    have hinv := @readIter_inv sb env i m r.pos hok r h
    generalize readCopy env m (readLookup sb i m r) = r' at hcopy hinv ⊢
    subst hcopy
    by_cases hlt : r.copied + nr < r.len
    · rw [if_pos hlt] at hinv ⊢
      exact readLoop_finishes hleft fuel _ hinv hend hret hlt (by dsimp only; omega)
    · rw [if_neg hlt]
      have hdone : r.copied + nr = r.len := by omega
      rw [readLoop_of_ret rfl]
      simp only [readOut, hdone, and_true]
      rw [if_pos (by omega)]

end Sequential

/-- Page 0 maps, through slot 100, to block 500 of 97s; page 1 maps to slot 101, whose entry
starts at page 5: a page index whose lookup returns an entry that does not cover the page. -/
def strayInode : Inode :=
  ⟨1, fun p => if p = 0 then some 100 else if p = 1 then some 101 else none, 8192, 2, false⟩

def strayMem : Pmem :=
  ⟨fun x => if 2048000 ≤ x ∧ x < 2052096 then 97 else 0,
    fun s => if s = 100 then ⟨fileWrite, 0, 1, 0, 1, 0, 2048000, 0, 8192⟩
      else if s = 101 then ⟨fileWrite, 0, 1, 5, 1, 0, 2052096, 0, 8192⟩ else default,
    fun _ => 102⟩

/-- Reading 2 bytes at 4095, checksums off: the first iteration copies byte 4095 (a 97) to the
user, the second finds page 1's entry out of range and returns -EINVAL straight away, so the
call reports an error for a buffer it filled and leaves `*ppos` at 4095. -/
theorem read_drops_copied_bytes_on_stray_entry :
    doDaxMappingRead ⟨0, id, 1⟩ ⟨true, fun _ _ => 0⟩ strayInode strayMem 2 4095 = (-Errno.inval, [97], 4095) := by
  decide

/-- With checksums off and every copy going through, do_dax_mapping_read returns, by itself
and not for want of iterations, m = min(len, i_size - pos) (0 at or past the end of the file),
hands the user the file's bytes [pos, pos + m), zeros over holes, and sets `*ppos` to pos + m. -/
theorem read_copies_file_range {sb : Sb} {env : ReadEnv} {i : Inode} {m : Pmem} (hok : IndexOk i m)
    (hcs : sb.blockCsumBase = 0) (hacc : env.accessOk = true) (hleft : ∀ k n, env.left k n = 0)
    (len ppos : Nat) :
    (readLoop sb env i m (len + 1) (readStart env i len ppos)).ret =
      some (((min len (i.iSize - ppos) : Nat) : Int), ppos + min len (i.iSize - ppos)) ∧
    doDaxMappingRead sb env i m len ppos = (((min len (i.iSize - ppos) : Nat) : Int),
      bytesOf (fileByte i m) ppos (min len (i.iSize - ppos)), ppos + min len (i.iSize - ppos)) := by
  have hinv := @readLoop_inv sb env i m ppos hok (len + 1) _ (@readStart_inv env i m ppos len)
  suffices key : (readLoop sb env i m (len + 1) (readStart env i len ppos)).ret =
      some (((min len (i.iSize - ppos) : Nat) : Int), ppos + min len (i.iSize - ppos)) ∧
      (readLoop sb env i m (len + 1) (readStart env i len ppos)).copied = min len (i.iSize - ppos) by
    refine ⟨key.1, ?_⟩
    unfold doDaxMappingRead
    dsimp only
    rw [key.1]
    dsimp only
    rw [hinv.1, key.2]
  -- nothing to copy: the call returns 0 before or at its first lookup
  have empty : ∀ r : Reader, r.ret = some (0, ppos) → r.copied = 0 → min len (i.iSize - ppos) = 0 →
      (readLoop sb env i m (len + 1) r).ret = some (((min len (i.iSize - ppos) : Nat) : Int),
        ppos + min len (i.iSize - ppos)) ∧ (readLoop sb env i m (len + 1) r).copied = min len (i.iSize - ppos) :=
    fun r hr hc hm => by rw [readLoop_of_ret hr, hr, hc, hm]; exact ⟨rfl, rfl⟩
  unfold readStart
  dsimp only
  rw [if_neg (by simp [hacc])]
  split
  · exact empty _ rfl rfl (by omega)
  generalize hL : (if ppos ≤ i.iSize ∧ i.iSize - ppos < len then i.iSize - ppos else len) = L
  split
  · exact empty _ (by simp only [readOut]; rw [if_neg (by decide)]; rfl) rfl (by split at hL <;> omega)
  rename_i hs hL0
  have base : ReadInv i m ppos ⟨ppos, i.iSize, L, ppos / 4096, ppos % 4096, 0, [], 0, none, none⟩ :=
    ⟨rfl, by dsimp only; omega, Nat.mod_lt _ (by decide), rfl⟩
  by_cases hp : ppos < i.iSize
  · -- inside the file: the loop copies all of L = m
    have hLM : L = min len (i.iSize - ppos) := by split at hL <;> omega
    rw [← hLM]
    exact readLoop_finishes hok hcs hleft (len + 1) _ base (by dsimp only; omega) rfl
      (by dsimp only; omega) (by dsimp only; omega)
  · -- past the end: the first lookup returns 0
    have hM : min len (i.iSize - ppos) = 0 := by omega
    rw [readLoop]
    dsimp only
    rw [readLookup_eof (by dsimp only; omega) (by dsimp only; omega) (by dsimp only; omega),
      readCopy_idle rfl, readLoop_of_ret rfl]
    simp only [readOut, hM, ne_eq, not_true_eq_false, if_false, Nat.add_zero]
    exact ⟨rfl, trivial⟩

/-- Page 0 of `strayMem`'s file maps through slot 100, page 1 is a hole, i_size 6000. -/
def holeTailInode : Inode := ⟨1, fun p => if p = 0 then some 100 else none, 6000, 1, false⟩

/-- Reading 3000 bytes at 4000 crosses from the mapped page into the hole and stops at i_size. -/
theorem read_into_hole_tail :
    IndexOk holeTailInode strayMem ∧
      (readLoop ⟨0, id, 1⟩ ⟨true, fun _ _ => 0⟩ holeTailInode strayMem (3000 + 1)
        (readStart ⟨true, fun _ _ => 0⟩ holeTailInode 3000 4000)).ret =
        some (((min 3000 (holeTailInode.iSize - 4000) : Nat) : Int), 4000 + min 3000 (holeTailInode.iSize - 4000)) ∧
      doDaxMappingRead ⟨0, id, 1⟩ ⟨true, fun _ _ => 0⟩ holeTailInode strayMem 3000 4000 =
        (((min 3000 (holeTailInode.iSize - 4000) : Nat) : Int),
          bytesOf (fileByte holeTailInode strayMem) 4000 (min 3000 (holeTailInode.iSize - 4000)),
          4000 + min 3000 (holeTailInode.iSize - 4000)) := by
  have hok : IndexOk holeTailInode strayMem := by
    intro p s h
    simp only [holeTailInode] at h
    split at h
    · cases h
      subst p
      refine ⟨by decide, by decide, by decide, fun _ q h1 h2 => ?_⟩
      have hq : q = 0 := by
        have : (strayMem.slots 100).pgoff = 0 ∧ (strayMem.slots 100).numPages = 1 := by decide
        omega
      simp only [holeTailInode, hq, if_true]
    · cases h
  exact ⟨hok, read_copies_file_range hok rfl rfl (fun _ _ => rfl) 3000 4000⟩


section Checksums
variable {sb : Sb} {i : Inode} {m : Pmem} {r : Reader}

theorem readLookup_csum :
    readLookup sb i m r = readLookup { sb with blockCsumBase := 0 } i m r ∨
      readLookup sb i m r = readOut r (-Errno.io) := by
  unfold readLookup
  simp only [ne_eq, not_true_eq_false, false_and, if_false]
  by_cases h1 : (r.isize - 1) / 4096 < r.index
  · simp only [if_pos h1, true_or]
  by_cases h2 : r.index = (r.isize - 1) / 4096 ∧ (r.isize - 1) % 4096 + 1 ≤ r.offset
  · simp only [if_neg h1, if_pos h2, true_or]
  simp only [if_neg h1, if_neg h2]
  rcases i.index r.index with _ | s
  · exact .inl rfl
  · dsimp only
    split_ifs <;> first | exact .inl rfl | exact .inr rfl

theorem readLookup_block (hp : r.pending = none)
    {a nr : Nat} (h0 : (readLookup { sb with blockCsumBase := 0 } i m r).pending = some (.block (some a), nr)) :
    ∃ e n, a = getNvmm e r.index * 4096 ∧ 4096 ≤ n ∧ nr = min (n - r.offset) (r.len - r.copied) ∧
      readLookup sb i m r =
        if sb.blockCsumBase ≠ 0 ∧ novaVerifyDataCsum sb 4096 m e r.index ((r.offset + nr - 1) / 4096 + 1) = false
        then readOut r (-Errno.io) else readLookup { sb with blockCsumBase := 0 } i m r := by
  unfold readLookup at h0 ⊢
  simp only [ne_eq, not_true_eq_false, false_and, if_false] at h0 ⊢
  by_cases h1 : (r.isize - 1) / 4096 < r.index
  · rw [if_pos h1] at h0; simp only [readOut, hp, reduceCtorEq] at h0
  simp only [if_neg h1] at h0 ⊢
  by_cases h2 : r.index = (r.isize - 1) / 4096 ∧ (r.isize - 1) % 4096 + 1 ≤ r.offset
  · rw [if_pos h2] at h0; simp only [readOut, hp, reduceCtorEq] at h0
  simp only [if_neg h2] at h0 ⊢
  revert h0
  rcases i.index r.index with _ | s <;> dsimp only <;> intro h0
  · simp at h0
  · by_cases hx : r.index < (m.slots s).pgoff ∨ (m.slots s).numPages ≤ r.index - (m.slots s).pgoff
    · simp [hx, hp] at h0
    · rw [if_neg hx] at h0 ⊢
      have hn : 4096 ≤ if (m.slots s).reassigned = 0 then
          ((m.slots s).numPages - (r.index - (m.slots s).pgoff)) * 4096 else 4096 := by
        split <;> omega
      generalize (if (m.slots s).reassigned = 0 then
          ((m.slots s).numPages - (r.index - (m.slots s).pgoff)) * 4096 else 4096) = n at h0 hn ⊢
      simp only [Option.some.injEq, Prod.mk.injEq, Source.block.injEq] at h0
      obtain ⟨ha, rfl⟩ := h0
      exact ⟨m.slots s, n, novaGetBlock_eq_some ha, hn, rfl, by rw [if_neg hx]⟩

theorem verify_covers_copy {b off nr : Nat} (hoff : off < 4096) (hnr : 0 < nr) :
    verifyBlocks sb 4096 m ((off + nr - 1) / 4096 + 1) b (b * 4096) = true ↔
      ∀ x, b * 4096 + off ≤ x → x < b * 4096 + off + nr → CsumOk sb m (x / 4096) := by
  rw [verifyBlocks_eq_true]
  constructor
  · intro h x h1 h2
    have hj := h (x / 4096 - b) (by omega)
    rwa [Nat.add_sub_cancel' (by omega)] at hj
  · intro h j hj
    have hx := h (b * 4096 + if j = 0 then off else j * 4096) (by split <;> omega) (by split <;> omega)
    rwa [show (b * 4096 + if j = 0 then off else j * 4096) / 4096 = b + j by split <;> omega] at hx

theorem read_verifies_copied_blocks (hret : r.ret = none) (hp : r.pending = none)
    (hoff : r.offset < 4096) (hc : r.copied < r.len) :
    (readLookup sb i m r = readLookup { sb with blockCsumBase := 0 } i m r ∨
      readLookup sb i m r = readOut r (-Errno.io)) ∧
    (∀ a nr, (readLookup { sb with blockCsumBase := 0 } i m r).pending = some (.block (some a), nr) →
      (readLookup sb i m r = readLookup { sb with blockCsumBase := 0 } i m r ↔
        sb.blockCsumBase = 0 ∨ ∀ x, a + r.offset ≤ x → x < a + r.offset + nr → CsumOk sb m (x / 4096))) ∧
    (readLookup sb i m r = readOut r (-Errno.io) →
      ∀ env fuel, readLoop sb env i m (fuel + 1) r = readOut r (-Errno.io)) := by
  refine ⟨readLookup_csum, fun a nr h0 => ?_, fun hl env fuel => ?_⟩
  · obtain ⟨e, n, rfl, hn, rfl, hl⟩ := readLookup_block hp h0
    have hnr : 0 < min (n - r.offset) (r.len - r.copied) := by omega
    rw [hl, novaVerifyDataCsum, ← verify_covers_copy hoff hnr]
    by_cases hb : sb.blockCsumBase = 0
    · simp [hb]
    · cases hv : verifyBlocks sb 4096 m ((r.offset + min (n - r.offset) (r.len - r.copied) - 1) / 4096 + 1)
          (getNvmm e r.index) (getNvmm e r.index * 4096)
      · simp only [hb, hv, ne_eq, not_false_eq_true, and_self, if_true, Bool.false_eq_true, or_self,
          iff_false]
        intro heq
        have hpend := congrArg Reader.pending heq
        simp [h0, readOut, hp] at hpend
      · simp [hv]
  · rw [readLoop, hret]
    dsimp only
    rw [hl, readCopy_idle (by exact hp), readLoop_of_ret rfl]

/-- The reader of a one-byte read at 4095 of `holeTailInode`, before its first iteration. -/
def lastByteReader : Reader := readStart ⟨true, fun _ _ => 0⟩ holeTailInode 1 4095

/-- Its lookup would copy the one byte out of block 500 and verifies that block only. -/
theorem read_checks_block_of_last_byte :
    lastByteReader.ret = none ∧ lastByteReader.pending = none ∧ lastByteReader.offset < 4096 ∧
      lastByteReader.copied < lastByteReader.len ∧
      (readLookup { csumOn with blockCsumBase := 0 } holeTailInode strayMem lastByteReader).pending =
        some (.block (some 2048000), 1) ∧
      ((readLookup csumOn holeTailInode strayMem lastByteReader =
          readLookup { csumOn with blockCsumBase := 0 } holeTailInode strayMem lastByteReader ∨
        readLookup csumOn holeTailInode strayMem lastByteReader = readOut lastByteReader (-Errno.io)) ∧
      (∀ a nr, (readLookup { csumOn with blockCsumBase := 0 } holeTailInode strayMem lastByteReader).pending =
          some (.block (some a), nr) →
        (readLookup csumOn holeTailInode strayMem lastByteReader =
            readLookup { csumOn with blockCsumBase := 0 } holeTailInode strayMem lastByteReader ↔
          csumOn.blockCsumBase = 0 ∨ ∀ x, a + lastByteReader.offset ≤ x →
            x < a + lastByteReader.offset + nr → CsumOk csumOn strayMem (x / 4096))) ∧
      (readLookup csumOn holeTailInode strayMem lastByteReader = readOut lastByteReader (-Errno.io) →
        ∀ env fuel, readLoop csumOn env holeTailInode strayMem (fuel + 1) lastByteReader =
          readOut lastByteReader (-Errno.io))) :=
  ⟨rfl, rfl, by decide, by decide, by decide, read_verifies_copied_blocks rfl rfl (by decide) (by decide)⟩

end Checksums

end Nova
