import Nova.File
import Nova.Protect

/-! Stripe checksums and parity of a data block (parity.c). A pointer is its offset in the byte
map it points into. -/
namespace Nova

/-- The settings parity.c reads; nova.h is not among the sources. -/
structure ParityCfg where
  /-- NOVA_STRIPE_SHIFT. -/
  strpShift : Nat
  /-- The data_csum module parameter. -/
  dataCsum : Nat
  /-- The data_parity module parameter. -/
  dataParity : Nat
  /-- static_cpu_has(X86_FEATURE_XMM2). -/
  sse2 : Bool
  /-- static_cpu_has(X86_FEATURE_XMM4_2). -/
  sse42 : Bool
  /-- nova_get_data_csum_addr(sb, strp_nr, replica). -/
  dataCsumAddr : Nat → Nat → Nat
  /-- nova_get_parity_addr(sb, blocknr); 0 is NULL. -/
  parityAddr : Nat → Nat
  /-- NOVA_INIT_CSUM. -/
  initCsum : UInt32
  /-- nova_is_protected(sb). -/
  protect : Bool

/-- NOVA_STRIPE_SIZE. -/
def ParityCfg.strpSize (cfg : ParityCfg) : Nat := 2 ^ cfg.strpShift

/-- sb->s_blocksize >> strp_shift. -/
def ParityCfg.numStrps (cfg : ParityCfg) : Nat := 4096 / cfg.strpSize

/-- Byte `j` of every stripe of the block at `block` XORed together, stripe 0 first: the inner
loop of nova_calculate_block_parity. -/
def stripeXor (src : Nat → UInt8) (S numStrps block j : Nat) : UInt8 :=
  (List.range' 1 (numStrps - 1)).foldl (fun x strp => x ^^^ src (block + strp * S + j))
    (src (block + j))

theorem stripeXor_add (src : Nat → UInt8) (S n a d j : Nat) :
    stripeXor src S n (a + d) j = stripeXor src S n a (d + j) := by
  simp only [stripeXor, Nat.add_assoc, Nat.add_left_comm d]

/-- The chunk at `q * c` of a parity loop with `c`-byte registers. -/
def parityChunk (c S numStrps : Nat) (src : Nat → UInt8) (block : Nat) (par : Nat → UInt8)
    (q : Nat) : Nat → UInt8 :=
  fun j => if q * c ≤ j ∧ j < q * c + c then stripeXor src S numStrps block j else par j

/-- A loop of nova_calculate_block_parity, `for (i = 0; i < strp_size; i += c)`. -/
def parityLoop (c S numStrps : Nat) (src : Nat → UInt8) (block : Nat) (parity : Nat → UInt8) :
    Nat → UInt8 :=
  (List.range ((S + c - 1) / c)).foldl (parityChunk c S numStrps src block) parity

/-- nova_calculate_block_parity: the SSE2 loop moves 16 bytes at a time, the other one 8. -/
def novaCalculateBlockParity (cfg : ParityCfg) (src : Nat → UInt8) (parity : Nat → UInt8)
    (block : Nat) : Nat → UInt8 :=
  if cfg.sse2 then parityLoop 16 cfg.strpSize cfg.numStrps src block parity
  else parityLoop 8 cfg.strpSize cfg.numStrps src block parity

theorem foldl_parityChunk (c S n : Nat) (src : Nat → UInt8) (block : Nat) (parity : Nat → UInt8)
    (q : Nat) : ∀ j, (List.range q).foldl (parityChunk c S n src block) parity j =
      if j < q * c then stripeXor src S n block j else parity j := by
  induction q with
  | zero => simp
  | succ q ih =>
    intro j
    rw [List.range_succ, List.foldl_append, List.foldl_cons, List.foldl_nil]
    simp only [parityChunk, ih, Nat.succ_mul]
    split_ifs <;> first | rfl | omega

/-- Both loops of nova_calculate_block_parity leave the XOR of the block's stripes in every
byte of the parity stripe. -/
theorem novaCalculateBlockParity_eq (cfg : ParityCfg) (src : Nat → UInt8) (parity : Nat → UInt8)
    (block : Nat) {j : Nat} (hj : j < cfg.strpSize) :
    novaCalculateBlockParity cfg src parity block j = stripeXor src cfg.strpSize cfg.numStrps block j := by
  unfold novaCalculateBlockParity parityLoop
  split <;> rw [foldl_parityChunk, if_pos (by omega)]

/-- Modelled from the spec: nova_update_block_csum (checksum.c is not among the sources). Every
stripe the write `[offset, offset + bytes)` touches gets crc32c(NOVA_INIT_CSUM, stripe) in both
replicas of its checksum slot, written around the cache. -/
def novaUpdateBlockCsum (cfg : ParityCfg) (src : Nat → UInt8) (block blocknr offset bytes : Nat) :
    List Op :=
  let S := cfg.strpSize
  let strpNr := (blocknr * 4096 + offset) / S
  ((List.range ((offset % S + bytes - 1) / S + 1)).map fun s =>
    let csum := le (crc32c cfg.initCsum (bytesOf src (block + (offset / S + s) * S) S)).toNat
    [Op.storeNt (cfg.dataCsumAddr (strpNr + s) 0) 4 csum,
      .storeNt (cfg.dataCsumAddr (strpNr + s) 1) 4 csum]).flatten

/-- nova_update_block_parity: the parity of the block at `block` (zeros when `zero`) is built in
a kmalloc'd buffer and copied to the parity stripe of `blocknr`, unlocked for the copy. Nothing
is written when the allocation fails or `block` is NULL. -/
def novaUpdateBlockParity (cfg : ParityCfg) (kmallocOk : Bool) (src : Nat → UInt8)
    (block blocknr : Nat) (zero : Bool) : List Op :=
  if ¬ kmallocOk ∨ block = 0 then [] else
  let parity := if zero then fun _ => 0 else novaCalculateBlockParity cfg src (fun _ => 0) block
  let nvmmptr := cfg.parityAddr blocknr
  novaMemunlockRange cfg.protect nvmmptr cfg.strpSize ++ [.storeNt nvmmptr cfg.strpSize parity] ++
    novaMemlockRange cfg.protect nvmmptr cfg.strpSize

/-- The state of the unrolled-by-8 loop: the advancing block pointer, the accumulators acc[k]
and the parity buffer. -/
structure Unroll where
  block : Nat
  acc : Nat → UInt32
  parity : Nat → UInt8

/-- Iteration `i` of the unrolled loop: the qwords at `block + k * strp_size` of the eight
stripes go into acc[k] (nova_crc32c_qword) and, XORed, into parity[i]; then `block += 8`. -/
def unrollStep (cfg : ParityCfg) (src : Nat → UInt8) (unrollCsum : Bool) (st : Unroll) (i : Nat) :
    Unroll where
  block := st.block + 8
  acc k := if cfg.dataCsum > 0 ∧ unrollCsum then
      crc32c (st.acc k) (bytesOf src (st.block + k * cfg.strpSize) 8) else st.acc k
  parity j := if cfg.dataParity > 0 ∧ 8 * i ≤ j ∧ j < 8 * i + 8 then
      stripeXor src cfg.strpSize 8 st.block (j - 8 * i) else st.parity j

/-- The unrolled loop, `for (i = 0; i < n; i++)`. -/
def unrollLoop (cfg : ParityCfg) (src : Nat → UInt8) (unrollCsum : Bool) (st : Unroll) (n : Nat) :
    Unroll :=
  (List.range n).foldl (unrollStep cfg src unrollCsum) st

section Unrolled
variable (cfg : ParityCfg) (src : Nat → UInt8) (uc : Bool) (st : Unroll)

theorem unrollLoop_succ (n : Nat) :
    unrollLoop cfg src uc st (n + 1) = unrollStep cfg src uc (unrollLoop cfg src uc st n) n := by
  simp only [unrollLoop, List.range_succ, List.foldl_append, List.foldl_cons, List.foldl_nil]

theorem unrollLoop_block (n : Nat) : (unrollLoop cfg src uc st n).block = st.block + 8 * n := by
  induction n with
  | zero => rfl
  | succ n ih => rw [unrollLoop_succ]; simp only [unrollStep, ih]; omega

theorem unrollLoop_acc (n k : Nat) : (unrollLoop cfg src uc st n).acc k =
    if cfg.dataCsum > 0 ∧ uc then
      crc32c (st.acc k) (bytesOf src (st.block + k * cfg.strpSize) (8 * n)) else st.acc k := by
  induction n with
  | zero => simp [unrollLoop, bytesOf]
  | succ n ih =>
    rw [unrollLoop_succ]
    simp only [unrollStep, ih, unrollLoop_block]
    split_ifs
    · rw [Nat.mul_succ, bytesOf_add, crc32c_append, Nat.add_right_comm st.block]
    · rfl

theorem unrollLoop_parity (n j : Nat) : (unrollLoop cfg src uc st n).parity j =
    if cfg.dataParity > 0 ∧ j < 8 * n then stripeXor src cfg.strpSize 8 st.block j
    else st.parity j := by
  induction n with
  | zero => simp [unrollLoop]
  | succ n ih =>
    rw [unrollLoop_succ]
    simp only [unrollStep, ih, unrollLoop_block, stripeXor_add]
    split_ifs <;> first | rfl | (congr 1; omega)

end Unrolled

/-- The calls that end nova_update_block_csum_parity: nova_update_block_csum unless the checksums
were unrolled, nova_update_block_parity unless the parity was. -/
def csumParityTail (cfg : ParityCfg) (kmallocOk : Bool) (src : Nat → UInt8)
    (unrollCsum unrollParity : Bool) (block blocknr offset bytes : Nat) : List Op :=
  (if cfg.dataCsum > 0 ∧ ¬ unrollCsum then novaUpdateBlockCsum cfg src block blocknr offset bytes
    else []) ++
  (if cfg.dataParity > 0 ∧ ¬ unrollParity then
    novaUpdateBlockParity cfg kmallocOk src block blocknr false else [])

/-- nova_update_block_csum_parity. A write over all eight stripes of a block takes the unrolled
path, and the calls at its end see `block` as the loop left it. With data_parity off the parity
buffer stays NULL; memcpy_to_pmem_nocache is a user copy whose fault is fixed up, and copies
nothing from it. No path fails, so the result is always `some`. -/
def novaUpdateBlockCsumParity (cfg : ParityCfg) (kmallocOk : Bool) (src : Nat → UInt8)
    (block blocknr offset bytes : Nat) : Option (List Op) :=
  let S := cfg.strpSize
  let strpNr := blocknr * 4096 / S
  let unrollParity : Bool := 4096 / S = 8 ∧ (offset % S + bytes - 1) / S + 1 = 8
  let unrollCsum : Bool := unrollParity ∧ cfg.sse42
  if unrollCsum ∨ unrollParity then
    if cfg.dataParity > 0 ∧ ¬ kmallocOk then some [] else
    let st := unrollLoop cfg src unrollCsum ⟨block, fun _ => cfg.initCsum, fun _ => 0⟩ (S / 8)
    let crc (j : Nat) : UInt8 := le (st.acc (j / 4)).toNat (j % 4)
    let nvmmptr := cfg.dataCsumAddr strpNr 0
    let csumOps : List Op := if cfg.dataCsum > 0 ∧ unrollCsum then
        novaMemunlockRange cfg.protect nvmmptr (4 * 8) ++
          [.storeNt nvmmptr (4 * 8) crc, .storeNt (cfg.dataCsumAddr strpNr 1) (4 * 8) crc] ++
          novaMemlockRange cfg.protect nvmmptr (4 * 8)
      else []
    let nvmmptr := cfg.parityAddr blocknr
    let parityCopy : List Op := if cfg.dataParity > 0 then [.storeNt nvmmptr S st.parity] else []
    some (csumOps ++ novaMemunlockRange cfg.protect nvmmptr S ++ parityCopy ++
      novaMemlockRange cfg.protect nvmmptr S ++
      csumParityTail cfg kmallocOk src unrollCsum unrollParity st.block blocknr offset bytes)
  else some (csumParityTail cfg kmallocOk src unrollCsum unrollParity block blocknr offset bytes)

/-- The path without unrolling: nova_update_block_csum, then nova_update_block_parity, each when
its module parameter is set. -/
def genericCsumParity (cfg : ParityCfg) (kmallocOk : Bool) (src : Nat → UInt8)
    (block blocknr offset bytes : Nat) : List Op :=
  csumParityTail cfg kmallocOk src false false block blocknr offset bytes

/-- Data checksums on, parity off, on a CPU with SSE2 and SSE4.2, 512-byte stripes; each
checksum replica is an array of 4-byte slots indexed by the stripe number. -/
def csumOnlyCfg : ParityCfg :=
  ⟨9, 1, 0, true, true, fun nr r => 8192 + 4 * nr + 65536 * r, fun nr => 131072 + 512 * nr, 1,
    false⟩

/-- The same mount with parity on and write protection on. -/
def protectedCfg : ParityCfg := { csumOnlyCfg with dataParity := 1, protect := true }

theorem csum_parity_replica_stored_while_locked :
    (novaUpdateBlockCsumParity protectedCfg true (fun _ => 0) 4096 16 0 4096).map (guarded []) =
      some false := by
  decide

/-- nova_restore_data: the stripes of block `blocknr` are read into a buffer with the parity
stripe in place of stripe `badStrpId`, and their XOR rebuilds that stripe. It is written back,
unlocked for the copy, when its checksum matches either stored copy. `fromPmem i` is what
memcpy_from_pmem returns for the `i`-th read (negative on a media error). -/
def novaRestoreData (cfg : ParityCfg) (kmallocOk : Bool) (fromPmem : Nat → Int) (m : Pmem)
    (blocknr badStrpId : Nat) : Int × List Op :=
  let S := cfg.strpSize
  let blockoff := blocknr * 4096
  let badStrp := blockoff + badStrpId * S
  let badStrpNr := (blockoff + badStrpId * S) / S
  let parity := cfg.parityAddr blocknr
  if ¬ kmallocOk then (-Errno.nomem, []) else
  if parity = 0 then (-Errno.io, []) else
  match (List.range cfg.numStrps).find? (fromPmem · < 0) with
  | some i => (fromPmem i, [])
  | none =>
    let blockbuf (x : Nat) : UInt8 :=
      if x / S = badStrpId then m.bytes (parity + x % S) else m.bytes (blockoff + x)
    let stripe := novaCalculateBlockParity cfg blockbuf (fun _ => 0) 0
    let csumCalc := (crc32c cfg.initCsum (bytesOf stripe 0 S)).toNat
    if csumCalc = readLe m.bytes (cfg.dataCsumAddr badStrpNr 0) 4 ∨
        csumCalc = readLe m.bytes (cfg.dataCsumAddr badStrpNr 1) 4 then
      (((List.range cfg.numStrps).map fromPmem).getLastD 0,
        novaMemunlockRange cfg.protect badStrp S ++ [.storeNt badStrp S stripe] ++
          novaMemlockRange cfg.protect badStrp S)
    else (-Errno.io, [])

section Restore

/-! Bytes under XOR, through their bit vectors. -/

theorem u8_xor_assoc (a b c : UInt8) : a ^^^ b ^^^ c = a ^^^ (b ^^^ c) :=
  congrArg UInt8.mk (BitVec.xor_assoc _ _ _)

theorem u8_xor_comm (a b : UInt8) : a ^^^ b = b ^^^ a := congrArg UInt8.mk (BitVec.xor_comm _ _)

theorem u8_xor_self (a : UInt8) : a ^^^ a = 0 := congrArg UInt8.mk BitVec.xor_self

theorem u8_xor_zero (a : UInt8) : a ^^^ 0 = a := congrArg UInt8.mk BitVec.xor_zero

theorem u8_xor_xor_cancel (a b : UInt8) : a ^^^ b ^^^ a = b := by
  rw [u8_xor_comm a b, u8_xor_assoc, u8_xor_self, u8_xor_zero]

theorem stripeXor_eq_foldl (src : Nat → UInt8) (S block j : Nat) {n : Nat} (hn : 0 < n) :
    stripeXor src S n block j = (List.range n).foldl (fun x i => x ^^^ src (block + i * S + j)) 0 := by
  obtain ⟨n, rfl⟩ : ∃ k, n = k + 1 := ⟨n - 1, by omega⟩
  rw [stripeXor, List.range_succ_eq_map, List.foldl_cons, List.foldl_map, Nat.add_sub_cancel,
    List.range'_eq_map_range, List.foldl_map]
  simp only [Nat.zero_mul, Nat.add_zero, u8_xor_comm 0, u8_xor_zero, Nat.add_comm 1]

theorem getLastD_of_forall {l : List Int} {a : Int} (h : ∀ r ∈ l, r = a) : l.getLastD a = a := by
  induction l generalizing a with
  | nil => rfl
  | cons r l ih =>
    rw [List.getLastD_cons, h r (List.mem_cons_self r l)]
    exact ih fun r' hr' => h r' (List.mem_cons_of_mem r hr')

-- Byte XOR as ac_rfl needs it.
instance u8XorAssociative : Std.Associative (fun a b : UInt8 => a ^^^ b) := ⟨u8_xor_assoc⟩
instance u8XorCommutative : Std.Commutative (fun a b : UInt8 => a ^^^ b) := ⟨u8_xor_comm⟩

theorem foldl_xor_replace (f g : Nat → UInt8) {b : Nat} :
    ∀ {n}, b < n → (∀ i < n, i ≠ b → g i = f i) → (List.range n).foldl (fun x i => x ^^^ g i) 0 =
      (List.range n).foldl (fun x i => x ^^^ f i) 0 ^^^ f b ^^^ g b
  | 0, h, _ => absurd h (Nat.not_lt_zero _)
  | n + 1, h, hfg => by
    have hfg' : ∀ i < n, i ≠ b → g i = f i := fun i hi => hfg i (Nat.lt_succ_of_lt hi)
    simp only [List.range_succ, List.foldl_append, List.foldl_cons, List.foldl_nil]
    by_cases hn : n = b
    · subst hn
      have hpre : (List.range n).foldl (fun x i => x ^^^ g i) 0 =
          (List.range n).foldl (fun x i => x ^^^ f i) 0 :=
        List.foldl_ext _ _ _ fun x i hi => by
          have := List.mem_range.mp hi; rw [hfg' i this (Nat.ne_of_lt this)]
      rw [hpre, u8_xor_assoc _ (f n) (f n), u8_xor_self, u8_xor_zero]
    · rw [foldl_xor_replace f g (by omega) hfg', hfg n (Nat.lt_succ_self n) hn]
      ac_rfl

section Rebuild
variable {cfg : ParityCfg} {m : Pmem} {blocknr b : Nat} {B : Nat → UInt8}

theorem stripe_byte_lt {i j : Nat} (hi : i < cfg.numStrps) (hj : j < cfg.strpSize) :
    i * cfg.strpSize + j < 4096 :=
  calc i * cfg.strpSize + j < (i + 1) * cfg.strpSize := by rw [Nat.succ_mul]; omega
    _ ≤ cfg.numStrps * cfg.strpSize := Nat.mul_le_mul_right _ hi
    _ ≤ 4096 := Nat.div_mul_le_self 4096 _

/-- The stripe nova_restore_data rebuilds from the block with the parity stripe in place of
stripe `b`: when the other stripes hold `B`'s and the parity stripe holds their XOR, it is `B`'s
stripe `b`, whatever stripe `b` holds. -/
theorem restore_stripe_eq (hb : b < cfg.numStrps)
    (hother : ∀ x < 4096, x / cfg.strpSize ≠ b → m.bytes (blocknr * 4096 + x) = B x)
    (hparity : ∀ j < cfg.strpSize,
      m.bytes (cfg.parityAddr blocknr + j) = novaCalculateBlockParity cfg B (fun _ => 0) 0 j)
    {j : Nat} (hj : j < cfg.strpSize) :
    novaCalculateBlockParity cfg (fun x => if x / cfg.strpSize = b then
        m.bytes (cfg.parityAddr blocknr + x % cfg.strpSize) else m.bytes (blocknr * 4096 + x))
      (fun _ => 0) 0 j = B (b * cfg.strpSize + j) := by
  have hn : 0 < cfg.numStrps := Nat.zero_lt_of_lt hb
  have hS : 0 < cfg.strpSize := Nat.two_pow_pos _
  have hdiv : ∀ i, (i * cfg.strpSize + j) / cfg.strpSize = i := fun i => by
    rw [Nat.add_comm, Nat.add_mul_div_right _ _ hS, Nat.div_eq_of_lt hj, Nat.zero_add]
  have hmod : (b * cfg.strpSize + j) % cfg.strpSize = j := by
    rw [Nat.add_comm, Nat.add_mul_mod_self_right, Nat.mod_eq_of_lt hj]
  rw [novaCalculateBlockParity_eq _ _ _ _ hj, stripeXor_eq_foldl _ _ _ _ hn,
    foldl_xor_replace (fun i => B (0 + i * cfg.strpSize + j)) _ hb fun i hi hib => ?rest]
  case rest =>
    simp only [Nat.zero_add, hdiv, hib, if_false]
    exact hother _ (stripe_byte_lt hi hj) (by rw [hdiv]; exact hib)
  simp only [Nat.zero_add, hdiv, hmod, if_true]
  rw [hparity j hj, novaCalculateBlockParity_eq _ _ _ _ hj, stripeXor_eq_foldl _ _ _ _ hn]
  simp only [Nat.zero_add, u8_xor_xor_cancel]

/-- nova_restore_data with the other stripes holding `B`'s and the parity their XOR: stripe `b`
is written back as `B`'s with 0 returned when a stored checksum matches it, and otherwise
-EIO is returned and the block left as it was. -/
theorem restore_data_rebuilds_stripe {fromPmem : Nat → Int}
    (hread : ∀ i < cfg.numStrps, fromPmem i = 0) (hb : b < cfg.numStrps)
    (hpar : cfg.parityAddr blocknr ≠ 0)
    (hother : ∀ x < 4096, x / cfg.strpSize ≠ b → m.bytes (blocknr * 4096 + x) = B x)
    (hparity : ∀ j < cfg.strpSize,
      m.bytes (cfg.parityAddr blocknr + j) = novaCalculateBlockParity cfg B (fun _ => 0) 0 j) :
    (novaRestoreData cfg true fromPmem m blocknr b).1 =
      (if (crc32c cfg.initCsum (bytesOf B (b * cfg.strpSize) cfg.strpSize)).toNat =
            readLe m.bytes (cfg.dataCsumAddr ((blocknr * 4096 + b * cfg.strpSize) / cfg.strpSize) 0) 4 ∨
          (crc32c cfg.initCsum (bytesOf B (b * cfg.strpSize) cfg.strpSize)).toNat =
            readLe m.bytes (cfg.dataCsumAddr ((blocknr * 4096 + b * cfg.strpSize) / cfg.strpSize) 1) 4
        then 0 else -Errno.io) ∧
    ∀ x < 4096, (m.run (novaRestoreData cfg true fromPmem m blocknr b).2).bytes (blocknr * 4096 + x) =
      if (crc32c cfg.initCsum (bytesOf B (b * cfg.strpSize) cfg.strpSize)).toNat =
            readLe m.bytes (cfg.dataCsumAddr ((blocknr * 4096 + b * cfg.strpSize) / cfg.strpSize) 0) 4 ∨
          (crc32c cfg.initCsum (bytesOf B (b * cfg.strpSize) cfg.strpSize)).toNat =
            readLe m.bytes (cfg.dataCsumAddr ((blocknr * 4096 + b * cfg.strpSize) / cfg.strpSize) 1) 4
        then B x else m.bytes (blocknr * 4096 + x) := by
  have hfind : (List.range cfg.numStrps).find? (fromPmem · < 0) = none :=
    List.find?_eq_none.mpr fun i hi => by simp [hread i (List.mem_range.mp hi)]
  have hlast : ((List.range cfg.numStrps).map fromPmem).getLastD 0 = 0 :=
    getLastD_of_forall fun r hr => by
      obtain ⟨i, hi, rfl⟩ := List.mem_map.mp hr; exact hread i (List.mem_range.mp hi)
  have hstripe : bytesOf (novaCalculateBlockParity cfg (fun x => if x / cfg.strpSize = b then
        m.bytes (cfg.parityAddr blocknr + x % cfg.strpSize) else m.bytes (blocknr * 4096 + x))
      (fun _ => 0) 0) 0 cfg.strpSize = bytesOf B (b * cfg.strpSize) cfg.strpSize :=
    bytesOf_congr fun i hi => by rw [Nat.zero_add]; exact restore_stripe_eq hb hother hparity hi
  simp only [novaRestoreData, hpar, hfind, hlast, hstripe, not_true, if_false]
  split_ifs with hmatch
  · refine ⟨rfl, fun x hx => ?_⟩
    simp only [Pmem.run_append, run_memunlockRange, run_memlockRange, Pmem.run_cons, Pmem.run_nil]
    have hS : 0 < cfg.strpSize := Nat.two_pow_pos _
    simp only [Pmem.step, Pmem.write_bytes]
    split_ifs with hin
    · rw [restore_stripe_eq hb hother hparity (by omega)]
      congr 1; omega
    · refine hother x hx fun hxb => hin ?_
      have h1 := Nat.div_mul_le_self x cfg.strpSize
      have h2 := Nat.lt_div_mul_add (a := x) hS
      rw [hxb] at h1 h2; omega
  · exact ⟨rfl, fun x _ => rfl⟩

end Rebuild

/-- The protected mount with 2 KiB stripes: two stripes a block. -/
def twoStripeCfg : ParityCfg := { protectedCfg with strpShift := 11 }

/-- A block of ones in stripe 0 and twos in stripe 1. -/
def onesTwos (x : Nat) : UInt8 := if x < 2048 then 1 else 2

/-- Block 1 holding stripe 0 of `onesTwos` and a damaged stripe 1, replica 0 of stripe 1's
checksum slot (at 8204) holding crc32c(1) of `onesTwos`' stripe 1, and the parity stripe (at
131584) holding 1 ^^^ 2. -/
def damagedSecondStripe : Pmem :=
  ⟨fun a => if 4096 ≤ a ∧ a < 6144 then 1 else if 6144 ≤ a ∧ a < 8192 then 0xff
    else if 8204 ≤ a ∧ a < 8208 then le (crc32c 1 (bytesOf onesTwos 2048 2048)).toNat (a - 8204)
    else if 131584 ≤ a ∧ a < 133632 then 3 else 0, fun _ => default, fun _ => 0⟩

theorem restore_damaged_second_stripe :
    (∀ i < twoStripeCfg.numStrps, (fun _ => (0 : Int)) i = 0) ∧ 1 < twoStripeCfg.numStrps ∧
    twoStripeCfg.parityAddr 1 ≠ 0 ∧
    (∀ x < 4096, x / twoStripeCfg.strpSize ≠ 1 → damagedSecondStripe.bytes (1 * 4096 + x) = onesTwos x) ∧
    (∀ j < twoStripeCfg.strpSize, damagedSecondStripe.bytes (twoStripeCfg.parityAddr 1 + j) =
      novaCalculateBlockParity twoStripeCfg onesTwos (fun _ => 0) 0 j) ∧
    (novaRestoreData twoStripeCfg true (fun _ => 0) damagedSecondStripe 1 1).1 = 0 ∧
    ∀ x < 4096, (damagedSecondStripe.run
        (novaRestoreData twoStripeCfg true (fun _ => 0) damagedSecondStripe 1 1).2).bytes (1 * 4096 + x) =
      onesTwos x := by
  have hS : twoStripeCfg.strpSize = 2048 := rfl
  have hread : ∀ i < twoStripeCfg.numStrps, (fun _ => (0 : Int)) i = 0 := fun _ _ => rfl
  have hb : 1 < twoStripeCfg.numStrps := by decide
  have hpar : twoStripeCfg.parityAddr 1 ≠ 0 := by decide
  have hother : ∀ x < 4096, x / twoStripeCfg.strpSize ≠ 1 →
      damagedSecondStripe.bytes (1 * 4096 + x) = onesTwos x := fun x hx h1 => by
    rw [hS] at h1
    simp only [damagedSecondStripe, onesTwos]
    rw [if_pos (by omega), if_pos (by omega)]
  have hparity : ∀ j < twoStripeCfg.strpSize, damagedSecondStripe.bytes (twoStripeCfg.parityAddr 1 + j) =
      novaCalculateBlockParity twoStripeCfg onesTwos (fun _ => 0) 0 j := fun j hj => by
    rw [novaCalculateBlockParity_eq _ _ _ _ hj]
    rw [hS] at hj ⊢
    simp only [stripeXor, show twoStripeCfg.numStrps = 2 from rfl, damagedSecondStripe, onesTwos,
      show twoStripeCfg.parityAddr 1 = 131584 from rfl]
    rw [if_neg (by omega), if_neg (by omega), if_neg (by omega), if_pos (by omega)]
    show 3 = (if 0 + j < 2048 then (1 : UInt8) else 2) ^^^ if 0 + 1 * 2048 + j < 2048 then 1 else 2
    rw [if_pos (by omega), if_neg (by omega)]
    rfl
  -- replica 0 of stripe 1's slot holds the checksum the rebuilt stripe has
  have hmatch : readLe damagedSecondStripe.bytes (twoStripeCfg.dataCsumAddr
      ((1 * 4096 + 1 * twoStripeCfg.strpSize) / twoStripeCfg.strpSize) 0) 4 =
        (crc32c twoStripeCfg.initCsum (bytesOf onesTwos (1 * twoStripeCfg.strpSize)
          twoStripeCfg.strpSize)).toNat := by
    refine (readLe_congr 4 (g := le _) (b := 0) fun i hi => ?_).trans
      ((readLe_le _ 4).trans (Nat.mod_eq_of_lt (UInt32.toNat_lt_size _)))
    show damagedSecondStripe.bytes (8204 + i) = _
    simp only [damagedSecondStripe]
    rw [if_neg (by omega), if_neg (by omega), if_pos (by omega), Nat.add_sub_cancel_left,
      Nat.zero_add]
    rfl
  obtain ⟨hret, hblock⟩ := restore_data_rebuilds_stripe hread hb hpar hother hparity
  rw [if_pos (.inl hmatch.symm)] at hret
  exact ⟨hread, hb, hpar, hother, hparity, hret,
    fun x hx => (hblock x hx).trans (if_pos (.inl hmatch.symm))⟩

end Restore

/-- The fields of struct free_list that nova_data_parity_init_free_list sets. -/
structure FreeList where
  blockStart : Nat
  parityStart : Nat
  numParityBlocks : Nat
  deriving DecidableEq, Repr

/-- parity_blocks of nova_data_parity_init_free_list: one parity block for every
`blocksize / strp_size + 1` blocks of the device, rounded up. -/
def parityBlocks (cfg : ParityCfg) (initsize : Nat) : Nat :=
  let totalBlocks := initsize / 4096
  totalBlocks / (cfg.numStrps + 1) + if totalBlocks % (cfg.numStrps + 1) ≠ 0 then 1 else 0

/-- nova_data_parity_init_free_list: a CPU's free list reserves its share of the parity blocks,
rounded up, at the start of its range. -/
def novaDataParityInitFreeList (cfg : ParityCfg) (initsize cpus : Nat) (fl : FreeList) : FreeList :=
  let parityBlocks := parityBlocks cfg initsize
  let blockStart := fl.blockStart + parityBlocks / cpus + if parityBlocks % cpus ≠ 0 then 1 else 0
  ⟨blockStart, fl.blockStart, blockStart - fl.blockStart⟩

theorem le_mul_div_round_up {a d : Nat} (hd : 0 < d) :
    a ≤ d * (a / d + if a % d ≠ 0 then 1 else 0) ∧ d * (a / d + if a % d ≠ 0 then 1 else 0) < a + d := by
  have h := Nat.div_add_mod a d
  have hr := Nat.mod_lt a hd
  split_ifs <;> rw [Nat.mul_add] <;> omega

/-- The parity blocks nova_data_parity_init_free_list reserves cover the device. parity_blocks is
the least count of blocks that, with the `blocksize / strp_size` parity stripes each holds, cover
every block of the device; and the free lists of the `cpus` CPUs together reserve at least
parity_blocks blocks, fewer than one more per CPU. -/
theorem parity_reservation_covers_device {cfg : ParityCfg} {initsize cpus : Nat} (fl : FreeList)
    (hc : 0 < cpus) :
    initsize / 4096 ≤ (cfg.numStrps + 1) * parityBlocks cfg initsize ∧
      (cfg.numStrps + 1) * parityBlocks cfg initsize < initsize / 4096 + (cfg.numStrps + 1) ∧
      parityBlocks cfg initsize ≤ cpus * (novaDataParityInitFreeList cfg initsize cpus fl).numParityBlocks ∧
      cpus * (novaDataParityInitFreeList cfg initsize cpus fl).numParityBlocks < parityBlocks cfg initsize + cpus := by
  have hn := le_mul_div_round_up (a := initsize / 4096) (Nat.succ_pos cfg.numStrps)
  have hp := le_mul_div_round_up (a := parityBlocks cfg initsize) hc
  simp only [novaDataParityInitFreeList, Nat.add_assoc, Nat.add_sub_cancel_left]
  exact ⟨hn.1, hn.2, hp.1, hp.2⟩

theorem parity_reservation_four_cpus :
    0 < 4 ∧ 1048576 / 4096 ≤ (csumOnlyCfg.numStrps + 1) * parityBlocks csumOnlyCfg 1048576 ∧
      (csumOnlyCfg.numStrps + 1) * parityBlocks csumOnlyCfg 1048576 <
        1048576 / 4096 + (csumOnlyCfg.numStrps + 1) ∧
      parityBlocks csumOnlyCfg 1048576 ≤
        4 * (novaDataParityInitFreeList csumOnlyCfg 1048576 4 ⟨100, 0, 0⟩).numParityBlocks ∧
      4 * (novaDataParityInitFreeList csumOnlyCfg 1048576 4 ⟨100, 0, 0⟩).numParityBlocks <
        parityBlocks csumOnlyCfg 1048576 + 4 :=
  ⟨by decide, parity_reservation_covers_device ⟨100, 0, 0⟩ (by decide)⟩

end Nova
