import Nova.Dax.CowTile

/-! nova_update_cow_csum reads the user buffer a second time: a block's checksum is of what the
buffer holds then. -/
namespace Nova

section Step
variable {sb : Sb} {env : WriteEnv} {buf : Nat → UInt8} {isize : Nat} {s s' : CowLoop}

/-- With checksums on, a step that advances stores, after its data and its entry, the whole-block
checksum of each block it touches, with the buffer as nova_update_cow_csum reads it (`csumSrc`)
in the written range. -/
theorem CowLoop.Advances.world_csums (A : s.Advances sb env buf isize s') (hon : sb.blockCsumBase ≠ 0)
    (hb : 0 < s.bytes env)
    (hapart : ∀ k < (s.pos % 4096 + s.bytes env - 1) / 4096 + 1,
      s.block env * 4096 + ((s.pos % 4096 + s.bytes env - 1) / 4096 + 1) * 4096 ≤
          sb.blockCsumAddr (s.block env + k) ∨
        sb.blockCsumAddr (s.block env + k) + 4 ≤ s.block env * 4096) :
    s'.w = ((s.fill env buf).emit [.putEntry (s.slot env)
      (cowEntry env isize s.pos (s.bytes env) (s.alloc env).toNat (s.block env))]).emit
      (wholeBlockCsums sb 4096 (s.fill env buf).mem.bytes (s.block env)
        (fun i => env.csumSrc (s.written + i)) (s.pos % 4096) (s.bytes env)) := by
  rw [A.world, cowCsum, if_pos ⟨hb, hon⟩, novaUpdateCowCsum_eq _ (Nat.mod_lt _ (by decide)) hb hapart]
  rfl

end Step

/-- The allocator and copies of blockPerStep, the user buffer holding `src` when
nova_update_cow_csum reads it. -/
def csumReads (src : Nat → UInt8) : WriteEnv := { blockPerStep with csumSrc := src }

/-- One page of 7s written at 0 into an empty file with checksums on, the buffer holding `src`
at the second read. -/
def csumRun (src : Nat → UInt8) : WriteOutcome :=
  novaCowFileWrite csumOn (csumReads src) freshFile (fun _ => 7) 4096 0 false

theorem csumRun_bytes (src : Nat → UInt8) (x : Nat) :
    (csumRun src).w.mem.bytes x =
      if 69536 ≤ x ∧ x < 69540 then le (crc32c 1 (bytesOf src 0 4096)).toNat (x - 69536)
      else if 4096000 ≤ x ∧ x < 4100096 then 7 else 0 := by
  obtain ⟨s, hs⟩ := @cowStep_inr_of_ok csumOn (csumReads src) (fun _ => 7) freshFile.inode.iSize
    (cowStart freshFile 0 4096)
    (show (0 : Int) < (cowStart freshFile 0 4096).alloc blockPerStep by decide) rfl rfl
    (show (cowStart freshFile 0 4096).slot blockPerStep ≠ 0 by decide) (by decide)
  have A := cowStep_inr hs (by decide)
  have hrun : csumRun src = cowPublish s 1 0 := by
    rw [csumRun, novaCowFileWrite_eq_loop (by decide) rfl rfl rfl,
      show (4096 + 0 % 4096 - 1) / 4096 + 1 = 0 + 1 from rfl, cowLoop,
      if_pos (show 0 < (cowStart freshFile 0 4096).numBlocks by decide), hs]
    rfl
  have hblock : (cowStart freshFile 0 4096).block (csumReads src) = 1000 := rfl
  have hbytes : (cowStart freshFile 0 4096).bytes (csumReads src) = 4096 := rfl
  rw [hrun, cowPublish_bytes, A.world_csums (by decide) (by rw [hbytes]; decide)
    (by rw [hblock, hbytes]; decide)]
  have hsrc : bytesOf (fun i => (csumReads src).csumSrc ((cowStart freshFile 0 4096).written + i)) 0 4096 =
      bytesOf src 0 4096 := bytesOf_congr fun _ _ => congrArg src (Nat.zero_add _)
  rw [hblock, hbytes, show (cowStart freshFile 0 4096).pos % 4096 = 0 from rfl, wholeBlockCsums,
    show (0 + 4096 - 1) / 4096 + 1 = 1 from rfl, show List.range 1 = [0] from rfl, List.map_singleton, blockCsumOp,
    bytesOf_cowImage_in (Nat.le_refl _) (Nat.le_refl _)]
  rw [Nat.sub_self, hsrc, csumStore, World.emit_storeNt_bytes]
  have hhole : ∀ p q, (cowStart freshFile 0 4096).w.inode.index p = some q →
      getNvmm ((cowStart freshFile 0 4096).w.mem.slots q) p ≠ 0 ∧
        (getNvmm ((cowStart freshFile 0 4096).w.mem.slots q) p < (cowStart freshFile 0 4096).block (csumReads src) ∨
          (cowStart freshFile 0 4096).block (csumReads src) + ((cowStart freshFile 0 4096).alloc (csumReads src)).toNat ≤
            getNvmm ((cowStart freshFile 0 4096).w.mem.slots q) p) := fun _ _ h => nomatch h
  have halloc : ((cowStart freshFile 0 4096).alloc (csumReads src)).toNat = 1 := rfl
  show (if 69536 ≤ x ∧ x < 69536 + 4 then le (crc32c 1 (bytesOf src 0 4096)).toNat (x - 69536)
    else ((cowStart freshFile 0 4096).fill (csumReads src) fun _ => 7).mem.bytes x) = _
  split_ifs with h1 h2
  · rfl
  · obtain ⟨j, rfl, hj⟩ : ∃ j, x = (cowStart freshFile 0 4096).block (csumReads src) * 4096 + j ∧ j < 4096 :=
      ⟨x - 4096000, by rw [hblock]; omega, by omega⟩
    rw [fill_bytes_block _ hhole (by rw [hbytes]; decide) rfl (by rw [halloc, hbytes]; rfl) (by rw [halloc]; omega),
      if_pos (by rw [hbytes]; exact ⟨Nat.zero_le _, hj⟩)]
  · rw [fill_bytes_outside _ hhole (show (0 : Int) < (cowStart freshFile 0 4096).alloc blockPerStep by decide)
      (by rw [hblock, halloc]; omega)]
    rfl

theorem csumRun_csumOk (src : Nat → UInt8) :
    CsumOk csumOn (csumRun src).w.mem 1000 ↔
      crc32c 1 (bytesOf (fun _ => 7) 0 4096) = crc32c 1 (bytesOf src 0 4096) := by
  have hblock : bytesOf (csumRun src).w.mem.bytes (1000 * 4096) 4096 = bytesOf (fun _ => 7) 0 4096 :=
    bytesOf_congr fun i hi => by rw [csumRun_bytes, if_neg (by omega), if_pos (by omega)]
  have hslot : readLe (csumRun src).w.mem.bytes (csumOn.blockCsumAddr 1000) 4 =
      (crc32c 1 (bytesOf src 0 4096)).toNat := by
    rw [readLe_congr 4 (g := le (crc32c 1 (bytesOf src 0 4096)).toNat) (b := 0) fun i hi => by
        have hx : csumOn.blockCsumAddr 1000 + i - 69536 = 0 + i := by simp only [csumOn]; omega
        rw [csumRun_bytes, if_pos (by simp only [csumOn]; omega), hx],
      readLe_le]
    exact Nat.mod_eq_of_lt (UInt32.toNat_lt_size _)
  rw [CsumOk, hblock, hslot, novaCalcDataCsum]
  exact ⟨fun h => UInt32.toNat.inj h, congrArg UInt32.toNat⟩

/-- The buffer with its last byte changed from 7 to 8 between the copy and the checksum. -/
def lastByteChanged (i : Nat) : UInt8 := if i = 4095 then 8 else 7

theorem cow_write_csum_rereads_buffer :
    (∀ x, ¬ (csumOn.blockCsumAddr 1000 ≤ x ∧ x < csumOn.blockCsumAddr 1000 + 4) →
      (csumRun lastByteChanged).w.mem.bytes x = (csumRun fun _ => 7).w.mem.bytes x) ∧
    (∀ j < 4096, (csumRun lastByteChanged).w.mem.bytes (1000 * 4096 + j) = 7) ∧
    CsumOk csumOn (csumRun fun _ => 7).w.mem 1000 ∧ ¬ CsumOk csumOn (csumRun lastByteChanged).w.mem 1000 := by
  have hsplit : ∀ f : Nat → UInt8, bytesOf f 0 4096 = bytesOf f 0 4095 ++ [f 4095] :=
    fun f => bytesOf_add f 0 4095 1
  have hprefix : bytesOf lastByteChanged 0 4095 = bytesOf (fun _ => 7) 0 4095 :=
    bytesOf_congr fun i hi => if_neg (by omega)
  refine ⟨fun x hx => ?_, fun j hj => ?_, (csumRun_csumOk _).mpr rfl, fun h => ?_⟩
  · have hx' : ¬ (69536 ≤ x ∧ x < 69540) := by simp only [csumOn] at hx; omega
    simp only [csumRun_bytes, if_neg hx']
  · rw [csumRun_bytes, if_neg (by omega), if_pos (by omega)]
  · rw [csumRun_csumOk, hsplit, hsplit, hprefix] at h
    exact crc32c_ne_of_byte_ne 1 _ [] (by decide : (7 : UInt8) ≠ 8) h

end Nova
