import Mathlib.Data.List.Range
import Mathlib.Algebra.Order.Group.Nat
import Mathlib.Data.Nat.Bitwise

/-! CRC32C as the kernel's crc32c() computes it (no pre- or post-inversion, so a seed chains
calls), and the little-endian fields the code stores. -/
namespace Nova

/-- One bit of the reflected CRC32C register update (polynomial 0x82F63B78). -/
def crcBit (c : UInt32) : UInt32 :=
  if c &&& 1 = 1 then (c >>> 1) ^^^ 0x82F63B78 else c >>> 1

def crcByte (c : UInt32) (b : UInt8) : UInt32 := crcBit^[8] (c ^^^ b.toUInt32)

def crc32c (seed : UInt32) (buf : List UInt8) : UInt32 := buf.foldl crcByte seed

theorem crc32c_append (seed : UInt32) (a b : List UInt8) :
    crc32c seed (a ++ b) = crc32c (crc32c seed a) b := List.foldl_append _ _ _ _

@[simp] theorem crc32c_nil (seed : UInt32) : crc32c seed [] = seed := rfl

theorem crcBit_eq_zero {c : UInt32} (h : crcBit c = 0) : c = 0 := by
  obtain ⟨x⟩ := c
  have hx := x.isLt
  have h2 := congrArg (fun c : UInt32 => c.toBitVec.toNat) h
  unfold crcBit at h2
  split at h2
  · change ((x.ushiftRight 1) ^^^ (0x82F63B78 : BitVec 32)).toNat = 0 at h2
    simp only [BitVec.toNat_xor, BitVec.toNat_ushiftRight, Nat.xor_eq_zero] at h2
    simp at h2
    omega
  · rename_i h1
    have h1 : ¬ (x &&& 1).toNat = 1 := fun e => h1 (congrArg UInt32.mk (BitVec.eq_of_toNat_eq e))
    change (x.ushiftRight 1).toNat = 0 at h2
    simp only [BitVec.toNat_and, BitVec.toNat_ushiftRight] at h1 h2
    simp at h1 h2
    exact congrArg UInt32.mk (BitVec.eq_of_toNat_eq (by simp; omega))

theorem crcByte_zero_eq_zero {c : UInt32} (h : crcByte c 0 = 0) : c = 0 := by
  have iter : ∀ n (c : UInt32), crcBit^[n] c = 0 → c = 0 := fun n => by
    induction n with
    | zero => exact fun _ h => h
    | succ n ih => exact fun c h => crcBit_eq_zero (ih _ h)
  have := iter 8 _ h
  obtain ⟨x⟩ := c
  exact (congrArg UInt32.mk (BitVec.xor_zero (x := x)).symm).trans this

theorem crc32c_replicate_zero_ne {seed : UInt32} (h : seed ≠ 0) (n : Nat) :
    crc32c seed (List.replicate n 0) ≠ 0 := by
  induction n generalizing seed with
  | zero => exact h
  | succ n ih => exact ih fun h' => h (crcByte_zero_eq_zero h')

theorem crcBit_toNat (x : BitVec 32) : (crcBit ⟨x⟩).toNat =
    if x.toNat % 2 = 1 then x.toNat / 2 ^^^ 0x82F63B78 else x.toNat / 2 := by
  have hx := x.isLt
  have hodd : ((⟨x⟩ : UInt32) &&& 1 = 1) ↔ x.toNat % 2 = 1 := by
    constructor
    · intro h
      have h' := congrArg (fun c : UInt32 => c.toBitVec.toNat) h
      change (x &&& 1#32).toNat = 1 at h'
      simpa using h'
    · intro h
      exact congrArg UInt32.mk (BitVec.eq_of_toNat_eq (by simp [h]))
  unfold crcBit
  by_cases h : x.toNat % 2 = 1
  · rw [if_pos (hodd.mpr h), if_pos h]
    change ((x >>> 1) ^^^ (0x82F63B78 : BitVec 32)).toNat = _
    simp only [BitVec.toNat_xor, BitVec.toNat_ushiftRight, Nat.shiftRight_eq_div_pow, pow_one]
    rfl
  · rw [if_neg (mt hodd.mp h), if_neg h]
    change (x >>> 1).toNat = _
    simp only [BitVec.toNat_ushiftRight, Nat.shiftRight_eq_div_pow, pow_one]

theorem crcBit_injective : Function.Injective crcBit := by
  rintro ⟨a⟩ ⟨b⟩ h
  have ha := a.isLt
  have hb := b.isLt
  have h' := congrArg UInt32.toNat h
  rw [crcBit_toNat, crcBit_toNat] at h'
  have top : ∀ n : Nat, n < 2 ^ 32 → (n / 2).testBit 31 = false := fun n hn =>
    Nat.testBit_lt_two_pow (by omega)
  have poly : (0x82F63B78 : Nat).testBit 31 = true := by decide
  refine UInt32.toNat.inj ?_
  change a.toNat = b.toNat
  split_ifs at h' with h1 h2 h2
  · have := Nat.xor_left_inj.mp h'; omega
  · have := congrArg (Nat.testBit · 31) h'
    simp only [Nat.testBit_xor, top _ ha, top _ hb, poly] at this
    exact absurd this (by decide)
  · have := congrArg (Nat.testBit · 31) h'
    simp only [Nat.testBit_xor, top _ ha, top _ hb, poly] at this
    exact absurd this (by decide)
  · omega

theorem u32_xor_xor_cancel (c t : UInt32) : c ^^^ t ^^^ t = c := by
  obtain ⟨c⟩ := c; obtain ⟨t⟩ := t
  show UInt32.mk (c ^^^ t ^^^ t) = UInt32.mk c
  rw [BitVec.xor_assoc, BitVec.xor_self, BitVec.xor_zero]

theorem u32_xor_comm (c t : UInt32) : c ^^^ t = t ^^^ c :=
  congrArg UInt32.mk (BitVec.xor_comm _ _)

theorem crcByte_injective (c : UInt32) : Function.Injective (crcByte c) := fun a b h => by
  have h1 := (crcBit_injective.iterate 8) h
  have h2 : a.toUInt32 = b.toUInt32 := by
    rw [← u32_xor_xor_cancel a.toUInt32 c, ← u32_xor_xor_cancel b.toUInt32 c, u32_xor_comm a.toUInt32,
      u32_xor_comm b.toUInt32]
    exact congrArg (· ^^^ c) h1
  exact UInt8.toNat.inj (congrArg UInt32.toNat h2)

theorem crcByte_left_injective (b : UInt8) : Function.Injective (crcByte · b) := fun c c' h => by
  rw [← u32_xor_xor_cancel c b.toUInt32, ← u32_xor_xor_cancel c' b.toUInt32]
  exact congrArg (· ^^^ b.toUInt32) ((crcBit_injective.iterate 8) h)

theorem crc32c_seed_injective (l : List UInt8) : Function.Injective (crc32c · l) := by
  induction l with
  | nil => exact fun _ _ h => h
  | cons x l ih => exact fun s s' h => crcByte_left_injective x (ih h)

/-- CRC32C detects every change of one byte, wherever it lies. -/
theorem crc32c_ne_of_byte_ne (seed : UInt32) (l₁ l₂ : List UInt8) {a b : UInt8} (h : a ≠ b) :
    crc32c seed (l₁ ++ a :: l₂) ≠ crc32c seed (l₁ ++ b :: l₂) := fun he => by
  rw [crc32c_append, crc32c_append] at he
  exact h (crcByte_injective _ (crc32c_seed_injective l₂ he))

/-- `n` bytes of a byte map, from address `a` on. -/
def bytesOf (f : Nat → UInt8) (a n : Nat) : List UInt8 := (List.range n).map fun i => f (a + i)

@[simp] theorem bytesOf_zero (f : Nat → UInt8) (a : Nat) : bytesOf f a 0 = [] := rfl

@[simp] theorem bytesOf_length (f : Nat → UInt8) (a n : Nat) : (bytesOf f a n).length = n := by
  simp [bytesOf]

theorem bytesOf_add (f : Nat → UInt8) (a n k : Nat) :
    bytesOf f a (n + k) = bytesOf f a n ++ bytesOf f (a + n) k := by
  simp [bytesOf, List.range_add, Nat.add_assoc]

theorem bytesOf_congr {f g : Nat → UInt8} {a b n : Nat} (h : ∀ i < n, f (a + i) = g (b + i)) :
    bytesOf f a n = bytesOf g b n := by
  simp only [bytesOf]
  exact List.map_congr_left fun i hi => h i (List.mem_range.mp hi)

/-- Byte `i` of the little-endian encoding of `v`. -/
def le (v : Nat) (i : Nat) : UInt8 := UInt8.ofNat (v / 256 ^ i)

/-- le32_to_cpu / le64_to_cpu of the `n` bytes at `a`. -/
def readLe (f : Nat → UInt8) (a : Nat) : Nat → Nat
  | 0 => 0
  | n + 1 => (f a).toNat + 256 * readLe f (a + 1) n

theorem readLe_congr {f g : Nat → UInt8} (n : Nat) :
    ∀ {a b}, (∀ i < n, f (a + i) = g (b + i)) → readLe f a n = readLe g b n := by
  induction n with
  | zero => intros; rfl
  | succ n ih =>
    intro a b h
    have h0 : f a = g b := h 0 (by omega)
    have hs : ∀ i < n, f (a + 1 + i) = g (b + 1 + i) := fun i hi => by
      rw [Nat.add_assoc, Nat.add_assoc, Nat.add_comm 1 i]; exact h (i + 1) (by omega)
    simp only [readLe, h0, ih hs]

theorem readLe_le (v : Nat) : ∀ n, readLe (fun i => le v i) 0 n = v % 256 ^ n
  | 0 => by simp [readLe, Nat.mod_one]
  | n + 1 => by
    have shift : readLe (fun i => le v i) 1 n = readLe (fun i => le (v / 256) i) 0 n :=
      readLe_congr n fun i _ => by simp [le, Nat.pow_succ', Nat.div_div_eq_div_mul, Nat.add_comm 1]
    rw [readLe, shift, readLe_le (v / 256) n, Nat.pow_succ', Nat.mod_mul]
    simp [le, UInt8.toNat, UInt8.ofNat]

theorem le_readLe (f : Nat → UInt8) : ∀ (a n i : Nat), i < n → le (readLe f a n) i = f (a + i)
  | _, 0, _, h => absurd h (Nat.not_lt_zero _)
  | a, n + 1, 0, _ => UInt8.toNat.inj <| by
    have := (f a).toNat_lt_size
    simp only [le, readLe, Nat.pow_zero, Nat.div_one, Nat.add_zero, UInt8.toNat, UInt8.ofNat,
      BitVec.toNat_ofNat, UInt8.size] at this ⊢
    omega
  | a, n + 1, i + 1, h => by
    have := (f a).toNat_lt_size
    have hdiv : readLe f a (n + 1) / 256 = readLe f (a + 1) n := by
      simp only [readLe, UInt8.size] at this ⊢; omega
    rw [show a + (i + 1) = a + 1 + i by omega, ← le_readLe f (a + 1) n i (by omega), ← hdiv]
    simp only [le, Nat.pow_succ', Nat.div_div_eq_div_mul]

theorem readLe_inj {f g : Nat → UInt8} : ∀ {a : Nat} (n : Nat), readLe f a n = readLe g a n →
    ∀ i < n, f (a + i) = g (a + i)
  | _, 0, _, i, hi => absurd hi (Nat.not_lt_zero _)
  | a, n + 1, h, i, hi => by
    have hf := (f a).toNat_lt_size
    have hg := (g a).toNat_lt_size
    simp only [readLe, UInt8.size] at h hf hg
    cases i with
    | zero => show f a = g a; exact UInt8.toNat.inj (by omega)
    | succ i =>
      rw [show a + (i + 1) = a + 1 + i by omega]
      exact readLe_inj n (by omega) i (by omega)

end Nova
