import Mathlib

/-!
# Little-endian words in byte-addressed storage

Storage is a function from addresses to bytes. `readLE m a n` is the number
held in the `n` bytes from `a`, lowest byte first, and `writeLE m a n v`
stores the low `n` bytes of `v` there. A read of what was written gives it
back (`readLE_writeLE_self`), and a read elsewhere is not affected
(`readLE_writeLE_disjoint`). `read16`/`write16`, `read32`/`write32` and
`read64`/`write64` are the word sizes as bit vectors, and `writeWords` stores
an array of words.
-/

namespace Xv6.Framework

abbrev Byte := BitVec 8

instance : LawfulBEq Byte := inferInstance

/-- Byte-addressed storage. -/
abbrev Bytes := Nat → Byte

/-- The `n`-byte little-endian number at `a`. -/
def readLE (m : Bytes) (a : Nat) : Nat → Nat
  | 0 => 0
  | n + 1 => (m a).toNat + 256 * readLE m (a + 1) n

/-- `m` with the low `n` bytes of `v` at `a`. -/
def writeLE (m : Bytes) (a n v : Nat) : Bytes := fun x =>
  if a ≤ x ∧ x < a + n then BitVec.ofNat 8 (v / 256 ^ (x - a)) else m x

variable {m m' : Bytes} {a n v x b : Nat} {f : Nat → BitVec 32}

theorem readLE_congr (h : ∀ x, a ≤ x → x < a + n → m x = m' x) :
    readLE m a n = readLE m' a n := by
  induction n generalizing a with
  | zero => rfl
  | succ n ih =>
    simp only [readLE]
    rw [h a (Nat.le_refl a) (by omega), ih fun x h1 h2 => h x (by omega) (by omega)]

theorem readLE_lt (m : Bytes) (a n : Nat) : readLE m a n < 256 ^ n := by
  induction n generalizing a with
  | zero => simp [readLE]
  | succ n ih =>
    have hb := (m a).isLt
    have := ih (a + 1)
    simp only [readLE, Nat.pow_succ]
    omega

/-- A read whose bytes are those of `v`. -/
theorem readLE_eq_of_bytes (h : ∀ i < n, m (a + i) = BitVec.ofNat 8 (v / 256 ^ i)) : readLE m a n = v % 256 ^ n := by
  induction n generalizing a v with
  | zero => simp [readLE, Nat.mod_one]
  | succ n ih =>
    have h0 : (m a).toNat = v % 256 := by
      have := h 0 (by omega)
      simp only [Nat.add_zero, Nat.pow_zero, Nat.div_one] at this
      rw [this, BitVec.toNat_ofNat]
    have hr : readLE m (a + 1) n = v / 256 % 256 ^ n := ih fun i hi => by
      rw [show a + 1 + i = a + (i + 1) by omega, h (i + 1) (by omega), Nat.div_div_eq_div_mul,
        Nat.pow_succ, Nat.mul_comm]
    simp only [readLE, h0, hr]
    rw [Nat.pow_succ, Nat.mul_comm (256 ^ n), Nat.mod_mul]

theorem readLE_writeLE_self (m : Bytes) (a n v : Nat) :
    readLE (writeLE m a n v) a n = v % 256 ^ n := by
  refine readLE_eq_of_bytes fun i hi => ?_
  simp only [writeLE]
  rw [if_pos ⟨by omega, by omega⟩, Nat.add_sub_cancel_left]

theorem writeLE_apply (h : x < a ∨ a + n ≤ x) :
    writeLE m a n v x = m x := by
  simp only [writeLE]
  rw [if_neg (by omega)]

theorem readLE_writeLE_disjoint {k : Nat} (h : a + n ≤ b ∨ b + k ≤ a) :
    readLE (writeLE m b k v) a n = readLE m a n :=
  readLE_congr fun x h1 h2 => writeLE_apply (by omega)

/-! ## Words -/

/-- The 16-bit word at `a`. -/
def read16 (m : Bytes) (a : Nat) : BitVec 16 := BitVec.ofNat 16 (readLE m a 2)

/-- `m` with the 16-bit word `v` at `a`. -/
def write16 (m : Bytes) (a : Nat) (v : BitVec 16) : Bytes := writeLE m a 2 v.toNat

/-- The 32-bit word at `a`. -/
def read32 (m : Bytes) (a : Nat) : BitVec 32 := BitVec.ofNat 32 (readLE m a 4)

/-- `m` with the 32-bit word `v` at `a`. -/
def write32 (m : Bytes) (a : Nat) (v : BitVec 32) : Bytes := writeLE m a 4 v.toNat

/-- The 64-bit word at `a`. -/
def read64 (m : Bytes) (a : Nat) : BitVec 64 := BitVec.ofNat 64 (readLE m a 8)

/-- `m` with the 64-bit word `v` at `a`. -/
def write64 (m : Bytes) (a : Nat) (v : BitVec 64) : Bytes := writeLE m a 8 v.toNat

@[simp] theorem read16_write16_self (m : Bytes) (a : Nat) (v : BitVec 16) :
    read16 (write16 m a v) a = v := by
  simp only [read16, write16, readLE_writeLE_self]
  apply BitVec.eq_of_toNat_eq
  have := v.isLt
  rw [BitVec.toNat_ofNat]
  omega

theorem read16_write16_disjoint {v : BitVec 16} (h : a + 2 ≤ b ∨ b + 2 ≤ a) :
    read16 (write16 m b v) a = read16 m a := by
  simp only [read16, write16, readLE_writeLE_disjoint h]

theorem read16_write32_disjoint {v : BitVec 32} (h : a + 2 ≤ b ∨ b + 4 ≤ a) :
    read16 (write32 m b v) a = read16 m a := by
  simp only [read16, write32, readLE_writeLE_disjoint h]

theorem read16_congr (h : ∀ x, a ≤ x → x < a + 2 → m x = m' x) :
    read16 m a = read16 m' a := by
  simp only [read16, readLE_congr h]

@[simp] theorem read32_write32_self (m : Bytes) (a : Nat) (v : BitVec 32) :
    read32 (write32 m a v) a = v := by
  simp only [read32, write32, readLE_writeLE_self]
  apply BitVec.eq_of_toNat_eq
  have := v.isLt
  rw [BitVec.toNat_ofNat]
  omega

theorem read32_write32_disjoint {v : BitVec 32} (h : a + 4 ≤ b ∨ b + 4 ≤ a) :
    read32 (write32 m b v) a = read32 m a := by
  simp only [read32, write32, readLE_writeLE_disjoint h]

theorem read32_congr (h : ∀ x, a ≤ x → x < a + 4 → m x = m' x) :
    read32 m a = read32 m' a := by
  simp only [read32, readLE_congr h]

@[simp] theorem read64_write64_self (m : Bytes) (a : Nat) (v : BitVec 64) :
    read64 (write64 m a v) a = v := by
  simp only [read64, write64, readLE_writeLE_self]
  apply BitVec.eq_of_toNat_eq
  have := v.isLt
  rw [BitVec.toNat_ofNat]
  omega

theorem read64_write64_disjoint {v : BitVec 64} (h : a + 8 ≤ b ∨ b + 8 ≤ a) :
    read64 (write64 m b v) a = read64 m a := by
  simp only [read64, write64, readLE_writeLE_disjoint h]

theorem read64_congr (h : ∀ x, a ≤ x → x < a + 8 → m x = m' x) :
    read64 m a = read64 m' a := by
  simp only [read64, readLE_congr h]

/-! ## Arrays of words -/

/-- `m` with the 32-bit words `f 0, …, f (n - 1)` from `a` on. -/
def writeWords (m : Bytes) (a n : Nat) (f : Nat → BitVec 32) : Bytes := fun x =>
  if a ≤ x ∧ x < a + 4 * n then BitVec.ofNat 8 ((f ((x - a) / 4)).toNat / 256 ^ ((x - a) % 4)) else m x

theorem writeWords_apply (h : x < a ∨ a + 4 * n ≤ x) :
    writeWords m a n f x = m x := by
  simp only [writeWords]
  rw [if_neg (by omega)]

theorem read32_writeWords (m : Bytes) (a : Nat) {i : Nat} (f : Nat → BitVec 32) (hi : i < n) :
    read32 (writeWords m a n f) (a + 4 * i) = f i := by
  have hb : readLE (writeWords m a n f) (a + 4 * i) 4 = (f i).toNat % 256 ^ 4 :=
    readLE_eq_of_bytes fun k hk => by
      simp only [writeWords]
      rw [if_pos ⟨by omega, by omega⟩, show (a + 4 * i + k - a) / 4 = i by omega,
        show (a + 4 * i + k - a) % 4 = k by omega]
  apply BitVec.eq_of_toNat_eq
  rw [read32, hb, BitVec.toNat_ofNat]
  omega

theorem read16_writeWords_disjoint (h : a + 2 ≤ b ∨ b + 4 * n ≤ a) : read16 (writeWords m b n f) a = read16 m a :=
  read16_congr fun x h1 h2 => writeWords_apply (by omega)

theorem read32_writeWords_disjoint (h : a + 4 ≤ b ∨ b + 4 * n ≤ a) : read32 (writeWords m b n f) a = read32 m a :=
  read32_congr fun x h1 h2 => writeWords_apply (by omega)

end Xv6.Framework
