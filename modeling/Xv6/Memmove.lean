import Xv6.Framework.Circular

/-!
# memmove

`memmove` of `kernel/string.c` and of `user/ulib.c`. Each copies from the lowest
address up or from the highest down, and they choose by different tests. A copy
is right in a direction if no byte is written before it is read
(`copyUp_moved`, `copyDown_moved`), and both tests give such a direction for
ranges that may overlap in any way (`memmove_correct`).
-/

namespace Xv6

open Framework Function

abbrev Memory := BitVec 64 → BitVec 8

/-- `while(n-- > 0) *d++ = *s++;` -/
def copyUp : Nat → BitVec 64 → BitVec 64 → Memory → Memory
  | 0, _, _, m => m
  | n + 1, d, s, m => copyUp n (d + 1) (s + 1) (update m d (m s))

/-- `while(n-- > 0) *--d = *--s;` -/
def copyDown : Nat → BitVec 64 → BitVec 64 → Memory → Memory
  | 0, _, _, m => m
  | n + 1, d, s, m => copyDown n (d - 1) (s - 1) (update m (d - 1) (m (s - 1)))

/-- The kernel's `memmove`; `n` is a `uint`. -/
def Kernel.memmove (dst src : BitVec 64) (n : BitVec 32) (m : Memory) : Memory :=
  if n = 0 then m
  else if src < dst ∧ src + n.setWidth 64 > dst then
    copyDown n.toNat (dst + n.setWidth 64) (src + n.setWidth 64) m
  else copyUp n.toNat dst src m

/-- The `memmove` of the user library; `n` is an `int`. -/
def User.memmove (dst src : BitVec 64) (n : BitVec 32) (m : Memory) : Memory :=
  if src > dst then copyUp n.toInt.toNat dst src m
  else copyDown n.toInt.toNat (dst + n.signExtend 64) (src + n.signExtend 64) m

/-- The `n` bytes at `dst` are those that were at `src`, and the others are as
they were. -/
structure Moved (dst src : BitVec 64) (n : Nat) (m m' : Memory) : Prop where
  copied : ∀ k < n, m' (dst + BitVec.ofNat 64 k) = m (src + BitVec.ofNat 64 k)
  kept : ∀ a, (∀ k < n, a ≠ dst + BitVec.ofNat 64 k) → m' a = m a

variable {dst src : BitVec 64} {n : Nat} {m m1 m2 : Memory}

theorem Moved.unique (h1 : Moved dst src n m m1) (h2 : Moved dst src n m m2) : m1 = m2 := by
  funext a
  by_cases ha : ∀ k < n, a ≠ dst + BitVec.ofNat 64 k
  · rw [h1.kept a ha, h2.kept a ha]
  · simp only [not_forall, not_not] at ha
    obtain ⟨k, hk, rfl⟩ := ha
    rw [h1.copied k hk, h2.copied k hk]

theorem add_one_add (a : BitVec 64) (k : Nat) : a + 1 + BitVec.ofNat 64 k = a + BitVec.ofNat 64 (k + 1) := by
  rw [Nat.add_comm, BitVec.ofNat_add, ← BitVec.add_assoc]
  rfl

theorem add_succ_sub (a : BitVec 64) (k : Nat) : a + BitVec.ofNat 64 (k + 1) - 1 = a + BitVec.ofNat 64 k := by
  rw [BitVec.ofNat_add, ← BitVec.add_assoc]
  exact BitVec.add_sub_cancel ..

/-- A byte that is read late is not written early. -/
theorem copyUp_moved (hn : n ≤ 2 ^ 64) (h : ∀ i j, i < j → j < n → dst + BitVec.ofNat 64 i ≠ src + BitVec.ofNat 64 j) :
    Moved dst src n m (copyUp n dst src m) := by
  induction n generalizing dst src m with
  | zero => exact ⟨nofun, fun _ _ => rfl⟩
  | succ n ih =>
    have hm := @ih (dst + 1) (src + 1) (update m dst (m src)) (Nat.le_of_succ_le hn) fun i j hij hj => by
      rw [add_one_add, add_one_add]
      exact h (i + 1) (j + 1) (by omega) (by omega)
    refine ⟨fun k hk => ?_, fun a ha => ?_⟩
    · cases k with
      | zero =>
        rw [BitVec.add_zero, BitVec.add_zero, copyUp, hm.kept, update_self]
        intro k hk heq
        rw [add_one_add] at heq
        have := (add_length_eq_self dst (k := k + 1) (by omega)).mp heq.symm
        omega
      | succ k =>
        rw [← add_one_add, ← add_one_add, copyUp, hm.copied k (by omega), add_one_add, update_of_ne]
        have := h 0 (k + 1) (by omega) hk
        rw [BitVec.add_zero] at this
        exact this.symm
    · rw [copyUp, hm.kept a fun k hk => add_one_add dst k ▸ ha (k + 1) (by omega), update_of_ne]
      exact BitVec.add_zero dst ▸ ha 0 (by omega)

theorem copyDown_moved (hn : n ≤ 2 ^ 64)
    (h : ∀ i j, i < j → j < n → dst + BitVec.ofNat 64 j ≠ src + BitVec.ofNat 64 i) :
    Moved dst src n m (copyDown n (dst + BitVec.ofNat 64 n) (src + BitVec.ofNat 64 n) m) := by
  induction n generalizing m with
  | zero => exact ⟨nofun, fun _ _ => rfl⟩
  | succ n ih =>
    rw [copyDown, add_succ_sub, add_succ_sub]
    have hm := ih (m := update m (dst + BitVec.ofNat 64 n) (m (src + BitVec.ofNat 64 n))) (Nat.le_of_succ_le hn)
      fun i j hij hj => h i j hij (by omega)
    refine ⟨fun k hk => ?_, fun a ha => ?_⟩
    · rcases Nat.lt_succ_iff_lt_or_eq.mp hk with hk | rfl
      · rw [hm.copied k hk, update_of_ne (h k n hk (by omega)).symm]
      · rw [hm.kept, update_self]
        intro j hj heq
        exact Nat.ne_of_gt hj ((add_length_inj dst (by omega) (by omega)).mp heq)
    · rw [hm.kept a fun k hk => ha k (by omega), update_of_ne (ha n (by omega))]

theorem toNat_offset {a : BitVec 64} {k : Nat} (ha : a.toNat + n ≤ 2 ^ 64) (hk : k < n) :
    (a + BitVec.ofNat 64 k).toNat = a.toNat + k := by
  rw [BitVec.toNat_add, BitVec.toNat_ofNat, Nat.mod_eq_of_lt (show k < 2 ^ 64 by omega), Nat.mod_eq_of_lt (by omega)]

/-- Two places in ranges that do not wrap. -/
theorem offset_ne {i j : Nat} (hd : dst.toNat + n ≤ 2 ^ 64) (hs : src.toNat + n ≤ 2 ^ 64) (hi : i < n) (hj : j < n)
    (h : dst.toNat + i ≠ src.toNat + j) : dst + BitVec.ofNat 64 i ≠ src + BitVec.ofNat 64 j := by
  intro heq
  have := congrArg BitVec.toNat heq
  rw [toNat_offset hd hi, toNat_offset hs hj] at this
  exact h this

/-- The kernel goes down only if the ranges overlap with `src` below `dst`. -/
theorem Kernel.memmove_moved {n : BitVec 32} (hd : dst.toNat + n.toNat ≤ 2 ^ 64) (hs : src.toNat + n.toNat ≤ 2 ^ 64) :
    Moved dst src n.toNat m (Kernel.memmove dst src n m) := by
  rw [Kernel.memmove]
  split
  · rename_i h0
    subst h0
    exact ⟨nofun, fun _ _ => rfl⟩
  rw [← BitVec.ofNat_toNat]
  split
  · rename_i h
    refine copyDown_moved (by omega) fun i j hij hj => offset_ne hd hs hj (by omega) ?_
    have := BitVec.lt_def.mp h.1
    omega
  · rename_i h
    refine copyUp_moved (by omega) fun i j hij hj => offset_ne hd hs (by omega) hj fun heq => h ?_
    -- the end of the range at `src` is below that at `dst`, and so it does not wrap
    rw [BitVec.lt_def, gt_iff_lt, BitVec.lt_def, toNat_offset (n := n.toNat + 1) (by omega) (by omega)]
    omega

/-- The user library goes up only if `src` is above `dst`. -/
theorem User.memmove_moved {n : BitVec 32} (h0 : 0 ≤ n.toInt) (hd : dst.toNat + n.toNat ≤ 2 ^ 64)
    (hs : src.toNat + n.toNat ≤ 2 ^ 64) : Moved dst src n.toNat m (User.memmove dst src n m) := by
  have hmsb : n.msb = false := by simpa [BitVec.msb_eq_toInt] using h0
  have hn : n.toInt.toNat = n.toNat := by rw [BitVec.toInt_eq_toNat_of_msb hmsb, Int.toNat_natCast]
  rw [User.memmove, hn, BitVec.signExtend_eq_setWidth_of_msb_false hmsb, ← BitVec.ofNat_toNat]
  split
  · rename_i h
    refine copyUp_moved (by omega) fun i j hij hj => offset_ne hd hs (by omega) hj ?_
    have := BitVec.lt_def.mp h
    omega
  · rename_i h
    refine copyDown_moved (by omega) fun i j hij hj => offset_ne hd hs hj (by omega) ?_
    have := BitVec.not_lt.mp h
    have := BitVec.le_def.mp this
    omega

/-- For ranges that do not wrap, the two move the bytes and agree. -/
theorem memmove_correct (m : Memory) (dst src : BitVec 64) (n : BitVec 32) (hd : dst.toNat + n.toNat ≤ 2 ^ 64)
    (hs : src.toNat + n.toNat ≤ 2 ^ 64) :
    Moved dst src n.toNat m (Kernel.memmove dst src n m) ∧
      (0 ≤ n.toInt → Moved dst src n.toNat m (User.memmove dst src n m) ∧
        User.memmove dst src n m = Kernel.memmove dst src n m) :=
  have hk := Kernel.memmove_moved hd hs
  ⟨hk, fun h0 => ⟨User.memmove_moved h0 hd hs, (User.memmove_moved h0 hd hs).unique hk⟩⟩

/-- Three bytes are moved up by one. -/
theorem memmove_correct_overlap :
    Moved 5 4 3 (fun a => a.setWidth 8) (Kernel.memmove 5 4 3 fun a => a.setWidth 8) ∧
      Kernel.memmove 5 4 3 (fun a => a.setWidth 8) 7 = 6 :=
  ⟨(memmove_correct (fun a => a.setWidth 8) 5 4 3 (by decide) (by decide)).1, by decide⟩

end Xv6
