import Xv6.Fs.Owned
import Xv6.Fs.Refs

/-!
# The counts of the inode table

The claims on the table are those of the open files and of the current
directories of processes, and every call gives back the ones it takes and the
locks. `counts_exact` is what this says between calls, for any disk.
-/

namespace Xv6.Fs

open Framework Function

variable {sb : Superblock} {disk : Log.BlockNo → Log.Block} {s : State}

theorem count_fileClaim (t : Short) (x : File) (e : Fin NINODE) (h : x.ref = 0 → x.type = .none) :
    ((fileClaim t x).map Prod.fst).count e =
      if x.ref ≠ 0 ∧ (x.type = .inode ∨ x.type = .device) ∧ x.ip = e then 1 else 0 := by
  rw [fileClaim]
  split
  · rename_i ht
    simp [ht]
  · rename_i ht
    have hr : x.ref ≠ 0 := fun h0 => ht (h h0)
    have ht' : x.type = .inode ∨ x.type = .device := by
      cases hx : x.type with
      | none => exact absurd hx ht
      | inode => exact .inl rfl
      | device => exact .inr rfl
    simp [Multiset.count_singleton, hr, ht', eq_comm (a := e)]

theorem count_cwdClaim (x : Option Proc) (e : Fin NINODE) :
    ((cwdClaim x).map Prod.fst).count e = if x.any (·.cwd = e) then 1 else 0 := by
  cases x with
  | none => rfl
  | some x =>
    simp [cwdClaim, Multiset.count_singleton, eq_comm (a := e)]

/-- Between calls the reference count of an inode in memory is the number of
open files and current directories that refer to it, an inode is in memory once,
and no inode is locked. -/
theorem counts_exact {as : List (Fin NPROC × Call)} (hr : Run (step sb) (boot disk) as s) :
    (∀ e, (s.store.itable e).ref =
      (Finset.univ.filter fun f => (s.ftable f).ref ≠ 0 ∧
        ((s.ftable f).type = .inode ∨ (s.ftable f).type = .device) ∧ (s.ftable f).ip = e).card +
      (Finset.univ.filter fun p => (s.proc p).any (·.cwd = e)).card) ∧
    (∀ e e', 0 < (s.store.itable e).ref → 0 < (s.store.itable e').ref →
      (s.store.itable e).inum = (s.store.itable e').inum → e = e') ∧
    ∀ e, (s.store.itable e).locked = false := by
  have hinit : Refs 0 0 (Store.init disk) :=
    ⟨fun _ => rfl, fun he => absurd he (Nat.lt_irrefl 0), fun _ => rfl⟩
  obtain ⟨ty, h⟩ := (refRules sb).run_spec hinit hr
  have hrefs : Refs (0 + s.claims ty) 0 s.store := h.inv
  have hmap {n : Nat} (g : Fin n → Multiset Claim) : (∑ i, g i).map Prod.fst = ∑ i, (g i).map Prod.fst :=
    map_sum (Multiset.mapAddMonoidHom Prod.fst) g _
  refine ⟨fun e => ?_, fun e e' => hrefs.uniq, fun e => ?_⟩
  · rw [hrefs.ref, zero_add, State.claims, Multiset.map_add, Multiset.count_add, hmap, hmap, Multiset.count_sum',
      Multiset.count_sum', Finset.card_filter, Finset.card_filter]
    have hf := Finset.sum_congr rfl fun f (_ : f ∈ Finset.univ) => count_fileClaim (ty f) (s.ftable f) e h.unused
    have hp := Finset.sum_congr rfl fun p (_ : p ∈ Finset.univ) => count_cwdClaim (s.proc p) e
    rw [hf, hp]
  · cases hl : (s.store.itable e).locked with
    | false => rfl
    | true => simpa [hl] using hrefs.locked e

/-- `open("/a", O_CREATE|O_RDWR)`, `chdir("/")` and an `open` that fails: the
root is the current directory, and entry 1 of the table has the open file. -/
theorem counts_exact_chdir :
    ∃ s, Run (step smallSb) (boot smallDisk)
        [(0, .sysOpen (some [0x2f, 0x61]) (O_CREATE ||| O_RDWR)), (0, .sysChdir (some [0x2f])),
          (0, .sysOpen (some [0x2f, 0x62]) O_RDONLY)] s ∧
      ((s.store.itable 0).ref = 1 ∧ (s.store.itable 1).ref = 1) ∧ ∀ e, (s.store.itable e).locked = false := by
  obtain ⟨s, hr, hs⟩ := exists_run (step smallSb) (boot smallDisk)
    [(0, .sysOpen (some [0x2f, 0x61]) (O_CREATE ||| O_RDWR)), (0, .sysChdir (some [0x2f])),
      (0, .sysOpen (some [0x2f, 0x62]) O_RDONLY)]
    (Q := fun s => (s.store.itable 0).ref = 1 ∧ (s.store.itable 1).ref = 1) (by decide +kernel)
  exact ⟨s, hr, hs, (counts_exact hr).2.2⟩

end Xv6.Fs
