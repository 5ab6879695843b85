import Xv6.Bio.Refs

/-!
# The buffers and the disk

A valid buffer whose block is not pinned and whose holder is not about to log it
has the data that the block has on the disk (`Coherent`), as long as every copy
from user space in `writei` that fails has copied nothing. `unlogged_eq_disk`
is what follows for buffers that no process has; `broken_copy_unlogged` is a
copy that stops after its first byte.
-/

namespace Xv6.Bio

open Framework Function Option
open Log (BlockNo Block Area Logged)

variable {P : Type}

/-- The copy from user space, if there is one, is of all bytes or of none. -/
def Whole : Act P → Prop
  | .copyin _ _ _ m vs => vs.length = m ∨ vs = []
  | _ => True

/-- What holds of every buffer. -/
structure Good (s : Cache P) (b : Fin NBUF) : Prop where
  dev : (s.buf b).valid = true → (s.buf b).dev = ROOTDEV
  free : (s.buf b).holder = none → (s.buf b).work ≠ .changed
  data : (s.buf b).valid = true → (s.buf b).work ≠ .changed → ¬ Pinned s.log (s.buf b).blockno →
    (s.buf b).data = s.disk (s.buf b).blockno

theorem putBytes_nil (data : Block) (off : Nat) : Fs.putBytes data off [] = data := by
  funext j
  simp [Fs.putBytes, Fs.ofBytes, Log.bytes]

variable [Fintype P]

structure Coherent (s : Cache P) : Prop where
  inv : Inv s
  good : ∀ b, Good s b

theorem coherent_initial (size : Int) (disk : BlockNo → Block) : Coherent (initial P size disk) where
  inv := inv_initial size disk
  good _ := ⟨by simp [initial], by simp [initial], by simp [initial]⟩

variable {s s' : Cache P} {p : P} {b : Fin NBUF} {g : Log.Group P} {x : Buf P}

/-- A step that works on the buffer `b` and its block. -/
theorem Coherent.one (h : Coherent s) (hinv : Inv s') (hbuf : ∀ c ≠ b, s'.buf c = s.buf c)
    (hother : ∀ blk, ((s.buf b).dev = ROOTDEV → blk ≠ (s.buf b).blockno) →
      s'.disk blk = s.disk blk ∧ (Pinned s.log blk → Pinned s'.log blk))
    (hb : Good s' b) : Coherent s' := by
  refine ⟨hinv, fun c => ?_⟩
  by_cases hc : c = b
  · exact hc ▸ hb
  obtain ⟨hdev, hfree, hdata⟩ := h.good c
  rw [← hbuf c hc] at hdev hfree hdata
  refine ⟨hdev, hfree, fun hv hw hp => ?_⟩
  -- the block of another valid buffer is another one
  obtain ⟨hd, hpin⟩ := hother (s'.buf c).blockno fun hbd hblk => by
    rw [hbuf c hc] at hdev hv hblk
    exact hc (h.inv.uniq c b (hdev hv) hbd hblk)
  rw [hd]
  exact hdata hv hw fun hp' => hp (hpin hp')

/-- A step of the log that keeps the pins. -/
theorem Coherent.log (h : Coherent s) (hinv : Inv s') (hbuf : s'.buf = s.buf) (hdisk : s'.disk = s.disk)
    (hpin : ∀ blk, Pinned s.log blk → Pinned s'.log blk) : Coherent s' := by
  refine ⟨hinv, fun c => ?_⟩
  obtain ⟨hdev, hfree, hdata⟩ := h.good c
  rw [← hbuf] at hdev hfree hdata
  rw [← hdisk] at hdata
  exact ⟨hdev, hfree, fun hv hw hp => hdata hv hw fun hp' => hp (hpin _ hp')⟩

/-- The data of a buffer is written to its block. -/
theorem Coherent.write (h : Coherent s) (hinv : Inv s') (hold : (s.buf b).holder = some p)
    (hbuf : s'.buf = update s.buf b x) (hdev : x.dev = (s.buf b).dev) (hblk : x.blockno = (s.buf b).blockno)
    (hhold : x.holder = (s.buf b).holder) (hdisk : s'.disk = update s.disk (s.buf b).blockno x.data)
    (hpin : ∀ blk ≠ (s.buf b).blockno, Pinned s.log blk → Pinned s'.log blk) : Coherent s' := by
  have hb := h.inv.dev_of_holder hold
  refine h.one hinv (fun c hc => by rw [hbuf, update_of_ne hc]) (fun blk hne => ?_) ⟨?_, ?_, ?_⟩
  · rw [hdisk, update_of_ne (hne hb)]
    exact ⟨rfl, hpin blk (hne hb)⟩
  · intro _
    rw [hbuf, update_self, hdev, hb]
  · rw [hbuf, update_self, hhold, hold]
    exact nofun
  · intro _ _ _
    rw [hbuf, update_self, hblk, hdisk, update_self]

/-- The buffer `b` changes, and neither the disk nor the log. -/
theorem Coherent.buf (h : Coherent s) (hinv : Inv s') (hbuf : s'.buf = update s.buf b x) (hdisk : s'.disk = s.disk)
    (hlog : s'.log = s.log) (hdev : x.valid = true → x.dev = ROOTDEV) (hfree : x.holder = none → x.work ≠ .changed)
    (hdata : x.valid = true → x.work ≠ .changed → ¬ Pinned s.log x.blockno → x.data = s.disk x.blockno) :
    Coherent s' := by
  refine h.one hinv (fun c hc => by rw [hbuf, update_of_ne hc])
    (fun blk _ => ⟨by rw [hdisk], by rw [hlog]; exact id⟩) ⟨?_, ?_, ?_⟩
  · rw [hbuf, update_self]
    exact hdev
  · rw [hbuf, update_self]
    exact hfree
  · rw [hbuf, update_self, hdisk, hlog]
    exact hdata

theorem Coherent.bread (h : Coherent s) (hinv : Inv (bread s b)) (hb : s.Has p b .locked) : Coherent (bread s b) := by
  obtain ⟨-, hold, hw⟩ := hb
  unfold Bio.bread at hinv ⊢
  split at hinv
  · next hv =>
    rw [if_pos hv]
    refine h.buf hinv rfl rfl rfl (h.good b).dev (fun _ => by simp) fun hv _ => (h.good b).data hv (by simp [hw])
  · next hv =>
    rw [if_neg hv]
    exact h.buf hinv rfl rfl rfl (fun _ => h.inv.dev_of_holder hold) (fun _ => by simp) fun _ _ _ => rfl

variable [DecidableEq P]

theorem Coherent.bget (h : Coherent s) (hinv : Inv s') {blockno : BlockNo}
    (hs : bget s p ROOTDEV blockno = some s') : Coherent s' := by
  unfold Bio.bget at hs
  split at hs
  · next b _ =>
    obtain rfl := some.inj hs
    exact h.buf hinv rfl rfl rfl (h.good b).dev (h.good b).free (h.good b).data
  split at hs
  · next b hb =>
    obtain rfl := some.inj hs
    exact h.buf hinv rfl rfl rfl (fun _ => rfl) (h.good b).free (fun hv => by cases hv)
  · cases hs

theorem Coherent.logWrite (h : Coherent s) (hinv : Inv s') (hold : (s.buf b).holder = some p)
    (hs : logWrite s p b = some s') : Coherent s' := by
  simp only [Bio.logWrite, bind_eq_bind, bind_eq_some_iff] at hs
  obtain ⟨g, hg, hs⟩ := hs
  split at hs
  · next hpan =>
    obtain rfl := some.inj hs
    exact h.log hinv rfl rfl fun blk => (pinned_panic hg hpan).mpr
  · next hpan =>
    obtain rfl := some.inj hs
    have hpin : ∀ blk, Pinned g blk ↔ blk = (s.buf b).blockno ∨ Pinned s.log blk := fun blk =>
      pinned_logWrite h.inv.log hg (by simpa using hpan)
    refine h.one hinv (fun c hc => update_of_ne hc _ _) (fun blk _ => ⟨rfl, fun hb => (hpin blk).mpr (.inr hb)⟩)
      ⟨?_, ?_, ?_⟩
    · intro _
      simp only [Cache.setBuf, update_self]
      exact h.inv.dev_of_holder hold
    · simp [Cache.setBuf, hold]
    · intro _ _ hno
      refine absurd ((hpin _).mpr (.inl ?_)) hno
      simp [Cache.setBuf]

variable {L : Area} {a : Act P}

theorem Coherent.step (h : Coherent s) (ha : Whole a) (hs : step L s a = some s') : Coherent s' := by
  have hinv := (h.inv.step hs).1
  unfold Bio.step at hs
  split at hs
  · cases hs
  cases a with
  | bget p blockno =>
    simp only [ite_none_right_eq_some] at hs
    exact h.bget hinv hs.2
  | acquiresleep p b =>
    obtain ⟨⟨-, hb⟩, rfl⟩ := ite_some_none_eq_some.mp hs
    exact h.buf hinv rfl rfl rfl (h.good b).dev (fun _ => by simp)
      fun hv _ => (h.good b).data hv ((h.good b).free hb)
  | bread p b =>
    obtain ⟨hb, rfl⟩ := ite_some_none_eq_some.mp hs
    exact h.bread hinv hb
  | change p b data =>
    obtain ⟨⟨-, hb⟩, rfl⟩ := ite_some_none_eq_some.mp hs
    have hold : (s.buf b).holder = some p := by
      obtain ⟨-, hold, -⟩ | ⟨-, hold, -⟩ := hb <;> exact hold
    exact h.buf hinv rfl rfl rfl (h.good b).dev (by simp [hold]) fun _ hw => absurd rfl hw
  | copyin p b off m vs =>
    obtain ⟨⟨-, ⟨-, hold, hw⟩, -⟩, rfl⟩ := ite_some_none_eq_some.mp hs
    refine h.buf hinv rfl rfl rfl (h.good b).dev (by simp [hold]) fun hv hne hno => ?_
    obtain hm | rfl := ha
    · simp [hm] at hne
    · -- nothing was copied
      show Fs.putBytes (s.buf b).data off [] = _
      rw [putBytes_nil]
      exact (h.good b).data hv (by simp [hw]) hno
  | logWrite p b =>
    simp only [ite_none_right_eq_some] at hs
    obtain ⟨⟨-, hb, -⟩ | ⟨-, hb, -⟩, hs⟩ := hs <;> exact h.logWrite hinv hb hs
  | writeLog p lbuf dbuf =>
    dsimp only at hs
    split at hs
    · next tail hp =>
      simp only [ite_none_right_eq_some, writeLog, bind_eq_bind, bind_eq_some_iff, some.injEq] at hs
      obtain ⟨⟨-, -, ⟨-, hold, -⟩, -⟩, g, hg, rfl⟩ := hs
      refine h.write hinv hold rfl rfl rfl rfl rfl fun blk _ => (pinned_plain hg (by simp) fun q tail' hq hq' => ?_).mpr
      obtain rfl := Log.Act.commit.inj hq
      simp [hp] at hq'
    · cases hs
  | writeHead p b =>
    simp only [ite_none_right_eq_some, writeHead, bind_eq_bind, bind_eq_some_iff, some.injEq] at hs
    obtain ⟨⟨hp, ⟨-, hold, -⟩, -⟩, g, hg, rfl⟩ := hs
    refine h.write hinv hold rfl rfl rfl rfl rfl fun blk _ => (pinned_plain hg (by simp) fun q tail hq hq' => ?_).mpr
    obtain rfl := Log.Act.commit.inj hq
    obtain hp | hp := hp <;> simp [hp] at hq'
  | install p lbuf dbuf =>
    dsimp only at hs
    split at hs
    · next tail hp =>
      simp only [ite_none_right_eq_some] at hs
      obtain ⟨⟨ht, -, -, ⟨-, hold, -⟩, -, hblk⟩, hs⟩ := hs
      obtain ⟨g, hg, rfl⟩ := install_eq_some hs
      refine h.write hinv hold rfl rfl rfl rfl rfl fun blk hne hpin => ?_
      exact ((pinned_install h.inv.log hp ht hg).2 blk).mpr ⟨hpin, hblk ▸ hne⟩
    · cases hs
  | recover p b data =>
    obtain ⟨⟨-, -, hold, -⟩, rfl⟩ := ite_some_none_eq_some.mp hs
    exact h.write hinv hold rfl rfl rfl rfl rfl fun _ _ => id
  | initlog =>
    obtain rfl := some.inj hs
    exact h.log hinv rfl rfl fun _ => id
  | log a =>
    simp only [ite_none_right_eq_some, map_eq_some_iff] at hs
    obtain ⟨⟨-, ha⟩, g, hg, rfl⟩ := hs
    refine h.log hinv rfl rfl fun blk => (pinned_plain hg ?_ ?_).mpr
    · rintro p blockno rfl
      exact ha
    · rintro p tail rfl hp
      exact ha.2.2.2 tail (by rw [hp]; rfl)
  | releasesleep p b =>
    obtain ⟨hb, rfl⟩ := ite_some_none_eq_some.mp hs
    have hw : (s.buf b).work ≠ .changed := by
      obtain ⟨-, -, hw⟩ | ⟨-, -, hw⟩ := hb <;> simp [hw]
    exact h.buf hinv rfl rfl rfl (h.good b).dev (fun _ => hw) (h.good b).data
  | brelse p b =>
    obtain ⟨-, rfl⟩ := ite_some_none_eq_some.mp hs
    unfold brelse at hinv ⊢
    dsimp only at hinv ⊢
    split at hinv
    · next h0 =>
      rw [if_pos h0]
      exact h.buf hinv rfl rfl rfl (h.good b).dev (h.good b).free (h.good b).data
    · next h0 =>
      rw [if_neg h0]
      exact h.buf hinv rfl rfl rfl (h.good b).dev (h.good b).free (h.good b).data

/-- **Unlogged cache contents equal the disk**, in every state reached by steps
in which no copy from user space stops part way: a valid buffer that no process
has and whose block is not in the header of the log has the data of its block on
the disk, and so has one that `bget` may recycle. -/
theorem unlogged_eq_disk {size : Int} {disk : BlockNo → Block} {as : List (Act P)}
    (h : Run (Bio.step L) (initial P size disk) as s) (hw : ∀ a ∈ as, Whole a) :
    (∀ b, (s.buf b).valid = true → (s.buf b).holder = none → ¬ Logged s.log.lh (s.buf b).blockno →
      (s.buf b).data = s.disk (s.buf b).blockno) ∧
    ∀ b, (s.buf b).valid = true → (s.buf b).refcnt = 0 → (s.buf b).data = s.disk (s.buf b).blockno := by
  have hcoh : Coherent s := by
    induction h with
    | nil => exact coherent_initial size disk
    | snoc _ hs ih =>
      obtain ⟨hw, ha⟩ := List.forall_mem_append.mp hw
      exact (ih hw).step (ha _ (List.mem_singleton_self _)) hs
  refine ⟨fun b hv hb hno => ?_, fun b hv h0 => ?_⟩
  · exact (hcoh.good b).data hv ((hcoh.good b).free hb) fun hp => hno hp.logged
  · -- without references it is neither locked nor pinned
    have hrefs := hcoh.inv.refcnt b
    rw [h0, users] at hrefs
    have hfree : (s.buf b).holder = none := by
      cases hb : (s.buf b).holder with
      | none => rfl
      | some p =>
        simp only [hb, isSome_some, if_true] at hrefs
        omega
    refine (hcoh.good b).data hv ((hcoh.good b).free hfree) fun hp => ?_
    have hpin : pins s b = 1 := if_pos ⟨(hcoh.good b).dev hv, hp⟩
    omega

theorem unlogged_eq_disk_logOne : ∃ s, Run (Bio.step ⟨2, 30⟩) (initial (Fin 1) 30 fun _ _ => 0)
    (logOne ++ [.bget 0 41, .acquiresleep 0 1, .bread 0 1, .releasesleep 0 1, .brelse 0 1]) s ∧
    (s.buf 1).data = s.disk 41 := by
  obtain ⟨s, hr, hv, h0, hb⟩ := exists_run (Bio.step ⟨2, 30⟩) (initial (Fin 1) 30 fun _ _ => 0)
    (logOne ++ [.bget 0 41, .acquiresleep 0 1, .bread 0 1, .releasesleep 0 1, .brelse 0 1])
    (Q := fun s => (s.buf 1).valid = true ∧ (s.buf 1).refcnt = 0 ∧ (s.buf 1).blockno = 41) (by decide +kernel)
  refine ⟨s, hr, ?_⟩
  rw [← hb]
  exact (unlogged_eq_disk hr (by simp [logOne, Whole])).2 1 hv h0

/-- A write of two bytes, the second of which is not mapped. -/
def brokenWrite : List (Act (Fin 1)) :=
  [.initlog, .log (.beginOp 0), .bget 0 40, .acquiresleep 0 0, .bread 0 0, .copyin 0 0 0 2 [1], .releasesleep 0 0,
    .brelse 0 0]

/-- The first byte stays in the buffer, and reaches neither the log nor the disk. -/
theorem broken_copy_unlogged : ∃ s, Run (Bio.step ⟨2, 30⟩) (initial (Fin 1) 30 fun _ _ => 0) brokenWrite s ∧
    ¬ ∀ b, (s.buf b).valid = true → (s.buf b).holder = none → ¬ Logged s.log.lh (s.buf b).blockno →
      (s.buf b).data = s.disk (s.buf b).blockno := by
  obtain ⟨s, hr, hv, hb, hn, hd⟩ := exists_run (Bio.step ⟨2, 30⟩) (initial (Fin 1) 30 fun _ _ => 0) brokenWrite
    (Q := fun s => (s.buf 0).valid = true ∧ (s.buf 0).holder = none ∧ s.log.lh.n = 0 ∧
      (s.buf 0).data 0 ≠ s.disk (s.buf 0).blockno 0) (by decide +kernel)
  refine ⟨s, hr, fun hall => hd ?_⟩
  rw [hall 0 hv hb]
  rintro ⟨i, hi, -⟩
  omega

end Xv6.Bio
