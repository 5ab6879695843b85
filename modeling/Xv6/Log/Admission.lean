import Xv6.Log.Group

/-!
# Log admission

`begin_op` admits an operation if the log has room for `MAXOPBLOCKS` blocks of
it and of every operation under way, of a total of `LOGSIZE`; `log_write`
panics if `log.size - 1` blocks are already logged, before it looks whether
the block is one of them. On a file system made by `mkfs`, whose log has
`LOGSIZE` blocks including its header, the two do not agree: three operations
of ten blocks each are admitted, and the last block does not fit.

`tooBig_iff` says exactly when `log_write` panics, by the number of different
blocks logged since the last commit, and that it never does when every
operation is admitted with two blocks to spare.
-/

namespace Xv6.Log

open Xv6.Framework Function Finset

variable {P : Type} {s s' : Group P} {a : Act P} {p : P} {as : List (Act P)}

/-- `nlog` of `mkfs`: the blocks of the log, with its header. -/
def mkfsNlog : Nat := LOGSIZE

/-- The log of a file system made by `mkfs`. -/
def mkfsLog (P : Type) : Group P := initial P mkfsNlog

/-- An operation passes at most `MAXOPBLOCKS` different blocks to
`log_write`. -/
def Within (s : Group P) : Act P → Prop
  | .logWrite p b => (insert b (s.opBlocks p)).card ≤ MAXOPBLOCKS
  | _ => True

instance (s : Group P) : (a : Act P) → Decidable (Within s a)
  | .logWrite .. => inferInstanceAs (Decidable (_ ≤ _))
  | .beginOp _ | .endOp _ | .commit _ | .endCommit _ | .kill _ => isTrue trivial

/-- The steps of processes whose operations keep to their limit. -/
def opStep [DecidableEq P] (s : Group P) (a : Act P) : Option (Group P) := if Within s a then step s a else none

theorem opStep_iff [DecidableEq P] : opStep s a = some s' ↔ Within s a ∧ step s a = some s' := by
  simp [opStep]

theorem run_of_opStep [DecidableEq P] {s0 : Group P} (h : Run opStep s0 as s) : Run step s0 as s :=
  h.mono fun h => (opStep_iff.mp h).2

/-! ## The number of blocks logged -/

theorem Inv.card_written (h : Inv s) (he : ¬ ∃ p, s.pc p = .commit .eraseHead) :
    s.written.card = s.lh.n := by
  have : s.written = (range s.lh.n).image s.lh.block := by
    ext b
    rw [h.written he]
    simp [Logged]
  rw [this, card_image_of_injOn, card_range]
  intro i hi j hj e
  simp only [coe_range, Set.mem_Iio] at hi hj
  exact h.distinct i hi j hj e

theorem Inv.card_written_inOp (h : Inv s) (hp : s.pc p = .inOp) :
    s.written.card = s.lh.n := by
  refine h.card_written fun ⟨q, hq⟩ => ?_
  have := h.committing_iff.mpr ⟨q, _, hq⟩
  rw [h.not_committing hp] at this
  exact Bool.false_ne_true this

/-- A step panics with `"too big a transaction"` only in `log_write`, with
`LOGSIZE - 1` blocks logged. -/
theorem tooBig_step [DecidableEq P] (h : Inv s) (hsz : s.size = mkfsNlog) (hs : step s a = some s') :
    s'.panicked = some .tooBig ↔ ∃ p b, a = .logWrite p b ∧ LOGSIZE < s.written.card + 2 := by
  have hsz' : s.size = 30 := hsz
  obtain ⟨hn, ⟨p, rfl, -, rfl⟩ | ⟨p, b, rfl, hp, rfl⟩ | ⟨p, rfl, hp, rfl⟩ | ⟨p, c, rfl, -, -, rfl⟩ |
    ⟨p, rfl, -, rfl⟩ | ⟨p, rfl, -, rfl⟩⟩ := step_cases hs
  · simp only [beginOp]; split <;> [skip; split] <;> simp [hn]
  · rw [h.card_written_inOp hp]
    have h1 := h.one_le_outstanding hp
    simp only [logWrite]
    split
    · rename_i hbig
      refine ⟨fun _ => ⟨p, b, rfl, ?_⟩, fun _ => rfl⟩
      simp only [LOGSIZE, MAXOPBLOCKS, hsz'] at hbig ⊢
      omega
    · rename_i hbig
      rw [if_neg (by omega)]
      refine ⟨fun e => by simp [hn] at e, fun hlt => ?_⟩
      obtain ⟨_, _, _, hlt⟩ := hlt
      simp only [LOGSIZE, MAXOPBLOCKS, hsz'] at hbig hlt
      omega
  · simp only [endOp, h.not_committing hp, Bool.false_eq_true, if_false]
    split <;> simp [hn]
  · cases c <;> simp only [commitStep] <;> (try split) <;> simp [hn]
  · simp [endCommit, hn]
  · simp [hn]

/-! ## Operations admitted with room to spare -/

/-- The blocks a process may still log in its operation. -/
def reserve (s : Group P) (p : P) : Nat := MAXOPBLOCKS - (s.opBlocks p).card

/-- The blocks logged and the blocks the operations under way may still log
leave two to spare. -/
structure Room (s : Group P) : Prop where
  sub : ∀ p, s.pc p = .inOp → s.opBlocks p ⊆ s.written
  room : ∀ F : Finset P, (∀ p, p ∈ F ↔ s.pc p = .inOp) → s.lh.n + ∑ p ∈ F, reserve s p + 2 ≤ LOGSIZE

/-- `begin_op` would admit an operation now. -/
def Admits (s : Group P) : Prop :=
  s.committing = false ∧ s.lh.n + (s.outstanding + 1) * MAXOPBLOCKS ≤ LOGSIZE

/-- `begin_op` would admit an operation now, with two blocks to spare. -/
def AdmitsSpare (s : Group P) : Prop := s.lh.n + (s.outstanding + 1) * MAXOPBLOCKS + 2 ≤ LOGSIZE

/-- Operations end, or stay as they are, and no block is logged. -/
theorem Room.shrink (hi : Inv s) (hr : Room s) (hn : s'.lh.n ≤ s.lh.n)
    (hpc : ∀ p, s'.pc p = .inOp → s.pc p = .inOp ∧ s'.written = s.written)
    (hb : s'.opBlocks = s.opBlocks) : Room s' := by
  refine ⟨fun p hp => by rw [hb, (hpc p hp).2]; exact hr.sub p (hpc p hp).1, fun F' hF' => ?_⟩
  obtain ⟨F, hF, -⟩ := hi.ops
  have hsub : F' ⊆ F := fun p hp => (hF p).mpr (hpc p ((hF' p).mp hp)).1
  have hsum : ∑ p ∈ F', reserve s' p ≤ ∑ p ∈ F, reserve s p := by
    simp only [reserve, hb]
    exact sum_le_sum_of_subset hsub
  have := hr.room F hF
  omega

variable [DecidableEq P]

theorem Room.beginOp (hi : Inv s) (hr : Room s)
    (hp : s.pc p = .idle ∨ s.pc p = .woken) (hadm : Admits s → AdmitsSpare s) : Room (beginOp s p) := by
  have hasleep : Room { s with pc := update s.pc p .asleep } := by
    exact hr.shrink hi (Nat.le_refl _) (fun q hq => ⟨update_eq_of_ne hq nofun, rfl⟩) rfl
  simp only [Log.beginOp]
  split
  · exact hasleep
  rename_i hc
  split
  · exact hasleep
  rename_i hroom
  have hspare := hadm ⟨by simpa using hc, by omega⟩
  obtain ⟨F, hF, ho⟩ := hi.ops
  have hpF : p ∉ F := fun hm => by
    have := (hF p).mp hm
    rcases hp with e | e <;> simp [e] at this
  refine ⟨fun q hq => ?_, fun F' hF' => ?_⟩
  · by_cases e : q = p
    · subst e; simp
    · simp only [update_of_ne e] at hq ⊢
      exact hr.sub q hq
  · have hins : F' = insert p F := by
      ext q
      rw [hF', mem_insert, hF]
      by_cases e : q = p <;> simp [e]
    have hsum : ∑ q ∈ F, (MAXOPBLOCKS - (update s.opBlocks p ∅ q).card) ≤ F.card * MAXOPBLOCKS :=
      sum_le_card_nsmul _ _ _ fun q _ => Nat.sub_le _ _
    simp only [AdmitsSpare, ho] at hspare
    simp only [hins, reserve]
    rw [sum_insert hpF, update_self, card_empty]
    simp only [LOGSIZE, MAXOPBLOCKS] at hspare hsum ⊢
    omega

theorem Room.logWrite {b : BlockNo} (hi : Inv s) (hsz : s.size = mkfsNlog) (hr : Room s)
    (hp : s.pc p = .inOp) (hw : Within s (.logWrite p b)) : Room (logWrite s p b) := by
  obtain ⟨F, hF, ho⟩ := hi.ops
  have hroom := hr.room F hF
  have h1 := hi.one_le_outstanding hp
  have hsz' : s.size = 30 := hsz
  simp only [Log.logWrite]
  rw [if_neg (by simp only [LOGSIZE, MAXOPBLOCKS] at hroom ⊢; omega), if_neg (by omega)]
  refine ⟨fun q hq => ?_, fun F' hF' => ?_⟩
  · by_cases e : q = p
    · subst e
      simp only [update_self]
      exact insert_subset_insert b (hr.sub q hp)
    · simp only [update_of_ne e]
      exact (hr.sub q hq).trans (subset_insert b _)
  · have hFF : F' = F := by
      ext q
      rw [hF', hF]
    have hpF : p ∈ F := (hF p).mpr hp
    have hrest : ∑ q ∈ F.erase p, (MAXOPBLOCKS - (update s.opBlocks p (insert b (s.opBlocks p)) q).card) =
        ∑ q ∈ F.erase p, (MAXOPBLOCKS - (s.opBlocks q).card) :=
      sum_congr rfl fun q hq => by rw [update_of_ne (ne_of_mem_erase hq)]
    have hold := add_sum_erase F (fun q => MAXOPBLOCKS - (s.opBlocks q).card) hpF
    subst hFF
    simp only [reserve] at hroom ⊢
    rw [← add_sum_erase F' _ hpF, hrest, update_self]
    simp only [Within] at hw
    by_cases hl : Logged s.lh b
    · rw [record_of_logged hl]
      have := card_le_card (subset_insert b (s.opBlocks p))
      omega
    · -- a block that is new to the log is new to the operation
      have hb : b ∉ s.opBlocks p := fun hm => hl <| by
        refine (hi.written (fun hq => ?_) b).mp (hr.sub p hp hm)
        obtain ⟨q, hq⟩ := hq
        exact hi.ne_commit hp q _ hq
      rw [record_of_not_logged hl]
      rw [card_insert_of_notMem hb] at hw ⊢
      simp only
      omega

theorem Room.step (hi : Inv s) (hsz : s.size = mkfsNlog) (hr : Room s)
    (hs : opStep s a = some s') (hadm : ∀ p, a = .beginOp p → Admits s → AdmitsSpare s) : Room s' := by
  obtain ⟨hw, hs⟩ := opStep_iff.mp hs
  obtain ⟨-, ⟨p, rfl, hp, rfl⟩ | ⟨p, b, rfl, hp, rfl⟩ | ⟨p, rfl, hp, rfl⟩ | ⟨p, c, rfl, hp, hc, rfl⟩ |
    ⟨p, rfl, -, rfl⟩ | ⟨p, rfl, -, rfl⟩⟩ := step_cases hs
  · exact hr.beginOp hi hp (hadm p rfl)
  · exact hr.logWrite hi hsz hp hw
  · simp only [endOp, hi.not_committing hp, Bool.false_eq_true, if_false]
    split
    · exact hr.shrink hi (Nat.le_refl _) (fun q hq => ⟨update_eq_of_ne hq (by simp), rfl⟩) rfl
    · exact hr.shrink hi (Nat.le_refl _) (fun q hq => ⟨(wakeup_inOp ..).mp (update_eq_of_ne hq (by simp)), rfl⟩) rfl
  · -- no operation is under way during a commit
    have hno : ∀ q, s.pc q ≠ .inOp := fun q hq => hi.ne_commit hq p c hp
    have hpc : ∀ q, (commitStep s p c).pc q ≠ .inOp := fun q hq => by
      by_cases e : q = p
      · subst e
        cases c <;> simp only [commitStep] at hq <;> (try split at hq) <;> simp_all
      · refine hno q ?_
        cases c <;> simp only [commitStep] at hq <;> (try split at hq) <;>
          simpa [update_of_ne e] using hq
    refine hr.shrink hi ?_ (fun q hq => absurd hq (hpc q)) ?_
    · cases c <;> simp only [commitStep] <;> (try split) <;> simp
    · cases c <;> simp only [commitStep] <;> (try split) <;> rfl
  · exact hr.shrink hi (Nat.le_refl _) (fun q hq => ⟨(wakeup_inOp ..).mp (update_eq_of_ne hq (by simp)), rfl⟩) rfl
  · exact hr.shrink hi (Nat.le_refl _) (fun q hq => ⟨update_eq_of_ne hq (by simp), rfl⟩) rfl

/-! ## When the log overflows -/

theorem run_size (h : Run step (mkfsLog P) as s) : s.size = mkfsNlog :=
  h.invariant (I := fun s => s.size = mkfsNlog) rfl fun hi hs => (step_size hs).trans hi

theorem panicked_stuck (h : s.panicked = some .tooBig) (a : Act P) : opStep s a = none := by
  simp [opStep, step, h]

/-- **When log admission suffices.** On a file system made by `mkfs`, a run of
operations that each log at most `MAXOPBLOCKS` different blocks never panics
with `"too big a transaction"` exactly if each `log_write` in it comes when
at most `LOGSIZE - 2` different blocks have been logged since the last
commit; and this is so if `begin_op` admits operations only with two blocks
to spare. -/
theorem tooBig_iff {as : List (Act P)} {s : Group P} (h : Run opStep (mkfsLog P) as s) :
    (s.panicked ≠ some .tooBig ↔ ∀ as₁ p b as₂ s₁, as = as₁ ++ .logWrite p b :: as₂ →
      Run opStep (mkfsLog P) as₁ s₁ → s₁.written.card + 2 ≤ LOGSIZE) ∧
    ((∀ as₁ p as₂ s₁, as = as₁ ++ .beginOp p :: as₂ → Run opStep (mkfsLog P) as₁ s₁ →
      Admits s₁ → AdmitsSpare s₁) → s.panicked ≠ some .tooBig) := by
  refine ⟨⟨fun hn as₁ p b as₂ s₁ e h1 => ?_, fun hc hp => ?_⟩, fun hadm hp => ?_⟩
  · -- a `log_write` with more blocks logged panics, and nothing follows it
    by_contra hlt
    have hinv := inv_run (run_of_opStep h1)
    have hsz := run_size (run_of_opStep h1)
    rw [e, List.append_cons] at h
    obtain ⟨s2, h2, -⟩ := h.of_append
    obtain ⟨s1', h1', hx⟩ := h2.of_append
    have hs1 : s1' = s₁ := by
      rw [run_iff_exec] at h1 h1'
      exact Option.some.inj (h1'.symm.trans h1)
    subst hs1
    have hx : opStep s1' (.logWrite p b) = some s2 := by simpa [exec] using hx
    have hbig : s2.panicked = some .tooBig :=
      (tooBig_step hinv hsz (opStep_iff.mp hx).2).mpr ⟨p, b, rfl, by omega⟩
    obtain ⟨-, rfl⟩ := h2.stuck h (panicked_stuck hbig)
    exact hn hbig
  · cases h with
    | nil => simp [mkfsLog, initial] at hp
    | snoc h1 hs =>
      obtain ⟨p, b, rfl, hlt⟩ := (tooBig_step (inv_run (run_of_opStep h1)) (run_size (run_of_opStep h1))
        (opStep_iff.mp hs).2).mp hp
      have := hc _ p b [] _ rfl h1
      omega
  · -- with room to spare at every admission there is room at every step
    have hroom : s.panicked ≠ some .tooBig ∧ Room s := by
      clear hp
      induction h with
      | nil =>
        refine ⟨by simp [mkfsLog, initial], fun p hp => by simp [mkfsLog, initial] at hp, fun F hF => ?_⟩
        have : F = ∅ := eq_empty_of_forall_notMem fun p hp => by
          have := (hF p).mp hp
          simp [mkfsLog, initial] at this
        rw [this, sum_empty]
        exact (by decide : 2 ≤ LOGSIZE)
      | @snoc as a s s' h1 hs ih =>
        have hinv := inv_run (run_of_opStep h1)
        have hsz := run_size (run_of_opStep h1)
        obtain ⟨-, hr⟩ := ih fun as₁ p as₂ s₁ e => hadm as₁ p (as₂ ++ [a]) s₁ (by rw [e]; simp)
        refine ⟨fun hp => ?_, hr.step hinv hsz hs fun p e => hadm as p [] s (by rw [e]) h1⟩
        obtain ⟨p, b, rfl, hlt⟩ := (tooBig_step hinv hsz (opStep_iff.mp hs).2).mp hp
        have hin : s.pc p = .inOp := by
          obtain ⟨-, ⟨_, e, _⟩ | ⟨_, _, e, hq, -⟩ | ⟨_, e, _⟩ | ⟨_, _, e, _⟩ | ⟨_, e, _⟩ | ⟨_, e, _⟩⟩ :=
            step_cases (opStep_iff.mp hs).2 <;> cases e
          exact hq
        rw [hinv.card_written_inOp hin] at hlt
        obtain ⟨F, hF, -⟩ := hinv.ops
        have := hr.room F hF
        omega
    exact hroom.1 hp

/-- An operation that has logged one block. -/
theorem tooBig_iff_one : ∃ s, Run opStep (mkfsLog (Fin 1)) [.beginOp 0, .logWrite 0 7] s ∧
    ∀ as₁ p b as₂ s₁, [.beginOp 0, .logWrite 0 7] = as₁ ++ .logWrite p b :: as₂ →
      Run opStep (mkfsLog (Fin 1)) as₁ s₁ → s₁.written.card + 2 ≤ LOGSIZE := by
  obtain ⟨s, hr, hq⟩ := exists_run opStep (mkfsLog (Fin 1)) [.beginOp 0, .logWrite 0 7]
    (Q := fun s => s.panicked ≠ some .tooBig) (by decide)
  exact ⟨s, hr, (tooBig_iff hr).1.mp hq⟩

/-- Three operations begin, and log ten blocks each. -/
def threeOps : List (Act (Fin 3)) :=
  [.beginOp 0, .beginOp 1, .beginOp 2] ++
    ((List.finRange 3).flatMap fun p => (List.range 10).map fun i =>
      .logWrite p (BitVec.ofNat 32 (100 + 10 * p + i)))

/-- Three operations of ten blocks each are admitted, and the last block they
log is one too many. -/
theorem threeOps_tooBig : ∃ s, Run opStep (mkfsLog (Fin 3)) threeOps s ∧ s.panicked = some .tooBig :=
  exists_run _ _ threeOps (by decide +kernel)

end Xv6.Log
