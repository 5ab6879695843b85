import Xv6.Framework.Run
import Xv6.Log.Commit

/-!
# Group commit

`begin_op`, `log_write`, `end_op` and `commit` of `kernel/log.c`, run by any
number of processes at once. Each critical section of `log.lock` is one
step; `commit`, which runs without the lock, is one step for each block it
writes. A process that finds no room in `begin_op` sleeps until `wakeup(&log)`
(or a `kill`) makes it test again.

`Inv` is what holds in every state: in short, a commit and an operation are
never under way at the same time, and the header in memory lists, once each,
the blocks logged since the last commit.
-/

namespace Xv6.Log

open Xv6.Framework Function Option

/-- The panics of `kernel/log.c`. -/
inductive Panic
  | tooBig
  | outsideTrans
  | logCommitting
  deriving DecidableEq

/-- Where a process in `commit` is: what it does next. -/
inductive CommitAt
  | start
  | writeLog (tail : Nat)
  | writeHead
  | install (tail : Nat)
  | clear
  | eraseHead
  | done
  deriving DecidableEq

/-- Where a process is, as far as the log is concerned. -/
inductive At
  /-- Outside any operation. -/
  | idle
  /-- `SLEEPING` in `begin_op`. -/
  | asleep
  /-- Woken in `begin_op`, about to take `log.lock` and test again. -/
  | woken
  /-- Between `begin_op` and `end_op`. -/
  | inOp
  /-- In the `commit` that ends its operation. -/
  | commit (c : CommitAt)
  deriving DecidableEq

/-- `struct log`, and the processes that use it. The last two fields are
history variables, which no code reads. -/
structure Group (P : Type) where
  size : Int
  lh : LogHeader
  outstanding : Int
  committing : Bool
  pc : P → At
  panicked : Option Panic
  /-- The blocks logged since the last completed `commit`. -/
  written : Finset BlockNo
  /-- The blocks a process has passed to `log_write` in its operation. -/
  opBlocks : P → Finset BlockNo

/-- A step of one process. -/
inductive Act (P : Type)
  /-- A test of the loop in `begin_op`. -/
  | beginOp (p : P)
  | logWrite (p : P) (b : BlockNo)
  /-- The first critical section of `end_op`. -/
  | endOp (p : P)
  /-- The next step of `commit`. -/
  | commit (p : P)
  /-- The second critical section of `end_op`, after `commit`. -/
  | endCommit (p : P)
  /-- `kill` makes a process that sleeps in `begin_op` runnable. -/
  | kill (p : P)
  deriving DecidableEq

variable {P : Type} {lh : LogHeader} {b : BlockNo}

/-- `wakeup(&log)`. -/
def wakeup (pc : P → At) : P → At := fun p => if pc p = .asleep then .woken else pc p

section Code

variable [DecidableEq P]

/-- One test of the loop in `begin_op`. -/
def beginOp (s : Group P) (p : P) : Group P :=
  if s.committing then { s with pc := update s.pc p .asleep }
  else if s.lh.n + (s.outstanding + 1) * MAXOPBLOCKS > LOGSIZE then
    { s with pc := update s.pc p .asleep }
  else
    { s with
      outstanding := s.outstanding + 1
      pc := update s.pc p .inOp
      opBlocks := update s.opBlocks p ∅ }

/-- The index `log_write` stores a block number at: where it already is, or
past the end. -/
def absorb (lh : LogHeader) (b : BlockNo) : Nat :=
  ((List.range lh.n).find? fun i => lh.block i = b).getD lh.n

/-- The header after `log_write` of block `b`. -/
def record (lh : LogHeader) (b : BlockNo) : LogHeader where
  n := if absorb lh b = lh.n then lh.n + 1 else lh.n
  block := update lh.block (absorb lh b) b

/-- `log_write`. -/
def logWrite (s : Group P) (p : P) (b : BlockNo) : Group P :=
  if s.lh.n ≥ LOGSIZE ∨ s.lh.n ≥ s.size - 1 then { s with panicked := some .tooBig }
  else if s.outstanding < 1 then { s with panicked := some .outsideTrans }
  else
    { s with
      lh := record s.lh b
      written := insert b s.written
      opBlocks := update s.opBlocks p (insert b (s.opBlocks p)) }

/-- The first critical section of `end_op`. -/
def endOp (s : Group P) (p : P) : Group P :=
  let s := { s with outstanding := s.outstanding - 1 }
  if s.committing then { s with panicked := some .logCommitting }
  else if s.outstanding = 0 then
    { s with committing := true, pc := update s.pc p (.commit .start) }
  else { s with pc := update (wakeup s.pc) p .idle }

/-- The next step of `commit`. -/
def commitStep (s : Group P) (p : P) : CommitAt → Group P
  | .start =>
    if s.lh.n > 0 then { s with pc := update s.pc p (.commit (.writeLog 0)) }
    else { s with pc := update s.pc p (.commit .done), written := ∅ }
  | .writeLog tail =>
    if tail < s.lh.n then { s with pc := update s.pc p (.commit (.writeLog (tail + 1))) }
    else { s with pc := update s.pc p (.commit .writeHead) }
  | .writeHead => { s with pc := update s.pc p (.commit (.install 0)) }
  | .install tail =>
    if tail < s.lh.n then { s with pc := update s.pc p (.commit (.install (tail + 1))) }
    else { s with pc := update s.pc p (.commit .clear) }
  | .clear =>
    { s with lh := { s.lh with n := 0 }, pc := update s.pc p (.commit .eraseHead) }
  | .eraseHead => { s with pc := update s.pc p (.commit .done), written := ∅ }
  | .done => s

/-- The second critical section of `end_op`. -/
def endCommit (s : Group P) (p : P) : Group P :=
  { s with committing := false, pc := update (wakeup s.pc) p .idle }

/-- The step of an action, if the process is where it can take it. Processes
call `log_write` and `end_op` only between `begin_op` and `end_op`. -/
def step (s : Group P) (a : Act P) : Option (Group P) :=
  if s.panicked.isSome then none
  else match a with
  | .beginOp p => if s.pc p = .idle ∨ s.pc p = .woken then some (beginOp s p) else none
  | .logWrite p b => if s.pc p = .inOp then some (logWrite s p b) else none
  | .endOp p => if s.pc p = .inOp then some (endOp s p) else none
  | .commit p =>
    match s.pc p with
    | .commit .done => none
    | .commit c => some (commitStep s p c)
    | _ => none
  | .endCommit p => if s.pc p = .commit .done then some (endCommit s p) else none
  | .kill p => if s.pc p = .asleep then some { s with pc := update s.pc p .woken } else none

end Code

/-- The log after `initlog`, for a log of `size` blocks. -/
def initial (P : Type) (size : Int) : Group P where
  size := size
  lh := ⟨0, fun _ => 0⟩
  outstanding := 0
  committing := false
  pc := fun _ => .idle
  panicked := none
  written := ∅
  opBlocks := fun _ => ∅

/-! ## What `log_write` does to the header -/

theorem absorb_of_logged (h : Logged lh b) :
    absorb lh b < lh.n ∧ lh.block (absorb lh b) = b := by
  obtain ⟨i, hi, rfl⟩ := h
  have hsome : ((List.range lh.n).find? fun j => lh.block j = lh.block i).isSome := by
    simpa using ⟨i, hi, rfl⟩
  obtain ⟨j, hj⟩ := isSome_iff_exists.mp hsome
  have hm := List.mem_of_find?_eq_some hj
  have hp := List.find?_some hj
  simp only [decide_eq_true_eq] at hp
  rw [absorb, hj]
  exact ⟨List.mem_range.mp hm, hp⟩

theorem absorb_of_not_logged (h : ¬ Logged lh b) : absorb lh b = lh.n := by
  have hnone : ((List.range lh.n).find? fun j => lh.block j = b) = none := by
    simp only [List.find?_eq_none, List.mem_range, decide_eq_true_eq]
    exact fun i hi e => h ⟨i, hi, e⟩
  rw [absorb, hnone]; rfl

/-- Log absorption: a block that is already logged changes nothing. -/
theorem record_of_logged (h : Logged lh b) : record lh b = lh := by
  obtain ⟨hlt, hb⟩ := absorb_of_logged h
  have : update lh.block (absorb lh b) b = lh.block := by
    nth_rewrite 2 [← hb]; exact update_eq_self _ _
  simp only [record, this, if_neg (Nat.ne_of_lt hlt)]

theorem record_of_not_logged (h : ¬ Logged lh b) :
    record lh b = ⟨lh.n + 1, update lh.block lh.n b⟩ := by
  simp [record, absorb_of_not_logged h]

theorem logged_record {c : BlockNo} : Logged (record lh b) c ↔ c = b ∨ Logged lh c := by
  by_cases h : Logged lh b
  · rw [record_of_logged h]
    exact ⟨.inr, fun h' => h'.elim (fun e => e ▸ h) id⟩
  · rw [record_of_not_logged h]
    constructor
    · rintro ⟨i, hi, rfl⟩
      simp only at hi ⊢
      by_cases e : i = lh.n
      · subst e; exact .inl (by rw [update_self])
      · rw [update_of_ne e]; exact .inr ⟨i, by omega, rfl⟩
    · rintro (rfl | ⟨i, hi, rfl⟩)
      · exact ⟨lh.n, by simp, by simp⟩
      · exact ⟨i, by simp; omega, update_of_ne (by omega) _ _⟩

/-- The block numbers of a header are distinct. -/
def Distinct (lh : LogHeader) : Prop := ∀ i < lh.n, ∀ j < lh.n, lh.block i = lh.block j → i = j

theorem Distinct.record (h : Distinct lh) (b : BlockNo) : Distinct (record lh b) := by
  by_cases hl : Logged lh b
  · rwa [record_of_logged hl]
  rw [record_of_not_logged hl]
  intro i hi j hj e
  simp only at hi hj e
  have hne : ∀ k < lh.n, lh.block k ≠ b := fun k hk ek => hl ⟨k, hk, ek⟩
  by_cases ei : i = lh.n <;> by_cases ej : j = lh.n
  · omega
  · subst ei
    rw [update_self, update_of_ne ej] at e
    exact absurd e.symm (hne j (by omega))
  · subst ej
    rw [update_self, update_of_ne ei] at e
    exact absurd e (hne i (by omega))
  · rw [update_of_ne ei, update_of_ne ej] at e
    exact h i (by omega) j (by omega) e

/-! ## The invariant -/

/-- What holds in every reachable state. -/
structure Inv (s : Group P) : Prop where
  /-- `outstanding` counts the operations under way. -/
  ops : ∃ F : Finset P, (∀ p, p ∈ F ↔ s.pc p = .inOp) ∧ s.outstanding = F.card
  committing_iff : s.committing = true ↔ ∃ p c, s.pc p = .commit c
  /-- At most one process is in `commit`. -/
  unique : ∀ p q c c', s.pc p = .commit c → s.pc q = .commit c' → p = q
  quiet : s.committing = true → s.outstanding = 0
  empty : s.outstanding = 0 → s.committing = false → s.lh.n = 0
  sleeper : ∀ p, s.pc p = .asleep → 0 < s.outstanding ∨ s.committing = true
  distinct : Distinct s.lh
  /-- Past `log.lh.n = 0` in `commit`, the header is empty. -/
  cleared : ∀ p, s.pc p = .commit .eraseHead ∨ s.pc p = .commit .done → s.lh.n = 0
  written : (¬ ∃ p, s.pc p = .commit .eraseHead) → ∀ b, b ∈ s.written ↔ Logged s.lh b
  panic : s.panicked = none ∨ s.panicked = some .tooBig

theorem inv_initial (size : Int) : Inv (initial P size) where
  ops := ⟨∅, by simp [initial], by simp [initial]⟩
  committing_iff := by simp [initial]
  unique := by simp [initial]
  quiet := by simp [initial]
  empty := by simp [initial]
  sleeper := by simp [initial]
  distinct := fun i hi => absurd hi (Nat.not_lt_zero i)
  cleared := by simp [initial]
  written := by simp [initial, Logged]
  panic := .inl rfl

@[simp] theorem wakeup_inOp (pc : P → At) (p : P) : wakeup pc p = .inOp ↔ pc p = .inOp := by
  simp only [wakeup]; split <;> simp_all

@[simp] theorem wakeup_commit (pc : P → At) (p : P) (c : CommitAt) :
    wakeup pc p = .commit c ↔ pc p = .commit c := by
  simp only [wakeup]; split <;> simp_all

theorem wakeup_ne_asleep (pc : P → At) (p : P) : wakeup pc p ≠ .asleep := by
  simp only [wakeup]; split <;> simp_all

/-! ## Every step keeps it -/

/-- A process that is in no operation and no commit. -/
def At.Free : At → Prop
  | .idle | .asleep | .woken => True
  | .inOp | .commit _ => False

variable {s s' : Group P} {p : P} {a : Act P} {c : CommitAt}

theorem Inv.one_le_outstanding (h : Inv s) (hp : s.pc p = .inOp) : 1 ≤ s.outstanding := by
  obtain ⟨F, hF, ho⟩ := h.ops
  have := Finset.card_pos.mpr ⟨p, (hF p).mpr hp⟩
  omega

theorem Inv.not_committing (h : Inv s) (hp : s.pc p = .inOp) : s.committing = false := by
  cases hc : s.committing with
  | false => rfl
  | true =>
    have := h.quiet hc
    have := h.one_le_outstanding hp
    omega

theorem Inv.ne_commit (h : Inv s) (hp : s.pc p = .inOp) (q : P) (c : CommitAt) : s.pc q ≠ .commit c := fun e => by
  have := h.committing_iff.mpr ⟨q, c, e⟩
  rw [h.not_committing hp] at this
  exact Bool.false_ne_true this

variable [DecidableEq P]

theorem wakeup_idle_ne (q : P) : update (wakeup pc) p .idle q ≠ .asleep := fun e =>
  wakeup_ne_asleep _ _ (update_eq_of_ne e nofun)

/-- A process moves between places outside operations and commits. -/
theorem Inv.setFree (h : Inv s) (hp : (s.pc p).Free) {x : At} (hx : x.Free)
    (hs : x = .asleep → 0 < s.outstanding ∨ s.committing = true) :
    Inv { s with pc := update s.pc p x } := by
  have hc : ∀ q c, update s.pc p x q = .commit c ↔ s.pc q = .commit c := fun q c =>
    update_eq_iff ⟨fun e => by rw [e] at hx; exact hx.elim, fun e => by rw [e] at hp; exact hp.elim⟩
  have ho : ∀ q, update s.pc p x q = .inOp ↔ s.pc q = .inOp := fun q =>
    update_eq_iff ⟨fun e => by rw [e] at hx; exact hx.elim, fun e => by rw [e] at hp; exact hp.elim⟩
  obtain ⟨F, hF, hn⟩ := h.ops
  refine ⟨⟨F, fun q => (hF q).trans (ho q).symm, hn⟩, ?_, ?_, h.quiet, h.empty, fun q hq => ?_, h.distinct,
    ?_, ?_, h.panic⟩
  · simpa only [hc] using h.committing_iff
  · simpa only [hc] using h.unique
  · exact (update_eq_cases hq).elim (fun e => hs e.2) fun e => h.sleeper q e.2
  · simpa only [hc] using h.cleared
  · simpa only [hc] using h.written

theorem Inv.beginOp (h : Inv s) (hp : s.pc p = .idle ∨ s.pc p = .woken) : Inv (beginOp s p) := by
  have hfree : (s.pc p).Free := by rcases hp with e | e <;> rw [e] <;> trivial
  simp only [Log.beginOp]
  split
  · rename_i hc
    exact h.setFree hfree trivial fun _ => .inr hc
  rename_i hc
  split
  · rename_i hn
    refine h.setFree hfree trivial fun _ => .inl ?_
    -- with no operation under way the log is empty, and there is room
    obtain ⟨F, -, ho⟩ := h.ops
    by_contra h0
    have hz : s.outstanding = 0 := by omega
    have := h.empty hz (by simpa using hc)
    rw [hz, this] at hn
    simp only [LOGSIZE, MAXOPBLOCKS] at hn
    omega
  · obtain ⟨F, hF, ho⟩ := h.ops
    have hpF : p ∉ F := fun hm => by rw [(hF p).mp hm] at hfree; exact hfree
    have hpc : ∀ q c, update s.pc p At.inOp q = .commit c ↔ s.pc q = .commit c := fun q c =>
      update_eq_iff ⟨nofun, fun e => by rw [e] at hfree; exact hfree.elim⟩
    refine ⟨⟨insert p F, fun q => ?_, ?_⟩, ?_, ?_, fun e => absurd e hc, fun e => ?_, fun q _ => .inl ?_,
      h.distinct, ?_, ?_, h.panic⟩
    · rw [Finset.mem_insert, hF]
      by_cases e : q = p <;> simp [e]
    · rw [Finset.card_insert_of_notMem hpF, ho]; simp
    · simpa only [hpc] using h.committing_iff
    · simpa only [hpc] using h.unique
    · simp only at e; omega
    · simp only; omega
    · simpa only [hpc] using h.cleared
    · simpa only [hpc] using h.written

theorem Inv.logWrite (h : Inv s) (hp : s.pc p = .inOp) (b : BlockNo) : Inv (logWrite s p b) := by
  have h1 := h.one_le_outstanding hp
  simp only [Log.logWrite]
  split
  · exact { h with panic := .inr rfl }
  rw [if_neg (by omega)]
  have hnc := h.ne_commit hp
  exact {
    h with
    empty := fun e => by simp only at e; omega
    distinct := h.distinct.record b
    cleared := fun q e => e.elim (fun e => absurd e (hnc q _)) fun e => absurd e (hnc q _)
    written := fun hne c => by rw [Finset.mem_insert, logged_record, h.written hne] }

/-- A process moves on in its commit. -/
theorem Inv.setCommit (h : Inv s) {c' : CommitAt} (hp : s.pc p = .commit c) {w : Finset BlockNo} (hd : Distinct lh)
    (hcl : c' = .eraseHead ∨ c' = .done → lh.n = 0) (hw : c' ≠ .eraseHead → ∀ b, b ∈ w ↔ Logged lh b) :
    Inv { s with pc := update s.pc p (.commit c'), lh := lh, written := w } := by
  have hcm : s.committing = true := h.committing_iff.mpr ⟨p, c, hp⟩
  -- no other process is in a commit
  have hpc : ∀ q c'', update s.pc p (.commit c') q = .commit c'' → q = p ∧ c'' = c' := fun q c'' e => by
    obtain ⟨rfl, he⟩ | ⟨eq, he⟩ := update_eq_cases e
    · cases he
      exact ⟨rfl, rfl⟩
    · exact absurd (h.unique q p _ _ he hp) eq
  obtain ⟨F, hF, ho⟩ := h.ops
  refine ⟨⟨F, fun q => ?_, ho⟩, ⟨fun _ => ⟨p, c', by simp⟩, fun _ => hcm⟩, fun q r _ _ eq er => ?_, h.quiet,
    fun _ e => ?_, fun _ _ => .inr hcm, hd, ?_, fun hne => hw fun e => hne ⟨p, by simp [e]⟩, h.panic⟩
  · rw [hF]
    by_cases e : q = p <;> simp [e, hp]
  · rw [(hpc q _ eq).1, (hpc r _ er).1]
  · simp only [hcm] at e; exact absurd e (by decide)
  · rintro q (e | e)
    · exact hcl (.inl (hpc q _ e).2.symm)
    · exact hcl (.inr (hpc q _ e).2.symm)

theorem Inv.commitStep (h : Inv s) (hp : s.pc p = .commit c) (hc : c ≠ .done) :
    Inv (commitStep s p c) := by
  have written : c ≠ .eraseHead → ∀ b, b ∈ s.written ↔ Logged s.lh b := fun hne =>
    h.written fun ⟨q, hq⟩ => by
      have := h.unique q p _ _ hq hp
      subst this
      rw [hp] at hq
      cases hq
      exact hne rfl
  have none_logged : ∀ {lh : LogHeader}, lh.n = 0 → ∀ b, b ∈ (∅ : Finset BlockNo) ↔ Logged lh b := fun hn b => by
    simp [Logged, hn]
  cases c with
  | start =>
    simp only [Log.commitStep]
    split
    · exact h.setCommit hp h.distinct (by simp) fun _ => written (by simp)
    · exact h.setCommit hp h.distinct (fun _ => by omega) fun _ => none_logged (by omega)
  | writeLog tail | install tail =>
    simp only [Log.commitStep]
    split <;> exact h.setCommit hp h.distinct (by simp) fun _ => written (by simp)
  | writeHead => exact h.setCommit hp h.distinct (by simp) fun _ => written (by simp)
  | clear =>
    exact h.setCommit hp (fun i hi => absurd hi (Nat.not_lt_zero i)) (fun _ => rfl) fun e => absurd rfl e
  | eraseHead =>
    have hn := h.cleared p (.inl hp)
    exact h.setCommit hp h.distinct (fun _ => hn) fun _ => none_logged hn
  | done => exact absurd rfl hc

theorem Inv.endOp (h : Inv s) (hp : s.pc p = .inOp) : Inv (endOp s p) := by
  have hc := h.not_committing hp
  obtain ⟨F, hF, ho⟩ := h.ops
  have hpF : p ∈ F := (hF p).mpr hp
  have hcard : (F.erase p).card = F.card - 1 := Finset.card_erase_of_mem hpF
  have hpos := Finset.card_pos.mpr ⟨p, hpF⟩
  have hnc := h.ne_commit hp
  have hwr := h.written fun ⟨q, hq⟩ => hnc q _ hq
  simp only [Log.endOp, hc, Bool.false_eq_true, if_false]
  split
  · rename_i h0
    have hpc : ∀ q c, update s.pc p (.commit .start) q = .commit c → q = p ∧ c = .start := fun q c e => by
      obtain ⟨rfl, he⟩ | ⟨-, he⟩ := update_eq_cases e
      · cases he
        exact ⟨rfl, rfl⟩
      · exact absurd he (hnc q c)
    refine ⟨⟨F.erase p, fun q => ?_, by simp only; omega⟩, ⟨fun _ => ⟨p, .start, by simp⟩, fun _ => rfl⟩,
      fun q r _ _ eq er => ?_, fun _ => h0, fun _ e => by simp at e, fun _ _ => .inr rfl, h.distinct, ?_,
      fun _ => hwr, h.panic⟩
    · rw [Finset.mem_erase, hF]
      by_cases e : q = p <;> simp [e]
    · rw [(hpc q _ eq).1, (hpc r _ er).1]
    · rintro q (e | e) <;> exact absurd (hpc q _ e).2 (by simp)
  · rename_i h0
    have hpc : ∀ q c, update (wakeup s.pc) p At.idle q ≠ .commit c := fun q c e =>
      hnc q c ((wakeup_commit ..).mp (update_eq_of_ne e nofun))
    refine ⟨⟨F.erase p, fun q => ?_, by simp only; omega⟩, ?_, fun q r _ _ eq => absurd eq (hpc q _),
      fun e => by simp at e, fun e => absurd e h0, fun q e => absurd e (wakeup_idle_ne q), h.distinct,
      fun q e => e.elim (fun e => absurd e (hpc q _)) fun e => absurd e (hpc q _), fun _ => hwr, h.panic⟩
    · rw [Finset.mem_erase, hF]
      by_cases e : q = p <;> simp [e]
    · simp only [Bool.false_eq_true, false_iff]
      rintro ⟨q, c, e⟩
      exact hpc q c e

theorem Inv.endCommit (h : Inv s) (hp : s.pc p = .commit .done) : Inv (endCommit s p) := by
  have hn := h.cleared p (.inr hp)
  have hpc : ∀ q c, update (wakeup s.pc) p At.idle q ≠ .commit c := fun q c e => by
    obtain ⟨-, e⟩ | ⟨eq, e⟩ := update_eq_cases e
    · cases e
    · exact eq (h.unique q p _ _ ((wakeup_commit ..).mp e) hp)
  have hwr := h.written fun ⟨q, hq⟩ => by
    have := h.unique q p _ _ hq hp
    subst this
    rw [hp] at hq
    cases hq
  obtain ⟨F, hF, ho⟩ := h.ops
  refine ⟨⟨F, fun q => ?_, ho⟩, ?_, fun q r _ _ eq => absurd eq (hpc q _), fun e => by simp [Log.endCommit] at e,
    fun _ _ => hn, fun q e => absurd e (wakeup_idle_ne q), h.distinct,
    fun q e => e.elim (fun e => absurd e (hpc q _)) fun e => absurd e (hpc q _), fun _ => hwr, h.panic⟩
  · rw [hF]
    simp only [Log.endCommit]
    by_cases e : q = p <;> simp [e, hp]
  · simp only [Log.endCommit, Bool.false_eq_true, false_iff]
    rintro ⟨q, c, e⟩
    exact hpc q c e

/-- What a step can be: the process is where it can take it, and the code of
that place runs. -/
theorem step_cases (h : step s a = some s') :
    s.panicked = none ∧
    ((∃ p, a = .beginOp p ∧ (s.pc p = .idle ∨ s.pc p = .woken) ∧ s' = beginOp s p) ∨
     (∃ p b, a = .logWrite p b ∧ s.pc p = .inOp ∧ s' = logWrite s p b) ∨
     (∃ p, a = .endOp p ∧ s.pc p = .inOp ∧ s' = endOp s p) ∨
     (∃ p c, a = .commit p ∧ s.pc p = .commit c ∧ c ≠ .done ∧ s' = commitStep s p c) ∨
     (∃ p, a = .endCommit p ∧ s.pc p = .commit .done ∧ s' = endCommit s p) ∨
     (∃ p, a = .kill p ∧ s.pc p = .asleep ∧ s' = { s with pc := update s.pc p .woken })) := by
  simp only [step] at h
  split at h
  · cases h
  rename_i hn
  refine ⟨by simpa using hn, ?_⟩
  cases a with
  | beginOp p =>
    obtain ⟨hp, rfl⟩ := ite_some_none_eq_some.mp h
    exact .inl ⟨p, rfl, hp, rfl⟩
  | logWrite p b =>
    obtain ⟨hp, rfl⟩ := ite_some_none_eq_some.mp h
    exact .inr (.inl ⟨p, b, rfl, hp, rfl⟩)
  | endOp p =>
    obtain ⟨hp, rfl⟩ := ite_some_none_eq_some.mp h
    exact .inr (.inr (.inl ⟨p, rfl, hp, rfl⟩))
  | commit p =>
    simp only at h
    split at h
    · cases h
    · rename_i c hne e
      cases h
      exact .inr (.inr (.inr (.inl ⟨p, c, rfl, e, hne, rfl⟩)))
    · cases h
  | endCommit p =>
    obtain ⟨hp, rfl⟩ := ite_some_none_eq_some.mp h
    exact .inr (.inr (.inr (.inr (.inl ⟨p, rfl, hp, rfl⟩))))
  | kill p =>
    obtain ⟨hp, rfl⟩ := ite_some_none_eq_some.mp h
    exact .inr (.inr (.inr (.inr (.inr ⟨p, rfl, hp, rfl⟩))))

theorem Inv.step (h : Inv s) (hs : step s a = some s') : Inv s' := by
  obtain ⟨-, ⟨p, -, hp, rfl⟩ | ⟨p, b, -, hp, rfl⟩ | ⟨p, -, hp, rfl⟩ | ⟨p, c, -, hp, hc, rfl⟩ |
    ⟨p, -, hp, rfl⟩ | ⟨p, -, hp, rfl⟩⟩ := step_cases hs
  · exact h.beginOp hp
  · exact h.logWrite hp b
  · exact h.endOp hp
  · exact h.commitStep hp hc
  · exact h.endCommit hp
  · exact h.setFree (by rw [hp]; trivial) trivial (by simp)

/-- The length of the log never changes. -/
theorem step_size (h : Log.step s a = some s') : s'.size = s.size := by
  obtain ⟨-, ⟨p, -, -, rfl⟩ | ⟨p, b, -, -, rfl⟩ | ⟨p, -, -, rfl⟩ | ⟨p, c, -, -, -, rfl⟩ |
    ⟨p, -, -, rfl⟩ | ⟨p, -, -, rfl⟩⟩ := step_cases h
  · simp only [Log.beginOp]; split <;> [rfl; split <;> rfl]
  · simp only [Log.logWrite]; split <;> [rfl; split <;> rfl]
  · simp only [Log.endOp]; split <;> [rfl; split <;> rfl]
  · cases c <;> simp only [Log.commitStep] <;> (try split) <;> rfl
  · rfl
  · rfl

theorem inv_run {size : Int} {as : List (Act P)} (h : Run step (initial P size) as s) : Inv s :=
  h.invariant (inv_initial size) Inv.step

/-- **Group-commit isolation**, in every reachable state. While a process is
in `commit`, `committing` is set, no operation is under way, and no step logs
a block or starts an operation. The header's block numbers are distinct, and
are those logged since the last completed `commit`, except while a commit
that has set `log.lh.n = 0` still has to erase the header on disk: then the
header in memory is empty. With neither an operation nor a commit under way
it is empty too. Neither `"log.committing"` nor `"log_write outside of
trans"` is reached, and a process sleeps in `begin_op` only while an `end_op`
is still to come that will wake it. -/
theorem group_commit_isolated {size : Int} {as : List (Act P)} {s : Group P} (h : Run Log.step (initial P size) as s) :
    (s.committing = true → s.outstanding = 0) ∧
    (∀ p c, s.pc p = .commit c → s.committing = true ∧ ∀ a s', Log.step s a = some s' →
      (∀ q b, a ≠ .logWrite q b) ∧ s'.outstanding = s.outstanding) ∧
    (∀ i < s.lh.n, ∀ j < s.lh.n, s.lh.block i = s.lh.block j → i = j) ∧
    ((∃ p, s.pc p = .commit .eraseHead) → s.lh.n = 0) ∧
    ((¬ ∃ p, s.pc p = .commit .eraseHead) → ∀ b, (∃ i < s.lh.n, s.lh.block i = b) ↔ b ∈ s.written) ∧
    (s.outstanding = 0 → s.committing = false → s.lh.n = 0) ∧
    s.panicked ≠ some .logCommitting ∧ s.panicked ≠ some .outsideTrans ∧
    (∀ p, s.pc p = .asleep → 0 < s.outstanding ∨ s.committing = true) := by
  have hi := inv_run h
  have hpanic : ∀ e, e ≠ Panic.tooBig → s.panicked ≠ some e := fun e he hs => by
    rcases hi.panic with hp | hp <;> rw [hp] at hs <;> cases hs
    exact he rfl
  refine ⟨hi.quiet, fun p c hp => ?_, hi.distinct, fun ⟨q, hq⟩ => hi.cleared q (.inl hq),
    fun hne b => (hi.written hne b).symm, hi.empty, hpanic _ (by decide), hpanic _ (by decide), hi.sleeper⟩
  have hc := hi.committing_iff.mpr ⟨p, c, hp⟩
  have hno : ∀ q, s.pc q ≠ .inOp := fun q hq => by
    have := hi.not_committing hq
    rw [hc] at this
    exact Bool.false_ne_true this.symm
  refine ⟨hc, fun a s' hs => ?_⟩
  obtain ⟨-, ⟨q, rfl, -, rfl⟩ | ⟨q, b, -, hq, -⟩ | ⟨q, -, hq, -⟩ | ⟨q, c', rfl, -, -, rfl⟩ |
    ⟨q, rfl, -, rfl⟩ | ⟨q, rfl, -, rfl⟩⟩ := step_cases hs
  · exact ⟨by simp, by simp only [Log.beginOp, hc, if_true]⟩
  · exact absurd hq (hno q)
  · exact absurd hq (hno q)
  · refine ⟨by simp, ?_⟩
    cases c' <;> simp only [Log.commitStep] <;> (try split) <;> rfl
  · exact ⟨by simp, rfl⟩
  · exact ⟨by simp, rfl⟩

/-- An operation that has logged one block. -/
theorem group_commit_isolated_one : ∃ s, Run Log.step (initial (Fin 2) LOGSIZE) [.beginOp 0, .logWrite 0 7] s ∧
    ∀ b, (∃ i < s.lh.n, s.lh.block i = b) ↔ b ∈ s.written := by
  obtain ⟨s, hr, hq⟩ := exists_run Log.step (initial (Fin 2) LOGSIZE) [.beginOp 0, .logWrite 0 7]
    (Q := fun s => ∀ p, s.pc p ≠ .commit .eraseHead) (by decide)
  exact ⟨s, hr, (group_commit_isolated hr).2.2.2.2.1 fun ⟨p, hp⟩ => hq p hp⟩

/-- A transaction of one block: in `commit`, before the header on disk is
erased, the header in memory no longer lists the block. -/
theorem header_cleared_before_commit_completes :
    ∃ (as : List (Act (Fin 1))) (s : Group (Fin 1)), Run Log.step (initial (Fin 1) LOGSIZE) as s ∧
      ¬ ∀ b, (∃ i < s.lh.n, s.lh.block i = b) ↔ b ∈ s.written := by
  obtain ⟨s, hr, hw, hl⟩ := exists_run Log.step (initial (Fin 1) LOGSIZE)
    [.beginOp 0, .logWrite 0 7, .endOp 0, .commit 0, .commit 0, .commit 0, .commit 0, .commit 0, .commit 0,
      .commit 0] (Q := fun s => 7 ∈ s.written ∧ s.lh.n = 0) (by decide)
  refine ⟨_, s, hr, fun h => ?_⟩
  obtain ⟨i, hi, -⟩ := (h 7).mpr hw
  omega

end Xv6.Log
