import Xv6.Log.Disk

/-!
# Committing and recovering the log

`write_head`, `read_head`, `write_log`, `install_trans`, `commit` and
`recover_from_log` of `kernel/log.c`, on a device, and what each of them
writes. The header block is `struct logheader` in its first words: `n`, then
the home block numbers; block `i` of the log proper is
`log.start + i + 1`.

`commit_emits` and `recoverFromLog_emits` give the exact sequence of block
writes of a commit and of a recovery.
-/

namespace Xv6.Log

open Xv6.Framework List

/-- `struct logheader` in memory. -/
structure LogHeader where
  n : Nat
  block : Nat → BlockNo

/-- Block `b` is logged by the transaction `lh`. -/
def Logged (lh : LogHeader) (b : BlockNo) : Prop := ∃ i < lh.n, lh.block i = b

instance (lh : LogHeader) (b : BlockNo) : Decidable (Logged lh b) :=
  inferInstanceAs (Decidable (∃ i < lh.n, lh.block i = b))

/-- The parts of `struct log` that say where the log is on disk. -/
structure Area where
  start : BlockNo
  size : Nat

/-- Block `tail` of the log proper. -/
def Area.logBlock (L : Area) (tail : Nat) : BlockNo := L.start + BitVec.ofNat 32 tail + 1

/-- The blocks of the log: the header and the log proper. -/
def Area.Region (L : Area) (b : BlockNo) : Prop := ∃ i < L.size, b = L.start + BitVec.ofNat 32 i

/-- The number of blocks a header block names: `lh->n`, as the loops over the
header use it. -/
def headN (hb : Block) : Nat := (word hb 0).toInt.toNat

/-- The `i`-th home block number of a header block. -/
def headBlock (hb : Block) (i : Nat) : BlockNo := word hb (1 + i)

/-! ## The code -/

/-- `read_head`, over the in-memory header `lh`. -/
def readHead (e : Env) (L : Area) (lh : LogHeader) (d : Dev) : LogHeader × Dev :=
  let (buf, d) := bread e d L.start
  ({ n := headN buf
     block := fun i => if i < headN buf then headBlock buf i else lh.block i }, d)

/-- The header block `write_head` writes, from what the buffer held. -/
def fillHead (buf : Block) (lh : LogHeader) : Block :=
  (range lh.n).foldl (fun hb i => setWord hb (1 + i) (lh.block i))
    (setWord buf 0 (BitVec.ofNat 32 lh.n))

/-- `write_head`. -/
def writeHead (e : Env) (L : Area) (lh : LogHeader) (d : Dev) : Dev :=
  let (buf, d) := bread e d L.start
  bwrite d L.start (fillHead buf lh)

/-- One iteration of `write_log`. -/
def writeLogBlock (e : Env) (L : Area) (lh : LogHeader) (d : Dev) (tail : Nat) : Dev :=
  let (_, d) := bread e d (L.logBlock tail)
  let (src, d) := bread e d (lh.block tail)
  bwrite d (L.logBlock tail) src

/-- `write_log`: copy modified blocks from the cache to the log. -/
def writeLog (e : Env) (L : Area) (lh : LogHeader) (d : Dev) : Dev :=
  (range lh.n).foldl (writeLogBlock e L lh) d

/-- One iteration of `install_trans`. -/
def installBlock (e : Env) (L : Area) (lh : LogHeader) (recovering : Bool) (d : Dev) (tail : Nat) : Dev :=
  let (lbuf, d) := bread e d (L.logBlock tail)
  let (_, d) := bread e d (lh.block tail)
  let d := bwrite d (lh.block tail) lbuf
  if recovering then d else bunpin d (lh.block tail)

/-- `install_trans`: copy committed blocks from the log to their home. -/
def installTrans (e : Env) (L : Area) (lh : LogHeader) (recovering : Bool) (d : Dev) : Dev :=
  (range lh.n).foldl (installBlock e L lh recovering) d

/-- `commit`. -/
def commit (e : Env) (L : Area) (lh : LogHeader) (d : Dev) : Dev :=
  if lh.n > 0 then
    let d := writeLog e L lh d
    let d := writeHead e L lh d
    let d := installTrans e L lh false d
    writeHead e L { lh with n := 0 } d
  else d

/-- `recover_from_log`. -/
def recoverFromLog (e : Env) (L : Area) (lh : LogHeader) (d : Dev) : Dev :=
  let (lh, d) := readHead e L lh d
  let d := installTrans e L lh true d
  writeHead e L { lh with n := 0 } d

/-! ## The header block -/

variable {n i j : Nat} {lh : LogHeader} {L : Area} {e : Env} {d : Dev} {new : BlockNo → Block}

theorem word_fillHead_loop (buf : Block) (f : Nat → BlockNo) (hn : n ≤ LOGSIZE) :
    let hb := (range n).foldl (fun hb i => setWord hb (1 + i) (f i)) buf
    word hb 0 = word buf 0 ∧ ∀ i < n, word hb (1 + i) = f i := by
  induction n with
  | zero => exact ⟨rfl, fun i hi => absurd hi (by omega)⟩
  | succ n ih =>
    obtain ⟨h0, hi⟩ := ih (by omega)
    have hlt : 1 + n < 256 := by simp only [LOGSIZE, MAXOPBLOCKS] at hn; omega
    simp only [range_succ, foldl_append, foldl_cons, foldl_nil]
    refine ⟨by rw [word_setWord_ne _ hlt (by omega), h0], fun i hlt' => ?_⟩
    by_cases e : i = n
    · subst e; exact word_setWord_self _ hlt _
    · rw [word_setWord_ne _ hlt (by omega)]; exact hi i (by omega)

theorem headN_fillHead (buf : Block) (hn : lh.n ≤ LOGSIZE) :
    headN (fillHead buf lh) = lh.n := by
  have h := (word_fillHead_loop (setWord buf 0 (BitVec.ofNat 32 lh.n)) lh.block hn).1
  simp only [LOGSIZE, MAXOPBLOCKS] at hn
  have hv : (BitVec.ofNat 32 lh.n).toNat = lh.n := by rw [BitVec.toNat_ofNat]; omega
  simp only [headN, fillHead]
  rw [h, word_setWord_self _ (by omega), BitVec.toInt_eq_toNat_of_lt (by omega), hv]
  exact Int.toNat_natCast _

theorem headBlock_fillHead (buf : Block) (hn : lh.n ≤ LOGSIZE) (hi : i < lh.n) :
    headBlock (fillHead buf lh) i = lh.block i :=
  (word_fillHead_loop (setWord buf 0 (BitVec.ofNat 32 lh.n)) lh.block hn).2 i hi

/-! ## The blocks of the log -/

theorem Area.logBlock_eq (L : Area) (i : Nat) : L.logBlock i = L.start + BitVec.ofNat 32 (i + 1) := by
  simp only [Area.logBlock, BitVec.ofNat_add, BitVec.add_assoc]; rfl

theorem Area.start_region (L : Area) (h : n + 1 ≤ L.size) : L.Region L.start :=
  ⟨0, by omega, by simp⟩

theorem Area.logBlock_region (L : Area) (h : i + 1 < L.size) : L.Region (L.logBlock i) :=
  ⟨i + 1, h, L.logBlock_eq i⟩

theorem Area.logBlock_ne_start (L : Area) (h : i < LOGSIZE) : L.logBlock i ≠ L.start := by
  rw [L.logBlock_eq]
  simp only [LOGSIZE, MAXOPBLOCKS] at h
  bv_omega

theorem Area.logBlock_inj (L : Area) (hi : i < LOGSIZE) (hj : j < LOGSIZE)
    (h : L.logBlock i = L.logBlock j) : i = j := by
  rw [L.logBlock_eq, L.logBlock_eq] at h
  simp only [LOGSIZE, MAXOPBLOCKS] at hi hj
  bv_omega

/-! ## What is written -/

/-- A header that fits in the log, all of whose home blocks are outside it. -/
structure Fits (L : Area) (lh : LogHeader) : Prop where
  n_le : lh.n ≤ LOGSIZE
  n_lt : lh.n + 1 ≤ L.size
  outside : ∀ i < lh.n, ¬ L.Region (lh.block i)

theorem Fits.block_ne_logBlock (h : Fits L lh) (hi : i < lh.n) (hj : j < lh.n) : lh.block i ≠ L.logBlock j := fun e =>
  h.outside i hi (e ▸ L.logBlock_region (by have := h.n_lt; omega))

/-- The writes of `write_log`: the contents `new` gives the logged blocks. -/
def logWrites (L : Area) (lh : LogHeader) (new : BlockNo → Block) : List (BlockNo × Block) :=
  (range lh.n).map fun i => (L.logBlock i, new (lh.block i))

/-- The writes of `install_trans`, from the contents of the log's blocks. -/
def homeWrites (lh : LogHeader) (data : Nat → Block) : List (BlockNo × Block) :=
  (range lh.n).map fun i => (lh.block i, data i)

theorem writeLog_emits (hf : Fits L lh) (hd : ∀ i < lh.n, Holds d (lh.block i) (new (lh.block i))) :
    Emits d (writeLog e L lh d) (logWrites L lh new) ∧
      ∀ i < lh.n, Holds (writeLog e L lh d) (L.logBlock i) (new (lh.block i)) := by
  -- by induction on the iterations made, the logged blocks staying in the cache
  have loop : ∀ k ≤ lh.n, let d' := (range k).foldl (writeLogBlock e L lh) d
      Emits d d' ((range k).map fun i => (L.logBlock i, new (lh.block i))) ∧
      (∀ i < lh.n, Holds d' (lh.block i) (new (lh.block i))) ∧
      ∀ i < k, Holds d' (L.logBlock i) (new (lh.block i)) := by
    intro k hk
    induction k with
    | zero => exact ⟨Emits.refl d, hd, fun i hi => absurd hi (by omega)⟩
    | succ k ih =>
      obtain ⟨he, hh, hl⟩ := ih (by omega)
      simp only [range_succ, foldl_append, foldl_cons, foldl_nil, map_append, map_cons, map_nil]
      generalize (range k).foldl (writeLogBlock e L lh) d = d1 at he hh hl ⊢
      have hsrc : (bread e (bread e d1 (L.logBlock k)).2 (lh.block k)).1 = new (lh.block k) :=
        ((hh k (by omega)).bread e _).bread_eq e
      simp only [writeLogBlock, hsrc]
      refine ⟨?_, fun i hi => ?_, fun i hi => ?_⟩
      · have hb := ((emits_bread e d1 (L.logBlock k)).trans (emits_bread e _ (lh.block k))).trans
          (emits_bwrite _ (L.logBlock k) (new (lh.block k)))
        exact he.trans hb
      · exact (((hh i hi).bread e _).bread e _).bwrite (hf.block_ne_logBlock hi (by omega)) _
      · by_cases ek : i = k
        · subst ek; exact holds_bwrite_self _ _ _
        · have hn := hf.n_le
          exact (((hl i (by omega)).bread e _).bread e _).bwrite
            (fun h => ek (L.logBlock_inj (by omega) (by omega) h)) _
  obtain ⟨he, -, hl⟩ := loop lh.n (Nat.le_refl _)
  exact ⟨he, hl⟩

theorem writeHead_emits (e : Env) (L : Area) (lh : LogHeader) (d : Dev) (hn : lh.n ≤ LOGSIZE) :
    ∃ hb, Emits d (writeHead e L lh d) [(L.start, hb)] ∧ headN hb = lh.n ∧ (∀ i < lh.n, headBlock hb i = lh.block i) ∧
      ∀ b v, b ≠ L.start → Holds d b v → Holds (writeHead e L lh d) b v :=
  ⟨_, (emits_bread e d L.start).trans (emits_bwrite _ L.start _), headN_fillHead _ hn,
    fun _ hi => headBlock_fillHead _ hn hi, fun _ _ hb h => (h.bread e _).bwrite hb _⟩

theorem installTrans_emits (recovering : Bool)
    {data : Nat → Block} (hf : Fits L lh) (hd : ∀ i < lh.n, Holds d (L.logBlock i) (data i)) :
    Emits d (installTrans e L lh recovering d) (homeWrites lh data) := by
  -- the log's own blocks are never written here, so each is still what it was
  have loop : ∀ k ≤ lh.n, let d' := (range k).foldl (installBlock e L lh recovering) d
      Emits d d' ((range k).map fun i => (lh.block i, data i)) ∧
      ∀ i < lh.n, Holds d' (L.logBlock i) (data i) := by
    intro k hk
    induction k with
    | zero => exact ⟨Emits.refl d, hd⟩
    | succ k ih =>
      obtain ⟨he, hl⟩ := ih (by omega)
      simp only [range_succ, foldl_append, foldl_cons, foldl_nil, map_append, map_cons, map_nil]
      generalize (range k).foldl (installBlock e L lh recovering) d = d1 at he hl ⊢
      have hsrc : (bread e d1 (L.logBlock k)).1 = data k := (hl k (by omega)).bread_eq e
      have hb := ((emits_bread e d1 (L.logBlock k)).trans (emits_bread e _ (lh.block k))).trans
        (emits_bwrite _ (lh.block k) (data k))
      have hk' : ∀ i < lh.n, L.logBlock i ≠ lh.block k := fun i hi =>
        (hf.block_ne_logBlock (by omega) hi).symm
      simp only [installBlock, hsrc]
      cases recovering with
      | true =>
        exact ⟨he.trans hb, fun i hi => (((hl i hi).bread e _).bread e _).bwrite (hk' i hi) _⟩
      | false =>
        refine ⟨he.trans ?_, fun i hi => ?_⟩
        · have := hb.trans (emits_bunpin _ (lh.block k))
          rwa [append_nil] at this
        · exact ((((hl i hi).bread e _).bread e _).bwrite (hk' i hi) _).bunpin (hk' i hi)
  exact (loop lh.n (Nat.le_refl _)).1

/-- The writes of a commit: the log's blocks, the header, the home blocks and
the empty header. -/
theorem commit_emits (hf : Fits L lh) (hd : ∀ i < lh.n, Holds d (lh.block i) (new (lh.block i))) (hn : 0 < lh.n) :
    ∃ hb hb0, Emits d (commit e L lh d)
        (logWrites L lh new ++ ((L.start, hb) ::
          (homeWrites lh fun i => new (lh.block i)) ++ [(L.start, hb0)])) ∧
      headN hb = lh.n ∧ (∀ i < lh.n, headBlock hb i = lh.block i) ∧ headN hb0 = 0 := by
  obtain ⟨e1, h1⟩ := writeLog_emits (e := e) hf hd
  obtain ⟨hb, e2, hhn, hhb, h2⟩ := writeHead_emits e L lh (writeLog e L lh d) hf.n_le
  have h3 : ∀ i < lh.n, Holds (writeHead e L lh (writeLog e L lh d)) (L.logBlock i) (new (lh.block i)) :=
    fun i hi => h2 _ _ (L.logBlock_ne_start (by have := hf.n_le; omega)) (h1 i hi)
  have e3 := installTrans_emits (e := e) false hf h3
  obtain ⟨hb0, e4, hn0, -, -⟩ := writeHead_emits e L { lh with n := 0 }
    (installTrans e L lh false (writeHead e L lh (writeLog e L lh d))) (Nat.zero_le _)
  refine ⟨hb, hb0, ?_, hhn, hhb, hn0⟩
  rw [commit, if_pos hn]
  exact e1.trans ((e2.trans e3).trans e4)

/-- A commit of an empty transaction writes nothing. -/
theorem commit_zero (e : Env) (L : Area) (d : Dev) (hn : lh.n = 0) :
    commit e L lh d = d := by
  rw [commit, if_neg (by omega)]

/-- The writes of a recovery from `disk`, whose header block is `disk L.start`:
the home blocks it names, from the log, and the empty header. -/
theorem recoverFromLog_emits (e : Env) (lh : LogHeader) (disk : BlockNo → Block) (rh : LogHeader)
    (hn : rh.n = headN (disk L.start)) (hb : ∀ i < rh.n, rh.block i = headBlock (disk L.start) i) (hf : Fits L rh) :
    ∃ hb0, Emits (reboot disk) (recoverFromLog e L lh (reboot disk))
        (homeWrites rh (fun i => disk (L.logBlock i)) ++ [(L.start, hb0)]) ∧ headN hb0 = 0 := by
  have hbuf : (bread e (reboot disk) L.start).1 = disk L.start := (holds_reboot disk _).bread_eq e
  have hrd : ∀ i < rh.n, Holds (bread e (reboot disk) L.start).2 (L.logBlock i) (disk (L.logBlock i)) :=
    fun i _ => (holds_reboot disk _).bread e _
  generalize hlh : (readHead e L lh (reboot disk)).1 = lh'
  have hn' : lh'.n = rh.n := by rw [← hlh, hn]; simp only [readHead, hbuf]
  have hb' : ∀ i < rh.n, lh'.block i = rh.block i := fun i hi => by
    rw [hb i hi, ← hlh]
    simp only [readHead, hbuf]
    rw [if_pos (by omega)]
  have hf' : Fits L lh' :=
    ⟨hn' ▸ hf.n_le, hn' ▸ hf.n_lt, fun i hi => by rw [hb' i (by omega)]; exact hf.outside i (by omega)⟩
  have e1 := installTrans_emits (e := e) true hf' (d := (bread e (reboot disk) L.start).2)
    fun i hi => hrd i (by omega)
  have hw : homeWrites lh' (fun i => disk (L.logBlock i)) = homeWrites rh fun i => disk (L.logBlock i) := by
    simp only [homeWrites, hn']
    exact map_congr_left fun i hi => by rw [hb' i (mem_range.mp hi)]
  rw [hw] at e1
  obtain ⟨hb0, e2, hn0, -, -⟩ := writeHead_emits e L { lh' with n := 0 }
    (installTrans e L lh' true (bread e (reboot disk) L.start).2) (Nat.zero_le _)
  refine ⟨hb0, ?_, hn0⟩
  have hrec : recoverFromLog e L lh (reboot disk) =
      writeHead e L { lh' with n := 0 } (installTrans e L lh' true (bread e (reboot disk) L.start).2) := by
    rw [← hlh]; rfl
  rw [hrec]
  have := (emits_bread e (reboot disk) L.start).trans (e1.trans e2)
  rwa [nil_append] at this

end Xv6.Log
