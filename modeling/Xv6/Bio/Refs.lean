import Xv6.Bio.Cache

/-!
# The list and the reference counts of the buffer cache

What holds of the cache whatever the processes do. The links are a ring of all
buffers (`Inv.ring`), a block of the device is in one buffer at most, and a
reference count is the number of processes that have the buffer, wait for it or
are about to give it up, and one more while the buffer's block is `Pinned`: in
the header of the log, and not yet installed by the commit in progress
(`Inv.refcnt`). `step_inv` is the step, `cache_ok` all runs.
-/

namespace Xv6.Bio

open Framework Function List Option Cache
open Log (BlockNo Block Area Logged)

variable {P : Type} {g g' : Log.Group P} {s s' : Cache P} {p : P} {b c lbuf : Fin NBUF} {blk blockno : BlockNo}
  {x : Buf P} {pc : P → Log.At} {tail : Nat} {dev : BitVec 32}

/-! ## Pins -/

/-- The commit that a process is in has installed entry `i` of the log. -/
def Installed : Log.At → Nat → Prop
  | .commit (.install tail), i => i < tail
  | .commit .clear, _ => True
  | _, _ => False

instance (x : Log.At) (i : Nat) : Decidable (Installed x i) := by
  unfold Installed
  split <;> infer_instance

/-- The block is in the header of the log, and not yet installed. -/
def Pinned (g : Log.Group P) (blockno : BlockNo) : Prop :=
  ∃ i < g.lh.n, g.lh.block i = blockno ∧ ∀ p, ¬ Installed (g.pc p) i

instance [Fintype P] (g : Log.Group P) (blockno : BlockNo) : Decidable (Pinned g blockno) :=
  decidable_of_iff (∃ i ∈ range g.lh.n, g.lh.block i = blockno ∧ ∀ p, ¬ Installed (g.pc p) i)
    (by simp only [mem_range, Pinned])

theorem Pinned.logged (h : Pinned g blk) : Logged g.lh blk := by
  obtain ⟨i, hi, hb, -⟩ := h
  exact ⟨i, hi, hb⟩

theorem not_installed_of_not_committing (h : Log.Inv g) (hc : g.committing = false) (p : P) (i : Nat) :
    ¬ Installed (g.pc p) i := by
  intro hi
  have hnc : ¬ ∃ p c, g.pc p = .commit c := by
    rw [← h.committing_iff, hc]
    exact Bool.false_ne_true
  cases hp : g.pc p with
  | commit c => exact hnc ⟨p, c, hp⟩
  | _ => simp only [hp, Installed] at hi

@[simp] theorem installed_wakeup {q : P} {i : Nat} :
    Installed (Log.wakeup pc q) i ↔ Installed (pc q) i := by
  unfold Log.wakeup
  split
  · next h => rw [h]; exact Iff.rfl
  · exact Iff.rfl

/-- A process moves from one place to another at which as much is installed. -/
theorem pinned_move [DecidableEq P] {x : Log.At} (hlh : g'.lh = g.lh) (hpc : g'.pc = update pc p x)
    (hp : ∀ q i, Installed (pc q) i ↔ Installed (g.pc q) i)
    (h : ∀ i < g.lh.n, Installed x i ↔ Installed (g.pc p) i) : Pinned g' blk ↔ Pinned g blk := by
  simp only [Pinned, hlh, hpc]
  refine exists_congr fun i => and_congr_right fun hi => and_congr_right fun _ => forall_congr' fun q => not_congr ?_
  by_cases hq : q = p
  · subst hq
    rw [update_self]
    exact h i hi
  · rw [update_of_ne hq]
    exact hp q i

/-- A process moves where it has installed nothing, before and after. -/
theorem pinned_move_none [DecidableEq P] {x : Log.At} (hlh : g'.lh = g.lh) (hpc : g'.pc = update g.pc p x)
    (hp : ∀ i, ¬ Installed (g.pc p) i) (hx : ∀ i, ¬ Installed x i) : Pinned g' blk ↔ Pinned g blk :=
  pinned_move hlh hpc (fun _ _ => Iff.rfl) fun i _ => iff_of_false (hx i) (hp i)

/-- The steps of `commit` keep the pins, but for the iterations of `install_trans`. -/
theorem pinned_commit [DecidableEq P] {c : Log.CommitAt} (hp : g.pc p = .commit c) (hi : ∀ tail, c = .install tail → g.lh.n ≤ tail) :
    Pinned (Log.commitStep g p c) blk ↔ Pinned g blk := by
  cases c with
  | start | writeLog tail =>
    have hno : ∀ i, ¬ Installed (g.pc p) i := fun i => by rw [hp]; exact id
    simp only [Log.commitStep]
    split <;> exact pinned_move_none rfl rfl hno fun _ => id
  | writeHead => exact pinned_move_none rfl rfl (fun i => by rw [hp]; exact id) fun i => Nat.not_lt_zero i
  | install tail =>
    have hn := hi tail rfl
    simp only [Log.commitStep, if_neg (Nat.not_lt.mpr hn)]
    refine pinned_move rfl rfl (fun _ _ => Iff.rfl) fun i hin => iff_of_true trivial ?_
    rw [hp]
    exact Nat.lt_of_lt_of_le hin hn
  | clear =>
    -- all entries are installed, and none is left
    refine iff_of_false ?_ ?_
    · rintro ⟨i, hin, -⟩
      exact Nat.not_lt_zero i hin
    · rintro ⟨i, -, -, hno⟩
      refine hno p ?_
      rw [hp]
      trivial
  | eraseHead => exact pinned_move_none rfl rfl (fun i => by rw [hp]; exact id) fun _ => id
  | done => exact Iff.rfl

/-- The steps of the log that neither add an entry nor install one keep the pins. -/
theorem pinned_plain [DecidableEq P] {a : Log.Act P} (hs : Log.step g a = some g') (hw : ∀ p blockno, a ≠ .logWrite p blockno)
    (hi : ∀ p tail, a = .commit p → g.pc p = .commit (.install tail) → g.lh.n ≤ tail) :
    Pinned g' blk ↔ Pinned g blk := by
  obtain ⟨-, ⟨p, -, hp, rfl⟩ | ⟨p, b, rfl, -, -⟩ | ⟨p, -, hp, rfl⟩ | ⟨p, c, rfl, hp, -, rfl⟩ |
    ⟨p, -, hp, rfl⟩ | ⟨p, -, hp, rfl⟩⟩ := Log.step_cases hs
  · -- `begin_op`
    have hno : ∀ i, ¬ Installed (g.pc p) i := fun i => by obtain hp | hp := hp <;> rw [hp] <;> exact id
    unfold Log.beginOp
    split
    · exact pinned_move_none rfl rfl hno fun _ => id
    split <;> exact pinned_move_none rfl rfl hno fun _ => id
  · exact absurd rfl (hw p b)
  · -- `end_op`
    have hno : ∀ i, ¬ Installed (g.pc p) i := fun i => by rw [hp]; exact id
    unfold Log.endOp
    dsimp only
    split
    · exact Iff.rfl
    split
    · exact pinned_move_none rfl rfl hno fun _ => id
    · exact pinned_move rfl rfl (fun _ _ => installed_wakeup) fun i _ => iff_of_false id (hno i)
  · exact pinned_commit hp fun tail hc => hi p tail rfl (hc ▸ hp)
  · refine pinned_move rfl rfl (fun _ _ => installed_wakeup) fun i _ => iff_of_false id ?_
    rw [hp]
    exact id
  · exact pinned_move_none rfl rfl (fun i => by rw [hp]; exact id) fun _ => id

/-- While no commit is under way, the pinned blocks are those in the header. -/
theorem pinned_iff_logged (h : Log.Inv g) (hc : g.committing = false) : Pinned g blk ↔ Logged g.lh blk := by
  refine ⟨Pinned.logged, ?_⟩
  rintro ⟨i, hi, hb⟩
  exact ⟨i, hi, hb, fun p => not_installed_of_not_committing h hc p i⟩

/-- `log_write` pins its block. -/
theorem pinned_logWrite [DecidableEq P] (h : Log.Inv g) (hs : Log.step g (.logWrite p blockno) = some g')
    (hok : g'.panicked = none) : Pinned g' blk ↔ blk = blockno ∨ Pinned g blk := by
  obtain ⟨hp, rfl⟩ : g.pc p = .inOp ∧ g' = Log.logWrite g p blockno := by simpa using (Log.step_cases hs).2
  have hc := h.not_committing hp
  rw [pinned_iff_logged h hc]
  have h' := h.logWrite hp blockno
  unfold Log.logWrite at hok h' ⊢
  split at hok
  · cases hok
  split at hok
  · cases hok
  next h1 h2 =>
    rw [if_neg h1, if_neg h2] at h' ⊢
    rw [pinned_iff_logged h' hc]
    exact Log.logged_record

/-- A panic of `log_write` keeps the pins. -/
theorem pinned_panic [DecidableEq P] (hs : Log.step g (.logWrite p blockno) = some g')
    (hpan : g'.panicked.isSome) : Pinned g' blk ↔ Pinned g blk := by
  obtain ⟨hok, hg'⟩ := Log.step_cases hs
  obtain ⟨-, rfl⟩ : g.pc p = .inOp ∧ g' = Log.logWrite g p blockno := by simpa using hg'
  unfold Log.logWrite at hpan ⊢
  split
  · exact Iff.rfl
  split
  · exact Iff.rfl
  next h1 h2 =>
    rw [if_neg h1, if_neg h2] at hpan
    simp [hok] at hpan

/-- An iteration of `install_trans` is to unpin its block. -/
theorem pinned_install [DecidableEq P] (h : Log.Inv g) (hp : g.pc p = .commit (.install tail)) (ht : tail < g.lh.n)
    (hs : Log.step g (.commit p) = some g') :
    Pinned g (g.lh.block tail) ∧ ∀ blk, Pinned g' blk ↔ Pinned g blk ∧ blk ≠ g.lh.block tail := by
  have hone : ∀ q i, Installed (g.pc q) i → i < tail := by
    intro q i hi
    cases hq : g.pc q with
    | commit c =>
      obtain rfl := h.unique q p _ _ hq hp
      rw [hp] at hi
      exact hi
    | _ => simp only [hq, Installed] at hi
  have hg' : g' = { g with pc := update g.pc p (.commit (.install (tail + 1))) } := by
    obtain ⟨-, hg'⟩ := Log.step_cases hs
    simpa [hp, Log.commitStep, ht] using hg'
  have hin : ∀ i, (∃ q, Installed (g'.pc q) i) ↔ i < tail + 1 := by
    intro i
    rw [hg']
    constructor
    · rintro ⟨q, hq⟩
      by_cases hqp : q = p
      · subst hqp
        simpa only [update_self, Installed] using hq
      · simp only [update_of_ne hqp] at hq
        exact Nat.lt_succ_of_lt (hone q i hq)
    · intro hi
      exact ⟨p, by simpa only [update_self, Installed] using hi⟩
  refine ⟨⟨tail, ht, rfl, fun q hq => Nat.lt_irrefl _ (hone q tail hq)⟩, fun blk => ?_⟩
  have hlh : g'.lh = g.lh := by rw [hg']
  constructor
  · rintro ⟨i, hi, rfl, hno⟩
    have hlt : tail < i := by
      by_contra hlt
      obtain ⟨q, hq⟩ := (hin i).mpr (by omega)
      exact hno q hq
    rw [hlh] at hi ⊢
    refine ⟨⟨i, hi, rfl, fun q hq => ?_⟩, fun hc => ?_⟩
    · exact Nat.lt_asymm hlt (hone q i hq)
    · have := h.distinct i hi tail ht hc
      omega
  · rintro ⟨⟨i, hi, rfl, hno⟩, hne⟩
    refine ⟨i, by rwa [hlh], by rw [hlh], fun q hq => ?_⟩
    have hle : i < tail + 1 := (hin i).mp ⟨q, hq⟩
    have : i ≠ tail := fun hc => hne (by rw [hc])
    refine hno p ?_
    rw [hp]
    show i < tail
    omega

/-! ## The invariant -/

/-- What the list and the counts are about. -/
structure SameRefs (s s' : Cache P) : Prop where
  links : s'.links = s.links
  pc : s'.pc = s.pc
  buf : ∀ c, (s'.buf c).dev = (s.buf c).dev ∧ (s'.buf c).blockno = (s.buf c).blockno ∧
    (s'.buf c).refcnt = (s.buf c).refcnt ∧ (s'.buf c).holder = (s.buf c).holder

/-- The buffers keep their blocks. -/
def SameBlocks (s s' : Cache P) : Prop :=
  ∀ c, (s'.buf c).dev = (s.buf c).dev ∧ (s'.buf c).blockno = (s.buf c).blockno

theorem SameRefs.blocks (h : SameRefs s s') : SameBlocks s s' := fun c => ⟨(h.buf c).1, (h.buf c).2.1⟩

theorem sameBlocks_setBuf (hd : x.dev = (s.buf b).dev) (hb : x.blockno = (s.buf b).blockno) :
    SameBlocks s (s.setBuf b x) := by
  intro c
  simp only [setBuf, update_apply]
  split
  · next hc => exact hc ▸ ⟨hd, hb⟩
  · exact ⟨rfl, rfl⟩

theorem sameRefs_setBuf (hd : x.dev = (s.buf b).dev) (hb : x.blockno = (s.buf b).blockno)
    (hr : x.refcnt = (s.buf b).refcnt) (hh : x.holder = (s.buf b).holder) : SameRefs s (s.setBuf b x) := by
  refine ⟨rfl, rfl, fun c => ?_⟩
  simp only [setBuf, update_apply]
  split
  · next hc => exact hc ▸ ⟨hd, hb, hr, hh⟩
  · exact ⟨rfl, rfl, rfl, rfl⟩

theorem install_eq_some [DecidableEq P] (hs : install s p lbuf b = some s') :
    ∃ g, Log.step s.log (.commit p) = some g ∧
      s' = { ({ s with log := g }).setBuf b
          { s.buf b with data := (s.buf lbuf).data, refcnt := (s.buf b).refcnt - 1 } with
        disk := update s.disk (s.buf b).blockno (s.buf lbuf).data } := by
  simp only [Bio.install, bind_eq_bind, bind_eq_some_iff] at hs
  obtain ⟨g, hg, hs⟩ := hs
  obtain rfl := some.inj hs
  refine ⟨g, hg, ?_⟩
  simp [setBuf, bwrite]

variable [Fintype P]

/-- The buffer a process waits for or gives up. -/
def At.buf : At → Option (Fin NBUF)
  | .run => none
  | .waiting b => some b
  | .releasing b => some b

/-- How many processes wait for a buffer or give it up. -/
def count (pc : P → At) (b : Fin NBUF) : Nat := (Finset.univ.filter fun p => (pc p).buf = some b).card

theorem count_update [DecidableEq P] (pc : P → At) (p : P) (x : At) (b : Fin NBUF) :
    count (update pc p x) b + (if (pc p).buf = some b then 1 else 0) =
      count pc b + if x.buf = some b then 1 else 0 := by
  have hrest : ∑ q ∈ Finset.univ.erase p, (if (update pc p x q).buf = some b then 1 else 0) =
      ∑ q ∈ Finset.univ.erase p, if (pc q).buf = some b then 1 else 0 :=
    Finset.sum_congr rfl fun q hq => by rw [update_of_ne (Finset.ne_of_mem_erase hq)]
  simp only [count, Finset.card_filter]
  rw [← Finset.sum_erase_add _ _ (Finset.mem_univ p), hrest, update_self,
    ← Finset.sum_erase_add Finset.univ (fun q => if (pc q).buf = some b then 1 else 0) (Finset.mem_univ p)]
  omega

/-- The processes that have a buffer, wait for it or give it up. -/
def users (s : Cache P) (b : Fin NBUF) : Nat := (if (s.buf b).holder.isSome then 1 else 0) + count s.pc b

/-- The reference of the log to a buffer. -/
def pins (s : Cache P) (b : Fin NBUF) : Nat :=
  if (s.buf b).dev = ROOTDEV ∧ Pinned s.log (s.buf b).blockno then 1 else 0

/-- What holds in every reachable state. -/
structure Inv (s : Cache P) : Prop where
  log : Log.Inv s.log
  ring : ∃ l, Ring s.links l ∧ ∀ b, b ∈ l
  uniq : ∀ b c, (s.buf b).dev = ROOTDEV → (s.buf c).dev = ROOTDEV → (s.buf b).blockno = (s.buf c).blockno → b = c
  held : ∀ b, (s.buf b).refcnt ≠ 0 → (s.buf b).dev = ROOTDEV
  refcnt : ∀ b, (s.buf b).refcnt = users s b + pins s b
  pinned : ∀ blk, Pinned s.log blk → ∃ b, (s.buf b).dev = ROOTDEV ∧ (s.buf b).blockno = blk

theorem inv_initial (size : Int) (disk : BlockNo → Block) : Inv (initial P size disk) where
  log := Log.inv_initial size
  ring := by
    have hnil : Ring (⟨fun _ => none, fun _ => none⟩ : Links (Fin NBUF)) [] := ⟨⟨rfl, rfl⟩, nodup_nil⟩
    refine ⟨(finRange NBUF).reverse ++ [], hnil.foldl_pushFront ?_, fun b => by simp⟩
    rw [append_nil, nodup_reverse]
    exact nodup_finRange _
  uniq b c h := by simp [initial] at h
  held b h := absurd rfl h
  refcnt b := by simp [initial, users, pins, count, At.buf]
  pinned blk := by
    rintro ⟨i, hi, -⟩
    exact absurd hi (Nat.not_lt_zero i)

theorem Inv.dev_of_holder (h : Inv s) (hb : (s.buf b).holder = some p) : (s.buf b).dev = ROOTDEV := by
  refine h.held b ?_
  rw [h.refcnt, users, hb]
  simp

/-- The buffers keep their blocks, and the counts follow the references. -/
theorem Inv.keep (h : Inv s) (hlog : Log.Inv s'.log) (hring : ∃ l, Ring s'.links l ∧ ∀ b, b ∈ l)
    (hsame : SameBlocks s s')
    (href : ∀ c, (s'.buf c).refcnt + (users s c + pins s c) = (s.buf c).refcnt + (users s' c + pins s' c))
    (hheld : ∀ c, (s.buf c).refcnt = 0 → (s'.buf c).refcnt ≠ 0 → (s.buf c).dev = ROOTDEV)
    (hpin : ∀ blk, Pinned s'.log blk → Pinned s.log blk ∨ ∃ b, (s.buf b).dev = ROOTDEV ∧ (s.buf b).blockno = blk) :
    Inv s' where
  log := hlog
  ring := hring
  uniq b c := by
    rw [(hsame b).1, (hsame b).2, (hsame c).1, (hsame c).2]
    exact h.uniq b c
  held b hb := by
    rw [(hsame b).1]
    by_cases h0 : (s.buf b).refcnt = 0
    · exact hheld b h0 hb
    · exact h.held b h0
  refcnt b := by
    have h1 := href b
    have h2 := h.refcnt b
    omega
  pinned blk hblk := by
    obtain ⟨b, hd, hb⟩ := (hpin blk hblk).elim (h.pinned blk) id
    exact ⟨b, by rw [(hsame b).1, hd], by rw [(hsame b).2, hb]⟩

/-- A step that works on data only. -/
theorem Inv.same (h : Inv s) (hs : SameRefs s s') (hlog : Log.Inv s'.log)
    (hpin : ∀ blk, Pinned s'.log blk ↔ Pinned s.log blk) : Inv s' ∧ SameBlocks s s' := by
  refine ⟨h.keep hlog (hs.links ▸ h.ring) hs.blocks (fun c => ?_) (fun c h0 hc => ?_)
    fun blk hblk => .inl ((hpin blk).mp hblk), hs.blocks⟩
  · obtain ⟨hd, hb, hr, hh⟩ := hs.buf c
    simp only [users, pins, hd, hb, hr, hh, hs.pc, hpin]
  · rw [(hs.buf c).2.2.1] at hc
    exact absurd h0 hc

/-! ## Every step keeps it -/

theorem Inv.lookup_eq_some (h : Inv s) (hb : lookup s dev blockno = some b) :
    (s.buf b).dev = dev ∧ (s.buf b).blockno = blockno := by
  obtain ⟨l, hr, -⟩ := h.ring
  have hlen : l.length ≤ NBUF := by simpa using hr.nodup.length_le_card
  rw [lookup, hr.walk_next _ hlen] at hb
  simpa using List.find?_some hb

theorem Inv.lookup_eq_none (h : Inv s) (hb : lookup s dev blockno = none)
    (c : Fin NBUF) : ¬ ((s.buf c).dev = dev ∧ (s.buf c).blockno = blockno) := by
  obtain ⟨l, hr, hl⟩ := h.ring
  have hlen : l.length ≤ NBUF := by simpa using hr.nodup.length_le_card
  rw [lookup, hr.walk_next _ hlen] at hb
  simpa using List.find?_eq_none.mp hb c (hl c)

theorem Inv.unused_eq_some (h : Inv s) (hb : unused s = some b) : (s.buf b).refcnt = 0 := by
  obtain ⟨l, hr, -⟩ := h.ring
  have hlen : l.length ≤ NBUF := by simpa using hr.nodup.length_le_card
  rw [unused, hr.walk_prev _ hlen] at hb
  simpa using List.find?_some hb

/-- The buffer that `bget` recycles is the one nearest to the tail of the list
among those without references. -/
theorem Inv.unused_nearest (h : Inv s) (hb : unused s = some b) :
    (s.buf b).refcnt = 0 ∧ ∃ k < NBUF, s.links.prev^[k + 1] none = some b ∧
      ∀ j < k, ∀ c, s.links.prev^[j + 1] none = some c → (s.buf c).refcnt ≠ 0 := by
  refine ⟨h.unused_eq_some hb, ?_⟩
  obtain ⟨l, hr, -⟩ := h.ring
  have hlen : l.length ≤ NBUF := by simpa using hr.nodup.length_le_card
  rw [unused, hr.walk_prev _ hlen, List.find?_eq_some_iff_getElem] at hb
  obtain ⟨-, k, hk, hkb, hbefore⟩ := hb
  rw [length_reverse] at hk
  refine ⟨k, by omega, ?_, fun j hj c hc => ?_⟩
  · rw [hr.prev_iterate (by omega), List.getElem?_eq_getElem (by rwa [length_reverse]), hkb]
  · rw [hr.prev_iterate (by omega), List.getElem?_eq_getElem (by rw [length_reverse]; omega)] at hc
    have := hbefore j hj
    rw [some.inj hc] at this
    simpa using this

/-- The log pins or unpins the buffer `b`, which a process has. -/
theorem Inv.pin (h : Inv s) (hhold : (s.buf b).holder = some p) (hd : x.dev = (s.buf b).dev)
    (hb : x.blockno = (s.buf b).blockno) (hh : x.holder = (s.buf b).holder) (hlog : Log.Inv g)
    (hother : ∀ blk ≠ (s.buf b).blockno, Pinned g blk ↔ Pinned s.log blk)
    (href : x.refcnt + (if Pinned s.log (s.buf b).blockno then 1 else 0) =
      (s.buf b).refcnt + if Pinned g (s.buf b).blockno then 1 else 0) :
    Inv ({ s with log := g }.setBuf b x) ∧ SameBlocks s ({ s with log := g }.setBuf b x) := by
  have hdev := h.dev_of_holder hhold
  have hsame : SameBlocks s ({ s with log := g }.setBuf b x) := sameBlocks_setBuf (s := { s with log := g }) hd hb
  refine ⟨h.keep hlog h.ring hsame (fun c => ?_) (fun c h0 hc => ?_) fun blk hblk => ?_, hsame⟩
  · by_cases hc : c = b
    · subst hc
      simp only [users, pins, setBuf, update_self, hd, hb, hh, hdev, true_and]
      omega
    · -- another buffer has another block
      have hpin : (s.buf c).dev = ROOTDEV ∧ Pinned g (s.buf c).blockno ↔
          (s.buf c).dev = ROOTDEV ∧ Pinned s.log (s.buf c).blockno :=
        and_congr_right fun hcd => hother _ fun hbc => hc (h.uniq c b hcd hdev hbc)
      simp only [users, pins, setBuf, update_of_ne hc, hpin]
  · by_cases hcb : c = b
    · exact hcb ▸ hdev
    · simp only [setBuf, update_of_ne hcb] at hc
      exact absurd h0 hc
  · by_cases hbb : blk = (s.buf b).blockno
    · exact .inr ⟨b, hdev, hbb.symm⟩
    · exact .inl ((hother blk hbb).mp hblk)

variable [DecidableEq P]

/-- A process takes or drops a reference to `b`, and moves on. -/
theorem Inv.move (h : Inv s) {y : At} {k : Links (Fin NBUF)} (hring : ∃ l, Ring k l ∧ ∀ b, b ∈ l)
    (hd : x.dev = (s.buf b).dev) (hb : x.blockno = (s.buf b).blockno)
    (hon : ∀ c ≠ b, (s.pc p).buf ≠ some c ∧ y.buf ≠ some c)
    (href : x.refcnt + (if (s.buf b).holder.isSome then 1 else 0) + (if (s.pc p).buf = some b then 1 else 0) =
      (s.buf b).refcnt + (if x.holder.isSome then 1 else 0) + if y.buf = some b then 1 else 0)
    (hheld : (s.buf b).refcnt = 0 → x.refcnt ≠ 0 → (s.buf b).dev = ROOTDEV) :
    Inv { (s.setBuf b x).setPc p y with links := k } ∧
      SameBlocks s { (s.setBuf b x).setPc p y with links := k } := by
  have hsame : SameBlocks s { (s.setBuf b x).setPc p y with links := k } := sameBlocks_setBuf (s := s) hd hb
  refine ⟨h.keep h.log hring hsame (fun c => ?_) (fun c h0 hc => ?_) fun blk hblk => .inl hblk, hsame⟩
  · have hcount := count_update s.pc p y c
    by_cases hc : c = b
    · subst hc
      simp only [users, pins, setPc, setBuf, update_self, hd, hb]
      omega
    · rw [if_neg (hon c hc).1, if_neg (hon c hc).2] at hcount
      simp only [users, pins, setPc, setBuf, update_of_ne hc]
      omega
  · by_cases hcb : c = b
    · subst hcb
      simp only [setPc, setBuf, update_self] at hc
      exact hheld h0 hc
    · simp only [setPc, setBuf, update_of_ne hcb] at hc
      exact absurd h0 hc

theorem Inv.acquiresleep (h : Inv s) (hp : s.pc p = .waiting b) (hb : (s.buf b).holder = none) :
    Inv (acquiresleep s p b) ∧ SameBlocks s (acquiresleep s p b) := by
  refine h.move h.ring rfl rfl (fun c hc => ?_) ?_ fun h0 hc => absurd h0 hc
  · simp [hp, At.buf, hc.symm]
  · simp [hp, hb, At.buf]

theorem Inv.releasesleep (h : Inv s) (hp : s.pc p = .run) (hb : (s.buf b).holder = some p) :
    Inv (releasesleep s p b) ∧ SameBlocks s (releasesleep s p b) := by
  refine h.move h.ring rfl rfl (fun c hc => ?_) ?_ fun h0 hc => absurd h0 hc
  · simp [hp, At.buf, hc.symm]
  · simp [hp, hb, At.buf]

theorem Inv.brelse (h : Inv s) (hp : s.pc p = .releasing b) : Inv (brelse s p b) ∧ SameBlocks s (brelse s p b) := by
  -- the process itself has a reference
  have hpos : (s.buf b).refcnt ≠ 0 := by
    have hcount : 0 < count s.pc b := Finset.card_pos.mpr ⟨p, Finset.mem_filter.mpr ⟨Finset.mem_univ p, by rw [hp]; rfl⟩⟩
    have := h.refcnt b
    simp only [users] at this
    omega
  let x := { s.buf b with refcnt := (s.buf b).refcnt - 1 }
  have hmove : ∀ k, (∃ l, Ring k l ∧ ∀ b, b ∈ l) → Inv { (s.setBuf b x).setPc p .run with links := k } ∧
      SameBlocks s { (s.setBuf b x).setPc p .run with links := k } := by
    intro k hk
    refine h.move hk rfl rfl (fun c hc => ?_) ?_ fun h0 => absurd h0 hpos
    · simp [hp, At.buf, hc.symm]
    · simp only [x, hp, At.buf, if_true, reduceCtorEq, if_false]
      omega
  unfold Bio.brelse
  dsimp only
  split
  · refine hmove _ ?_
    obtain ⟨l, hr, hl⟩ := h.ring
    obtain ⟨l1, l2, rfl⟩ := append_of_mem (hl b)
    refine ⟨_, hr.moveFront, fun c => ?_⟩
    have := hl c
    simp only [mem_append, mem_cons] at this ⊢
    tauto
  · exact hmove _ h.ring

theorem Inv.bget (h : Inv s) (hp : s.pc p = .run) (hs : bget s p ROOTDEV blockno = some s') :
    Inv s' ∧ ∀ c, ((s'.buf c).dev = (s.buf c).dev ∧ (s'.buf c).blockno = (s.buf c).blockno) ∨ unused s = some c := by
  unfold Bio.bget at hs
  split at hs
  · next b hb =>
    obtain rfl := some.inj hs
    obtain ⟨hd, -⟩ := h.lookup_eq_some hb
    refine And.imp_right (fun hsame c => .inl (hsame c)) (h.move h.ring rfl rfl (fun c hc => ?_) ?_ fun _ _ => hd)
    · simp [hp, At.buf, hc.symm]
    · simp only [hp, At.buf, if_true, reduceCtorEq, if_false]
      omega
  next hnone =>
  have hnot := h.lookup_eq_none hnone
  split at hs
  · next b hb =>
    obtain rfl := some.inj hs
    have h0 := h.unused_eq_some hb
    have hrefs := h.refcnt b
    have hpin : ∀ blk, Pinned s.log blk → ∃ c ≠ b, (s.buf c).dev = ROOTDEV ∧ (s.buf c).blockno = blk := by
      intro blk hblk
      obtain ⟨c, hd, rfl⟩ := h.pinned blk hblk
      refine ⟨c, fun hc => ?_, hd, rfl⟩
      subst hc
      rw [pins, if_pos ⟨hd, hblk⟩] at hrefs
      omega
    refine ⟨⟨h.log, h.ring, fun c d => ?_, fun c => ?_, fun c => ?_, fun blk hblk => ?_⟩, fun c => ?_⟩
    · have hcd := h.uniq c d
      have hc := hnot c
      have hd := hnot d
      simp only [setPc, setBuf, update_apply]
      split <;> split <;> grind
    · have hc := h.held c
      simp only [setPc, setBuf, update_apply]
      split <;> grind
    · have hcount := count_update s.pc p (.waiting b) c
      simp only [hp, At.buf, reduceCtorEq, if_false, some.injEq] at hcount
      have hc := h.refcnt c
      by_cases hcb : c = b
      · subst hcb
        have hno : ¬ Pinned s.log blockno := fun hpi => by
          obtain ⟨d, -, hd⟩ := hpin blockno hpi
          exact hnot d hd
        rw [if_pos rfl] at hcount
        simp only [users] at hc
        simp only [users, pins, setPc, setBuf, update_self, hno, and_false, if_false]
        omega
      · rw [if_neg (Ne.symm hcb)] at hcount
        simp only [users, pins, setPc, setBuf, update_of_ne hcb] at hc ⊢
        omega
    · obtain ⟨c, hne, hd, hc⟩ := hpin blk hblk
      exact ⟨c, by simpa only [setPc, setBuf, update_of_ne hne] using ⟨hd, hc⟩⟩
    · by_cases hcb : c = b
      · exact .inr (hcb ▸ hb)
      · exact .inl (by simp only [setPc, setBuf, update_of_ne hcb, and_self])
  · cases hs

theorem Inv.logWrite (h : Inv s) (hhold : (s.buf b).holder = some p) (hs : logWrite s p b = some s') :
    Inv s' ∧ SameBlocks s s' := by
  simp only [Bio.logWrite, bind_eq_bind, bind_eq_some_iff] at hs
  obtain ⟨g, hg, hs⟩ := hs
  obtain ⟨hp, hg'⟩ : s.log.pc p = .inOp ∧ g = Log.logWrite s.log p (s.buf b).blockno := by
    simpa using (Log.step_cases hg).2
  split at hs
  · next hpan =>
    obtain rfl := some.inj hs
    exact h.same ⟨rfl, rfl, fun c => ⟨rfl, rfl, rfl, rfl⟩⟩ (h.log.step hg) fun blk => pinned_panic hg hpan
  · next hpan =>
    obtain rfl := some.inj hs
    have hpin : ∀ blk, Pinned g blk ↔ blk = (s.buf b).blockno ∨ Pinned s.log blk := fun blk =>
      pinned_logWrite h.log hg (by simpa using hpan)
    refine h.pin hhold rfl rfl rfl (h.log.step hg) (fun blk hne => ?_) ?_
    · rw [hpin, or_iff_right hne]
    · rw [if_pos ((hpin _).mpr (.inl rfl))]
      have hlogged : Pinned s.log (s.buf b).blockno ↔ Logged s.log.lh (s.buf b).blockno :=
        pinned_iff_logged h.log (h.log.not_committing hp)
      by_cases hl : Logged s.log.lh (s.buf b).blockno
      · rw [if_pos (hlogged.mpr hl), if_neg (Nat.ne_of_lt (Log.absorb_of_logged hl).1)]
      · rw [if_neg fun hc => hl (hlogged.mp hc), if_pos (Log.absorb_of_not_logged hl)]

theorem Inv.install (h : Inv s) (hp : s.log.pc p = .commit (.install tail))
    (ht : tail < s.log.lh.n) (hhold : (s.buf b).holder = some p) (hb : (s.buf b).blockno = s.log.lh.block tail)
    (hs : install s p lbuf b = some s') : Inv s' ∧ SameBlocks s s' := by
  obtain ⟨g, hg, rfl⟩ := install_eq_some hs
  have hpins : ∀ blk, Pinned g blk ↔ Pinned s.log blk ∧ blk ≠ (s.buf b).blockno := fun blk =>
    hb ▸ (pinned_install h.log hp ht hg).2 blk
  have hpin : Pinned s.log (s.buf b).blockno := hb ▸ (pinned_install h.log hp ht hg).1
  have hpos : 0 < (s.buf b).refcnt := by
    rw [h.refcnt, users, hhold]
    simp
  obtain ⟨hinv, hblocks⟩ := h.pin (x := { s.buf b with data := (s.buf lbuf).data, refcnt := (s.buf b).refcnt - 1 })
    hhold rfl rfl rfl (h.log.step hg)
    (fun blk hne => by rw [hpins, and_iff_left hne])
    (by
      rw [if_pos hpin, if_neg fun hc => ((hpins _).mp hc).2 rfl]
      show (s.buf b).refcnt - 1 + 1 = _
      omega)
  exact ⟨⟨hinv.log, hinv.ring, hinv.uniq, hinv.held, hinv.refcnt, hinv.pinned⟩, hblocks⟩

/-- The steps of `commit` that write data only. -/
theorem Inv.commitData (h : Inv s) {data : Block} (hg : Log.step s.log (.commit p) = some g)
    (hp : ∀ tail, s.log.pc p = .commit (.install tail) → s.log.lh.n ≤ tail) :
    Inv { s.bwrite b data with log := g } ∧ SameBlocks s { s.bwrite b data with log := g } := by
  refine h.same ⟨rfl, rfl, fun c => ?_⟩ (h.log.step hg) fun blk => pinned_plain hg (by simp) fun q tail hq => ?_
  · obtain ⟨hd, hb, hr, hh⟩ := (sameRefs_setBuf (s := s) (b := b) (x := { s.buf b with data := data })
      rfl rfl rfl rfl).buf c
    exact ⟨hd, hb, hr, hh⟩
  · obtain rfl := Log.Act.commit.inj hq
    exact hp tail

variable {L : Area} {a : Act P}

/-- A step keeps the invariant, and the blocks of the buffers unless it is `bget`. -/
theorem Inv.step (h : Inv s) (hs : step L s a = some s') :
    Inv s' ∧ ((∃ p blockno, a = .bget p blockno) ∨ SameBlocks s s') := by
  by_cases hget : ∃ p blockno, a = .bget p blockno
  · obtain ⟨p, blockno, rfl⟩ := hget
    obtain ⟨-, hp, hs⟩ : _ ∧ s.pc p = .run ∧ Bio.bget s p ROOTDEV blockno = some s' := by
      simpa only [Bio.step, ite_none_left_eq_some, ite_none_right_eq_some] using hs
    exact ⟨(h.bget hp hs).1, .inl ⟨p, blockno, rfl⟩⟩
  refine And.imp_right .inr ?_
  unfold Bio.step at hs
  split at hs
  · cases hs
  cases a with
  | bget p blockno => exact absurd ⟨p, blockno, rfl⟩ hget
  | acquiresleep p b =>
    obtain ⟨⟨hp, hb⟩, rfl⟩ := ite_some_none_eq_some.mp hs
    exact h.acquiresleep hp hb
  | bread p b =>
    obtain ⟨-, rfl⟩ := ite_some_none_eq_some.mp hs
    unfold bread
    split <;> exact h.same (sameRefs_setBuf rfl rfl rfl rfl) h.log fun _ => Iff.rfl
  | change p b data | copyin p b off m vs =>
    obtain ⟨-, rfl⟩ := ite_some_none_eq_some.mp hs
    exact h.same (sameRefs_setBuf rfl rfl rfl rfl) h.log fun _ => Iff.rfl
  | logWrite p b =>
    simp only [ite_none_right_eq_some] at hs
    obtain ⟨⟨-, hb, -⟩ | ⟨-, hb, -⟩, hs⟩ := hs <;> exact h.logWrite hb hs
  | writeLog p lbuf dbuf =>
    dsimp only at hs
    split at hs
    · next tail hp =>
      simp only [ite_none_right_eq_some, writeLog, bind_eq_bind, bind_eq_some_iff, some.injEq] at hs
      obtain ⟨-, g, hg, rfl⟩ := hs
      exact h.commitData hg (by simp [hp])
    · cases hs
  | writeHead p b =>
    simp only [ite_none_right_eq_some, writeHead, bind_eq_bind, bind_eq_some_iff, some.injEq] at hs
    obtain ⟨⟨hp, -⟩, g, hg, rfl⟩ := hs
    refine h.commitData hg ?_
    obtain hp | hp := hp <;> simp [hp]
  | install p lbuf dbuf =>
    dsimp only at hs
    split at hs
    · next tail hp =>
      simp only [ite_none_right_eq_some] at hs
      obtain ⟨⟨ht, -, -, ⟨-, hb, -⟩, -, hblk⟩, hs⟩ := hs
      exact h.install hp ht hb hblk hs
    · cases hs
  | recover p b data =>
    obtain ⟨-, rfl⟩ := ite_some_none_eq_some.mp hs
    have hsame := sameRefs_setBuf (s := s) (b := b) (x := { s.buf b with data := data }) rfl rfl rfl rfl
    exact h.same ⟨rfl, rfl, hsame.buf⟩ h.log fun _ => Iff.rfl
  | initlog =>
    obtain rfl := some.inj hs
    exact h.same ⟨rfl, rfl, fun c => ⟨rfl, rfl, rfl, rfl⟩⟩ h.log fun _ => Iff.rfl
  | log a =>
    simp only [ite_none_right_eq_some, map_eq_some_iff] at hs
    obtain ⟨⟨-, ha⟩, g, hg, rfl⟩ := hs
    refine h.same ⟨rfl, rfl, fun c => ⟨rfl, rfl, rfl, rfl⟩⟩ (h.log.step hg) fun blk => pinned_plain hg ?_ ?_
    · rintro p blockno rfl
      exact ha
    · rintro p tail rfl hp
      exact ha.2.2.2 tail (by rw [hp]; rfl)
  | releasesleep p b =>
    simp only [ite_none_right_eq_some, some.injEq] at hs
    obtain ⟨⟨hp, hb, -⟩ | ⟨hp, hb, -⟩, rfl⟩ := hs <;> exact h.releasesleep hp hb
  | brelse p b =>
    obtain ⟨hp, rfl⟩ := ite_some_none_eq_some.mp hs
    exact h.brelse hp

theorem inv_run {size : Int} {disk : BlockNo → Block} {as : List (Act P)}
    (h : Run (step L) (initial P size disk) as s) : Inv s :=
  h.invariant (inv_initial size disk) fun h hs => (h.step hs).1

/-- One process logs block 40 and ends its operation. -/
def logOne : List (Act (Fin 1)) :=
  [.initlog, .log (.beginOp 0), .bget 0 40, .acquiresleep 0 0, .bread 0 0, .change 0 0 fun _ => 1, .logWrite 0 0,
    .releasesleep 0 0, .brelse 0 0, .log (.endOp 0)]

/-- Its `commit`, up to the `bunpin` of the block. -/
def installOne : List (Act (Fin 1)) :=
  [.log (.commit 0), .bget 0 3, .acquiresleep 0 1, .bread 0 1, .bget 0 40, .acquiresleep 0 0, .bread 0 0,
    .writeLog 0 1 0, .releasesleep 0 0, .brelse 0 0, .releasesleep 0 1, .brelse 0 1, .log (.commit 0),
    .bget 0 2, .acquiresleep 0 2, .bread 0 2, .writeHead 0 2, .releasesleep 0 2, .brelse 0 2,
    .bget 0 3, .acquiresleep 0 1, .bread 0 1, .bget 0 40, .acquiresleep 0 0, .bread 0 0, .install 0 1 0]

end Xv6.Bio
