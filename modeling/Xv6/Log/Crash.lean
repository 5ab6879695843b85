import Xv6.Log.Commit

/-!
# Crash atomicity of the log

A crash keeps the disk as some prefix of the writes left it, and the machine
then runs `recover_from_log`, which may itself be cut short, any number of
times. Relative to one transaction, whose blocks would change the disk from
`old` to `new`, the disk is always in one of three phases:

* `Pending`: the header names no blocks, and no home block has changed;
* `Committed`: the header and the log hold the whole transaction, and each
  home block is as before or as after it;
* `Installed`: the header names no blocks, and all home blocks are new.

`commit_phase` says which phase a cut commit leaves, `crash_phase` that a cut
recovery only moves forward, and `recover_phase` that a complete one ends
`Pending` or `Installed`.
-/

namespace Xv6.Log

open Xv6.Framework Function List

/-- The disk with all blocks logged by `lh` replaced by their cached
contents. -/
def committedDisk (lh : LogHeader) (d : Dev) : BlockNo → Block := fun b =>
  if Logged lh b then view d b else d.disk b

/-- The disk `disk` after a crash during a recovery from it. -/
def CrashRecover (L : Area) (disk disk' : BlockNo → Block) : Prop :=
  ∃ (e : Env) (lh : LogHeader) (ws : List (BlockNo × Block)),
    ws <+: (recoverFromLog e L lh (reboot disk)).writes ∧ disk' = applyWrites disk ws

section Phases

variable (L : Area) (lh : LogHeader) (old new : BlockNo → Block)

/-- The transaction has not happened. -/
structure Pending (x : BlockNo → Block) : Prop where
  head : headN (x L.start) = 0
  home : ∀ b, ¬ L.Region b → x b = old b

/-- The transaction is in the log, and maybe in part at home. -/
structure Committed (x : BlockNo → Block) : Prop where
  head : headN (x L.start) = lh.n
  headBlock : ∀ i < lh.n, headBlock (x L.start) i = lh.block i
  log : ∀ i < lh.n, x (L.logBlock i) = new (lh.block i)
  home : ∀ b, ¬ L.Region b → x b = new b ∨ Logged lh b

/-- The transaction is at home, and no longer in the log. -/
structure Installed (x : BlockNo → Block) : Prop where
  head : headN (x L.start) = 0
  home : ∀ b, ¬ L.Region b → x b = new b

end Phases

variable {L : Area} {lh : LogHeader} {old new x x' : BlockNo → Block} {ws : List (BlockNo × Block)} {b : BlockNo}

theorem mem_homeWrites {data : Nat → Block} :
    b ∈ (homeWrites lh data).map Prod.fst ↔ Logged lh b := by
  simp [homeWrites, Logged]

theorem homeWrites_follows (f : BlockNo → Block) : Follows f (homeWrites lh fun i => f (lh.block i)) := by
  intro w hw
  obtain ⟨i, -, rfl⟩ := mem_map.mp hw
  rfl

/-- A prefix of the home writes of a committed transaction leaves it
committed. -/
theorem Committed.install (hf : Fits L lh) (h : Committed L lh new x)
    (hws : ws <+: homeWrites lh fun i => new (lh.block i)) : Committed L lh new (applyWrites x ws) := by
  have hlog : ∀ b ∈ ws.map Prod.fst, Logged lh b := fun b hb =>
    mem_homeWrites.mp ((hws.map Prod.fst).subset hb)
  have hkeep : ∀ b, L.Region b → applyWrites x ws b = x b := fun b hr =>
    applyWrites_of_not_mem (fun hb => by
      obtain ⟨i, hi, rfl⟩ := hlog b hb
      exact hf.outside i hi hr) x
  have hs := hkeep L.start (L.start_region hf.n_lt)
  refine ⟨by rw [hs]; exact h.head, fun i hi => by rw [hs]; exact h.headBlock i hi, fun i hi => ?_, ?_⟩
  · rw [hkeep _ (L.logBlock_region (by have := hf.n_lt; omega))]; exact h.log i hi
  · intro b hb
    have hfol : Follows new ws := fun w hw => homeWrites_follows new w (hws.subset hw)
    rw [applyWrites_follows hfol]
    split
    · exact .inl rfl
    · exact h.home b hb

/-- All the home writes of a committed transaction, and then an empty header,
install it. -/
theorem Committed.finish (hf : Fits L lh) (h : Committed L lh new x) {hb0 : Block} (h0 : headN hb0 = 0) :
    Installed L new
      (applyWrites x ((homeWrites lh fun i => new (lh.block i)) ++ [(L.start, hb0)])) := by
  rw [applyWrites_append, applyWrites_singleton]
  refine ⟨by rw [update_self]; exact h0, fun b hb => ?_⟩
  have hne : b ≠ L.start := fun e => hb (e ▸ L.start_region hf.n_lt)
  rw [update_of_ne hne, applyWrites_follows (homeWrites_follows new)]
  split
  · rfl
  · rename_i hm
    exact (h.home b hb).resolve_right fun hl => hm (mem_homeWrites.mpr hl)

/-- A header that names no blocks: recovery writes only the header. -/
theorem recover_empty (hsz : 1 ≤ L.size) (hx : headN (x L.start) = 0) (e : Env) (lh0 : LogHeader) :
    ∃ hb0, Emits (reboot x) (recoverFromLog e L lh0 (reboot x)) [(L.start, hb0)] ∧ headN hb0 = 0 := by
  have := recoverFromLog_emits e (L := L) lh0 x ⟨0, fun _ => 0⟩ hx.symm
    (fun i hi => absurd hi (Nat.not_lt_zero i))
    ⟨Nat.zero_le _, hsz, fun i hi => absurd hi (Nat.not_lt_zero i)⟩
  simpa [homeWrites] using this

/-- The header of a committed transaction: recovery installs it. -/
theorem Committed.recover (hf : Fits L lh) (h : Committed L lh new x) (e : Env) (lh0 : LogHeader) :
    ∃ hb0, Emits (reboot x) (recoverFromLog e L lh0 (reboot x))
        ((homeWrites lh fun i => new (lh.block i)) ++ [(L.start, hb0)]) ∧ headN hb0 = 0 := by
  have := recoverFromLog_emits e lh0 x lh h.head.symm (fun i hi => (h.headBlock i hi).symm) hf
  have hw : homeWrites lh (fun i => x (L.logBlock i)) = homeWrites lh fun i => new (lh.block i) :=
    map_congr_left fun i hi => by simp only [h.log i (mem_range.mp hi)]
  rwa [hw] at this

/-- A prefix of a single write is nothing or that write. -/
theorem prefix_singleton {α : Type} {l : List α} {a : α} (h : l <+: [a]) : l = [] ∨ l = [a] := by
  rcases prefix_concat_iff.mp (show l <+: [] ++ [a] from h) with h | h
  · exact .inr h
  · exact .inl (prefix_nil.mp h)

theorem Area.ne_start {n : Nat} (hsz : n + 1 ≤ L.size) (hb : ¬ L.Region b) : b ≠ L.start :=
  fun e => hb (e ▸ L.start_region hsz)

/-- A recovery that finds an empty header, cut short or not, changes at most
the header, and leaves it empty. -/
theorem recover_empty_prefix (hsz : 1 ≤ L.size) (hx : headN (x L.start) = 0) (e : Env) (lh0 : LogHeader)
    (hws : ws <+: (recoverFromLog e L lh0 (reboot x)).writes) :
    headN (applyWrites x ws L.start) = 0 ∧ ∀ b, ¬ L.Region b → applyWrites x ws b = x b := by
  obtain ⟨hb0, he, h0⟩ := recover_empty hsz hx e lh0
  rw [show (recoverFromLog e L lh0 (reboot x)).writes = [(L.start, hb0)] from he.1] at hws
  rcases prefix_singleton hws with rfl | rfl
  · exact ⟨hx, fun _ _ => rfl⟩
  · rw [applyWrites_singleton]
    exact ⟨by rw [update_self]; exact h0,
      fun b hb => update_of_ne (Area.ne_start (n := 0) hsz hb) _ _⟩

variable (old new) in
/-- A crash during recovery: a pending transaction stays pending, and a
committed one stays committed or gets installed. -/
theorem crash_phase (hf : Fits L lh) (hc : CrashRecover L x x') :
    (Pending L old x → Pending L old x') ∧
      (Committed L lh new x ∨ Installed L new x → Committed L lh new x' ∨ Installed L new x') := by
  obtain ⟨e, lh0, ws, hws, rfl⟩ := hc
  have hsz : 1 ≤ L.size := by have := hf.n_lt; omega
  refine ⟨fun hp => ?_, ?_⟩
  · obtain ⟨h1, h2⟩ := recover_empty_prefix hsz hp.head e lh0 hws
    exact ⟨h1, fun b hb => (h2 b hb).trans (hp.home b hb)⟩
  · rintro (h | h)
    · obtain ⟨hb0, he, h0⟩ := h.recover hf e lh0
      rw [he.1] at hws
      rcases prefix_append_cases (show ws <+: _ ++ [(L.start, hb0)] from hws) with hp | ⟨ws', rfl, hp⟩
      · exact .inl (h.install hf hp)
      · rcases prefix_singleton hp with rfl | rfl
        · rw [append_nil]; exact .inl (h.install hf (prefix_refl _))
        · exact .inr (h.finish hf h0)
    · obtain ⟨h1, h2⟩ := recover_empty_prefix hsz h.head e lh0 hws
      exact .inr ⟨h1, fun b hb => (h2 b hb).trans (h.home b hb)⟩

variable (new) in
theorem recoverFromLog_disk (hf : Fits L lh) (e : Env) (lh0 : LogHeader)
    (h : headN (x L.start) = 0 ∨ Committed L lh new x) :
    (recoverFromLog e L lh0 (reboot x)).disk =
      applyWrites x (recoverFromLog e L lh0 (reboot x)).writes := by
  rcases h with hx | h
  · obtain ⟨_, he, -⟩ := recover_empty (by have := hf.n_lt; omega) hx e lh0
    rw [he.2, he.1]; rfl
  · obtain ⟨_, he, -⟩ := h.recover hf e lh0
    rw [he.2, he.1]; rfl

variable (old new) in
/-- A complete recovery: a pending transaction stays pending, and any other
ends installed. -/
theorem recover_phase (hf : Fits L lh) (e : Env) (lh0 : LogHeader) :
    (Pending L old x → Pending L old (recoverFromLog e L lh0 (reboot x)).disk) ∧
      (Committed L lh new x ∨ Installed L new x →
        Installed L new (recoverFromLog e L lh0 (reboot x)).disk) := by
  have hsz : 1 ≤ L.size := by have := hf.n_lt; omega
  refine ⟨fun hp => ?_, ?_⟩
  · obtain ⟨h1, h2⟩ := recover_empty_prefix hsz hp.head e lh0 (prefix_refl _)
    rw [recoverFromLog_disk old hf e lh0 (.inl hp.head)]
    exact ⟨h1, fun b hb => (h2 b hb).trans (hp.home b hb)⟩
  · rintro (h | h)
    · obtain ⟨hb0, he, h0⟩ := h.recover hf e lh0
      rw [he.2]; exact h.finish hf h0
    · obtain ⟨h1, h2⟩ := recover_empty_prefix hsz h.head e lh0 (prefix_refl _)
      rw [recoverFromLog_disk new hf e lh0 (.inl h.head)]
      exact ⟨h1, fun b hb => (h2 b hb).trans (h.home b hb)⟩

/-- The log's blocks written, and the header after them: the transaction is
committed. -/
theorem committed_of_header (hf : Fits L lh) (hnew : ∀ b, ¬ Logged lh b → new b = x b) {hb : Block}
    (hhn : headN hb = lh.n) (hhb : ∀ i < lh.n, headBlock hb i = lh.block i) :
    Committed L lh new (applyWrites x (logWrites L lh new ++ [(L.start, hb)])) := by
  have hn := hf.n_le
  rw [applyWrites_append, applyWrites_singleton]
  refine ⟨by rw [update_self]; exact hhn,
    fun i hi => by rw [update_self]; exact hhb i hi, fun i hi => ?_, fun b hb' => ?_⟩
  · rw [update_of_ne (L.logBlock_ne_start (by omega))]
    -- the log's blocks are distinct, so each holds what was written to it
    let f : BlockNo → Block := fun b =>
      if h : ∃ j < lh.n, L.logBlock j = b then new (lh.block h.choose) else x b
    have hfol : Follows f (logWrites L lh new) := by
      intro w hw
      obtain ⟨j, hj, rfl⟩ := mem_map.mp hw
      have hex : ∃ k < lh.n, L.logBlock k = L.logBlock j := ⟨j, mem_range.mp hj, rfl⟩
      have := L.logBlock_inj (by have := hex.choose_spec.1; omega)
        (by have := mem_range.mp hj; omega) hex.choose_spec.2
      simp only [f, dif_pos hex, this]
    have hex : ∃ k < lh.n, L.logBlock k = L.logBlock i := ⟨i, hi, rfl⟩
    have hci := L.logBlock_inj (by have := hex.choose_spec.1; omega) (by omega) hex.choose_spec.2
    rw [applyWrites_follows hfol, if_pos (by simp [logWrites]; exact ⟨i, hi, rfl⟩)]
    simp only [f, dif_pos hex, hci]
  · have hne : b ≠ L.start := fun e => hb' (e ▸ L.start_region hf.n_lt)
    rw [update_of_ne hne, applyWrites_of_not_mem]
    · by_cases hl : Logged lh b
      · exact .inr hl
      · exact .inl (hnew b hl).symm
    · simp only [logWrites, map_map, mem_map, mem_range, not_exists, not_and]
      rintro i hi rfl
      exact hb' (L.logBlock_region (by have := hf.n_lt; omega))

theorem mem_logWrites :
    b ∈ (logWrites L lh new).map Prod.fst ↔ ∃ i < lh.n, L.logBlock i = b := by
  simp [logWrites]

/-- Writes to the log proper alone leave the transaction pending. -/
theorem pending_of_logWrites (hf : Fits L lh) (h0 : headN (x L.start) = 0) (hws : ws <+: logWrites L lh new) :
    L.start ∉ ws.map Prod.fst ∧ Pending L x (applyWrites x ws) := by
  have hkeys : ∀ b ∈ ws.map Prod.fst, ∃ i < lh.n, L.logBlock i = b := fun b hb =>
    mem_logWrites.mp ((hws.map Prod.fst).subset hb)
  have hs : L.start ∉ ws.map Prod.fst := fun hm => by
    obtain ⟨i, hi, e⟩ := hkeys _ hm
    exact L.logBlock_ne_start (by have := hf.n_le; omega) e
  refine ⟨hs, by rw [applyWrites_of_not_mem hs]; exact h0, fun b hb => ?_⟩
  refine applyWrites_of_not_mem (fun hm => ?_) x
  obtain ⟨i, hi, rfl⟩ := hkeys _ hm
  exact hb (L.logBlock_region (by have := hf.n_lt; omega))

/-- The writes of a commit. -/
def commitWrites (e : Env) (L : Area) (lh : LogHeader) (d : Dev) : List (BlockNo × Block) :=
  (commit e L lh { d with writes := [] }).writes

/-- A crash during a commit leaves the transaction pending, unless the header
was written; then it is committed or installed. -/
theorem commit_phase {e : Env} {d : Dev} (hf : Fits L lh)
    (hd : ∀ i < lh.n, Holds d (lh.block i) (new (lh.block i))) (hnew : ∀ b, ¬ Logged lh b → new b = d.disk b)
    (h0 : headN (d.disk L.start) = 0) (hws : ws <+: commitWrites e L lh d) :
    (L.start ∉ ws.map Prod.fst ∧ Pending L d.disk (applyWrites d.disk ws)) ∨
      Committed L lh new (applyWrites d.disk ws) ∨ Installed L new (applyWrites d.disk ws) := by
  rcases Nat.eq_zero_or_pos lh.n with hn | hn
  · rw [commitWrites, commit_zero e L _ hn] at hws
    rw [prefix_nil.mp hws]
    exact .inl ⟨by simp, h0, fun _ _ => rfl⟩
  obtain ⟨hb, hb0, he, hhn, hhb, hn0⟩ := commit_emits (e := e) (d := { d with writes := [] }) hf
    (fun i hi => ⟨(hd i hi).view_eq, (hd i hi).kept⟩) hn
  rw [commitWrites, he.1, nil_append] at hws
  rcases prefix_append_cases hws with h1 | ⟨ws1, rfl, h1⟩
  · exact .inl (pending_of_logWrites hf h0 h1)
  have hcom := committed_of_header (L := L) (x := d.disk) hf hnew hhn hhb
  rw [cons_append] at h1
  rcases prefix_append_cases (show ws1 <+: [(L.start, hb)] ++ _ from h1) with h2 | ⟨ws2, rfl, h2⟩
  · rcases prefix_singleton h2 with rfl | rfl
    · -- the log is written, but not its header
      rw [append_nil]
      exact .inl (pending_of_logWrites hf h0 (prefix_refl _))
    · exact .inr (.inl hcom)
  · right
    rw [← append_assoc, applyWrites_append]
    rcases prefix_append_cases h2 with h3 | ⟨ws3, rfl, h3⟩
    · exact .inl (hcom.install hf h3)
    · rcases prefix_singleton h3 with rfl | rfl
      · rw [append_nil]; exact .inl (hcom.install hf (prefix_refl _))
      · exact .inr (hcom.finish hf hn0)

/-- **Crash atomicity.** A commit on a disk whose log is empty is cut after
any prefix of its block writes, and the recoveries that follow are cut any
number of times after any prefix of theirs. A complete recovery then leaves
an empty header, and outside the log either the disk as it was before the
transaction or the disk with all logged blocks replaced by their cached
contents; the latter if the commit's first header write was made. -/
theorem commit_crash_atomic (e : Env) {L : Area} {lh : LogHeader} {d : Dev} (hf : Fits L lh)
    (hpin : ∀ i < lh.n, 0 < d.pins (lh.block i)) (h₀ : headN (d.disk L.start) = 0)
    {ws : List (BlockNo × Block)} (hws : ws <+: commitWrites e L lh d) {x : BlockNo → Block}
    (hx : Relation.ReflTransGen (CrashRecover L) (applyWrites d.disk ws) x) (e' : Env) (lh' : LogHeader) :
    let y := (recoverFromLog e' L lh' (reboot x)).disk
    headN (y L.start) = 0 ∧ ((∀ b, ¬ L.Region b → y b = d.disk b) ∨ (∀ b, ¬ L.Region b → y b = committedDisk lh d b)) ∧
      (L.start ∈ ws.map Prod.fst → ∀ b, ¬ L.Region b → y b = committedDisk lh d b) := by
  have hd : ∀ i < lh.n, Holds d (lh.block i) (committedDisk lh d (lh.block i)) := fun i hi =>
    ⟨by rw [committedDisk, if_pos ⟨i, hi, rfl⟩], .inl (hpin i hi)⟩
  have hnew : ∀ b, ¬ Logged lh b → committedDisk lh d b = d.disk b := fun b hb => by
    rw [committedDisk, if_neg hb]
  -- each crash of a recovery keeps the phase the cut commit left, or moves it forward
  have stays : (Pending L d.disk (applyWrites d.disk ws) → Pending L d.disk x) ∧
      (Committed L lh (committedDisk lh d) (applyWrites d.disk ws) ∨
          Installed L (committedDisk lh d) (applyWrites d.disk ws) →
        Committed L lh (committedDisk lh d) x ∨ Installed L (committedDisk lh d) x) := by
    induction hx with
    | refl => exact ⟨id, id⟩
    | tail _ hc ih =>
      obtain ⟨h1, h2⟩ := crash_phase d.disk (committedDisk lh d) hf hc
      exact ⟨fun h => h1 (ih.1 h), fun h => h2 (ih.2 h)⟩
  obtain ⟨hpend, hcom⟩ := recover_phase (x := x) d.disk (committedDisk lh d) hf e' lh'
  rcases commit_phase hf hd hnew h₀ hws with ⟨hs, hp⟩ | hc
  · have hy := hpend (stays.1 hp)
    exact ⟨hy.head, .inl hy.home, fun h => absurd h hs⟩
  · have hy := hcom (stays.2 hc)
    exact ⟨hy.head, .inr hy.home, fun _ => hy.home⟩

/-- One block, 40, logged with the contents `0x01…`, and the crash right after
the header write. -/
theorem commit_crash_atomic_one :
    let L : Area := ⟨2, 30⟩
    let lh : LogHeader := ⟨1, fun _ => 40⟩
    let d : Dev := ⟨fun _ _ => 0, fun b => if b = 40 then some fun _ => 1 else none,
      fun b => if b = 40 then 1 else 0, [], 0⟩
    let e : Env := fun _ _ => .evict
    let x := applyWrites d.disk ((commitWrites e L lh d).take 2)
    headN ((recoverFromLog e L lh (reboot x)).disk 2) = 0 ∧
      (recoverFromLog e L lh (reboot x)).disk 40 = fun _ => 1 := by
  intro L lh d e x
  have hout : ¬ L.Region 40 := by
    rintro ⟨i, hi, h⟩
    simp only [L] at hi h
    bv_omega
  have hf : Fits L lh := ⟨by decide, by decide, fun _ _ => hout⟩
  have hpin : ∀ i < lh.n, 0 < d.pins (lh.block i) := by decide
  have h0 : headN (d.disk L.start) = 0 := by decide
  obtain ⟨hh, -, hn⟩ := commit_crash_atomic e (d := d) hf hpin h0 ( take_prefix 2 _) .refl e lh
  exact ⟨hh, hn (by decide) 40 hout⟩

end Xv6.Log
