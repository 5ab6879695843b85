import Xv6.Fs.Shared

/-!
# Freeing and reusing an inode

`iput` gives up `itable.lock` while it frees an inode, and once its last
`iupdate` is done another process can get the inode number from `ialloc` and
share the table entry. `Inv` says who can see what: a process that frees an
inode has its lock and the only reference, an inode from `ialloc` is on disk as
`ialloc` left it, and a valid copy is that on disk unless its lock is held by a
process that frees it. `Inv.step` is the step, `inode_reuse` all runs.
-/

namespace Xv6.Fs.Shared

open Framework Function Finset Option State
open Log (BlockNo)

variable {P : Type}

/-- What holds in every reachable state. -/
structure Inv [Fintype P] (s : State P) : Prop where
  ref : ∀ e, s.ref e = ∑ p, s.refs p e
  uniq : ∀ e f, 0 < s.ref e → 0 < s.ref f → s.inum e = s.inum f → e = f
  held : ∀ p e, s.lock e = some p → Live s p e ∨ s.pc p = .release e
  inside : ∀ p e, Freeing (s.pc p) e ∨ s.pc p = .ilock e ∨ s.pc p = .release e → s.lock e = some p
  freeing : ∀ p e, Freeing (s.pc p) e → s.ref e = 1 ∧ (s.copy e).type ≠ 0 ∧ s.fresh p e = none
  dropping : ∀ p e, Dropping (s.pc p) e → s.refs p e = 1
  live : ∀ p e, Live s p e → (s.dinode (s.inum e)).type ≠ 0
  valid : ∀ p e, s.lock e = some p → s.pc p ≠ .ilock e → s.valid e = true
  data : ∀ e, s.valid e = true → 0 < s.ref e → Quiet s.pc e → s.copy e = s.dinode (s.inum e) ∧ (s.copy e).type ≠ 0
  scan : ∀ p type inum, s.pc p = .ialloc type inum → type ≠ 0
  alloc : ∀ p type inum, s.pc p = .iget type inum → type ≠ 0 ∧ s.dinode inum = .ofType type ∧
    (∀ q type', s.pc q = .iget type' inum → q = p) ∧ ∀ q e, Live s q e → s.inum e ≠ inum
  fresh : ∀ p e type, s.fresh p e = some type → type ≠ 0 ∧ Live s p e ∧ s.dinode (s.inum e) = .ofType type ∧
    ∀ q, Live s q e → q = p

variable [Fintype P] {s s' : State P} {p q : P} {e : Fin NINODE}

theorem Inv.refs_le (h : Inv s) (p : P) (e : Fin NINODE) : s.refs p e ≤ s.ref e := by
  rw [h.ref]
  exact single_le_sum_of_canonicallyOrdered (f := fun p => s.refs p e) (mem_univ p)

theorem Inv.refs_pos (h : Inv s) (hl : s.lock e = some p) : 0 < s.refs p e := by
  obtain hlive | hp := h.held p e hl
  · exact hlive.1
  · have := h.dropping p e (by rw [hp]; rfl)
    omega

theorem Inv.live_of_freeing (h : Inv s) (hp : Freeing (s.pc p) e) : Live s p e :=
  ⟨h.refs_pos (h.inside p e (.inl hp)), fun hd => not_freeing_dropping hd e hp⟩

/-- The inodes between `ialloc` and `iget`, when a step makes no reference and
leaves them alone on disk. -/
theorem Inv.allocs (h : Inv s) (hpc : ∀ q type inum, s'.pc q = .iget type inum → s.pc q = .iget type inum)
    (hlive : ∀ q f, Live s' q f → Live s q f) (hinum : s'.inum = s.inum)
    (hd : ∀ q type inum, s.pc q = .iget type inum → s'.dinode inum = s.dinode inum) (p : P) (type : Short)
    (inum : Nat) (hp : s'.pc p = .iget type inum) :
    type ≠ 0 ∧ s'.dinode inum = .ofType type ∧ (∀ q type', s'.pc q = .iget type' inum → q = p) ∧
      ∀ q e, Live s' q e → s'.inum e ≠ inum := by
  have hp' := hpc p type inum hp
  obtain ⟨h1, h2, h3, h4⟩ := h.alloc p type inum hp'
  refine ⟨h1, (hd p type inum hp').trans h2, fun q type' hq => h3 q type' (hpc q type' inum hq), fun q e hq => ?_⟩
  rw [hinum]
  exact h4 q e (hlive q e hq)

/-- The references from `ialloc`, when a step makes none and leaves their inodes
alone on disk. -/
theorem Inv.freshs (h : Inv s) (hfresh : ∀ q f type, s'.fresh q f = some type → s.fresh q f = some type)
    (hkeep : ∀ q f type, s'.fresh q f = some type → Live s q f →
      Live s' q f ∧ s'.dinode (s.inum f) = s.dinode (s.inum f))
    (hlive : ∀ q f, Live s' q f → Live s q f) (hinum : s'.inum = s.inum) (p : P) (e : Fin NINODE) (type : Short)
    (hp : s'.fresh p e = some type) :
    type ≠ 0 ∧ Live s' p e ∧ s'.dinode (s'.inum e) = .ofType type ∧ ∀ q, Live s' q e → q = p := by
  obtain ⟨h1, h2, h3, h4⟩ := h.fresh p e type (hfresh p e type hp)
  obtain ⟨hl, hd⟩ := hkeep p e type hp h2
  rw [hinum]
  exact ⟨h1, hl, hd.trans h3, fun q hq => h4 q (hlive q e hq)⟩

theorem Inv.iunlock (h : Inv s) (hp : s.pc p = .idle) (hl : s.lock e = some p) :
    Inv { s with lock := update s.lock e none } := by
  have hp' := Neutral.not (x := s.pc p) (by rw [hp]; trivial)
  refine ⟨h.ref, h.uniq, fun q f => ?_, fun q f => ?_, h.freeing, h.dropping, h.live, fun q f => ?_, h.data, h.scan,
    h.alloc, h.fresh⟩
  · have := h.held q f
    simp only [update_apply]
    split
    · exact nofun
    · exact this
  · have := h.inside q f
    simp only [update_apply]
    grind
  · have := h.valid q f
    simp only [update_apply]
    grind

/-- The inode of an entry that a process frees is in no other entry, and not in `ialloc`. -/
theorem Inv.inum_ne (h : Inv s) (hp : Freeing (s.pc p) e) :
    (∀ f ≠ e, 0 < s.ref f → s.inum f ≠ s.inum e) ∧ (∀ q type inum, s.pc q = .iget type inum → inum ≠ s.inum e) ∧
      ∀ q, s.fresh q e = none := by
  have hlive := h.live_of_freeing hp
  obtain ⟨hr, -, hf⟩ := h.freeing p e hp
  refine ⟨fun f hne hf hi => hne (h.uniq f e hf (by omega) hi), fun q type inum hq hi => ?_, fun q => ?_⟩
  · exact (h.alloc q type inum hq).2.2.2 p e hlive hi.symm
  · cases hq : s.fresh q e with
    | none => rfl
    | some type =>
      obtain rfl := (h.fresh q e type hq).2.2.2 p hlive
      rw [hf] at hq
      cases hq

/-- A state between calls: the references are counted, a locked inode has been
read, and the copies are those on disk, of inodes that are not free. -/
structure Start (s : State P) : Prop where
  idle : ∀ p, s.pc p = .idle
  fresh : ∀ p e, s.fresh p e = none
  ref : ∀ e, s.ref e = ∑ p, s.refs p e
  uniq : ∀ e f, 0 < s.ref e → 0 < s.ref f → s.inum e = s.inum f → e = f
  lock : ∀ p e, s.lock e = some p → 0 < s.refs p e ∧ s.valid e = true
  live : ∀ e, 0 < s.ref e → (s.dinode (s.inum e)).type ≠ 0
  data : ∀ e, 0 < s.ref e → s.valid e = true → s.copy e = s.dinode (s.inum e)

theorem Start.inv (h : Start s) : Inv s := by
  have hp' : ∀ p f, _ := fun p => Neutral.not (x := s.pc p) (by rw [h.idle]; trivial)
  have hle : ∀ p e, s.refs p e ≤ s.ref e := fun p e => by
    rw [h.ref]
    exact single_le_sum_of_canonicallyOrdered (f := fun p => s.refs p e) (mem_univ p)
  refine ⟨h.ref, h.uniq, fun p e hl => .inl ⟨(h.lock p e hl).1, (hp' p e).2.1⟩, fun p e hp => ?_, fun p e hp => ?_,
    fun p e hp => ?_, fun p e hp => h.live e (Nat.lt_of_lt_of_le hp.1 (hle p e)), fun p e hl _ => (h.lock p e hl).2,
    fun e hv hr _ => ?_, fun p type inum hp => ?_, fun p type inum hp => ?_, fun p e type hp => ?_⟩
  · have := hp' p e
    tauto
  · exact absurd hp (hp' p e).1
  · exact absurd hp (hp' p e).2.1
  · have hd := h.data e hr hv
    exact ⟨hd, hd ▸ h.live e hr⟩
  · simp [h.idle] at hp
  · simp [h.idle] at hp
  · simp [h.fresh] at hp

variable [DecidableEq P]

theorem Inv.two_refs (h : Inv s) (hne : p ≠ q) (e : Fin NINODE) : s.refs p e + s.refs q e ≤ s.ref e := by
  rw [h.ref, ← sum_pair (f := fun p => s.refs p e) hne]
  exact sum_le_sum_of_subset (subset_univ _)

theorem sum_setRefs (s : State P) (p : P) (e f : Fin NINODE) (n : Nat) (type : Option Short) :
    ∑ q, (s.setRefs p e n type).refs q f + (if f = e then s.refs p e else 0) =
      ∑ q, s.refs q f + if f = e then n else 0 := by
  have hrest : ∑ q ∈ univ.erase p, (s.setRefs p e n type).refs q f = ∑ q ∈ univ.erase p, s.refs q f :=
    sum_congr rfl fun q hq => by
      simp only [setRefs, update_of_ne (ne_of_mem_erase hq)]
  rw [← sum_erase_add _ _ (mem_univ p), hrest, ← sum_erase_add univ (fun q => s.refs q f) (mem_univ p)]
  by_cases hf : f = e
  · subst hf
    simp only [setRefs, update_self, if_true]
    omega
  · simp [setRefs, update_of_ne hf, if_neg hf]

/-- A process that frees an inode has the only reference to it. -/
theorem Inv.only (h : Inv s) (hp : Freeing (s.pc p) e) (hq : 0 < s.refs q e) : q = p := by
  by_contra hne
  have h1 := (h.live_of_freeing hp).1
  have h2 := h.two_refs hne e
  have h3 := (h.freeing p e hp).1
  omega

/-- `acquiresleep` in `iput` does not wait. -/
theorem Inv.lock_eq_none (h : Inv s) (hr : s.ref e = 1) (hp : 0 < s.refs p e) (hl : s.lock e ≠ some p) :
    s.lock e = none := by
  cases hq : s.lock e with
  | none => rfl
  | some q =>
    have hne : q ≠ p := fun hc => hl (hc ▸ hq)
    have h1 := h.refs_pos hq
    have h2 := h.two_refs hne e
    omega

/-! ## Every step keeps it -/

theorem scan_of_update (h : Inv s) {x : At} (hx : ∀ type inum, x = .ialloc type inum → type ≠ 0) (q : P)
    (type : Short) (inum : Nat) (hq : update s.pc p x q = .ialloc type inum) : type ≠ 0 :=
  (update_eq_cases hq).elim (fun e => hx type inum e.2) fun e => h.scan q type inum e.2

/-- What holds of a process and an entry, by where the process is. -/
def Places (s : State P) (p : P) (e : Fin NINODE) : Prop :=
  (s.lock e = some p → Live s p e ∨ s.pc p = .release e) ∧
    (Freeing (s.pc p) e ∨ s.pc p = .ilock e ∨ s.pc p = .release e → s.lock e = some p) ∧
    (Freeing (s.pc p) e → s.ref e = 1 ∧ (s.copy e).type ≠ 0 ∧ s.fresh p e = none) ∧
    (Dropping (s.pc p) e → s.refs p e = 1) ∧
    (s.lock e = some p → s.pc p ≠ .ilock e → s.valid e = true)

omit [DecidableEq P] in
theorem Inv.places (h : Inv s) (p : P) (e : Fin NINODE) : Places s p e :=
  ⟨h.held p e, h.inside p e, h.freeing p e, h.dropping p e, h.valid p e⟩

omit [DecidableEq P] in
theorem Inv.of_places (hplaces : ∀ p e, Places s p e) (ref : ∀ e, s.ref e = ∑ p, s.refs p e)
    (uniq : ∀ e f, 0 < s.ref e → 0 < s.ref f → s.inum e = s.inum f → e = f)
    (live : ∀ p e, Live s p e → (s.dinode (s.inum e)).type ≠ 0)
    (data : ∀ e, s.valid e = true → 0 < s.ref e → Quiet s.pc e →
      s.copy e = s.dinode (s.inum e) ∧ (s.copy e).type ≠ 0)
    (scan : ∀ p type inum, s.pc p = .ialloc type inum → type ≠ 0)
    (alloc : ∀ p type inum, s.pc p = .iget type inum → type ≠ 0 ∧ s.dinode inum = .ofType type ∧
      (∀ q type', s.pc q = .iget type' inum → q = p) ∧ ∀ q e, Live s q e → s.inum e ≠ inum)
    (fresh : ∀ p e type, s.fresh p e = some type → type ≠ 0 ∧ Live s p e ∧ s.dinode (s.inum e) = .ofType type ∧
      ∀ q, Live s q e → q = p) : Inv s :=
  ⟨ref, uniq, fun p e => (hplaces p e).1, fun p e => (hplaces p e).2.1, fun p e => (hplaces p e).2.2.1,
    fun p e => (hplaces p e).2.2.2.1, live, fun p e => (hplaces p e).2.2.2.2, data, scan, alloc, fresh⟩

/-- A step of a process that leaves the references and the disk alone. -/
theorem Inv.move (h : Inv s) {x : At} (hpc : s'.pc = update s.pc p x)
    (hd : ∀ f, Dropping x f ↔ Dropping (s.pc p) f) (hscan : ∀ type inum, x = .ialloc type inum → type ≠ 0)
    (hget : ∀ type inum, x ≠ .iget type inum)
    (hs : s'.ref = s.ref ∧ s'.refs = s.refs ∧ s'.inum = s.inum ∧ s'.dinode = s.dinode)
    (hfresh : ∀ q f type, s'.fresh q f = some type → s.fresh q f = some type)
    (hplaces : (∀ q f, Live s' q f ↔ Live s q f) → ∀ q f, Places s' q f)
    (hdata : ∀ f, s'.valid f = true → 0 < s.ref f → Quiet s'.pc f →
      s'.copy f = s.dinode (s.inum f) ∧ (s'.copy f).type ≠ 0) : Inv s' := by
  obtain ⟨href, hrefs, hinum, hdinode⟩ := hs
  have hlive := live_iff hpc hrefs hd
  refine .of_places (hplaces hlive) (fun f => ?_) (fun f g => ?_) (fun q f hq => ?_) (fun f => ?_) ?_ ?_ ?_
  · rw [href, hrefs, h.ref]
  · rw [href, hinum]
    exact h.uniq f g
  · rw [hdinode, hinum]
    exact h.live q f ((hlive q f).mp hq)
  · rw [href, hdinode, hinum]
    exact hdata f
  · rw [hpc]
    exact scan_of_update h hscan
  · refine h.allocs ?_ (fun q f => (hlive q f).mp) hinum fun _ _ _ _ => by rw [hdinode]
    rw [hpc]
    exact iget_of_update hget
  · exact h.freshs hfresh (fun q f _ _ hq => ⟨(hlive q f).mpr hq, by rw [hdinode]⟩) (fun q f => (hlive q f).mp) hinum

/-- A move between neutral places. -/
theorem Inv.neutral (h : Inv s) {x : At} (hp : Neutral (s.pc p)) (hx : Neutral x)
    (hscan : ∀ type inum, x = .ialloc type inum → type ≠ 0) (hget : ∀ type inum, x ≠ .iget type inum) :
    Inv (s.setPc p x) := by
  have hp' := hp.not
  have hx' := hx.not
  refine h.move rfl (fun f => by simp [hp', hx']) hscan hget ⟨rfl, rfl, rfl, rfl⟩ (fun _ _ _ => id)
    (fun hlive q f => ?_) fun f hv hr hq => h.data f hv hr (hq.of_update ⟨(hp' f).1, (hp' f).2.2.2⟩)
  have := h.places q f
  simp only [Places, ↓hlive, setPc, update_apply] at *
  grind

/-- `ialloc` takes a free inode. -/
theorem Inv.iallocFound (h : Inv s) {type : Short} {inum : Nat} (hp : s.pc p = .ialloc type inum)
    (h0 : (s.dinode inum).type = 0) :
    Inv ({ s with dinode := update s.dinode inum (.ofType type) }.setPc p (.iget type inum)) := by
  have ht := h.scan p type inum hp
  have hpn : Neutral (s.pc p) := by rw [hp]; trivial
  have hp' := hpn.not
  have hx' : ∀ e, _ := Neutral.not (x := .iget type inum) trivial
  have hlive : ∀ q f, Live ({ s with dinode := update s.dinode inum (.ofType type) }.setPc p
      (.iget type inum)) q f ↔ Live s q f := live_iff rfl rfl fun f => by simp [hp', hx']
  -- nobody has the inode yet
  have hno : ∀ q f, Live s q f → s.inum f ≠ inum := fun q f hq hi => h.live q f hq (hi ▸ h0)
  have hget : ∀ q type', s.pc q ≠ .iget type' inum := fun q type' hq => by
    obtain ⟨h1, h2, -⟩ := h.alloc q type' inum hq
    rw [h2] at h0
    exact h1 h0
  refine .of_places (fun q f => ?_) h.ref h.uniq (fun q f hq => ?_) (fun f => ?_) (fun q type' inum' => ?_)
    (fun q type' inum' => ?_) fun q f type' hq => ?_
  · have := h.places q f
    simp only [Places, ↓hlive, setPc, update_apply] at *
    grind
  · have hl := (hlive q f).mp hq
    show (update s.dinode inum _ (s.inum f)).type ≠ 0
    rw [update_of_ne (hno q f hl)]
    exact h.live q f hl
  · intro hv hr hq
    obtain ⟨hc, hct⟩ := h.data f hv hr (hq.of_update ⟨(hp' f).1, (hp' f).2.2.2⟩)
    have hne : s.inum f ≠ inum := fun hi => hct (by rw [hc, hi, h0])
    refine ⟨hc.trans ?_, hct⟩
    show _ = update s.dinode inum _ (s.inum f)
    rw [update_of_ne hne]
  · have := h.scan q type' inum'
    simp only [setPc, update_apply]
    grind
  · have := h.alloc q type' inum'
    simp only [hlive]
    simp only [setPc, update_apply]
    grind
  · obtain ⟨h1, h2, h3, h4⟩ := h.fresh q f type' hq
    refine ⟨h1, (hlive q f).mpr h2, ?_, fun r hr => h4 r ((hlive r f).mp hr)⟩
    show update s.dinode inum _ (s.inum f) = _
    rw [update_of_ne (hno q f h2), h3]

theorem Inv.iget (h : Inv s) {type : Short} {inum : Nat} (hp : s.pc p = .iget type inum)
    (hs : iget s inum = some (e, s')) : Inv ((s'.setRefs p e (s.refs p e + 1) (some type)).setPc p .idle) := by
  obtain ⟨v, rfl, hv⟩ := iget_eq_some hs
  obtain ⟨ht, hd, hget, hno⟩ := h.alloc p type inum hp
  have hp' := Neutral.not (x := s.pc p) (by rw [hp]; trivial)
  have hx' := Neutral.not (x := .idle) trivial
  -- nobody has the entry but those that drop it
  have hnot : ∀ q, ¬ Live s q e := by
    intro q hq
    obtain ⟨-, -, hi⟩ | ⟨-, hr, -⟩ := hv
    · exact hno q e hq hi
    · have := h.refs_le q e
      have := hq.1
      omega
  have hlive : ∀ q f, Live ((setRefs { s with
      inum := update s.inum e inum
      ref := update s.ref e (s.ref e + 1)
      valid := update s.valid e v } p e (s.refs p e + 1) (some type)).setPc p .idle) q f ↔
        Live s q f ∨ (q = p ∧ f = e) := by
    intro q f
    simp only [Live, setPc, setRefs, update_apply]
    grind [update_apply]
  have hfree : ∀ q, ¬ Freeing (s.pc q) e := fun q hq => hnot q (h.live_of_freeing hq)
  refine .of_places (fun q f => ?_) (fun f => ?_) (fun f g => ?_) (fun q f hq => ?_) (fun f hv hr hq => ?_)
    (fun q type' inum' => ?_) (fun q type' inum' hq => ?_) fun q f type' hq => ?_
  · have := h.places q f
    have := h.refs_le q e
    simp only [Places, ↓hlive, setPc, setRefs, update_apply] at *
    grind [update_apply, Dropping]
  · have := sum_setRefs s p e f (s.refs p e + 1) (some type)
    have := h.ref f
    show update s.ref e (s.ref e + 1) f = ∑ q, (s.setRefs p e (s.refs p e + 1) (some type)).refs q f
    rw [update_apply]
    split
    · next hf =>
      subst hf
      simp only [if_true] at *
      omega
    · simp_all
  · have := h.uniq f g
    simp only [setPc, setRefs, update_apply]
    grind
  · obtain hl | ⟨rfl, rfl⟩ := (hlive q f).mp hq
    · have hf : f ≠ e := fun hc => hnot q (hc ▸ hl)
      show (s.dinode (update s.inum e inum f)).type ≠ 0
      rw [update_of_ne hf]
      exact h.live q f hl
    · show (s.dinode (update s.inum f inum f)).type ≠ 0
      rw [update_self, hd]
      exact ht
  · have hq' := hq.of_update (s := s) ⟨(hp' f).1, (hp' f).2.2.2⟩
    have := h.data f
    simp only [setPc, setRefs, update_apply] at hv hr ⊢
    grind
  · have := h.scan q type' inum'
    simp only [setPc, setRefs, update_apply]
    grind
  · obtain ⟨-, hq'⟩ | ⟨hne, hq'⟩ := update_eq_cases hq
    · cases hq'
    obtain ⟨h1, h2, h3, h4⟩ := h.alloc q type' inum' hq'
    refine ⟨h1, h2, fun r type'' hr => h3 r type'' (update_eq_of_ne hr (by simp)), fun r f hr => ?_⟩
    · show update s.inum e inum f ≠ inum'
      obtain hl | ⟨rfl, rfl⟩ := (hlive r f).mp hr
      · have hf : f ≠ e := fun hc => hnot r (hc ▸ hl)
        rw [update_of_ne hf]
        exact h4 r f hl
      · rw [update_self]
        rintro rfl
        exact hne (hget q type' hq')
  · show _ ∧ _ ∧ s.dinode (update s.inum e inum f) = _ ∧ _
    by_cases hpe : q = p ∧ f = e
    · obtain ⟨rfl, rfl⟩ := hpe
      have htt : type = type' := by
        simpa only [setPc, setRefs, update_self, some.injEq] using hq
      rw [update_self, ← htt]
      refine ⟨ht, (hlive q f).mpr (.inr ⟨rfl, rfl⟩), hd, fun r hr => ?_⟩
      exact ((hlive r f).mp hr).elim (fun hl => absurd hl (hnot r)) And.left
    · have hq' : s.fresh q f = some type' := by
        simp only [setPc, setRefs, update_apply] at hq
        grind [update_apply]
      obtain ⟨h1, h2, h3, h4⟩ := h.fresh q f type' hq'
      have hf : f ≠ e := fun hc => hnot q (hc ▸ h2)
      rw [update_of_ne hf]
      refine ⟨h1, (hlive q f).mpr (.inl h2), h3, fun r hr => ?_⟩
      exact ((hlive r f).mp hr).elim (h4 r) fun hc => absurd hc.2 hf

/-! ### The lock -/

theorem Inv.acquire (h : Inv s) (hp : s.pc p = .idle) (hr : 0 < s.refs p e) (hl : s.lock e = none) :
    Inv ({ s with lock := update s.lock e (some p) }.setPc p (.ilock e)) := by
  have hp' := Neutral.not (x := s.pc p) (by rw [hp]; trivial)
  have hx' : ∀ f, ¬ Freeing (.ilock e) f ∧ ¬ Dropping (.ilock e) f := fun f => ⟨id, id⟩
  have : Live s p e := ⟨hr, (hp' e).2.1⟩
  refine h.move rfl (fun f => by simp [hp', hx']) (by simp) (by simp) ⟨rfl, rfl, rfl, rfl⟩ (fun _ _ _ => id)
    (fun hlive q f => ?_) fun f hv hr hq => h.data f hv hr (hq.of_update ⟨(hp' f).1, (hp' f).2.2.2⟩)
  have := h.places q f
  simp only [Places, ↓hlive, setPc, update_apply] at *
  grind

/-- The inode is read, if it is not valid, and the process goes on with the lock. -/
theorem Inv.ilock (h : Inv s) (hp : s.pc p = .ilock e) (hs : ilock s p e = some s') : Inv s' := by
  have hl := h.inside p e (.inr (.inl hp))
  have hp' : ∀ f, ¬ Freeing (s.pc p) f ∧ ¬ Dropping (s.pc p) f ∧ s.pc p ≠ .release f := by
    intro f
    rw [hp]
    exact ⟨id, id, nofun⟩
  have hx' := Neutral.not (x := .idle) trivial
  -- no other process is in the part of `iput` that has the lock
  have hquiet : Quiet s.pc e := by
    intro q
    have hq : ∀ hc : s.lock e = some q, q = p := fun hc => some.inj (hc.symm.trans hl)
    refine ⟨fun hf => ?_, fun hf => ?_⟩
    · obtain rfl := hq (h.inside q e (.inl hf))
      exact (hp' e).1 hf
    · obtain rfl := hq (h.inside q e (.inr (.inr hf)))
      exact (hp' e).2.2 hf
  obtain ⟨v, d, rfl, hv', hd⟩ : ∃ v d, s' = { s.setCopy e d with valid := v }.setPc p .idle ∧
      v = update s.valid e true ∧ d = s.dinode (s.inum e) ∧ d.type ≠ 0 := by
    unfold Shared.ilock at hs
    split at hs
    · next hv =>
      obtain rfl := some.inj hs
      obtain ⟨hc, ht⟩ := h.data e hv (Nat.lt_of_lt_of_le (h.refs_pos hl) (h.refs_le p e)) hquiet
      refine ⟨s.valid, s.copy e, ?_, ?_, hc, ht⟩
      · simp [setCopy]
      · rw [← hv, update_eq_self]
    split at hs
    · cases hs
    · next h0 =>
      obtain rfl := some.inj hs
      exact ⟨_, _, rfl, rfl, rfl, h0⟩
  refine h.move rfl (fun f => by simp [hp', hx']) (by simp) (by simp) ⟨rfl, rfl, rfl, rfl⟩ (fun _ _ _ => id)
    (fun hlive q f => ?_) fun f hv hr hq => ?_
  · have := h.places q f
    simp only [Places, ↓hlive, setPc, setCopy, update_apply, hv'] at *
    grind
  by_cases hf : f = e
  · subst hf
    simpa only [setPc, setCopy, update_self] using hd
  · have hdata := h.data f
    simp only [setPc, setCopy, update_of_ne hf, hv'] at hv ⊢
    exact hdata hv hr (hq.of_update ⟨(hp' f).1, (hp' f).2.2⟩)

/-! ### `iput` -/

/-- The last reference to an inode without links: the process starts to free it. -/
theorem Inv.startFree (h : Inv s) (hp : s.pc p = .idle) (hr : 0 < s.refs p e) (h1 : s.ref e = 1)
    (hv : s.valid e = true) (hl : s.lock e = none) :
    Inv (({ s with lock := update s.lock e (some p) }.setRefs p e (s.refs p e) none).setPc p (.trunc e 0)) := by
  have hp' := Neutral.not (x := s.pc p) (by rw [hp]; trivial)
  have hx' : ∀ f, (Freeing (.trunc e 0) f ↔ e = f) ∧ ¬ Dropping (.trunc e 0) f := fun f => ⟨Iff.rfl, id⟩
  have hquiet : Quiet s.pc e := by
    intro q
    refine ⟨fun hf => ?_, fun hf => ?_⟩
    · simp [h.inside q e (.inl hf)] at hl
    · simp [h.inside q e (.inr (.inr hf))] at hl
  obtain ⟨-, ht⟩ := h.data e hv (by omega) hquiet
  have hrefs : update s.refs p (update (s.refs p) e (s.refs p e)) = s.refs := by
    rw [update_eq_self, update_eq_self]
  have : Live s p e := ⟨hr, (hp' e).2.1⟩
  refine h.move rfl (fun f => by simp [hp', hx']) (by simp) (by simp) ⟨rfl, hrefs, rfl, rfl⟩ (fun q f type => ?_)
    (fun hlive q f => ?_) fun f hv hr hq => h.data f hv hr (hq.of_update ⟨(hp' f).1, (hp' f).2.2.2⟩)
  · simp only [setPc, setRefs, update_apply]
    grind [update_apply]
  · have := h.places q f
    simp only [Places, ↓hlive, setPc, setRefs, hrefs, update_apply] at *
    grind [update_apply]

/-- A process drops a reference: to an inode that it does not free, or has freed. -/
theorem Inv.decref (h : Inv s) (hp : s.pc p = .idle ∨ s.pc p = .drop e) (hr : 0 < s.refs p e)
    (hl : s.lock e ≠ some p) : Inv ((decref s p e).setPc p .idle) := by
  have hp' : ∀ f, ¬ Freeing (s.pc p) f ∧ (Dropping (s.pc p) f → f = e) ∧ s.pc p ≠ .ilock f ∧ s.pc p ≠ .release f := by
    intro f
    obtain hp | hp := hp
    · rw [hp]
      exact ⟨id, fun hd => hd.elim, nofun, nofun⟩
    · rw [hp]
      exact ⟨id, fun hd => hd.symm, nofun, nofun⟩
  have hx' := Neutral.not (x := .idle) trivial
  have hone := h.dropping p e
  have hlive : ∀ q f, Live ((Shared.decref s p e).setPc p .idle) q f → Live s q f := by
    intro q f
    simp only [Live, Shared.decref, setPc, setRefs, update_apply]
    grind [update_apply]
  have hlive' : ∀ q f, Live s q f → (q = p → f ≠ e) → Live ((Shared.decref s p e).setPc p .idle) q f := by
    intro q f
    simp only [Live, Shared.decref, setPc, setRefs, update_apply]
    grind [update_apply]
  refine .of_places (fun q f => ?_) (fun f => ?_) (fun f g => ?_) (fun q f hq => h.live q f (hlive q f hq))
    (fun f hv hr hq => ?_) (scan_of_update h (by simp)) ?_ ?_
  · have := h.places q f
    -- a process that frees the inode has the only reference
    have : Freeing (s.pc q) e → q = p := fun hf => (h.only hf hr).symm
    simp only [Places, Live, Shared.decref, setPc, setRefs, update_apply] at *
    grind [update_apply]
  · have := sum_setRefs s p e f (s.refs p e - 1) none
    have := h.ref f
    show update s.ref e (s.ref e - 1) f = ∑ q, (s.setRefs p e (s.refs p e - 1) none).refs q f
    rw [update_apply]
    split
    · next hf =>
      subst hf
      simp only [if_true] at *
      omega
    · simp_all
  · have := h.uniq f g
    simp only [Shared.decref, setPc, setRefs, update_apply]
    grind
  · refine h.data f hv ?_ (hq.of_update ⟨(hp' f).1, (hp' f).2.2.2⟩)
    simp only [Shared.decref, setPc, setRefs, update_apply] at hr
    grind
  · exact h.allocs (iget_of_update (by simp)) hlive rfl fun _ _ _ _ => rfl
  · have hfresh : ∀ q f type, ((Shared.decref s p e).setPc p .idle).fresh q f = some type →
        s.fresh q f = some type ∧ (q = p → f ≠ e) := by
      intro q f type
      simp only [Shared.decref, setPc, setRefs, update_apply]
      grind [update_apply]
    exact h.freshs (fun q f type hq => (hfresh q f type hq).1)
      (fun q f type hq hl => ⟨hlive' q f hl (hfresh q f type hq).2, rfl⟩) hlive rfl

/-- A step in the part of `iput` that frees the inode, before its type is cleared. -/
theorem Inv.free (h : Inv s) {x : At} (hp : Freeing (s.pc p) e) (hx : Freeing x e) {u : BlockNo → Bool} {d : Dinode}
    {D : Nat → Dinode} (ht : d.type = (s.copy e).type) (hD : ∀ i ≠ s.inum e, D i = s.dinode i)
    (hD0 : (D (s.inum e)).type ≠ 0)
    (hs : s' = { s with used := u, copy := update s.copy e d, dinode := D, pc := update s.pc p x }) :
    Inv s' := by
  have hp' := hp.not
  have hx' := hx.not
  have hlp := h.inside p e (.inl hp)
  obtain ⟨hother, hget, hfresh⟩ := h.inum_ne hp
  have hlive : ∀ q f, Live s' q f ↔ Live s q f := by
    subst hs
    exact live_iff rfl rfl fun f => by simp [hp', hx']
  have hpl : ∀ q f, Places s' q f := by
    intro q f
    have := h.places q f
    simp only [Places, ↓hlive, hs, update_apply] at *
    grind
  subst hs
  refine .of_places hpl h.ref h.uniq (fun q f hq => ?_) (fun f hv hr hq => ?_)
    (scan_of_update h fun type inum hc => absurd hc ((hx' e).2.2.2.2.1 type inum)) ?_ ?_
  · have hl := (hlive q f).mp hq
    by_cases hf : f = e
    · exact hf ▸ hD0
    · show (D (s.inum f)).type ≠ 0
      rw [hD _ (hother f hf (Nat.lt_of_lt_of_le hl.1 (h.refs_le q f)))]
      exact h.live q f hl
  · have hf : f ≠ e := by
      rintro rfl
      refine (hq p).1 ?_
      show Freeing (update s.pc p x p) f
      rwa [update_self]
    show update s.copy e d f = D (s.inum f) ∧ (update s.copy e d f).type ≠ 0
    rw [update_of_ne hf, hD _ (hother f hf hr)]
    exact h.data f hv hr (hq.of_update ⟨fun hc => hf (((hp' f).1).mp hc), (hp' f).2.2.2.1⟩)
  · refine h.allocs (iget_of_update (hx' e).2.2.2.2.2) (fun q f => (hlive q f).mp) rfl fun q type inum hq => ?_
    exact hD inum (hget q type inum hq)
  · refine h.freshs (fun _ _ _ => id) (fun q f type hq hl => ⟨(hlive q f).mpr hl, ?_⟩) (fun q f => (hlive q f).mp) rfl
    have hf : f ≠ e := by
      rintro rfl
      have hq' : s.fresh q f = some type := hq
      rw [hfresh q] at hq'
      cases hq'
    exact hD _ (hother f hf (Nat.lt_of_lt_of_le hl.1 (h.refs_le q f)))

/-- The `iupdate` that frees the inode. -/
theorem Inv.clear (h : Inv s) (hp : s.pc p = .clear e) :
    Inv ((iupdate (s.setCopy e { s.copy e with type := 0 }) e).setPc p (.release e)) := by
  have hpf : Freeing (s.pc p) e := by rw [hp]; rfl
  have hp' := hpf.not
  have hx' : ∀ f, ¬ Freeing (.release e) f ∧ (Dropping (.release e) f ↔ e = f) := fun f => ⟨id, Iff.rfl⟩
  obtain ⟨hother, hget, hfresh⟩ := h.inum_ne hpf
  have hone : s.refs p e = 1 := by
    have h1 := (h.live_of_freeing hpf).1
    have h2 := h.refs_le p e
    have h3 := (h.freeing p e hpf).1
    omega
  generalize hd : { s.copy e with type := 0 } = d
  generalize hs : (iupdate (s.setCopy e d) e).setPc p (.release e) = s'
  replace hs : s' = { s with
      copy := update s.copy e d
      dinode := update s.dinode (s.inum e) d
      pc := update s.pc p (.release e) } := by
    simp [← hs, iupdate, setCopy, setPc]
  have hlive : ∀ q f, Live s' q f ↔ Live s q f ∧ (q = p → f ≠ e) := by
    intro q f
    simp only [hs, Live, update_apply]
    grind
  have hpl : ∀ q f, Places s' q f := by
    intro q f
    have := h.places q f
    have : Freeing (s.pc q) e → q = p := fun hq => (h.only hq (by omega)).symm
    simp only [Places, ↓hlive, hs, update_apply] at *
    grind
  subst hs
  have hne : ∀ q f, Live s q f → (q = p → f ≠ e) → f ≠ e := fun q f hl hqp hf => by
    subst hf
    exact hqp (h.only hpf hl.1) rfl
  refine .of_places hpl h.ref h.uniq (fun q f hq => ?_) (fun f hv hr hq => ?_) (scan_of_update h (by simp)) ?_ ?_
  · obtain ⟨hl, hqp⟩ := (hlive q f).mp hq
    show (update s.dinode (s.inum e) d (s.inum f)).type ≠ 0
    rw [update_of_ne (hother f (hne q f hl hqp) (Nat.lt_of_lt_of_le hl.1 (h.refs_le q f)))]
    exact h.live q f hl
  · have hf : f ≠ e := by
      rintro rfl
      exact (hq p).2 (update_self ..)
    show update s.copy e d f = update s.dinode (s.inum e) d (s.inum f) ∧ (update s.copy e d f).type ≠ 0
    rw [update_of_ne hf, update_of_ne (hother f hf hr)]
    exact h.data f hv hr (hq.of_update ⟨fun hc => hf (((hp' f).1).mp hc), (hp' f).2.2.2.1⟩)
  · refine h.allocs (iget_of_update (by simp)) (fun q f hq => ((hlive q f).mp hq).1) rfl fun q type inum hq => ?_
    exact update_of_ne (hget q type inum hq) _ _
  · have hf : ∀ q f type, s.fresh q f = some type → f ≠ e := by
      rintro q f type hq rfl
      rw [hfresh q] at hq
      cases hq
    refine h.freshs (fun _ _ _ => id) (fun q f type hq hl => ⟨(hlive q f).mpr ⟨hl, fun _ => hf q f type hq⟩, ?_⟩)
      (fun q f hq => ((hlive q f).mp hq).1) rfl
    exact update_of_ne (hother f (hf q f type hq) (Nat.lt_of_lt_of_le hl.1 (h.refs_le q f))) _ _

/-- The entry is made invalid and unlocked. -/
theorem Inv.release (h : Inv s) (hp : s.pc p = .release e) :
    Inv ({ s with valid := update s.valid e false, lock := update s.lock e none }.setPc p
      (.drop e)) := by
  have hl := h.inside p e (.inr (.inr hp))
  have hp' : ∀ f, ¬ Freeing (s.pc p) f ∧ (Dropping (s.pc p) f ↔ e = f) ∧ s.pc p ≠ .ilock f ∧
      (s.pc p = .release f ↔ e = f) := by
    intro f
    rw [hp]
    exact ⟨id, Iff.rfl, nofun, by simp⟩
  have hx' : ∀ f, ¬ Freeing (.drop e) f ∧ (Dropping (.drop e) f ↔ e = f) := fun f => ⟨id, Iff.rfl⟩
  refine h.move rfl (fun f => by simp [hp', hx']) (by simp) (by simp) ⟨rfl, rfl, rfl, rfl⟩ (fun _ _ _ => id)
    (fun hlive q f => ?_) fun f hv hr hq => ?_
  · have := h.places q f
    simp only [Places, ↓hlive, setPc, update_apply] at *
    grind
  have hf : f ≠ e := by
    rintro rfl
    simp only [setPc, update_self, Bool.false_eq_true] at hv
  simp only [setPc, update_of_ne hf] at hv
  exact h.data f hv hr (hq.of_update ⟨(hp' f).1, fun hc => hf (((hp' f).2.2.2).mp hc).symm⟩)

theorem Inv.next (h : Inv s) {ninodes : Nat} (hs : next ninodes s p = some s') : Inv s' := by
  have hfree : ∀ e, Freeing (s.pc p) e → s.pc p ≠ .clear e → Inv s' := by
    intro e hp hc
    obtain ⟨x, u, d, D, rfl, hx, ht, hD⟩ := next_freeing hs hp hc
    have hlive := h.live p e (h.live_of_freeing hp)
    have htype := (h.freeing p e hp).2.1
    refine h.free hp hx ht (fun i hi => ?_) ?_ rfl
    · obtain rfl | rfl := hD
      · rfl
      · exact update_of_ne hi _ _
    · obtain rfl | rfl := hD
      · exact hlive
      · rwa [update_self, ht]
  cases hp : s.pc p <;> simp only [Shared.next, hp, iallocAt, some.injEq, reduceCtorEq] at hs
  case ialloc type inum =>
    have hscan := h.scan p type inum hp
    have hpn : Neutral (s.pc p) := by rw [hp]; trivial
    split at hs
    · split at hs
      · next h0 =>
        obtain rfl := some.inj hs
        exact h.iallocFound hp h0
      · obtain rfl := some.inj hs
        exact h.neutral hpn trivial (fun _ _ hx => by cases hx; exact hscan) (by simp)
    · cases hs
  case iget type inum =>
    obtain ⟨⟨e, s1⟩, hs1, rfl⟩ := map_eq_some_iff.mp hs
    exact h.iget hp hs1
  case ilock e => exact h.ilock hp hs
  case trunc e i | entries e j | truncated e => exact hfree e (by rw [hp]; rfl) (by simp [hp])
  case clear e => exact hs ▸ h.clear hp
  case release e => exact hs ▸ h.release hp
  case drop e =>
    have hd : Dropping (s.pc p) e := by rw [hp]; rfl
    have hone := h.dropping p e hd
    have hl : s.lock e ≠ some p := by
      intro hl
      obtain hlive | hr := h.held p e hl
      · exact hlive.2 hd
      · simp [hp] at hr
    exact hs ▸ h.decref (.inr hp) (by omega) hl

theorem Inv.step (h : Inv s) {ninodes : Nat} {a : Act P} (hs : step ninodes s a = some s') : Inv s' := by
  cases a with
  | ialloc p type =>
    obtain ⟨⟨hp, ht⟩, rfl⟩ := ite_some_none_eq_some.mp hs
    exact h.neutral (by rw [hp]; trivial) trivial (fun _ _ hx => by cases hx; exact ht) (by simp)
  | ilock p e =>
    obtain ⟨⟨hp, hr, hl⟩, rfl⟩ := ite_some_none_eq_some.mp hs
    exact h.acquire hp hr hl
  | iunlock p e =>
    obtain ⟨⟨hp, hl⟩, rfl⟩ := ite_some_none_eq_some.mp hs
    exact h.iunlock hp hl
  | iput p e =>
    simp only [Shared.step, ite_none_right_eq_some] at hs
    obtain ⟨⟨hp, hr, hl⟩, hs⟩ := hs
    unfold Shared.iput at hs
    split at hs
    · next hlast =>
      split at hs
      · next hl =>
        obtain rfl := some.inj hs
        exact h.startFree hp hr hlast.1 hlast.2.1 hl
      · cases hs
    · obtain rfl := some.inj hs
      have := h.decref (.inl hp) hr hl
      rwa [setPc, show (Shared.decref s p e).pc = s.pc from rfl, ← hp, update_eq_self] at this
  | next p => exact h.next hs

/-! ## All runs -/

/-- **Freeing and reusing an inode do not race.** From a state between calls, in
every state that processes reach by `ialloc`, `iget`, `ilock`, `iunlock` and
`iput`: a step that changes the free map or an inode in use on disk is one of a
process that frees the inode, has the only reference to it, and no process is
about to get it from `ialloc`. An inode that a process has from `ialloc` is on
disk as `ialloc` left it, and so is the copy once the process has locked it.
`ilock` finds a type, and `acquiresleep` in `iput` does not wait. -/
theorem inode_reuse {ninodes : Nat} {s₀ : State P} {as : List (Act P)} (h₀ : Start s₀)
    (hr : Run (step ninodes) s₀ as s) :
    (∀ a s', step ninodes s a = some s' →
      (s'.used = s.used ∧ ∀ i, (s.dinode i).type ≠ 0 → s'.dinode i = s.dinode i) ∨
        ∃ p e, a = .next p ∧ Freeing (s.pc p) e ∧ (∀ i ≠ s.inum e, s'.dinode i = s.dinode i) ∧
          s.refs p e = 1 ∧ (∀ q ≠ p, s.refs q e = 0) ∧ ∀ q type, s.pc q ≠ .iget type (s.inum e)) ∧
    (∀ p type inum, s.pc p = .iget type inum → s.dinode inum = .ofType type) ∧
    (∀ p e type, s.fresh p e = some type → s.dinode (s.inum e) = .ofType type ∧
      (s.lock e = some p → s.pc p ≠ .ilock e → s.valid e = true ∧ s.copy e = .ofType type)) ∧
    (∀ p e, s.pc p = .ilock e → (step ninodes s (.next p)).isSome) ∧
    ∀ p e, 0 < s.refs p e → s.ref e = 1 → s.lock e ≠ some p → s.lock e = none := by
  have h : Inv s := hr.invariant h₀.inv fun h hs => h.step hs
  refine ⟨fun a s' hs => ?_, fun p type inum hp => (h.alloc p type inum hp).2.1, fun p e type hp => ?_,
    fun p e hp => ?_, fun p e hp h1 hl => h.lock_eq_none h1 hp hl⟩
  · obtain hsame | ⟨p, e, rfl, hf, hi⟩ := step_disk hs
    · exact .inl hsame
    · refine .inr ⟨p, e, rfl, hf, hi, ?_, fun q hq => ?_, fun q type hq => (h.inum_ne hf).2.1 q type _ hq rfl⟩
      · have h₁ := (h.live_of_freeing hf).1
        have h2 := h.refs_le p e
        have h3 := (h.freeing p e hf).1
        omega
      · by_contra hne
        exact hq (h.only hf (Nat.pos_of_ne_zero hne))
  · obtain ⟨-, hlive, hd, -⟩ := h.fresh p e type hp
    refine ⟨hd, fun hl hpc => ?_⟩
    have hv := h.valid p e hl hpc
    have hquiet : Quiet s.pc e := by
      intro q
      have hq : s.lock e = some q → q = p := fun hc => some.inj (hc.symm.trans hl)
      refine ⟨fun hf => ?_, fun hf => ?_⟩
      · have := (h.inum_ne hf).2.2 p
        rw [hp] at this
        cases this
      · obtain rfl := hq (h.inside q e (.inr (.inr hf)))
        exact hlive.2 (by rw [hf]; rfl)
    have hdata := h.data e hv (Nat.lt_of_lt_of_le hlive.1 (h.refs_le p e)) hquiet
    exact ⟨hv, hdata.1.trans hd⟩
  · have hl := h.inside p e (.inr (.inl hp))
    have hlive : Live s p e := ⟨h.refs_pos hl, by rw [hp]; exact id⟩
    simp only [step, next, hp, ilock]
    split
    · rfl
    · rw [if_neg (h.live p e hlive)]
      rfl

/-- Process 0 has the last reference to inode 1, which has no links. -/
def lastRef : State (Fin 2) where
  dinode _ := .ofType T_FILE
  used _ := true
  word _ _ := 0
  inum _ := 1
  ref e := if e = 0 then 1 else 0
  valid _ := true
  lock _ := none
  copy _ := .ofType T_FILE
  pc _ := .idle
  refs p e := if p = 0 ∧ e = 0 then 1 else 0
  fresh _ _ := none

/-- Process 1 gets the inode number from `ialloc` while process 0 has still to
release the entry, and waits for the lock. -/
def reuse : List (Act (Fin 2)) :=
  .iput 0 0 :: List.replicate (NDIRECT + 3) (.next 0) ++
    [.ialloc 1 T_DIR, .next 1, .next 1, .next 0, .ilock 1 0, .next 1]

theorem inode_reuse_shared : ∃ s, Run (step 200) lastRef reuse s ∧ s.ref 0 = 2 ∧ s.copy 0 = .ofType T_DIR := by
  have h0 : Start lastRef := by
    refine ⟨fun _ => rfl, fun _ _ => rfl, fun e => ?_, fun e f he hf _ => ?_, by simp [lastRef], fun e _ => ?_,
      fun _ _ _ => rfl⟩
    · by_cases he : e = 0
      · subst he
        rfl
      · simp [lastRef, he]
    · simp only [lastRef] at he hf
      split at he
      · split at hf
        · simp_all
        · cases hf
      · cases he
    · show T_FILE ≠ 0
      decide
  obtain ⟨s, hr, h2, hf, hl, hp⟩ := exists_run (step 200) lastRef reuse
    (Q := fun s => s.ref 0 = 2 ∧ s.fresh 1 0 = some T_DIR ∧ s.lock 0 = some 1 ∧ s.pc 1 ≠ .ilock 0) (by decide +kernel)
  exact ⟨s, hr, h2, (((inode_reuse h0 hr).2.2.1 1 0 T_DIR hf).2 hl hp).2⟩

end Xv6.Fs.Shared
