import Xv6.Dev.Protocol

/-!
# The driver follows the protocol

Each step of `Xv6.Dev.Virtio` moves a request one stage further, or changes
nothing that the protocol is about, and none of them panics (`Inv.step`). So the
descriptors have one owner each in every state, and `virtio_disk_rw` returns only
when the device has completed its request (`virtio_protocol`).
-/

namespace Xv6.Dev.Virtio

open Framework Function Option State

variable {n : Nat} {r : Req} {pc : Pc} {i : Idx} {f : Pc → Pc}

/-- The lock is held where the code says so, and a process in `virtio_disk_rw` has
the sleep-lock of its buffer. -/
structure Control (s : State n) : Prop where
  lock : ∀ p, (s.pc p).locked = true ↔ s.lock = .proc p
  holder : ∀ {p b}, (s.pc p).buf = some b → s.holder b = some p

structure Inv (s : State n) : Prop where
  control : Control s
  panic : s.panic = none
  good : Good s.view

/-! ## Wakeups -/

/-- A change of the processes that is not seen by the protocol. -/
structure Wakes (f : Pc → Pc) : Prop where
  stage : ∀ pc, (f pc).stage = pc.stage
  locked : ∀ pc, (f pc).locked = pc.locked
  buf : ∀ pc, (f pc).buf = pc.buf

theorem wakes_free : Wakes Pc.wakeFree := by
  refine ⟨?_, ?_, ?_⟩ <;> rintro (_ | ⟨_, _ | _ | _⟩ | _ | _ | _) <;> rfl

theorem wakes_buf (b : Nat) : Wakes (Pc.wakeBuf b) := by
  refine ⟨?_, ?_, ?_⟩ <;> rintro (_ | _ | _ | ⟨r, _, _ | _ | _⟩ | _) <;> try rfl
  all_goals
    by_cases h : r.buf = b <;> simp only [Pc.wakeBuf, h, if_true, if_false]
    all_goals rfl

theorem wakes_kill : Wakes Pc.kill := by
  refine ⟨?_, ?_, ?_⟩ <;> rintro (_ | ⟨_, _ | _ | _⟩ | _ | ⟨_, _, _ | _ | _⟩ | _) <;> rfl

/-- Some processes are woken up. -/
structure Similar (pc pc' : Fin n → Pc) : Prop where
  stage : ∀ q, (pc' q).stage = (pc q).stage
  locked : ∀ q, (pc' q).locked = (pc q).locked
  buf : ∀ q, (pc' q).buf = (pc q).buf

theorem Wakes.all (hf : Wakes f) (pc : Fin n → Pc) : Similar pc fun q => f (pc q) :=
  ⟨fun _ => hf.stage _, fun _ => hf.locked _, fun _ => hf.buf _⟩

theorem Wakes.one (hf : Wakes f) (pc : Fin n → Pc) (p : Fin n) :
    Similar pc (update pc p (f (pc p))) := by
  refine ⟨fun q => ?_, fun q => ?_, fun q => ?_⟩ <;> by_cases hq : q = p
  · rw [hq, update_self, hf.stage]
  · rw [update_of_ne hq]
  · rw [hq, update_self, hf.locked]
  · rw [update_of_ne hq]
  · rw [hq, update_self, hf.buf]
  · rw [update_of_ne hq]

namespace Control

variable {s : State n} {p : Fin n} {pc : Pc}

theorem goto (h : Control s) (hl : s.lock = .free ∨ s.lock = .proc p)
    (hb : ∀ b, pc.buf = some b → s.holder b = some p) : Control (s.goto p pc) := by
  refine ⟨fun q => ?_, fun {q b} hq => ?_⟩ <;> by_cases hqp : q = p
  · subst hqp
    simp [goto]
  · simp only [State.goto, update_of_ne hqp]
    have := h.lock q
    grind
  · subst hqp
    simp only [goto, update_self] at hq
    exact hb b hq
  · simp only [State.goto, update_of_ne hqp] at hq
    exact h.holder hq

/-- A process goes on with the same buffer. -/
theorem goto_buf (h : Control s) (hl : s.lock = .free ∨ s.lock = .proc p) (hb : pc.buf = (s.pc p).buf) :
    Control (s.goto p pc) :=
  h.goto hl fun _ hb' => h.holder (hb ▸ hb')

theorem disk (h : Control s) (d : Disk) : Control { s with disk := d } := ⟨h.lock, h.holder⟩

theorem similar (h : Control s) {s' : State n} (hpc : Similar s.pc s'.pc) (hl : s'.lock = s.lock)
    (hh : s'.holder = s.holder) : Control s' :=
  ⟨fun q => by rw [hpc.locked, hl]; exact h.lock q, fun hq => by rw [hpc.buf] at hq; rw [hh]; exact h.holder hq⟩

theorem wakeFree (h : Control s) : Control s.wakeFree := h.similar (wakes_free.all _) rfl rfl

/-- The process with the lock is the only one that is at a locked place. -/
theorem eq_of_locked (h : Control s) {q : Fin n} (hp : (s.pc p).locked = true) (hq : (s.pc q).locked = true) :
    q = p := by
  have h1 := (h.lock p).mp hp
  rw [(h.lock q).mp hq] at h1
  cases h1
  rfl

end Control

/-! ## Views -/

theorem stage_eq_publish (h : pc.stage = .publish r i) : pc.locked = true := by
  cases pc <;> cases h
  rfl

theorem req_eq_none : pc.stage.req = none ↔ pc.buf = none := by
  cases pc <;> simp [Pc.stage, Stage.req, Pc.buf]

theorem buf_of_req (h : pc.stage.req = some r) : pc.buf = some r.buf := by
  cases pc <;> cases h <;> rfl

namespace State

variable (s : State n) (p : Fin n)

theorem view_goto (pc : Pc) :
    (s.goto p pc).view = { s.view with stage := update s.view.stage p pc.stage } := by
  have : (fun q => (update s.pc p pc q).stage) = update (fun q => (s.pc q).stage) p pc.stage := by
    funext q
    exact Function.apply_update (fun _ => Pc.stage) s.pc p pc q
  simp only [view, goto, this]

variable {s p}

/-- A process goes on at the same stage. -/
theorem view_goto_self (h : pc.stage = (s.pc p).stage) : (s.goto p pc).view = s.view := by
  rw [view_goto, h]
  exact congrArg (fun st => { s.view with stage := st }) (update_eq_self ..)

theorem view_similar {pc : Fin n → Pc} (hpc : Similar s.pc pc) : { s with pc := pc }.view = s.view := by
  simp only [view, hpc.stage]

theorem view_wakeFree (s : State n) : s.wakeFree.view = s.view := view_similar (wakes_free.all _)

end State

/-- Descriptors that nobody owns are written. -/
theorem Good.desc {v : View n} (g : Good v) {desc : Fin NUM → Desc}
    (hd : ∀ j, v.disk.free j = false → desc j = v.disk.desc j) :
    Good { v with disk := { v.disk with desc := desc } } := by
  obtain ⟨Q, U, f⟩ := g.flight
  refine ⟨g.own.congr rfl hd rfl fun _ => rfl, g.buf, Q, U, ?_⟩
  exact ⟨f.ring, f.availIdx, f.usedRing, f.usedIdx, f.nodup, f.mem, f.publish, f.pending, f.status, f.used, f.done,
    f.returned, f.tags, f.fresh, f.history⟩

namespace Inv

variable {s s' : State n} {p : Fin n} {b k : Nat} {a : Act n}

theorem init (n : Nat) : Inv (State.init n) where
  control := ⟨fun _ => by simp [State.init, Pc.locked], fun hb => by cases hb⟩
  panic := rfl
  good := by
    refine ⟨⟨?_, ?_, fun j => ?_, ?_⟩, ?_, [], [], trivial, rfl, trivial, rfl, List.nodup_nil, fun h => ?_, ?_, ?_, ?_, ?_,
      ?_, ?_, ?_, ?_, rfl⟩
    all_goals simp [State.view, State.init, Disk.init, View.owned, View.heads, Waits, Stage.owned, Stage.req, Pc.stage]

/-- What the protocol is about stays as it is. -/
theorem quiet (h : Inv s) (hc : Control s') (hp : s'.panic = s.panic) (hv : s'.view = s.view) : Inv s' :=
  ⟨hc, hp.trans h.panic, hv ▸ h.good⟩

theorem acquire (h : Inv s) (hb : s.holder b = none) :
    Inv { s with holder := update s.holder b (some p) } := by
  refine h.quiet ⟨h.control.lock, fun {q b'} hq => ?_⟩ rfl rfl
  have hold := h.control.holder hq
  refine (update_of_ne ?_ ..).trans hold
  rintro rfl
  rw [hb] at hold
  cases hold

theorem release (h : Inv s) (hp : (s.pc p).buf = none) (hb : s.holder b = some p) :
    Inv { s with holder := update s.holder b none } := by
  refine h.quiet ⟨h.control.lock, fun {q b'} hq => ?_⟩ rfl rfl
  have hold := h.control.holder hq
  refine (update_of_ne ?_ ..).trans hold
  rintro rfl
  rw [hb] at hold
  cases hold
  exact absurd (hp.symm.trans hq) nofun

theorem call (h : Inv s) (hl : s.lock = .free) (hp : (s.pc p).buf = none) (hb : s.holder b = some p)
    (blockno : BitVec 32) (write : Bool) : Inv (s.call p b blockno write) := by
  refine ⟨?_, h.panic, ?_⟩
  · refine Control.goto (s := { s with tags := s.tags + 1 }) ⟨h.control.lock, h.control.holder⟩ (.inl hl) ?_
    intro b' hb'
    cases hb'
    exact hb
  · rw [State.call, State.view_goto]
    refine h.good.call (req_eq_none.mpr hp) rfl fun q r' hq hqr heq => ?_
    have hold := h.control.holder (buf_of_req hqr)
    rw [← heq] at hold
    exact hq (some.inj (hold.symm.trans hb))

/-- No other process is about to move `avail->idx`. -/
theorem not_publish (h : Inv s) (hp : (s.pc p).locked = true) (q : Fin n) (r : Req) (i : Idx) (hq : q ≠ p) :
    s.view.stage q ≠ .publish r i :=
  fun hs => hq (h.control.eq_of_locked hp (stage_eq_publish hs))

/-- A process with the lock held, by what it does next. -/
theorem lock_of_pc (h : Inv s) (hp : s.pc p = pc) (hl : pc.locked = true) : s.lock = .proc p :=
  (h.control.lock p).mp (hp ▸ hl)

theorem tryAlloc (h : Inv s) (hp : s.pc p = .alloc r .running) : Inv (s.tryAlloc p r) := by
  have hl : s.lock = .proc p := h.lock_of_pc hp rfl
  have hst : s.view.stage p = .alloc r := congrArg Pc.stage hp
  rw [State.tryAlloc]
  rcases alloc3Desc_cases s.disk with ⟨i, hi, hf, ha⟩ | ⟨desc, freed, hd, ha⟩
  · rw [ha]
    refine ⟨?_, h.panic, ?_⟩
    · refine Control.goto_buf (s := { s with disk := _, flag := _ }) ⟨h.control.lock, h.control.holder⟩ (.inr hl) ?_
      rw [hp]
      rfl
    · simp only [view_goto]
      refine h.good.prepare hst hi hf fun q r' i' hq => ?_
      have hqp := h.control.eq_of_locked (p := p) (by rw [hp]; rfl) (stage_eq_publish hq)
      rw [hqp, hst] at hq
      cases hq
  · rw [ha]
    have hgood : Good { s with disk := { s.disk with desc := desc } }.view := h.good.desc hd
    have hcon := h.control.disk { s.disk with desc := desc }
    cases freed with
    | true =>
      refine ⟨hcon.wakeFree.goto_buf (.inr hl) ?_, h.panic, ?_⟩
      · simp only [wakeFree, hp]
        rfl
      · simp only [if_true]
        rw [view_goto_self, view_wakeFree]
        · exact hgood
        · simp only [wakeFree, hp]
          rfl
    | false =>
      refine ⟨hcon.goto_buf (.inr hl) ?_, h.panic, ?_⟩
      · simp only [hp]
        rfl
      · simp only [Bool.false_eq_true, if_false]
        rw [view_goto_self]
        · exact hgood
        · simp only [hp]
          rfl

theorem publish (h : Inv s) (hp : s.pc p = .publish r i) : Inv (s.publish p r i) := by
  have hl : s.lock = .proc p := h.lock_of_pc hp rfl
  refine ⟨?_, h.panic, ?_⟩
  · refine (h.control.disk _).goto_buf (.inr hl) ?_
    simp only [hp]
    rfl
  · rw [State.publish, State.view_goto]
    exact h.good.publish (congrArg Pc.stage hp) (h.not_publish (by rw [hp]; rfl))

theorem await (h : Inv s) (hp : s.pc p = .wait r i .running) : Inv (s.await p r i) := by
  have hl : s.lock = .proc p := h.lock_of_pc hp rfl
  have hst : s.view.stage p = .wait r i := congrArg Pc.stage hp
  have how : s.view.owned p = some (r, i) := congrArg Stage.owned hst
  rw [State.await]
  split
  · refine h.quiet (h.control.goto_buf (.inr hl) ?_) rfl (view_goto_self ?_) <;> rw [hp] <;> rfl
  · next hfl =>
    obtain ⟨desc, hd, hfree⟩ := freeChain_formatted (d := { s.disk with
      info := update s.disk.info i.hdr { s.disk.info i.hdr with b := none } })
      (h.good.own.formatted how) rfl (h.good.own.nodup how) fun j => h.good.own.not_free how
    rw [hfree]
    refine ⟨?_, h.panic, ?_⟩
    · exact (h.control.disk _).wakeFree.goto (.inr hl) nofun
    · rw [Bool.not_eq_true] at hfl
      simp only [view_goto, view_wakeFree]
      exact h.good.finish hst hfl hd

theorem next (h : Inv s) (hs : s.next p = some s') : Inv s' := by
  rw [State.next] at hs
  split at hs
  · next hp =>
    cases hs
    exact h.tryAlloc hp
  · next hp =>
    cases hs
    exact h.publish hp
  · next hp =>
    cases hs
    exact h.await hp
  · cases hs

theorem resume (h : Inv s) (hl : s.lock = .free) (hs : s.resume p = some s') : Inv s' := by
  rw [State.resume] at hs
  split at hs
  · next hp =>
    cases hs
    refine h.quiet (h.control.goto_buf (.inl hl) ?_) rfl (view_goto_self ?_) <;> rw [hp] <;> rfl
  · next hp =>
    cases hs
    refine h.quiet (h.control.goto_buf (.inl hl) ?_) rfl (view_goto_self ?_) <;> rw [hp] <;> rfl
  · cases hs

theorem kill (h : Inv s) (p : Fin n) : Inv { s with pc := update s.pc p (s.pc p).kill } :=
  h.quiet (h.control.similar (wakes_kill.one _ p) rfl rfl) rfl (view_similar (wakes_kill.one _ p))

/-- The handler finds the entry of a request, and clears the flag of its buffer. -/
theorem intrNext_clear (h : Inv s) (hne : s.disk.used_idx ≠ s.disk.usedIdx) :
    ∃ b, s.flag b = true ∧ Good (s.view.clear b) ∧ s.intrNext = { s with
      flag := update s.flag b false
      pc := fun q => (s.pc q).wakeBuf b
      disk := { s.disk with used_idx := s.disk.used_idx + 1 }
      cleared := s.cleared ++ [b] } := by
  obtain ⟨Q, U, f⟩ := h.good.flight
  cases U with
  | nil => exact absurd (f.usedIdx.trans (BitVec.add_zero _)).symm hne
  | cons x U =>
    obtain ⟨p, r, hw, hfl, hb, hg⟩ := h.good.clear f
    have hring : s.disk.usedRing (cell NUM s.disk.used_idx) = BitVec.ofNat 32 x.val := f.usedRing.1
    have hid : (BitVec.ofNat 32 x.val).toNat = x := by
      rw [BitVec.toNat_ofNat, Nat.mod_eq_of_lt]
      exact Nat.lt_trans x.isLt (by decide)
    have hst : (s.disk.info x).status = 0 := f.status x (List.mem_cons_self ..)
    refine ⟨r.buf, hfl, hg, ?_⟩
    simp only [intrNext, if_pos hne, hring, hid, dif_pos x.isLt, Fin.eta, hst]
    change (s.disk.info x).b = _ at hb
    simp [hb]

theorem intrNext (h : Inv s) (hl : s.lock = .intr) : Inv s.intrNext := by
  by_cases hne : s.disk.used_idx ≠ s.disk.usedIdx
  · obtain ⟨b, -, hg, hs⟩ := h.intrNext_clear hne
    rw [hs]
    refine ⟨h.control.similar ((wakes_buf b).all _) rfl rfl, h.panic, ?_⟩
    simp only [view, (wakes_buf b).stage]
    exact hg
  · rw [State.intrNext, if_neg hne]
    refine h.quiet ⟨fun q => ?_, h.control.holder⟩ rfl rfl
    have := h.control.lock q
    rw [hl] at this
    simpa using this

/-- The device finds a request at the head that it takes. -/
theorem take (h : Inv s) (hs : s.take = some s') : Inv s' := by
  rw [State.take] at hs
  split at hs
  · cases hs
  · next hne =>
    obtain ⟨Q, U, f⟩ := h.good.flight
    cases Q with
    | nil => exact absurd (f.availIdx.trans (BitVec.add_zero _)).symm hne
    | cons x Q =>
      obtain ⟨p, r, i, hi, rfl, hg⟩ := h.good.take f
      have hring : s.disk.ring (cell NUM s.seen) = BitVec.ofNat 16 i.hdr.val := f.ring.1
      simp only [hring, toNat_ofNat_fin, dif_pos i.hdr.isLt, Fin.eta, follow_formatted (h.good.own.formatted hi),
        map_some, some.injEq] at hs
      cases hs
      exact ⟨⟨h.control.lock, h.control.holder⟩, h.panic, hg⟩

theorem step (h : Inv s) (hs : Virtio.step s a = some s') : Inv s' := by
  unfold Virtio.step at hs
  rw [if_neg (not_not.mpr h.panic)] at hs
  cases a <;> simp only [ite_none_right_eq_some, some.injEq] at hs
  case acquire =>
    obtain ⟨⟨-, hb⟩, rfl⟩ := hs
    exact h.acquire hb
  case release =>
    obtain ⟨⟨hp, hb⟩, rfl⟩ := hs
    exact h.release hp hb
  case call =>
    obtain ⟨⟨hl, hp, hb⟩, rfl⟩ := hs
    exact h.call hl hp hb _ _
  case next => exact h.next hs
  case resume => exact h.resume hs.1 hs.2
  case kill =>
    cases hs
    exact h.kill _
  case intr =>
    obtain ⟨hl, rfl⟩ := hs
    refine h.quiet ⟨fun q => ?_, h.control.holder⟩ rfl rfl
    have := h.control.lock q
    rw [hl] at this
    simpa using this
  case intrNext =>
    obtain ⟨hl, rfl⟩ := hs
    exact h.intrNext hl
  case take => exact h.take hs
  case complete =>
    obtain ⟨ht, rfl⟩ := hs
    exact ⟨⟨h.control.lock, h.control.holder⟩, h.panic, h.good.complete ht⟩

/-! ## The avail ring -/

/-- A head that the device has not seen is in its slot after the next head has been
written. -/
theorem ring_tryAlloc (h : Inv s) (r : Req) (hk : k < (s.disk.availIdx - s.seen).toNat) :
    (s.tryAlloc p r).disk.ring (cell NUM (s.seen + BitVec.ofNat 16 k)) =
      s.disk.ring (cell NUM (s.seen + BitVec.ofNat 16 k)) := by
  rw [State.tryAlloc]
  rcases alloc3Desc_cases s.disk with ⟨i, hi, hf, ha⟩ | ⟨desc, freed, hd, ha⟩
  · rw [ha]
    obtain ⟨Q, U, f⟩ := h.good.flight
    have hnew : i.hdr ∉ s.view.heads Q U := by
      intro hh
      have hnf := f.not_free h.good hh
      exact absurd (hnf.symm.trans (hf _ (List.mem_cons_self ..))) nofun
    have hlt := f.avail_lt hnew
    have hidx : s.disk.availIdx = s.seen + BitVec.ofNat 16 Q.length := f.availIdx
    rw [hidx, sub_length _ (Nat.lt_trans hlt (by decide))] at hk
    refine update_of_ne ?_ ..
    rw [hidx]
    exact cell_add_ne ⟨2 ^ 13, rfl⟩ _ hk (by omega)
  · rw [ha]
    cases freed <;> rfl

theorem ring_await (h : Inv s) (hp : s.pc p = .wait r i .running) :
    (s.await p r i).disk.ring = s.disk.ring := by
  have how : s.view.owned p = some (r, i) := congrArg (fun pc => pc.stage.owned) hp
  rw [State.await]
  split
  · rfl
  · obtain ⟨desc, -, hfree⟩ := freeChain_formatted (d := { s.disk with
      info := update s.disk.info i.hdr { s.disk.info i.hdr with b := none } })
      (h.good.own.formatted how) rfl (h.good.own.nodup how) fun j => h.good.own.not_free how
    rw [hfree]
    rfl

/-- No step overwrites the slot of a head that the device has not seen. -/
theorem ring_kept (h : Inv s) (hs : Virtio.step s a = some s') (hk : k < (s.disk.availIdx - s.seen).toNat) :
    s'.disk.ring (cell NUM (s.seen + BitVec.ofNat 16 k)) = s.disk.ring (cell NUM (s.seen + BitVec.ofNat 16 k)) := by
  unfold Virtio.step at hs
  rw [if_neg (not_not.mpr h.panic)] at hs
  cases a <;> simp only [ite_none_right_eq_some, some.injEq] at hs
  case next p =>
    rw [State.next] at hs
    split at hs
    · cases hs
      exact h.ring_tryAlloc _ hk
    · cases hs
      rfl
    · next hp =>
      cases hs
      rw [h.ring_await hp]
    · cases hs
  case resume p =>
    obtain ⟨-, hs⟩ := hs
    rw [State.resume] at hs
    split at hs <;> cases hs <;> rfl
  case take =>
    rw [State.take] at hs
    split at hs
    · cases hs
    · simp only [] at hs
      split at hs
      · obtain ⟨t, -, rfl⟩ := map_eq_some_iff.mp hs
        rfl
      · cases hs
  case intrNext =>
    obtain ⟨-, rfl⟩ := hs
    by_cases hne : s.disk.used_idx ≠ s.disk.usedIdx
    · obtain ⟨b, -, -, hs⟩ := h.intrNext_clear hne
      rw [hs]
    · rw [State.intrNext, if_neg hne]
  case kill =>
    cases hs
    rfl
  all_goals
    obtain ⟨-, rfl⟩ := hs
    rfl

end Inv

theorem run_inv {s : State n} {as : List (Act n)} (hr : Run step (State.init n) as s) : Inv s :=
  hr.invariant (Inv.init n) fun h hs => h.step hs

theorem owned_stage (pc : Pc) : pc.stage.owned = pc.owned := by cases pc <;> rfl

/-- In every run, each request owns three descriptors of its own, and the others
are free; nothing panics; `virtio_disk_rw` returns when the device has completed
its request, which it has not at the call; the handler clears the flags of the
buffers of the completed requests, in order and one for each entry of the used
ring; and the slots of the heads that the device has not seen are kept. -/
theorem virtio_protocol {s : State n} {as : List (Act n)} (hr : Run step (State.init n) as s) :
    s.panic = none ∧ (∀ p r i, (s.pc p).owned = some (r, i) → i.list.Nodup ∧ ∀ j ∈ i.list, s.disk.free j = false) ∧
      (∀ p q r i r' i', (s.pc p).owned = some (r, i) → (s.pc q).owned = some (r', i') → p ≠ q →
        ∀ j ∈ i.list, j ∉ i'.list) ∧
      (∀ j, (∀ p r i, (s.pc p).owned = some (r, i) → j ∉ i.list) → s.disk.free j = true) ∧
      (∀ p r, s.pc p = .returned r → r ∈ s.completed) ∧
      s.cleared <+: s.completed.map Req.buf ∧
      s.completed.length = s.cleared.length + (s.disk.usedIdx - s.disk.used_idx).toNat ∧
      ∀ a s', step s a = some s' →
        (∀ p b blockno write, a = .call p b blockno write →
          ∃ r, s'.pc p = .alloc r .running ∧ r.buf = b ∧ r ∉ s'.completed) ∧
        (a = .intrNext → s.disk.used_idx ≠ s.disk.usedIdx → ∃ b, s.flag b = true ∧ s'.flag = update s.flag b false) ∧
        ∀ k < (s.disk.availIdx - s.seen).toNat, s'.disk.ring (cell NUM (s.seen + BitVec.ofNat 16 k)) =
          s.disk.ring (cell NUM (s.seen + BitVec.ofNat 16 k)) := by
  have h := run_inv hr
  obtain ⟨Q, U, f⟩ := h.good.flight
  have how : ∀ {p r i}, (s.pc p).owned = some (r, i) → s.view.owned p = some (r, i) :=
    fun hp => (owned_stage _).trans hp
  refine ⟨h.panic, fun p r i hp => ⟨h.good.own.nodup (how hp), fun j => h.good.own.not_free (how hp)⟩,
    fun p q r i r' i' hp hq => h.good.own.disjoint (how hp) (how hq), fun j hj => ?_,
    fun p r hp => f.returned (congrArg Pc.stage hp), ?_, ?_, fun a s' hs => ⟨?_, ?_, fun k hk => h.ring_kept hs hk⟩⟩
  · by_contra hfree
    rw [Bool.not_eq_true] at hfree
    obtain ⟨p, r, i, hp, hji⟩ := (h.good.own.free j).mp hfree
    exact hj p r i ((owned_stage _).symm.trans hp) hji
  · have hist : (s.completed.map Req.buf).map some = s.cleared.map some ++ U.map fun h => (s.disk.info h).b := by
      rw [List.map_map]
      exact f.history
    exact (List.prefix_map_iff_of_injective (some_injective _)).mp ⟨_, hist.symm⟩
  · have hlen := congrArg List.length f.history
    have hidx : s.disk.usedIdx = s.disk.used_idx + BitVec.ofNat 16 U.length := f.usedIdx
    have hU : U.length < 2 ^ 16 := Nat.lt_of_le_of_lt (length_le_of_nodup f.nodup_used) (by decide)
    rw [hidx, sub_length _ hU]
    rw [List.length_map, List.length_append, List.length_map, List.length_map] at hlen
    exact hlen
  · rintro p b blockno write rfl
    unfold step at hs
    simp only [if_neg (not_not.mpr h.panic), ite_none_right_eq_some, some.injEq] at hs
    obtain ⟨-, rfl⟩ := hs
    refine ⟨_, update_self .., rfl, fun hm => ?_⟩
    exact absurd (f.tags _ hm) (Nat.lt_irrefl _)
  · rintro rfl hne
    unfold step at hs
    simp only [if_neg (not_not.mpr h.panic), ite_none_right_eq_some, some.injEq] at hs
    obtain ⟨-, rfl⟩ := hs
    obtain ⟨b, hb, -, hs⟩ := h.intrNext_clear hne
    exact ⟨b, hb, by rw [hs]⟩

/-- Two processes read block 1 and write block 2; the device completes the write
first, and the handler finds both. -/
def virtioRun : List (Act 2) :=
  [.acquire 0 5, .acquire 1 6, .call 0 5 1 false, .next 0, .next 0, .next 0, .call 1 6 2 true, .next 1, .next 1,
    .next 1, .take, .take, .complete ⟨3, ⟨⟨true, 4, 1⟩, 6⟩, 3⟩, .complete ⟨0, ⟨⟨false, 2, 0⟩, 5⟩, 0⟩, .intr,
    .intrNext, .intrNext, .intrNext, .resume 0, .next 0]

theorem virtio_protocol_two : ∃ s, Run step (State.init 2) virtioRun s ∧ s.cleared = [6, 5] ∧
    ⟨⟨false, 2, 0⟩, 5⟩ ∈ s.completed ∧ s.disk.free 0 = true ∧ s.panic = none := by
  obtain ⟨s, hr, hc, hf, hp⟩ := exists_run step (init 2) virtioRun
    (Q := fun s => s.cleared = [6, 5] ∧ s.disk.free 0 = true ∧ s.pc 0 = .returned ⟨⟨false, 2, 0⟩, 5⟩)
    (by decide +kernel)
  obtain ⟨hn, -, -, -, hret, -⟩ := virtio_protocol hr
  exact ⟨s, hr, hc, hret 0 _ hp, hf, hn⟩

end Xv6.Dev.Virtio
