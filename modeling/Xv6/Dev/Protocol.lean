import Xv6.Dev.Descriptors

/-!
# The request protocol of the disk

A request is prepared, queued on the avail ring, taken by the device, put on the
used ring, and done. `Flight v Q U` says which requests are where: the heads on
the avail ring that the device has not seen are `Q`, those on the used ring that
the handler has not seen are `U`, and with those at the device they are, each
once, the heads of the requests whose buffer still has its flag. Each step moves
one request one stage further (`Flight.publish`, `Flight.take`,
`Flight.complete`, `Flight.clear`, `Flight.finish`), so that the slots that are
written are never in use, nothing panics, and a request that has returned was
completed (`virtio_protocol`).
-/

namespace Xv6.Dev.Virtio

open Framework Function List

variable {n : Nat} {h : Fin NUM} {q p : Fin n} {t : Taken} {r' : Req}

/-- How far a process is with its request. -/
inductive Stage
  | outside
  | alloc (r : Req)
  | publish (r : Req) (i : Idx)
  | wait (r : Req) (i : Idx)
  | returned (r : Req)

def Pc.stage : Pc → Stage
  | outside => .outside
  | alloc r _ => .alloc r
  | publish r i => .publish r i
  | wait r i _ => .wait r i
  | returned r => .returned r

namespace Stage

/-- The request of the process and its descriptors, while it has them. -/
def owned : Stage → Option (Req × Idx)
  | publish r i | wait r i => some (r, i)
  | _ => none

/-- The request that the process is in `virtio_disk_rw` for. -/
def req : Stage → Option Req
  | alloc r | publish r _ | wait r _ => some r
  | _ => none

/-- The process waits for its request. -/
def waiting : Stage → Bool
  | wait .. => true
  | _ => false

end Stage

/-- Process `p` waits for its request `r`, with head `h`. -/
def Waits (st : Fin n → Stage) (p : Fin n) (r : Req) (h : Fin NUM) : Prop := ∃ i, st p = .wait r i ∧ i.hdr = h

/-- What the protocol is about. -/
structure View (n : Nat) where
  disk : Disk
  stage : Fin n → Stage
  flag : Nat → Bool
  seen : BitVec 16
  pending : List Taken
  tags : Nat
  completed : List Req
  cleared : List Nat

def State.view (s : State n) : View n where
  disk := s.disk
  stage p := (s.pc p).stage
  flag := s.flag
  seen := s.seen
  pending := s.pending
  tags := s.tags
  completed := s.completed
  cleared := s.cleared

namespace View

variable (v : View n)

/-- The requests of the processes that have descriptors. -/
def owned (p : Fin n) : Option (Req × Idx) := (v.stage p).owned

/-- The heads that are on the rings or at the device. -/
def heads (Q U : List (Fin NUM)) : List (Fin NUM) := Q ++ v.pending.map Taken.head ++ U

end View

/-- Where the requests are. -/
structure Flight (v : View n) (Q U : List (Fin NUM)) : Prop where
  /-- The rings hold the heads. -/
  ring : Stored v.disk.ring v.seen (Q.map fun h => BitVec.ofNat 16 h.val)
  availIdx : v.disk.availIdx = v.seen + BitVec.ofNat 16 Q.length
  usedRing : Stored v.disk.usedRing v.disk.used_idx (U.map fun h => BitVec.ofNat 32 h.val)
  usedIdx : v.disk.usedIdx = v.disk.used_idx + BitVec.ofNat 16 U.length
  /-- No head is at two places, and their requests are those that are not done. -/
  nodup : (v.heads Q U).Nodup
  mem : ∀ h, h ∈ v.heads Q U ↔ ∃ p r, Waits v.stage p r h ∧ v.flag r.buf = true
  publish : ∀ {p r i}, v.stage p = .publish r i →
    v.disk.ring (cell NUM v.disk.availIdx) = BitVec.ofNat 16 i.hdr ∧ v.flag r.buf = true
  pending : ∀ t ∈ v.pending, t.status = t.head ∧ ∃ p, Waits v.stage p t.req t.head
  /-- A request on the used ring, or done, was completed. -/
  status : ∀ h ∈ U, (v.disk.info h).status = 0
  used : ∀ h ∈ U, ∀ {p r}, Waits v.stage p r h → r ∈ v.completed
  done : ∀ {p r h}, Waits v.stage p r h → v.flag r.buf = false → r ∈ v.completed
  returned : ∀ {p r}, v.stage p = .returned r → r ∈ v.completed
  /-- Requests have numbers of their own. -/
  tags : ∀ r ∈ v.completed, r.op.tag < v.tags
  fresh : ∀ {p r}, (v.stage p).req = some r → r.op.tag < v.tags
  /-- The handler follows the device. -/
  history : v.completed.map (fun r => some r.buf) = v.cleared.map some ++ U.map fun h => (v.disk.info h).b

/-- A view with its owners; each buffer is used by one process at a time. -/
structure Good (v : View n) : Prop where
  own : Own v.disk v.owned
  buf : ∀ {p q r r'}, (v.stage p).req = some r → (v.stage q).req = some r' → r.buf = r'.buf → p = q
  flight : ∃ Q U, Flight v Q U

section Waits

variable {st : Fin n → Stage} {p q : Fin n} {x : Stage} {r r' : Req} {h : Fin NUM}

theorem Waits.owned (hw : Waits st p r h) : ∃ i, (st p).owned = some (r, i) ∧ i.hdr = h := by
  obtain ⟨i, hs, hh⟩ := hw
  exact ⟨i, by rw [hs]; rfl, hh⟩

theorem Waits.req (hw : Waits st p r h) : (st p).req = some r := by
  obtain ⟨i, hs, -⟩ := hw
  rw [hs]
  rfl

/-- A process that does not wait, and does not go on to wait. -/
theorem waits_update (hp : (st p).waiting = false) (hx : x.waiting = false) :
    Waits (update st p x) q r h ↔ Waits st q r h := by
  refine exists_congr fun i => and_congr_left' (update_eq_iff ⟨fun hs => ?_, fun hs => ?_⟩)
  · rw [hs] at hx
    cases hx
  · rw [hs] at hp
    cases hp

/-- A process goes on to wait. -/
theorem waits_update_wait (hp : (st p).waiting = false) {i : Idx} :
    Waits (update st p (.wait r' i)) q r h ↔ q = p ∧ r = r' ∧ h = i.hdr ∨ Waits st q r h := by
  by_cases hq : q = p
  · subst hq
    constructor
    · rintro ⟨i', hs, rfl⟩
      rw [update_self] at hs
      cases hs
      exact .inl ⟨rfl, rfl, rfl⟩
    · rintro (⟨-, rfl, rfl⟩ | ⟨i', hs, -⟩)
      · exact ⟨i, update_self .., rfl⟩
      · rw [hs] at hp
        cases hp
  · rw [Waits, Waits, update_of_ne hq]
    simp [hq]

/-- A process has waited. -/
theorem waits_update_not (hx : x.waiting = false) :
    Waits (update st p x) q r h ↔ q ≠ p ∧ Waits st q r h := by
  by_cases hq : q = p
  · subst hq
    constructor
    · rintro ⟨i, hs, -⟩
      rw [update_self] at hs
      rw [hs] at hx
      cases hx
    · exact fun hn => absurd rfl hn.1
  · rw [Waits, Waits, update_of_ne hq]
    simp [hq]

end Waits

/-- A head has one process that waits for it. -/
theorem Good.eq_of_waits {v : View n} (g : Good v) {r : Req} (hp : Waits v.stage p r h)
    (hq : Waits v.stage q r' h) : p = q ∧ r = r' := by
  obtain ⟨i, hi, hh⟩ := hp.owned
  obtain ⟨i', hi', hh'⟩ := hq.owned
  rw [← View.owned] at hi hi'
  have hpq := g.own.eq_of_hdr hi hi' (hh.trans hh'.symm)
  subst hpq
  rw [hi] at hi'
  cases hi'
  exact ⟨rfl, rfl⟩

/-- A list of different heads fits into a ring. -/
theorem length_le_of_nodup {l : List (Fin NUM)} (h : l.Nodup) : l.length ≤ NUM := by
  have := h.length_le_card
  rwa [Fintype.card_fin] at this

/-! ## The stages of a request -/

namespace View

variable (v : View n) (p : Fin n) (r : Req) (i : Idx)

/-- A process calls `virtio_disk_rw`. -/
def call : View n := { v with tags := v.tags + 1, stage := update v.stage p (.alloc r) }

/-- It gets its descriptors, formats them, and writes its head to the avail ring. -/
def prepare : View n :=
  { v with
    disk := ({ v.disk with free := fun j => if j ∈ i.list then false else v.disk.free j } : Disk).format r i
    flag := update v.flag r.buf true
    stage := update v.stage p (.publish r i) }

/-- It moves `avail->idx`. -/
def publish : View n :=
  { v with
    disk := { v.disk with availIdx := v.disk.availIdx + 1 }
    stage := update v.stage p (.wait r i) }

/-- It gives its descriptors back, and returns. -/
def finish (desc : Fin NUM → Desc) : View n :=
  { v with
    disk := { v.disk with
      desc := desc
      free := fun j => if j ∈ i.list then true else v.disk.free j
      info := update v.disk.info i.hdr { v.disk.info i.hdr with b := none } }
    stage := update v.stage p (.returned r) }

/-- The handler is done with a buffer. -/
def clear (b : Nat) : View n :=
  { v with
    disk := { v.disk with used_idx := v.disk.used_idx + 1 }
    flag := update v.flag b false
    cleared := v.cleared ++ [b] }

/-- The device takes a request. -/
def take (t : Taken) : View n := { v with seen := v.seen + 1, pending := v.pending ++ [t] }

/-- The device completes a request. -/
def complete (t : Taken) : View n :=
  { v with
    pending := v.pending.erase t
    disk := { v.disk with
      info := update v.disk.info t.status { v.disk.info t.status with status := 0 }
      usedRing := update v.disk.usedRing (cell NUM v.disk.usedIdx) (BitVec.ofNat 32 t.head)
      usedIdx := v.disk.usedIdx + 1 }
    completed := v.completed ++ [t.req] }

end View

theorem owned_update (st : Fin n → Stage) (p : Fin n) (x : Stage) :
    (fun q => (update st p x q).owned) = update (fun q => (st q).owned) p x.owned := by
  funext q
  exact Function.apply_update (fun _ => Stage.owned) st p x q

namespace Good

variable {v : View n} {p : Fin n} {r : Req} {i : Idx}

variable {x : Stage}

/-- A process that is at a request, or comes to it, is the only one with its
buffer. -/
theorem buf_update (g : Good v)
    (hx : ∀ r, x.req = some r → ∀ q r', q ≠ p → (v.stage q).req = some r' → r.buf ≠ r'.buf) :
    ∀ {q q' r r'}, (update v.stage p x q).req = some r → (update v.stage p x q').req = some r' →
      r.buf = r'.buf → q = q' := by
  intro q q' r r' hq hq' hb
  by_cases h : q = p <;> by_cases h' : q' = p
  · rw [h, h']
  · subst h
    rw [update_self] at hq
    rw [update_of_ne h'] at hq'
    exact absurd hb (hx r hq q' r' h' hq')
  · subst h'
    rw [update_self] at hq'
    rw [update_of_ne h] at hq
    exact absurd hb.symm (hx r' hq' q r h hq)
  · rw [update_of_ne h] at hq
    rw [update_of_ne h'] at hq'
    exact g.buf hq hq' hb

end Good

namespace Flight

variable {v : View n} {Q U : List (Fin NUM)} {p : Fin n} {r : Req} {i : Idx}

/-- The requests of the processes are not new, when one goes on to `x`. -/
theorem fresh_update (f : Flight v Q U) {T : Nat} (hT : v.tags ≤ T)
    (hx : ∀ r', x.req = some r' → r'.op.tag < T) (hq : (update v.stage p x q).req = some r') :
    r'.op.tag < T := by
  by_cases hqp : q = p
  · subst hqp
    rw [update_self] at hq
    exact hx r' hq
  · rw [update_of_ne hqp] at hq
    exact Nat.lt_of_lt_of_le (f.fresh hq) hT

/-- The descriptors of the requests on the used ring are left alone. -/
theorem history_congr (f : Flight v Q U) {info : Fin NUM → Info} (h : ∀ j ∈ U, info j = v.disk.info j) :
    v.completed.map (fun r => some r.buf) = v.cleared.map some ++ U.map fun j => (info j).b := by
  refine f.history.trans (congrArg _ (map_congr_left fun j hj => ?_))
  rw [h j hj]

theorem call (f : Flight v Q U) (hp : (v.stage p).req = none) (hr : r.op.tag = v.tags) :
    Flight (v.call p r) Q U := by
  have hw : (v.stage p).waiting = false := by
    cases hs : v.stage p <;> first | rfl | (rw [hs] at hp; cases hp)
  have hiff : ∀ {q r' h}, Waits (v.call p r).stage q r' h ↔ Waits v.stage q r' h := waits_update hw rfl
  exact { f with
    mem := fun h => by
      simp only [hiff]
      exact f.mem h
    publish := fun hs => f.publish (update_eq_of_ne hs nofun)
    pending := fun t ht => by
      simp only [hiff]
      exact f.pending t ht
    used := fun h hh _ _ hw => f.used h hh (hiff.mp hw)
    done := fun hw => f.done (hiff.mp hw)
    returned := fun hs => f.returned (update_eq_of_ne hs nofun)
    tags := fun r' hr' => Nat.lt_succ_of_lt (f.tags r' hr')
    fresh := f.fresh_update (Nat.le_succ _) fun r' hr' => by
      cases hr'
      exact hr ▸ Nat.lt_succ_self _ }

/-- A head on a ring or at the device belongs to somebody. -/
theorem not_free (f : Flight v Q U) (g : Good v) (hh : h ∈ v.heads Q U) : v.disk.free h = false := by
  obtain ⟨p, r, hw, -⟩ := (f.mem h).mp hh
  obtain ⟨i, hi, rfl⟩ := hw.owned
  exact g.own.not_free hi (mem_cons_self ..)

theorem nodup_avail (f : Flight v Q U) : Q.Nodup := (nodup_append.mp (nodup_append.mp f.nodup).1).1

theorem nodup_used (f : Flight v Q U) : U.Nodup := (nodup_append.mp f.nodup).2.1

/-- A slot of the avail ring is left for a head that is not on it. -/
theorem avail_lt (f : Flight v Q U) (hh : h ∉ v.heads Q U) : Q.length < NUM := by
  have hn : (h :: Q).Nodup := nodup_cons.mpr ⟨fun hq => hh (by simp [View.heads, hq]), f.nodup_avail⟩
  exact length_le_of_nodup hn

theorem used_lt (f : Flight v Q U) (hh : h ∉ U) : U.length < NUM :=
  length_le_of_nodup (nodup_cons.mpr ⟨hh, f.nodup_used⟩)

theorem mem_used (hh : h ∈ U) : h ∈ v.heads Q U := mem_append_right _ hh

theorem mem_pending (ht : t ∈ v.pending) : t.head ∈ v.heads Q U :=
  mem_append_left _ (mem_append_right _ (mem_map_of_mem ht))

/-- The slots of the heads that the device has not seen are kept. -/
theorem ring_update (f : Flight v Q U) (hlt : Q.length < NUM) (x : BitVec 16) :
    Stored (update v.disk.ring (cell NUM v.disk.availIdx) x) v.seen
      (Q.map fun h => BitVec.ofNat 16 h.val) := by
  have hpush := f.ring.push ⟨2 ^ 13, rfl⟩ (by rwa [length_map]) x
  rw [length_map, ← f.availIdx] at hpush
  exact (Stored.append.mp hpush).1

theorem prepare (f : Flight v Q U) (g : Good v) (hp : v.stage p = .alloc r) (hf : v.disk.free i.hdr = true)
    (hpub : ∀ q r' i', v.stage q ≠ .publish r' i') : Flight (v.prepare p r i) Q U := by
  have hnew : i.hdr ∉ v.heads Q U := by
    intro hh
    have := f.not_free g hh
    rw [hf] at this
    cases this
  have hiff : ∀ {q r' h}, Waits (v.prepare p r i).stage q r' h ↔ Waits v.stage q r' h :=
    waits_update (by rw [hp]; rfl) rfl
  have hflag : ∀ {q r' h}, Waits v.stage q r' h → (v.prepare p r i).flag r'.buf = v.flag r'.buf := by
    intro q r' h hw
    refine update_of_ne (fun hb => ?_) ..
    have hqp := g.buf hw.req (by rw [hp]; rfl) hb
    obtain ⟨i', hs, -⟩ := hw
    rw [hqp, hp] at hs
    cases hs
  have hinfo : ∀ h ∈ U, (v.prepare p r i).disk.info h = v.disk.info h := by
    intro h hh
    refine update_of_ne ?_ ..
    rintro rfl
    exact hnew (mem_used hh)
  exact { f with
    ring := f.ring_update (f.avail_lt hnew) _
    mem := fun h => by
      refine (f.mem h).trans ?_
      simp only [hiff]
      constructor <;> rintro ⟨q, r', hw, hfl⟩
      · exact ⟨q, r', hw, (hflag hw).trans hfl⟩
      · exact ⟨q, r', hw, (hflag hw).symm.trans hfl⟩
    publish := fun {q r' i'} hs => by
      obtain ⟨rfl, he⟩ | ⟨-, hs⟩ := update_eq_cases hs
      · cases he
        exact ⟨update_self .., update_self ..⟩
      · exact absurd hs (hpub q r' i')
    pending := fun t ht => by
      simp only [hiff]
      exact f.pending t ht
    status := fun h hh => by
      rw [hinfo h hh]
      exact f.status h hh
    used := fun h hh _ _ hw => f.used h hh (hiff.mp hw)
    done := fun hw hfl => f.done (hiff.mp hw) ((hflag (hiff.mp hw)).symm.trans hfl)
    returned := fun hs => f.returned (update_eq_of_ne hs nofun)
    fresh := f.fresh_update le_rfl fun r' hr' => f.fresh (p := p) (by rw [hp]; exact hr')
    history := f.history_congr hinfo }

theorem publish_step (f : Flight v Q U) (g : Good v) (hp : v.stage p = .publish r i)
    (hpub : ∀ q r' i', q ≠ p → v.stage q ≠ .publish r' i') : Flight (v.publish p r i) (Q ++ [i.hdr]) U := by
  obtain ⟨hslot, hfl⟩ := f.publish hp
  have hnew : i.hdr ∉ v.heads Q U := by
    intro hh
    obtain ⟨q, r', hw, -⟩ := (f.mem _).mp hh
    obtain ⟨i', hi', hh'⟩ := hw.owned
    have hqp := g.own.eq_of_hdr (p := q) (q := p) hi' (by rw [View.owned, hp]; rfl) hh'
    obtain ⟨_, hs, -⟩ := hw
    rw [hqp, hp] at hs
    cases hs
  have hiff : ∀ {q r' h}, Waits (v.publish p r i).stage q r' h ↔ q = p ∧ r' = r ∧ h = i.hdr ∨ Waits v.stage q r' h :=
    waits_update_wait (by rw [hp]; rfl)
  have hperm : ((v.publish p r i).heads (Q ++ [i.hdr]) U).Perm (i.hdr :: v.heads Q U) := by
    simp only [View.heads, append_assoc, View.publish]
    exact perm_middle
  exact { f with
    ring := by
      rw [map_append, Stored.append, length_map]
      rw [f.availIdx] at hslot
      exact ⟨f.ring, hslot, trivial⟩
    availIdx := by
      simp only [View.publish, f.availIdx, length_append, length_singleton, BitVec.ofNat_add, BitVec.add_assoc]
      rfl
    nodup := hperm.nodup_iff.mpr (nodup_cons.mpr ⟨hnew, f.nodup⟩)
    mem := fun h => by
      rw [hperm.mem_iff, mem_cons, f.mem]
      simp only [hiff]
      constructor
      · rintro (rfl | ⟨q, r', hw, hq⟩)
        · exact ⟨p, r, .inl ⟨rfl, rfl, rfl⟩, hfl⟩
        · exact ⟨q, r', .inr hw, hq⟩
      · rintro ⟨q, r', ⟨-, -, rfl⟩ | hw, hq⟩
        · exact .inl rfl
        · exact .inr ⟨q, r', hw, hq⟩
    publish := fun {q r' i'} hs => by
      obtain ⟨-, he⟩ | ⟨hq, hs⟩ := update_eq_cases hs
      · cases he
      · exact absurd hs (hpub q r' i' hq)
    pending := fun t ht => by
      obtain ⟨hst, q, hw⟩ := f.pending t ht
      exact ⟨hst, q, hiff.mpr (.inr hw)⟩
    used := fun h hh _ _ hw => by
      rcases hiff.mp hw with ⟨-, -, rfl⟩ | hw
      · exact absurd (mem_used hh) hnew
      · exact f.used h hh hw
    done := fun hw hfl' => by
      rcases hiff.mp hw with ⟨-, rfl, -⟩ | hw
      · exact absurd (hfl.symm.trans hfl') nofun
      · exact f.done hw hfl'
    returned := fun hs => f.returned (update_eq_of_ne hs nofun)
    fresh := f.fresh_update le_rfl fun r' hr' => f.fresh (p := p) (by rw [hp]; exact hr') }

theorem finish (f : Flight v Q U) (g : Good v) (hp : v.stage p = .wait r i) (hfl : v.flag r.buf = false)
    (desc : Fin NUM → Desc) : Flight (v.finish p r i desc) Q U := by
  have hpw : Waits v.stage p r i.hdr := ⟨i, hp, rfl⟩
  have hold : i.hdr ∉ v.heads Q U := by
    intro hh
    obtain ⟨q, r', hw, hq⟩ := (f.mem _).mp hh
    obtain ⟨-, rfl⟩ := g.eq_of_waits hw hpw
    exact absurd (hfl.symm.trans hq) nofun
  have hiff : ∀ {q r' h}, Waits (v.finish p r i desc).stage q r' h ↔ q ≠ p ∧ Waits v.stage q r' h :=
    waits_update_not rfl
  have hinfo : ∀ h ∈ U, (v.finish p r i desc).disk.info h = v.disk.info h := by
    intro h hh
    refine update_of_ne ?_ ..
    rintro rfl
    exact hold (mem_used hh)
  exact { f with
    mem := fun h => by
      refine (f.mem h).trans ?_
      simp only [hiff]
      constructor
      · rintro ⟨q, r', hw, hq⟩
        refine ⟨q, r', ⟨?_, hw⟩, hq⟩
        rintro rfl
        have hr := hw.req.symm.trans hpw.req
        cases hr
        exact absurd (hfl.symm.trans hq) nofun
      · rintro ⟨q, r', ⟨-, hw⟩, hq⟩
        exact ⟨q, r', hw, hq⟩
    publish := fun hs => f.publish (update_eq_of_ne hs nofun)
    pending := fun t ht => by
      obtain ⟨hst, q, hw⟩ := f.pending t ht
      refine ⟨hst, q, hiff.mpr ⟨?_, hw⟩⟩
      rintro rfl
      obtain ⟨i', hs, hh⟩ := hw
      rw [hp] at hs
      cases hs
      exact hold (hh ▸ mem_pending ht)
    status := fun h hh => by
      rw [hinfo h hh]
      exact f.status h hh
    used := fun h hh _ _ hw => f.used h hh (hiff.mp hw).2
    done := fun hw => f.done (hiff.mp hw).2
    returned := fun {q r'} hs => by
      obtain ⟨rfl, he⟩ | ⟨-, hs⟩ := update_eq_cases hs
      · cases he
        exact f.done hpw hfl
      · exact f.returned hs
    fresh := f.fresh_update le_rfl fun _ h => by cases h
    history := f.history_congr hinfo }

theorem clear (f : Flight v Q (h :: U)) (g : Good v) (hw : Waits v.stage p r h)
    (hfl : v.flag r.buf = true) : Flight (v.clear r.buf) Q U := by
  have hperm : (v.heads Q (h :: U)).Perm (h :: v.heads Q U) := perm_middle
  obtain ⟨hnew, hnd⟩ := nodup_cons.mp (hperm.nodup_iff.mp f.nodup)
  have hbuf : ∀ {q r' x}, Waits v.stage q r' x → r'.buf = r.buf → r' = r ∧ x = h := by
    intro q r' x hq hb
    obtain rfl := g.buf hq.req hw.req hb
    obtain ⟨i, hs, rfl⟩ := hw
    obtain ⟨i', hs', rfl⟩ := hq
    rw [hs] at hs'
    cases hs'
    exact ⟨rfl, rfl⟩
  have hflag : ∀ {q r' x}, Waits v.stage q r' x → x ≠ h → (v.clear r.buf).flag r'.buf = v.flag r'.buf :=
    fun hq hx => update_of_ne (fun hb => hx (hbuf hq hb).2) ..
  exact { f with
    usedRing := f.usedRing.2
    usedIdx := by rw [View.clear, f.usedIdx, add_length_cons]
    nodup := hnd
    mem := fun x => by
      constructor
      · intro hx
        have hne : x ≠ h := by
          rintro rfl
          exact hnew hx
        obtain ⟨q, r', hq, hqf⟩ := (f.mem x).mp (hperm.mem_iff.mpr (mem_cons_of_mem _ hx))
        exact ⟨q, r', hq, (hflag hq hne).trans hqf⟩
      · rintro ⟨q, r', hq, hqf⟩
        have hne : x ≠ h := by
          rintro rfl
          obtain ⟨-, rfl⟩ := g.eq_of_waits hq hw
          simp [View.clear] at hqf
        have hx := (f.mem x).mpr ⟨q, r', hq, (hflag hq hne).symm.trans hqf⟩
        exact mem_of_ne_of_mem hne (hperm.mem_iff.mp hx)
    publish := fun {q r' i'} hs => by
      change v.stage q = _ at hs
      obtain ⟨h1, h2⟩ := f.publish hs
      refine ⟨h1, (update_of_ne (fun hb => ?_) ..).trans h2⟩
      obtain rfl := g.buf (p := q) (q := p) (by rw [hs]; rfl) hw.req hb
      obtain ⟨i, hs', -⟩ := hw
      rw [hs] at hs'
      cases hs'
    status := fun x hx => f.status x (mem_cons_of_mem _ hx)
    used := fun x hx => f.used x (mem_cons_of_mem _ hx)
    done := fun {q r' x} hq hqf => by
      by_cases hb : r'.buf = r.buf
      · obtain ⟨rfl, rfl⟩ := hbuf hq hb
        exact f.used _ (mem_cons_self ..) hq
      · exact f.done hq ((update_of_ne hb ..).symm.trans hqf)
    history := by
      obtain ⟨i, hi, rfl⟩ := hw.owned
      have hinfo := (g.own.formatted (p := p) hi).info
      rw [View.clear, map_append, append_assoc]
      refine f.history.trans ?_
      rw [map_cons, hinfo]
      rfl }

theorem take (f : Flight v (h :: Q) U) (hw : Waits v.stage p r h) :
    Flight (v.take ⟨h, r, h⟩) Q U := by
  have hperm : ((v.take ⟨h, r, h⟩).heads Q U).Perm (v.heads (h :: Q) U) := by
    simp only [View.heads, View.take, map_append, map_cons, map_nil, append_assoc, cons_append, nil_append]
    rw [← append_assoc]
    refine perm_middle.trans ?_
    rw [append_assoc]
  exact { f with
    ring := f.ring.2
    availIdx := by rw [View.take, f.availIdx, add_length_cons]
    nodup := hperm.nodup_iff.mpr f.nodup
    mem := fun x => hperm.mem_iff.trans (f.mem x)
    pending := fun t ht => by
      rcases mem_append.mp ht with ht | ht
      · exact f.pending t ht
      · rw [mem_singleton.mp ht]
        exact ⟨rfl, p, hw⟩ }

theorem complete (f : Flight v Q U) (g : Good v) (ht : t ∈ v.pending) :
    Flight (v.complete t) Q (U ++ [t.head]) := by
  obtain ⟨hst, p, hw⟩ := f.pending t ht
  have hperm : ((v.complete t).heads Q (U ++ [t.head])).Perm (v.heads Q U) := by
    have herase : (v.pending.map Taken.head).Perm (t.head :: (v.pending.erase t).map Taken.head) :=
      (perm_cons_erase ht).map Taken.head
    have hmid : (v.heads Q U).Perm (t.head :: (Q ++ (v.pending.erase t).map Taken.head ++ U)) := by
      refine ((herase.append_left Q).append_right U).trans ?_
      rw [append_assoc, append_assoc]
      exact perm_middle
    refine .trans ?_ hmid.symm
    simp only [View.heads, View.complete, ← append_assoc]
    exact perm_append_singleton ..
  have hnew : t.head ∉ U := fun hU =>
    (nodup_append.mp f.nodup).2.2 _ (mem_append_right _ (mem_map_of_mem ht)) _ hU rfl
  have hinfo : ∀ h ∈ U, (v.complete t).disk.info h = v.disk.info h := by
    intro h hh
    refine update_of_ne ?_ ..
    rintro rfl
    exact hnew (hst ▸ hh)
  have hself : (v.complete t).disk.info t.head = { v.disk.info t.head with status := 0 } := by
    rw [← hst]
    exact update_self ..
  exact { f with
    usedRing := by
      have hpush := f.usedRing.push ⟨2 ^ 13, rfl⟩ (by rw [length_map]; exact f.used_lt hnew)
        (BitVec.ofNat 32 t.head)
      rw [length_map, ← f.usedIdx] at hpush
      rw [map_append]
      exact hpush
    usedIdx := by
      simp only [View.complete, f.usedIdx, length_append, length_singleton, BitVec.ofNat_add, BitVec.add_assoc]
      rfl
    nodup := hperm.nodup_iff.mpr f.nodup
    mem := fun x => hperm.mem_iff.trans (f.mem x)
    pending := fun t' ht' => f.pending t' (mem_of_mem_erase ht')
    status := fun h hh => by
      rcases mem_append.mp hh with hh | hh
      · rw [hinfo h hh]
        exact f.status h hh
      · rw [mem_singleton.mp hh, hself]
    used := fun h hh q r' hq => by
      rcases mem_append.mp hh with hh | hh
      · exact mem_append_left _ (f.used h hh hq)
      · rw [mem_singleton.mp hh] at hq
        obtain ⟨-, rfl⟩ := g.eq_of_waits hq hw
        exact mem_append_right _ (mem_singleton_self _)
    done := fun hq hfl => mem_append_left _ (f.done hq hfl)
    returned := fun hs => mem_append_left _ (f.returned hs)
    tags := fun r' hr' => by
      rcases mem_append.mp hr' with hr' | hr'
      · exact f.tags r' hr'
      · rw [mem_singleton.mp hr']
        exact f.fresh hw.req
    history := by
      obtain ⟨i, hi, hh⟩ := hw.owned
      have hb : ((v.complete t).disk.info t.head).b = some t.req.buf := by
        rw [hself, ← hh]
        exact (g.own.formatted (p := p) hi).info
      rw [map_append, map_singleton, hb, ← append_assoc]
      simp only [View.complete, map_append, f.history_congr hinfo, map_singleton] }

end Flight

namespace Good

variable {v : View n} {p : Fin n} {r : Req} {i : Idx} {Q U : List (Fin NUM)}

theorem call (g : Good v) (hp : (v.stage p).req = none) (hr : r.op.tag = v.tags)
    (hb : ∀ q r', q ≠ p → (v.stage q).req = some r' → r.buf ≠ r'.buf) : Good (v.call p r) := by
  obtain ⟨Q, U, f⟩ := g.flight
  have hown : (v.call p r).owned = v.owned := by
    have hnone : (v.stage p).owned = none := by
      cases hs : v.stage p <;> first | rfl | (rw [hs] at hp; cases hp)
    have h := owned_update v.stage p (.alloc r)
    refine h.trans (update_eq_self_iff.mpr hnone.symm)
  refine ⟨hown ▸ g.own, g.buf_update fun r' hr' => ?_, Q, U, f.call hp hr⟩
  cases hr'
  exact hb

theorem prepare (g : Good v) (hp : v.stage p = .alloc r) (hi : i.list.Nodup)
    (hf : ∀ j ∈ i.list, v.disk.free j = true) (hpub : ∀ q r' i', v.stage q ≠ .publish r' i') :
    Good (v.prepare p r i) := by
  obtain ⟨Q, U, f⟩ := g.flight
  have hown : (v.prepare p r i).owned = update v.owned p (some (r, i)) := owned_update ..
  refine ⟨?_, g.buf_update fun r' hr' q r'' hq hqr hb => ?_, Q, U, f.prepare g hp (hf _ (mem_cons_self ..)) hpub⟩
  · rw [hown]
    exact g.own.alloc (by rw [View.owned, hp]; rfl) hi hf
  · cases hr'
    exact hq (g.buf hqr (by rw [hp]; rfl) hb.symm)

theorem publish (g : Good v) (hp : v.stage p = .publish r i)
    (hpub : ∀ q r' i', q ≠ p → v.stage q ≠ .publish r' i') : Good (v.publish p r i) := by
  obtain ⟨Q, U, f⟩ := g.flight
  have hown : (v.publish p r i).owned = v.owned := by
    have h := owned_update v.stage p (.wait r i)
    refine h.trans (update_eq_self_iff.mpr ?_)
    rw [hp]
    rfl
  refine ⟨?_, g.buf_update fun r' hr' q r'' hq hqr hb => ?_, Q ++ [i.hdr], U, f.publish_step g hp hpub⟩
  · rw [hown]
    exact g.own.congr rfl (fun _ _ => rfl) rfl fun _ => rfl
  · cases hr'
    exact hq (g.buf hqr (by rw [hp]; rfl) hb.symm)

theorem finish (g : Good v) (hp : v.stage p = .wait r i) (hfl : v.flag r.buf = false) {desc : Fin NUM → Desc}
    (hd : ∀ j, j ∉ i.list → desc j = v.disk.desc j) : Good (v.finish p r i desc) := by
  obtain ⟨Q, U, f⟩ := g.flight
  have hown : (v.finish p r i desc).owned = update v.owned p none := owned_update ..
  refine ⟨?_, g.buf_update fun r' hr' => ?_, Q, U, f.finish g hp hfl desc⟩
  · rw [hown]
    refine g.own.release (p := p) (r := r) (i := i) (by rw [View.owned, hp]; rfl) rfl hd rfl fun j hj => ?_
    have hj : j ≠ i.hdr := by
      rintro rfl
      exact hj (mem_cons_self ..)
    exact congrArg Info.b (update_of_ne hj ..)
  · cases hr'

theorem clear (g : Good v) (f : Flight v Q (h :: U)) :
    ∃ p r, Waits v.stage p r h ∧ v.flag r.buf = true ∧ (v.disk.info h).b = some r.buf ∧ Good (v.clear r.buf) := by
  obtain ⟨p, r, hw, hfl⟩ := (f.mem h).mp (Flight.mem_used (mem_cons_self ..))
  obtain ⟨i, hi, rfl⟩ := hw.owned
  refine ⟨p, r, hw, hfl, (g.own.formatted (p := p) hi).info, ?_, g.buf, Q, U, f.clear g hw hfl⟩
  exact g.own.congr rfl (fun _ _ => rfl) rfl fun _ => rfl

theorem take (g : Good v) (f : Flight v (h :: Q) U) :
    ∃ p r i, v.owned p = some (r, i) ∧ i.hdr = h ∧ Good (v.take ⟨h, r, h⟩) := by
  obtain ⟨p, r, hw, -⟩ := (f.mem h).mp (by simp [View.heads])
  obtain ⟨i, hi, hh⟩ := hw.owned
  exact ⟨p, r, i, hi, hh, g.own, g.buf, Q, U, f.take hw⟩

theorem complete (g : Good v) (ht : t ∈ v.pending) : Good (v.complete t) := by
  obtain ⟨Q, U, f⟩ := g.flight
  refine ⟨g.own.congr rfl (fun _ _ => rfl) rfl fun j => ?_, g.buf, Q, U ++ [t.head], f.complete g ht⟩
  simp only [View.complete]
  by_cases hj : j = t.status
  · subst hj
    rw [update_self]
  · rw [update_of_ne hj]

end Good

end Xv6.Dev.Virtio
