import Xv6.Dev.Virtio

/-!
# Who owns the descriptors

`Own d ow` says that the requests `ow` of the processes have three descriptors
each, that no two have one in common, that these are the descriptors that are not
marked free, and that they say what they should (`Formatted`). `alloc3_desc` takes
three that nobody owns (`alloc3Desc_cases`, `Own.alloc`), `free_chain` gives back
those of one request without a panic (`freeChain_formatted`, `Own.release`), and
the device reads a request off its head (`follow_formatted`).
-/

namespace Xv6.Dev.Virtio

open Framework Function List

variable {n : Nat} {d d' : Disk} {r : Req} {i : Idx} {j k : Fin NUM} {a : Addr} {fl : BitVec 16}

/-- The descriptors of a request. -/
def Idx.list (i : Idx) : List (Fin NUM) := [i.hdr, i.data, i.status]

/-- The descriptors of a request say what it is. -/
structure Formatted (d : Disk) (r : Req) (i : Idx) : Prop where
  op : d.ops i.hdr = r.op
  hdr : d.desc i.hdr = ⟨.op i.hdr, VRING_DESC_F_NEXT, BitVec.ofNat 16 i.data⟩
  data : d.desc i.data = ⟨.data r.buf, (if r.op.write then 0 else VRING_DESC_F_WRITE) ||| VRING_DESC_F_NEXT,
    BitVec.ofNat 16 i.status⟩
  status : d.desc i.status = ⟨.status i.hdr, VRING_DESC_F_WRITE, 0⟩
  info : (d.info i.hdr).b = some r.buf

/-! ## Allocation -/

theorem allocDesc_eq_some (h : d.allocDesc = some (j, d')) :
    d.free j = true ∧ d' = { d with free := update d.free j false } := by
  rw [Disk.allocDesc] at h
  split at h
  · next hf =>
    cases h
    exact ⟨List.find?_some hf, rfl⟩
  · cases h

theorem freeDesc_eq (h : d.free j = false) :
    d.freeDesc j = .ok { d with
      desc := update d.desc j ⟨.null, 0, 0⟩
      free := update d.free j true } := by
  rw [Disk.freeDesc, dif_pos j.isLt]
  simp [h]

/-- A mark that was taken away is put back. -/
theorem freeDesc_alloc {D : Fin NUM → Desc} {F : Fin NUM → Bool} (h : F j = true) :
    ({ d with desc := D, free := update F j false } : Disk).freeDesc j =
      .ok { d with desc := update D j ⟨.null, 0, 0⟩, free := F } := by
  rw [freeDesc_eq (update_self ..)]
  simp [← h]

/-- `alloc3_desc` marks three descriptors that were free, or leaves the marks as
they were and has changed no descriptor that is in use. -/
theorem alloc3Desc_cases (d : Disk) :
    (∃ i : Idx, i.list.Nodup ∧ (∀ j ∈ i.list, d.free j = true) ∧ d.alloc3Desc = .ok
      ({ d with free := fun j => if j ∈ i.list then false else d.free j }, .inl i)) ∨
    ∃ desc freed, (∀ j, d.free j = false → desc j = d.desc j) ∧
      d.alloc3Desc = .ok ({ d with desc := desc }, .inr freed) := by
  rw [Disk.alloc3Desc]
  cases h0 : d.allocDesc with
  | none => exact .inr ⟨d.desc, false, fun _ _ => rfl, rfl⟩
  | some x0 =>
    obtain ⟨i0, d0⟩ := x0
    obtain ⟨hf0, rfl⟩ := allocDesc_eq_some h0
    simp only []
    cases h1 : ({ d with free := update d.free i0 false } : Disk).allocDesc with
    | none =>
      refine .inr ⟨update d.desc i0 ⟨.null, 0, 0⟩, true, fun j hj => ?_, ?_⟩
      · rw [update_of_ne]
        rintro rfl
        rw [hf0] at hj
        cases hj
      · simp only [freeDesc_alloc hf0]
        rfl
    | some x1 =>
      obtain ⟨i1, d1⟩ := x1
      obtain ⟨hf1, rfl⟩ := allocDesc_eq_some h1
      have h10 : i1 ≠ i0 := by
        rintro rfl
        simp at hf1
      simp only [update_of_ne h10] at hf1 ⊢
      cases h2 : ({ d with free := update (update d.free i0 false) i1 false } : Disk).allocDesc with
      | none =>
        refine .inr ⟨update (update d.desc i0 ⟨.null, 0, 0⟩) i1 ⟨.null, 0, 0⟩, true, fun j hj => ?_, ?_⟩
        · rw [update_of_ne, update_of_ne]
          · rintro rfl
            rw [hf0] at hj
            cases hj
          · rintro rfl
            rw [hf1] at hj
            cases hj
        · have hF : update d.free i1 false i0 = true := by rw [update_of_ne h10.symm, hf0]
          rw [Function.update_comm h10.symm false false d.free]
          simp only [freeDesc_alloc hF, freeDesc_alloc hf1, bind, Except.bind]
          rfl
      | some x2 =>
        obtain ⟨i2, d2⟩ := x2
        obtain ⟨hf2, rfl⟩ := allocDesc_eq_some h2
        have h21 : i2 ≠ i1 := by
          rintro rfl
          simp at hf2
        have h20 : i2 ≠ i0 := by
          rintro rfl
          simp [h21] at hf2
        simp only [update_of_ne h21, update_of_ne h20] at hf2
        refine .inl ⟨⟨i0, i1, i2⟩, ?_, ?_, ?_⟩
        · simp [Idx.list, h10.symm, h21.symm, h20.symm]
        · simp [Idx.list, hf0, hf1, hf2]
        · have : update (update (update d.free i0 false) i1 false) i2 false =
              fun j => if j ∈ Idx.list ⟨i0, i1, i2⟩ then false else d.free j := by
            funext j
            simp only [update_apply, Idx.list, mem_cons, not_mem_nil, or_false]
            grind
          rw [this]

theorem nodup_list_iff : i.list.Nodup ↔ i.hdr ≠ i.data ∧ i.hdr ≠ i.status ∧ i.data ≠ i.status := by
  simp [Idx.list, and_assoc]

theorem format_formatted (h : i.list.Nodup) : Formatted (d.format r i) r i := by
  obtain ⟨h01, h02, h12⟩ := nodup_list_iff.mp h
  refine ⟨?_, ?_, ?_, ?_, ?_⟩ <;> simp [Disk.format, h01, h02, h12]

/-! ## The end of a request -/

theorem flags_next (r : Req) :
    ((if r.op.write then 0 else VRING_DESC_F_WRITE) ||| VRING_DESC_F_NEXT) &&& VRING_DESC_F_NEXT ≠ 0 := by
  cases r.op.write <;> decide

theorem toNat_ofNat_fin (j : Fin NUM) : (BitVec.ofNat 16 j).toNat = j := by
  rw [BitVec.toNat_ofNat, Nat.mod_eq_of_lt]
  exact Nat.lt_trans j.isLt (by decide)

/-- A descriptor is marked free. -/
def Disk.freed (d : Disk) (j : Fin NUM) : Disk :=
  { d with desc := update d.desc j ⟨.null, 0, 0⟩, free := update d.free j true }

/-- An iteration of `free_chain`. -/
theorem freeChain_next (hf : d.free j = false)
    (hd : d.desc j = ⟨a, fl, BitVec.ofNat 16 k⟩) (hfl : fl &&& VRING_DESC_F_NEXT ≠ 0) (fuel : Nat) :
    d.freeChain (fuel + 1) j = (d.freed j).freeChain fuel k := by
  simp only [Disk.freeChain, freeDesc_eq hf, dif_pos j.isLt, Fin.eta, hd, if_pos hfl, toNat_ofNat_fin]
  rfl

/-- The last iteration of `free_chain`. -/
theorem freeChain_last {nxt : BitVec 16} (hf : d.free j = false)
    (hd : d.desc j = ⟨a, fl, nxt⟩) (hfl : ¬fl &&& VRING_DESC_F_NEXT ≠ 0) (fuel : Nat) :
    d.freeChain (fuel + 1) j = .ok (d.freed j) := by
  simp only [Disk.freeChain, freeDesc_eq hf, dif_pos j.isLt, Fin.eta, hd, if_neg hfl]
  rfl

theorem freed_of_ne (h : k ≠ j) :
    (d.freed j).desc k = d.desc k ∧ (d.freed j).free k = d.free k :=
  ⟨update_of_ne h .., update_of_ne h ..⟩

/-- `free_chain` frees the descriptors of a request. -/
theorem freeChain_formatted (h : Formatted d' r i) (hd : d.desc = d'.desc) (hi : i.list.Nodup)
    (hf : ∀ j ∈ i.list, d.free j = false) :
    ∃ desc, (∀ j, j ∉ i.list → desc j = d.desc j) ∧ d.freeChain (NUM + 1) i.hdr =
      .ok { d with desc := desc, free := fun j => if j ∈ i.list then true else d.free j } := by
  obtain ⟨h01, h02, h12⟩ := nodup_list_iff.mp hi
  have hf0 : d.free i.hdr = false := hf _ (by simp [Idx.list])
  have hf1 : d.free i.data = false := hf _ (by simp [Idx.list])
  have hf2 : d.free i.status = false := hf _ (by simp [Idx.list])
  obtain ⟨hd1, hg1⟩ := freed_of_ne (d := d) h01.symm
  obtain ⟨hd2, hg2⟩ := freed_of_ne (d := d) h02.symm
  obtain ⟨hd3, hg3⟩ := freed_of_ne (d := d.freed i.hdr) h12.symm
  refine ⟨(((d.freed i.hdr).freed i.data).freed i.status).desc, fun j hj => ?_, ?_⟩
  · simp only [Idx.list, mem_cons, not_mem_nil, or_false, not_or] at hj
    rw [(freed_of_ne hj.2.2).1, (freed_of_ne hj.2.1).1, (freed_of_ne hj.1).1]
  · have hfree : (((d.freed i.hdr).freed i.data).freed i.status).free =
        fun j => if j ∈ i.list then true else d.free j := by
      funext j
      simp only [Disk.freed, update_apply, Idx.list, mem_cons, not_mem_nil, or_false]
      grind
    have hhdr := h.hdr
    have hdata := h.data
    have hstatus := h.status
    rw [← hd] at hhdr hdata hstatus
    rw [freeChain_next hf0 hhdr (by decide), freeChain_next (hg1.trans hf1) (hd1.trans hdata) (flags_next r),
      freeChain_last (hg3.trans (hg2.trans hf2)) (hd3.trans (hd2.trans hstatus)) (by decide), ← hfree]
    rfl

/-- The device finds the request at its head. -/
theorem follow_formatted {s : State n} (h : Formatted s.disk r i) : s.follow i.hdr = some ⟨i.hdr, r, i.hdr⟩ := by
  simp only [State.follow, h.hdr, toNat_ofNat_fin, dif_pos i.data.isLt, Fin.eta, h.data, dif_pos i.status.isLt,
    h.status, h.op]

/-! ## Owners -/

/-- The descriptors that are not free are those of the requests `ow` of the
processes. -/
structure Own (d : Disk) (ow : Fin n → Option (Req × Idx)) : Prop where
  nodup : ∀ {p r i}, ow p = some (r, i) → i.list.Nodup
  disjoint : ∀ {p q r i r' i'}, ow p = some (r, i) → ow q = some (r', i') → p ≠ q → ∀ j ∈ i.list, j ∉ i'.list
  free : ∀ j, d.free j = false ↔ ∃ p r i, ow p = some (r, i) ∧ j ∈ i.list
  formatted : ∀ {p r i}, ow p = some (r, i) → Formatted d r i

theorem Formatted.congr (h : Formatted d r i) (hd : ∀ j ∈ i.list, d'.desc j = d.desc j)
    (ho : d'.ops i.hdr = d.ops i.hdr) (hb : (d'.info i.hdr).b = (d.info i.hdr).b) : Formatted d' r i where
  op := ho.trans h.op
  hdr := (hd _ (by simp [Idx.list])).trans h.hdr
  data := (hd _ (by simp [Idx.list])).trans h.data
  status := (hd _ (by simp [Idx.list])).trans h.status
  info := hb.trans h.info

namespace Own

variable {ow ow' : Fin n → Option (Req × Idx)} {p : Fin n}

theorem not_free (h : Own d ow) (hp : ow p = some (r, i)) (hj : j ∈ i.list) : d.free j = false :=
  (h.free j).mpr ⟨p, r, i, hp, hj⟩

/-- A head belongs to one process. -/
theorem eq_of_hdr (h : Own d ow) {q : Fin n} {r' : Req} {i' : Idx} (hp : ow p = some (r, i))
    (hq : ow q = some (r', i')) (hh : i.hdr = i'.hdr) : p = q := by
  by_contra hpq
  exact h.disjoint hp hq hpq i.hdr (by simp [Idx.list]) (by simp [Idx.list, hh])

/-- The disk changes where nobody owns it. -/
theorem congr (h : Own d ow) (hf : d'.free = d.free) (hd : ∀ j, d.free j = false → d'.desc j = d.desc j)
    (ho : d'.ops = d.ops) (hb : ∀ j, (d'.info j).b = (d.info j).b) : Own d' ow where
  nodup := h.nodup
  disjoint := h.disjoint
  free j := by rw [hf, h.free]
  formatted hp := (h.formatted hp).congr (fun j hj => hd j (h.not_free hp hj)) (by rw [ho]) (hb _)

/-- A process gets three descriptors. -/
theorem alloc (h : Own d ow) (hp : ow p = none) (hi : i.list.Nodup) (hf : ∀ j ∈ i.list, d.free j = true) :
    Own (({ d with free := fun j => if j ∈ i.list then false else d.free j } : Disk).format r i)
      (update ow p (some (r, i))) := by
  have hnew : ∀ {q r' i'}, ow q = some (r', i') → ∀ j ∈ i'.list, j ∉ i.list := by
    intro q r' i' hq j hj hji
    have := h.not_free hq hj
    rw [hf j hji] at this
    cases this
  have hcases : ∀ {q r' i'}, update ow p (some (r, i)) q = some (r', i') →
      q = p ∧ r' = r ∧ i' = i ∨ q ≠ p ∧ ow q = some (r', i') := by
    intro q r' i' hq
    obtain ⟨rfl, he⟩ | hq := update_eq_cases hq
    · cases he
      exact .inl ⟨rfl, rfl, rfl⟩
    · exact .inr hq
  refine ⟨fun hq => ?_, fun hq hq' hne j hj => ?_, fun j => ?_, fun hq => ?_⟩
  · rcases hcases hq with ⟨rfl, rfl, rfl⟩ | ⟨-, hq⟩
    · exact hi
    · exact h.nodup hq
  · rcases hcases hq with ⟨rfl, rfl, rfl⟩ | ⟨-, ho⟩ <;> rcases hcases hq' with ⟨rfl, rfl, rfl⟩ | ⟨-, ho'⟩
    · exact absurd rfl hne
    · exact fun hj' => hnew ho' j hj' hj
    · exact hnew ho j hj
    · exact h.disjoint ho ho' hne j hj
  · simp only [Disk.format]
    constructor
    · intro hj
      by_cases hji : j ∈ i.list
      · exact ⟨p, r, i, update_self .., hji⟩
      · rw [if_neg hji] at hj
        obtain ⟨q, r', i', hq, hj'⟩ := (h.free j).mp hj
        refine ⟨q, r', i', ?_, hj'⟩
        rw [update_of_ne _, hq]
        rintro rfl
        rw [hp] at hq
        cases hq
    · rintro ⟨q, r', i', hq, hj⟩
      rcases hcases hq with ⟨rfl, rfl, rfl⟩ | ⟨-, hq⟩
      · rw [if_pos hj]
      · rw [if_neg (hnew hq j hj)]
        exact h.not_free hq hj
  · rcases hcases hq with ⟨rfl, rfl, rfl⟩ | ⟨-, hq⟩
    · exact format_formatted hi
    · have hdisj := hnew hq
      refine (h.formatted hq).congr (fun j hj => ?_) ?_ ?_
      · have := hdisj j hj
        simp only [Idx.list, mem_cons, not_mem_nil, or_false, not_or] at this
        simp only [Disk.format]
        rw [update_of_ne this.2.2, update_of_ne this.2.1, update_of_ne this.1]
      all_goals
        have := hdisj _ (mem_cons_self ..)
        simp only [Idx.list, mem_cons, not_mem_nil, or_false, not_or] at this
        simp only [Disk.format]
        rw [update_of_ne this.1]

/-- A process gives its descriptors back. -/
theorem release (h : Own d ow) (hp : ow p = some (r, i)) (hf : d'.free = fun j => if j ∈ i.list then true else d.free j)
    (hd : ∀ j, j ∉ i.list → d'.desc j = d.desc j) (ho : d'.ops = d.ops)
    (hb : ∀ j, j ∉ i.list → (d'.info j).b = (d.info j).b) : Own d' (update ow p none) := by
  have hcases : ∀ {q r' i'}, update ow p none q = some (r', i') → q ≠ p ∧ ow q = some (r', i') :=
    fun hq => (update_eq_cases hq).resolve_left fun e => nomatch e.2
  refine ⟨fun hq => h.nodup (hcases hq).2, fun hq hq' => h.disjoint (hcases hq).2 (hcases hq').2, fun j => ?_,
    fun hq => ?_⟩
  · rw [hf]
    constructor
    · intro hj
      by_cases hji : j ∈ i.list
      · simp [hji] at hj
      · simp only [if_neg hji] at hj
        obtain ⟨q, r', i', hq, hj'⟩ := (h.free j).mp hj
        refine ⟨q, r', i', ?_, hj'⟩
        rw [update_of_ne _, hq]
        rintro rfl
        rw [hp] at hq
        cases hq
        exact hji hj'
    · rintro ⟨q, r', i', hq, hj⟩
      obtain ⟨hqp, hq⟩ := hcases hq
      simp only [if_neg (h.disjoint hq hp hqp j hj)]
      exact h.not_free hq hj
  · obtain ⟨hqp, hq⟩ := hcases hq
    have hdisj := h.disjoint hq hp hqp
    exact (h.formatted hq).congr (fun j hj => hd j (hdisj j hj)) (by rw [ho]) (hb _ (hdisj _ (mem_cons_self ..)))

end Own

end Xv6.Dev.Virtio
