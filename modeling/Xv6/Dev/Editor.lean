import Xv6.Dev.Console

/-!
# The console as a line editor

`Editor` is what the console is for: characters that can be read, and a line that
is still edited. Its keys and its reads are on lists, without a ring and without
indices. The console's buffer holds the two lists one after the other (`Holds`),
and each step of the console is a step of the editor with the same answers
(`Sim.step`), so that the readers get what the editor says (`console_refines`).
-/

namespace Xv6.Dev

open Framework Function List

variable {k n target : Nat} {s : State k} {got line : List Byte} {p : Fin k} {a : Act k} {as : List (Act k)} {c : Cons}
  {dst : Nat → Bool}

/-- A client of the editor: waits for input with `n` bytes to go, or has its
answer. -/
inductive Client
  | idle
  | waiting (target n : Nat) (got : List Byte)
  | returned (target : Nat) (ret : Option (List Byte))
  deriving DecidableEq

/-- The editor: the characters its clients can read, and the line that is still
edited; also all characters that were ever committed, and all that the clients
have consumed. -/
structure Editor (k : Nat) where
  committed : List Byte
  line : List Byte
  client : Fin k → Client
  killed : Fin k → Bool
  entered : List Byte
  taken : List Byte

/-- What a client gets from a read: the bytes, what it consumes, and if the read
is done with that. -/
structure Portion where
  bytes : List Byte
  consumed : List Byte
  done : Bool

/-- The portion of a client that wants `n` bytes, when `l` can be read. It ends
after a newline, and before a `^D` that is not the first thing read. -/
def portion (first : Bool) : Nat → List Byte → Portion
  | 0, _ => ⟨[], [], true⟩
  | _ + 1, [] => ⟨[], [], false⟩
  | n + 1, ch :: l =>
    if ch = C 'D' then ⟨[], if first then [ch] else [], true⟩
    else if ch = newline then ⟨[ch], [ch], true⟩
    else ⟨ch :: (portion false n l).bytes, ch :: (portion false n l).consumed, (portion false n l).done⟩

namespace Editor

def init (k : Nat) : Editor k := ⟨[], [], fun _ => .idle, fun _ => false, [], []⟩

variable (t : Editor k)

/-- A character is appended to the line. It is committed with it if it ends the
line or the input, or is the last one for which there is room. -/
def append (ch : Byte) : Editor k :=
  if ch = newline ∨ ch = C 'D' ∨ (t.committed ++ (t.line ++ [ch])).length = INPUT_BUF then
    { t with committed := t.committed ++ (t.line ++ [ch]), line := [], entered := t.entered ++ (t.line ++ [ch]) }
  else { t with line := t.line ++ [ch] }

/-- A key is hit. -/
def key (ch : Byte) : Editor k :=
  if ch = C 'P' then t
  else if ch = C 'U' then { t with line := t.line.rdropWhile (· ≠ newline) }
  else if ch = C 'H' ∨ ch = delete then { t with line := t.line.dropLast }
  else if ch ≠ 0 ∧ (t.committed ++ t.line).length < INPUT_BUF then
    t.append (if ch = carriageReturn then newline else ch)
  else t

/-- A client reads. -/
def read (p : Fin k) (target n : Nat) (got : List Byte) : Editor k :=
  let P := portion got.isEmpty n t.committed
  { t with
    committed := t.committed.drop P.consumed.length
    taken := t.taken ++ P.consumed
    client := update t.client p
      (if P.done then .returned target (some (got ++ P.bytes))
      else if t.killed p then .returned target none
      else .waiting target (n - P.bytes.length) (got ++ P.bytes)) }

def step : Act k → Option (Editor k)
  | .intr ch => some (t.key ch)
  | .read p _ n =>
    match t.client p with
    | .idle | .returned .. => some (t.read p n.toNat n.toNat [])
    | .waiting .. => none
  | .resume p =>
    match t.client p with
    | .waiting target n got => some (t.read p target n got)
    | _ => none
  | .kill p => some { t with killed := update t.killed p true }

end Editor

/-! ## What a read returns -/

theorem portion_consumed_isPrefix (first : Bool) (n : Nat) (l : List Byte) :
    (portion first n l).consumed <+: l := by
  fun_induction portion first n l with
  | case1 | case2 => exact nil_prefix
  | case3 =>
    split
    · exact prefix_append ..
    · exact nil_prefix
  | case4 => exact prefix_append ..
  | case5 _ _ _ _ _ _ ih => exact prefix_cons_inj _ |>.mpr ih

/-- A portion has at most `n` bytes, none of them a `^D`, and no newline but at
its end; it is not done only when it has taken everything. -/
theorem portion_bytes (first : Bool) (n : Nat) (l : List Byte) :
    (portion first n l).bytes.length ≤ n ∧ C 'D' ∉ (portion first n l).bytes ∧
      newline ∉ (portion first n l).bytes.dropLast ∧ ((portion first n l).done = false →
        newline ∉ (portion first n l).bytes ∧ (portion first n l).bytes.length < n ∧
        (portion first n l).consumed = l) := by
  fun_induction portion first n l with
  | case1 | case2 | case3 => simp
  | case4 => exact ⟨Nat.le_add_left .., by decide, by decide, nofun⟩
  | case5 _ n ch l hd hn ih =>
    obtain ⟨h1, h2, h3, h4⟩ := ih
    refine ⟨Nat.succ_le_succ h1, ?_, ?_, fun h => ?_⟩
    · exact not_mem_cons_of_ne_of_not_mem (Ne.symm hd) h2
    · cases hb : (portion false n l).bytes with
      | nil => exact not_mem_nil
      | cons b bs =>
        rw [dropLast_cons_of_ne_nil (cons_ne_nil _ _), ← hb]
        exact not_mem_cons_of_ne_of_not_mem (Ne.symm hn) h3
    · obtain ⟨h5, h6, h7⟩ := h4 h
      exact ⟨not_mem_cons_of_ne_of_not_mem (Ne.symm hn) h5, Nat.succ_lt_succ h6, congrArg _ h7⟩

/-! ## The editor's clients -/

/-- What a client has is a read's answer so far. -/
def Client.Ok : Client → Prop
  | waiting target n got => n + got.length = target ∧ C 'D' ∉ got ∧ newline ∉ got
  | returned target (some l) => l.length ≤ target ∧ C 'D' ∉ l ∧ newline ∉ l.dropLast
  | _ => True

/-- Nothing is lost, and the clients have proper answers. -/
structure Editor.Inv (t : Editor k) : Prop where
  entered : t.entered = t.taken ++ t.committed
  client : ∀ p, (t.client p).Ok

namespace Editor

variable {t t' : Editor k}

theorem Inv.append (h : t.Inv) (ch : Byte) : (t.append ch).Inv := by
  rw [Editor.append]
  split
  · refine ⟨?_, h.client⟩
    simp [h.entered]
  · exact ⟨h.entered, h.client⟩

theorem Inv.key (h : t.Inv) (ch : Byte) : (t.key ch).Inv := by
  rw [Editor.key]
  split
  · exact h
  · split
    · exact ⟨h.entered, h.client⟩
    · split
      · exact ⟨h.entered, h.client⟩
      · split
        · exact h.append _
        · exact h

theorem Inv.read (h : t.Inv)
    (hn : n + got.length = target) (hd : C 'D' ∉ got) (hl : newline ∉ got) : (t.read p target n got).Inv := by
  obtain ⟨h1, h2, h3, h4⟩ := portion_bytes got.isEmpty n t.committed
  refine ⟨?_, fun q => ?_⟩
  · have hc := prefix_iff_eq_append.mp (portion_consumed_isPrefix got.isEmpty n t.committed)
    simp only [Editor.read]
    rw [append_assoc, hc]
    exact h.entered
  · simp only [Editor.read]
    by_cases hq : q = p
    · subst hq
      rw [update_self]
      split
      · refine ⟨?_, ?_, ?_⟩
        · rw [length_append]
          omega
        · rw [mem_append]
          exact not_or.mpr ⟨hd, h2⟩
        · cases hb : (portion got.isEmpty n t.committed).bytes with
          | nil =>
            rw [append_nil]
            exact fun hm => hl (dropLast_subset _ hm)
          | cons b bs =>
            rw [dropLast_append_of_ne_nil (cons_ne_nil _ _), ← hb, mem_append]
            exact not_or.mpr ⟨hl, h3⟩
      · next hdone =>
        split
        · trivial
        · obtain ⟨h5, h6, -⟩ := h4 (by simpa using hdone)
          refine ⟨?_, ?_, ?_⟩
          · rw [length_append]
            omega
          · rw [mem_append]
            exact not_or.mpr ⟨hd, h2⟩
          · rw [mem_append]
            exact not_or.mpr ⟨hl, h5⟩
    · rw [update_of_ne hq]
      exact h.client q

theorem Inv.step (h : t.Inv) (hs : t.step a = some t') : t'.Inv := by
  cases a with
  | intr ch =>
    cases hs
    exact h.key ch
  | read p dst n =>
    rw [Editor.step] at hs
    split at hs <;> cases hs
    all_goals exact h.read rfl not_mem_nil not_mem_nil
  | resume p =>
    rw [Editor.step] at hs
    split at hs
    · next hp =>
      cases hs
      have hok := h.client p
      rw [hp] at hok
      exact h.read hok.1 hok.2.1 hok.2.2
    · cases hs
  | kill p =>
    cases hs
    exact ⟨h.entered, h.client⟩

theorem run_inv (hr : Run Editor.step (Editor.init k) as t) : t.Inv :=
  hr.invariant ⟨rfl, fun _ => trivial⟩ fun h hs => h.step hs

end Editor

/-! ## The ring -/

/-- The characters in the buffer from `r` to `w`. -/
def Cons.unread (c : Cons) : List Byte :=
  (range (c.w - c.r).toNat).map fun j => c.buf (cell INPUT_BUF (c.r + BitVec.ofNat 32 j))

/-- The buffer holds the committed characters, and then the line. -/
structure Holds (c : Cons) (committed line : List Byte) : Prop where
  stored : Stored c.buf c.r (committed ++ line)
  w : c.w = c.r + BitVec.ofNat 32 committed.length
  e : c.e = c.w + BitVec.ofNat 32 line.length
  le : (committed ++ line).length ≤ INPUT_BUF
  full : (committed ++ line).length = INPUT_BUF → line = []

namespace Holds

variable {c : Cons} {committed line : List Byte} {ch : Byte}

theorem e_eq (h : Holds c committed line) : c.e = c.r + BitVec.ofNat 32 (committed ++ line).length := by
  rw [h.e, h.w, length_append, BitVec.ofNat_add, BitVec.add_assoc]

theorem length_lt (h : Holds c committed line) : committed.length + line.length < 2 ^ 32 := by
  rw [← length_append]
  exact Nat.lt_of_le_of_lt h.le (by decide)

theorem e_eq_w (h : Holds c committed line) : c.e = c.w ↔ line = [] := by
  have := h.length_lt
  rw [h.e, add_length_eq_self _ (by omega), length_eq_zero_iff]

theorem r_eq_w (h : Holds c committed line) : c.r = c.w ↔ committed = [] := by
  have := h.length_lt
  rw [h.w, eq_comm, add_length_eq_self _ (by omega), length_eq_zero_iff]

/-- The number of unread characters. -/
theorem sub_r (h : Holds c committed line) : (c.e - c.r).toNat = (committed ++ line).length := by
  rw [h.e_eq, sub_length]
  rw [length_append]
  exact h.length_lt

/-- The last character of the line goes. -/
theorem back (h : Holds c committed (line ++ [ch])) :
    c.buf (cell INPUT_BUF (c.e - 1)) = ch ∧ Holds { c with e := c.e - 1 } committed line := by
  have he : c.e - 1 = c.w + BitVec.ofNat 32 line.length := by
    rw [h.e, length_append, BitVec.ofNat_add, ← BitVec.add_assoc]
    exact BitVec.add_sub_cancel ..
  have hst := h.stored
  rw [← append_assoc] at hst
  have hle := h.le
  rw [← append_assoc, length_append] at hle
  refine ⟨?_, (Stored.append.mp hst).1, h.w, he, by omega, fun hf => ?_⟩
  · rw [he, h.w, BitVec.add_assoc, ← BitVec.ofNat_add, ← length_append]
    exact hst.last
  · rw [hf, length_singleton] at hle
    omega

/-- Backspace -/
theorem backspace (h : Holds c committed line) :
    Holds (if c.e ≠ c.w then { c with e := c.e - 1 } else c) committed line.dropLast := by
  rcases eq_nil_or_concat line with rfl | ⟨l, ch, rfl⟩
  · rw [if_neg (not_not.mpr (h.e_eq_w.mpr rfl))]
    exact h
  · rw [if_pos (h.e_eq_w.not.mpr (by simp)), concat_eq_append, dropLast_concat]
    rw [concat_eq_append] at h
    exact h.back.2

/-- `^U` -/
theorem killLine (h : Holds c committed line) :
    Holds (c.killLine line.length) committed (line.rdropWhile (· ≠ newline)) := by
  induction line using reverseRecOn generalizing c with
  | nil => exact h
  | append_singleton line ch ih =>
    obtain ⟨hb, hl⟩ := h.back
    have hne : c.e ≠ c.w := h.e_eq_w.not.mpr (append_ne_nil_of_right_ne_nil _ (cons_ne_nil _ _))
    rw [length_append, length_singleton, Cons.killLine, hb]
    by_cases hn : ch = newline
    · rw [if_neg (fun hh => hh.2 hn), rdropWhile_concat_neg _ _ _ (by simpa using hn)]
      exact h
    · rw [if_pos ⟨hne, hn⟩, rdropWhile_concat_pos _ _ _ (by simpa using hn)]
      exact ih hl

/-- A character is read. -/
theorem tail (h : Holds c (ch :: committed) line) :
    c.buf (cell INPUT_BUF c.r) = ch ∧ Holds { c with r := c.r + 1 } committed line := by
  obtain ⟨hst, hw, he, hle, -⟩ := h
  refine ⟨hst.1, hst.2, ?_, he, Nat.le_of_succ_le hle, fun hf => ?_⟩
  · rw [hw, add_length_cons]
  · rw [cons_append, length_cons, hf] at hle
    exact absurd hle (Nat.not_succ_le_self _)

theorem sub_w (h : Holds c committed line) : (c.e - c.w).toNat = line.length := by
  rw [h.e, sub_length]
  exact Nat.lt_of_le_of_lt (Nat.le_add_left _ _) h.length_lt

theorem w_sub_r (h : Holds c committed line) : (c.w - c.r).toNat = committed.length := by
  rw [h.w, sub_length]
  exact Nat.lt_of_le_of_lt (Nat.le_add_right _ _) h.length_lt

theorem unread_eq (h : Holds c committed line) : c.unread = committed := by
  rw [Cons.unread, h.w_sub_r]
  exact (Stored.append.mp h.stored).1.eq_map.symm

/-- A character is stored; with it the line is committed, or the buffer is not
full. -/
theorem append (h : Holds c committed line) (hlt : (committed ++ line).length < INPUT_BUF) (ch : Byte) :
    Stored (c.append ch).buf c.r (committed ++ (line ++ [ch])) ∧
      (c.append ch).e = c.r + BitVec.ofNat 32 (committed ++ (line ++ [ch])).length ∧
      (c.append ch).e = c.w + BitVec.ofNat 32 (line ++ [ch]).length := by
  have hst := h.stored.push ⟨2 ^ 25, rfl⟩ hlt ch
  rw [← h.e_eq] at hst
  refine ⟨?_, ?_, ?_⟩
  · rw [← append_assoc]
    exact hst
  · rw [← append_assoc, length_append, BitVec.ofNat_add, ← BitVec.add_assoc, ← h.e_eq]
    rfl
  · rw [length_append, BitVec.ofNat_add, ← BitVec.add_assoc, ← h.e]
    rfl

end Holds

/-! ## The simulation -/

/-- A reader as a client of the editor. -/
def Reader.client : Reader → Client
  | idle => .idle
  | asleep _ target n got | woken _ target n got => .waiting target n got
  | returned target ret => .returned target ret

/-- The bytes a call of `consoleread` may write are mapped. -/
def Mapped (dst : Nat → Bool) (target : Nat) : Prop := ∀ j < target, dst j = true

def Reader.Ok : Reader → Prop
  | asleep dst target n got | woken dst target n got => Mapped dst target ∧ n + got.length = target
  | _ => True

/-- The console and the editor agree, and readers sleep only when there is nothing
to read. -/
structure Sim (s : State k) (t : Editor k) : Prop where
  holds : Holds s.cons t.committed t.line
  client : ∀ p, (s.reader p).client = t.client p
  ok : ∀ p, (s.reader p).Ok
  killed : s.killed = t.killed
  asleep : ∀ p dst target n got, s.reader p = .asleep dst target n got → t.committed = []

theorem Reader.client_wakeup (q : Reader) : q.wakeup.client = q.client := by cases q <;> rfl

theorem Reader.Ok.wakeup {q : Reader} (h : q.Ok) : q.wakeup.Ok := by cases q <;> exact h

theorem Reader.wakeup_ne (q : Reader) (dst : Nat → Bool) (target n : Nat) (got : List Byte) :
    q.wakeup ≠ .asleep dst target n got := by
  cases q <;> exact nofun

variable {t : Editor k}

/-- The default case of `consoleintr`. -/
theorem Sim.store (h : Sim s t) (hlt : (t.committed ++ t.line).length < INPUT_BUF) (ch : Byte) :
    Sim { s with
      cons := (s.cons.store ch).1
      reader := if (s.cons.store ch).2 then fun p => (s.reader p).wakeup else s.reader } (t.append ch) := by
  obtain ⟨hst, her, hew⟩ := h.holds.append hlt ch
  have hle : (t.committed ++ (t.line ++ [ch])).length ≤ INPUT_BUF := by
    rw [← append_assoc, length_append, length_singleton]
    exact hlt
  have hfull : (s.cons.append ch).e = s.cons.r + BitVec.ofNat 32 INPUT_BUF ↔
      (t.committed ++ (t.line ++ [ch])).length = INPUT_BUF := by
    rw [her]
    exact add_length_inj _ (Nat.lt_of_le_of_lt hle (by decide)) (by decide)
  by_cases hcom : ch = newline ∨ ch = C 'D' ∨ (t.committed ++ (t.line ++ [ch])).length = INPUT_BUF
  · have hs : s.cons.store ch = ({ s.cons.append ch with w := (s.cons.append ch).e }, true) := by
      rw [Cons.store, if_pos]
      rwa [hfull]
    rw [hs, Editor.append, if_pos hcom]
    refine ⟨⟨?_, her, ?_, ?_, fun _ => rfl⟩, fun p => ?_, fun p => (h.ok p).wakeup, h.killed, ?_⟩
    · rw [append_nil]
      exact hst
    · exact (BitVec.add_zero _).symm
    · rwa [append_nil]
    · exact (Reader.client_wakeup _).trans (h.client p)
    · exact fun p _ _ _ _ hp => absurd hp (Reader.wakeup_ne _ _ _ _ _)
  · have hs : s.cons.store ch = (s.cons.append ch, false) := by
      rw [Cons.store, if_neg]
      rwa [hfull]
    rw [hs, Editor.append, if_neg hcom]
    refine ⟨⟨hst, h.holds.w, hew, hle, fun hf => ?_⟩, h.client, h.ok, h.killed, h.asleep⟩
    exact absurd (.inr (.inr hf)) hcom

/-- A key changes nothing but the line. -/
theorem Sim.edit (h : Sim s t) (hh : Holds c t.committed line) : Sim { s with cons := c } { t with line := line } :=
  ⟨hh, h.client, h.ok, h.killed, h.asleep⟩

theorem Sim.consoleintr (h : Sim s t) (ch : Byte) :
    Sim (s.consoleintr ch) (t.key ch) := by
  rw [State.consoleintr, Editor.key]
  by_cases hP : ch = C 'P'
  · simp only [Cons.consoleintr, if_pos hP]
    exact h
  by_cases hU : ch = C 'U'
  · simp only [Cons.consoleintr, if_neg hP, if_pos hU]
    rw [h.holds.sub_w]
    exact h.edit h.holds.killLine
  by_cases hH : ch = C 'H' ∨ ch = delete
  · simp only [Cons.consoleintr, if_neg hP, if_neg hU, if_pos hH]
    exact h.edit h.holds.backspace
  have hfull := h.holds.sub_r
  by_cases hs : ch ≠ 0 ∧ (t.committed ++ t.line).length < INPUT_BUF
  · simp only [Cons.consoleintr, if_neg hP, if_neg hU, if_neg hH, hfull, if_pos hs]
    exact h.store hs.2 _
  · simp only [Cons.consoleintr, if_neg hP, if_neg hU, if_neg hH, hfull, if_neg hs]
    exact h

/-- The reader after it has got a portion. -/
def Portion.reader (P : Portion) (killed : Bool) (dst : Nat → Bool) (target n : Nat) (got : List Byte) : Reader :=
  if P.done then .returned target (some (got ++ P.bytes))
  else if killed then .returned target none
  else .asleep dst target (n - P.bytes.length) (got ++ P.bytes)

/-- `consoleread` takes the portion of the editor's client. -/
theorem consoleread_portion {committed : List Byte} (h : Holds c committed line) (killed : Bool)
    (hm : Mapped dst target) (hn : n + got.length = target) :
    let P := portion got.isEmpty n committed
    Holds (c.consoleread killed dst target n got).1 (committed.drop P.consumed.length) line ∧
      (c.consoleread killed dst target n got).2 = P.reader killed dst target n got := by
  induction n generalizing c committed got with
  | zero => simpa [portion, Cons.consoleread, Portion.reader] using h
  | succ n ih =>
    cases committed with
    | nil =>
      rw [Cons.consoleread, if_pos (h.r_eq_w.mpr rfl)]
      simpa [portion, Portion.reader] using h
    | cons ch l =>
      obtain ⟨hch, hl⟩ := h.tail
      rw [Cons.consoleread, if_neg (h.r_eq_w.not.mpr (cons_ne_nil _ _)), hch]
      by_cases hD : ch = C 'D'
      · -- `n < target` says that something has been read
        have hfirst : n + 1 < target ↔ got ≠ [] := by
          rw [← length_pos_iff]
          omega
        simp only [portion, if_pos hD, Portion.reader]
        refine ⟨?_, by simp⟩
        by_cases hg : got = []
        · simpa [hg, hfirst] using hl
        · simpa [hg, hfirst] using h
      have hdst : dst got.length = true := hm _ (by omega)
      by_cases hnl : ch = newline
      · simp only [portion, if_neg hD, if_pos hnl, hdst, Portion.reader]
        exact ⟨hl, by simp⟩
      · simp only [portion, if_neg hD, if_neg hnl, hdst, Portion.reader]
        have hlen : n + (got ++ [ch]).length = target := by
          rw [length_append, length_singleton]
          omega
        obtain ⟨ih1, ih2⟩ := ih hl hlen
        rw [isEmpty_eq_false_iff.mpr (by simp)] at ih1 ih2
        refine ⟨ih1, ih2.trans ?_⟩
        simp [Portion.reader]

namespace Portion

variable {P : Portion} {killed : Bool} {dst : Nat → Bool} {target n : Nat} {got : List Byte}

theorem client_reader : (P.reader killed dst target n got).client =
    if P.done then .returned target (some (got ++ P.bytes))
    else if killed then .returned target none
    else .waiting target (n - P.bytes.length) (got ++ P.bytes) := by
  rw [reader, apply_ite Reader.client, apply_ite Reader.client]
  rfl

theorem reader_ok (hm : Mapped dst target) (hn : n + got.length = target) (hl : P.bytes.length ≤ n) :
    (P.reader killed dst target n got).Ok := by
  rw [reader]
  split
  · trivial
  · split
    · trivial
    · refine ⟨hm, ?_⟩
      rw [length_append]
      omega

theorem done_of_asleep {dst' : Nat → Bool} {target' n' : Nat} {got' : List Byte}
    (h : P.reader killed dst target n got = .asleep dst' target' n' got') : P.done = false := by
  rw [reader] at h
  split at h
  · cases h
  · next hd => simpa using hd

end Portion

theorem Sim.consoleread (h : Sim s t) (hm : Mapped dst target) (hn : n + got.length = target) :
    Sim (s.consoleread p dst target n got) (t.read p target n got) := by
  obtain ⟨hh, hq⟩ := consoleread_portion h.holds (s.killed p) hm hn
  obtain ⟨hlen, -, -, hopen⟩ := portion_bytes got.isEmpty n t.committed
  rw [State.consoleread, Editor.read, hq]
  refine ⟨hh, fun q => ?_, fun q => ?_, h.killed, fun q d tg m l hp => ?_⟩
  · by_cases hqp : q = p
    · subst hqp
      simp only [update_self]
      rw [Portion.client_reader, h.killed]
    · simp only [update_of_ne hqp]
      exact h.client q
  · by_cases hqp : q = p
    · subst hqp
      simp only [update_self]
      exact Portion.reader_ok hm hn hlen
    · simp only [update_of_ne hqp]
      exact h.ok q
  · by_cases hqp : q = p
    · subst hqp
      simp only [update_self] at hp
      rw [(hopen (Portion.done_of_asleep hp)).2.2, drop_length]
    · simp only [update_of_ne hqp] at hp
      rw [h.asleep q d tg m l hp, drop_nil]

theorem Sim.kill (h : Sim s t) (p : Fin k) :
    Sim (s.kill p) { t with killed := update t.killed p true } := by
  have hk : (s.kill p).killed = update t.killed p true := by rw [State.kill, h.killed]
  refine ⟨h.holds, fun q => ?_, fun q => ?_, hk, fun q _ _ _ _ hq => ?_⟩ <;> by_cases hqp : q = p
  · subst hqp
    simp only [State.kill, update_self]
    exact (Reader.client_wakeup _).trans (h.client q)
  · simp only [State.kill, update_of_ne hqp]
    exact h.client q
  · subst hqp
    simp only [State.kill, update_self]
    exact (h.ok q).wakeup
  · simp only [State.kill, update_of_ne hqp]
    exact h.ok q
  · subst hqp
    simp only [State.kill, update_self] at hq
    exact absurd hq (Reader.wakeup_ne _ _ _ _ _)
  · simp only [State.kill, update_of_ne hqp] at hq
    exact h.asleep q _ _ _ _ hq

/-- A call of `consoleread` has a mapped buffer. -/
def Act.Mapped : Act k → Prop
  | .read _ dst n => Dev.Mapped dst n.toNat
  | _ => True

/-- A step of the console is a step of the editor. -/
theorem Sim.step {s' : State k} (h : Sim s t) (ha : a.Mapped)
    (hs : Dev.step s a = some s') : ∃ t', t.step a = some t' ∧ Sim s' t' := by
  cases a with
  | intr ch =>
    cases hs
    exact ⟨_, rfl, h.consoleintr ch⟩
  | read p dst n =>
    have hp := h.client p
    rw [Dev.step] at hs
    split at hs <;> cases hs
    all_goals
      next hr =>
      rw [hr] at hp
      refine ⟨_, ?_, h.consoleread ha rfl⟩
      rw [Editor.step, ← hp]
      rfl
  | resume p =>
    have hp := h.client p
    have hok := h.ok p
    rw [Dev.step] at hs
    split at hs
    · next hr =>
      cases hs
      rw [hr] at hp hok
      refine ⟨_, ?_, h.consoleread hok.1 hok.2⟩
      rw [Editor.step, ← hp]
      rfl
    · cases hs
  | kill p =>
    cases hs
    exact ⟨_, rfl, h.kill p⟩

/-- Each run of the console is a run of the editor. -/
theorem run_sim {buf : Fin INPUT_BUF → Byte} (hr : Run step (State.init k buf) as s) (hm : ∀ a ∈ as, a.Mapped) :
    ∃ t, Run Editor.step (Editor.init k) as t ∧ Sim s t := by
  induction hr with
  | nil =>
    refine ⟨_, .nil, ⟨trivial, rfl, rfl, Nat.zero_le _, fun _ => rfl⟩, fun _ => rfl, fun _ => trivial, rfl, ?_⟩
    exact fun _ _ _ _ _ _ => rfl
  | snoc _ hs ih =>
    obtain ⟨t, ht, h⟩ := ih fun a ha => hm a (mem_append_left _ ha)
    obtain ⟨t', hs', h'⟩ := h.step (hm _ (by simp)) hs
    exact ⟨t', .snoc ht hs', h'⟩

/-- The indices of the console keep their order, and its readers get the answers
of the editor: at most as many bytes as they want, up to a newline or before a
`^D`. What was committed has been read, or is still there to be read; nobody
sleeps while something is. -/
theorem console_refines {s : State k} {buf : Fin INPUT_BUF → Byte} {as : List (Act k)}
    (hr : Run step (State.init k buf) as s) (hm : ∀ a ∈ as, a.Mapped) :
    (s.cons.w - s.cons.r).toNat ≤ (s.cons.e - s.cons.r).toNat ∧ (s.cons.e - s.cons.r).toNat ≤ INPUT_BUF ∧
      ((s.cons.e - s.cons.r).toNat = INPUT_BUF → s.cons.w = s.cons.e) ∧
      ∃ t, Run Editor.step (Editor.init k) as t ∧ (∀ p, (s.reader p).client = t.client p) ∧
        s.cons.unread = t.committed ∧ t.entered = t.taken ++ t.committed ∧
        (∀ p target l, s.reader p = .returned target (some l) → l.length ≤ target ∧ C 'D' ∉ l ∧ newline ∉ l.dropLast) ∧
        ∀ p dst target n got, s.reader p = .asleep dst target n got → s.cons.r = s.cons.w := by
  obtain ⟨t, ht, h⟩ := run_sim hr hm
  have hi := Editor.run_inv ht
  refine ⟨?_, ?_, fun hf => ?_, t, ht, h.client, h.holds.unread_eq, hi.entered, fun p target l hp => ?_,
    fun p dst target n got hp => h.holds.r_eq_w.mpr (h.asleep p dst target n got hp)⟩
  · rw [h.holds.w_sub_r, h.holds.sub_r, length_append]
    exact Nat.le_add_right _ _
  · rw [h.holds.sub_r]
    exact h.holds.le
  · rw [h.holds.sub_r] at hf
    exact (h.holds.e_eq_w.mpr (h.holds.full hf)).symm
  · have hc := h.client p
    have hok := hi.client p
    rw [← hc, hp] at hok
    exact hok

/-- A reader waits while `ab`, a backspace and a return are typed. -/
def consoleRun : List (Act 1) :=
  [.read 0 (fun _ => true) 10, .intr 97, .intr 98, .intr (C 'H'), .intr carriageReturn, .resume 0]

theorem console_refines_line : ∃ s t, Run step (State.init 1 fun _ => 0) consoleRun s ∧
    Run Editor.step (Editor.init 1) consoleRun t ∧ t.client 0 = .returned 10 (some [97, newline]) ∧
    t.entered = t.taken ++ t.committed := by
  obtain ⟨s, hr, hs⟩ := exists_run step (State.init 1 fun _ => 0) consoleRun
    (Q := fun s => (s.reader 0).client = .returned 10 (some [97, newline])) (by decide +kernel)
  have hm : ∀ a ∈ consoleRun, a.Mapped := by simp [consoleRun, Act.Mapped, Mapped]
  obtain ⟨-, -, -, t, ht, hc, -, he, -⟩ := console_refines hr hm
  exact ⟨s, t, hr, ht, (hc 0).symm.trans hs, he⟩

end Xv6.Dev
