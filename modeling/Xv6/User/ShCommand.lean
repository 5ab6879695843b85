import Xv6.User.ShParse

/-!
# Commands in memory

`nulterminate` writes only to the ends of words, and no word has its end inside
another, so that the words of a command are strings in memory then
(`Reads.read_nulterminate`). With this, `parsecmd` inverts any way to write a
command, and panics on a line that does not write one (`parsecmd_print`).
-/

namespace Xv6.User.Sh

open Framework List

variable {mem text w : List Byte} {ts : List Token} {cmd : Cmd (List Byte)} {t : Cmd (Nat × Nat)} {k p : Nat}

/-! ## The ends of words -/

/-- The places that `nulterminate` writes to. -/
def Cmd.ends : Cmd (Nat × Nat) → List Nat
  | exec argv => argv.map Prod.snd
  | redir cmd file _ _ => cmd.ends ++ [file.2]
  | pipe left right => left.ends ++ right.ends
  | list left right => left.ends ++ right.ends
  | back cmd => cmd.ends

theorem getD_set (mem : List Byte) (e k : Nat) : (mem.set e 0).getD k 0 = if k = e then 0 else mem.getD k 0 := by
  rw [getD_eq_getElem?_getD, getElem?_set, getD_eq_getElem?_getD]
  by_cases hk : k = e
  · subst hk
    rw [if_pos rfl, if_pos rfl]
    split <;> rfl
  · rw [if_neg (Ne.symm hk), if_neg hk]

theorem getD_foldl_set (ends : List Nat) (mem : List Byte) (k : Nat) :
    (ends.foldl (fun mem e => mem.set e 0) mem).getD k 0 = if k ∈ ends then 0 else mem.getD k 0 := by
  induction ends generalizing mem with
  | nil => rfl
  | cons e ends ih =>
    rw [foldl_cons, ih, getD_set]
    by_cases h : k ∈ ends <;> by_cases h' : k = e <;> simp [h, h']

theorem nulterminate_eq (t : Cmd (Nat × Nat)) (mem : List Byte) :
    nulterminate t mem = t.ends.foldl (fun mem e => mem.set e 0) mem := by
  induction t generalizing mem with
  | exec argv => rw [nulterminate, Cmd.ends, foldl_map]
  | redir cmd file mode fd ih => rw [nulterminate, ih, Cmd.ends, foldl_append]; rfl
  | pipe left right ihl ihr | list left right ihl ihr => rw [nulterminate, ihr, ihl, Cmd.ends, foldl_append]
  | back cmd ih => exact ih mem

/-- No word goes on here. -/
def Outside (text : List Byte) (k : Nat) : Prop := deref text k = 0 ∨ isPlain (deref text k) = false

theorem Reads.outside (h : Reads text t cmd) : ∀ k ∈ t.ends, Outside text k := by
  induction h with
  | exec h =>
    induction h with
    | nil => nofun
    | cons hw _ ih =>
      intro k hk
      rcases mem_cons.mp hk with rfl | hk
      · exact hw.stop
      · exact ih k hk
  | redir _ hw ih =>
    intro k hk
    rcases mem_append.mp hk with hk | hk
    · exact ih k hk
    · rw [mem_singleton.mp hk]
      exact hw.stop
  | pipe _ _ ih ih' | list _ _ ih ih' =>
    intro k hk
    rcases mem_append.mp hk with hk | hk
    · exact ih k hk
    · exact ih' k hk
  | back _ ih => exact ih

/-! ## Strings -/

theorem cstring_eq {l : List Byte} (hw : ∀ c ∈ w, c ≠ 0) (hl : ∀ i < w.length, l.getD i 0 = w.getD i 0)
    (hend : l.getD w.length 0 = 0) : cstring l = w := by
  induction w generalizing l with
  | nil =>
    cases l with
    | nil => rfl
    | cons c l => exact takeWhile_cons_of_neg (by simpa using hend)
  | cons c w ih =>
    have h0 := hl 0 (Nat.succ_pos _)
    have hc := hw c (mem_cons_self ..)
    cases l with
    | nil => exact absurd h0.symm hc
    | cons d l =>
      obtain rfl : d = c := h0
      rw [cstring, takeWhile_cons_of_pos (by simpa using hc), ← cstring]
      rw [ih (fun c' hc' => hw c' (mem_cons_of_mem _ hc')) (fun i hi => hl (i + 1) (Nat.succ_lt_succ hi)) hend]

theorem cstring_append (h : 0 ∉ text) (mem : List Byte) : cstring (text ++ 0 :: mem) = text := by
  have hne : ∀ c ∈ text, decide (c ≠ 0) = true := fun c hc => decide_eq_true fun h0 => h (h0 ▸ hc)
  rw [cstring, takeWhile_append_of_pos hne, takeWhile_cons_of_neg (by decide), append_nil]

theorem zero_notMem_cstring (mem : List Byte) : 0 ∉ cstring mem := by
  intro h
  have := mem_takeWhile_imp h
  simp at this

theorem WordAt.deref_add {a : Nat × Nat} (h : WordAt text a w) {i : Nat} (hi : i < w.length) :
    deref text (a.1 + i) = w.get ⟨i, hi⟩ := by
  obtain ⟨s, hs⟩ := h.bytes
  rw [deref, getD_eq_getElem?_getD, ← getElem?_drop, ← hs, getElem?_append_left hi,
    getElem?_eq_getElem hi, Option.getD_some]
  rfl

/-- In the string at the start of memory. -/
theorem getD_of_cstring (h : deref (cstring mem) k ≠ 0) : mem.getD k 0 = deref (cstring mem) k := by
  have hlt : k < (cstring mem).length := by
    by_contra hge
    refine h ?_
    rw [deref, getD_eq_getElem?_getD, getElem?_eq_none (Nat.not_lt.mp hge), Option.getD_none]
  have hsplit : mem = cstring mem ++ mem.dropWhile (· ≠ 0) := (takeWhile_append_dropWhile ..).symm
  conv_lhs => rw [hsplit]
  rw [deref, getD_eq_getElem?_getD, getElem?_append_left hlt, getD_eq_getElem?_getD]

/-- A word that is ended is a string in memory. -/
theorem WordAt.cstring_drop {a : Nat × Nat} (h : WordAt (cstring mem) a w) {ends : List Nat}
    (hends : ∀ k ∈ ends, Outside (cstring mem) k) (ha : a.2 ∈ ends) :
    cstring ((ends.foldl (fun mem e => mem.set e 0) mem).drop a.1) = w := by
  have hdrop (l : List Byte) (i : Nat) : (l.drop a.1).getD i 0 = l.getD (a.1 + i) 0 := by
    rw [getD_eq_getElem?_getD, getElem?_drop, getD_eq_getElem?_getD]
  refine cstring_eq (fun c hc => (h.word.2 c hc).1) (fun i hi => ?_) ?_
  · have hi' := h.deref_add hi
    obtain ⟨hc0, hcp⟩ := h.word.2 _ (get_mem w ⟨i, hi⟩)
    rw [← hi'] at hc0 hcp
    -- the byte is one of the word, and not written to
    have hno : a.1 + i ∉ ends := fun hk => by
      rcases hends _ hk with h0 | hp
      · exact hc0 h0
      · rw [hcp] at hp
        cases hp
    rw [hdrop, getD_foldl_set, if_neg hno, getD_of_cstring hc0, hi', getD_eq_getElem?_getD,
      getElem?_eq_getElem hi, Option.getD_some]
    rfl
  · rw [hdrop, ← h.length, getD_foldl_set, if_pos ha]

theorem Reads.read_foldl {ends : List Nat} (h : Reads (cstring mem) t cmd)
    (hends : ∀ k ∈ ends, Outside (cstring mem) k) (hsub : t.ends ⊆ ends) :
    t.read (ends.foldl (fun mem e => mem.set e 0) mem) = cmd := by
  simp only [Cmd.read] at *
  induction h with
  | exec h =>
    rw [Cmd.map, Cmd.exec.injEq]
    induction h with
    | nil => rfl
    | cons hw _ ih =>
      rw [map_cons, hw.cstring_drop hends (hsub (mem_cons_self ..)), ih fun k hk => hsub (mem_cons_of_mem _ hk)]
  | redir _ hw ih =>
    rw [Cmd.map, ih fun k hk => hsub (mem_append_left _ hk),
      hw.cstring_drop hends (hsub (mem_append_right _ (mem_singleton_self _)))]
  | pipe _ _ ih ih' | list _ _ ih ih' =>
    rw [Cmd.map, ih fun k hk => hsub (mem_append_left _ hk), ih' fun k hk => hsub (mem_append_right _ hk)]
  | back _ ih => rw [Cmd.map, ih hsub]

/-- The words of a command are strings after `nulterminate`. -/
theorem Reads.read_nulterminate (h : Reads (cstring mem) t cmd) : t.read (nulterminate t mem) = cmd := by
  rw [nulterminate_eq]
  exact h.read_foldl h.outside (Subset.refl _)

/-! ## The whole line -/

theorem parsecmd_of_error {e : Stop} (h : parseline (cstring mem) (4 * (cstring mem).length + 6) 0 = .error e) :
    parsecmd mem = .error e := by
  simp only [parsecmd, h]
  rfl

theorem parsecmd_of_ok (h : parseline (cstring mem) (4 * (cstring mem).length + 6) 0 = .ok (t, p)) :
    parsecmd mem = if skip (cstring mem) isSpace p ≠ (cstring mem).length then .error (.panic "syntax")
      else .ok (t, nulterminate t mem) := by
  simp only [parsecmd, h]
  rfl

theorem At.start (h : Spaced ts text) : At text ts 0 := ⟨Nat.zero_le _, h⟩

/-- The whole line was read. -/
theorem At.skip_eq_length_iff (h : At text ts p) : Sh.skip text isSpace p = text.length ↔ ts = [] := by
  constructor
  · intro heq
    cases ts with
    | nil => rfl
    | cons tok ts =>
      obtain ⟨s, hs, he, -⟩ := h.exists_cons
      obtain ⟨c, cs, hb, -⟩ := Token.bytes_eq_cons he
      rw [heq, drop_length, hb] at hs
      cases hs
  · rintro rfl
    exact Nat.le_antisymm h.skip.le (drop_eq_nil_iff.mp h.drop_eq_nil)

theorem parsecmd_complete (hd : Derives .line cmd ts) (hs : Spaced ts (cstring mem)) :
    ∃ t mem', parsecmd mem = .ok (t, mem') ∧ t.read mem' = cmd := by
  have hlen := hs.length_le
  have hat : At (cstring mem) (ts ++ []) 0 := by
    rw [append_nil]
    exact .start hs
  have hparsed : Parsed (cstring mem) .line cmd ts := derives_parsed hd
  have hnil : Level.line.Follow [] := nofun
  have hfuel : 4 * ts.length + 6 ≤ 4 * (cstring mem).length + 6 := by omega
  have hwp := hparsed hnil hat hfuel
  obtain ⟨t, p, hrun, ht, hp⟩ := hwp.exists_ok
  refine ⟨t, _, ?_, ht.read_nulterminate⟩
  rw [parsecmd_of_ok hrun, if_neg (not_not_intro (hp.skip_eq_length_iff.mpr rfl))]

theorem parsecmd_sound (mem : List Byte) : (∃ msg, parsecmd mem = .error (.panic msg)) ∨
    ∃ t mem' ts, parsecmd mem = .ok (t, mem') ∧ Derives .line (t.read mem') ts ∧ Spaced ts (cstring mem) := by
  obtain ⟨ts, hs⟩ := exists_spaced (zero_notMem_cstring mem)
  have hlen := hs.length_le
  have hwp := (sound_all (cstring mem) (4 * (cstring mem).length + 6)).line (.start hs) (by omega)
  cases hrun : parseline (cstring mem) (4 * (cstring mem).length + 6) 0 with
  | error e =>
    have he := hwp.error hrun
    cases e with
    | panic msg => exact .inl ⟨msg, parsecmd_of_error hrun⟩
    | bound => exact absurd rfl he
  | ok r =>
    obtain ⟨cmd, ts1, ts2, rfl, hd, ht, hp⟩ := hwp.ok hrun
    have hcmd := parsecmd_of_ok hrun
    split at hcmd
    · exact .inl ⟨_, hcmd⟩
    · rename_i hend
      obtain rfl := hp.skip_eq_length_iff.mp (not_not.mp hend)
      rw [append_nil] at hs
      exact .inr ⟨r.1, _, ts1, hcmd, by rwa [ht.read_nulterminate], hs⟩

/-- The shell parser inverts printing. Every command can be written, with
parentheses where the grammar requires them; any way to write it, with any
whitespace that keeps the tokens apart, is parsed as the command, and then its
words are strings in memory; and on every other string the parser panics. -/
theorem parsecmd_print (mem : List Byte) :
    (∀ cmd : Cmd (List Byte), cmd.Printable →
      Derives .line cmd (cmd.tokens .line) ∧ ∃ text, Spaced (cmd.tokens .line) text) ∧
    (∀ cmd ts text rest, Derives .line cmd ts → Spaced ts text →
      ∃ t mem', parsecmd (text ++ 0 :: rest) = .ok (t, mem') ∧ t.read mem' = cmd) ∧
    ((∃ msg, parsecmd mem = .error (.panic msg)) ∨
      ∃ t mem' ts, parsecmd mem = .ok (t, mem') ∧ (t.read mem').Printable ∧ Derives .line (t.read mem') ts ∧
        Spaced ts (cstring mem)) := by
  refine ⟨fun cmd h => ⟨derives_tokens h .line, _, spaced_spell fun w => isWord_of_mem_tokens h⟩,
    fun cmd ts text rest hd hs => ?_, ?_⟩
  · refine parsecmd_complete hd ?_
    rwa [cstring_append hs.zero_notMem]
  · obtain hp | ⟨t, mem', ts, hrun, hd, hs⟩ := parsecmd_sound mem
    · exact .inl hp
    · exact .inr ⟨t, mem', ts, hrun, hd.printable fun w => hs.isWord, hd, hs⟩

-- `(a;b)>c|d` followed by other bytes
example : (parsecmd ([chr '(', chr 'a', chr ';', chr 'b', chr ')', chr '>', chr 'c', chr '|', chr 'd'] ++
    [0, chr 'x'])).toOption.map (fun r => r.1.read r.2) =
    some (.pipe (.redir (.list (.exec [[chr 'a']]) (.exec [[chr 'b']])) [chr 'c'] 0x601 1) (.exec [[chr 'd']])) := by
  decide +kernel

end Xv6.User.Sh
