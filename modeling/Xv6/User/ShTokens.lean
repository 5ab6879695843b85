import Xv6.User.Sh

/-!
# The tokens of a line

`Spaced ts l` says that the bytes `l` spell the tokens `ts`, with whitespace
before, between and after them, or none where two tokens are not read as one.
Every line without a NUL spells some tokens (`exists_spaced`), and `gettoken`
and `peek` read them one by one (`gettoken_cons`, `peek_spec`).
-/

namespace Xv6.User.Sh

open Framework List

variable {c : Byte}

theorem isPlain_iff : isPlain c = true ↔ isSpace c = false ∧ c ∉ symbols := by
  rw [isPlain, Bool.and_eq_true, Bool.not_eq_true', Bool.not_eq_true', isSymbol, Bool.eq_false_iff (b := symbols.contains c),
    ne_eq, contains_iff_mem]

/-- A word is not empty, and has no whitespace, no NUL and no symbols. -/
def IsWord (w : List Byte) : Prop := w ≠ [] ∧ ∀ c ∈ w, c ≠ 0 ∧ isPlain c = true

instance (w : List Byte) : Decidable (IsWord w) := inferInstanceAs (Decidable (_ ∧ _))

inductive Token
  | word (w : List Byte)
  | lt
  | gt
  | append
  | bar
  | amp
  | semi
  | lparen
  | rparen
  deriving DecidableEq

namespace Token

def bytes : Token → List Byte
  | word w => w
  | lt => [chr '<']
  | gt => [chr '>']
  | append => [chr '>', chr '>']
  | bar => [chr '|']
  | amp => [chr '&']
  | semi => [chr ';']
  | lparen => [chr '(']
  | rparen => [chr ')']

/-- What `gettoken` returns. -/
def code : Token → Byte
  | word _ => chr 'a'
  | lt => chr '<'
  | gt => chr '>'
  | append => chr '+'
  | bar => chr '|'
  | amp => chr '&'
  | semi => chr ';'
  | lparen => chr '('
  | rparen => chr ')'

/-- The token is a symbol, and starts with one of `toks`. -/
def starts (toks : List Byte) : Token → Bool
  | word _ => false
  | tok => toks.contains (tok.bytes.headD 0)

/-- The token ends where the bytes `s` come after it. -/
def Ends (s : List Byte) : Token → Prop
  | word w => IsWord w ∧ ∀ c ∈ s.head?, isPlain c = false
  | gt => ∀ c ∈ s.head?, c ≠ chr '>'
  | _ => True

variable {s : List Byte} {tok : Token}

/-- A token starts with a byte that is neither whitespace nor NUL. -/
theorem bytes_eq_cons (h : tok.Ends s) :
    ∃ c cs, tok.bytes = c :: cs ∧ isSpace c = false ∧ c ≠ 0 := by
  cases tok with
  | word w =>
    obtain ⟨hne, hw⟩ := h.1
    obtain ⟨c, cs, rfl⟩ := exists_cons_of_ne_nil hne
    obtain ⟨h0, hp⟩ := hw c (mem_cons_self ..)
    exact ⟨c, cs, rfl, (isPlain_iff.mp hp).1, h0⟩
  | lt | gt | append | bar | amp | semi | lparen | rparen => exact ⟨_, _, rfl, by decide, by decide⟩

theorem zero_notMem_bytes (h : tok.Ends s) : 0 ∉ tok.bytes := by
  cases tok with
  | word w => exact fun h0 => (h.1.2 0 h0).1 rfl
  | lt | gt | append | bar | amp | semi | lparen | rparen => decide

end Token

/-- The bytes spell the tokens, with whitespace around them. -/
inductive Spaced : List Token → List Byte → Prop
  | nil {l : List Byte} (hl : ∀ c ∈ l, isSpace c = true) : Spaced [] l
  | cons {tok : Token} {ts : List Token} {l s : List Byte} (hl : ∀ c ∈ l, isSpace c = true) (he : tok.Ends s)
    (hs : Spaced ts s) : Spaced (tok :: ts) (l ++ (tok.bytes ++ s))

variable {tok : Token} {ts : List Token} {l s text w : List Byte} {p q : Nat} {E : Stop → Prop}

namespace Spaced

theorem nil_iff : Spaced [] l ↔ l.dropWhile isSpace = [] := by
  rw [dropWhile_eq_nil_iff]
  constructor
  · intro h
    cases h with
    | nil hl => exact hl
  · exact .nil

theorem cons_iff : Spaced (tok :: ts) l ↔
    ∃ s, l.dropWhile isSpace = tok.bytes ++ s ∧ tok.Ends s ∧ Spaced ts s := by
  constructor
  · intro h
    cases h with
    | @cons _ _ l s hl he hs =>
      refine ⟨s, ?_, he, hs⟩
      obtain ⟨c, cs, hb, hc, -⟩ := Token.bytes_eq_cons he
      rw [dropWhile_append_of_pos hl, hb, cons_append, dropWhile_cons_of_neg (by rw [hc]; decide)]
  · rintro ⟨s, hd, he, hs⟩
    rw [← takeWhile_append_dropWhile (p := isSpace) (l := l), hd]
    exact .cons (fun c hc => mem_takeWhile_imp hc) he hs

/-- Whitespace at the start makes no difference. -/
theorem dropWhile_iff : Spaced ts (l.dropWhile isSpace) ↔ Spaced ts l := by
  have hidem : (l.dropWhile isSpace).dropWhile isSpace = l.dropWhile isSpace := dropWhile_idempotent ..
  cases ts with
  | nil => rw [nil_iff, nil_iff, hidem]
  | cons tok ts => rw [cons_iff, cons_iff, hidem]

theorem length_le (h : Spaced ts l) : ts.length ≤ l.length := by
  induction h with
  | nil => exact Nat.zero_le _
  | cons _ he _ ih =>
    obtain ⟨c, cs, hb, -⟩ := Token.bytes_eq_cons he
    rw [hb, length_cons, length_append, length_append, length_cons]
    omega

theorem isWord (h : Spaced ts l) (hw : .word w ∈ ts) : IsWord w := by
  induction h with
  | nil => cases hw
  | cons _ he _ ih =>
    rcases mem_cons.mp hw with rfl | hw
    · exact he.1
    · exact ih hw

theorem zero_notMem (h : Spaced ts l) : 0 ∉ l := by
  have hspace {l : List Byte} (hl : ∀ c ∈ l, isSpace c = true) : 0 ∉ l := fun h0 => absurd (hl 0 h0) (by decide)
  induction h with
  | nil hl => exact hspace hl
  | cons hl he _ ih =>
    simp only [mem_append, not_or]
    exact ⟨hspace hl, Token.zero_notMem_bytes he, ih⟩

end Spaced

/-- A byte that is not whitespace starts a token. -/
theorem exists_token {cs : List Byte} (hc : isSpace c = false) (h0 : 0 ∉ c :: cs) :
    ∃ tok s, c :: cs = Token.bytes tok ++ s ∧ tok.Ends s := by
  by_cases hsym : c ∈ symbols
  · simp only [symbols, mem_cons, not_mem_nil, or_false] at hsym
    rcases hsym with rfl | rfl | rfl | rfl | rfl | rfl | rfl
    · exact ⟨.lt, cs, rfl, trivial⟩
    · exact ⟨.bar, cs, rfl, trivial⟩
    · -- two of them are one token
      by_cases hgt : cs.head? = some (chr '>')
      · obtain ⟨cs, rfl⟩ := List.head?_eq_some_iff.mp hgt
        exact ⟨.append, cs, rfl, trivial⟩
      · refine ⟨.gt, cs, rfl, fun c hc heq => hgt ?_⟩
        rw [← heq]
        exact hc
    · exact ⟨.amp, cs, rfl, trivial⟩
    · exact ⟨.semi, cs, rfl, trivial⟩
    · exact ⟨.lparen, cs, rfl, trivial⟩
    · exact ⟨.rparen, cs, rfl, trivial⟩
  · have hp : isPlain c = true := isPlain_iff.mpr ⟨hc, hsym⟩
    refine ⟨.word ((c :: cs).takeWhile isPlain), (c :: cs).dropWhile isPlain,
      (takeWhile_append_dropWhile ..).symm, ⟨?_, fun d hd => ⟨?_, mem_takeWhile_imp hd⟩⟩, fun d hd => ?_⟩
    · rw [takeWhile_cons_of_pos hp]
      exact cons_ne_nil c _
    · rintro rfl
      exact h0 ((takeWhile_sublist isPlain).mem hd)
    · obtain ⟨r, hr⟩ := List.head?_eq_some_iff.mp hd
      have hne : (c :: cs).dropWhile isPlain ≠ [] := by rw [hr]; exact cons_ne_nil d r
      simpa only [hr, head_cons] using head_dropWhile_not isPlain hne

theorem exists_spaced (h0 : 0 ∉ l) : ∃ ts, Spaced ts l := by
  induction hn : l.length using Nat.strong_induction_on generalizing l with
  | h n ih =>
    cases hd : l.dropWhile isSpace with
    | nil => exact ⟨[], Spaced.nil_iff.mpr hd⟩
    | cons c cs =>
      have hsub : c :: cs <:+ l := hd ▸ dropWhile_suffix isSpace
      have hne : l.dropWhile isSpace ≠ [] := by rw [hd]; exact cons_ne_nil c cs
      have hc := head_dropWhile_not isSpace hne
      simp only [hd, head_cons] at hc
      obtain ⟨tok, s, hs, he⟩ := exists_token hc fun hmem => h0 (hsub.subset hmem)
      obtain ⟨d, ds, hb, -⟩ := Token.bytes_eq_cons he
      have hlen := congrArg List.length hs
      have hle := hsub.length_le
      simp only [hb, length_append, length_cons] at hlen hle
      obtain ⟨ts, hts⟩ := ih s.length (by omega) (fun hmem => h0 (hsub.subset (hs ▸ mem_append_right _ hmem))) rfl
      exact ⟨tok :: ts, Spaced.cons_iff.mpr ⟨s, hd.trans hs, he, hts⟩⟩

/-! ## Reading them -/

theorem deref_of_drop (h : text.drop p = l) : deref text p = l.head?.getD 0 := by
  rw [deref, ← h, List.head?_drop, List.getD_eq_getElem?_getD]

theorem drop_add_length (h : text.drop p = l ++ s) : text.drop (p + l.length) = s := by
  rw [← drop_drop, h, drop_left]

theorem drop_skip (f : Byte → Bool) : text.drop (skip text f p) = (text.drop p).dropWhile f :=
  drop_add_length (takeWhile_append_dropWhile ..).symm

/-- The two ends of the word `w` in the line. -/
structure WordAt (text : List Byte) (p : Nat × Nat) (w : List Byte) : Prop where
  word : IsWord w
  bytes : w <+: text.drop p.1
  length : p.2 = p.1 + w.length
  stop : deref text p.2 = 0 ∨ isPlain (deref text p.2) = false

/-- A word is read up to its end. -/
theorem skip_word (h : text.drop q = w ++ s) (hw : ∀ c ∈ w, isPlain c = true)
    (hs : ∀ c ∈ s.head?, isPlain c = false) : skip text isPlain q = q + w.length := by
  have hnil : s.takeWhile isPlain = [] := by
    cases s with
    | nil => rfl
    | cons c cs => exact takeWhile_cons_of_neg (by rw [hs c rfl]; decide)
  rw [skip, h, takeWhile_append_of_pos hw, hnil, append_nil]

theorem tokenAt_eq (h : text.drop q = tok.bytes ++ s) (he : tok.Ends s) :
    tokenAt text q = (tok.code, q + tok.bytes.length) := by
  have hq := deref_of_drop h
  rw [tokenAt]
  cases tok with
  | word w =>
    obtain ⟨⟨hne, hw⟩, hend⟩ := he
    have hskip := skip_word h (fun c hc => (hw c hc).2) hend
    obtain ⟨c, cs, rfl⟩ := exists_cons_of_ne_nil hne
    obtain ⟨h0, hp⟩ := hw c (mem_cons_self ..)
    change deref text q = c at hq
    -- none of the symbols
    have hsym := (isPlain_iff.mp hp).2
    simp only [symbols, mem_cons, not_mem_nil, or_false, not_or] at hsym
    obtain ⟨hlt, hbar, hgt, hamp, hsemi, hlp, hrp⟩ := hsym
    rw [hq, if_neg h0, if_neg (by simp [hlt, hbar, hamp, hsemi, hlp, hrp]), if_neg hgt, hskip]
    rfl
  | gt =>
    have hq1 : deref text (q + 1) = s.head?.getD 0 := deref_of_drop (drop_add_length h)
    have hne : deref text (q + 1) ≠ chr '>' := by
      rw [hq1]
      cases s with
      | nil => decide
      | cons c cs => exact he c rfl
    change deref text q = chr '>' at hq
    rw [hq, if_neg (by decide), if_neg (by decide), if_pos rfl, if_neg hne]
    rfl
  | append =>
    have hq1 : deref text (q + 1) = chr '>' := deref_of_drop (drop_add_length (l := [chr '>']) h)
    change deref text q = chr '>' at hq
    rw [hq, if_neg (by decide), if_neg (by decide), if_pos rfl, if_pos hq1]
    rfl
  | lt | bar | amp | semi | lparen | rparen =>
    change deref text q = chr _ at hq
    rw [hq, if_neg (by decide), if_pos (by decide)]
    rfl

/-- The position is in the line, before the tokens `ts`. -/
structure At (text : List Byte) (ts : List Token) (p : Nat) : Prop where
  le : p ≤ text.length
  spaced : Spaced ts (text.drop p)

theorem At.skip (h : At text ts p) : At text ts (skip text isSpace p) where
  le := by
    have := (takeWhile_sublist isSpace (l := text.drop p)).length_le
    have hle := h.le
    rw [length_drop] at this
    rw [Sh.skip]
    omega
  spaced := by
    rw [drop_skip]
    exact Spaced.dropWhile_iff.mpr h.spaced

/-- After the last token only the end is left. -/
theorem At.drop_eq_nil (h : At text [] p) : text.drop (Sh.skip text isSpace p) = [] := by
  rw [drop_skip]
  exact Spaced.nil_iff.mp h.spaced

theorem At.exists_cons (h : At text (tok :: ts) p) :
    ∃ s, text.drop (Sh.skip text isSpace p) = tok.bytes ++ s ∧ tok.Ends s ∧ Spaced ts s := by
  rw [drop_skip]
  exact Spaced.cons_iff.mp h.spaced

theorem gettoken_nil (h : At text [] p) : Wp E (gettoken text) (fun r p' => r.1 = 0 ∧ At text [] p') p := by
  have h0 : deref text (Sh.skip text isSpace p) = 0 := deref_of_drop h.drop_eq_nil
  have htok : tokenAt text (Sh.skip text isSpace p) = (0, Sh.skip text isSpace p) := if_pos h0
  simp only [gettoken, wp_bind, wp_get, htok, wp_set, wp_pure]
  exact ⟨trivial, h.skip.skip⟩

theorem gettoken_cons (h : At text (tok :: ts) p) : Wp E (gettoken text) (fun r p' => r.1 = tok.code ∧
    At text ts p' ∧ ∀ w, tok = .word w → WordAt text r.2 w) p := by
  obtain ⟨s, hs, he, hts⟩ := h.exists_cons
  have hrest := drop_add_length hs
  have hle := h.skip.le
  have hlen := congrArg List.length hs
  rw [length_drop, length_append] at hlen
  have hat : At text ts (Sh.skip text isSpace p + tok.bytes.length) := ⟨by omega, by rwa [hrest]⟩
  simp only [gettoken, wp_bind, wp_get, tokenAt_eq hs he, wp_set, wp_pure]
  refine ⟨trivial, hat.skip, fun w hw => ?_⟩
  subst hw
  refine ⟨he.1, ⟨s, hs.symm⟩, rfl, ?_⟩
  rw [deref_of_drop hrest]
  cases s with
  | nil => exact .inl rfl
  | cons c cs => exact .inr (he.2 c rfl)

/-- `peek` for symbols. -/
theorem peek_spec (h : At text ts p) {toks : List Byte} (htoks : toks ⊆ symbols) :
    Wp E (peek text toks) (fun b p' => b = ts.head?.any (Token.starts toks) ∧ At text ts p') p := by
  simp only [peek, wp_bind, wp_get, wp_set, wp_pure]
  refine ⟨?_, h.skip⟩
  cases ts with
  | nil =>
    rw [deref_of_drop h.drop_eq_nil]
    rfl
  | cons tok ts =>
    obtain ⟨s, hs, he, hts⟩ := h.exists_cons
    obtain ⟨c, cs, hb, hc, h0⟩ := Token.bytes_eq_cons he
    have hd : deref text (Sh.skip text isSpace p) = c := by
      rw [deref_of_drop hs, hb]
      rfl
    rw [hd, decide_eq_true h0, Bool.true_and, List.head?_cons, Option.any_some]
    cases tok with
    | word w =>
      have hp := (he.1.2 c (by change c ∈ Token.bytes (.word w); rw [hb]; exact mem_cons_self ..)).2
      rw [Token.starts, Bool.eq_false_iff, ne_eq, contains_iff_mem]
      exact fun hmem => (isPlain_iff.mp hp).2 (htoks hmem)
    | lt | gt | append | bar | amp | semi | lparen | rparen =>
      cases hb
      rfl

end Xv6.User.Sh
