import Xv6.User.ShGrammar

/-!
# Parsing inverts printing

The parser reads the tokens of the grammar. `Reads text t cmd` says that `t` is
the command `cmd` with pointers into the line for its words. What the grammar
derives is parsed (`derives_parsed`), and what is parsed is derived
(`sound_all`), so that `parsecmd` inverts any way to write a command and panics
on all other lines (`parsecmd_print`).
-/

namespace Xv6.User.Sh

open Framework List

variable {text toks w : List Byte} {ts rest ts' : List Token} {p fuel argc : Nat} {E : Stop → Prop} {α : Type}
variable {cmd right left : Cmd (List Byte)} {t : Cmd (Nat × Nat)} {items : List Item} {lvl : Level} {m m' : Parser α}
  {Q : α → Nat → Prop} {tok : Token} {f : Token → Bool}

/-- The words of `t` point to those of `cmd` in the line. -/
inductive Reads (text : List Byte) : Cmd (Nat × Nat) → Cmd (List Byte) → Prop
  | exec {argv : List (Nat × Nat)} {ws : List (List Byte)} (h : List.Forall₂ (WordAt text) argv ws) :
    Reads text (.exec argv) (.exec ws)
  | redir {t : Cmd (Nat × Nat)} {cmd : Cmd (List Byte)} {f : Nat × Nat} {w : List Byte} {mode fd : BitVec 32}
    (h : Reads text t cmd) (hw : WordAt text f w) : Reads text (.redir t f mode fd) (.redir cmd w mode fd)
  | pipe {t t' : Cmd (Nat × Nat)} {cmd cmd' : Cmd (List Byte)} (h : Reads text t cmd) (h' : Reads text t' cmd') :
    Reads text (.pipe t t') (.pipe cmd cmd')
  | list {t t' : Cmd (Nat × Nat)} {cmd cmd' : Cmd (List Byte)} (h : Reads text t cmd) (h' : Reads text t' cmd') :
    Reads text (.list t t') (.list cmd cmd')
  | back {t : Cmd (Nat × Nat)} {cmd : Cmd (List Byte)} (h : Reads text t cmd) : Reads text (.back t) (.back cmd)

theorem Reads.addArg (h : Reads text t cmd) {a : Nat × Nat} (hw : WordAt text a w) :
    Reads text (t.addArg a) (cmd.addArg w) := by
  induction h with
  | exec h => exact .exec (rel_append h (.cons hw .nil))
  | redir _ hf ih => exact .redir ih hf
  | pipe h h' => exact .pipe h h'
  | list h h' => exact .list h h'
  | back h => exact .back h

/-! ## Steps of the parser -/

/-- A test for the next token. -/
theorem wp_peek (h : At text ts p) (htoks : toks ⊆ symbols)
    (hyes : ts.head?.any (Token.starts toks) = true → ∀ p', At text ts p' → Wp E m Q p')
    (hno : ts.head?.any (Token.starts toks) = false → ∀ p', At text ts p' → Wp E m' Q p') :
    Wp E (peek text toks >>= fun b => if b = true then m else m') Q p := by
  refine (peek_spec h htoks).bind fun b p' h' => ?_
  obtain ⟨rfl, h'⟩ := h'
  split
  · rename_i hb
    exact hyes hb p' h'
  · rename_i hb
    exact hno (Bool.eq_false_iff.mpr hb) p' h'

theorem wp_peek_not (h : At text ts p)
    (htoks : toks ⊆ symbols) (hno : ts.head?.any (Token.starts toks) = false → ∀ p', At text ts p' → Wp E m Q p')
    (hyes : ts.head?.any (Token.starts toks) = true → ∀ p', At text ts p' → Wp E m' Q p') :
    Wp E (peek text toks >>= fun b => if (!b) = true then m else m') Q p := by
  have hnot : (fun b : Bool => if (!b) = true then m else m') = fun b => if b = true then m' else m := by
    funext b
    cases b <;> rfl
  rw [hnot]
  exact wp_peek h htoks hyes hno

/-- A token that is not looked at. -/
theorem wp_gettoken (h : At text (tok :: ts) p)
    (hm : ∀ p', At text ts p' → Wp E m Q p') : Wp E (gettoken text >>= fun _ => m) Q p :=
  (gettoken_cons h).bind fun _ p' h' => hm p' h'.2.1

theorem exists_arrow (h : tok.starts [chr '<', chr '>'] = true) : ∃ a : Arrow, tok = a.token := by
  cases tok with
  | lt => exact ⟨.input, rfl⟩
  | gt => exact ⟨.output, rfl⟩
  | append => exact ⟨.append, rfl⟩
  | word | bar | amp | semi | lparen | rparen => cases h

theorem redirect_token (t : Cmd (Nat × Nat)) (a : Arrow) (f : Nat × Nat) :
    redirect t a.token.code f = .redir t f a.mode a.fd := by
  cases a <;> rfl

section Redirs

variable {Q : Cmd (Nat × Nat) → Nat → Prop} {a : Arrow}

/-- No redirection comes next. -/
theorem parseredirs_stop (h : At text ts p) (hts : ts.head?.any (Token.starts [chr '<', chr '>']) = false)
    (hQ : ∀ p', At text ts p' → Q t p') : Wp E (parseredirs text (fuel + 1) t) Q p := by
  rw [parseredirs]
  refine wp_peek h (by decide) (fun hyes => ?_) fun _ p' h' => hQ p' h'
  rw [hts] at hyes
  cases hyes

/-- A redirection comes next. -/
theorem parseredirs_arrow (h : At text (a.token :: .word w :: ts) p)
    (hQ : ∀ f p', WordAt text f w → At text ts p' → Wp E (parseredirs text fuel (.redir t f a.mode a.fd)) Q p') :
    Wp E (parseredirs text (fuel + 1) t) Q p := by
  rw [parseredirs]
  refine wp_peek h (by decide) (fun _ p1 h1 => ?_) fun hno => ?_
  · refine (gettoken_cons h1).bind fun ⟨tok, _⟩ p2 h2 => ?_
    obtain ⟨rfl, h2, -⟩ := h2
    refine (gettoken_cons h2).bind fun ⟨ret, f⟩ p3 h3 => ?_
    obtain ⟨rfl, h3, hw⟩ := h3
    simp only [redirect_token]
    exact wp_ite (fun hne => absurd rfl hne) fun _ => hQ f p3 (hw w rfl) h3
  · cases a <;> cases hno

/-- The file of a redirection is missing. -/
theorem parseredirs_missing (h : At text (a.token :: ts) p) (hts : ∀ w, ts.head? ≠ some (.word w))
    (hE : E (.panic "missing file for redirection")) : Wp E (parseredirs text (fuel + 1) t) Q p := by
  rw [parseredirs]
  refine wp_peek h (by decide) (fun _ p1 h1 => ?_) fun hno => ?_
  · refine (gettoken_cons h1).bind fun ⟨tok, _⟩ p2 h2 => ?_
    obtain ⟨-, h2, -⟩ := h2
    cases ts with
    | nil =>
      refine (gettoken_nil h2).bind fun ⟨ret, _⟩ p3 h3 => ?_
      obtain ⟨rfl, -⟩ := h3
      exact hE
    | cons tok' ts =>
      refine (gettoken_cons h2).bind fun ⟨ret, _⟩ p3 h3 => ?_
      obtain ⟨rfl, -⟩ := h3
      cases tok' with
      | word w => exact absurd rfl (hts w)
      | lt | gt | append | bar | amp | semi | lparen | rparen => exact hE
  · cases a <;> cases hno

/-- No word comes next, but the end of the command. -/
theorem parseargs_stop (h : At text ts p)
    (hts : ts.head?.all (Token.starts [chr '|', chr ')', chr '&', chr ';']) = true) (hQ : ∀ p', At text ts p' → Q t p') :
    Wp E (parseargs text (fuel + 1) t argc) Q p := by
  rw [parseargs]
  refine wp_peek h (by decide) (fun _ p1 h1 => hQ p1 h1) fun hno p1 h1 => ?_
  cases ts with
  | nil =>
    refine (gettoken_nil h1).bind fun ⟨tok, _⟩ p2 h2 => ?_
    obtain ⟨rfl, h2⟩ := h2
    exact hQ p2 h2
  | cons tok ts =>
    simp only [List.head?_cons, Option.any_some, Option.all_some] at hno hts
    rw [hts] at hno
    cases hno

/-- A word comes next. -/
theorem parseargs_word (h : At text (.word w :: ts) p)
    (hE : argc + 1 < MAXARGS ∨ E (.panic "too many args"))
    (hQ : ∀ a p', argc + 1 < MAXARGS → WordAt text a w → At text ts p' → Wp E (parseredirs text fuel (t.addArg a))
      (fun t p' => Wp E (parseargs text fuel t (argc + 1)) Q p') p') :
    Wp E (parseargs text (fuel + 1) t argc) Q p := by
  rw [parseargs]
  refine wp_peek h (by decide) (fun hyes => by cases hyes) fun _ p1 h1 => ?_
  refine (gettoken_cons h1).bind fun ⟨tok, a⟩ p2 h2 => ?_
  obtain ⟨rfl, h2, hw⟩ := h2
  refine wp_ite (fun h0 => absurd (show chr 'a' = 0 from h0) (by decide)) fun _ => ?_
  refine wp_ite (fun hne => absurd rfl hne) fun _ => ?_
  refine wp_ite (fun hn => hE.resolve_left (Nat.not_lt.mpr hn)) fun hn => ?_
  rw [wp_bind]
  exact hQ a p2 (Nat.not_le.mp hn) (hw w rfl) h2

/-- Another token comes next. -/
theorem parseargs_panic (h : At text (tok :: ts) p)
    (hts : tok.starts [chr '|', chr ')', chr '&', chr ';'] = false) (hw : ∀ w, tok ≠ .word w)
    (hE : E (.panic "syntax")) : Wp E (parseargs text (fuel + 1) t argc) Q p := by
  rw [parseargs]
  refine wp_peek h (by decide) (fun hyes => ?_) fun _ p1 h1 => ?_
  · rw [List.head?_cons, Option.any_some, hts] at hyes
    cases hyes
  · refine (gettoken_cons h1).bind fun ⟨_, _⟩ p2 h2 => ?_
    obtain ⟨rfl, -⟩ := h2
    cases tok with
    | word w => exact absurd rfl (hw w)
    | lt | gt | append | bar | amp | semi | lparen | rparen => exact hE

end Redirs

/-! ## What is derived is parsed -/

/-- What may come after a piece of a line. -/
def Level.follow : Level → List Token
  | exec => [.bar, .amp, .semi, .rparen]
  | pipe => [.amp, .semi, .rparen]
  | back => [.amp, .semi, .rparen]
  | line => [.rparen]

def Level.Follow (lvl : Level) (rest : List Token) : Prop := ∀ tok ∈ rest.head?, tok ∈ lvl.follow

theorem Level.Follow.all (h : lvl.Follow rest) (hf : ∀ tok ∈ lvl.follow, f tok = true) : rest.head?.all f = true := by
  cases rest with
  | nil => rfl
  | cons tok rest => exact hf tok (h tok rfl)

theorem Level.Follow.any_eq_false (h : lvl.Follow rest)
    (hf : ∀ tok ∈ lvl.follow, f tok = false) : rest.head?.any f = false := by
  cases rest with
  | nil => rfl
  | cons tok rest => exact hf tok (h tok rfl)

theorem Level.Follow.mono {lvl' : Level} (h : lvl.Follow rest) (hl : lvl.follow ⊆ lvl'.follow) : lvl'.Follow rest :=
  fun tok htok => hl (h tok htok)

theorem parseredirs_items (hi : args items = []) (hrest : rest.head?.any (Token.starts [chr '<', chr '>']) = false)
    (ht : Reads text t cmd) (h : At text (items.flatMap Item.tokens ++ rest) p) (hf : items.length < fuel) :
    Wp E (parseredirs text fuel t) (fun t' p' => Reads text t' (items.foldl Cmd.add cmd) ∧ At text rest p') p := by
  induction items generalizing t cmd p fuel with
  | nil =>
    obtain ⟨fuel, rfl⟩ := Nat.exists_eq_succ_of_ne_zero (Nat.ne_zero_of_lt hf)
    exact parseredirs_stop h hrest fun p' h' => ⟨ht, h'⟩
  | cons item items ih =>
    obtain ⟨fuel, rfl⟩ := Nat.exists_eq_succ_of_ne_zero (Nat.ne_zero_of_lt hf)
    cases item with
    | arg w => cases hi
    | redir a w =>
      refine parseredirs_arrow h fun f p' hw h' => ?_
      exact ih hi (.redir ht hw) h' (Nat.lt_of_succ_lt_succ hf)

theorem parseitems {fuel' : Nat} (hrest : Level.exec.Follow rest) (hn : argc + (args items).length < MAXARGS)
    (ht : Reads text t cmd) (h : At text (items.flatMap Item.tokens ++ rest) p) (hf : items.length < fuel)
    (hf' : items.length < fuel') :
    Wp E (parseredirs text fuel t) (fun t p' => Wp E (parseargs text fuel' t argc) (fun t' p' =>
      Reads text t' (items.foldl Cmd.add cmd) ∧ At text rest p') p') p := by
  induction items generalizing t cmd p fuel fuel' argc with
  | nil =>
    obtain ⟨fuel, rfl⟩ := Nat.exists_eq_succ_of_ne_zero (Nat.ne_zero_of_lt hf)
    obtain ⟨fuel', rfl⟩ := Nat.exists_eq_succ_of_ne_zero (Nat.ne_zero_of_lt hf')
    refine parseredirs_stop h (hrest.any_eq_false (by decide)) fun p1 h1 => ?_
    exact parseargs_stop h1 (hrest.all (by decide)) fun p2 h2 => ⟨ht, h2⟩
  | cons item items ih =>
    obtain ⟨fuel, rfl⟩ := Nat.exists_eq_succ_of_ne_zero (Nat.ne_zero_of_lt hf)
    cases item with
    | arg w =>
      obtain ⟨fuel', rfl⟩ := Nat.exists_eq_succ_of_ne_zero (Nat.ne_zero_of_lt hf')
      have hn' : argc + 1 + (args items).length < MAXARGS := by
        rw [Nat.add_right_comm]
        exact hn
      refine parseredirs_stop h rfl fun p1 h1 => parseargs_word h1 (.inl (by omega)) fun a p2 _ hw h2 => ?_
      exact ih hn' (ht.addArg hw) h2 (Nat.lt_of_succ_lt_succ hf') (Nat.lt_of_succ_lt_succ hf')
    | redir a w =>
      refine parseredirs_arrow h fun f p' hw h' => ?_
      exact ih hn (.redir ht hw) h' (Nat.lt_of_succ_lt_succ hf) (Nat.lt_of_succ_lt hf')

/-- The tokens are parsed as the command, before any that may follow. -/
def Parsed (text : List Byte) : Level → Cmd (List Byte) → List Token → Prop
  | .exec, cmd, ts => ∀ {rest p fuel}, Level.exec.Follow rest → At text (ts ++ rest) p → 4 * ts.length + 4 ≤ fuel →
    Wp (fun _ => False) (parseexec text fuel) (fun t p' => Reads text t cmd ∧ At text rest p') p
  | .pipe, cmd, ts => ∀ {rest p fuel}, Level.pipe.Follow rest → At text (ts ++ rest) p → 4 * ts.length + 5 ≤ fuel →
    Wp (fun _ => False) (parsepipe text fuel) (fun t p' => Reads text t cmd ∧ At text rest p') p
  -- the loop goes on after the tokens
  | .back, cmd, ts => ∀ {rest p fuel fuel' k Q}, Level.back.Follow rest → At text (ts ++ rest) p →
    4 * ts.length + 5 ≤ fuel → k + ts.length ≤ fuel' →
    (∀ t p' f, Reads text t cmd → At text rest p' → k ≤ f → Wp (fun _ => False) (parsebacks text f t) Q p') →
    Wp (fun _ => False) (parsepipe text fuel) (fun t p' => Wp (fun _ => False) (parsebacks text fuel' t) Q p') p
  | .line, cmd, ts => ∀ {rest p fuel}, Level.line.Follow rest → At text (ts ++ rest) p → 4 * ts.length + 6 ≤ fuel →
    Wp (fun _ => False) (parseline text fuel) (fun t p' => Reads text t cmd ∧ At text rest p') p

theorem length_flatMap_tokens (items : List Item) : items.length ≤ (items.flatMap Item.tokens).length := by
  induction items with
  | nil => exact Nat.le_refl _
  | cons item items ih =>
    rw [flatMap_cons, length_append, length_cons]
    cases item <;> simp only [Item.tokens, length_cons, length_nil] <;> omega

theorem parsed_exec (items : List Item) (hn : (args items).length < MAXARGS) :
    Parsed text .exec (items.foldl Cmd.add (.exec [])) (items.flatMap Item.tokens) := by
  intro rest p fuel hrest h hf
  obtain ⟨fuel, rfl⟩ : ∃ m, fuel = m + 1 := ⟨fuel - 1, by omega⟩
  have hlen := length_flatMap_tokens items
  -- no item starts with a parenthesis
  have hparen : (items.flatMap Item.tokens ++ rest).head?.any (Token.starts [chr '(']) = false := by
    cases items with
    | nil => exact hrest.any_eq_false (by decide)
    | cons item items =>
      cases item with
      | arg w => rfl
      | redir a w => cases a <;> rfl
  rw [parseexec]
  refine wp_peek h (by decide) (fun hyes => ?_) fun _ p1 h1 => ?_
  · rw [hparen] at hyes
    cases hyes
  · rw [wp_bind]
    exact parseitems hrest ((Nat.zero_add _).trans_lt hn) (.exec .nil) h1 (by omega) (by omega)

theorem parsed_block (hc : Parsed text .line cmd ts) (items : List Item) (hn : args items = []) :
    Parsed text .exec (items.foldl Cmd.add cmd) (.lparen :: (ts ++ .rparen :: items.flatMap Item.tokens)) := by
  intro rest p fuel hrest h hf
  have hlen := length_flatMap_tokens items
  simp only [length_cons, length_append, cons_append, append_assoc] at hf h
  obtain ⟨fuel, rfl⟩ : ∃ m, fuel = m + 2 := ⟨fuel - 2, by omega⟩
  rw [parseexec]
  refine wp_peek h (by decide) (fun _ p1 h1 => ?_) fun hno => by cases hno
  rw [parseblock]
  refine wp_peek_not h1 (by decide) (fun hno => by cases hno) fun _ p2 h2 => wp_gettoken h2 fun p3 h3 => ?_
  have hparen : Level.line.Follow (.rparen :: (items.flatMap Item.tokens ++ rest)) := by
    rintro tok ⟨⟩
    exact mem_cons_self ..
  refine (hc hparen h3 (by omega)).bind fun t p4 h4 => ?_
  refine wp_peek_not h4.2 (by decide) (fun hno => by cases hno) fun _ p5 h5 => wp_gettoken h5 fun p6 h6 => ?_
  exact parseredirs_items hn (hrest.any_eq_false (by decide)) h4.1 h6 (by omega)

theorem parsed_one (h : Parsed text .exec cmd ts) : Parsed text .pipe cmd ts := by
  intro rest p fuel hrest hat hf
  obtain ⟨fuel, rfl⟩ : ∃ m, fuel = m + 1 := ⟨fuel - 1, by omega⟩
  rw [parsepipe]
  refine (h (hrest.mono (by decide)) hat (by omega)).bind fun t p1 h1 => ?_
  refine wp_peek h1.2 (by decide) (fun hyes => ?_) fun _ p2 h2 => ⟨h1.1, h2⟩
  rw [hrest.any_eq_false (by decide)] at hyes
  cases hyes

theorem parsed_pipe (h : Parsed text .exec left ts)
    (h' : Parsed text .pipe right ts') : Parsed text .pipe (.pipe left right) (ts ++ .bar :: ts') := by
  intro rest p fuel hrest hat hf
  simp only [length_append, length_cons, append_assoc, cons_append] at hf hat
  obtain ⟨fuel, rfl⟩ : ∃ m, fuel = m + 1 := ⟨fuel - 1, by omega⟩
  have hbar : Level.exec.Follow (.bar :: (ts' ++ rest)) := by
    rintro tok ⟨⟩
    exact mem_cons_self ..
  rw [parsepipe]
  refine (h hbar hat (by omega)).bind fun t p1 h1 => ?_
  refine wp_peek h1.2 (by decide) (fun _ p2 h2 => wp_gettoken h2 fun p3 h3 => ?_) fun hno => by cases hno
  exact (h' hrest h3 (by omega)).bind fun t' p4 h4 => ⟨.pipe h1.1 h4.1, h4.2⟩

theorem parsed_fore (h : Parsed text .pipe cmd ts) : Parsed text .back cmd ts := by
  intro rest p fuel fuel' k Q hrest hat hf hf' hQ
  exact (h hrest hat hf).mono fun t p1 h1 => hQ t p1 fuel' h1.1 h1.2 (by omega)

theorem parsed_back (h : Parsed text .back cmd ts) : Parsed text .back (.back cmd) (ts ++ [.amp]) := by
  intro rest p fuel fuel' k Q hrest hat hf hf' hQ
  simp only [length_append, length_cons, length_nil, append_assoc, singleton_append]
    at hf hf' hat
  have hamp : Level.back.Follow (.amp :: rest) := by
    rintro tok ⟨⟩
    exact mem_cons_self ..
  refine h (k := k + 1) hamp hat (by omega) (by omega) fun t p1 f ht h1 hk => ?_
  obtain ⟨f, rfl⟩ : ∃ m, f = m + 1 := ⟨f - 1, by omega⟩
  rw [parsebacks]
  refine wp_peek h1 (by decide) (fun _ p2 h2 => wp_gettoken h2 fun p3 h3 => ?_) fun hno => by cases hno
  exact hQ _ p3 f (.back ht) h3 (by omega)

/-- The loop stops where no `&` comes next. -/
theorem parsebacks_stop {Q : Cmd (Nat × Nat) → Nat → Prop} (h : At text ts p)
    (hts : ts.head?.any (Token.starts [chr '&']) = false) (hQ : ∀ p', At text ts p' → Q t p') (hf : 0 < fuel) :
    Wp E (parsebacks text fuel t) Q p := by
  obtain ⟨fuel, rfl⟩ : ∃ m, fuel = m + 1 := ⟨fuel - 1, by omega⟩
  rw [parsebacks]
  refine wp_peek h (by decide) (fun hyes => ?_) fun _ p' h' => hQ p' h'
  rw [hts] at hyes
  cases hyes

theorem parsed_last (h : Parsed text .back cmd ts) : Parsed text .line cmd ts := by
  intro rest p fuel hrest hat hf
  obtain ⟨fuel, rfl⟩ : ∃ m, fuel = m + 1 := ⟨fuel - 1, by omega⟩
  rw [parseline]
  simp only [wp_bind]
  refine h (k := 1) (hrest.mono (by decide)) hat (by omega) (by omega) fun t p1 f ht h1 hk => ?_
  refine parsebacks_stop h1 (hrest.any_eq_false (by decide)) (fun p2 h2 => ?_) hk
  refine wp_bind.mp (wp_peek h2 (by decide) (fun hyes => ?_) fun _ p3 h3 => ⟨ht, h3⟩)
  rw [hrest.any_eq_false (by decide)] at hyes
  cases hyes

theorem parsed_list (h : Parsed text .back left ts)
    (h' : Parsed text .line right ts') : Parsed text .line (.list left right) (ts ++ .semi :: ts') := by
  intro rest p fuel hrest hat hf
  simp only [length_append, length_cons, append_assoc, cons_append] at hf hat
  obtain ⟨fuel, rfl⟩ : ∃ m, fuel = m + 1 := ⟨fuel - 1, by omega⟩
  have hsemi : Level.back.Follow (.semi :: (ts' ++ rest)) := by
    rintro tok ⟨⟩
    decide
  rw [parseline]
  simp only [wp_bind]
  refine h (k := 1) hsemi hat (by omega) (by omega) fun t p1 f ht h1 hk => ?_
  refine parsebacks_stop h1 rfl (fun p2 h2 => ?_) hk
  refine wp_bind.mp (wp_peek h2 (by decide) (fun _ p3 h3 => wp_gettoken h3 fun p4 h4 => ?_) fun hno => by cases hno)
  exact (h' hrest h4 (by omega)).bind fun t' p5 h5 => ⟨.list ht h5.1, h5.2⟩

/-- The parser accepts what the grammar derives. -/
theorem derives_parsed (h : Derives lvl cmd ts) : Parsed text lvl cmd ts := by
  induction h with
  | exec items hn => exact parsed_exec items hn
  | block _ items hn ih => exact parsed_block ih items hn
  | one _ ih => exact parsed_one ih
  | pipe _ _ ih ih' => exact parsed_pipe ih ih'
  | fore _ ih => exact parsed_fore ih
  | back _ ih => exact parsed_back ih
  | last _ ih => exact parsed_last ih
  | list _ _ ih ih' => exact parsed_list ih ih'

/-! ## What is parsed is derived -/

/-- All that stops the parser is a panic. -/
abbrev Panics : Stop → Prop := (· ≠ .bound)

/-- A part of the tokens has been read, and `t` is a command that they derive. -/
def Parse (text : List Byte) (lvl : Level) (ts : List Token) (t : Cmd (Nat × Nat)) (p : Nat) : Prop :=
  ∃ cmd ts1 ts2, ts = ts1 ++ ts2 ∧ Derives lvl cmd ts1 ∧ Reads text t cmd ∧ At text ts2 p

theorem parseredirs_sound (ht : Reads text t cmd) (h : At text ts p) (hf : ts.length < fuel) :
    Wp Panics (parseredirs text fuel t) (fun t' p' => ∃ items ts2, args items = [] ∧
      ts = items.flatMap Item.tokens ++ ts2 ∧ Reads text t' (items.foldl Cmd.add cmd) ∧ At text ts2 p') p := by
  induction fuel generalizing t cmd ts p with
  | zero => omega
  | succ fuel ih =>
    cases hts : ts.head?.any (Token.starts [chr '<', chr '>']) with
    | false => exact parseredirs_stop h hts fun p' h' => ⟨[], ts, rfl, rfl, ht, h'⟩
    | true =>
      cases ts with
      | nil => cases hts
      | cons tok ts =>
        obtain ⟨a, rfl⟩ := exists_arrow hts
        by_cases hw : ∃ w ts', ts = .word w :: ts'
        · obtain ⟨w, ts', rfl⟩ := hw
          simp only [length_cons] at hf
          refine parseredirs_arrow h fun f p1 hw h1 => (ih (.redir ht hw) h1 (by omega)).mono fun t' p' h' => ?_
          obtain ⟨items, ts2, hi, rfl, ht', h'⟩ := h'
          exact ⟨.redir a w :: items, ts2, hi, rfl, ht', h'⟩
        · refine parseredirs_missing h (fun w hhead => hw ?_) nofun
          obtain ⟨ts', rfl⟩ := List.head?_eq_some_iff.mp hhead
          exact ⟨w, ts', rfl⟩

theorem parseargs_sound (hn : argc < MAXARGS) (ht : Reads text t cmd) (h : At text ts p) (hf : ts.length < fuel) :
    Wp Panics (parseargs text fuel t argc) (fun t' p' => ∃ items ts2, argc + (args items).length < MAXARGS ∧
      ts = items.flatMap Item.tokens ++ ts2 ∧ Reads text t' (items.foldl Cmd.add cmd) ∧ At text ts2 p') p := by
  induction fuel generalizing t cmd ts p argc with
  | zero => omega
  | succ fuel ih =>
    cases hts : ts.head?.all (Token.starts [chr '|', chr ')', chr '&', chr ';']) with
    | true => exact parseargs_stop h hts fun p' h' => ⟨[], ts, hn, rfl, ht, h'⟩
    | false =>
      cases ts with
      | nil => cases hts
      | cons tok ts =>
        by_cases hw : ∃ w, tok = .word w
        · obtain ⟨w, rfl⟩ := hw
          rw [length_cons] at hf
          refine parseargs_word h (.inr (by simp)) fun a p1 hn1 hw h1 => ?_
          refine (parseredirs_sound (ht.addArg hw) h1 (by omega)).mono fun t2 p2 h2 => ?_
          obtain ⟨items, ts2, hi, rfl, ht2, h2⟩ := h2
          rw [length_append] at hf
          refine (ih hn1 ht2 h2 (by omega)).mono fun t3 p3 h3 => ?_
          obtain ⟨items', ts3, hn3, rfl, ht3, h3⟩ := h3
          refine ⟨.arg w :: (items ++ items'), ts3, ?_, ?_, ?_, h3⟩
          · have hargs : args (.arg w :: (items ++ items')) = w :: args items' := by
              rw [args, filterMap_cons, filterMap_append, ← args, hi]
              rfl
            rw [hargs, length_cons]
            omega
          · rw [flatMap_cons, flatMap_append, append_assoc, append_assoc]
            rfl
          · rw [foldl_cons, foldl_append]
            exact ht3
        · exact parseargs_panic h hts (fun w hwt => hw ⟨w, hwt⟩) (by simp)

theorem parsebacks_sound {ts0 : List Token} (hd : Derives .back cmd ts0) (ht : Reads text t cmd) (h : At text ts p)
    (hf : ts.length < fuel) :
    Wp Panics (parsebacks text fuel t) (fun t' p' => ∃ cmd' ts1 ts2, ts = ts1 ++ ts2 ∧ Derives .back cmd' (ts0 ++ ts1) ∧
      Reads text t' cmd' ∧ At text ts2 p') p := by
  induction fuel generalizing t cmd ts p ts0 with
  | zero => omega
  | succ fuel ih =>
    cases hts : ts.head?.any (Token.starts [chr '&']) with
    | false =>
      refine parsebacks_stop h hts (fun p' h' => ⟨cmd, [], ts, rfl, ?_, ht, h'⟩) (Nat.succ_pos _)
      rwa [append_nil]
    | true =>
      cases ts with
      | nil => cases hts
      | cons tok ts =>
        obtain rfl : tok = .amp := by cases tok <;> first | rfl | cases hts
        rw [length_cons] at hf
        rw [parsebacks]
        refine wp_peek h (by decide) (fun _ p1 h1 => wp_gettoken h1 fun p2 h2 => ?_) fun hno => by cases hno
        refine (ih (.back hd) (.back ht) h2 (by omega)).mono fun t' p' h' => ?_
        obtain ⟨cmd', ts1, ts2, rfl, hd', ht', h'⟩ := h'
        refine ⟨cmd', .amp :: ts1, ts2, rfl, ?_, ht', h'⟩
        rwa [append_assoc, singleton_append] at hd'

/-- With as many nested calls as there are tokens, a bit more than four times, the
parser panics or reads a command. -/
structure Sound (text : List Byte) (fuel : Nat) : Prop where
  line : ∀ {ts p}, At text ts p → 4 * ts.length + 6 ≤ fuel → Wp Panics (parseline text fuel) (Parse text .line ts) p
  pipe : ∀ {ts p}, At text ts p → 4 * ts.length + 5 ≤ fuel → Wp Panics (parsepipe text fuel) (Parse text .pipe ts) p
  exec : ∀ {ts p}, At text ts p → 4 * ts.length + 4 ≤ fuel → Wp Panics (parseexec text fuel) (Parse text .exec ts) p
  block : ∀ {ts p}, At text ts p → 4 * ts.length + 3 ≤ fuel → Wp Panics (parseblock text fuel) (Parse text .exec ts) p

namespace Sound

theorem succ_exec (ih : Sound text fuel) (h : At text ts p) (hf : 4 * ts.length + 4 ≤ fuel + 1) :
    Wp Panics (parseexec text (fuel + 1)) (Parse text .exec ts) p := by
  rw [parseexec]
  refine wp_peek h (by decide) (fun _ p1 h1 => ih.block h1 (by omega)) fun _ p1 h1 => ?_
  refine (parseredirs_sound (.exec .nil) h1 (by omega)).bind fun t p2 h2 => ?_
  obtain ⟨items, ts2, hi, rfl, ht2, h2⟩ := h2
  rw [length_append] at hf
  refine (parseargs_sound (by decide) ht2 h2 (by omega)).mono fun t' p3 h3 => ?_
  obtain ⟨items', ts3, hn, rfl, ht3, h3⟩ := h3
  have hargs : args (items ++ items') = args items' := by
    rw [args, filterMap_append, ← args, hi]
    rfl
  refine ⟨_, (items ++ items').flatMap Item.tokens, ts3, ?_, .exec _ ?_, ?_, h3⟩
  · rw [flatMap_append, append_assoc]
  · rw [hargs]
    omega
  · rw [foldl_append]
    exact ht3

theorem succ_block (ih : Sound text fuel) (h : At text ts p) (hf : 4 * ts.length + 3 ≤ fuel + 1) :
    Wp Panics (parseblock text (fuel + 1)) (Parse text .exec ts) p := by
  rw [parseblock]
  refine wp_peek_not h (by decide) (fun _ _ _ => nofun) fun hyes p1 h1 => ?_
  cases ts with
  | nil => cases hyes
  | cons tok ts =>
    obtain rfl : tok = .lparen := by cases tok <;> first | rfl | cases hyes
    rw [length_cons] at hf
    refine wp_gettoken h1 fun p2 h2 => (ih.line h2 (by omega)).bind fun t p3 h3 => ?_
    obtain ⟨cmd, ts1, ts2, rfl, hd, ht, h3⟩ := h3
    refine wp_peek_not h3 (by decide) (fun _ _ _ => nofun) fun hyes p4 h4 => ?_
    cases ts2 with
    | nil => cases hyes
    | cons tok ts2 =>
      obtain rfl : tok = .rparen := by cases tok <;> first | rfl | cases hyes
      rw [length_append, length_cons] at hf
      refine wp_gettoken h4 fun p5 h5 => (parseredirs_sound ht h5 (by omega)).mono fun t' p6 h6 => ?_
      obtain ⟨items, ts3, hi, rfl, ht', h6⟩ := h6
      refine ⟨_, _, ts3, ?_, .block hd items hi, ht', h6⟩
      rw [cons_append, append_assoc, cons_append]

theorem succ_pipe (ih : Sound text fuel) (h : At text ts p) (hf : 4 * ts.length + 5 ≤ fuel + 1) :
    Wp Panics (parsepipe text (fuel + 1)) (Parse text .pipe ts) p := by
  rw [parsepipe]
  refine (ih.exec h (by omega)).bind fun t p1 h1 => ?_
  obtain ⟨cmd, ts1, ts2, rfl, hd, ht, h1⟩ := h1
  refine wp_peek h1 (by decide) (fun hyes p2 h2 => ?_) fun _ p2 h2 => ⟨cmd, ts1, ts2, rfl, .one hd, ht, h2⟩
  cases ts2 with
  | nil => cases hyes
  | cons tok ts2 =>
    obtain rfl : tok = .bar := by cases tok <;> first | rfl | cases hyes
    rw [length_append, length_cons] at hf
    refine wp_gettoken h2 fun p3 h3 => (ih.pipe h3 (by omega)).bind fun t' p4 h4 => ?_
    obtain ⟨cmd', ts3, ts4, rfl, hd', ht', h4⟩ := h4
    refine ⟨_, ts1 ++ .bar :: ts3, ts4, ?_, .pipe hd hd', .pipe ht ht', h4⟩
    rw [append_assoc, cons_append]

theorem succ_line (ih : Sound text fuel) (h : At text ts p) (hf : 4 * ts.length + 6 ≤ fuel + 1) :
    Wp Panics (parseline text (fuel + 1)) (Parse text .line ts) p := by
  rw [parseline]
  refine (ih.pipe h (by omega)).bind fun t p1 h1 => ?_
  obtain ⟨cmd, ts1, ts2, rfl, hd, ht, h1⟩ := h1
  rw [length_append] at hf
  refine (parsebacks_sound (.fore hd) ht h1 (by omega)).bind fun t2 p2 h2 => ?_
  obtain ⟨cmd2, ts3, ts4, rfl, hd2, ht2, h2⟩ := h2
  refine wp_peek h2 (by decide) (fun hyes p3 h3 => ?_) fun _ p3 h3 => ?_
  · cases ts4 with
    | nil => cases hyes
    | cons tok ts4 =>
      obtain rfl : tok = .semi := by cases tok <;> first | rfl | cases hyes
      rw [length_append, length_cons] at hf
      refine wp_gettoken h3 fun p4 h4 => (ih.line h4 (by omega)).bind fun t' p5 h5 => ?_
      obtain ⟨cmd', ts5, ts6, rfl, hd', ht', h5⟩ := h5
      refine ⟨_, ts1 ++ ts3 ++ .semi :: ts5, ts6, ?_, .list hd2 hd', .list ht2 ht', h5⟩
      simp
  · exact ⟨cmd2, ts1 ++ ts3, ts4, (append_assoc ..).symm, .last hd2, ht2, h3⟩

end Sound

theorem sound_all (text : List Byte) (fuel : Nat) : Sound text fuel := by
  induction fuel with
  | zero => constructor <;> intro ts p h hf <;> omega
  | succ fuel ih => exact ⟨ih.succ_line, ih.succ_pipe, ih.succ_exec, ih.succ_block⟩

end Xv6.User.Sh
