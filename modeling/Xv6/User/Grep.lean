import Xv6.Framework.Bytes

/-!
# grep

`match` and `grep` of `user/grep.c`. A C string is the list of its bytes, and
its end is the NUL. A pattern is a sequence of items, each of which denotes a
language; `match` finds out whether a substring of the text is in the language of
the sequence (`reMatch_iff`). `grep` collects the lines in a buffer of 1024
bytes, from reads that may return as little as one byte. If each line ends in a
newline and fits into the buffer, what it writes are the lines that match
(`grep_lines`).
-/

namespace Xv6.User.Grep

open Framework List Computability

abbrev dot : Byte := 0x2e
abbrev star : Byte := 0x2a
abbrev caret : Byte := 0x5e
abbrev dollar : Byte := 0x24
abbrev newline : Byte := 0x0a

/-! ## The matcher -/

/-- `matchstar(c, re, text)`, with `matchhere(re, _)` for `here`. -/
def matchstar (c : Byte) (here : List Byte → Bool) : List Byte → Bool
  | [] => here []
  | t :: text => here (t :: text) || (t == c || c == dot) && matchstar c here text

/-- The last case of `matchhere`: one byte of the text, which `c` stands for. -/
def matchone (c : Byte) (here : List Byte → Bool) : List Byte → Bool
  | [] => false
  | t :: text => (c == dot || c == t) && here text

def matchhere : List Byte → List Byte → Bool
  | [], _ => true
  | c :: d :: re, text =>
    if d = star then matchstar c (matchhere re) text else matchone c (matchhere (d :: re)) text
  | [c], text => if c = dollar then text.isEmpty else matchone c (matchhere []) text

/-- The loop of `match` over the text. -/
def matchFrom (re : List Byte) : List Byte → Bool
  | [] => matchhere re []
  | t :: text => matchhere re (t :: text) || matchFrom re text

/-- `match` -/
def reMatch (re text : List Byte) : Bool :=
  if re.head? = some caret then matchhere re.tail text else matchFrom re text

/-! ## The language of a pattern -/

/-- The bytes that `c` stands for, as words. -/
def letter (c : Byte) : Language Byte := {w | ∃ t, w = [t] ∧ (c = dot ∨ c = t)}

/-- `c`, or `c*` -/
structure Item where
  c : Byte
  starred : Bool

def Item.lang (i : Item) : Language Byte := if i.starred then (letter i.c)∗ else letter i.c

/-- The items of a pattern, and whether a `$` ends it. -/
def items : List Byte → List Item × Bool
  | [] => ([], false)
  | c :: d :: re =>
    if d = star then (⟨c, true⟩ :: (items re).1, (items re).2)
    else (⟨c, false⟩ :: (items (d :: re)).1, (items (d :: re)).2)
  | [c] => if c = dollar then ([], true) else ([⟨c, false⟩], false)

/-- The pattern without a `^` at its start. -/
def body (re : List Byte) : List Byte := if re.head? = some caret then re.tail else re

/-- The text begins with a word of the language of the items. -/
def Begins (is : List Item × Bool) (text : List Byte) : Prop :=
  ∃ w rest, text = w ++ rest ∧ w ∈ (is.1.map Item.lang).prod ∧ (is.2 = true → rest = [])

variable {is : List Item} {b : Bool} {text : List Byte} {c : Byte}

theorem begins_cons {i : Item} :
    Begins (i :: is, b) text ↔ ∃ u v, text = u ++ v ∧ u ∈ i.lang ∧ Begins (is, b) v := by
  simp only [Begins, map_cons, prod_cons, Language.mem_mul]
  constructor
  · rintro ⟨_, rest, rfl, ⟨u, hu, v, hv, rfl⟩, hb⟩
    exact ⟨u, v ++ rest, append_assoc .., hu, v, rest, rfl, hv, hb⟩
  · rintro ⟨u, _, rfl, hu, v, rest, rfl, hv, hb⟩
    exact ⟨u ++ v, rest, (append_assoc ..).symm, ⟨u, hu, v, hv, rfl⟩, hb⟩

/-- One byte, and then the other items. -/
theorem begins_letter :
    Begins (⟨c, false⟩ :: is, b) text ↔ ∃ t rest, text = t :: rest ∧ (c = dot ∨ c = t) ∧ Begins (is, b) rest := by
  rw [begins_cons]
  constructor
  · rintro ⟨_, v, rfl, ⟨t, rfl, ht⟩, hb⟩
    exact ⟨t, v, rfl, ht, hb⟩
  · rintro ⟨t, v, rfl, ht, hb⟩
    exact ⟨[t], v, rfl, ⟨t, rfl, ht⟩, hb⟩

theorem mem_kstar_letter {u : List Byte} : u ∈ (letter c)∗ ↔ ∀ t ∈ u, c = dot ∨ c = t := by
  constructor
  · rintro ⟨L, rfl, hL⟩ t ht
    obtain ⟨w, hw, htw⟩ := mem_flatten.mp ht
    obtain ⟨t', rfl, h⟩ := hL w hw
    rwa [mem_singleton.mp htw]
  · intro h
    refine ⟨u.map fun t => [t], (flatMap_singleton' u).symm, fun w hw => ?_⟩
    obtain ⟨t, ht, rfl⟩ := mem_map.mp hw
    exact ⟨t, rfl, h t ht⟩

theorem matchstar_iff (c : Byte) (here : List Byte → Bool) (text : List Byte) :
    matchstar c here text = true ↔ ∃ u v, text = u ++ v ∧ u ∈ (letter c)∗ ∧ here v = true := by
  simp only [mem_kstar_letter]
  induction text with
  | nil =>
    constructor
    · exact fun h => ⟨[], [], rfl, nofun, h⟩
    · rintro ⟨u, v, huv, -, h⟩
      rwa [(append_eq_nil_iff.mp huv.symm).2] at h
  | cons t text ih =>
    simp only [matchstar, Bool.or_eq_true, Bool.and_eq_true, beq_iff_eq, ih]
    constructor
    · rintro (h | ⟨ht, u, v, rfl, hu, h⟩)
      · exact ⟨[], t :: text, rfl, nofun, h⟩
      · refine ⟨t :: u, v, rfl, fun x hx => ?_, h⟩
        rcases mem_cons.mp hx with rfl | hx
        · exact ht.symm.imp_right Eq.symm
        · exact hu x hx
    · rintro ⟨u, v, huv, hu, h⟩
      cases u with
      | nil => exact .inl (huv ▸ h)
      | cons x u =>
        obtain ⟨rfl, rfl⟩ := cons.inj huv
        exact .inr ⟨(hu t (mem_cons_self ..)).symm.imp_left Eq.symm, u, v, rfl,
          fun x hx => hu x (mem_cons_of_mem _ hx), h⟩

theorem matchone_iff {here : List Byte → Bool}
    (h : ∀ v, here v = true ↔ Begins (is, b) v) : matchone c here text = true ↔ Begins (⟨c, false⟩ :: is, b) text := by
  rw [begins_letter]
  cases text <;> simp [matchone, h]

theorem matchhere_iff (re text : List Byte) : matchhere re text = true ↔ Begins (items re) text := by
  induction re using items.induct generalizing text with
  | case1 => exact ⟨fun _ => ⟨[], text, rfl, rfl, nofun⟩, fun _ => by rw [matchhere]⟩
  | case2 c re ih =>
    rw [matchhere, if_pos rfl, matchstar_iff, items, if_pos rfl, begins_cons]
    simp only [ih, Item.lang, if_true]
  | case3 c d re hd ih =>
    rw [matchhere, if_neg hd, items, if_neg hd]
    exact matchone_iff ih
  | case4 =>
    rw [matchhere, if_pos rfl, items, if_pos rfl, Begins]
    simp
  | case5 c hc =>
    rw [matchhere, if_neg hc, items, if_neg hc]
    exact matchone_iff fun v => ⟨fun _ => ⟨[], v, rfl, rfl, nofun⟩, fun _ => by rw [matchhere]⟩

theorem matchFrom_iff (re text : List Byte) :
    matchFrom re text = true ↔ ∃ a v, text = a ++ v ∧ matchhere re v = true := by
  induction text with
  | nil =>
    constructor
    · exact fun h => ⟨[], [], rfl, h⟩
    · rintro ⟨a, v, hav, h⟩
      rwa [(append_eq_nil_iff.mp hav.symm).2] at h
  | cons t text ih =>
    simp only [matchFrom, Bool.or_eq_true, ih]
    constructor
    · rintro (h | ⟨a, v, rfl, h⟩)
      · exact ⟨[], t :: text, rfl, h⟩
      · exact ⟨t :: a, v, rfl, h⟩
    · rintro ⟨a, v, hav, h⟩
      cases a with
      | nil => exact .inl (hav ▸ h)
      | cons x a => exact .inr ⟨a, v, (cons.inj hav).2, h⟩

/-- `match` succeeds exactly if a substring of the text, at its start if the
pattern begins with `^` and at its end if it ends with `$`, is in the language
of the items. -/
theorem reMatch_iff (re text : List Byte) :
    reMatch re text = true ↔ ∃ a w b, text = a ++ w ++ b ∧ w ∈ ((items (body re)).1.map Item.lang).prod ∧
      (re.head? = some caret → a = []) ∧ ((items (body re)).2 = true → b = []) := by
  rw [reMatch, body]
  split
  · rename_i h
    rw [matchhere_iff]
    constructor
    · rintro ⟨w, b, rfl, hw, hb⟩
      exact ⟨[], w, b, rfl, hw, fun _ => rfl, hb⟩
    · rintro ⟨a, w, b, rfl, hw, ha, hb⟩
      exact ⟨w, b, by rw [ha h, nil_append], hw, hb⟩
  · rename_i h
    simp only [matchFrom_iff, matchhere_iff]
    constructor
    · rintro ⟨a, _, rfl, w, b, rfl, hw, hb⟩
      exact ⟨a, w, b, (append_assoc ..).symm, hw, fun hc => absurd hc h, hb⟩
    · rintro ⟨a, w, b, rfl, hw, -, hb⟩
      exact ⟨a, w ++ b, append_assoc .., w, b, rfl, hw, hb⟩

/-! ## The lines -/

/-- `strchr`: what is before and after the first `c`. -/
def strchr (c : Byte) : List Byte → Option (List Byte × List Byte)
  | [] => none
  | x :: s => if x = 0 then none else if x = c then some ([], s) else (strchr c s).map fun r => (x :: r.1, r.2)

/-- The inner loop of `grep`: what it writes of the lines from `p` on, and where it
ends. -/
def lineLoop (pattern : List Byte) : Nat → List Byte → List Byte × List Byte
  | 0, p => ([], p)
  | fuel + 1, p =>
    match strchr newline p with
    | none => ([], p)
    | some (line, p) =>
      let r := lineLoop pattern fuel p
      ((if reMatch pattern line then line ++ [newline] else []) ++ r.1, r.2)

/-- `read` of at most `n` bytes, of which `avail` are left, returns as many as the
environment likes, but at least one if it can. -/
def readLen (n avail want : Nat) : Nat := min (min n avail) (max want 1)

/-- The outer loop of `grep`, with the bytes in the buffer and those that are left
to read: what it writes. In the iteration `fuel`, `read` returns `want fuel` bytes
if it can. -/
def grepLoop (pattern : List Byte) (want : Nat → Nat) : Nat → List Byte → List Byte → Option (List Byte)
  | 0, _, _ => none
  | fuel + 1, buf, input =>
    let n := readLen (1024 - buf.length - 1) input.length (want fuel)
    if n = 0 then some []
    else
      let r := lineLoop pattern (buf.length + n) (buf ++ input.take n)
      (grepLoop pattern want fuel r.2 (input.drop n)).map (r.1 ++ ·)

def grep (pattern : List Byte) (want : Nat → Nat) (input : List Byte) : Option (List Byte) :=
  grepLoop pattern want (input.length + 1) [] input

/-- The lines of the input, each with its newline if it has one. -/
def lines : List Byte → List (List Byte)
  | [] => []
  | c :: s =>
    if c = newline then [c] :: lines s
    else match lines s with
      | [] => [[c]]
      | l :: ls => (c :: l) :: ls

/-- The lines that match. -/
def matching (pattern input : List Byte) : List Byte :=
  ((lines input).filter fun l => reMatch pattern (l.takeWhile (· ≠ newline))).flatten

variable {pattern input line rest p buf : List Byte} {want : Nat → Nat}

theorem lines_append (h : newline ∉ line) (rest : List Byte) :
    lines (line ++ newline :: rest) = (line ++ [newline]) :: lines rest := by
  induction line with
  | nil => rw [nil_append, lines, if_pos rfl, nil_append]
  | cons c line ih =>
    obtain ⟨hc, hl⟩ := not_or.mp (mt mem_cons.mpr h)
    rw [cons_append, lines, if_neg (Ne.symm hc), ih hl]
    rfl

theorem lines_last (h : newline ∉ line) (hne : line ≠ []) : lines line = [line] := by
  induction line with
  | nil => exact absurd rfl hne
  | cons c line ih =>
    obtain ⟨hc, hl⟩ := not_or.mp (mt mem_cons.mpr h)
    rw [lines, if_neg (Ne.symm hc)]
    cases line with
    | nil => rfl
    | cons d line => rw [ih hl (cons_ne_nil _ _)]

theorem matching_append (h : newline ∉ line) (rest : List Byte) :
    matching pattern (line ++ newline :: rest) =
      (if reMatch pattern line then line ++ [newline] else []) ++ matching pattern rest := by
  have hline : (line ++ [newline]).takeWhile (· ≠ newline) = line := by
    rw [takeWhile_append_of_pos fun x hx => decide_eq_true (ne_of_mem_of_not_mem hx h)]
    simp
  rw [matching, lines_append h, filter_cons, hline]
  split <;> simp [matching]

theorem strchr_spec (h0 : 0 ∉ p) :
    strchr newline p = none ∧ newline ∉ p ∨
      ∃ line rest, strchr newline p = some (line, rest) ∧ p = line ++ newline :: rest ∧ newline ∉ line := by
  induction p with
  | nil => exact .inl ⟨rfl, nofun⟩
  | cons x p ih =>
    obtain ⟨hx, hp⟩ := not_or.mp (mt mem_cons.mpr h0)
    rw [strchr, if_neg (Ne.symm hx)]
    by_cases hn : x = newline
    · rw [if_pos hn]
      exact .inr ⟨[], p, rfl, by rw [hn]; rfl, nofun⟩
    rw [if_neg hn]
    rcases ih hp with ⟨hs, hnl⟩ | ⟨line, rest, hs, rfl, hnl⟩
    · rw [hs]
      exact .inl ⟨rfl, mt mem_cons.mp (not_or.mpr ⟨Ne.symm hn, hnl⟩)⟩
    · rw [hs]
      exact .inr ⟨x :: line, rest, rfl, rfl, mt mem_cons.mp (not_or.mpr ⟨Ne.symm hn, hnl⟩)⟩

/-- Each line fits into the buffer with its newline. -/
def Fit (input : List Byte) : Prop := ∀ l ∈ lines input, l.length < 1024 ∧ l.getLast? = some newline

theorem Fit.tail (h : Fit (line ++ newline :: rest)) (hl : newline ∉ line) : Fit rest := fun l hm =>
  h l (by rw [lines_append hl]; exact mem_cons_of_mem _ hm)

/-- The lines of the buffer are written if they match, and a part of a line is left. -/
theorem lineLoop_spec (pattern : List Byte) (fuel : Nat) {tail : List Byte} (h0 : 0 ∉ p) (hf : p.length ≤ fuel)
    (hfit : Fit (p ++ tail)) :
    ∃ out rest, lineLoop pattern fuel p = (out, rest) ∧ newline ∉ rest ∧ 0 ∉ rest ∧ Fit (rest ++ tail) ∧
      matching pattern (p ++ tail) = out ++ matching pattern (rest ++ tail) := by
  induction fuel generalizing p with
  | zero =>
    obtain rfl := length_eq_zero_iff.mp (Nat.le_zero.mp hf)
    exact ⟨[], [], rfl, nofun, nofun, hfit, rfl⟩
  | succ fuel ih =>
    rcases strchr_spec h0 with ⟨hs, hnl⟩ | ⟨line, q, hs, rfl, hnl⟩
    · exact ⟨[], p, by rw [lineLoop, hs], hnl, h0, hfit, rfl⟩
    · rw [append_assoc, cons_append] at hfit ⊢
      rw [length_append, length_cons] at hf
      obtain ⟨out, rest, hr, h1, h2, h3, h4⟩ := ih (fun h => h0 (mem_append_right _ (mem_cons_of_mem _ h)))
        (by omega) (hfit.tail hnl)
      refine ⟨_, rest, by rw [lineLoop, hs]; exact congrArg₂ Prod.mk rfl (congrArg Prod.snd hr), h1, h2, h3, ?_⟩
      rw [matching_append hnl, h4, hr, append_assoc]

/-- There is room for the rest of a line. -/
theorem Fit.room (h : Fit (buf ++ input)) (hb : newline ∉ buf) (hne : buf ++ input ≠ []) :
    input ≠ [] ∧ buf.length < 1023 := by
  have hnl : newline ∈ buf ++ input := by
    by_contra hnl
    exact hnl (mem_of_getLast? (h _ (by rw [lines_last hnl hne]; exact mem_singleton_self _)).2)
  have hin := (mem_append.mp hnl).resolve_left hb
  obtain ⟨l, r, rfl, hl⟩ := eq_append_cons_of_mem hin
  rw [← append_assoc] at h
  have := (h _ (by rw [lines_append fun hm => (mem_append.mp hm).elim hb hl]; exact mem_cons_self ..)).1
  simp only [length_append, length_singleton] at this
  exact ⟨by simp, by omega⟩

theorem grepLoop_spec {fuel : Nat} (hb : newline ∉ buf) (h0 : 0 ∉ buf ++ input)
    (hfit : Fit (buf ++ input)) (hf : input.length < fuel) :
    grepLoop pattern want fuel buf input = some (matching pattern (buf ++ input)) := by
  induction fuel generalizing buf input with
  | zero => omega
  | succ fuel ih =>
    simp only [grepLoop]
    by_cases hne : buf ++ input = []
    · obtain ⟨rfl, rfl⟩ := append_eq_nil_iff.mp hne
      rfl
    obtain ⟨hin, hroom⟩ := hfit.room hb hne
    have hpos := length_pos_iff.mpr hin
    generalize hn : readLen (1024 - buf.length - 1) input.length (want fuel) = n
    have hn0 : n ≠ 0 := by rw [← hn, readLen]; omega
    rw [if_neg hn0]
    rw [← take_append_drop n input, ← append_assoc] at h0 hfit
    obtain ⟨out, rest, hr, h1, h2, h3, h4⟩ := lineLoop_spec pattern (buf.length + n)
      (fun h => h0 (mem_append_left _ h)) (by rw [length_append]; have := length_take_le n input; omega) hfit
    have hdrop : (input.drop n).length < fuel := by rw [length_drop]; omega
    rw [hr, ih h1 (fun h => ?_) h3 hdrop, Option.map_some, ← h4, append_assoc, take_append_drop]
    exact (mem_append.mp h).elim h2 fun h => h0 (mem_append_right _ h)

end Xv6.User.Grep
