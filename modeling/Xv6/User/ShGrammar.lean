import Xv6.User.ShTokens

/-!
# The grammar of commands

`Derives lvl cmd ts` says that the tokens `ts` are a way to write the command
`cmd`: a line is a list, separated by `;`, of pipelines with any number of `&`
after each; a pipeline joins commands by `|`; and a command is a sequence of
words and redirections in any order, or a line in parentheses with redirections
after it. `Cmd.tokens` writes a command with parentheses only where the grammar
requires them (`derives_tokens`).
-/

namespace Xv6.User.Sh

open Framework List
open Fs (O_RDONLY O_WRONLY O_CREATE O_TRUNC)

inductive Arrow
  | input
  | output
  | append

namespace Arrow

def token : Arrow → Token
  | input => .lt
  | output => .gt
  | append => .append

def mode : Arrow → BitVec 32
  | input => O_RDONLY
  | output => O_WRONLY ||| O_CREATE ||| O_TRUNC
  | append => O_WRONLY ||| O_CREATE

def fd : Arrow → BitVec 32
  | input => 0
  | output => 1
  | append => 1

end Arrow

/-- A word or a redirection. -/
inductive Item
  | arg (w : List Byte)
  | redir (arrow : Arrow) (file : List Byte)

def Item.tokens : Item → List Token
  | arg w => [.word w]
  | redir arrow file => [arrow.token, .word file]

def Item.arg? : Item → Option (List Byte)
  | arg w => some w
  | redir .. => none

/-- The words among the items. -/
def args (items : List Item) : List (List Byte) := items.filterMap Item.arg?

/-- A command with one more word or redirection. -/
def Cmd.add : Cmd (List Byte) → Item → Cmd (List Byte)
  | cmd, .arg w => cmd.addArg w
  | cmd, .redir arrow file => .redir cmd file arrow.mode arrow.fd

/-- What a piece of a line stands for. -/
inductive Level
  | exec
  | pipe
  | back
  | line
  deriving DecidableEq

inductive Derives : Level → Cmd (List Byte) → List Token → Prop
  | exec (items : List Item) (hn : (args items).length < MAXARGS) :
    Derives .exec (items.foldl Cmd.add (.exec [])) (items.flatMap Item.tokens)
  | block {cmd : Cmd (List Byte)} {ts : List Token} (h : Derives .line cmd ts) (items : List Item)
    (hn : args items = []) : Derives .exec (items.foldl Cmd.add cmd)
      (.lparen :: (ts ++ .rparen :: items.flatMap Item.tokens))
  | one {cmd : Cmd (List Byte)} {ts : List Token} (h : Derives .exec cmd ts) : Derives .pipe cmd ts
  | pipe {left right : Cmd (List Byte)} {ts ts' : List Token} (h : Derives .exec left ts)
    (h' : Derives .pipe right ts') : Derives .pipe (.pipe left right) (ts ++ .bar :: ts')
  | fore {cmd : Cmd (List Byte)} {ts : List Token} (h : Derives .pipe cmd ts) : Derives .back cmd ts
  | back {cmd : Cmd (List Byte)} {ts : List Token} (h : Derives .back cmd ts) : Derives .back (.back cmd) (ts ++ [.amp])
  | last {cmd : Cmd (List Byte)} {ts : List Token} (h : Derives .back cmd ts) : Derives .line cmd ts
  | list {left right : Cmd (List Byte)} {ts ts' : List Token} (h : Derives .back left ts)
    (h' : Derives .line right ts') : Derives .line (.list left right) (ts ++ .semi :: ts')

variable {cmd : Cmd (List Byte)} {ts : List Token} {lvl : Level} {w : List Byte}

/-! ## Printing -/

/-- A command that can be written: its words are words, there are fewer than
`MAXARGS` of them, and its redirections are those of the grammar. -/
def Cmd.Printable : Cmd (List Byte) → Prop
  | exec argv => argv.length < MAXARGS ∧ ∀ w ∈ argv, IsWord w
  | redir cmd file mode fd => cmd.Printable ∧ IsWord file ∧ ∃ a : Arrow, mode = a.mode ∧ fd = a.fd
  | pipe left right => left.Printable ∧ right.Printable
  | list left right => left.Printable ∧ right.Printable
  | back cmd => cmd.Printable

def modeToken (mode : BitVec 32) : Token :=
  if mode = O_RDONLY then .lt else if mode = O_WRONLY ||| O_CREATE ||| O_TRUNC then .gt else .append

def paren (b : Bool) (ts : List Token) : List Token := if b then .lparen :: (ts ++ [.rparen]) else ts

/-- The tokens of a command at a level, in parentheses if it is not one of that
level. -/
def Cmd.tokens : Cmd (List Byte) → Level → List Token
  | exec argv, _ => argv.map .word
  | redir cmd file mode _, _ => cmd.tokens .exec ++ [modeToken mode, .word file]
  | pipe left right, lvl => paren (lvl = .exec) (left.tokens .exec ++ .bar :: right.tokens .pipe)
  | back cmd, lvl => paren (lvl = .exec ∨ lvl = .pipe) (cmd.tokens .back ++ [.amp])
  | list left right, lvl => paren (lvl ≠ .line) (left.tokens .back ++ .semi :: right.tokens .line)

theorem modeToken_mode (a : Arrow) : modeToken a.mode = a.token := by cases a <;> rfl

namespace Derives

/-- A level holds all that the levels below it hold. -/
theorem of_exec (h : Derives .exec cmd ts) : ∀ lvl, Derives lvl cmd ts
  | .exec => h
  | .pipe => .one h
  | .back => .fore (.one h)
  | .line => .last (.fore (.one h))

theorem of_pipe (h : Derives .pipe cmd ts) (hlvl : lvl ≠ .exec) : Derives lvl cmd ts := by
  cases lvl with
  | exec => exact absurd rfl hlvl
  | pipe => exact h
  | back => exact .fore h
  | line => exact .last (.fore h)

theorem paren (h : Derives .line cmd ts) : Derives .exec cmd (.lparen :: (ts ++ [.rparen])) :=
  .block h [] rfl

theorem redir (h : Derives .exec cmd ts) (a : Arrow) (file : List Byte) :
    Derives .exec (.redir cmd file a.mode a.fd) (ts ++ [a.token, .word file]) := by
  have hargs (items : List Item) : args (items ++ [.redir a file]) = args items := by
    rw [args, filterMap_append]
    exact append_nil _
  cases h with
  | exec items hn =>
    have := Derives.exec (items ++ [.redir a file]) (by rwa [hargs])
    rwa [foldl_append, flatMap_append] at this
  | block h items hn =>
    have := Derives.block h (items ++ [.redir a file]) (by rwa [hargs])
    rw [foldl_append, flatMap_append] at this
    simp only [cons_append, append_assoc]
    exact this

theorem words {argv : List (List Byte)} (h : argv.length < MAXARGS) :
    Derives .exec (.exec argv) (argv.map .word) := by
  have hfold (ws : List (List Byte)) : (argv.map Item.arg).foldl Cmd.add (.exec ws) = .exec (ws ++ argv) := by
    clear h
    induction argv generalizing ws with
    | nil => rw [append_nil]; rfl
    | cons w argv ih =>
      rw [map_cons, foldl_cons]
      refine (ih (ws ++ [w])).trans ?_
      rw [append_assoc, singleton_append]
  have hargs : args (argv.map .arg) = argv := by
    rw [args, filterMap_map]
    exact filterMap_some
  have := Derives.exec (argv.map .arg) (by rwa [hargs])
  rw [hfold, nil_append, flatMap_map] at this
  rw [map_eq_flatMap]
  exact this

end Derives

/-- Every command can be written. -/
theorem derives_tokens (h : cmd.Printable) (lvl : Level) : Derives lvl cmd (cmd.tokens lvl) := by
  induction cmd generalizing lvl with
  | exec argv => exact (Derives.words h.1).of_exec lvl
  | redir cmd file mode fd ih =>
    obtain ⟨hc, -, a, rfl, rfl⟩ := h
    have := (ih hc .exec).redir a file
    rw [← modeToken_mode] at this
    exact this.of_exec lvl
  | pipe left right ihl ihr =>
    have hd := Derives.pipe (ihl h.1 .exec) (ihr h.2 .pipe)
    rw [Cmd.tokens, Sh.paren]
    split
    · exact (Derives.last (.fore hd)).paren.of_exec lvl
    · rename_i hlvl
      exact hd.of_pipe (by simpa using hlvl)
  | back cmd ih =>
    have hd := Derives.back (ih h .back)
    rw [Cmd.tokens, Sh.paren]
    split
    · exact (Derives.last hd).paren.of_exec lvl
    · rename_i hlvl
      cases lvl with
      | exec | pipe => exact absurd rfl hlvl
      | back => exact hd
      | line => exact .last hd
  | list left right ihl ihr =>
    have hd := Derives.list (ihl h.1 .back) (ihr h.2 .line)
    rw [Cmd.tokens, Sh.paren]
    split
    · exact hd.paren.of_exec lvl
    · rename_i hlvl
      obtain rfl : lvl = .line := by simpa using hlvl
      exact hd

theorem word_mem_paren {b : Bool} : Token.word w ∈ paren b ts ↔ .word w ∈ ts := by
  rw [paren]
  split
  · simp
  · rfl

/-- The words that are written are those of the command. -/
theorem isWord_of_mem_tokens (h : cmd.Printable) (hw : .word w ∈ cmd.tokens lvl) : IsWord w := by
  induction cmd generalizing lvl with
  | exec argv =>
    obtain ⟨v, hv, hvw⟩ := mem_map.mp hw
    cases hvw
    exact h.2 _ hv
  | redir cmd file mode fd ih =>
    obtain ⟨hc, hf, a, rfl, rfl⟩ := h
    rw [Cmd.tokens, modeToken_mode] at hw
    rcases mem_append.mp hw with hw | hw
    · exact ih hc hw
    · cases a <;> simp only [Arrow.token, mem_cons, reduceCtorEq, Token.word.injEq, not_mem_nil, or_false,
        false_or] at hw <;> exact hw ▸ hf
  | pipe left right ihl ihr | list left right ihl ihr =>
    rw [Cmd.tokens, word_mem_paren, mem_append, mem_cons] at hw
    rcases hw with hw | hw | hw
    · exact ihl h.1 hw
    · cases hw
    · exact ihr h.2 hw
  | back cmd ih =>
    rw [Cmd.tokens, word_mem_paren, mem_append, mem_singleton] at hw
    rcases hw with hw | hw
    · exact ih h hw
    · cases hw

/-- The tokens with a blank after each. -/
def spell (ts : List Token) : List Byte := ts.flatMap fun tok => tok.bytes ++ [chr ' ']

theorem spaced_spell (h : ∀ w, .word w ∈ ts → IsWord w) : Spaced ts (spell ts) := by
  induction ts with
  | nil => exact .nil nofun
  | cons tok ts ih =>
    have hrest := ih fun w hw => h w (mem_cons_of_mem _ hw)
    have hblank : Spaced ts (chr ' ' :: spell ts) := by
      rw [← Spaced.dropWhile_iff, dropWhile_cons_of_pos (by decide), Spaced.dropWhile_iff]
      exact hrest
    have hspell : spell (tok :: ts) = [] ++ (tok.bytes ++ chr ' ' :: spell ts) := by
      rw [spell, flatMap_cons, append_assoc]
      rfl
    rw [hspell]
    refine .cons nofun ?_ hblank
    cases tok with
    | word w => exact ⟨h w (mem_cons_self ..), fun c hc => by cases hc; decide⟩
    | gt => exact fun c hc => by cases hc; decide
    | lt | append | bar | amp | semi | lparen | rparen => trivial

/-! ## What can be written can be printed -/

/-- The number of words of the `execcmd` that the redirections are around. -/
def Cmd.argc : Cmd (List Byte) → Nat
  | exec argv => argv.length
  | redir cmd .. => cmd.argc
  | _ => 0

theorem Cmd.Printable.argc_lt (h : cmd.Printable) : cmd.argc < MAXARGS := by
  induction cmd with
  | exec argv => exact h.1
  | redir cmd file mode fd ih => exact ih h.1
  | pipe | list | back => exact Nat.succ_pos _

theorem Cmd.argc_addArg_le (cmd : Cmd (List Byte)) (w : List Byte) : (cmd.addArg w).argc ≤ cmd.argc + 1 := by
  induction cmd with
  | exec argv => exact (length_append ..).le
  | redir cmd file mode fd ih => exact ih
  | pipe | list | back => exact Nat.zero_le _

theorem Cmd.Printable.addArg (h : cmd.Printable) (hn : cmd.argc + 1 < MAXARGS) (hw : IsWord w) :
    (cmd.addArg w).Printable := by
  induction cmd with
  | exec argv =>
    refine ⟨(length_append ..).trans_lt hn, fun v hv => ?_⟩
    rcases mem_append.mp hv with hv | hv
    · exact h.2 v hv
    · rwa [mem_singleton.mp hv]
  | redir cmd file mode fd ih => exact ⟨ih h.1 hn, h.2⟩
  | pipe | list | back => exact h

theorem Cmd.Printable.foldl (h : cmd.Printable) {items : List Item} (hn : cmd.argc + (args items).length < MAXARGS)
    (hw : ∀ w, .word w ∈ items.flatMap Item.tokens → IsWord w) : (items.foldl Cmd.add cmd).Printable := by
  induction items generalizing cmd with
  | nil => exact h
  | cons item items ih =>
    have hrest (w : List Byte) (hmem : .word w ∈ items.flatMap Item.tokens) : IsWord w := by
      refine hw w ?_
      rw [flatMap_cons]
      exact mem_append_right _ hmem
    cases item with
    | arg w =>
      have hn' : cmd.argc + (args items).length + 1 < MAXARGS := hn
      have hle := cmd.argc_addArg_le w
      refine ih (h.addArg (by omega) (hw w (mem_cons_self ..))) ?_ hrest
      simp only [Cmd.add]
      omega
    | redir a file =>
      refine ih ⟨h, hw file ?_, a, rfl, rfl⟩ hn hrest
      rw [flatMap_cons]
      exact mem_append_left _ (mem_cons_of_mem _ (mem_cons_self ..))

theorem Derives.printable (h : Derives lvl cmd ts) (hw : ∀ w, .word w ∈ ts → IsWord w) : cmd.Printable := by
  induction h with
  | exec items hn =>
    have hnil : (Cmd.exec []).Printable := ⟨by decide, nofun⟩
    exact hnil.foldl ((Nat.zero_add _).trans_lt hn) hw
  | block _ items hn ih =>
    have hc := ih fun w hmem => hw w (by simp [hmem])
    refine hc.foldl ?_ fun w hmem => hw w (mem_cons_of_mem _ (mem_append_right _ (mem_cons_of_mem _ hmem)))
    rw [hn]
    exact hc.argc_lt
  | one _ ih | fore _ ih | last _ ih => exact ih hw
  | back _ ih => exact ih fun w hmem => hw w (mem_append_left _ hmem)
  | pipe _ _ ih ih' | list _ _ ih ih' =>
    exact ⟨ih fun w hmem => hw w (mem_append_left _ hmem),
      ih' fun w hmem => hw w (mem_append_right _ (mem_cons_of_mem _ hmem))⟩

end Xv6.User.Sh
