import Mathlib

/-!
# Stateful code that may fail

Code that changes a state `σ` and may stop with an error is a value of
`StateT σ (Except ε)`. `Wp E m Q s` says that `m`, run from `s`, either
returns in a state with `Q` or stops with an error that `E` allows. The
lemmas of one construct each (`wp_bind`, `wp_get`, …) are `simp` lemmas, so
that a straight-line piece of code unfolds to what it does; `Wp.bind` uses
what is known of the first half of a sequence, `wp_forM` is the rule for a
loop over a list, and `wp_zoom` that for code that works on a part of the
state.
-/

namespace Xv6.Framework

variable {σ τ ε α β : Type} {E : ε → Prop} {s : σ}

/-- `m` run from `s` returns in a state with `Q`, or stops with an error of `E`. -/
def Wp (E : ε → Prop) (m : StateT σ (Except ε) α) (Q : α → σ → Prop) (s : σ) : Prop :=
  match m s with
  | .ok (a, s') => Q a s'
  | .error e => E e

section Rules

variable {m : StateT σ (Except ε) α} {f : α → StateT σ (Except ε) β} {Q Q' : α → σ → Prop}
  {R : β → σ → Prop} {s s' : σ} {a : α} {e : ε}

theorem Wp.ok (h : Wp E m Q s) (hm : m s = .ok (a, s')) : Q a s' := by
  simpa only [Wp, hm] using h

theorem bind_of_ok (h : m s = .ok (a, s')) : (m >>= f) s = f a s' := by
  simp only [bind, StateT.bind, Except.bind, h]

theorem Wp.error (h : Wp E m Q s) (hm : m s = .error e) : E e := by
  simpa only [Wp, hm] using h

/-- Code that cannot stop returns. -/
theorem Wp.exists_ok (h : Wp (fun _ => False) m Q s) : ∃ a s', m s = .ok (a, s') ∧ Q a s' := by
  simp only [Wp] at h
  split at h
  · rename_i hm
    exact ⟨_, _, hm, h⟩
  · exact h.elim

/-- Of code that may stop as it likes nothing else is asked. -/
theorem wp_true (m : StateT σ (Except ε) α) (s : σ) : Wp (fun _ => True) m (fun _ _ => True) s := by
  simp only [Wp]
  split <;> trivial

theorem Wp.mono (h : Wp E m Q s) (hQ : ∀ a s', Q a s' → Q' a s') : Wp E m Q' s := by
  simp only [Wp] at h ⊢
  split at h
  · exact hQ _ _ h
  · exact h

theorem Wp.and {E' : ε → Prop} (h : Wp E m Q s) (h' : Wp E' m Q' s) : Wp E m (fun a s' => Q a s' ∧ Q' a s') s := by
  simp only [Wp] at h h' ⊢
  split at h
  · rename_i hm
    rw [hm] at h'
    exact ⟨h, h'⟩
  · exact h

@[simp] theorem wp_pure (a : α) : Wp E (pure a) Q s ↔ Q a s := Iff.rfl

@[simp] theorem wp_bind : Wp E (m >>= f) R s ↔ Wp E m (fun a s' => Wp E (f a) R s') s := by
  simp only [Wp, bind, StateT.bind, Except.bind]
  cases m s <;> rfl

theorem Wp.bind (h : Wp E m Q s) (hf : ∀ a s', Q a s' → Wp E (f a) R s') : Wp E (m >>= f) R s :=
  wp_bind.mpr (h.mono hf)

@[simp] theorem wp_get {Q : σ → σ → Prop} : Wp E get Q s ↔ Q s s := Iff.rfl

@[simp] theorem wp_set {Q : PUnit → σ → Prop} : Wp E (set s') Q s ↔ Q ⟨⟩ s' := Iff.rfl

@[simp] theorem wp_modify {g : σ → σ} {Q : PUnit → σ → Prop} : Wp E (modify g) Q s ↔ Q ⟨⟩ (g s) := Iff.rfl

@[simp] theorem wp_throw : Wp E (throw e) Q s ↔ E e := Iff.rfl

/-- A branch, each side with what the test says. -/
theorem wp_ite {c : Prop} [Decidable c] {m' : StateT σ (Except ε) α} (h : c → Wp E m Q s)
    (h' : ¬ c → Wp E m' Q s) : Wp E (if c then m else m') Q s := by
  split
  · exact h ‹_›
  · exact h' ‹_›

end Rules

/-- A loop over a list. `I l` is what holds before the elements `l`, which are
the ones still to come. -/
theorem wp_forM {f : α → StateT σ (Except ε) PUnit} (I : List α → σ → Prop)
    (step : ∀ {a l s}, I (a :: l) s → Wp E (f a) (fun _ => I l) s) {l : List α} (h : I l s) :
    Wp E (l.forM f) (fun _ => I []) s := by
  induction l generalizing s with
  | nil => exact h
  | cons a l ih => exact (step h).bind fun _ _ h' => ih h'

/-! ## Parts of a state -/

/-- Code for the part `get s` of a state `s`. -/
def zoom (get : σ → τ) (set : τ → σ → σ) (m : StateT τ (Except ε) α) : StateT σ (Except ε) α := fun s =>
  match m (get s) with
  | .ok (a, t) => .ok (a, set t s)
  | .error e => .error e

@[simp] theorem wp_zoom {get : σ → τ} {set : τ → σ → σ} {m : StateT τ (Except ε) α} {Q : α → σ → Prop} :
    Wp E (zoom get set m) Q s ↔ Wp E m (fun a t => Q a (set t s)) (get s) := by
  simp only [Wp, zoom]
  cases m (get s) <;> rfl

end Xv6.Framework
