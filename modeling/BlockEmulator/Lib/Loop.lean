import Mathlib.Data.Nat.Notation

set_option autoImplicit false

/-! # Loops that may not end

The body of a loop goes on with another state or leaves the loop with a result. `whileLoop` runs it for a
number of turns, and is `none` if the loop has not been left by then: a loop ends if it does with enough
turns, and does not if it is `none` with any number of them.

There is one rule for each: an invariant and a measure that every turn makes smaller, and an invariant
under which every turn goes on. -/

section Loop

variable {σ ρ : Type} (body : σ → σ ⊕ ρ)

/-- At most this many turns of the loop. -/
def whileLoop : ℕ → σ → Option ρ
  | 0, _ => none
  | fuel + 1, s =>
    match body s with
    | .inl s' => whileLoop fuel s'
    | .inr r => some r

variable {body} {I : σ → Prop} {s : σ} {fuel : ℕ}

/-- **A loop that ends.** With more turns than the measure says it is left, with a result as the
    invariant has it. -/
theorem whileLoop_of_measure (measure : σ → ℕ) {Q : ρ → Prop}
    (hturn : ∀ s s', I s → body s = .inl s' → I s' ∧ measure s' < measure s)
    (hleave : ∀ s r, I s → body s = .inr r → Q r) (h : I s) (hfuel : measure s < fuel) :
    ∃ r, whileLoop body fuel s = some r ∧ Q r := by
  induction fuel generalizing s with
  | zero => exact absurd hfuel (Nat.not_lt_zero _)
  | succ fuel ih =>
    rw [whileLoop]
    cases hbody : body s with
    | inl s' =>
      obtain ⟨h', hlt⟩ := hturn s s' h hbody
      exact ih h' (Nat.lt_of_lt_of_le hlt (Nat.le_of_lt_succ hfuel))
    | inr r => exact ⟨r, rfl, hleave s r h hbody⟩

/-- **A loop that does not end.** -/
theorem whileLoop_eq_none (hturn : ∀ s, I s → ∃ s', body s = .inl s' ∧ I s') (h : I s) :
    whileLoop body fuel s = none := by
  induction fuel generalizing s with
  | zero => rfl
  | succ fuel ih =>
    obtain ⟨s', hbody, h'⟩ := hturn s h
    rw [whileLoop, hbody]
    exact ih h'

end Loop
