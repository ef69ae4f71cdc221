import Mathlib.Data.Option.Basic
import Mathlib.Data.List.Basic

set_option autoImplicit false

/-! # Runs of a partial transition function

A system is a function `step : σ → α → Option σ`: an action is refused, or leads to one state.
`ReachesUnder step P s t` says that some run leads from `s` to `t` in which every action met the
condition `P` in the state it was taken in; `Reaches` puts no condition. `ReachesUnder.invariant` is
the one induction over runs, and `runChecked` computes a run. -/

section Run

variable {σ α : Type} (step : σ → α → Option σ)

inductive ReachesUnder (P : σ → α → Prop) (s : σ) : σ → Prop
  | refl : ReachesUnder P s s
  | tail {t u : σ} {a : α} : ReachesUnder P s t → P t a → step t a = some u → ReachesUnder P s u

/-- Reachability by any actions. -/
def Reaches (s t : σ) : Prop := ReachesUnder step (fun _ _ => True) s t

variable {step}

/-- **Invariant rule.** What holds at the start and is kept by every action that meets the
    condition holds in every state reached. -/
theorem ReachesUnder.invariant {P : σ → α → Prop} {I : σ → Prop} {s t : σ}
    (hrun : ReachesUnder step P s t) (hinit : I s)
    (hstep : ∀ t a u, I t → P t a → step t a = some u → I u) : I t := by
  induction hrun with
  | refl => exact hinit
  | tail _ hP hs ih => exact hstep _ _ _ ih hP hs

/-- **Simulation rule.** If every action is matched by one action of another system, or by none, then
    every state reached has a counterpart that the other system reaches. -/
theorem ReachesUnder.simulation {τ β : Type} {step' : τ → β → Option τ} {P : σ → α → Prop}
    {R : σ → τ → Prop} {s t : σ} {s' : τ} (hrun : ReachesUnder step P s t) (hinit : R s s')
    (hstep : ∀ t a u t', R t t' → P t a → step t a = some u →
      R u t' ∨ ∃ b u', step' t' b = some u' ∧ R u u') :
    ∃ t', Reaches step' s' t' ∧ R t t' := by
  induction hrun with
  | refl => exact ⟨s', .refl, hinit⟩
  | tail _ hP hs ih =>
    obtain ⟨t', hreach, hR⟩ := ih
    rcases hstep _ _ _ _ hR hP hs with hR' | ⟨b, u', hs', hR'⟩
    · exact ⟨t', hreach, hR'⟩
    · exact ⟨u', hreach.tail trivial hs', hR'⟩

theorem ReachesUnder.head {P : σ → α → Prop} {s t u : σ} {a : α} (hP : P s a)
    (hs : step s a = some t) (hrun : ReachesUnder step P t u) : ReachesUnder step P s u := by
  induction hrun with
  | refl => exact ReachesUnder.refl.tail hP hs
  | tail _ hP' hs' ih => exact ih.tail hP' hs'

variable (step)

/-- Run a list of actions, checking `p` before each. -/
def runChecked (p : σ → α → Bool) : σ → List α → Option σ
  | s, [] => some s
  | s, a :: as => if p s a then (step s a).bind fun t => runChecked p t as else none

/-- Run a list of actions. -/
def runActions (s : σ) (as : List α) : Option σ := runChecked step (fun _ _ => true) s as

variable {step}

theorem reachesUnder_of_runChecked {p : σ → α → Bool} {P : σ → α → Prop}
    (hp : ∀ s a, p s a = true → P s a) {s t : σ} {as : List α}
    (h : runChecked step p s as = some t) : ReachesUnder step P s t := by
  induction as generalizing s with
  | nil =>
    rw [runChecked, Option.some.injEq] at h
    exact h ▸ .refl
  | cons a as ih =>
    rw [runChecked] at h
    split at h
    · next hpa =>
        obtain ⟨u, hu, hrest⟩ := Option.bind_eq_some_iff.1 h
        exact (ih hrest).head (hp s a hpa) hu
    · exact absurd h (by simp)

theorem reachesUnder_of_runDecided {P : σ → α → Prop} [∀ s a, Decidable (P s a)] {s t : σ}
    {as : List α} (h : runChecked step (fun s a => decide (P s a)) s as = some t) :
    ReachesUnder step P s t :=
  reachesUnder_of_runChecked (fun _ _ hP => of_decide_eq_true hP) h

theorem reaches_of_runActions {s t : σ} {as : List α} (h : runActions step s as = some t) :
    Reaches step s t :=
  reachesUnder_of_runChecked (fun _ _ _ => trivial) h

end Run
