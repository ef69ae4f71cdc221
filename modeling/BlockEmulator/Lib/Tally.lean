import Mathlib.Algebra.BigOperators.Group.List.Basic
import Mathlib.Data.List.GetD

set_option autoImplicit false

/-! # Tallies

A table has an entry for every index up to the last one that has been used. A contribution to an index
first extends the table with zeros and is then added to its entry. So an entry is the sum of the
contributions to its index, whatever their order was, and two tables with contributions to the same
indices are the same exactly if these sums are. -/

section Tally

variable {M : Type} [AddCommMonoid M]

/-- One contribution. -/
def credit (l : List M) (c : ℕ × M) : List M :=
  (l ++ List.replicate (c.1 + 1 - l.length) 0).modify c.1 (· + c.2)

/-- All contributions. -/
def tally (cs : List (ℕ × M)) : List M := cs.foldl credit []

/-- What is contributed to an index. -/
def sumAt (cs : List (ℕ × M)) (k : ℕ) : M := (cs.map fun c => if c.1 = k then c.2 else 0).sum

theorem length_credit (l : List M) (c : ℕ × M) : (credit l c).length = max l.length (c.1 + 1) := by
  simp only [credit, List.length_modify, List.length_append, List.length_replicate]
  omega

theorem getD_credit (l : List M) (c : ℕ × M) (k : ℕ) :
    (credit l c).getD k 0 = l.getD k 0 + if c.1 = k then c.2 else 0 := by
  have hextended : (l ++ List.replicate (c.1 + 1 - l.length) 0).getD k 0 = l.getD k 0 := by
    by_cases hk : k < l.length
    · exact List.getD_append _ _ _ _ hk
    · rw [List.getD_append_right _ _ _ _ (by omega), List.getD_eq_default l 0 (by omega),
        List.getD_eq_getElem?_getD, List.getElem?_getD_replicate_default_eq]
  rw [← hextended, credit]
  simp only [List.getD_eq_getElem?_getD, List.getElem?_modify]
  split
  · next heq =>
    subst heq
    have hlt : c.1 < (l ++ List.replicate (c.1 + 1 - l.length) 0).length := by
      simp only [List.length_append, List.length_replicate]
      omega
    simp [List.getElem?_eq_getElem hlt]
  · simp

theorem length_foldl_credit (cs : List (ℕ × M)) (l : List M) :
    (cs.foldl credit l).length = (cs.map Prod.fst).foldl (fun n k => max n (k + 1)) l.length := by
  induction cs generalizing l with
  | nil => rfl
  | cons c cs ih => rw [List.foldl_cons, ih, length_credit, List.map_cons, List.foldl_cons]

/-- An entry is the sum of what is contributed to it. -/
theorem getD_foldl_credit (cs : List (ℕ × M)) (l : List M) (k : ℕ) :
    (cs.foldl credit l).getD k 0 = l.getD k 0 + sumAt cs k := by
  induction cs generalizing l with
  | nil => simp [sumAt]
  | cons c cs ih => rw [List.foldl_cons, ih, getD_credit, add_assoc, sumAt, sumAt, List.map_cons,
      List.sum_cons]

theorem sumAt_of_notMem {cs : List (ℕ × M)} {k : ℕ} (h : k ∉ cs.map Prod.fst) : sumAt cs k = 0 := by
  refine List.sum_eq_zero fun x hx => ?_
  obtain ⟨c, hc, rfl⟩ := List.mem_map.1 hx
  exact if_neg fun hk => h (List.mem_map.2 ⟨c, hc, hk⟩)

theorem length_tally_of_perm {cs cs' : List (ℕ × M)}
    (h : (cs.map Prod.fst).Perm (cs'.map Prod.fst)) : (tally cs).length = (tally cs').length := by
  rw [tally, tally, length_foldl_credit, length_foldl_credit]
  have : RightCommutative fun (n k : ℕ) => max n (k + 1) := ⟨fun n j k => by omega⟩
  exact h.foldl_eq _

/-- **Equal tallies** of contributions to the same indices. -/
theorem tally_eq_iff {cs cs' : List (ℕ × M)} (h : (cs.map Prod.fst).Perm (cs'.map Prod.fst)) :
    tally cs = tally cs' ↔ ∀ k ∈ cs.map Prod.fst, sumAt cs k = sumAt cs' k := by
  have hentry : ∀ cs : List (ℕ × M), ∀ k, (tally cs).getD k 0 = sumAt cs k := fun cs k => by
    rw [tally, getD_foldl_credit]
    simp
  constructor
  · intro heq k _
    rw [← hentry, ← hentry, heq]
  · intro hsums
    refine List.ext_getElem (length_tally_of_perm h) fun k hk hk' => ?_
    rw [← List.getD_eq_getElem _ 0 hk, ← List.getD_eq_getElem _ 0 hk', hentry, hentry]
    by_cases hmem : k ∈ cs.map Prod.fst
    · exact hsums k hmem
    · rw [sumAt_of_notMem hmem, sumAt_of_notMem (mt h.mem_iff.2 hmem)]

end Tally
