import Mathlib.Algebra.BigOperators.Group.Finset.Basic
import Mathlib.Algebra.BigOperators.Group.Finset.Sigma
import Mathlib.Algebra.BigOperators.Group.List.Basic
import Mathlib.Algebra.Order.BigOperators.Group.Multiset
import Mathlib.Data.Multiset.Count
import Mathlib.Data.Fintype.Basic
import Mathlib.Tactic.Abel

set_option autoImplicit false

/-! # Counting over lists and families

Conservation arguments for a system of many parts: what a total over all parts becomes when one part
changes, what the total of a list becomes when one entry is raised, how often what a key stands for is
found, what becomes of the occurrences of a value when a list is split by destination, and how weights
of lists compare when occurrences do. -/

section Family

variable {ι α M : Type} [Fintype ι] [DecidableEq ι] [AddCommMonoid M]

/-- One member of a family changes: the total loses its old weight and gains the new one. -/
theorem sum_update_add (g : ι → α) (f : α → M) (i : ι) (x : α) :
    ∑ j, f (Function.update g i x j) + f (g i) = ∑ j, f (g j) + f x := by
  have hrest : ∑ j ∈ Finset.univ.erase i, f (Function.update g i x j)
      = ∑ j ∈ Finset.univ.erase i, f (g j) :=
    Finset.sum_congr rfl fun j hj => by rw [Function.update_of_ne (Finset.ne_of_mem_erase hj)]
  rw [← Finset.add_sum_erase _ _ (Finset.mem_univ i), Function.update_self, hrest,
    ← Finset.add_sum_erase _ (fun j => f (g j)) (Finset.mem_univ i)]
  abel

/-- One member of a family grows. -/
theorem sum_update_of_add {N : Type} [AddCancelCommMonoid N] {g : ι → α} {f : α → N} {i : ι} {x : α}
    {d : N} (h : f x = f (g i) + d) : ∑ j, f (Function.update g i x j) = ∑ j, f (g j) + d := by
  have hsum := sum_update_add g f i x
  rw [h, add_comm (f (g i)), ← add_assoc] at hsum
  exact add_right_cancel hsum

end Family

section Labels

variable {α κ : Type} [DecidableEq α] [DecidableEq κ] {s : Finset α} {f : α → κ} {a : α}

/-- A member joins with its label. -/
theorem card_filter_insert_update (ha : a ∉ s) (b k : κ) :
    ((insert a s).filter fun x => Function.update f a b x = k).card =
      (s.filter fun x => f x = k).card + if b = k then 1 else 0 := by
  have hrest : (s.filter fun x => Function.update f a b x = k) = s.filter fun x => f x = k := by
    refine Finset.filter_congr ?_
    intro x hx
    have hxa : x ≠ a := fun h => ha (h ▸ hx)
    rw [Function.update_of_ne hxa]
  rw [Finset.filter_insert, Function.update_self, hrest]
  split
  · rw [Finset.card_insert_of_notMem fun h => ha (Finset.mem_of_mem_filter a h)]
  · rw [Nat.add_zero]

/-- A member gets another label. -/
theorem card_filter_update (ha : a ∈ s) (b k : κ) :
    (s.filter fun x => Function.update f a b x = k).card + (if f a = k then 1 else 0) =
      (s.filter fun x => f x = k).card + if b = k then 1 else 0 := by
  have hnew := card_filter_insert_update (f := f) (Finset.notMem_erase a s) b k
  have hold := card_filter_insert_update (f := f) (Finset.notMem_erase a s) (f a) k
  rw [Finset.insert_erase ha] at hnew hold
  rw [Function.update_eq_self] at hold
  omega

end Labels

section Entries

variable {M : Type} [AddCommMonoid M]

/-- One entry of a list is raised. -/
theorem sum_modify_add {l : List M} {i : ℕ} (hi : i < l.length) (d : M) :
    (l.modify i (· + d)).sum = l.sum + d := by
  induction l generalizing i with
  | nil => exact absurd hi (by simp)
  | cons x l ih =>
    cases i with
    | zero =>
      rw [List.modify_zero_cons, List.sum_cons, List.sum_cons]
      abel
    | succ i =>
      rw [List.modify_succ_cons, List.sum_cons, List.sum_cons, ih (by simpa using hi)]
      abel

end Entries

section Find

variable {α β : Type}

/-- A selected value that only one key has is found as often as the key. -/
theorem filter_filterMap_eq_replicate [BEq α] [LawfulBEq α] {f : α → Option β} {p : β → Bool}
    {a : α} {b : β} (hb : f a = some b) (h : ∀ x y, f x = some y → (p y = true ↔ x = a))
    (l : List α) : (l.filterMap f).filter p = List.replicate (l.count a) b := by
  induction l with
  | nil => rfl
  | cons x l ih =>
    by_cases hx : x = a
    · subst hx
      rw [List.filterMap_cons_some hb, List.filter_cons_of_pos ((h x b hb).2 rfl), ih,
        List.count_cons_self, List.replicate_succ]
    · rw [List.count_cons_of_ne hx, ← ih]
      cases hy : f x with
      | none => rw [List.filterMap_cons_none hy]
      | some y =>
        rw [List.filterMap_cons_some hy, List.filter_cons_of_neg fun hp => hx ((h x y hy).1 hp)]

/-- Where no two members of a list have the same key, a key selects one of them. -/
theorem filter_eq_singleton [DecidableEq α] {f : β → α} {l : List β} (hnodup : (l.map f).Nodup)
    {b : β} (hb : b ∈ l) : l.filter (fun x => f x = f b) = [b] := by
  induction l with
  | nil => exact absurd hb List.not_mem_nil
  | cons x l ih =>
    obtain ⟨hx, hnodup⟩ := List.nodup_cons.1 hnodup
    rcases List.mem_cons.1 hb with rfl | hb
    · rw [List.filter_cons_of_pos (by simp), List.filter_eq_nil_iff.2]
      intro y hy heq
      exact hx (of_decide_eq_true heq ▸ List.mem_map_of_mem hy)
    · rw [List.filter_cons_of_neg, ih hnodup hb]
      intro heq
      exact hx (of_decide_eq_true heq ▸ List.mem_map_of_mem hb)

end Find

section Join

variable {ι α : Type}

/-- What several lists have together. -/
theorem sum_map_coe (f : ι → List α) (l : List ι) :
    (l.map fun i => (f i : Multiset α)).sum = (l.flatMap f : List α) := by
  induction l with
  | nil => rfl
  | cons i l ih => rw [List.map_cons, List.sum_cons, ih, List.flatMap_cons, Multiset.coe_add]

/-- A total over a family of lists. -/
theorem sum_map_sum [Fintype ι] {M : Type} [AddCommMonoid M] (f : ι → List α) (g : α → M) :
    ((∑ i, (f i : Multiset α)).map g).sum = ∑ i, ((f i).map g).sum := by
  have h := map_sum (Multiset.sumAddMonoidHom.comp (Multiset.mapAddMonoidHom g))
    (fun i => (f i : Multiset α)) Finset.univ
  refine h.trans (Finset.sum_congr rfl fun i _ => ?_)
  show ((f i : Multiset α).map g).sum = _
  rw [Multiset.map_coe, Multiset.sum_coe]

end Join

section Split

variable {α : Type} [DecidableEq α]

/-- A list is split by destination: a value is found where its destination is, and nowhere else. -/
theorem sum_count_filter_eq (l : List α) (dest : α → ℕ) (t : α) {sids : List ℕ}
    (hnodup : sids.Nodup) :
    (sids.map fun sid => (l.filter fun x => dest x = sid).count t).sum =
      if dest t ∈ sids then l.count t else 0 := by
  induction sids with
  | nil => simp
  | cons sid sids ih =>
    obtain ⟨hnot, hnodup⟩ := List.nodup_cons.1 hnodup
    rw [List.map_cons, List.sum_cons, ih hnodup]
    by_cases hsid : dest t = sid
    · subst hsid
      rw [List.count_filter (by simp), if_neg hnot, if_pos List.mem_cons_self, Nat.add_zero]
    · have hzero : (l.filter fun x => dest x = sid).count t = 0 :=
        List.count_eq_zero.2 fun hmem => hsid (of_decide_eq_true (List.mem_filter.1 hmem).2)
      rw [hzero, Nat.zero_add]
      simp [hsid]

/-- A list that is split among all its destinations. -/
theorem flatMap_filter_perm {l : List α} {dest : α → ℕ} {sids : List ℕ} (hnodup : sids.Nodup)
    (hdest : ∀ x ∈ l, dest x ∈ sids) :
    (sids.flatMap fun sid => l.filter fun x => dest x = sid).Perm l := by
  refine List.perm_iff_count.2 ?_
  intro t
  rw [List.count_flatMap]
  refine (sum_count_filter_eq l dest t hnodup).trans ?_
  split
  · rfl
  · next hfar => exact (List.count_eq_zero.2 fun hmem => hfar (hdest t hmem)).symm

/-- Lists are redistributed by destination, each place visiting the old lists in an order of its own:
    nothing is lost or duplicated. -/
theorem redistribute_perm {q q' : ℕ → List α} (dest : α → ℕ) {S : ℕ}
    (hdest : ∀ j < S, ∀ x ∈ q j, dest x < S)
    (hq' : ∀ i < S, ∃ order : List ℕ, order.Perm (List.range S) ∧
      q' i = order.flatMap fun j => (q j).filter fun x => dest x = i) :
    ((List.range S).flatMap q').Perm ((List.range S).flatMap q) := by
  refine List.perm_iff_count.2 ?_
  intro t
  have hcount : ∀ i ∈ List.range S, (q' i).count t =
      ((List.range S).map fun j => ((q j).filter fun x => dest x = i).count t).sum := by
    intro i hi
    obtain ⟨order, hperm, heq⟩ := hq' i (List.mem_range.1 hi)
    rw [heq, List.count_flatMap]
    exact (hperm.map _).sum_eq
  have hplace : ∀ j ∈ List.range S,
      ((List.range S).map fun i => ((q j).filter fun x => dest x = i).count t).sum =
        (q j).count t := by
    intro j hj
    rw [sum_count_filter_eq _ _ _ List.nodup_range]
    split
    · rfl
    · next hfar =>
        refine (List.count_eq_zero.2 fun hmem => hfar ?_).symm
        exact List.mem_range.2 (hdest j (List.mem_range.1 hj) t hmem)
  rw [List.count_flatMap, List.count_flatMap]
  calc ((List.range S).map fun i => (q' i).count t).sum
      = ((List.range S).map fun i => ((List.range S).map fun j =>
          ((q j).filter fun x => dest x = i).count t).sum).sum := by
        rw [List.map_congr_left hcount]
    _ = ((List.range S).map fun j => ((List.range S).map fun i =>
          ((q j).filter fun x => dest x = i).count t).sum).sum :=
        Finset.sum_comm (s := Finset.range S) (t := Finset.range S)
    _ = ((List.range S).map fun j => (q j).count t).sum := by
        rw [List.map_congr_left hplace]

end Split

section Weight

variable {α : Type} [DecidableEq α]

/-- Lists with the same occurrences of everything that weighs anything have the same weight. -/
theorem sum_map_eq_of_count_eq {f : α → ℤ} {l l' : List α}
    (h : ∀ t, f t ≠ 0 → l.count t = l'.count t) : (l.map f).sum = (l'.map f).sum := by
  have hdrop : ∀ l : List α, (l.map f).sum = ((l.filter fun t => f t ≠ 0).map f).sum := by
    intro l
    induction l with
    | nil => rfl
    | cons t l ih => by_cases ht : f t = 0 <;> simp [ht, ih]
  have hperm : (l.filter fun t => f t ≠ 0).Perm (l'.filter fun t => f t ≠ 0) := by
    refine List.perm_iff_count.2 ?_
    intro t
    by_cases ht : f t = 0
    · have hnone : ∀ l : List α, (l.filter fun t => f t ≠ 0).count t = 0 := fun l =>
        List.count_eq_zero.2 fun hmem => absurd ht (by simpa using (List.mem_filter.1 hmem).2)
      rw [hnone, hnone]
    · rw [List.count_filter (by simpa using ht), List.count_filter (by simpa using ht), h t ht]
  rw [hdrop l, hdrop l', (hperm.map f).sum_eq]

/-- More occurrences weigh more, if no weight is negative. -/
theorem sum_map_le_of_count_le {l l' : List α} (h : ∀ t, l.count t ≤ l'.count t) {f : α → ℤ}
    (hf : ∀ t ∈ l', 0 ≤ f t) : (l.map f).sum ≤ (l'.map f).sum := by
  have hle : (l : Multiset α) ≤ (l' : Multiset α) := by
    rw [Multiset.le_iff_count]
    intro t
    rw [Multiset.coe_count, Multiset.coe_count]
    exact h t
  obtain ⟨u, hu⟩ := Multiset.le_iff_exists_add.1 hle
  have hsum : (l'.map f).sum = (l.map f).sum + (u.map f).sum := by
    rw [← Multiset.sum_coe, ← Multiset.map_coe, hu, Multiset.map_add, Multiset.sum_add,
      Multiset.map_coe, Multiset.sum_coe]
  have hpos : 0 ≤ (u.map f).sum := by
    refine Multiset.sum_nonneg ?_
    intro x hx
    obtain ⟨t, ht, rfl⟩ := Multiset.mem_map.1 hx
    refine hf t ?_
    rw [← Multiset.mem_coe, hu]
    exact Multiset.mem_add.2 (Or.inr ht)
  rw [hsum]
  exact le_add_of_nonneg_right hpos

end Weight
