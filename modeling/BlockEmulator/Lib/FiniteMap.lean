import Mathlib.Data.Finmap
import Mathlib.Data.List.Sort
import Mathlib.Algebra.BigOperators.Group.Finset.Basic
import Mathlib.Algebra.Order.BigOperators.Group.Multiset
import Mathlib.Tactic.Ring

set_option autoImplicit false

/-! # Sums over finite maps, and their keys in order

Two things a program does with a map it iterates in an unspecified order, and that do not depend on
that order: add something up over the entries (`Finmap.sumBy`), and sort the keys
(`Finmap.sortedKeys`). Both are defined on the quotient, so that the order never enters.

Where a loop over the map is to be read as it stands, the order it happens to take is a list with the
entries of the map (`Finmap.Ranges`), and the results above are what comes out for every such list.

A third is to fill a map in a loop over a list; what it has in the end was there or is from the list.

`Finmap.mapVals` changes the values and keeps the keys. -/

namespace Finmap

section Sum

variable {α M : Type} {β : α → Type} [AddCommMonoid M]

/-- The sum of `f` over the entries of a finite map. -/
def sumBy (m : Finmap β) (f : (a : α) → β a → M) : M :=
  (m.entries.map fun e => f e.1 e.2).sum

theorem sumBy_add (m : Finmap β) (f g : (a : α) → β a → M) :
    m.sumBy (fun a b => f a b + g a b) = m.sumBy f + m.sumBy g :=
  Multiset.sum_map_add

/-- Only the values on present entries matter. -/
theorem sumBy_congr [DecidableEq α] {m : Finmap β} {f g : (a : α) → β a → M}
    (h : ∀ a b, m.lookup a = some b → f a b = g a b) : m.sumBy f = m.sumBy g := by
  unfold sumBy
  congr 1
  refine Multiset.map_congr rfl ?_
  intro e he
  exact h e.1 e.2 (lookup_eq_some_iff.2 he)

variable [DecidableEq α]

theorem sumBy_insert_of_notMem {m : Finmap β} {a : α} (b : β a) (f : (a : α) → β a → M)
    (h : a ∉ m) : sumBy (insert a b m) f = f a b + m.sumBy f := by
  unfold sumBy
  rw [entries_insert_of_notMem h, Multiset.map_cons, Multiset.sum_cons]

theorem insert_erase_self (m : Finmap β) (a : α) (b : β a) :
    insert a b (erase a m) = insert a b m := by
  refine ext_lookup ?_
  intro x
  by_cases h : x = a
  · subst h; simp
  · simp [lookup_insert_of_ne _ h, lookup_erase_ne h]

/-- Inserting replaces what the key held before. -/
theorem sumBy_insert (m : Finmap β) (a : α) (b : β a) (f : (a : α) → β a → M) :
    sumBy (insert a b m) f = f a b + (erase a m).sumBy f := by
  rw [← insert_erase_self, sumBy_insert_of_notMem b f notMem_erase_self]

/-- A present entry can be split off the sum. -/
theorem sumBy_eq_add_erase {m : Finmap β} {a : α} {b : β a} (f : (a : α) → β a → M)
    (h : m.lookup a = some b) : m.sumBy f = f a b + (erase a m).sumBy f := by
  have hins : insert a b m = m := by
    refine ext_lookup ?_
    intro x
    by_cases hx : x = a
    · subst hx; simp [h]
    · simp [lookup_insert_of_ne _ hx]
  have hsum := sumBy_insert m a b f
  rwa [hins] at hsum

theorem erase_of_notMem {m : Finmap β} {a : α} (h : m.lookup a = none) : erase a m = m := by
  refine ext_lookup ?_
  intro x
  by_cases hx : x = a
  · subst hx; simp [h]
  · rw [lookup_erase_ne hx]

/-- Summing only what one key holds reads that key. -/
theorem sumBy_ite_eq (m : Finmap β) (k : α) (f : (a : α) → β a → M) :
    m.sumBy (fun a b => if a = k then f a b else 0) = (m.lookup k).elim 0 (f k) := by
  have hrest : (erase k m).sumBy (fun a b => if a = k then f a b else 0) = 0 := by
    have hzero : (erase k m).sumBy (fun a b => if a = k then f a b else 0)
        = (erase k m).sumBy (fun _ _ => (0 : M)) := by
      refine sumBy_congr fun a b hb => if_neg ?_
      intro hak
      subst hak
      simp at hb
    rw [hzero]
    simp [sumBy]
  cases hk : m.lookup k with
  | none => rw [erase_of_notMem hk] at hrest; simpa using hrest
  | some b => rw [sumBy_eq_add_erase _ hk, hrest]; simp

/-- The sum over any finite set of keys that covers the map. -/
theorem sumBy_eq_sum_of_subset (m : Finmap β) (f : (a : α) → β a → M) {S : Finset α}
    (hS : m.keys ⊆ S) : m.sumBy f = ∑ a ∈ S, (m.lookup a).elim 0 (f a) := by
  have hkeys : m.sumBy f = ∑ a ∈ m.keys, (m.lookup a).elim 0 (f a) := by
    unfold sumBy Finset.sum keys Multiset.keys
    rw [Multiset.map_map]
    congr 1
    refine Multiset.map_congr rfl ?_
    intro e he
    simp only [Function.comp_apply, lookup_eq_some_iff.2 he, Option.elim_some]
  rw [hkeys]
  refine Finset.sum_subset hS ?_
  intro a _ ha
  rw [mem_keys, ← lookup_eq_none] at ha
  rw [ha, Option.elim_none]

/-- Two maps that contribute the same at every key have the same sum. -/
theorem sumBy_eq_sumBy {γ : α → Type} {m : Finmap β} {m' : Finmap γ} {f : (a : α) → β a → M}
    {g : (a : α) → γ a → M}
    (h : ∀ a, (m.lookup a).elim 0 (f a) = (m'.lookup a).elim 0 (g a)) :
    m.sumBy f = m'.sumBy g := by
  rw [sumBy_eq_sum_of_subset m f (S := m.keys ∪ m'.keys) Finset.subset_union_left,
    sumBy_eq_sum_of_subset m' g (S := m.keys ∪ m'.keys) Finset.subset_union_right]
  exact Finset.sum_congr rfl fun a _ => h a

end Sum

theorem sumBy_nonneg {α M : Type} {β : α → Type} [DecidableEq α] [AddCommMonoid M] [PartialOrder M]
    [IsOrderedAddMonoid M] {m : Finmap β} {f : (a : α) → β a → M}
    (h : ∀ a b, m.lookup a = some b → 0 ≤ f a b) : 0 ≤ m.sumBy f := by
  refine Multiset.sum_nonneg ?_
  intro x hx
  obtain ⟨e, he, rfl⟩ := Multiset.mem_map.1 hx
  exact h e.1 e.2 (lookup_eq_some_iff.2 he)

/-- What holds of all entries can be checked key by key. -/
instance decidableForallLookup {α : Type} {β : α → Type} [DecidableEq α]
    {p : (a : α) → β a → Prop} [∀ a b, Decidable (p a b)] (m : Finmap β) :
    Decidable (∀ a b, m.lookup a = some b → p a b) :=
  decidable_of_iff (∀ a ∈ m.keys, ∀ b ∈ m.lookup a, p a b)
    ⟨fun h a b hb => h a (mem_keys.2 (mem_iff.2 ⟨b, hb⟩)) b hb, fun h a _ b hb => h a b hb⟩

section Fill

variable {α β ι : Type} [DecidableEq α] {k : ι → α} {v : ι → β} {l : List ι}
  {m : Finmap fun _ : α => β} {a : α}

theorem mem_foldl_insert :
    a ∈ l.foldl (fun m x => insert (k x) (v x) m) m ↔ a ∈ m ∨ ∃ x ∈ l, k x = a := by
  induction l generalizing m with
  | nil => simp
  | cons x l ih =>
    rw [List.foldl_cons, ih, mem_insert]
    simp only [List.mem_cons, exists_eq_or_imp]
    constructor
    · rintro ((rfl | hm) | hl)
      · exact .inr (.inl rfl)
      · exact .inl hm
      · exact .inr (.inr hl)
    · rintro (hm | rfl | hl)
      · exact .inl (.inr hm)
      · exact .inl (.inl rfl)
      · exact .inr hl

/-- The last entry made for a key counts. -/
theorem lookup_foldl_insert :
    (l.foldl (fun m x => insert (k x) (v x) m) m).lookup a =
      (l.reverse.findSome? fun x => if k x = a then some (v x) else none).or (m.lookup a) := by
  induction l generalizing m with
  | nil => simp
  | cons x l ih =>
    rw [List.foldl_cons, ih, List.reverse_cons, List.findSome?_append, Option.or_assoc]
    congr 1
    by_cases ha : k x = a
    · subst ha
      simp
    · rw [lookup_insert_of_ne _ (Ne.symm ha)]
      simp [ha]

theorem lookup_foldl_insert_cases {b : β}
    (h : (l.foldl (fun m x => insert (k x) (v x) m) m).lookup a = some b) :
    m.lookup a = some b ∨ ∃ x ∈ l, k x = a ∧ v x = b := by
  rw [lookup_foldl_insert, Option.or_eq_some_iff] at h
  rcases h with hlast | ⟨-, hm⟩
  · obtain ⟨x, hx, hkey⟩ := List.exists_of_findSome?_eq_some hlast
    obtain ⟨hka, hvb⟩ := Option.ite_none_right_eq_some.1 hkey
    exact .inr ⟨x, List.mem_reverse.1 hx, hka, Option.some.inj hvb⟩
  · exact .inl hm

end Fill

section MapVals

variable {α : Type} {β γ : α → Type}

/-- The map with the same keys and the values `f` makes of its own. -/
def mapVals (f : (a : α) → β a → γ a) (m : Finmap β) : Finmap γ where
  entries := m.entries.map fun e => ⟨e.1, f e.1 e.2⟩
  nodupKeys := by
    rw [← Multiset.nodup_keys, Multiset.keys, Multiset.map_map]
    exact Multiset.nodup_keys.2 m.nodupKeys

@[simp]
theorem lookup_mapVals [DecidableEq α] (f : (a : α) → β a → γ a) (m : Finmap β) (a : α) :
    (m.mapVals f).lookup a = (m.lookup a).map (f a) := by
  refine Option.ext fun c => ?_
  rw [Option.map_eq_some_iff, lookup_eq_some_iff, mapVals, Multiset.mem_map]
  constructor
  · rintro ⟨⟨a, b⟩, hb, heq⟩
    obtain ⟨rfl, heq⟩ := Sigma.mk.inj heq
    exact ⟨b, lookup_eq_some_iff.2 hb, eq_of_heq heq⟩
  · rintro ⟨b, hb, rfl⟩
    exact ⟨⟨a, b⟩, lookup_eq_some_iff.1 hb, rfl⟩

end MapVals

section Keys

variable {α : Type} {β : α → Type} (r : α → α → Prop) [DecidableRel r] [IsTrans α r]
  [Std.Antisymm r] [Std.Total r]

/-- The keys of a finite map in increasing order. -/
def sortedKeys (m : Finmap β) : List α :=
  Quot.liftOn m.keys.val (List.insertionSort r) fun l₁ l₂ h => by
    have hperm : (l₁.insertionSort r).Perm (l₂.insertionSort r) :=
      (List.perm_insertionSort r l₁).trans (h.trans (List.perm_insertionSort r l₂).symm)
    exact hperm.eq_of_pairwise' (List.pairwise_insertionSort r l₁) (List.pairwise_insertionSort r l₂)

end Keys

section Ranges

variable {α M : Type} {β : α → Type} {m : Finmap β} {order : List (Sigma β)}

/-- A program may range over the map in this order. -/
def Ranges (m : Finmap β) (order : List (Sigma β)) : Prop := (order : Multiset (Sigma β)) = m.entries

instance [DecidableEq α] [∀ a, DecidableEq (β a)] : Decidable (m.Ranges order) :=
  inferInstanceAs (Decidable ((order : Multiset (Sigma β)) = m.entries))

theorem Ranges.sum [AddCommMonoid M] (h : m.Ranges order) (f : (a : α) → β a → M) :
    (order.map fun e => f e.1 e.2).sum = m.sumBy f := by
  rw [sumBy, ← h, Multiset.map_coe, Multiset.sum_coe]

/-- Sorting the keys gives one list, whatever the order was and however it is done. -/
theorem Ranges.sorted_eq (r : α → α → Prop) [DecidableRel r] [IsTrans α r] [Std.Antisymm r]
    [Std.Total r] (h : m.Ranges order) {keys : List α} (hperm : keys.Perm (order.map Sigma.fst))
    (hsorted : keys.Pairwise r) : keys = m.sortedKeys r := by
  have hkeys : m.keys.val = ((order.map Sigma.fst : List α) : Multiset α) := by
    rw [← Multiset.map_coe, h]
    rfl
  have heq : m.sortedKeys r = (order.map Sigma.fst).insertionSort r := by
    unfold sortedKeys
    rw [hkeys]
    rfl
  rw [heq]
  exact (hperm.trans (List.perm_insertionSort r _).symm).eq_of_pairwise' hsorted
    (List.pairwise_insertionSort r _)

theorem mem_sortedKeys [DecidableEq α] (r : α → α → Prop) [DecidableRel r] [IsTrans α r]
    [Std.Antisymm r] [Std.Total r] {a : α} : a ∈ m.sortedKeys r ↔ a ∈ m := by
  have hrange : m.Ranges m.entries.toList := Multiset.coe_toList _
  rw [← hrange.sorted_eq r (List.perm_insertionSort r _) (List.pairwise_insertionSort r _),
    (List.perm_insertionSort r _).mem_iff, List.mem_map, mem_iff]
  simp only [Multiset.mem_toList, lookup_eq_some_iff, Sigma.exists]
  constructor
  · rintro ⟨a, b, hmem, rfl⟩
    exact ⟨b, hmem⟩
  · rintro ⟨b, hmem⟩
    exact ⟨a, b, hmem, rfl⟩

end Ranges

end Finmap
