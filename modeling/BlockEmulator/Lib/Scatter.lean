import Mathlib.Data.List.Perm.Basic
import Mathlib.Data.List.Nodup

set_option autoImplicit false

/-! # Scattering a queue

A sweep goes over a buffer once, collects what it meets, and moves what is to be kept to the front, in
place: a write never overtakes the read, so the buffer ends as the filtered one.

One destination after the other takes what it wants out of a queue; the next one sees what is left.
Nothing is lost or duplicated, what nobody takes stays in order, and where no two destinations want
the same thing each gets exactly what it wants, in order. -/

section Sweep

variable {α β : Type} (keep : α → Bool) (visit : β → α → β)

/-- A sweep on its way: the buffer, where the next kept element goes, and what has been collected. -/
structure Sweep (α β : Type) where
  buf : List α
  firstPtr : ℕ
  acc : β

/-- One turn of the loop. -/
def Sweep.turn (s : Sweep α β) (secondPtr : ℕ) : Sweep α β :=
  match s.buf[secondPtr]? with
  | none => s
  | some x =>
    if keep x then ⟨s.buf.set s.firstPtr x, s.firstPtr + 1, visit s.acc x⟩
    else { s with acc := visit s.acc x }

/-- The whole loop, and the cut at the end. -/
def sweep (acc : β) (buf : List α) : List α × β :=
  let s := (List.range buf.length).foldl (Sweep.turn keep visit) ⟨buf, 0, acc⟩
  (s.buf.take s.firstPtr, s.acc)

/-- A sweep of `buf` after `k` turns. -/
structure Sweep.At (buf : List α) (acc : β) (k : ℕ) (s : Sweep α β) : Prop where
  behind : s.firstPtr ≤ k
  length : s.buf.length = buf.length
  front : s.buf.take s.firstPtr = (buf.take k).filter keep
  back : s.buf.drop k = buf.drop k
  acc : s.acc = (buf.take k).foldl visit acc

variable {keep visit}

theorem Sweep.At.turn {buf : List α} {acc : β} {k : ℕ} {s : Sweep α β}
    (hs : Sweep.At keep visit buf acc k s) (hk : k < buf.length) :
    Sweep.At keep visit buf acc (k + 1) (s.turn keep visit k) := by
  have hread : s.buf[k]? = some buf[k] := by
    have hhead := congrArg (fun l => l[0]?) hs.back
    simpa [hk] using hhead
  have htake : buf.take (k + 1) = buf.take k ++ [buf[k]] := by simp
  have hback : s.buf.drop (k + 1) = buf.drop (k + 1) := by
    rw [← List.drop_drop, ← List.drop_drop, hs.back]
  have hacc : (buf.take (k + 1)).foldl visit acc = visit s.acc buf[k] := by
    rw [htake, List.foldl_append, ← hs.acc]
    rfl
  simp only [Sweep.turn, hread]
  cases hkeep : keep buf[k] with
  | true =>
    simp only [if_true]
    have hfirst : s.firstPtr < s.buf.length := by
      rw [hs.length]
      exact Nat.lt_of_le_of_lt hs.behind hk
    refine ⟨Nat.succ_le_succ hs.behind, by simp [hs.length], ?_, ?_, hacc.symm⟩
    · rw [htake, List.filter_append, ← hs.front, List.filter_singleton, hkeep]
      rw [List.take_add_one, List.take_set_of_le (Nat.le_refl _)]
      simp [hfirst]
    · rw [List.drop_set_of_lt (Nat.lt_succ_of_le hs.behind), hback]
  | false =>
    simp only [Bool.false_eq_true, if_false]
    refine ⟨Nat.le_succ_of_le hs.behind, hs.length, ?_, hback, hacc.symm⟩
    rw [htake, List.filter_append, hs.front]
    simp [hkeep]

/-- The first `k` turns. -/
theorem Sweep.At.run (acc : β) {buf : List α} {k : ℕ} (hk : k ≤ buf.length) :
    Sweep.At keep visit buf acc k
      ((List.range k).foldl (Sweep.turn keep visit) ⟨buf, 0, acc⟩) := by
  induction k with
  | zero => exact ⟨Nat.le_refl 0, rfl, rfl, rfl, rfl⟩
  | succ k ih =>
    rw [List.range_succ, List.foldl_append]
    exact (ih (Nat.le_of_lt hk)).turn hk

/-- The write pointer counts what is kept. -/
theorem Sweep.At.firstPtr_eq {buf : List α} {acc : β} {k : ℕ} {s : Sweep α β}
    (hs : Sweep.At keep visit buf acc k s) (hk : k ≤ buf.length) :
    s.firstPtr = (buf.take k).countP keep := by
  rw [List.countP_eq_length_filter, ← hs.front, List.length_take, hs.length,
    Nat.min_eq_left (Nat.le_trans hs.behind hk)]

/-- **A sweep filters the buffer** and visits all its elements in turn. -/
theorem sweep_eq (acc : β) (buf : List α) :
    sweep keep visit acc buf = (buf.filter keep, buf.foldl visit acc) := by
  have hend := @Sweep.At.run α β keep visit acc buf buf.length (Nat.le_refl _)
  rw [sweep]
  refine Prod.ext ?_ ?_
  · rw [hend.front, List.take_length]
  · rw [hend.acc, List.take_length]

/-- Counting what meets a condition. -/
theorem foldl_count (p : α → Bool) (n : ℕ) (l : List α) :
    l.foldl (fun n x => if p x then n + 1 else n) n = n + l.countP p := by
  induction l generalizing n with
  | nil => rfl
  | cons x l ih =>
    rw [List.foldl_cons, ih]
    cases hp : p x with
    | true => rw [List.countP_cons_of_pos hp, if_pos rfl, Nat.add_right_comm, Nat.add_assoc]
    | false => rw [List.countP_cons_of_neg (by simp [hp]), if_neg (by simp)]

/-- Collecting what meets a condition. -/
theorem foldl_collect (p : α → Bool) (acc l : List α) :
    l.foldl (fun acc x => if p x then acc ++ [x] else acc) acc = acc ++ l.filter p := by
  induction l generalizing acc with
  | nil => simp
  | cons x l ih =>
    rw [List.foldl_cons, ih]
    cases hp : p x <;> simp [hp]

/-- Collecting in two lists at once. -/
theorem foldl_collect_two (p q : α → Bool) (acc : List α × List α) (l : List α) :
    l.foldl (fun acc x => (if p x then acc.1 ++ [x] else acc.1,
      if q x then acc.2 ++ [x] else acc.2)) acc = (acc.1 ++ l.filter p, acc.2 ++ l.filter q) := by
  induction l generalizing acc with
  | nil => simp
  | cons x l ih =>
    rw [List.foldl_cons, ih]
    cases hp : p x <;> cases hq : q x <;> simp [hp, hq]

end Sweep

section Scatter

variable {ι α : Type} (takes : ι → α → Bool)

/-- What is left of the queue, and what each destination has taken. -/
def scatter : List ι → List α → List α × List (ι × List α)
  | [], queue => (queue, [])
  | i :: is, queue =>
    let r := scatter is (queue.filter fun x => !takes i x)
    (r.1, (i, queue.filter (takes i)) :: r.2)

variable {takes}

/-- What is left is what nobody wants, in order. -/
theorem scatter_fst (is : List ι) (queue : List α) :
    (scatter takes is queue).1 = queue.filter fun x => is.all fun i => !takes i x := by
  induction is generalizing queue with
  | nil => exact (List.filter_eq_self.2 fun _ _ => rfl).symm
  | cons i is ih =>
    rw [scatter, ih, List.filter_filter]
    refine List.filter_congr ?_
    intro x _
    rw [List.all_cons, Bool.and_comm]

theorem scatter_map_fst (is : List ι) (queue : List α) :
    (scatter takes is queue).2.map Prod.fst = is := by
  induction is generalizing queue with
  | nil => rfl
  | cons i is ih => rw [scatter, List.map_cons, ih]

/-- **Nothing is lost or duplicated.** -/
theorem scatter_perm (is : List ι) (queue : List α) :
    ((scatter takes is queue).1 ++ (scatter takes is queue).2.flatMap Prod.snd).Perm queue := by
  induction is generalizing queue with
  | nil => simp [scatter]
  | cons i is ih =>
    rw [scatter, List.flatMap_cons, ← List.append_assoc]
    refine (List.perm_append_comm.append_right _).trans ?_
    rw [List.append_assoc]
    refine ((ih _).append_left _).trans ?_
    exact List.filter_append_perm (takes i) queue

/-- A destination takes what it wants only. -/
theorem of_mem_scatter {is : List ι} {queue : List α} {p : ι × List α}
    (hp : p ∈ (scatter takes is queue).2) {x : α} (hx : x ∈ p.2) :
    p.1 ∈ is ∧ x ∈ queue ∧ takes p.1 x = true := by
  induction is generalizing queue with
  | nil => exact absurd hp (by simp [scatter])
  | cons i is ih =>
    rcases List.mem_cons.1 hp with rfl | hp
    · exact ⟨List.mem_cons_self, List.mem_filter.1 hx⟩
    · obtain ⟨hi, hmem, htakes⟩ := ih hp
      exact ⟨List.mem_cons_of_mem _ hi, List.mem_of_mem_filter hmem, htakes⟩

/-- If no two destinations want the same thing, each gets all it wants, in order. -/
theorem scatter_snd_of_disjoint {is : List ι} (hnodup : is.Nodup) {queue : List α}
    (hdisj : ∀ i ∈ is, ∀ j ∈ is, ∀ x, takes i x = true → takes j x = true → i = j) :
    (scatter takes is queue).2 = is.map fun i => (i, queue.filter (takes i)) := by
  induction is generalizing queue with
  | nil => rfl
  | cons i is ih =>
    obtain ⟨hnot, hnodup⟩ := List.nodup_cons.1 hnodup
    rw [scatter, ih hnodup fun j hj k hk => hdisj j (List.mem_cons_of_mem _ hj) k
      (List.mem_cons_of_mem _ hk), List.map_cons]
    refine congrArg (List.cons (i, queue.filter (takes i))) (List.map_congr_left ?_)
    intro j hj
    rw [List.filter_filter]
    congr 1
    refine List.filter_congr ?_
    intro x _
    cases htake : takes j x with
    | false => rfl
    | true =>
      -- what `j` wants has not been taken by `i` before
      cases hi : takes i x with
      | false => rfl
      | true =>
        have heq := hdisj i List.mem_cons_self j (List.mem_cons_of_mem _ hj) x hi htake
        exact absurd (heq ▸ hj) hnot

end Scatter
