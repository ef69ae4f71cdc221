import BlockEmulator.Lib.FiniteMap
import Mathlib.Algebra.BigOperators.Group.List.Basic
import Mathlib.Tactic.Abel

set_option autoImplicit false

/-! # Undirected multigraphs as adjacency lists

A multigraph is given by its list of edges; a program keeps it as a map from a vertex to the list of
its neighbours, with an entry at both ends of every edge (`ofEdges`). What is added up over all
adjacency lists counts every edge twice, once in each direction (`sumBy_ofEdges`).

The vertices carry labels, and an edge a weight that depends on the labels of its ends. When one vertex
gets another label, the total weight changes by what changes at its neighbours (`total_update`). This
is what an incremental count may rely on. It needs a graph without loops: at a loop both ends of the
edge change their label at once. -/

namespace Multigraph

variable {V : Type} [DecidableEq V]

/-! ## Adjacency lists -/

/-- The neighbours of a vertex, once for every edge between the two. -/
def neighbours (m : Finmap fun _ : V => List V) (v : V) : List V := (m.lookup v).getD []

/-- An edge, as seen from one of its ends. -/
def link (m : Finmap fun _ : V => List V) (u w : V) : Finmap fun _ : V => List V :=
  Finmap.insert u (neighbours m u ++ [w]) m

/-- An edge, as seen from both. -/
def connect (m : Finmap fun _ : V => List V) (e : V × V) : Finmap fun _ : V => List V :=
  link (link m e.1 e.2) e.2 e.1

/-- The adjacency lists of a list of edges. -/
def ofEdges (es : List (V × V)) : Finmap fun _ : V => List V := es.foldl connect ∅

theorem ofEdges_concat (es : List (V × V)) (e : V × V) :
    ofEdges (es ++ [e]) = connect (ofEdges es) e := by
  rw [ofEdges, List.foldl_append]
  rfl

theorem mem_neighbours_link {m : Finmap fun _ : V => List V} {u w v x : V} :
    x ∈ neighbours (link m u w) v ↔ x ∈ neighbours m v ∨ v = u ∧ x = w := by
  unfold link
  by_cases h : v = u
  · subst h
    simp [neighbours]
  · simp [neighbours, Finmap.lookup_insert_of_ne _ h, h]

/-- Neighbours are the two ends of an edge. -/
theorem mem_neighbours_ofEdges {es : List (V × V)} {v u : V} :
    u ∈ neighbours (ofEdges es) v ↔ (v, u) ∈ es ∨ (u, v) ∈ es := by
  induction es using List.reverseRecOn with
  | nil => simp [neighbours, ofEdges]
  | append_singleton es e ih =>
    rw [ofEdges_concat, connect, mem_neighbours_link, mem_neighbours_link, ih]
    obtain ⟨a, b⟩ := e
    simp only [List.mem_append, List.mem_singleton, Prod.mk.injEq]
    tauto

/-! ## Sums over the adjacency lists -/

section Sum

variable {M : Type} [AddCommMonoid M]

theorem sumBy_link (m : Finmap fun _ : V => List V) (g : V → V → M) (u w : V) :
    (link m u w).sumBy (fun v us => (us.map (g v)).sum) =
      m.sumBy (fun v us => (us.map (g v)).sum) + g u w := by
  rw [link, Finmap.sumBy_insert]
  cases hu : m.lookup u with
  | none =>
    rw [Finmap.erase_of_notMem hu, add_comm]
    simp [neighbours, hu]
  | some us =>
    rw [Finmap.sumBy_eq_add_erase _ hu]
    simp only [neighbours, hu, Option.getD_some, List.map_append, List.map_cons, List.map_nil,
      List.sum_append, List.sum_singleton]
    abel

/-- **Every edge is counted in both directions.** -/
theorem sumBy_ofEdges (es : List (V × V)) (g : V → V → M) :
    (ofEdges es).sumBy (fun v us => (us.map (g v)).sum) =
      (es.map fun e => g e.1 e.2 + g e.2 e.1).sum := by
  induction es using List.reverseRecOn with
  | nil => rfl
  | append_singleton es e ih =>
    rw [ofEdges_concat, connect, sumBy_link, sumBy_link, ih, List.map_append, List.sum_append,
      List.map_singleton, List.sum_singleton, add_assoc]

/-- A sum over the neighbours of one vertex, as a sum over all edges. -/
theorem sum_neighbours_ofEdges (es : List (V × V)) (v : V) (h : V → M) :
    ((neighbours (ofEdges es) v).map h).sum =
      (es.map fun e => (if e.1 = v then h e.2 else 0) + (if e.2 = v then h e.1 else 0)).sum := by
  have hone := Finmap.sumBy_ite_eq (ofEdges es) v fun _ us => (us.map h).sum
  have hall := sumBy_ofEdges es fun x u => if x = v then h u else 0
  rw [← hall]
  calc ((neighbours (ofEdges es) v).map h).sum
      = ((ofEdges es).lookup v).elim 0 fun us => (us.map h).sum := by
        unfold neighbours
        cases (ofEdges es).lookup v <;> simp
    _ = (ofEdges es).sumBy fun x us => if x = v then (us.map h).sum else 0 := hone.symm
    _ = (ofEdges es).sumBy fun x us => (us.map fun u => if x = v then h u else 0).sum := by
        refine Finmap.sumBy_congr fun x us _ => ?_
        by_cases hx : x = v <;> simp [hx]

end Sum

/-! ## Labels -/

section Total

variable {K M : Type}

/-- The total weight of the edges, where the weight of an edge depends on the labels of its ends. -/
def total [AddMonoid M] (w : K → K → M) (f : V → K) (es : List (V × V)) : M :=
  (es.map fun e => w (f e.1) (f e.2)).sum

omit [DecidableEq V] in
theorem total_congr [AddMonoid M] {w w' : K → K → M} {f : V → K} {es : List (V × V)}
    (h : ∀ e ∈ es, w (f e.1) (f e.2) = w' (f e.1) (f e.2)) : total w f es = total w' f es := by
  unfold total
  rw [List.map_congr_left h]

omit [DecidableEq V] in
theorem total_add [AddCommMonoid M] (w w' : K → K → M) (f : V → K) (es : List (V × V)) :
    total (fun a b => w a b + w' a b) f es = total w f es + total w' f es :=
  List.sum_map_add

omit [DecidableEq V] in
/-- The weights of many kinds, added up over the kinds. -/
theorem sum_map_total [AddCommMonoid M] {ι : Type} (ks : List ι) (w : ι → K → K → M) (f : V → K)
    (es : List (V × V)) :
    (ks.map fun k => total (w k) f es).sum = total (fun a b => (ks.map fun k => w k a b).sum) f es := by
  induction ks with
  | nil => simp [total]
  | cons k ks ih =>
    simp only [List.map_cons, List.sum_cons]
    rw [ih, total_add]

/-- **One vertex gets another label.** In a graph without loops the total weight changes by what
    changes on the edges to the neighbours of the vertex. -/
theorem total_update [AddCommGroup M] {w : K → K → M} (hw : ∀ a b, w a b = w b a) (f : V → K)
    {es : List (V × V)} (hloop : ∀ e ∈ es, e.1 ≠ e.2) (v : V) (k : K) :
    total w (Function.update f v k) es = total w f es +
      ((neighbours (ofEdges es) v).map fun u => w k (f u) - w (f v) (f u)).sum := by
  rw [sum_neighbours_ofEdges, total, total, ← List.sum_map_add]
  refine congrArg List.sum (List.map_congr_left ?_)
  rintro ⟨a, b⟩ he
  have hab : a ≠ b := hloop _ he
  by_cases ha : a = v
  · subst ha
    simp [hab.symm]
  by_cases hb : b = v
  · subst hb
    simp [ha, hw (f a)]
  · simp [ha, hb]

end Total

end Multigraph
