import BlockEmulator.Lib.Multigraph
import BlockEmulator.Supervisor.ClpaCommittee
import Mathlib.Algebra.BigOperators.Group.Finset.Piecewise

set_option autoImplicit false

/-! # The edge counters of the partition algorithm

`CLPA_Partition` counts the edges of each shard, and keeps the counters up to date move by move.

`ComputeEdges2Shard` goes through all adjacency lists and counts an edge between two shards once for
each of them; an edge inside a shard it meets twice and halves the count. In terms of the edges
themselves, `Edges2Shard[k]` is the number of edges with an end in shard `k`, and `CrossShardEdgeNum`
the number of edges with ends in different shards (`countEdges`). Both are totals of a weight that
depends on the shards of the two ends, so that a move changes them by what changes on the edges of the
vertex that has moved; this is what `changeShardRecompute` adds up.

What is proved about a run uses nothing of the scores: a vertex moves only to the shard of a neighbour,
and only from a shard that has another vertex (`Visited`). -/

namespace BlockEmulator

open Multigraph

/-! ## Graphs given by their edges -/

namespace Graph

/-- `AddEdge` for each edge of a list. -/
def addEdges (g : Graph) (es : List (Address × Address)) : Graph :=
  es.foldl (fun g e => g.addEdge e.1 e.2) g

/-- The graph built by a sequence of `AddEdge`. -/
def ofEdges (es : List (Address × Address)) : Graph := addEdges {} es

theorem addEdges_edgeSet (g : Graph) (es : List (Address × Address)) :
    (g.addEdges es).edgeSet = es.foldl connect g.edgeSet := by
  induction es generalizing g with
  | nil => rfl
  | cons e es ih => exact ih (g.addEdge e.1 e.2)

theorem edgeSet_ofEdges (es : List (Address × Address)) :
    (ofEdges es).edgeSet = Multigraph.ofEdges es :=
  addEdges_edgeSet {} es

theorem edgesAt_ofEdges (es : List (Address × Address)) (v : Address) :
    (ofEdges es).edgesAt v = neighbours (Multigraph.ofEdges es) v := by
  rw [← edgeSet_ofEdges]
  rfl

theorem mem_vertexSet_addEdges {g : Graph} {es : List (Address × Address)} {v : Address} :
    v ∈ (g.addEdges es).vertexSet ↔ v ∈ g.vertexSet ∨ ∃ e ∈ es, v = e.1 ∨ v = e.2 := by
  induction es generalizing g with
  | nil => simp [addEdges]
  | cons e es ih =>
    have hcons : v ∈ (g.addEdges (e :: es)).vertexSet ↔ _ := ih (g := g.addEdge e.1 e.2)
    rw [hcons, addEdge_vertexSet]
    simp only [Finset.mem_insert, List.exists_mem_cons_iff]
    constructor
    · rintro ((h | h | h) | h)
      exacts [.inr (.inl (.inr h)), .inr (.inl (.inl h)), .inl h, .inr (.inr h)]
    · rintro (h | (h | h) | h)
      exacts [.inl (.inr (.inr h)), .inl (.inr (.inl h)), .inl (.inl h), .inr h]

/-- The neighbours are vertices. -/
theorem mem_vertexSet_of_mem_edgesAt {es : List (Address × Address)} {v u : Address}
    (h : u ∈ (ofEdges es).edgesAt v) : u ∈ (ofEdges es).vertexSet := by
  rw [edgesAt_ofEdges, mem_neighbours_ofEdges] at h
  refine mem_vertexSet_addEdges.2 (.inr ?_)
  rcases h with h | h
  · exact ⟨_, h, .inr rfl⟩
  · exact ⟨_, h, .inl rfl⟩

/-- A vertex of the graph is the neighbour of another. -/
theorem exists_mem_edgesAt {es : List (Address × Address)} {v : Address}
    (h : v ∈ (ofEdges es).vertexSet) : ∃ u, v ∈ (ofEdges es).edgesAt u := by
  rcases mem_vertexSet_addEdges.1 h with h | ⟨⟨a, b⟩, he, rfl | rfl⟩
  · exact absurd h (Finset.notMem_empty v)
  · refine ⟨b, ?_⟩
    rw [edgesAt_ofEdges, mem_neighbours_ofEdges]
    exact .inr he
  · refine ⟨a, ?_⟩
    rw [edgesAt_ofEdges, mem_neighbours_ofEdges]
    exact .inl he

end Graph

/-! ## Counters indexed by the shards -/

theorem bump_range {n k : ℕ} (W : ℕ → ℤ) (d : ℤ) (hk : k < n) :
    bump ((List.range n).map W) k d =
      some ((List.range n).map fun i => W i + if i = k then d else 0) := by
  unfold bump
  rw [if_pos (by simpa using hk)]
  congr 1
  refine List.ext_getElem (by simp) ?_
  intro i hi hi'
  by_cases h : i = k
  · subst h
    simp
  · simp [h, Ne.symm h]

/-- An edge with ends in shards `a` and `b` belongs to shard `k`. -/
def touches (k a b : ℕ) : ℤ := if a = k ∨ b = k then 1 else 0

/-- An edge with ends in shards `a` and `b` crosses. -/
def crosses (a b : ℕ) : ℤ := if a = b then 0 else 1

theorem touches_comm (k a b : ℕ) : touches k a b = touches k b a := by
  simp only [touches, or_comm]

theorem crosses_comm (a b : ℕ) : crosses a b = crosses b a := by
  simp only [crosses, eq_comm]

namespace CLPAState

variable {F : Type} {cs : CLPAState F} {es : List (Address × Address)}

/-! ## The edge counters, from scratch -/

/-- The state with its edge counters taken from the list of edges. -/
def countEdges (cs : CLPAState F) (es : List (Address × Address)) : CLPAState F :=
  let edges := (List.range cs.shardNum).map fun k => total (touches k) cs.shardOf es
  { cs with
    edges2Shard := edges
    crossShardEdgeNum := total crosses cs.shardOf es
    minEdges2Shard := minEdges edges }

theorem countP_eq_sum (us : List Address) (k : ℕ) :
    (us.countP (fun u => cs.shardOf u = k) : ℤ) =
      (us.map fun u => if cs.shardOf u = k then (1 : ℤ) else 0).sum := by
  induction us with
  | nil => rfl
  | cons u us ih =>
    rw [List.countP_cons, List.map_cons, List.sum_cons, ← ih]
    by_cases hu : cs.shardOf u = k <;> simp [hu, add_comm]

/-- What the loops over the adjacency lists count, as a count over the edges in both directions. -/
theorem edgesInto_eq (hgraph : cs.netGraph = .ofEdges es) (p : ℕ → Bool) (k : ℕ) :
    cs.edgesInto (fun v => p (cs.shardOf v)) k =
      total (fun a b => (if p a ∧ b = k then 1 else 0) + (if p b ∧ a = k then (1 : ℤ) else 0))
        cs.shardOf es := by
  unfold edgesInto total
  rw [hgraph, Graph.edgeSet_ofEdges, ← sumBy_ofEdges es fun v u =>
    if p (cs.shardOf v) ∧ cs.shardOf u = k then (1 : ℤ) else 0]
  refine Finmap.sumBy_congr fun v us _ => ?_
  by_cases hp : p (cs.shardOf v) = true
  · simp [hp, countP_eq_sum]
  · simp [hp]

/-- The edges that enter a shard from another one. -/
theorem edgesInto_crossing (hgraph : cs.netGraph = .ofEdges es) (k : ℕ) :
    cs.edgesInto (fun v => cs.shardOf v ≠ k) k =
      total (fun a b => if a ≠ b ∧ (a = k ∨ b = k) then 1 else 0) cs.shardOf es := by
  rw [edgesInto_eq hgraph (fun a => a ≠ k) k]
  refine total_congr fun e _ => ?_
  simp only [decide_eq_true_eq]
  split_ifs <;> omega

/-- Both ends of an edge inside a shard are met. -/
theorem edgesInto_inside (hgraph : cs.netGraph = .ofEdges es) (k : ℕ) :
    cs.edgesInto (fun v => cs.shardOf v = k) k =
      2 * total (fun a b => if a = k ∧ b = k then 1 else 0) cs.shardOf es := by
  rw [edgesInto_eq hgraph (fun a => a = k) k, two_mul, ← total_add]
  refine total_congr fun e _ => ?_
  simp only [decide_eq_true_eq, and_comm]

/-- An edge between two shards is counted at both. -/
theorem sum_range_crossing {n a b : ℕ} (ha : a < n) (hb : b < n) :
    ((List.range n).map fun k => if a ≠ b ∧ (a = k ∨ b = k) then (1 : ℤ) else 0).sum =
      crosses a b + crosses a b := by
  by_cases hab : a = b
  · simp [hab, crosses]
  · have hsplit : ∀ k ∈ List.range n, (if a ≠ b ∧ (a = k ∨ b = k) then (1 : ℤ) else 0) =
        (if a = k then 1 else 0) + (if b = k then 1 else 0) := by
      intro k _
      split_ifs <;> omega
    have hone : ∀ c < n, ((List.range n).map fun k => if c = k then (1 : ℤ) else 0).sum = 1 := by
      intro c hc
      have hsum := Finset.sum_ite_eq (Finset.range n) c fun _ => (1 : ℤ)
      rw [if_pos (Finset.mem_range.2 hc)] at hsum
      exact hsum
    rw [List.map_congr_left hsplit, List.sum_map_add, hone a ha, hone b hb, crosses, if_neg hab]

/-- `ComputeEdges2Shard` counts the edges that belong to each shard, and those that cross. -/
theorem computeEdges2Shard_eq (hgraph : cs.netGraph = .ofEdges es)
    (hrange : ∀ v ∈ cs.netGraph.vertexSet, cs.shardOf v < cs.shardNum) :
    cs.computeEdges2Shard = some (cs.countEdges es) := by
  have hends : ∀ v lst, cs.netGraph.edgeSet.lookup v = some lst →
      ∀ u ∈ lst, cs.shardOf u < cs.shardNum := by
    intro v lst hlst u hu
    refine hrange u ?_
    rw [hgraph] at hlst ⊢
    refine Graph.mem_vertexSet_of_mem_edgesAt (v := v) ?_
    rwa [Graph.edgesAt, hlst]
  have hedges : (((List.range cs.shardNum).map fun k =>
        cs.edgesInto (fun v => cs.shardOf v ≠ k) k).zip
      ((List.range cs.shardNum).map fun k => cs.edgesInto (fun v => cs.shardOf v = k) k)).map
        (fun p => p.1 + p.2.tdiv 2) =
      (List.range cs.shardNum).map fun k => total (touches k) cs.shardOf es := by
    rw [List.zip_map', List.map_map]
    refine List.map_congr_left fun k _ => ?_
    rw [Function.comp_apply, edgesInto_crossing hgraph, edgesInto_inside hgraph,
      Int.mul_tdiv_cancel_left _ two_ne_zero, ← total_add]
    refine total_congr fun e _ => ?_
    unfold touches
    split_ifs <;> omega
  have hcross : ((List.range cs.shardNum).map fun k =>
        cs.edgesInto (fun v => cs.shardOf v ≠ k) k).sum.tdiv 2 = total crosses cs.shardOf es := by
    rw [List.map_congr_left fun k _ => edgesInto_crossing hgraph k, sum_map_total]
    have hboth : total (fun a b => ((List.range cs.shardNum).map fun k =>
        if a ≠ b ∧ (a = k ∨ b = k) then (1 : ℤ) else 0).sum) cs.shardOf es =
        total (fun a b => crosses a b + crosses a b) cs.shardOf es := by
      refine total_congr fun e he => sum_range_crossing (hrange _ ?_) (hrange _ ?_)
      · rw [hgraph]
        exact Graph.mem_vertexSet_addEdges.2 (.inr ⟨e, he, .inl rfl⟩)
      · rw [hgraph]
        exact Graph.mem_vertexSet_addEdges.2 (.inr ⟨e, he, .inr rfl⟩)
    rw [hboth, total_add, ← two_mul, Int.mul_tdiv_cancel_left _ two_ne_zero]
  unfold computeEdges2Shard
  rw [if_pos hends]
  simp only [hedges, hcross]
  rfl

/-- Where the edges can be counted, every vertex is assigned to one of the shards. -/
theorem shardOf_lt_of_computeEdges2Shard {cs' : CLPAState F} (hgraph : cs.netGraph = .ofEdges es)
    (h : cs.computeEdges2Shard = some cs') {v : Address} (hv : v ∈ cs.netGraph.vertexSet) :
    cs.shardOf v < cs.shardNum := by
  obtain ⟨hends, -⟩ := Option.ite_none_right_eq_some.1 h
  rw [hgraph] at hv
  obtain ⟨u, hu⟩ := Graph.exists_mem_edgesAt hv
  rw [← hgraph, Graph.edgesAt] at hu
  cases hlst : cs.netGraph.edgeSet.lookup u with
  | none =>
    rw [hlst] at hu
    exact absurd hu List.not_mem_nil
  | some lst =>
    rw [hlst] at hu
    exact hends u lst hlst v hu

/-! ## The edge counters, move by move -/

/-- What the loop over the neighbours adds up. -/
theorem recount_eq (cs : CLPAState F) {n new old : ℕ} {W : ℕ → ℤ} {us : List Address} (hne : new ≠ old)
    (hlt : us ≠ [] → new < n ∧ old < n) (hW : cs.edges2Shard = (List.range n).map W) :
    cs.recount new old us = some { cs with
      edges2Shard := (List.range n).map fun k =>
        W k + (us.map fun u => touches k new (cs.shardOf u) - touches k old (cs.shardOf u)).sum
      crossShardEdgeNum := cs.crossShardEdgeNum +
        (us.map fun u => crosses new (cs.shardOf u) - crosses old (cs.shardOf u)).sum } := by
  induction us generalizing cs W with
  | nil => simp [recount, ← hW]
  | cons u us ih =>
    obtain ⟨hnew, hold⟩ := hlt (List.cons_ne_nil u us)
    have hnext : ∀ (W' : ℕ → ℤ) (c : ℤ),
        (∀ k, W' k = W k + (touches k new (cs.shardOf u) - touches k old (cs.shardOf u))) →
        c = cs.crossShardEdgeNum + (crosses new (cs.shardOf u) - crosses old (cs.shardOf u)) →
        { cs with edges2Shard := (List.range n).map W', crossShardEdgeNum := c }.recount new old us =
          some { cs with
            edges2Shard := (List.range n).map fun k => W k + ((u :: us).map fun u =>
              touches k new (cs.shardOf u) - touches k old (cs.shardOf u)).sum
            crossShardEdgeNum := cs.crossShardEdgeNum + ((u :: us).map fun u =>
              crosses new (cs.shardOf u) - crosses old (cs.shardOf u)).sum } := by
      intro W' c hW' hc
      rw [ih _ (fun _ => ⟨hnew, hold⟩) rfl]
      simp only [List.map_cons, List.sum_cons, hW', hc, ← add_assoc]
      rfl
    rw [recount, hW]
    split
    next hother =>
      rw [bump_range _ _ hnew, Option.bind_some, bump_range _ _ hold, Option.bind_some]
      refine hnext _ _ (fun k => ?_) ?_
      · unfold touches
        split_ifs <;> omega
      · unfold crosses
        split_ifs <;> omega
    next hsame =>
      split
      next heq =>
        rw [bump_range _ _ hold, Option.bind_some]
        refine hnext _ _ (fun k => ?_) ?_
        · unfold touches
          split_ifs <;> omega
        · unfold crosses
          split_ifs <;> omega
      next hneq =>
        rw [bump_range _ _ hnew, Option.bind_some]
        refine hnext _ _ (fun k => ?_) ?_
        · unfold touches
          split_ifs <;> omega
        · unfold crosses
          split_ifs <;> omega

/-- `cs.PartitionMap[v] = shard`. -/
def assign (cs : CLPAState F) (v : Address) (shard : ℕ) : CLPAState F :=
  { cs with partitionMap := Finmap.insert v shard cs.partitionMap }

/-- The counters of the vertices are set. -/
def setVertexsNum (cs : CLPAState F) (nums : List ℤ) : CLPAState F :=
  { cs with vertexsNumInShard := nums }

@[simp]
theorem assign_netGraph (cs : CLPAState F) (v : Address) (shard : ℕ) :
    (cs.assign v shard).netGraph = cs.netGraph := rfl

theorem shardOf_assign (cs : CLPAState F) (v : Address) (shard : ℕ) :
    (cs.assign v shard).shardOf = Function.update cs.shardOf v shard := by
  funext u
  by_cases hu : u = v
  · subst hu
    simp [assign, shardOf]
  · simp [assign, shardOf, hu]

/-- In a graph without loops, the neighbours of a vertex that moves keep their shards. -/
theorem map_shardOf_assign (hgraph : cs.netGraph = .ofEdges es) (hloop : ∀ e ∈ es, e.1 ≠ e.2)
    (v : Address) (new : ℕ) (g : ℕ → ℤ) :
    (cs.netGraph.edgesAt v).map (fun u => g ((cs.assign v new).shardOf u)) =
      (neighbours (Multigraph.ofEdges es) v).map fun u => g (cs.shardOf u) := by
  rw [hgraph, Graph.edgesAt_ofEdges]
  refine List.map_congr_left ?_
  intro u hu
  have huv : u ≠ v := by
    rintro rfl
    rcases mem_neighbours_ofEdges.1 hu with he | he <;> exact hloop _ he rfl
  rw [shardOf_assign, Function.update_of_ne huv]

/-- A vertex with neighbours is one of the vertices of the graph. -/
theorem mem_vertexSet_of_edgesAt_ne_nil (hgraph : cs.netGraph = .ofEdges es) {v : Address}
    (h : cs.netGraph.edgesAt v ≠ []) : v ∈ cs.netGraph.vertexSet := by
  obtain ⟨u, hu⟩ := List.exists_mem_of_ne_nil _ h
  rw [hgraph, Graph.edgesAt_ofEdges, mem_neighbours_ofEdges] at hu
  rw [hgraph]
  refine Graph.mem_vertexSet_of_mem_edgesAt (v := u) ?_
  rw [Graph.edgesAt_ofEdges, mem_neighbours_ofEdges]
  exact hu.symm

/-- All vertices are assigned to shards, and the edge counters are what the assignment says. -/
structure Recomputed (es : List (Address × Address)) (cs : CLPAState F) : Prop where
  graph : cs.netGraph = .ofEdges es
  range : ∀ v ∈ cs.netGraph.vertexSet, cs.shardOf v < cs.shardNum
  counts : cs.countEdges es = cs

theorem recomputed_countEdges (hgraph : cs.netGraph = .ofEdges es)
    (hrange : ∀ v ∈ cs.netGraph.vertexSet, cs.shardOf v < cs.shardNum) :
    Recomputed es (cs.countEdges es) :=
  ⟨hgraph, hrange, rfl⟩

theorem recomputed_of_computeEdges2Shard {cs' : CLPAState F} (hgraph : cs.netGraph = .ofEdges es)
    (h : cs.computeEdges2Shard = some cs') : Recomputed es cs' := by
  have hrange := fun v => shardOf_lt_of_computeEdges2Shard hgraph h (v := v)
  obtain rfl := Option.some.inj ((computeEdges2Shard_eq hgraph hrange).symm.trans h)
  exact recomputed_countEdges hgraph hrange

/-- To count again changes nothing. -/
theorem Recomputed.computeEdges2Shard (h : Recomputed es cs) :
    cs.computeEdges2Shard = some cs := by
  rw [computeEdges2Shard_eq h.graph h.range, h.counts]

/-- The vertices' counters are not read by those of the edges. -/
theorem Recomputed.setVertexsNum (h : Recomputed es cs) (nums : List ℤ) :
    Recomputed es (cs.setVertexsNum nums) :=
  ⟨h.graph, h.range, congrArg (fun cs : CLPAState F => cs.setVertexsNum nums) h.counts⟩

/-- **One move.** Counters that are right before the move are right after `changeShardRecompute`. -/
theorem Recomputed.changeShardRecompute_assign (h : Recomputed es cs) (hloop : ∀ e ∈ es, e.1 ≠ e.2)
    {v : Address} {new : ℕ} (hnew : new < cs.shardNum) (hne : new ≠ cs.shardOf v) :
    ∃ cs', (cs.assign v new).changeShardRecompute v (cs.shardOf v) = some cs' ∧
      (cs.assign v new).computeEdges2Shard = some cs' ∧ Recomputed es cs' := by
  have hrange : ∀ u ∈ (cs.assign v new).netGraph.vertexSet, (cs.assign v new).shardOf u <
      (cs.assign v new).shardNum := by
    intro u hu
    rw [shardOf_assign]
    by_cases huv : u = v
    · subst huv
      rwa [Function.update_self]
    · rw [Function.update_of_ne huv]
      exact h.range u hu
  refine ⟨(cs.assign v new).countEdges es, ?_, computeEdges2Shard_eq h.graph hrange,
    recomputed_countEdges h.graph hrange⟩
  have hrecount := recount_eq (cs.assign v new) hne
    (fun hnil => ⟨hnew, h.range v (mem_vertexSet_of_edgesAt_ne_nil h.graph hnil)⟩)
    (congrArg CLPAState.edges2Shard h.counts).symm
  have hedges : ∀ k, total (touches k) cs.shardOf es + ((cs.netGraph.edgesAt v).map
      fun u => touches k new ((cs.assign v new).shardOf u) -
        touches k (cs.shardOf v) ((cs.assign v new).shardOf u)).sum =
      total (touches k) (cs.assign v new).shardOf es := by
    intro k
    rw [shardOf_assign, total_update (touches_comm k) _ hloop, ← shardOf_assign]
    exact congrArg (fun l => total (touches k) cs.shardOf es + l.sum)
      (map_shardOf_assign h.graph hloop v new fun s => touches k new s - touches k (cs.shardOf v) s)
  have hcross : (cs.assign v new).crossShardEdgeNum + ((cs.netGraph.edgesAt v).map
      fun u => crosses new ((cs.assign v new).shardOf u) -
        crosses (cs.shardOf v) ((cs.assign v new).shardOf u)).sum =
      total crosses (cs.assign v new).shardOf es := by
    have hbefore : (cs.assign v new).crossShardEdgeNum = total crosses cs.shardOf es :=
      (congrArg CLPAState.crossShardEdgeNum h.counts).symm
    rw [hbefore, shardOf_assign, total_update crosses_comm _ hloop, ← shardOf_assign]
    exact congrArg (fun l => total crosses cs.shardOf es + l.sum)
      (map_shardOf_assign h.graph hloop v new fun s => crosses new s - crosses (cs.shardOf v) s)
  have hself : (cs.assign v new).shardOf v = new := by rw [shardOf_assign, Function.update_self]
  rw [changeShardRecompute, hself, assign_netGraph, hrecount]
  simp only [hedges, hcross]
  rfl

end CLPAState

/-! ## Any scores

The score of a shard reads the counter of its edges; what it makes of it, and of the state otherwise,
is left open here. -/

namespace CLPAState

variable {F : Type} [ScoreArith F]

open ScoreArith

/-- The formula of `getShard_score`, with the counter of the shard's edges. -/
def shardScore (cs : CLPAState F) (v : Address) (uShard : ℕ) (edges : ℤ) : F :=
  mul (div (ofInt ((cs.netGraph.edgesAt v).countP fun item => cs.shardOf item = uShard : ℕ))
      (ofInt (cs.netGraph.edgesAt v).length))
    (sub (ofInt 1) (div (mul cs.weightPenalty (ofInt edges)) (ofInt cs.minEdges2Shard)))

variable (score : CLPAState F → Address → ℕ → ℤ → F)

/-- A score that reads the counter of the shard's edges. -/
def scoreAt (cs : CLPAState F) (v : Address) (uShard : ℕ) : Option F :=
  cs.edges2Shard[uShard]?.map (score cs v uShard)

/-- The loop over the neighbours of `v`, with these scores. -/
def bestShardBy (cs : CLPAState F) (v : Address) :
    List Address → Finset ℕ → F → ℕ → Option ℕ
  | [], _, _, maxScoreShard => some maxScoreShard
  | u :: us, computed, maxScore, maxScoreShard =>
    let uShard := cs.shardOf u
    if uShard ∈ computed then cs.bestShardBy v us computed maxScore maxScoreShard
    else
      (cs.scoreAt score v uShard).bind fun score =>
        if lt maxScore score then cs.bestShardBy v us (insert uShard computed) score uShard
        else cs.bestShardBy v us (insert uShard computed) maxScore maxScoreShard

end CLPAState

namespace ClpaRun

variable {F : Type} [ScoreArith F] (score : CLPAState F → Address → ℕ → ℤ → F)

/-- The body of the loop over the vertices, with these scores. -/
def visitBy (r : ClpaRun F) (v : Address) : Option (ClpaRun F) :=
  if 50 ≤ r.updateTreshold v then some r
  else
    let vNowShard := r.cs.shardOf v
    (r.cs.bestShardBy score v (r.cs.netGraph.edgesAt v) ∅ ScoreArith.lowest vNowShard).bind
      fun best =>
        if vNowShard = best then some r
        else r.cs.vertexsNumInShard[vNowShard]?.bind fun num =>
          if 1 < num then r.move v vNowShard best else some r

/-- Visit the vertices in turn, with these scores. -/
def visitsBy (r : ClpaRun F) : List Address → Option (ClpaRun F)
  | [] => some r
  | v :: vs => (r.visitBy score v).bind fun r => r.visitsBy vs

/-- The variables before the first visit. -/
def start (cs : CLPAState F) : ClpaRun F := { cs := cs, res := ∅, updateTreshold := fun _ => 0 }

end ClpaRun

namespace CLPAState

variable {F : Type} [ScoreArith F]

/-- Each iteration visits every vertex once. -/
def ValidOrders (cs : CLPAState F) (orders : List (List Address)) : Prop :=
  orders.length = cs.maxIterations ∧
    ∀ order ∈ orders, order.Nodup ∧ order.toFinset = cs.netGraph.vertexSet

instance (cs : CLPAState F) (orders : List (List Address)) : Decidable (cs.ValidOrders orders) :=
  inferInstanceAs (Decidable (_ ∧ _))

/-- `CLPA_Partition` with these scores. -/
def clpaPartitionBy (score : CLPAState F → Address → ℕ → ℤ → F) (cs : CLPAState F)
    (orders : List (List Address)) : Option (CLPAState F × ShardMap × ℤ) :=
  if cs.ValidOrders orders then
    cs.computeEdges2Shard.bind fun cs =>
      ((ClpaRun.start cs).visitsBy score orders.flatten).bind
        fun r => r.cs.computeEdges2Shard.map fun cs => (cs, r.res, cs.crossShardEdgeNum)
  else none

/-- The scores of the source are one choice. -/
theorem bestShard_eq (cs : CLPAState F) (v : Address) (us : List Address) (computed : Finset ℕ)
    (maxScore : F) (maxScoreShard : ℕ) :
    cs.bestShard v us computed maxScore maxScoreShard =
      cs.bestShardBy shardScore v us computed maxScore maxScoreShard := by
  induction us generalizing computed maxScore maxScoreShard with
  | nil => rfl
  | cons u us ih =>
    rw [bestShard, bestShardBy]
    simp only [ih]
    rfl

end CLPAState

theorem ClpaRun.visits_eq {F : Type} [ScoreArith F] (r : ClpaRun F) (vs : List Address) :
    r.visits vs = r.visitsBy CLPAState.shardScore vs := by
  induction vs generalizing r with
  | nil => rfl
  | cons v vs ih =>
    rw [visits, visitsBy, visit, visitBy]
    simp only [CLPAState.bestShard_eq, ih]

theorem CLPAState.clpaPartition_eq {F : Type} [ScoreArith F] (cs : CLPAState F)
    (orders : List (List Address)) :
    cs.clpaPartition orders = cs.clpaPartitionBy shardScore orders := by
  unfold clpaPartition clpaPartitionBy
  simp only [ClpaRun.visits_eq]
  rfl

/-! ## What a visit can do -/

namespace ClpaRun

variable {F : Type}

/-- Nothing, or a move to the shard of a neighbour from a shard that has another vertex. -/
inductive Visited (r : ClpaRun F) (v : Address) : ClpaRun F → Prop
  | stays : Visited r v r
  | moves {u : Address} {num : ℤ} {r' : ClpaRun F} (neighbour : u ∈ r.cs.netGraph.edgesAt v)
      (other : r.cs.shardOf u ≠ r.cs.shardOf v)
      (counter : r.cs.vertexsNumInShard[r.cs.shardOf v]? = some num) (more : 1 < num)
      (moved : r.move v (r.cs.shardOf v) (r.cs.shardOf u) = some r') : Visited r v r'

/-- A move, with the counters of the vertices set apart. -/
theorem move_cases {r r' : ClpaRun F} {v : Address} {now best : ℕ}
    (h : r.move v now best = some r') :
    ∃ nums nums', bump r.cs.vertexsNumInShard now (-1) = some nums ∧
      bump nums best 1 = some nums' ∧
      ((r.cs.setVertexsNum nums').assign v best).changeShardRecompute v now = some r'.cs := by
  obtain ⟨nums, hnums, h⟩ := Option.bind_eq_some_iff.1 h
  obtain ⟨nums', hnums', h⟩ := Option.bind_eq_some_iff.1 h
  obtain ⟨cs, hcs, rfl⟩ := Option.map_eq_some_iff.1 h
  exact ⟨nums, nums', hnums, hnums', hcs⟩

/-- **One visit** keeps the edge counters right. -/
theorem recomputed_visited {es : List (Address × Address)} (hloop : ∀ e ∈ es, e.1 ≠ e.2)
    {r r' : ClpaRun F} {v : Address} (h : CLPAState.Recomputed es r.cs) (hs : Visited r v r') :
    CLPAState.Recomputed es r'.cs := by
  cases hs with
  | stays => exact h
  | @moves u num _ hu hother hnum hmore hmoved =>
    obtain ⟨nums, nums', -, -, hcs⟩ := move_cases hmoved
    have hvertex : u ∈ r.cs.netGraph.vertexSet := by
      rw [h.graph] at hu ⊢
      exact Graph.mem_vertexSet_of_mem_edgesAt hu
    obtain ⟨cs', hmove, -, hcs'⟩ := (h.setVertexsNum nums').changeShardRecompute_assign hloop
      (h.range u hvertex) hother
    obtain rfl := Option.some.inj (hmove.symm.trans hcs)
    exact hcs'

variable [ScoreArith F] {score : CLPAState F → Address → ℕ → ℤ → F}

/-- The best shard is the one so far or that of a neighbour. -/
theorem bestShardBy_cases {cs : CLPAState F} {v : Address} {us : List Address}
    {computed : Finset ℕ} {maxScore : F} {maxScoreShard best : ℕ}
    (h : cs.bestShardBy score v us computed maxScore maxScoreShard = some best) :
    best = maxScoreShard ∨ ∃ u ∈ us, best = cs.shardOf u := by
  induction us generalizing computed maxScore maxScoreShard with
  | nil => exact .inl (Option.some.inj h).symm
  | cons u us ih =>
    have hrest : best = maxScoreShard ∨ best = cs.shardOf u ∨ ∃ u ∈ us, best = cs.shardOf u := by
      rw [CLPAState.bestShardBy] at h
      split at h
      · exact (ih h).imp id .inr
      · obtain ⟨score, -, h⟩ := Option.bind_eq_some_iff.1 h
        split at h
        · exact .inr (ih h)
        · exact (ih h).imp id .inr
    rcases hrest with h | h | ⟨w, hw, h⟩
    · exact .inl h
    · exact .inr ⟨u, List.mem_cons_self, h⟩
    · exact .inr ⟨w, List.mem_cons_of_mem u hw, h⟩

theorem visited_of_visitBy {r r' : ClpaRun F} {v : Address} (h : r.visitBy score v = some r') :
    Visited r v r' := by
  unfold visitBy at h
  split at h
  · obtain rfl := Option.some.inj h
    exact .stays
  obtain ⟨best, hbest, h⟩ := Option.bind_eq_some_iff.1 h
  split at h
  · obtain rfl := Option.some.inj h
    exact .stays
  next hother =>
    obtain ⟨num, hnum, h⟩ := Option.bind_eq_some_iff.1 h
    split at h
    next hmore =>
      rcases bestShardBy_cases hbest with heq | ⟨u, hu, rfl⟩
      · exact absurd heq.symm hother
      · exact .moves hu (Ne.symm hother) hnum hmore h
    next =>
      obtain rfl := Option.some.inj h
      exact .stays

/-- What every visit preserves, all visits preserve. -/
theorem visitsBy_invariant {I : ClpaRun F → Prop}
    (hstep : ∀ r v r', I r → Visited r v r' → I r') {r r' : ClpaRun F} {vs : List Address}
    (h : I r) (hs : r.visitsBy score vs = some r') : I r' := by
  induction vs generalizing r with
  | nil =>
    obtain rfl := Option.some.inj hs
    exact h
  | cons v vs ih =>
    obtain ⟨r₁, hr₁, hs⟩ := Option.bind_eq_some_iff.1 hs
    exact ih (hstep r v r₁ h (visited_of_visitBy hr₁)) hs

end ClpaRun

/-- **The incremental counters are the recomputed ones.** In a graph built from edges between different
    accounts, with all accounts assigned to one of the shards: a move of any account to another shard,
    followed by `changeShardRecompute`, makes of counters that are right what `ComputeEdges2Shard`
    yields after the move. So the counters are right after any visits of `CLPA_Partition`, in any
    order. -/
theorem incremental_counts_eq_recomputed {F : Type} [ScoreArith F] {cs : CLPAState F}
    {es : List (Address × Address)} (hloop : ∀ e ∈ es, e.1 ≠ e.2)
    (hgraph : cs.netGraph = .ofEdges es)
    (hmap : ∀ v ∈ cs.netGraph.vertexSet, cs.shardOf v < cs.shardNum) :
    (∀ v new, new < cs.shardNum → new ≠ cs.shardOf v → cs.computeEdges2Shard = some cs →
      ∃ cs', (cs.assign v new).changeShardRecompute v (cs.shardOf v) = some cs' ∧
        (cs.assign v new).computeEdges2Shard = some cs') ∧
    ∃ cs₁, cs.computeEdges2Shard = some cs₁ ∧
      ∀ vs r, (ClpaRun.start cs₁).visits vs = some r → r.cs.computeEdges2Shard = some r.cs := by
  constructor
  · intro v new hnew hne hcounts
    obtain ⟨cs', hchange, hcompute, -⟩ :=
      (CLPAState.recomputed_of_computeEdges2Shard hgraph hcounts).changeShardRecompute_assign
        hloop hnew hne
    exact ⟨cs', hchange, hcompute⟩
  · refine ⟨_, CLPAState.computeEdges2Shard_eq hgraph hmap, ?_⟩
    intro vs r hr
    rw [ClpaRun.visits_eq] at hr
    have hend : CLPAState.Recomputed es r.cs :=
      ClpaRun.visitsBy_invariant (fun _ _ _ => ClpaRun.recomputed_visited hloop)
        (CLPAState.recomputed_countEdges hgraph hmap) hr
    exact hend.computeEdges2Shard

/-! ### Four accounts -/

section Sample

open BlockChain ShardWorld

/-- Alice deals with bob and twice with dave, and carol with dave. -/
def fourAccounts : List (Address × Address) :=
  [(alice, bob), (alice, dave), (dave, alice), (carol, dave)]

/-- Their graph, with alice and carol in one shard and bob and dave in the other. -/
def twoAndTwo : CLPAState ℚ :=
  { CLPAState.init (1 / 2) 2 2 with
    netGraph := .ofEdges fourAccounts
    partitionMap := Finmap.insert alice 0 (Finmap.insert carol 0
      (Finmap.insert bob 1 (Finmap.insert dave 1 ∅)))
    vertexsNumInShard := [2, 2] }

/-- Alice moves to the shard of bob and dave, and the counters follow. -/
theorem incremental_counts_of_twoAndTwo :
    ∃ cs₁ r, twoAndTwo.computeEdges2Shard = some cs₁ ∧
      (ClpaRun.start cs₁).visits [alice, bob] = some r ∧
      cs₁.edges2Shard = [4, 4] ∧ cs₁.crossShardEdgeNum = 4 ∧
      r.cs.edges2Shard = [1, 4] ∧ r.cs.crossShardEdgeNum = 1 ∧
      r.cs.computeEdges2Shard = some r.cs := by
  obtain ⟨-, cs₁, hcs₁, hvisits⟩ := @incremental_counts_eq_recomputed ℚ _ twoAndTwo
    fourAccounts (by decide +kernel) rfl (by decide +kernel)
  have hrun : ∃ r ∈ twoAndTwo.computeEdges2Shard.bind
      fun cs => if cs.edges2Shard = [4, 4] ∧ cs.crossShardEdgeNum = 4 then
        (ClpaRun.start cs).visits [alice, bob] else none,
      r.cs.edges2Shard = [1, 4] ∧ r.cs.crossShardEdgeNum = 1 := by decide +kernel
  obtain ⟨r, hr, hafter⟩ := hrun
  rw [hcs₁, Option.bind_some] at hr
  obtain ⟨hbefore, hr⟩ := Option.ite_none_right_eq_some.1 hr
  exact ⟨cs₁, r, hcs₁, hr, hbefore.1, hbefore.2, hafter.1, hafter.2, hvisits _ r hr⟩

end Sample

end BlockEmulator
