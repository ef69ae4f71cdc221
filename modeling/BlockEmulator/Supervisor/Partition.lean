import BlockEmulator.Lib.FiniteMap
import BlockEmulator.Shard.Leader

set_option autoImplicit false

/-! # The partition algorithm

`partition/graph.go` and `partition/partition_CLPA.go`: the graph of the accounts that have dealt with
each other, and the constrained label propagation that assigns them to shards. A vertex is its address.

The score of a shard is a floating-point number; the arithmetic is a parameter (`ScoreArith`), with the
machine's floating-point numbers as one instance. The edge counts are sums over the edge lists of all
vertices and do not depend on the order a Go map is visited in; the order in which the vertices are
visited in each iteration does matter, and is an argument. `none` is an index out of range.

What the algorithm returns is the assignments it has changed, each with the last value it has got: laid
over the assignment it started from, they are the assignment it ends with. -/

namespace BlockEmulator

/-! ## The graph -/

/-- `partition.Graph`. -/
structure Graph where
  vertexSet : Finset Address := ∅
  edgeSet : Finmap (fun _ : Address => List Address) := ∅

namespace Graph

def addVertex (g : Graph) (v : Address) : Graph := { g with vertexSet := insert v g.vertexSet }

/-- The edges at a vertex. -/
def edgesAt (g : Graph) (v : Address) : List Address := (g.edgeSet.lookup v).getD []

def addHalfEdge (g : Graph) (u v : Address) : Graph :=
  { g with edgeSet := Finmap.insert u (g.edgesAt u ++ [v]) g.edgeSet }

/-- `Graph.AddEdge`: an edge in both directions, and its ends. -/
def addEdge (g : Graph) (u v : Address) : Graph :=
  ((((g.addVertex u).addVertex v).addHalfEdge u v).addHalfEdge v u)

@[simp]
theorem addEdge_vertexSet (g : Graph) (u v : Address) :
    (g.addEdge u v).vertexSet = insert v (insert u g.vertexSet) := rfl

end Graph

/-! ## Scores -/

/-- The floating-point arithmetic of `getShard_score`. -/
class ScoreArith (F : Type) where
  ofInt : ℤ → F
  sub : F → F → F
  mul : F → F → F
  div : F → F → F
  lt : F → F → Bool
  /-- The literal `0.5`. -/
  half : F
  /-- The literal `-9999.0`. -/
  lowest : F

instance : ScoreArith Float where
  ofInt := Float.ofInt
  sub := (· - ·)
  mul := (· * ·)
  div := (· / ·)
  lt := fun x y => decide (x < y)
  half := 0.5
  lowest := -9999.0

/-! ## The state of the algorithm -/

/-- `partition.CLPAState`, without `GraphHash`, which nothing reads. -/
structure CLPAState (F : Type) where
  netGraph : Graph
  partitionMap : ShardMap
  edges2Shard : List ℤ
  vertexsNumInShard : List ℤ
  weightPenalty : F
  minEdges2Shard : ℤ
  maxIterations : ℕ
  crossShardEdgeNum : ℤ
  shardNum : ℕ

/-- `l[k] += d`. -/
def bump (l : List ℤ) (k : ℕ) (d : ℤ) : Option (List ℤ) :=
  if k < l.length then some (l.modify k (· + d)) else none

/-- `math.MaxInt`. -/
def maxInt : ℤ := 2 ^ 63 - 1

/-- The loops that set `MinEdges2Shard`. -/
def minEdges (edges2Shard : List ℤ) : ℤ :=
  edges2Shard.foldl (fun least val => if val < least then val else least) maxInt

namespace CLPAState

variable {F : Type}

/-- `Init_CLPAState` on a new state. -/
def init (wp : F) (mIter sn : ℕ) : CLPAState F where
  netGraph := {}
  partitionMap := ∅
  edges2Shard := []
  vertexsNumInShard := List.replicate sn 0
  weightPenalty := wp
  minEdges2Shard := 0
  maxIterations := mIter
  crossShardEdgeNum := 0
  shardNum := sn

/-- `cs.PartitionMap[v]`, which is zero for a key that is not there. -/
def shardOf (cs : CLPAState F) (v : Address) : ℕ := (cs.partitionMap.lookup v).getD 0

/-- `CLPAState.AddVertex`, with `Addr2Shard` over `S` shards. -/
def addVertex (S : ℕ) (cs : CLPAState F) (v : Address) : Option (CLPAState F) :=
  let shard := (cs.partitionMap.lookup v).getD (addr2Shard S v)
  (bump cs.vertexsNumInShard shard 1).map fun nums =>
    { cs with
      netGraph := cs.netGraph.addVertex v
      partitionMap := Finmap.insert v shard cs.partitionMap
      vertexsNumInShard := nums }

/-- An end of a new edge. -/
def ensureVertex (S : ℕ) (cs : CLPAState F) (v : Address) : Option (CLPAState F) :=
  if v ∈ cs.netGraph.vertexSet then some cs else cs.addVertex S v

/-- `CLPAState.AddEdge`. -/
def addEdge (S : ℕ) (cs : CLPAState F) (u v : Address) : Option (CLPAState F) :=
  (cs.ensureVertex S u).bind fun cs =>
    (cs.ensureVertex S v).map fun cs => { cs with netGraph := cs.netGraph.addEdge u v }

/-- Over all edge lists, the edges of vertices with `p` that end in shard `k`. -/
def edgesInto (cs : CLPAState F) (p : Address → Bool) (k : ℕ) : ℤ :=
  cs.netGraph.edgeSet.sumBy fun v lst =>
    if p v then (lst.countP fun u => cs.shardOf u = k : ℕ) else 0

/-- `ComputeEdges2Shard`. -/
def computeEdges2Shard (cs : CLPAState F) : Option (CLPAState F) :=
  if ∀ v lst, cs.netGraph.edgeSet.lookup v = some lst → ∀ u ∈ lst, cs.shardOf u < cs.shardNum then
    let crossing := (List.range cs.shardNum).map fun k => cs.edgesInto (fun v => cs.shardOf v ≠ k) k
    let interEdge := (List.range cs.shardNum).map fun k => cs.edgesInto (fun v => cs.shardOf v = k) k
    let edges := (crossing.zip interEdge).map fun p => p.1 + p.2.tdiv 2
    some { cs with
      edges2Shard := edges
      crossShardEdgeNum := crossing.sum.tdiv 2
      minEdges2Shard := minEdges edges }
  else none

/-- The loop of `changeShardRecompute` over the neighbours of the vertex that has moved. -/
def recount (cs : CLPAState F) (new old : ℕ) : List Address → Option (CLPAState F)
  | [] => some cs
  | u :: us =>
    let neighborShard := cs.shardOf u
    if neighborShard ≠ new ∧ neighborShard ≠ old then
      (bump cs.edges2Shard new 1).bind fun es => (bump es old (-1)).bind fun es =>
        { cs with edges2Shard := es }.recount new old us
    else if neighborShard = new then
      (bump cs.edges2Shard old (-1)).bind fun es =>
        { cs with
          edges2Shard := es
          crossShardEdgeNum := cs.crossShardEdgeNum - 1 }.recount new old us
    else
      (bump cs.edges2Shard new 1).bind fun es =>
        { cs with
          edges2Shard := es
          crossShardEdgeNum := cs.crossShardEdgeNum + 1 }.recount new old us

/-- `changeShardRecompute`. -/
def changeShardRecompute (cs : CLPAState F) (v : Address) (old : ℕ) : Option (CLPAState F) :=
  (cs.recount (cs.shardOf v) old (cs.netGraph.edgesAt v)).map fun cs =>
    { cs with minEdges2Shard := minEdges cs.edges2Shard }

section Score

variable [ScoreArith F]

open ScoreArith

/-- `getShard_score`. -/
def getShardScore (cs : CLPAState F) (v : Address) (uShard : ℕ) : Option F :=
  let outdegree := (cs.netGraph.edgesAt v).length
  let edgesTo := (cs.netGraph.edgesAt v).countP fun item => cs.shardOf item = uShard
  cs.edges2Shard[uShard]?.map fun edges =>
    mul (div (ofInt edgesTo) (ofInt outdegree))
      (sub (ofInt 1) (div (mul cs.weightPenalty (ofInt edges)) (ofInt cs.minEdges2Shard)))

/-- The loop over the neighbours of `v`, with the shards that have a score already, the best score and
    its shard. -/
def bestShard (cs : CLPAState F) (v : Address) :
    List Address → Finset ℕ → F → ℕ → Option ℕ
  | [], _, _, maxScoreShard => some maxScoreShard
  | u :: us, computed, maxScore, maxScoreShard =>
    let uShard := cs.shardOf u
    if uShard ∈ computed then cs.bestShard v us computed maxScore maxScoreShard
    else
      (cs.getShardScore v uShard).bind fun score =>
        if lt maxScore score then cs.bestShard v us (insert uShard computed) score uShard
        else cs.bestShard v us (insert uShard computed) maxScore maxScoreShard

end Score

end CLPAState

/-! ## The algorithm -/

/-- The variables of `CLPA_Partition`. -/
structure ClpaRun (F : Type) where
  cs : CLPAState F
  res : ShardMap
  updateTreshold : Address → ℕ

namespace ClpaRun

variable {F : Type} [ScoreArith F]

/-- `v` is moved to another shard. -/
def move (r : ClpaRun F) (v : Address) (vNowShard maxScoreShard : ℕ) : Option (ClpaRun F) :=
  (bump r.cs.vertexsNumInShard vNowShard (-1)).bind fun nums =>
    (bump nums maxScoreShard 1).bind fun nums =>
      ({ r.cs with
          partitionMap := Finmap.insert v maxScoreShard r.cs.partitionMap
          vertexsNumInShard := nums }.changeShardRecompute v vNowShard).map fun cs =>
        { cs := cs
          res := Finmap.insert v maxScoreShard r.res
          updateTreshold := Function.update r.updateTreshold v (r.updateTreshold v + 1) }

/-- The body of the loop over the vertices. -/
def visit (r : ClpaRun F) (v : Address) : Option (ClpaRun F) :=
  if 50 ≤ r.updateTreshold v then some r
  else
    let vNowShard := r.cs.shardOf v
    (r.cs.bestShard v (r.cs.netGraph.edgesAt v) ∅ ScoreArith.lowest vNowShard).bind fun best =>
      if vNowShard = best then some r
      else r.cs.vertexsNumInShard[vNowShard]?.bind fun num =>
        -- a shard keeps its last vertex
        if 1 < num then r.move v vNowShard best else some r

/-- Visit the vertices in turn. -/
def visits (r : ClpaRun F) : List Address → Option (ClpaRun F)
  | [] => some r
  | v :: vs => (r.visit v).bind fun r => r.visits vs

end ClpaRun

namespace CLPAState

variable {F : Type} [ScoreArith F]

/-- `CLPA_Partition`, with the order in which each iteration visits the vertices: the state, the
    changed assignments and the number of edges across shards. -/
def clpaPartition (cs : CLPAState F) (orders : List (List Address)) :
    Option (CLPAState F × ShardMap × ℤ) :=
  if orders.length = cs.maxIterations ∧
      ∀ order ∈ orders, order.Nodup ∧ order.toFinset = cs.netGraph.vertexSet then
    cs.computeEdges2Shard.bind fun cs =>
      (ClpaRun.visits { cs := cs, res := ∅, updateTreshold := fun _ => 0 } orders.flatten).bind
        fun r => r.cs.computeEdges2Shard.map fun cs => (cs, r.res, cs.crossShardEdgeNum)
  else none

end CLPAState

/-! ## What the algorithm changes -/

namespace CLPAState

variable {F : Type} {cs cs' : CLPAState F}

/-- The two states have the same graph and the same assignment. -/
structure SameAssignment (cs cs' : CLPAState F) : Prop where
  netGraph : cs'.netGraph = cs.netGraph
  partitionMap : cs'.partitionMap = cs.partitionMap

theorem sameAssignment_recount {new old : ℕ} {us : List Address}
    (h : cs.recount new old us = some cs') : SameAssignment cs cs' := by
  induction us generalizing cs with
  | nil =>
    obtain rfl := Option.some.inj h
    exact ⟨rfl, rfl⟩
  | cons u us ih =>
    rw [recount] at h
    split at h
    · obtain ⟨es, -, h⟩ := Option.bind_eq_some_iff.1 h
      obtain ⟨es', -, h⟩ := Option.bind_eq_some_iff.1 h
      obtain ⟨hg, hp⟩ := ih h
      exact ⟨hg, hp⟩
    split at h
    · obtain ⟨es, -, h⟩ := Option.bind_eq_some_iff.1 h
      obtain ⟨hg, hp⟩ := ih h
      exact ⟨hg, hp⟩
    · obtain ⟨es, -, h⟩ := Option.bind_eq_some_iff.1 h
      obtain ⟨hg, hp⟩ := ih h
      exact ⟨hg, hp⟩

theorem sameAssignment_changeShardRecompute {v : Address} {old : ℕ}
    (h : cs.changeShardRecompute v old = some cs') : SameAssignment cs cs' := by
  obtain ⟨cs₁, h₁, rfl⟩ := Option.map_eq_some_iff.1 h
  obtain ⟨hg, hp⟩ := sameAssignment_recount h₁
  exact ⟨hg, hp⟩

theorem sameAssignment_computeEdges2Shard (h : cs.computeEdges2Shard = some cs') :
    SameAssignment cs cs' := by
  obtain ⟨-, h⟩ := Option.ite_none_right_eq_some.1 h
  obtain rfl := Option.some.inj h
  exact ⟨rfl, rfl⟩

end CLPAState

namespace ClpaRun

variable {F : Type} [ScoreArith F]

/-- A visit moves its vertex, in the assignment and in the result alike, or nothing. -/
theorem visit_cases {r r' : ClpaRun F} {v : Address} (h : r.visit v = some r') :
    r' = r ∨ ∃ s, r'.cs.partitionMap = Finmap.insert v s r.cs.partitionMap ∧
      r'.res = Finmap.insert v s r.res ∧ r'.cs.netGraph = r.cs.netGraph := by
  unfold visit at h
  split at h
  · exact .inl (Option.some.inj h).symm
  obtain ⟨best, -, h⟩ := Option.bind_eq_some_iff.1 h
  split at h
  · exact .inl (Option.some.inj h).symm
  obtain ⟨num, -, h⟩ := Option.bind_eq_some_iff.1 h
  split at h
  · obtain ⟨nums, -, h⟩ := Option.bind_eq_some_iff.1 h
    obtain ⟨nums', -, h⟩ := Option.bind_eq_some_iff.1 h
    obtain ⟨cs, hcs, rfl⟩ := Option.map_eq_some_iff.1 h
    obtain ⟨hg, hp⟩ := CLPAState.sameAssignment_changeShardRecompute hcs
    exact .inr ⟨best, hp, rfl, hg⟩
  · exact .inl (Option.some.inj h).symm

/-- The graph stays, the result has vertices only, and laid over the assignment `M` of the start it is
    the assignment now. -/
structure Tracks (g : Graph) (M : ShardMap) (r : ClpaRun F) : Prop where
  netGraph : r.cs.netGraph = g
  partitionMap : r.cs.partitionMap = r.res ∪ M
  keys : r.res.keys ⊆ g.vertexSet

/-- **One visit.** -/
theorem Tracks.visit {g : Graph} {M : ShardMap} {r r' : ClpaRun F} (h : Tracks g M r) {v : Address}
    (hv : v ∈ g.vertexSet) (hs : r.visit v = some r') : Tracks g M r' := by
  rcases visit_cases hs with rfl | ⟨s, hmap, hres, hgraph⟩
  · exact h
  · refine ⟨hgraph.trans h.netGraph, ?_, ?_⟩
    · rw [hmap, hres, h.partitionMap, Finmap.insert_union]
    · intro a ha
      rw [hres, Finmap.mem_keys, Finmap.mem_insert] at ha
      rcases ha with rfl | ha
      · exact hv
      · exact h.keys (Finmap.mem_keys.2 ha)

/-- **All visits.** -/
theorem Tracks.visits {g : Graph} {M : ShardMap} {r r' : ClpaRun F} (h : Tracks g M r)
    {vs : List Address} (hvs : ∀ v ∈ vs, v ∈ g.vertexSet) (hs : r.visits vs = some r') :
    Tracks g M r' := by
  induction vs generalizing r with
  | nil =>
    obtain rfl := Option.some.inj hs
    exact h
  | cons v vs ih =>
    obtain ⟨r₁, hr₁, hs⟩ := Option.bind_eq_some_iff.1 hs
    exact ih (h.visit (hvs v List.mem_cons_self) hr₁)
      (fun u hu => hvs u (List.mem_cons_of_mem _ hu)) hs

end ClpaRun

/-- **The changed assignments**, laid over the old assignment, are the new one; they are about vertices
    of the graph, which stays the same. -/
theorem CLPAState.clpaPartition_spec {F : Type} [ScoreArith F] {cs cs' : CLPAState F}
    {orders : List (List Address)} {mmap : ShardMap} {cross : ℤ}
    (h : cs.clpaPartition orders = some (cs', mmap, cross)) :
    cs'.netGraph = cs.netGraph ∧ cs'.partitionMap = mmap ∪ cs.partitionMap ∧
      mmap.keys ⊆ cs.netGraph.vertexSet := by
  obtain ⟨⟨-, horders⟩, h⟩ := Option.ite_none_right_eq_some.1 h
  obtain ⟨cs₁, hcs₁, h⟩ := Option.bind_eq_some_iff.1 h
  obtain ⟨r, hr, h⟩ := Option.bind_eq_some_iff.1 h
  obtain ⟨cs₂, hcs₂, heq⟩ := Option.map_eq_some_iff.1 h
  obtain ⟨rfl, rfl, -⟩ : cs₂ = cs' ∧ r.res = mmap ∧ _ := by simpa using heq
  obtain ⟨hg₁, hp₁⟩ := sameAssignment_computeEdges2Shard hcs₁
  obtain ⟨hg₂, hp₂⟩ := sameAssignment_computeEdges2Shard hcs₂
  have hstart : ClpaRun.Tracks cs.netGraph cs.partitionMap
      { cs := cs₁, res := ∅, updateTreshold := fun _ => 0 } :=
    ⟨hg₁, by rw [Finmap.empty_union]; exact hp₁, by simp⟩
  have hend := hstart.visits (fun v hv => ?_) hr
  · exact ⟨hg₂.trans hend.netGraph, hp₂.trans hend.partitionMap, hend.keys⟩
  · obtain ⟨order, horder, hmem⟩ := List.mem_flatten.1 hv
    rw [← (horders order horder).2]
    exact List.mem_toFinset.2 hmem

end BlockEmulator
