import BlockEmulator.Supervisor.PartitionCounts

set_option autoImplicit false

/-! # The populations of the shards

`VertexsNumInShard[k]` is kept in three places: `AddVertex` counts a new vertex where it is assigned,
which may be where the map of an earlier epoch has it; a move of `CLPA_Partition` counts the vertex out
of one shard and into another; and `clpaReset` starts again from zero. At every moment it is the number
of vertices assigned to shard `k` (`Populated`). A move leaves a shard with another vertex only, so no
shard loses its last one, whatever the scores are. -/

namespace BlockEmulator

namespace CLPAState

variable {F : Type} {S : ℕ} {cs cs' : CLPAState F}

/-- The number of vertices assigned to a shard. -/
def population (cs : CLPAState F) (k : ℕ) : ℕ :=
  (cs.netGraph.vertexSet.filter fun v => cs.shardOf v = k).card

/-- The counters of the vertices are the populations, and every assignment is to one of the shards. -/
structure Populated (cs : CLPAState F) : Prop where
  counted : cs.vertexsNumInShard = (List.range cs.shardNum).map fun k => (cs.population k : ℤ)
  inRange : ∀ v s, cs.partitionMap.lookup v = some s → s < cs.shardNum
  assigned : ∀ v ∈ cs.netGraph.vertexSet, v ∈ cs.partitionMap

theorem Populated.shardOf_lt (h : Populated cs) {v : Address} (hv : v ∈ cs.netGraph.vertexSet) :
    cs.shardOf v < cs.shardNum := by
  obtain ⟨s, hs⟩ := Finmap.mem_iff.1 (h.assigned v hv)
  rw [shardOf, hs]
  exact h.inRange v s hs

theorem Populated.counter (h : Populated cs) {k : ℕ} (hk : k < cs.shardNum) :
    cs.vertexsNumInShard[k]? = some (cs.population k : ℤ) := by
  rw [h.counted]
  simp [hk]

/-- A vertex is assigned anew. -/
theorem population_assign {v : Address} (hv : v ∈ cs.netGraph.vertexSet) (shard k : ℕ) :
    ((cs.assign v shard).population k : ℤ) = cs.population k +
      (if k = cs.shardOf v then -1 else 0) + if k = shard then 1 else 0 := by
  have hcard := card_filter_update (f := cs.shardOf) hv shard k
  rw [← shardOf_assign] at hcard
  unfold population
  rw [assign_netGraph]
  split_ifs at hcard ⊢ <;> omega

/-- The state after `AddVertex`, but for the counter. -/
def withVertex (cs : CLPAState F) (v : Address) (shard : ℕ) : CLPAState F :=
  { cs with netGraph := cs.netGraph.addVertex v }.assign v shard

/-- A new vertex is assigned. -/
theorem population_withVertex {v : Address} (hv : v ∉ cs.netGraph.vertexSet) (shard k : ℕ) :
    ((cs.withVertex v shard).population k : ℤ) = cs.population k + if k = shard then 1 else 0 := by
  have hcard := card_filter_insert_update (f := cs.shardOf) hv shard k
  rw [← shardOf_assign] at hcard
  have hpop : (cs.withVertex v shard).population k =
      cs.population k + if shard = k then 1 else 0 := hcard
  rw [hpop]
  split_ifs <;> omega

/-! ### Building the graph -/

theorem lt_of_bump {l l' : List ℤ} {k : ℕ} {d : ℤ} (h : bump l k d = some l') : k < l.length :=
  (Option.ite_none_right_eq_some.1 h).1

theorem Populated.length (h : Populated cs) : cs.vertexsNumInShard.length = cs.shardNum := by
  rw [h.counted]
  simp

/-- The shards of the map are those of the counters, so that an entry of the map can be made. -/
theorem inRange_insert {m : ShardMap} {n shard : ℕ} {v : Address}
    (h : ∀ v s, m.lookup v = some s → s < n) (hshard : shard < n) :
    ∀ u s, (Finmap.insert v shard m).lookup u = some s → s < n := by
  intro u s hs
  by_cases huv : u = v
  · subst huv
    rw [Finmap.lookup_insert] at hs
    obtain rfl := Option.some.inj hs
    exact hshard
  · rw [Finmap.lookup_insert_of_ne _ huv] at hs
    exact h u s hs

/-- A vertex that is not there yet is counted where it is assigned. -/
theorem Populated.addVertex (h : Populated cs) {v : Address} (hv : v ∉ cs.netGraph.vertexSet)
    (hs : cs.addVertex S v = some cs') : Populated cs' := by
  obtain ⟨nums, hnums, rfl⟩ := Option.map_eq_some_iff.1 hs
  have hlt : (cs.partitionMap.lookup v).getD (addr2Shard S v) < cs.shardNum := by
    rw [← h.length]
    exact lt_of_bump hnums
  refine ⟨?_, inRange_insert h.inRange hlt, ?_⟩
  · rw [h.counted, bump_range _ _ hlt] at hnums
    rw [← Option.some.inj hnums]
    exact List.map_congr_left fun k _ => (population_withVertex hv _ k).symm
  · intro u hu
    rw [Finmap.mem_insert]
    exact (Finset.mem_insert.1 hu).imp id (h.assigned u)

theorem Populated.ensureVertex (h : Populated cs) {v : Address}
    (hs : cs.ensureVertex S v = some cs') : Populated cs' := by
  unfold CLPAState.ensureVertex at hs
  split at hs
  next hv =>
    obtain rfl := Option.some.inj hs
    exact h
  next hv => exact h.addVertex hv hs

theorem ensureVertex_shardNum {v : Address} (hs : cs.ensureVertex S v = some cs') :
    cs'.shardNum = cs.shardNum := by
  unfold CLPAState.ensureVertex at hs
  split at hs
  · rw [Option.some.inj hs]
  · obtain ⟨nums, -, rfl⟩ := Option.map_eq_some_iff.1 hs
    rfl

theorem ensureVertex_netGraph {v : Address} (hs : cs.ensureVertex S v = some cs') :
    cs'.netGraph = cs.netGraph.addVertex v := by
  unfold CLPAState.ensureVertex at hs
  split at hs
  next hv =>
    obtain rfl := Option.some.inj hs
    rw [Graph.addVertex, Finset.insert_eq_of_mem hv]
  next =>
    obtain ⟨nums, -, rfl⟩ := Option.map_eq_some_iff.1 hs
    rfl

/-- What `AddEdge` does to the graph is what the graph's own `AddEdge` does. -/
theorem addEdge_netGraph {u v : Address} (hs : cs.addEdge S u v = some cs') :
    cs'.netGraph = cs.netGraph.addEdge u v := by
  obtain ⟨cs₁, hs₁, hs⟩ := Option.bind_eq_some_iff.1 hs
  obtain ⟨cs₂, hs₂, rfl⟩ := Option.map_eq_some_iff.1 hs
  simp only [ensureVertex_netGraph hs₂, ensureVertex_netGraph hs₁]
  simp [Graph.addEdge, Graph.addVertex, Graph.addHalfEdge, Graph.edgesAt]

/-- **One edge.** -/
theorem Populated.addEdge (h : Populated cs) {u v : Address} (hs : cs.addEdge S u v = some cs') :
    Populated cs' ∧ cs'.shardNum = cs.shardNum := by
  obtain ⟨cs₁, hs₁, hs⟩ := Option.bind_eq_some_iff.1 hs
  obtain ⟨cs₂, hs₂, rfl⟩ := Option.map_eq_some_iff.1 hs
  have h₂ := (h.ensureVertex hs₁).ensureVertex hs₂
  -- both ends are vertices already
  have hset : (cs₂.netGraph.addEdge u v).vertexSet = cs₂.netGraph.vertexSet := by
    rw [Graph.addEdge_vertexSet, ensureVertex_vertexSet hs₂, ensureVertex_vertexSet hs₁]
    simp
  refine ⟨⟨?_, h₂.inRange, ?_⟩, ?_⟩
  · rw [h₂.counted]
    refine List.map_congr_left fun k _ => ?_
    unfold population
    rw [hset]
    rfl
  · rw [hset]
    exact h₂.assigned
  · exact (ensureVertex_shardNum hs₂).trans (ensureVertex_shardNum hs₁)

/-- **All edges.** -/
theorem Populated.addEdges (h : Populated cs) {es : List (Address × Address)}
    (hs : cs.addEdges S es = some cs') :
    Populated cs' ∧ cs'.shardNum = cs.shardNum ∧ cs'.netGraph = cs.netGraph.addEdges es := by
  induction es generalizing cs with
  | nil =>
    obtain rfl := Option.some.inj hs
    exact ⟨h, rfl, rfl⟩
  | cons e es ih =>
    obtain ⟨cs₁, hs₁, hs⟩ := Option.bind_eq_some_iff.1 hs
    obtain ⟨h₁, hnum₁⟩ := h.addEdge hs₁
    obtain ⟨h', hnum', hgraph⟩ := ih h₁ hs
    refine ⟨h', hnum'.trans hnum₁, ?_⟩
    rw [hgraph, addEdge_netGraph hs₁]
    rfl

/-- A vertex can be added when it is at home in one of the shards. -/
theorem Populated.ensureVertex_isSome (h : Populated cs) (hS : 0 < S) (hnum : cs.shardNum = S)
    (v : Address) : ∃ cs', cs.ensureVertex S v = some cs' := by
  have hlt : (cs.partitionMap.lookup v).getD (addr2Shard S v) < cs.vertexsNumInShard.length := by
    rw [h.length]
    cases hv : cs.partitionMap.lookup v with
    | none =>
      rw [Option.getD_none, hnum]
      exact addr2Shard_lt hS v
    | some s => exact h.inRange v s hv
  unfold CLPAState.ensureVertex
  split
  · exact ⟨_, rfl⟩
  · rw [CLPAState.addVertex, bump, if_pos hlt]
    exact ⟨_, rfl⟩

/-- Edges can always be added. -/
theorem Populated.addEdges_isSome (h : Populated cs) (hS : 0 < S) (hnum : cs.shardNum = S)
    (es : List (Address × Address)) : (cs.addEdges S es).isSome := by
  induction es generalizing cs with
  | nil => rfl
  | cons e es ih =>
    obtain ⟨cs₁, hs₁⟩ := h.ensureVertex_isSome hS hnum e.1
    obtain ⟨cs₂, hs₂⟩ := (h.ensureVertex hs₁).ensureVertex_isSome hS
      ((ensureVertex_shardNum hs₁).trans hnum) e.2
    have hs : cs.addEdge S e.1 e.2 =
        some { cs₂ with netGraph := cs₂.netGraph.addEdge e.1 e.2 } := by
      rw [CLPAState.addEdge, hs₁, Option.bind_some, hs₂, Option.map_some]
    obtain ⟨h', hnum'⟩ := h.addEdge hs
    rw [CLPAState.addEdges, hs, Option.bind_some]
    exact ih h' (hnum'.trans hnum)

/-- `Init_CLPAState`, and the assignments of earlier epochs put into the map, as `clpaReset` does. -/
def preloaded (wp : F) (mIter S : ℕ) (modifiedMap : ShardMap) : CLPAState F :=
  { init wp mIter S with partitionMap := modifiedMap }

theorem populated_preloaded (wp : F) (mIter : ℕ) {modifiedMap : ShardMap}
    (h : ∀ v s, modifiedMap.lookup v = some s → s < S) :
    Populated (preloaded wp mIter S modifiedMap) where
  counted := by
    change List.replicate S (0 : ℤ) = (List.range S).map fun _ => (0 : ℤ)
    simp
  inRange := h
  assigned := fun v hv => absurd hv (Finset.notMem_empty v)

/-! ### Moving the vertices -/

theorem bump_of_lt {l : List ℤ} {k : ℕ} (d : ℤ) (hk : k < l.length) :
    ∃ l', bump l k d = some l' ∧ l'.length = l.length :=
  ⟨l.modify k (· + d), if_pos hk, List.length_modify ..⟩

/-- The loop over the neighbours stays within the counters, and changes only those of the edges. -/
theorem recount_of_lt {new old : ℕ} (hnew : new < cs.edges2Shard.length)
    (hold : old < cs.edges2Shard.length) (us : List Address) :
    ∃ edges cross, edges.length = cs.edges2Shard.length ∧
      cs.recount new old us =
        some { cs with edges2Shard := edges, crossShardEdgeNum := cross } := by
  induction us generalizing cs with
  | nil => exact ⟨_, _, rfl, rfl⟩
  | cons u us ih =>
    have hnext : ∀ (edges : List ℤ) (cross : ℤ), edges.length = cs.edges2Shard.length →
        ∃ edges' cross', edges'.length = cs.edges2Shard.length ∧
          { cs with edges2Shard := edges, crossShardEdgeNum := cross }.recount new old us =
            some { cs with edges2Shard := edges', crossShardEdgeNum := cross' } := by
      intro edges cross hlen
      obtain ⟨edges', cross', hlen', hrec⟩ :=
        @ih { cs with edges2Shard := edges, crossShardEdgeNum := cross } (hlen ▸ hnew) (hlen ▸ hold)
      exact ⟨edges', cross', hlen'.trans hlen, hrec⟩
    obtain ⟨plus, hplus, hlenp⟩ := bump_of_lt 1 hnew
    obtain ⟨minus, hminus, hlenm⟩ := bump_of_lt (-1) hold
    obtain ⟨both, hboth, hlenb⟩ := bump_of_lt (l := plus) (-1) (hlenp ▸ hold)
    rw [recount]
    split
    · rw [hplus, Option.bind_some, hboth, Option.bind_some]
      exact hnext both _ (hlenb.trans hlenp)
    split
    · rw [hminus, Option.bind_some]
      exact hnext minus _ hlenm
    · rw [hplus, Option.bind_some]
      exact hnext plus _ hlenp

theorem changeShardRecompute_of_lt (cs : CLPAState F) {v : Address} {old : ℕ}
    (hnew : cs.shardOf v < cs.edges2Shard.length) (hold : old < cs.edges2Shard.length) :
    ∃ edges cross, edges.length = cs.edges2Shard.length ∧
      cs.changeShardRecompute v old = some { cs with
        edges2Shard := edges
        crossShardEdgeNum := cross
        minEdges2Shard := minEdges edges } := by
  obtain ⟨edges, cross, hlen, hrecount⟩ := recount_of_lt hnew hold (cs.netGraph.edgesAt v)
  refine ⟨edges, cross, hlen, ?_⟩
  rw [changeShardRecompute, hrecount]
  rfl

/-- A vertex is assigned anew, and counted out of its shard and into the new one. -/
theorem Populated.assign (h : Populated cs) {v : Address} (hv : v ∈ cs.netGraph.vertexSet)
    {best : ℕ} (hbest : best < cs.shardNum) :
    ∃ nums nums', bump cs.vertexsNumInShard (cs.shardOf v) (-1) = some nums ∧
      bump nums best 1 = some nums' ∧ Populated ((cs.assign v best).setVertexsNum nums') := by
  refine ⟨_, _, h.counted ▸ bump_range _ _ (h.shardOf_lt hv), bump_range _ _ hbest, ?_⟩
  refine ⟨?_, inRange_insert h.inRange hbest, ?_⟩
  · exact List.map_congr_left fun k _ => (population_assign hv best k).symm
  · intro u hu
    exact Finmap.mem_insert.2 (.inr (h.assigned u hu))

end CLPAState

namespace ClpaRun

variable {F : Type} {es : List (Address × Address)} {r r' : ClpaRun F} {v : Address}

/-- The counters of the vertices are right, and there is one counter of edges for each shard. -/
structure Placed (es : List (Address × Address)) (r : ClpaRun F) : Prop where
  populated : r.cs.Populated
  graph : r.cs.netGraph = .ofEdges es
  edges : r.cs.edges2Shard.length = r.cs.shardNum

theorem Placed.shardOf_lt (h : Placed es r) {u : Address} (hu : u ∈ r.cs.netGraph.edgesAt v) :
    r.cs.shardOf u < r.cs.shardNum := by
  refine h.populated.shardOf_lt ?_
  rw [h.graph] at hu ⊢
  exact Graph.mem_vertexSet_of_mem_edgesAt hu

/-- **One move** to any shard is possible, and is counted. -/
theorem Placed.move (h : Placed es r) (hv : v ∈ r.cs.netGraph.vertexSet) {best : ℕ}
    (hbest : best < r.cs.shardNum) :
    ∃ r', r.move v (r.cs.shardOf v) best = some r' ∧ Placed es r' ∧
      ∀ k, r'.cs.population k = (r.cs.assign v best).population k := by
  obtain ⟨nums, nums', hnums, hnums', hpop⟩ := h.populated.assign hv hbest
  have hself : (r.cs.assign v best).shardOf v = best := by
    rw [CLPAState.shardOf_assign, Function.update_self]
  obtain ⟨edges, cross, hlen, hchange⟩ := CLPAState.changeShardRecompute_of_lt
    ((r.cs.assign v best).setVertexsNum nums') (hself.trans_lt (hbest.trans_eq h.edges.symm))
    ((h.populated.shardOf_lt hv).trans_eq h.edges.symm)
  have hmove : r.move v (r.cs.shardOf v) best =
      (((r.cs.assign v best).setVertexsNum nums').changeShardRecompute v (r.cs.shardOf v)).map
        fun cs => { cs := cs, res := Finmap.insert v best r.res,
                    updateTreshold := Function.update r.updateTreshold v (r.updateTreshold v + 1) } := by
    rw [ClpaRun.move, hnums, Option.bind_some, hnums', Option.bind_some]
    rfl
  rw [hchange, Option.map_some] at hmove
  exact ⟨_, hmove, ⟨⟨hpop.counted, hpop.inRange, hpop.assigned⟩, h.graph, hlen.trans h.edges⟩,
    fun _ => rfl⟩

/-- **One visit** keeps the counters right, and leaves no shard without a vertex. -/
theorem Placed.visited (h : Placed es r) (hs : Visited r v r') :
    Placed es r' ∧ ∀ k, 0 < r.cs.population k → 0 < r'.cs.population k := by
  cases hs with
  | stays => exact ⟨h, fun _ hk => hk⟩
  | @moves u num _ hu hother hnum hmore hmoved =>
    have hv : v ∈ r.cs.netGraph.vertexSet :=
      CLPAState.mem_vertexSet_of_edgesAt_ne_nil h.graph (List.ne_nil_of_mem hu)
    obtain ⟨r₁, hr₁, hplaced, hpop⟩ := h.move hv (h.shardOf_lt hu)
    obtain rfl := Option.some.inj (hr₁.symm.trans hmoved)
    refine ⟨hplaced, ?_⟩
    intro k hk
    have hcounter := h.populated.counter (h.populated.shardOf_lt hv)
    obtain rfl := Option.some.inj (hcounter.symm.trans hnum)
    have hk' := CLPAState.population_assign hv (r.cs.shardOf u) k
    rw [hpop]
    by_cases hkv : k = r.cs.shardOf v
    · subst hkv
      rw [if_pos rfl] at hk'
      split_ifs at hk' <;> omega
    · rw [if_neg hkv] at hk'
      split_ifs at hk' <;> omega

variable [ScoreArith F] (score : CLPAState F → Address → ℕ → ℤ → F)

theorem bestShardBy_isSome {cs : CLPAState F} {us : List Address} {computed : Finset ℕ}
    {maxScore : F} {maxScoreShard : ℕ} (h : ∀ u ∈ us, cs.shardOf u < cs.edges2Shard.length) :
    ∃ best, cs.bestShardBy score v us computed maxScore maxScoreShard = some best := by
  induction us generalizing computed maxScore maxScoreShard with
  | nil => exact ⟨_, rfl⟩
  | cons u us ih =>
    have hrest := fun w hw => h w (List.mem_cons_of_mem u hw)
    rw [CLPAState.bestShardBy]
    split
    · exact ih hrest
    · rw [CLPAState.scoreAt, List.getElem?_eq_getElem (h u List.mem_cons_self), Option.map_some,
        Option.bind_some]
      split
      · exact ih hrest
      · exact ih hrest

/-- A visit never indexes out of range. -/
theorem Placed.visitBy_isSome (h : Placed es r) (hv : v ∈ r.cs.netGraph.vertexSet) :
    ∃ r', r.visitBy score v = some r' := by
  unfold visitBy
  split
  · exact ⟨_, rfl⟩
  have hlen : ∀ u ∈ r.cs.netGraph.edgesAt v, r.cs.shardOf u < r.cs.edges2Shard.length :=
    fun u hu => (h.shardOf_lt hu).trans_eq h.edges.symm
  obtain ⟨best, hbest⟩ := bestShardBy_isSome score (v := v) hlen
  dsimp only
  rw [hbest, Option.bind_some]
  split
  · exact ⟨_, rfl⟩
  rw [h.populated.counter (h.populated.shardOf_lt hv), Option.bind_some]
  split
  next hother _ =>
    have hlt : best < r.cs.shardNum := by
      rcases bestShardBy_cases hbest with rfl | ⟨u, hu, rfl⟩
      · exact absurd rfl hother
      · exact h.shardOf_lt hu
    obtain ⟨r', hr', -⟩ := h.move hv hlt
    exact ⟨r', hr'⟩
  · exact ⟨_, rfl⟩

/-- **All visits.** -/
theorem Placed.visitsBy (h : Placed es r) {vs : List Address}
    (hvs : ∀ v ∈ vs, v ∈ r.cs.netGraph.vertexSet) :
    ∃ r', r.visitsBy score vs = some r' ∧ Placed es r' ∧
      ∀ k, 0 < r.cs.population k → 0 < r'.cs.population k := by
  induction vs generalizing r with
  | nil => exact ⟨r, rfl, h, fun _ hk => hk⟩
  | cons v vs ih =>
    obtain ⟨r₁, hr₁⟩ := h.visitBy_isSome score (hvs v List.mem_cons_self)
    obtain ⟨h₁, hpop₁⟩ := h.visited (visited_of_visitBy hr₁)
    obtain ⟨r', hr', h', hpop'⟩ := ih h₁ fun u hu => by
      rw [h₁.graph, ← h.graph]
      exact hvs u (List.mem_cons_of_mem v hu)
    refine ⟨r', ?_, h', fun k hk => hpop' k (hpop₁ k hk)⟩
    rw [ClpaRun.visitsBy, hr₁, Option.bind_some, hr']

end ClpaRun

/-- **Exact populations.** The graph of an epoch starts with any assignments to the shards, and any
    edges are added, which is always possible. Then at every step the counters of the vertices are the
    numbers of vertices assigned to the shards, and all assignments are to one of the shards; and in
    `CLPA_Partition`, with any scores and any order of the vertices, no index is out of range, the
    counters stay exact after any visits and at the end, and a shard that has a vertex keeps one. -/
theorem populations_exact {F : Type} [ScoreArith F] (S mIter : ℕ) (wp : F) {modifiedMap : ShardMap}
    (hmap : ∀ v s, modifiedMap.lookup v = some s → s < S) (es : List (Address × Address)) :
    (0 < S → ((CLPAState.preloaded wp mIter S modifiedMap).addEdges S es).isSome) ∧
    ∀ cs, (CLPAState.preloaded wp mIter S modifiedMap).addEdges S es = some cs →
      cs.Populated ∧
      (∀ orders, cs.clpaPartition orders = cs.clpaPartitionBy CLPAState.shardScore orders) ∧
      ∀ score : CLPAState F → Address → ℕ → ℤ → F, ∃ cs₁, cs.computeEdges2Shard = some cs₁ ∧
        (∀ vs, (∀ v ∈ vs, v ∈ cs.netGraph.vertexSet) →
          ∃ r, (ClpaRun.start cs₁).visitsBy score vs = some r ∧ r.cs.Populated ∧
            ∀ k, 0 < cs.population k → 0 < r.cs.population k) ∧
        ∀ orders, cs.ValidOrders orders →
          ∃ cs' mmap cross, cs.clpaPartitionBy score orders = some (cs', mmap, cross) ∧
            cs'.Populated ∧ ∀ k, 0 < cs.population k → 0 < cs'.population k := by
  have hinit := CLPAState.populated_preloaded wp mIter hmap
  refine ⟨fun hS => hinit.addEdges_isSome hS rfl es, ?_⟩
  intro cs hcs
  obtain ⟨hpop, -, hgraph⟩ := hinit.addEdges hcs
  refine ⟨hpop, cs.clpaPartition_eq, ?_⟩
  intro score
  have hcompute := CLPAState.computeEdges2Shard_eq hgraph fun v => hpop.shardOf_lt
  have hstart : ClpaRun.Placed es (ClpaRun.start (cs.countEdges es)) :=
    ⟨⟨hpop.counted, hpop.inRange, hpop.assigned⟩, hgraph, by simp [ClpaRun.start, CLPAState.countEdges]⟩
  refine ⟨cs.countEdges es, hcompute, ?_, ?_⟩
  · intro vs hvs
    obtain ⟨r, hr, hplaced, hkeeps⟩ := hstart.visitsBy score hvs
    exact ⟨r, hr, hplaced.populated, hkeeps⟩
  · intro orders horders
    have hvs : ∀ v ∈ orders.flatten, v ∈ cs.netGraph.vertexSet := by
      intro v hv
      obtain ⟨order, horder, hmem⟩ := List.mem_flatten.1 hv
      rw [← (horders.2 order horder).2]
      exact List.mem_toFinset.2 hmem
    obtain ⟨r, hr, hplaced, hkeeps⟩ := hstart.visitsBy score hvs
    have hpop' := hplaced.populated
    refine ⟨r.cs.countEdges es, r.res, (r.cs.countEdges es).crossShardEdgeNum, ?_,
      ⟨hpop'.counted, hpop'.inRange, hpop'.assigned⟩, hkeeps⟩
    rw [CLPAState.clpaPartitionBy, if_pos horders, hcompute, Option.bind_some, hr, Option.bind_some,
      CLPAState.computeEdges2Shard_eq hplaced.graph fun v => hpop'.shardOf_lt, Option.map_some]

/-! ### Four accounts -/

section Sample

open BlockChain ShardWorld

/-- Dave has been moved to the shard of alice and carol before; bob, alone in the other shard, stays
    there, though all he deals with is elsewhere. -/
theorem populations_exact_of_fourAccounts :
    ∃ cs cs' : CLPAState ℚ, ∃ mmap cross,
      (CLPAState.preloaded (1 / 2) 2 2 (Finmap.insert dave 0 ∅)).addEdges 2 fourAccounts = some cs ∧
      cs.vertexsNumInShard = [3, 1] ∧ cs.Populated ∧
      cs.clpaPartitionBy CLPAState.shardScore (List.replicate 2 [alice, bob, carol, dave]) =
        some (cs', mmap, cross) ∧ cs'.Populated ∧ 0 < cs'.population 1 := by
  have hmap : ∀ v s, (Finmap.insert dave 0 ∅ : ShardMap).lookup v = some s → s < 2 := by decide +kernel
  have hrun : ∃ cs ∈ (CLPAState.preloaded (1 / 2 : ℚ) 2 2 (Finmap.insert dave 0 ∅)).addEdges 2
      fourAccounts, cs.vertexsNumInShard = [3, 1] ∧ 0 < cs.population 1 ∧
        cs.ValidOrders (List.replicate 2 [alice, bob, carol, dave]) := by decide +kernel
  obtain ⟨cs, hcs, hnums, hone, horders⟩ := hrun
  obtain ⟨hpop, -, hruns⟩ := (populations_exact 2 2 (1 / 2 : ℚ) hmap fourAccounts).2 cs hcs
  obtain ⟨cs₁, -, -, hpartition⟩ := hruns CLPAState.shardScore
  obtain ⟨cs', mmap, cross, hend, hpop', hkeeps⟩ := hpartition _ horders
  exact ⟨cs, cs', mmap, cross, hcs, hnums, hpop, hend, hpop', hkeeps 1 hone⟩

end Sample

end BlockEmulator
