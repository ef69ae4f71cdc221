import BlockEmulator.Supervisor.PartitionPopulation

set_option autoImplicit false

/-! # The divisors of the scores

`getShard_score` divides by the number of neighbours of the vertex and by `MinEdges2Shard`, the smallest
of the counters of the edges. The first is positive whenever a score is computed, since the scores are
those of the neighbours' shards. The second is a minimum over all shards, also those that no vertex is
assigned to: such a shard has no edges, and the scores are divided by zero from the first vertex on.
Conversely every vertex has an edge, so that a shard with a vertex has one; and no shard loses its last
vertex. The divisor is positive throughout if every shard has a vertex at the start, and never
otherwise.

The calls are those that the loop over the neighbours makes, recorded as it makes them. -/

namespace BlockEmulator

open Multigraph

/-! ## The calls of a run -/

/-- One call of `getShard_score`. -/
structure ScoreCall (F : Type) where
  cs : CLPAState F
  v : Address
  uShard : ℕ

/-- The two divisors of the call are positive. -/
def ScoreCall.DividesWell {F : Type} (c : ScoreCall F) : Prop :=
  0 < (c.cs.netGraph.edgesAt c.v).length ∧ 0 < c.cs.minEdges2Shard

instance {F : Type} (c : ScoreCall F) : Decidable c.DividesWell :=
  inferInstanceAs (Decidable (_ ∧ _))

section Calls

variable {F : Type} [ScoreArith F]

/-- The loop over the neighbours of `v`, with the shards whose scores it has computed. -/
def CLPAState.bestShardLog (cs : CLPAState F) (v : Address) :
    List Address → Finset ℕ → F → ℕ → List ℕ × Option ℕ
  | [], _, _, maxScoreShard => ([], some maxScoreShard)
  | u :: us, computed, maxScore, maxScoreShard =>
    let uShard := cs.shardOf u
    if uShard ∈ computed then cs.bestShardLog v us computed maxScore maxScoreShard
    else
      match cs.getShardScore v uShard with
      | none => ([uShard], none)
      | some score =>
        let r :=
          if ScoreArith.lt maxScore score then
            cs.bestShardLog v us (insert uShard computed) score uShard
          else cs.bestShardLog v us (insert uShard computed) maxScore maxScoreShard
        (uShard :: r.1, r.2)

/-- The log is one of the algorithm's own loop. -/
theorem CLPAState.bestShardLog_snd (cs : CLPAState F) (v : Address) (us : List Address)
    (computed : Finset ℕ) (maxScore : F) (maxScoreShard : ℕ) :
    (cs.bestShardLog v us computed maxScore maxScoreShard).2 =
      cs.bestShard v us computed maxScore maxScoreShard := by
  induction us generalizing computed maxScore maxScoreShard with
  | nil => rfl
  | cons u us ih =>
    rw [bestShardLog, bestShard]
    dsimp only
    split
    · exact ih ..
    · cases cs.getShardScore v (cs.shardOf u) with
      | none => rfl
      | some score =>
        rw [Option.bind_some]
        dsimp only
        split
        · exact ih ..
        · exact ih ..

namespace ClpaRun

/-- The calls of one visit. -/
def visitCalls (r : ClpaRun F) (v : Address) : List (ScoreCall F) :=
  if 50 ≤ r.updateTreshold v then []
  else
    (r.cs.bestShardLog v (r.cs.netGraph.edgesAt v) ∅ ScoreArith.lowest (r.cs.shardOf v)).1.map
      fun uShard => ⟨r.cs, v, uShard⟩

/-- The calls of the visits of some vertices in turn. -/
def visitsCalls : ClpaRun F → List Address → List (ScoreCall F)
  | _, [] => []
  | r, v :: vs =>
    r.visitCalls v ++
      match r.visit v with
      | none => []
      | some r' => r'.visitsCalls vs

end ClpaRun

/-- The calls of `CLPA_Partition`. -/
def CLPAState.scoreCalls (cs : CLPAState F) (orders : List (List Address)) : List (ScoreCall F) :=
  match cs.computeEdges2Shard with
  | none => []
  | some cs₁ => (ClpaRun.start cs₁).visitsCalls orders.flatten

end Calls

/-! ## When the smallest counter is positive -/

theorem foldl_min_pos_iff {l : List ℤ} {least : ℤ} :
    0 < l.foldl (fun least val => if val < least then val else least) least ↔
      0 < least ∧ ∀ x ∈ l, 0 < x := by
  induction l generalizing least with
  | nil => simp
  | cons x l ih =>
    rw [List.foldl_cons, ih, List.forall_mem_cons, ← and_assoc]
    refine and_congr_left fun _ => ?_
    split <;> omega

theorem minEdges_pos_iff {l : List ℤ} : 0 < minEdges l ↔ ∀ x ∈ l, 0 < x := by
  rw [minEdges, foldl_min_pos_iff]
  exact and_iff_right (by decide)

theorem total_touches_pos_iff (k : ℕ) (f : Address → ℕ) (es : List (Address × Address)) :
    0 ≤ total (touches k) f es ∧
      (0 < total (touches k) f es ↔ ∃ e ∈ es, f e.1 = k ∨ f e.2 = k) := by
  induction es with
  | nil => simp [total]
  | cons e es ih =>
    obtain ⟨hnonneg, hpos⟩ := ih
    have hcons : total (touches k) f (e :: es) =
        touches k (f e.1) (f e.2) + total (touches k) f es := by
      simp [total]
    rw [hcons, List.exists_mem_cons_iff, ← hpos, touches]
    split
    · next hend => exact ⟨by omega, iff_of_true (by omega) (.inl hend)⟩
    · next hend => simpa [hend] using hnonneg

namespace CLPAState

variable {F : Type} {cs : CLPAState F} {es : List (Address × Address)}

/-- A shard has a vertex exactly if an edge ends in it. -/
theorem population_pos_iff (hgraph : cs.netGraph = .ofEdges es) (k : ℕ) :
    0 < cs.population k ↔ ∃ e ∈ es, cs.shardOf e.1 = k ∨ cs.shardOf e.2 = k := by
  have hvertex : ∀ v, v ∈ cs.netGraph.vertexSet ↔ ∃ e ∈ es, v = e.1 ∨ v = e.2 := fun v => by
    rw [hgraph, Graph.ofEdges, Graph.mem_vertexSet_addEdges]
    simp
  rw [population, Finset.card_pos]
  constructor
  · rintro ⟨v, hv⟩
    obtain ⟨hmem, rfl⟩ := Finset.mem_filter.1 hv
    obtain ⟨e, he, rfl | rfl⟩ := (hvertex v).1 hmem
    · exact ⟨e, he, .inl rfl⟩
    · exact ⟨e, he, .inr rfl⟩
  · rintro ⟨e, he, rfl | rfl⟩
    · exact ⟨e.1, Finset.mem_filter.2 ⟨(hvertex _).2 ⟨e, he, .inl rfl⟩, rfl⟩⟩
    · exact ⟨e.2, Finset.mem_filter.2 ⟨(hvertex _).2 ⟨e, he, .inr rfl⟩, rfl⟩⟩

/-- The smallest counter is positive exactly if every shard has a vertex. -/
theorem Recomputed.minEdges2Shard_pos_iff (h : Recomputed es cs) :
    0 < cs.minEdges2Shard ↔ ∀ k < cs.shardNum, 0 < cs.population k := by
  have hmin : cs.minEdges2Shard =
      minEdges ((List.range cs.shardNum).map fun k => total (touches k) cs.shardOf es) :=
    (congrArg CLPAState.minEdges2Shard h.counts).symm
  rw [hmin, minEdges_pos_iff, List.forall_mem_map]
  refine forall_congr' fun k => ?_
  rw [List.mem_range, population_pos_iff h.graph, (total_touches_pos_iff k cs.shardOf es).2]

theorem edgesAt_ne_nil (hgraph : cs.netGraph = .ofEdges es) {v : Address}
    (hv : v ∈ cs.netGraph.vertexSet) : cs.netGraph.edgesAt v ≠ [] := by
  rw [hgraph] at hv ⊢
  obtain ⟨u, hu⟩ := Graph.exists_mem_edgesAt hv
  rw [Graph.edgesAt_ofEdges, mem_neighbours_ofEdges] at hu
  refine List.ne_nil_of_mem (a := u) ?_
  rw [Graph.edgesAt_ofEdges, mem_neighbours_ofEdges]
  exact hu.symm

theorem recount_shardNum {cs cs' : CLPAState F} {new old : ℕ} {us : List Address}
    (h : cs.recount new old us = some cs') : cs'.shardNum = cs.shardNum := by
  induction us generalizing cs with
  | nil => rw [Option.some.inj h]
  | cons u us ih =>
    rw [recount] at h
    split at h
    · obtain ⟨_, -, h⟩ := Option.bind_eq_some_iff.1 h
      obtain ⟨_, -, h⟩ := Option.bind_eq_some_iff.1 h
      exact (ih h).trans rfl
    split at h
    · obtain ⟨_, -, h⟩ := Option.bind_eq_some_iff.1 h
      exact (ih h).trans rfl
    · obtain ⟨_, -, h⟩ := Option.bind_eq_some_iff.1 h
      exact (ih h).trans rfl

theorem addEdges_maxIterations {S : ℕ} {cs cs' : CLPAState F} {es : List (Address × Address)}
    (h : cs.addEdges S es = some cs') : cs'.maxIterations = cs.maxIterations := by
  have hvertex : ∀ {v} {cs cs' : CLPAState F}, cs.ensureVertex S v = some cs' →
      cs'.maxIterations = cs.maxIterations := by
    intro v cs cs' hs
    unfold CLPAState.ensureVertex at hs
    split at hs
    · rw [Option.some.inj hs]
    · obtain ⟨nums, -, rfl⟩ := Option.map_eq_some_iff.1 hs
      rfl
  induction es generalizing cs with
  | nil => rw [Option.some.inj h]
  | cons e es ih =>
    obtain ⟨cs₁, h₁, h⟩ := Option.bind_eq_some_iff.1 h
    obtain ⟨cs₂, h₂, h₁⟩ := Option.bind_eq_some_iff.1 h₁
    obtain ⟨cs₃, h₃, rfl⟩ := Option.map_eq_some_iff.1 h₁
    exact (ih h).trans ((hvertex h₃).trans (hvertex h₂))

/-- In the first iteration a vertex is visited. -/
theorem ValidOrders.head_visit {orders : List (List Address)} (h : cs.ValidOrders orders)
    (hiter : cs.maxIterations ≠ 0) (hne : cs.netGraph.vertexSet.Nonempty) :
    ∃ v ∈ cs.netGraph.vertexSet, ∃ vs, orders.flatten = v :: vs := by
  obtain ⟨hlen, hall⟩ := h
  cases orders with
  | nil => exact absurd hlen.symm hiter
  | cons order orders =>
    obtain ⟨-, hset⟩ := hall order List.mem_cons_self
    cases order with
    | nil => exact absurd hset.symm hne.ne_empty
    | cons v order =>
      refine ⟨v, ?_, _, rfl⟩
      rw [← hset]
      exact List.mem_toFinset.2 List.mem_cons_self

end CLPAState

namespace ClpaRun

variable {F : Type} {es : List (Address × Address)} {r r' : ClpaRun F} {v : Address}

theorem Visited.shardNum (h : Visited r v r') : r'.cs.shardNum = r.cs.shardNum := by
  cases h with
  | stays => rfl
  | moves hu hother hnum hmore hmoved =>
    obtain ⟨nums, nums', -, -, hcs⟩ := move_cases hmoved
    obtain ⟨cs, hrecount, hr'⟩ := Option.map_eq_some_iff.1 hcs
    have hnum := CLPAState.recount_shardNum hrecount
    rw [← hr']
    exact hnum

/-- The counters are right, and every shard has a vertex. -/
structure Full (es : List (Address × Address)) (r : ClpaRun F) : Prop where
  placed : Placed es r
  recomputed : r.cs.Recomputed es
  full : ∀ k < r.cs.shardNum, 0 < r.cs.population k

/-- **One visit.** -/
theorem Full.visited (hloop : ∀ e ∈ es, e.1 ≠ e.2) (h : Full es r) (hs : Visited r v r') :
    Full es r' := by
  obtain ⟨hplaced, hkeeps⟩ := h.placed.visited hs
  refine ⟨hplaced, recomputed_visited hloop h.recomputed hs, ?_⟩
  intro k hk
  rw [hs.shardNum] at hk
  exact hkeeps k (h.full k hk)

end ClpaRun

/-! ## All calls -/

section Calls

variable {F : Type} [ScoreArith F] {es : List (Address × Address)}

namespace CLPAState

/-- With a neighbour there is a call. -/
theorem bestShardLog_ne_nil (cs : CLPAState F) (v : Address) {us : List Address}
    (h : us ≠ []) (maxScore : F) (maxScoreShard : ℕ) :
    (cs.bestShardLog v us ∅ maxScore maxScoreShard).1 ≠ [] := by
  cases us with
  | nil => exact absurd rfl h
  | cons u us =>
    rw [bestShardLog]
    dsimp only
    rw [if_neg (Finset.notMem_empty _)]
    split
    · exact List.cons_ne_nil _ _
    · exact List.cons_ne_nil _ _

/-- The first vertex to be visited has a call. -/
theorem exists_mem_visitCalls (cs : CLPAState F) {v : Address} (h : cs.netGraph.edgesAt v ≠ []) :
    ∃ c, c ∈ (ClpaRun.start cs).visitCalls v := by
  refine List.exists_mem_of_ne_nil _ ?_
  have hfirst : ¬50 ≤ (ClpaRun.start cs).updateTreshold v := show ¬50 ≤ 0 by decide
  rw [ClpaRun.visitCalls, if_neg hfirst]
  exact mt List.map_eq_nil_iff.1 (cs.bestShardLog_ne_nil v h _ _)

end CLPAState

namespace ClpaRun

theorem visit_eq (r : ClpaRun F) (v : Address) :
    r.visit v = r.visitBy CLPAState.shardScore v := by
  rw [visit, visitBy]
  simp only [CLPAState.bestShard_eq]

/-- A call of a visit: its vertex has a neighbour. -/
theorem of_mem_visitCalls {r : ClpaRun F} {v : Address} {c : ScoreCall F} (h : c ∈ r.visitCalls v) :
    c.cs = r.cs ∧ c.v = v ∧ r.cs.netGraph.edgesAt v ≠ [] := by
  unfold visitCalls at h
  split at h
  · exact absurd h List.not_mem_nil
  · obtain ⟨uShard, hmem, rfl⟩ := List.mem_map.1 h
    refine ⟨rfl, rfl, fun hnil => ?_⟩
    rw [hnil] at hmem
    exact absurd hmem List.not_mem_nil

/-- What every visit preserves holds at every call. -/
theorem visitsCalls_invariant {I : ClpaRun F → Prop}
    (hstep : ∀ r v r', I r → Visited r v r' → I r') {r : ClpaRun F} {vs : List Address} (h : I r)
    {c : ScoreCall F} (hc : c ∈ r.visitsCalls vs) : ∃ r', I r' ∧ ∃ v, c ∈ r'.visitCalls v := by
  induction vs generalizing r with
  | nil => exact absurd hc List.not_mem_nil
  | cons v vs ih =>
    rw [visitsCalls] at hc
    rcases List.mem_append.1 hc with hc | hc
    · exact ⟨r, h, v, hc⟩
    · split at hc
      · exact absurd hc List.not_mem_nil
      · next r' hr' =>
          rw [visit_eq] at hr'
          exact ih (hstep r v r' h (visited_of_visitBy hr')) hc

/-- **All calls.** -/
theorem Full.dividesWell (hloop : ∀ e ∈ es, e.1 ≠ e.2) {r : ClpaRun F} (h : Full es r)
    {vs : List Address} {c : ScoreCall F} (hc : c ∈ r.visitsCalls vs) : c.DividesWell := by
  obtain ⟨r', h', v, hc⟩ := visitsCalls_invariant (fun _ _ _ => Full.visited hloop) h hc
  obtain ⟨hcs, rfl, hne⟩ := of_mem_visitCalls hc
  rw [ScoreCall.DividesWell, hcs]
  exact ⟨List.length_pos_iff.2 hne, h'.recomputed.minEdges2Shard_pos_iff.2 h'.full⟩

end ClpaRun

/-- **The divisors of the scores.** Let the graph of an epoch be built from edges between different
    accounts, at least one, over any assignments to the shards. Then at every call of `getShard_score`
    that `CLPA_Partition` makes both divisors are positive, exactly if every shard has a vertex, or no
    iteration is made at all. -/
theorem score_divisors_pos_iff {S mIter : ℕ} {wp : F} {modifiedMap : ShardMap}
    (hmap : ∀ v s, modifiedMap.lookup v = some s → s < S) (hne : es ≠ [])
    (hloop : ∀ e ∈ es, e.1 ≠ e.2) {cs : CLPAState F}
    (hcs : (CLPAState.preloaded wp mIter S modifiedMap).addEdges S es = some cs)
    {orders : List (List Address)} (horders : cs.ValidOrders orders) :
    (∀ c ∈ cs.scoreCalls orders, c.DividesWell) ↔
      mIter = 0 ∨ ∀ k < S, 0 < cs.population k := by
  obtain ⟨hpop, hnum, hgraph⟩ := (CLPAState.populated_preloaded wp mIter hmap).addEdges hcs
  have hnum : cs.shardNum = S := hnum
  have hiter : cs.maxIterations = mIter := CLPAState.addEdges_maxIterations hcs
  have hstart : (cs.countEdges es).Recomputed es :=
    CLPAState.recomputed_countEdges hgraph fun v => hpop.shardOf_lt
  have hcalls : cs.scoreCalls orders =
      (ClpaRun.start (cs.countEdges es)).visitsCalls orders.flatten := by
    rw [CLPAState.scoreCalls, CLPAState.computeEdges2Shard_eq hgraph fun v => hpop.shardOf_lt]
  rw [hcalls]
  constructor
  · intro hall
    by_cases hzero : mIter = 0
    · exact .inl hzero
    obtain ⟨e, es', rfl⟩ := List.exists_cons_of_ne_nil hne
    have hend : e.1 ∈ cs.netGraph.vertexSet := by
      rw [hgraph]
      exact Graph.mem_vertexSet_addEdges.2 (.inr ⟨e, List.mem_cons_self, .inl rfl⟩)
    obtain ⟨v, hv, vs, hvs⟩ := horders.head_visit (hiter ▸ hzero) ⟨e.1, hend⟩
    obtain ⟨c, hc⟩ := (cs.countEdges (e :: es')).exists_mem_visitCalls
      (CLPAState.edgesAt_ne_nil hgraph hv)
    obtain ⟨hat, -⟩ := ClpaRun.of_mem_visitCalls hc
    have hpos : 0 < c.cs.minEdges2Shard := by
      refine (hall c ?_).2
      rw [hvs, ClpaRun.visitsCalls]
      exact List.mem_append_left _ hc
    rw [hat] at hpos
    rw [← hnum]
    exact .inr (hstart.minEdges2Shard_pos_iff.1 hpos)
  · rintro (rfl | hfull)
    · intro c hc
      rw [List.eq_nil_of_length_eq_zero (horders.1.trans hiter)] at hc
      exact absurd hc List.not_mem_nil
    · intro c hc
      rw [← hnum] at hfull
      have hplaced : ClpaRun.Placed es (ClpaRun.start (cs.countEdges es)) :=
        ⟨⟨hpop.counted, hpop.inRange, hpop.assigned⟩, hgraph,
          by simp [ClpaRun.start, CLPAState.countEdges]⟩
      exact ClpaRun.Full.dividesWell hloop ⟨hplaced, hstart, hfull⟩ hc

end Calls

/-! ### Two accounts in one shard -/

section Sample

open BlockChain ShardWorld

/-- Alice and carol deal with each other, and no account is in the other shard: the first score is
    divided by zero. -/
theorem score_divided_by_zero :
    ∃ cs ∈ (CLPAState.init (1 / 2 : ℚ) 1 2).addEdges 2 [(alice, carol)],
      cs.ValidOrders [[alice, carol]] ∧ cs.population 1 = 0 ∧
      ∃ c ∈ cs.scoreCalls [[alice, carol]], c.v = alice ∧ c.cs.minEdges2Shard = 0 := by
  decide +kernel

/-- Bob and dave are in the other shard, and all divisors are positive. -/
theorem score_divisors_pos_of_fourAccounts :
    ∃ cs ∈ (CLPAState.preloaded (1 / 2 : ℚ) 2 2 ∅).addEdges 2 fourAccounts,
      cs.scoreCalls (List.replicate 2 [alice, bob, carol, dave]) ≠ [] ∧
      ∀ c ∈ cs.scoreCalls (List.replicate 2 [alice, bob, carol, dave]), c.DividesWell := by
  have hrun : ∃ cs ∈ (CLPAState.preloaded (1 / 2 : ℚ) 2 2 ∅).addEdges 2 fourAccounts,
      (cs.scoreCalls (List.replicate 2 [alice, bob, carol, dave])).length ≠ 0 ∧
        (∀ k < 2, 0 < cs.population k) ∧
        cs.ValidOrders (List.replicate 2 [alice, bob, carol, dave]) := by decide +kernel
  obtain ⟨cs, hcs, hcalls, hfull, horders⟩ := hrun
  refine ⟨cs, hcs, fun hnil => hcalls (List.length_eq_zero_iff.2 hnil), ?_⟩
  exact (score_divisors_pos_iff (fun v s hv => absurd hv (by simp)) (by decide)
    (by decide +kernel) hcs horders).2 (.inr hfull)

end Sample

end BlockEmulator
