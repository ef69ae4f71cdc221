import BlockEmulator.Shard.Migration
import BlockEmulator.Supervisor.BrokerModule
import BlockEmulator.Supervisor.Partition

set_option autoImplicit false

/-! # The CLPA committees

`supervisor/committee/committee_clpa.go` and `supervisor/committee/committee_clpa_broker.go`: the
supervisor collects the graph of the reported transactions, and in every epoch runs the partition
algorithm on it, sends the changed assignments to the shards, merges them into the map it routes
transactions by, and starts a new graph.

An assignment of accounts to shards is kept in three places: the partition map of the graph, the map of
changed assignments, and the routing map, which has no entry for an account that has never moved. What
they say is the same: under each of them every account has the same home (`homeUnder`). -/

namespace BlockEmulator

/-- The conversion to `int32`. -/
def int32 (x : ℤ) : ℤ := x.bmod (2 ^ 32)

namespace CLPAState

variable {F : Type}

/-- The loops of `HandleBlockInfo` that add edges. -/
def addEdges (S : ℕ) (cs : CLPAState F) : List (Address × Address) → Option (CLPAState F)
  | [] => some cs
  | e :: es => (cs.addEdge S e.1 e.2).bind fun cs => cs.addEdges S es

end CLPAState

/-- The ends of a transaction, as an edge. -/
def Transaction.ends (tx : Transaction) : Address × Address := (tx.sender, tx.recipient)

/-- The ends of the transfer that a half belongs to. The fields of other transactions are empty, and an
    empty address cannot be assigned to a shard. -/
def Transaction.originalEnds (tx : Transaction) : Option (Address × Address) :=
  tx.originalSender.bind fun u => tx.finalRecipient.map fun v => (u, v)

/-! ## The committee without brokers -/

/-- `CLPACommitteeModule`: the fields for epochs. -/
structure CLPACommittee (F : Type) where
  curEpoch : ℤ := 0
  clpaGraph : CLPAState F
  modifiedMap : ShardMap := ∅

namespace CLPACommittee

variable {F : Type} (S : ℕ)

/-- `fetchModifiedMap`. -/
def fetchModifiedMap (c : CLPACommittee F) (key : Address) : ℕ :=
  (c.modifiedMap.lookup key).getD (addr2Shard S key)

/-- The epoch of a report is compared with the current one and swapped for it. -/
def swapEpoch (c : CLPACommittee F) (epoch : ℤ) : CLPACommittee F :=
  if c.curEpoch = int32 (epoch - 1) then { c with curEpoch := int32 epoch } else c

/-- Edges are added to the graph. -/
def addEdges (c : CLPACommittee F) (es : List (Address × Address)) : Option (CLPACommittee F) :=
  (c.clpaGraph.addEdges S es).map fun g => { c with clpaGraph := g }

/-- `HandleBlockInfo`. -/
def handleBlockInfo (c : CLPACommittee F) (b : BlockInfoMsg) : Option (CLPACommittee F) :=
  let c := c.swapEpoch b.epoch
  if b.blockBodyLength = 0 then some c
  else c.addEdges S (b.innerShardTxs.map Transaction.ends ++ b.relay2Txs.map Transaction.ends)

variable [ScoreArith F]

/-- `Init_CLPAState(0.5, 100, params.ShardNum)` on a new state. -/
def newGraph : CLPAState F := .init ScoreArith.half 100 S

/-- `NewCLPACommitteeModule`. -/
def new : CLPACommittee F := { clpaGraph := newGraph S }

/-- `clpaReset`. -/
def clpaReset (c : CLPACommittee F) : CLPACommittee F :=
  { c with clpaGraph := { newGraph S with partitionMap := c.modifiedMap } }

/-- An epoch of `MsgSendingControl`, after `CLPA_Partition` has returned: the map is merged and the
    graph reset. -/
def endEpoch (c : CLPACommittee F) (cs : CLPAState F) (mmap : ShardMap) : CLPACommittee F :=
  { c with clpaGraph := cs, modifiedMap := mmap ∪ c.modifiedMap }.clpaReset S

/-- An epoch, with the map that `clpaMapSend` sends to the shards. -/
def clpaEpoch (c : CLPACommittee F) (orders : List (List Address)) :
    Option (CLPACommittee F × ShardMap) :=
  (c.clpaGraph.clpaPartition orders).map fun r => (c.endEpoch S r.1 r.2.1, r.2.1)

/-- Reports, and epochs with the orders in which the vertices are visited. -/
inductive Act where
  | handleBlockInfo (b : BlockInfoMsg)
  | epoch (orders : List (List Address))

def step (c : CLPACommittee F) : Act → Option (CLPACommittee F)
  | .handleBlockInfo b => c.handleBlockInfo S b
  | .epoch orders => (c.clpaEpoch S orders).map Prod.fst

end CLPACommittee

/-! ## The committee with brokers -/

/-- `CLPACommitteeMod_Broker`. -/
structure CLPACommitteeBroker (F : Type) extends CLPACommittee F where
  bcm : BrokerModule

namespace CLPACommitteeBroker

variable {F : Type} (digest : TxDigest) (rawDigest : BrokerRawMeg → List UInt8) (S : ℕ)

/-- `dealTxByBroker`: the committee, the first halves given to `txSending`, and the transactions
    returned. -/
def dealTxByBroker (now : ℕ → ℕ) (c : CLPACommitteeBroker F) (txs : List Transaction) :
    Option (CLPACommitteeBroker F × List Transaction × List Transaction) :=
  (c.bcm.dealTxByBroker digest rawDigest (c.fetchModifiedMap S) now txs).map fun r =>
    ({ c with bcm := r.1 }, r.2)

/-- `HandleBlockInfo`: the committee, and the second halves given to `txSending`. The edges are those
    of the transactions without a broker, and of the transfers whose first halves are reported. -/
def handleBlockInfo (now : ℕ → ℕ) (c : CLPACommitteeBroker F) (b : BlockInfoMsg) :
    Option (CLPACommitteeBroker F × List Transaction) :=
  let core := c.swapEpoch b.epoch
  if b.blockBodyLength = 0 then some ({ c with toCLPACommittee := core }, [])
  else
    (c.bcm.createConfirm digest rawDigest now (b.broker1Txs ++ b.broker2Txs)).bind fun r =>
      (b.broker1Txs.mapM Transaction.originalEnds).bind fun edges =>
        (core.addEdges S ((b.innerShardTxs.filter fun tx => !tx.hasBroker).map Transaction.ends ++
          edges)).map fun core => ({ toCLPACommittee := core, bcm := r.1 }, r.2)

variable [ScoreArith F]

/-- `NewCLPACommitteeMod_Broker`, with the broker addresses of the file. -/
def new (brokers : List Address) : CLPACommitteeBroker F :=
  { CLPACommittee.new S with bcm := { broker := { brokerAddress := brokers } } }

/-- An epoch, with the map that `clpaMapSend` sends to the shards. -/
def clpaEpoch (c : CLPACommitteeBroker F) (orders : List (List Address)) :
    Option (CLPACommitteeBroker F × ShardMap) :=
  (c.toCLPACommittee.clpaEpoch S orders).map fun r => ({ c with toCLPACommittee := r.1 }, r.2)

/-- Batches, reports and epochs. -/
inductive Act where
  | dealTxByBroker (now : ℕ → ℕ) (txs : List Transaction)
  | handleBlockInfo (now : ℕ → ℕ) (b : BlockInfoMsg)
  | epoch (orders : List (List Address))

def step (c : CLPACommitteeBroker F) : Act → Option (CLPACommitteeBroker F)
  | .dealTxByBroker now txs => (c.dealTxByBroker digest rawDigest S now txs).map Prod.fst
  | .handleBlockInfo now b => (c.handleBlockInfo digest rawDigest S now b).map Prod.fst
  | .epoch orders => (c.clpaEpoch S orders).map Prod.fst

end CLPACommitteeBroker

/-! ## The vertices of the graph -/

namespace CLPAState

variable {F : Type} {S : ℕ} {cs cs' : CLPAState F}

theorem ensureVertex_vertexSet {v : Address} (h : cs.ensureVertex S v = some cs') :
    cs'.netGraph.vertexSet = insert v cs.netGraph.vertexSet := by
  unfold ensureVertex at h
  split at h
  next hv =>
    obtain rfl := Option.some.inj h
    exact (Finset.insert_eq_of_mem hv).symm
  next hv =>
    obtain ⟨nums, -, rfl⟩ := Option.map_eq_some_iff.1 h
    rfl

/-- A vertex was there or is an end of a new edge. -/
theorem mem_vertexSet_addEdges {es : List (Address × Address)} (h : cs.addEdges S es = some cs')
    {v : Address} (hv : v ∈ cs'.netGraph.vertexSet) :
    v ∈ cs.netGraph.vertexSet ∨ ∃ e ∈ es, v = e.1 ∨ v = e.2 := by
  induction es generalizing cs with
  | nil =>
    obtain rfl := Option.some.inj h
    exact .inl hv
  | cons e es ih =>
    obtain ⟨cs₁, hs₁, h⟩ := Option.bind_eq_some_iff.1 h
    rcases ih h with hold | ⟨e', he', hends⟩
    · obtain ⟨cs₂, hs₂, hs₁⟩ := Option.bind_eq_some_iff.1 hs₁
      obtain ⟨cs₃, hs₃, rfl⟩ := Option.map_eq_some_iff.1 hs₁
      rw [Graph.addEdge_vertexSet, ensureVertex_vertexSet hs₃, ensureVertex_vertexSet hs₂] at hold
      simp only [Finset.mem_insert] at hold
      rcases hold with rfl | rfl | rfl | rfl | hold
      · exact .inr ⟨e, List.mem_cons_self, .inr rfl⟩
      · exact .inr ⟨e, List.mem_cons_self, .inl rfl⟩
      · exact .inr ⟨e, List.mem_cons_self, .inr rfl⟩
      · exact .inr ⟨e, List.mem_cons_self, .inl rfl⟩
      · exact .inl hold
    · exact .inr ⟨e', List.mem_cons_of_mem _ he', hends⟩

end CLPAState

/-! ## One home for every account -/

namespace CLPAState

variable {F : Type} {S : ℕ} {M : ShardMap} {cs cs' : CLPAState F}

/-- The graph assigns its vertices, and every account is at home where the map `M` has it. -/
structure Agrees (S : ℕ) (M : ShardMap) (cs : CLPAState F) : Prop where
  assigned : ∀ v ∈ cs.netGraph.vertexSet, v ∈ cs.partitionMap
  home : ∀ a, homeUnder S cs.partitionMap a = homeUnder S M a

theorem Agrees.lookup_eq (h : Agrees S M cs) {v : Address} (hv : v ∈ cs.netGraph.vertexSet) :
    cs.partitionMap.lookup v = some (homeUnder S M v) := by
  obtain ⟨s, hs⟩ := Finmap.mem_iff.1 (h.assigned v hv)
  rw [← h.home v, homeUnder, hs, Option.getD_some]

/-- A new vertex is assigned where it was at home. -/
theorem Agrees.ensureVertex (h : Agrees S M cs) {v : Address}
    (hs : cs.ensureVertex S v = some cs') : Agrees S M cs' := by
  unfold CLPAState.ensureVertex at hs
  split at hs
  · obtain rfl := Option.some.inj hs
    exact h
  · obtain ⟨nums, -, rfl⟩ := Option.map_eq_some_iff.1 hs
    constructor
    · intro u hu
      rw [Finmap.mem_insert]
      exact (Finset.mem_insert.1 hu).imp id (h.assigned u)
    · intro a
      rw [← h.home a, homeUnder, homeUnder]
      by_cases ha : a = v
      · subst ha
        rw [Finmap.lookup_insert, Option.getD_some]
      · rw [Finmap.lookup_insert_of_ne _ ha]

/-- **One edge.** -/
theorem Agrees.addEdge (h : Agrees S M cs) {u v : Address} (hs : cs.addEdge S u v = some cs') :
    Agrees S M cs' := by
  obtain ⟨cs₁, hs₁, hs⟩ := Option.bind_eq_some_iff.1 hs
  obtain ⟨cs₂, hs₂, rfl⟩ := Option.map_eq_some_iff.1 hs
  obtain ⟨hassigned, hhome⟩ := (h.ensureVertex hs₁).ensureVertex hs₂
  refine ⟨?_, hhome⟩
  -- both ends are vertices already
  intro w hw
  rw [Graph.addEdge_vertexSet, ensureVertex_vertexSet hs₂, ensureVertex_vertexSet hs₁] at hw
  refine hassigned w ?_
  rw [ensureVertex_vertexSet hs₂, ensureVertex_vertexSet hs₁]
  simpa using hw

/-- **All edges of a report.** -/
theorem Agrees.addEdges (h : Agrees S M cs) {es : List (Address × Address)}
    (hs : cs.addEdges S es = some cs') : Agrees S M cs' := by
  induction es generalizing cs with
  | nil =>
    obtain rfl := Option.some.inj hs
    exact h
  | cons e es ih =>
    obtain ⟨cs₁, hs₁, hs⟩ := Option.bind_eq_some_iff.1 hs
    exact ih (h.addEdge hs₁) hs

/-- **The partition algorithm** moves accounts in the graph as its result moves them in the map. -/
theorem Agrees.clpaPartition [ScoreArith F] (h : Agrees S M cs) {orders : List (List Address)}
    {mmap : ShardMap} {cross : ℤ} (hs : cs.clpaPartition orders = some (cs', mmap, cross)) :
    Agrees S (mmap ∪ M) cs' := by
  obtain ⟨hgraph, hmap, -⟩ := clpaPartition_spec hs
  constructor
  · intro v hv
    rw [hmap, Finmap.mem_union]
    exact .inr (h.assigned v (hgraph ▸ hv))
  · intro a
    rw [hmap, homeUnder_union, homeUnder_union, h.home]

end CLPAState

/-! ## Reports and epochs -/

namespace CLPACommittee

variable {F : Type} {S : ℕ} {c c' : CLPACommittee F}

/-- The graph and the routing map agree. -/
def Agrees (S : ℕ) (c : CLPACommittee F) : Prop := c.clpaGraph.Agrees S c.modifiedMap

theorem Agrees.swapEpoch (h : Agrees S c) (epoch : ℤ) : Agrees S (c.swapEpoch epoch) := by
  unfold CLPACommittee.swapEpoch
  split
  · exact h
  · exact h

theorem Agrees.addEdges (h : Agrees S c) {es : List (Address × Address)}
    (hs : c.addEdges S es = some c') : Agrees S c' := by
  obtain ⟨g, hg, rfl⟩ := Option.map_eq_some_iff.1 hs
  exact CLPAState.Agrees.addEdges h hg

variable [ScoreArith F]

theorem agrees_new (S : ℕ) : Agrees S (.new S : CLPACommittee F) :=
  ⟨fun v hv => absurd hv (Finset.notMem_empty v), fun _ => rfl⟩

theorem agrees_clpaReset (S : ℕ) (c : CLPACommittee F) : Agrees S (c.clpaReset S) :=
  ⟨fun v hv => absurd hv (Finset.notMem_empty v), fun _ => rfl⟩

theorem agrees_clpaEpoch {orders : List (List Address)} {mmap : ShardMap}
    (hs : c.clpaEpoch S orders = some (c', mmap)) : Agrees S c' := by
  obtain ⟨r, -, heq⟩ := Option.map_eq_some_iff.1 hs
  obtain ⟨rfl, -⟩ := Prod.mk.inj heq
  exact agrees_clpaReset S _

/-- **One call** of the committee. -/
theorem Agrees.step {a : Act} (h : Agrees S c) (hs : c.step S a = some c') : Agrees S c' := by
  cases a with
  | handleBlockInfo b =>
    rw [CLPACommittee.step, CLPACommittee.handleBlockInfo] at hs
    split at hs
    · obtain rfl := Option.some.inj hs
      exact h.swapEpoch b.epoch
    · exact (h.swapEpoch b.epoch).addEdges hs
  | epoch orders =>
    obtain ⟨r, hr, rfl⟩ := Option.map_eq_some_iff.1 hs
    exact agrees_clpaEpoch hr

/-- What the agreement means for the vertices, now and in the next epoch: the graph assigns them as
    the supervisor routes them; and the map returned by the algorithm, laid over that assignment, is
    the new one, of the graph and of the routing. -/
structure RoutingAgrees (S : ℕ) (c : CLPACommittee F) : Prop where
  now : ∀ v ∈ c.clpaGraph.netGraph.vertexSet,
    c.clpaGraph.partitionMap.lookup v = some (c.fetchModifiedMap S v)
  next : ∀ orders cs mmap cross,
    c.clpaGraph.clpaPartition orders = some (cs, mmap, cross) →
    ∀ v ∈ c.clpaGraph.netGraph.vertexSet,
      cs.partitionMap.lookup v = (mmap ∪ c.clpaGraph.partitionMap).lookup v ∧
      cs.partitionMap.lookup v = some ((c.endEpoch S cs mmap).fetchModifiedMap S v)

theorem Agrees.routing (h : Agrees S c) : RoutingAgrees S c := by
  refine ⟨fun v hv => CLPAState.Agrees.lookup_eq h hv, ?_⟩
  intro orders cs mmap cross hs v hv
  obtain ⟨hgraph, hmap, -⟩ := CLPAState.clpaPartition_spec hs
  refine ⟨by rw [hmap], ?_⟩
  exact (CLPAState.Agrees.clpaPartition h hs).lookup_eq (hgraph ▸ hv)

end CLPACommittee

namespace CLPACommitteeBroker

variable {F : Type} [ScoreArith F] {digest : TxDigest} {rawDigest : BrokerRawMeg → List UInt8}
  {S : ℕ} {c c' : CLPACommitteeBroker F}

/-- **One call** of the committee with brokers. -/
theorem agrees_step {a : Act} (h : CLPACommittee.Agrees S c.toCLPACommittee)
    (hs : c.step digest rawDigest S a = some c') :
    CLPACommittee.Agrees S c'.toCLPACommittee := by
  cases a with
  | dealTxByBroker now txs =>
    obtain ⟨r, hr, rfl⟩ := Option.map_eq_some_iff.1 hs
    obtain ⟨r₁, -, rfl⟩ := Option.map_eq_some_iff.1 hr
    exact h
  | handleBlockInfo now b =>
    obtain ⟨r, hr, rfl⟩ := Option.map_eq_some_iff.1 hs
    rw [CLPACommitteeBroker.handleBlockInfo] at hr
    split at hr
    · obtain rfl := Option.some.inj hr
      exact h.swapEpoch b.epoch
    · obtain ⟨r₁, -, hr⟩ := Option.bind_eq_some_iff.1 hr
      obtain ⟨edges, -, hr⟩ := Option.bind_eq_some_iff.1 hr
      obtain ⟨core, hcore, rfl⟩ := Option.map_eq_some_iff.1 hr
      exact (h.swapEpoch b.epoch).addEdges hcore
  | epoch orders =>
    obtain ⟨r, hr, rfl⟩ := Option.map_eq_some_iff.1 hs
    obtain ⟨r₁, hr₁, rfl⟩ := Option.map_eq_some_iff.1 hr
    exact CLPACommittee.agrees_clpaEpoch hr₁

end CLPACommitteeBroker

/-- **The graph and the routing agree.** After every sequence of reports and epochs, and of batches in
    the committee with brokers, the graph assigns its vertices as the supervisor routes them, and what
    the partition algorithm returns, laid over the assignment it starts from, is the assignment it
    ends with and that of the routing from then on. This holds for any arithmetic of the scores. -/
theorem graph_agrees_with_routing {F : Type} [ScoreArith F] (S : ℕ) :
    (∀ c : CLPACommittee F, Reaches (CLPACommittee.step S) (.new S) c → c.RoutingAgrees S) ∧
    ∀ (digest : TxDigest) (rawDigest : BrokerRawMeg → List UInt8) (brokers : List Address)
      (c : CLPACommitteeBroker F),
      Reaches (CLPACommitteeBroker.step digest rawDigest S) (.new S brokers) c →
        c.RoutingAgrees S := by
  constructor
  · intro c hrun
    have hagrees := hrun.invariant (I := CLPACommittee.Agrees S)
      (CLPACommittee.agrees_new S) fun _ _ _ h _ hs => h.step hs
    exact hagrees.routing
  · intro digest rawDigest brokers c hrun
    have hagrees := hrun.invariant (I := fun c => CLPACommittee.Agrees S c.toCLPACommittee)
      (CLPACommittee.agrees_new S) fun _ _ _ h _ hs => CLPACommitteeBroker.agrees_step h hs
    exact hagrees.routing

/-! ## Alice moves to bob -/

section Sample

open BlockChain ShardWorld

/-- Exact scores. -/
instance : ScoreArith ℚ where
  ofInt := Int.cast
  sub := (· - ·)
  mul := (· * ·)
  div := (· / ·)
  lt := fun x y => decide (x < y)
  half := 1 / 2
  lowest := -9999

/-- Alice deals with bob and dave, and carol with dave. -/
def someTransfers : BlockInfoMsg where
  blockBodyLength := 3
  innerShardTxs := [toBob, { toBob with recipient := dave },
    { toBob with sender := carol, recipient := dave }]

/-- Alice moves to the shard of bob and dave; dave moves away and back. -/
theorem alice_moves_to_bob :
    ∃ c : CLPACommittee ℚ, Reaches (CLPACommittee.step 2) (.new 2) c ∧
      c.modifiedMap.lookup alice = some 1 ∧ c.modifiedMap.lookup dave = some 1 ∧
      addr2Shard 2 alice = 0 ∧ addr2Shard 2 dave = 1 ∧
      c.clpaGraph.netGraph.vertexSet = {alice, bob, carol, dave} ∧
      ∀ v ∈ c.clpaGraph.netGraph.vertexSet,
        c.clpaGraph.partitionMap.lookup v = some (c.fetchModifiedMap 2 v) := by
  have hrun : ∃ c ∈ runActions (CLPACommittee.step 2) (.new 2 : CLPACommittee ℚ)
      [.handleBlockInfo someTransfers, .epoch (List.replicate 100 [alice, bob, carol, dave]),
       .handleBlockInfo someTransfers],
      c.modifiedMap.lookup alice = some 1 ∧ c.modifiedMap.lookup dave = some 1 ∧
      addr2Shard 2 alice = 0 ∧ addr2Shard 2 dave = 1 ∧
      c.clpaGraph.netGraph.vertexSet = {alice, bob, carol, dave} := by decide +kernel
  obtain ⟨c, hc, halice, hdave, hhome, hhome', hset⟩ := hrun
  have hreach := reaches_of_runActions hc
  exact ⟨c, hreach, halice, hdave, hhome, hhome', hset,
    ((graph_agrees_with_routing 2).1 c hreach).now⟩

end Sample

end BlockEmulator
