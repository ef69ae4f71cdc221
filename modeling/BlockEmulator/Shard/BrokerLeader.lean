import BlockEmulator.Shard.BrokerPool
import BlockEmulator.Shard.Whereabouts
import BlockEmulator.Supervisor.BrokerModule

set_option autoImplicit false

/-! # The leader of a broker shard

The CLPA module with brokers (`pbftInside_modCLPABroker.go`, `pbftOutside_modCLPABroker.go`,
`accountTransfermod_Broker.go`): what its leader does with messages from outside, when it proposes, and
when its proposal is committed. Nothing is relayed: after a block the leader reports the executed
transactions to the supervisor, sorted into first halves, second halves and the rest, and tells the
other leaders its sequence number.

The module only moves transactions. What holds of all transactions a leader has (`Leader.Holds`) holds
of those it has after any action, and of those it sends (`Holds.brokerAct`). -/

namespace BlockEmulator

variable {H : Type} [DecidableEq H] [Hashing H]

/-- The messages to a leader of a broker shard. -/
inductive BrokerShardMsg where
  | outside (m : ShardMsg)
  | seqIDinfo (senderShardID senderSeq : ℕ)

/-- The messages to the supervisor. -/
inductive SupervisorMsg where
  | blockInfo (b : BlockInfoMsg)
  | innerTx2CrossTx (txs : List Transaction)

/-- What a leader does on its own. -/
inductive LeaderAct where
  | proposeBlock (now : ℕ)
  | sendPartitionReady
  | sendAccountsAndTxs (order : List Address)
  | proposePartition (shards : List ℕ) (addrs : List Address)
  | commit

/-! ## Reports -/

namespace Transaction

/-- `isBroker1Tx`. -/
def isBroker1Tx (tx : Transaction) : Bool := some tx.sender = tx.originalSender

/-- `isBroker2Tx`. -/
def isBroker2Tx (tx : Transaction) : Bool := some tx.recipient = tx.finalRecipient

end Transaction

namespace Leader

/-- The report on a block. -/
def blockInfo (n : Leader H) (b : Block H) : BlockInfoMsg where
  blockBodyLength := b.body.length
  innerShardTxs := b.body.filter fun tx => !tx.isBroker2Tx && !tx.isBroker1Tx
  broker1Txs := b.body.filter fun tx => !tx.isBroker2Tx && tx.isBroker1Tx
  broker2Txs := b.body.filter Transaction.isBroker2Tx
  epoch := n.cdm.accountTransferRound
  senderShardID := n.shardID

/-! ## What the leader does -/

/-- `HandleMessageOutsidePBFT`; relay messages are ignored. -/
def handleBrokerMessage (n : Leader H) : BrokerShardMsg → Leader H
  | .seqIDinfo senderShardID senderSeq =>
    { n with seqIDMap := Finmap.insert senderShardID senderSeq n.seqIDMap }
  | .outside (.relay _ _ _) => n
  | .outside m => n.handleMessageOutsidePBFT .clpaBroker m

/-- `proposePartition`, with the received messages and the received accounts in the given orders. This
    module does not check the received transactions. -/
def proposeBrokerPartition (n : Leader H) (shards : List ℕ) (addrs : List Address) :
    Option (Leader H) :=
  let r := n.collectReceived shards (n.cdm.receivedNewAccountState, n.cdm.receivedNewTx)
  if shards.Nodup ∧ shards.toFinset = n.cdm.accountStateTx.keys ∧
      addrs.Nodup ∧ addrs.toFinset = r.1.keys then
    match n.cdm.modifiedMap[n.cdm.accountTransferRound]? with
    | none => some n.crash
    | some m =>
      some { n.addTxs2Pool r.2 with
        cdm := { n.cdm with receivedNewAccountState := r.1, receivedNewTx := r.2 }
        phase := .proposed (.partition
          { modifiedMap := m
            addrs := addrs
            accountState := addrs.map fun a => r.1.getOrNew a 0
            atid := n.cdm.modifiedMap.length }) }
  else none

/-- `HandleinCommit` for a block, and the end of the round. -/
def commitBrokerBlock (n : Leader H) (b : Block H) :
    Leader H × List (ℕ × BrokerShardMsg) × List SupervisorMsg :=
  match n.curChain.addBlock b with
  | none => (n.crash, [], [])
  | some bc =>
    if b.body.all bc.brokerTxOk then
      ({ n with curChain := bc }.nextRound,
        ((List.range n.shardNums).filter fun sid => sid ≠ n.shardID).map fun sid =>
          (sid, .seqIDinfo n.shardID n.sequenceID),
        [.blockInfo (n.blockInfo b)])
    -- an incorrect transaction is found when the block has already been added
    else ({ n with curChain := bc }.crash, [], [])

/-- Messages of the CLPA module, as messages between broker shards. -/
def outsideMsgs (msgs : List (ℕ × ShardMsg)) : List (ℕ × BrokerShardMsg) :=
  msgs.map fun p => (p.1, .outside p.2)

/-- An action of the leader, with the messages to other leaders and to the supervisor. -/
def brokerAct (n : Leader H) :
    LeaderAct → Option (Leader H × List (ℕ × BrokerShardMsg) × List SupervisorMsg)
  | .proposeBlock now =>
    match n.phase with
    -- a pending partition goes first
    | .idle => if n.cdm.partitionOn then none else some (n.proposeBlock now, [], [])
    | _ => none
  | .sendPartitionReady =>
    match n.phase with
    | .idle =>
      if n.cdm.partitionOn then
        some (n.sendPartitionReady.1, outsideMsgs n.sendPartitionReady.2, [])
      else none
    | _ => none
  | .sendAccountsAndTxs order =>
    match n.phase with
    | .waitReady =>
      if n.getPartitionReady then
        (n.sendBrokerAccountsAndTxs order).map fun r =>
          (r.1, outsideMsgs r.2.1, if r.1.alive then [.innerTx2CrossTx r.2.2] else [])
      else none
    | _ => none
  | .proposePartition shards addrs =>
    match n.phase with
    | .waitCollect =>
      if n.cdm.collectOver then
        (n.proposeBrokerPartition shards addrs).map fun n => (n, [], [])
      else none
    | _ => none
  | .commit =>
    match n.phase with
    -- the shard's nodes have agreed on the request
    | .proposed (.block b) => some (n.commitBrokerBlock b)
    | .proposed (.partition atm) => some (n.commitPartition atm, [], [])
    | _ => none

/-- A leader here does to its chain what the main node of the PBFT model does. -/
theorem commitBrokerBlock_curChain (n : Leader H) (b : Block H) (reqTime : ℕ) :
    ((n.commitBrokerBlock b).1.curChain, (n.commitBrokerBlock b).1.alive) =
      ((HandleType.clpaBroker.handleinCommit true n.curChain ⟨.block b, reqTime⟩).1,
        n.alive &&
          (HandleType.clpaBroker.handleinCommit true n.curChain ⟨.block b, reqTime⟩).2) := by
  cases hadd : n.curChain.addBlock b with
  | none => simp [commitBrokerBlock, HandleType.handleinCommit, hadd, crash]
  | some bc =>
    by_cases hok : b.body.all bc.brokerTxOk = true
    · simp [commitBrokerBlock, HandleType.handleinCommit, HandleType.mainNodeCommit, hadd, hok,
        nextRound]
    · simp [commitBrokerBlock, HandleType.handleinCommit, HandleType.mainNodeCommit, hadd, hok,
        crash]

end Leader

/-! ## Where transactions are -/

/-- `P` holds of the transactions in a message, and `K` of the partition map. -/
def BrokerShardMsg.Carries (P : Transaction → Prop) (K : ShardMap → Prop) : BrokerShardMsg → Prop
  | .outside (.partitionModifiedMap m) => K m
  | .outside m => ∀ t ∈ m.txs, P t
  | .seqIDinfo _ _ => True

/-- `P` holds of the transactions in a report, and they are sorted. -/
structure BlockInfoMsg.Sorted (P : Transaction → Prop) (b : BlockInfoMsg) : Prop where
  inner : ∀ t ∈ b.innerShardTxs, P t ∧ t.isBroker1Tx = false ∧ t.isBroker2Tx = false
  broker1 : ∀ t ∈ b.broker1Txs, P t

def SupervisorMsg.Carries (P : Transaction → Prop) : SupervisorMsg → Prop
  | .blockInfo b => b.Sorted P
  | .innerTx2CrossTx txs => ∀ t ∈ txs, P t

namespace BrokerShardMsg

variable {P : Transaction → Prop} {K : ShardMap → Prop}

theorem Carries.mono {K' : ShardMap → Prop} {m : BrokerShardMsg} (h : m.Carries P K)
    (hK : ∀ D, K D → K' D) : m.Carries P K' := by
  cases m with
  | seqIDinfo sid seq => trivial
  | outside m =>
    cases m with
    | partitionModifiedMap D => exact hK D h
    | injectTxs txs => exact h
    | relay txs sid seq => exact h
    | partitionReady sid seq => exact h
    | accountStateAndTx at' => exact h

theorem Carries.txs {m : ShardMsg} (h : (outside m).Carries P K) : ∀ t ∈ m.txs, P t := by
  cases m with
  | partitionModifiedMap D => exact fun t ht => absurd ht List.not_mem_nil
  | injectTxs txs => exact h
  | relay txs sid seq => exact h
  | partitionReady sid seq => exact h
  | accountStateAndTx at' => exact h

end BrokerShardMsg

namespace Leader

variable {P : Transaction → Prop} {n : Leader H}

theorem sorted_blockInfo {b : Block H} (hb : ∀ t ∈ b.body, P t) : (n.blockInfo b).Sorted P where
  inner := fun t ht => by
    obtain ⟨ht, hsort⟩ := List.mem_filter.1 ht
    simp only [Bool.and_eq_true, Bool.not_eq_true'] at hsort
    exact ⟨hb t ht, hsort.2, hsort.1⟩
  broker1 := fun t ht => hb t (List.mem_filter.1 ht).1

theorem Holds.handleBrokerMessage (hn : n.Holds P) {K : ShardMap → Prop} {m : BrokerShardMsg}
    (hm : m.Carries P K) : (n.handleBrokerMessage m).Holds P := by
  unfold Leader.handleBrokerMessage
  split
  · exact ⟨hn.queue, hn.proposed, hn.collected, hn.received⟩
  · exact hn
  · exact hn.handleMessageOutsidePBFT .clpaBroker hm.txs

/-- What stays, what is returned and what is sent when accounts leave. -/
theorem mem_sendBrokerLoop (shardID : ℕ) (m : ShardMap) (fetched : List (Address × AccountState))
    (sids : List ℕ) (queue : List Transaction) :
    (∀ t ∈ (sendBrokerLoop shardID m fetched sids queue []).1, t ∈ queue) ∧
    (∀ t ∈ (sendBrokerLoop shardID m fetched sids queue []).2.2, t ∈ queue) ∧
    ∀ p ∈ (sendBrokerLoop shardID m fetched sids queue []).2.1,
      ∃ at', p.2 = .accountStateAndTx at' ∧ ∀ t ∈ at'.txs, t ∈ queue := by
  rw [sendBrokerLoop_eq]
  refine ⟨?_, ?_, ?_⟩
  · intro t ht
    simp only [scatter_fst] at ht
    exact (List.mem_filter.1 ht).1
  · intro t ht
    obtain ⟨p, hp, ht⟩ := List.mem_flatMap.1 ht
    exact (of_mem_scatter hp (List.mem_filter.1 ht).1).2.1
  · intro p hp
    obtain ⟨q, hq, rfl⟩ := List.mem_map.1 hp
    exact ⟨_, rfl, fun t ht => (of_mem_scatter hq (List.mem_filter.1 ht).1).2.1⟩

theorem Holds.sendBrokerAccountsAndTxs (hn : n.Holds P) {order : List Address}
    {r : Leader H × List (ℕ × ShardMsg) × List Transaction}
    (h : n.sendBrokerAccountsAndTxs order = some r) :
    r.1.Holds P ∧ (∀ p ∈ outsideMsgs r.2.1, p.2.Carries P fun _ => False) ∧ ∀ t ∈ r.2.2, P t := by
  unfold Leader.sendBrokerAccountsAndTxs at h
  split at h
  · obtain rfl := Option.some.inj h
    exact ⟨hn.crash, by simp [outsideMsgs], by simp⟩
  next m hlast =>
  obtain ⟨-, h⟩ := Option.ite_none_right_eq_some.1 h
  split at h
  · obtain rfl := Option.some.inj h
    exact ⟨hn.crash, by simp [outsideMsgs], by simp⟩
  next asFetched hfetch =>
  obtain ⟨hkept, hreturned, hsent⟩ := mem_sendBrokerLoop n.shardID m (order.zip asFetched)
    (List.range n.shardNums) n.curChain.txpool.txQueue
  obtain rfl := Option.some.inj h
  refine ⟨⟨fun t ht => hn.queue t (hkept t ht), fun b hb => absurd hb (by simp), hn.collected,
    hn.received⟩, ?_, fun t ht => hn.queue t (hreturned t ht)⟩
  intro p hp
  obtain ⟨q, hq, rfl⟩ := List.mem_map.1 hp
  obtain ⟨at', hat, htxs⟩ := hsent q hq
  rw [hat]
  exact fun t ht => hn.queue t (htxs t ht)

theorem Holds.proposeBrokerPartition (hn : n.Holds P) {shards : List ℕ} {addrs : List Address}
    {n' : Leader H} (h : n.proposeBrokerPartition shards addrs = some n') : n'.Holds P := by
  unfold Leader.proposeBrokerPartition at h
  obtain ⟨-, h⟩ := Option.ite_none_right_eq_some.1 h
  have hnew : ∀ t ∈ (n.collectReceived shards (n.cdm.receivedNewAccountState,
      n.cdm.receivedNewTx)).2, P t := hn.collectReceived shards hn.received
  split at h
  · obtain rfl := Option.some.inj h
    exact hn.crash
  · obtain rfl := Option.some.inj h
    exact ⟨(hn.addTxs2Pool hnew).queue, fun b hb => absurd hb (by simp), hn.collected, hnew⟩

theorem Holds.commitBrokerBlock (hn : n.Holds P) {b : Block H} (hb : ∀ t ∈ b.body, P t) :
    (n.commitBrokerBlock b).1.Holds P ∧
      (∀ p ∈ (n.commitBrokerBlock b).2.1, p.2.Carries P fun _ => False) ∧
      ∀ m ∈ (n.commitBrokerBlock b).2.2, m.Carries P := by
  unfold Leader.commitBrokerBlock
  split
  · exact ⟨hn.crash, by simp, by simp⟩
  next bc hadd =>
  obtain ⟨hpool, -, -⟩ := BlockChain.addBlock_frame hadd
  have hqueue : ∀ t ∈ bc.txpool.txQueue, P t := hpool ▸ hn.queue
  split
  · refine ⟨⟨hqueue, fun b hb => absurd hb (by simp [nextRound]), hn.collected, hn.received⟩, ?_,
      ?_⟩
    · intro p hp
      obtain ⟨sid, -, rfl⟩ := List.mem_map.1 hp
      trivial
    · intro m hm
      obtain rfl := List.mem_singleton.1 hm
      exact sorted_blockInfo hb
  · exact ⟨⟨hqueue, hn.proposed, hn.collected, hn.received⟩, by simp, by simp⟩

/-- **What holds of all transactions of a leader keeps holding**, and holds of those it sends. It sends
    no partition maps. -/
theorem Holds.brokerAct (hn : n.Holds P) {a : LeaderAct}
    {r : Leader H × List (ℕ × BrokerShardMsg) × List SupervisorMsg}
    (h : n.brokerAct a = some r) :
    r.1.Holds P ∧ (∀ p ∈ r.2.1, p.2.Carries P fun _ => False) ∧
      ∀ m ∈ r.2.2, m.Carries P := by
  cases a with
  | proposeBlock now =>
    simp only [Leader.brokerAct] at h
    split at h
    · obtain ⟨-, h⟩ := Option.ite_none_left_eq_some.1 h
      obtain rfl := Option.some.inj h
      refine ⟨?_, by simp, by simp⟩
      unfold Leader.proposeBlock
      split
      · exact hn.crash
      next bc b hgen => exact hn.proposeBlock hgen
    · exact absurd h (by simp)
  | sendPartitionReady =>
    simp only [Leader.brokerAct] at h
    split at h
    · obtain ⟨-, h⟩ := Option.ite_none_right_eq_some.1 h
      obtain rfl := Option.some.inj h
      refine ⟨⟨hn.queue, fun b hb => absurd hb (by simp [Leader.sendPartitionReady]), hn.collected,
        hn.received⟩, ?_, by simp⟩
      intro p hp
      obtain ⟨q, hq, rfl⟩ := List.mem_map.1 hp
      obtain ⟨sid, -, rfl⟩ := List.mem_map.1 hq
      exact fun t ht => absurd ht (by simp [ShardMsg.txs])
    · exact absurd h (by simp)
  | sendAccountsAndTxs order =>
    simp only [Leader.brokerAct] at h
    split at h
    · obtain ⟨-, h⟩ := Option.ite_none_right_eq_some.1 h
      obtain ⟨r', hr', rfl⟩ := Option.map_eq_some_iff.1 h
      obtain ⟨hholds, hmsgs, hreturned⟩ := hn.sendBrokerAccountsAndTxs hr'
      refine ⟨hholds, hmsgs, ?_⟩
      intro m hm
      split at hm
      · obtain rfl := List.mem_singleton.1 hm
        exact hreturned
      · exact absurd hm List.not_mem_nil
    · exact absurd h (by simp)
  | proposePartition shards addrs =>
    simp only [Leader.brokerAct] at h
    split at h
    · obtain ⟨-, h⟩ := Option.ite_none_right_eq_some.1 h
      obtain ⟨n', hn', rfl⟩ := Option.map_eq_some_iff.1 h
      exact ⟨hn.proposeBrokerPartition hn', by simp, by simp⟩
    · exact absurd h (by simp)
  | commit =>
    simp only [Leader.brokerAct] at h
    split at h
    · next b hphase =>
        obtain rfl := Option.some.inj h
        exact hn.commitBrokerBlock (hn.proposed b hphase)
    · next atm hphase =>
        obtain rfl := Option.some.inj h
        exact ⟨hn.commitPartition atm, by simp, by simp⟩
    · exact absurd h (by simp)

end Leader

end BlockEmulator
