import BlockEmulator.Shard.BrokerLeader
import BlockEmulator.Supervisor.BrokerProtocol
import BlockEmulator.Supervisor.Injection
import BlockEmulator.Supervisor.TxNumCount

set_option autoImplicit false

/-! # The plain broker mode

The broker committee (`committee_broker.go`), the shards that run the raw broker module
(`pbftInside_moduleBroker.go`, `pbftOutside_moduleBroker.go`) and the measurement
`TestTxNumCount_Broker`, with all messages between them in flight. Nothing is repartitioned. A transfer
between two shards goes through the system twice: its first half is injected with the batch, its second
half when a report on the first reaches the supervisor.

This module has the model and what single calls do: `txSending` sends every transaction once, a block is
sorted into three lists that have all its transactions, and a report confirms exactly the halves it
names. `RawBrokerRuns` puts the calls together. -/

namespace BlockEmulator

variable {H : Type} [DecidableEq H] [Hashing H] {S : ℕ}

/-! ## Reports -/

/-- The three lists that a block is sorted into. -/
inductive BrokerPart where
  | inner
  | first
  | second
deriving DecidableEq

/-- The sorting of `HandleinCommit` in the raw broker module: a transaction without a raw hash is one
    inside a shard, whatever its ends. -/
def Transaction.part (tx : Transaction) : BrokerPart :=
  let isInnerShardTx := tx.rawTxHash.isNone
  let isBroker1Tx := !isInnerShardTx && tx.isBroker1Tx
  let isBroker2Tx := !isInnerShardTx && tx.isBroker2Tx
  if isBroker2Tx then .second else if isBroker1Tx then .first else .inner

/-- The transactions of a block that go into one of the lists. -/
def partOf (p : BrokerPart) (txs : List Transaction) : List Transaction :=
  txs.filter fun tx => tx.part = p

theorem mem_partOf {p : BrokerPart} {txs : List Transaction} {tx : Transaction} :
    tx ∈ partOf p txs ↔ tx ∈ txs ∧ tx.part = p := by
  simp [partOf]

/-- The messages to a leader of the raw broker module; it ignores all others. -/
inductive RawBrokerMsg where
  | injectTxs (txs : List Transaction)
  | seqIDinfo (senderShardID senderSeq : ℕ)

def RawBrokerMsg.txs : RawBrokerMsg → List Transaction
  | .injectTxs txs => txs
  | .seqIDinfo _ _ => []

namespace Leader

/-- `HandleMessageOutsidePBFT` of the raw broker module. -/
def handleRawBrokerMessage (n : Leader H) : RawBrokerMsg → Leader H
  | .injectTxs txs => n.handleInjectTx txs
  | .seqIDinfo senderShardID senderSeq =>
    { n with seqIDMap := Finmap.insert senderShardID senderSeq n.seqIDMap }

/-- The report on a block. -/
def rawBlockInfo (n : Leader H) (b : Block H) : BlockInfoMsg where
  blockBodyLength := b.body.length
  innerShardTxs := partOf .inner b.body
  broker1Txs := partOf .first b.body
  broker2Txs := partOf .second b.body
  epoch := 0
  senderShardID := n.shardID

/-- `HandleinCommit` of the raw broker module for a block, and the end of the round. -/
def commitRawBlock (n : Leader H) (b : Block H) :
    Leader H × List (ℕ × RawBrokerMsg) × List BlockInfoMsg :=
  match n.curChain.addBlock b with
  | none => (n.crash, [], [])
  | some bc =>
    ({ n with curChain := bc }.nextRound,
      ((List.range n.shardNums).filter fun sid => sid ≠ n.shardID).map fun sid =>
        (sid, .seqIDinfo n.shardID n.sequenceID),
      [n.rawBlockInfo b])

/-- A leader here does to its chain what the main node of the PBFT model does. -/
theorem commitRawBlock_curChain (n : Leader H) (b : Block H) (reqTime : ℕ) :
    ((n.commitRawBlock b).1.curChain, (n.commitRawBlock b).1.alive) =
      ((HandleType.broker.handleinCommit true n.curChain ⟨.block b, reqTime⟩).1,
        n.alive && (HandleType.broker.handleinCommit true n.curChain ⟨.block b, reqTime⟩).2) := by
  cases hadd : n.curChain.addBlock b with
  | none => simp [commitRawBlock, HandleType.handleinCommit, hadd, crash]
  | some bc =>
    simp [commitRawBlock, HandleType.handleinCommit, HandleType.mainNodeCommit, hadd, nextRound]

end Leader

/-! ## The measurement -/

/-- `TestTxNumCount_Broker` has the code of `TestTxNumCount_Relay`, with the halves made by the broker
    in the place of the relayed ones. -/
structure TestTxNumCountBroker where
  counts : TestTxNumCountRelay

namespace TestTxNumCountBroker

/-- `NewTestTxNumCount_Broker`. -/
def new : TestTxNumCountBroker := ⟨.new⟩

/-- `broker1TxNum`, `broker2TxNum` and `normalTxNum`. -/
def broker1TxNum (t : TestTxNumCountBroker) : List ℕ := t.counts.relay1TxNum
def broker2TxNum (t : TestTxNumCountBroker) : List ℕ := t.counts.relay2TxNum
def normalTxNum (t : TestTxNumCountBroker) : List ℕ := t.counts.normalTxNum

/-- `UpdateMeasureRecord`. -/
def updateMeasureRecord (t : TestTxNumCountBroker) (b : BlockInfoMsg) :
    Option TestTxNumCountBroker :=
  (t.counts.updateMeasureRecord
    { b with relay1Txs := b.broker1Txs, relay2Txs := b.broker2Txs }).map mk

/-- `OutputRecord`. -/
def outputRecord (t : TestTxNumCountBroker) : List ℚ × ℚ := t.counts.outputRecord

end TestTxNumCountBroker

/-! ## The world -/

structure RawBrokerWorld (H : Type) [DecidableEq H] [Hashing H] (S : ℕ) where
  leaders : Fin S → Leader H
  /-- Messages to the leaders. -/
  net : List (ℕ × RawBrokerMsg)
  /-- Reports to the supervisor. -/
  inbox : List BlockInfoMsg
  /-- The committee, with what it has dealt with and created. -/
  trace : BrokerTrace
  txNumCount : TestTxNumCountBroker
  /-- The transactions that were not given to the broker. -/
  kept : List Transaction
  /-- The reports that were handled, in order. -/
  handled : List BlockInfoMsg

inductive RawBrokerAct (S : ℕ) where
  | dealBatch (now : ℕ → ℕ) (rows : List DataRow)
  | handleBlockInfos (now : ℕ → ℕ) (k : ℕ)
  | deliver (k : ℕ)
  | proposeBlock (i : Fin S) (now : ℕ)
  | commit (i : Fin S)

/-- The messages of `txSending`. -/
def sentTxs (msgs : List InjectTxs) : List (ℕ × RawBrokerMsg) :=
  msgs.map fun it => (it.toShardID, .injectTxs it.txs)

namespace RawBrokerWorld

/-- New leaders, one for each shard, a new committee and a new measurement. -/
def init (bc : Fin S → BlockChain H) (brokers : List Address) : RawBrokerWorld H S where
  leaders := fun i => .new (bc i)
  net := []
  inbox := []
  trace := .init brokers
  txNumCount := .new
  kept := []
  handled := []

/-- Leader `i` has acted. -/
def after (w : RawBrokerWorld H S) (i : Fin S)
    (r : Leader H × List (ℕ × RawBrokerMsg) × List BlockInfoMsg) : RawBrokerWorld H S :=
  { w with
    leaders := Function.update w.leaders i r.1
    net := w.net ++ r.2.1
    inbox := w.inbox ++ r.2.2 }

/-- Message `k` has reached leader `i`. -/
def receive (w : RawBrokerWorld H S) (k : ℕ) (i : Fin S) (m : RawBrokerMsg) :
    RawBrokerWorld H S :=
  { w with
    leaders := Function.update w.leaders i ((w.leaders i).handleRawBrokerMessage m)
    net := w.net.eraseIdx k }

variable (digest : TxDigest) (rawDigest : BrokerRawMeg → List UInt8) (injectSpeed : ℕ)

/-- A batch of `MsgSendingControl`: `dealTxByBroker`, which sends the first halves, and `txSending` of
    what it returns. -/
def dealBatch (now : ℕ → ℕ) (w : RawBrokerWorld H S) (txlist : List Transaction) :
    Option (RawBrokerWorld H S) :=
  (w.trace.bcm.dealTxByBroker digest rawDigest (addr2Shard S) now txlist).bind fun r =>
    (r.1.txSending injectSpeed S r.2.1).bind fun tx1Msgs =>
      (r.1.txSending injectSpeed S r.2.2).map fun itxMsgs =>
        { w with
          net := w.net ++ (sentTxs tx1Msgs ++ sentTxs itxMsgs)
          trace := { w.trace with
            bcm := r.1
            dealt := w.trace.dealt ++ txlist
            raws := w.trace.raws ++ txlist.filter (w.trace.bcm.crosses (addr2Shard S))
            tx1s := w.trace.tx1s ++ r.2.1 }
          kept := w.kept ++ r.2.2 }

/-- `handleBlockInfos` on report `k`: `HandleBlockInfo`, which sends the second halves, and
    `UpdateMeasureRecord`. -/
def handleBlockInfos (now : ℕ → ℕ) (w : RawBrokerWorld H S) (k : ℕ) (bim : BlockInfoMsg) :
    Option (RawBrokerWorld H S) :=
  (w.trace.bcm.handleBlockInfo digest rawDigest now bim).bind fun r =>
    (r.1.txSending injectSpeed S r.2).bind fun tx2Msgs =>
      (w.txNumCount.updateMeasureRecord bim).map fun t =>
        { w with
          net := w.net ++ sentTxs tx2Msgs
          inbox := w.inbox.eraseIdx k
          trace := { w.trace with
            bcm := r.1
            tx2s := w.trace.tx2s ++ r.2
            reported := w.trace.reported ++ bim.reportedHashes }
          txNumCount := t
          handled := w.handled ++ [bim] }

/-- One step; a leader whose process has ended takes none. -/
def step (w : RawBrokerWorld H S) : RawBrokerAct S → Option (RawBrokerWorld H S)
  | .dealBatch now rows =>
    w.dealBatch digest rawDigest injectSpeed now (rows.map (data2tx digest))
  | .handleBlockInfos now k =>
    w.inbox[k]?.bind fun bim => w.handleBlockInfos digest rawDigest injectSpeed now k bim
  | .deliver k =>
    w.net[k]?.bind fun p =>
      if hd : p.1 < S then
        if (w.leaders ⟨p.1, hd⟩).alive then some (w.receive k ⟨p.1, hd⟩ p.2) else none
      else none
  | .proposeBlock i now =>
    if (w.leaders i).alive then
      match (w.leaders i).phase with
      | .idle => some (w.after i ((w.leaders i).proposeBlock now, [], []))
      | _ => none
    else none
  | .commit i =>
    if (w.leaders i).alive then
      match (w.leaders i).phase with
      -- the shard's nodes have agreed on the block
      | .proposed (.block b) => some (w.after i ((w.leaders i).commitRawBlock b))
      | _ => none
    else none

variable {digest rawDigest injectSpeed} {w w' : RawBrokerWorld H S}

/-- In the committee, a batch is a step of its own protocol, and so is a report. -/
theorem trace_dealBatch {now : ℕ → ℕ} {txlist : List Transaction}
    (h : w.dealBatch digest rawDigest injectSpeed now txlist = some w') :
    w.trace.step digest rawDigest (.dealTxByBroker (addr2Shard S) now txlist) = some w'.trace := by
  obtain ⟨r, hr, h⟩ := Option.bind_eq_some_iff.1 h
  obtain ⟨tx1Msgs, -, h⟩ := Option.bind_eq_some_iff.1 h
  obtain ⟨itxMsgs, -, rfl⟩ := Option.map_eq_some_iff.1 h
  rw [BrokerTrace.step, hr]
  rfl

theorem trace_handleBlockInfos {now : ℕ → ℕ} {k : ℕ} {bim : BlockInfoMsg}
    (h : w.handleBlockInfos digest rawDigest injectSpeed now k bim = some w') :
    w.trace.step digest rawDigest (.handleBlockInfo now bim) = some w'.trace := by
  obtain ⟨r, hr, h⟩ := Option.bind_eq_some_iff.1 h
  obtain ⟨tx2Msgs, -, h⟩ := Option.bind_eq_some_iff.1 h
  obtain ⟨t, -, rfl⟩ := Option.map_eq_some_iff.1 h
  rw [BrokerTrace.step, hr]
  rfl

variable (digest rawDigest injectSpeed)

/-- The steps of the world, each with its condition. -/
inductive Steps (w : RawBrokerWorld H S) : RawBrokerWorld H S → Prop
  | dealBatch {now : ℕ → ℕ} {txlist : List Transaction} {w' : RawBrokerWorld H S} :
      (∀ tx ∈ txlist, tx.rawTxHash = none) →
      w.dealBatch digest rawDigest injectSpeed now txlist = some w' → Steps w w'
  | handleBlockInfos {now : ℕ → ℕ} {k : ℕ} {bim : BlockInfoMsg} {w' : RawBrokerWorld H S} :
      w.inbox[k]? = some bim →
      w.handleBlockInfos digest rawDigest injectSpeed now k bim = some w' → Steps w w'
  | receive {k : ℕ} {i : Fin S} {m : RawBrokerMsg} : w.net[k]? = some (i.val, m) →
      Steps w (w.receive k i m)
  | proposeBlock {i : Fin S} {now : ℕ} : (w.leaders i).phase = .idle →
      Steps w (w.after i ((w.leaders i).proposeBlock now, [], []))
  | commit {i : Fin S} {b : Block H} : (w.leaders i).phase = .proposed (.block b) →
      Steps w (w.after i ((w.leaders i).commitRawBlock b))

variable {digest rawDigest injectSpeed}

theorem steps_of_step {a : RawBrokerAct S}
    (h : w.step digest rawDigest injectSpeed a = some w') :
    w.Steps digest rawDigest injectSpeed w' := by
  cases a with
  | dealBatch now rows =>
    refine .dealBatch (fun tx htx => ?_) h
    obtain ⟨row, -, rfl⟩ := List.mem_map.1 htx
    rfl
  | handleBlockInfos now k =>
    obtain ⟨bim, hk, h⟩ := Option.bind_eq_some_iff.1 h
    exact .handleBlockInfos hk h
  | deliver k =>
    obtain ⟨p, hk, h⟩ := Option.bind_eq_some_iff.1 h
    split at h
    · obtain ⟨-, h⟩ := Option.ite_none_right_eq_some.1 h
      exact Option.some.inj h ▸ .receive hk
    · exact absurd h (by simp)
  | proposeBlock i now =>
    obtain ⟨-, h⟩ := Option.ite_none_right_eq_some.1 h
    split at h
    · next hidle => exact Option.some.inj h ▸ .proposeBlock hidle
    · exact absurd h (by simp)
  | commit i =>
    obtain ⟨-, h⟩ := Option.ite_none_right_eq_some.1 h
    split at h
    · next b hphase => exact Option.some.inj h ▸ .commit hphase
    · exact absurd h (by simp)

end RawBrokerWorld

/-! ## What is sent -/

/-- Every message is for one shard: what the shards are sent is what the messages have. -/
theorem sum_count_deliveredTo {msgs : List InjectTxs} (hto : ∀ it ∈ msgs, it.toShardID < S)
    (t : Transaction) :
    ((List.range S).map fun k => (deliveredTo k msgs).count t).sum =
      (msgs.flatMap InjectTxs.txs).count t := by
  induction msgs with
  | nil => simp [deliveredTo]
  | cons it msgs ih =>
    obtain ⟨hit, hrest⟩ := List.forall_mem_cons.1 hto
    have hsplit : ∀ k, (deliveredTo k (it :: msgs)).count t =
        (if it.toShardID = k then it.txs.count t else 0) + (deliveredTo k msgs).count t := by
      intro k
      rw [← List.singleton_append, deliveredTo_append, List.count_append]
      by_cases hk : it.toShardID = k <;> simp [deliveredTo, hk]
    have hone : ((List.range S).map fun k => if it.toShardID = k then it.txs.count t else 0).sum =
        it.txs.count t :=
      (Finset.sum_ite_eq (Finset.range S) it.toShardID fun _ => it.txs.count t).trans
        (if_pos (Finset.mem_range.2 hit))
    simp only [hsplit, List.sum_map_add, hone, ih hrest, List.flatMap_cons, List.count_append]

/-- **`txSending` sends every transaction once.** -/
theorem BrokerModule.txSending_perm (hS : 0 < S) {injectSpeed : ℕ} {b : BrokerModule}
    {txlist : List Transaction} {msgs : List InjectTxs}
    (h : b.txSending injectSpeed S txlist = some msgs) :
    (msgs.flatMap InjectTxs.txs).Perm txlist := by
  obtain ⟨-, h⟩ := Option.ite_none_left_eq_some.1 h
  obtain rfl := Option.some.inj h
  have hroute : ∀ tx : Transaction, (if b.broker.isBroker tx.sender then addr2Shard S tx.recipient
      else addr2Shard S tx.sender) < S := by
    intro tx
    split
    · exact addr2Shard_lt hS _
    · exact addr2Shard_lt hS _
  refine List.perm_iff_count.2 fun t => ?_
  rw [← sum_count_deliveredTo fun it hit => toShardID_lt_of_mem_injectLoop hit]
  refine Eq.trans ?_ ((sum_count_filter_eq txlist (fun tx => if b.broker.isBroker tx.sender then
    addr2Shard S tx.recipient else addr2Shard S tx.sender) t List.nodup_range).trans
      (if_pos (List.mem_range.2 (hroute t))))
  refine congrArg List.sum (List.map_congr_left fun k hk => ?_)
  rw [deliveredTo_injectLoop (List.mem_range.1 hk) (by simp) (by simp)]
  -- the route does not depend on the index
  nth_rewrite 2 [← List.zipIdx_map_fst 0 txlist]
  rw [List.filter_map]
  rfl

/-! ## What is sorted -/

theorem Transaction.part_of_rawTxHash {tx : Transaction} (h : tx.rawTxHash = none) :
    tx.part = .inner := by
  simp [part, h]

/-- A half goes into its list: the broker is not the recipient of the transfer. -/
theorem BrokerCommittee.part_tx1Of (digest : TxDigest) (now : ℕ) {meg : BrokerTypeMeg}
    (h : meg.broker ≠ meg.rawMeg.tx.recipient) : (tx1Of digest now meg).part = .first := by
  simp [Transaction.part, tx1Of, halfOf, newTransaction, Transaction.isBroker1Tx,
    Transaction.isBroker2Tx, h]

theorem BrokerCommittee.part_tx2Of (digest : TxDigest) (now : ℕ) (meg : BrokerTypeMeg) :
    (tx2Of digest now meg).part = .second := by
  simp [Transaction.part, tx2Of, halfOf, newTransaction, Transaction.isBroker2Tx]

namespace BrokerModule

variable {digest : TxDigest} {rawDigest : BrokerRawMeg → List UInt8} {now : ℕ → ℕ}
  {b : BrokerModule}

/-- What `dealTxByBroker` hands on: first halves, and the transactions that stay in the batch. -/
theorem dealTxByBroker_parts {home : Address → ℕ} {txs : List Transaction}
    {r : BrokerModule × List Transaction × List Transaction}
    (h : b.dealTxByBroker digest rawDigest home now txs = some r)
    (hraw : ∀ tx ∈ txs, tx.rawTxHash = none) :
    (∀ tx ∈ r.2.1, tx.part = .first) ∧ (∀ tx ∈ r.2.2, tx.part = .inner) ∧
      r.2.2 = (txs.filter fun tx => !b.crosses home tx).map b.mark := by
  obtain ⟨d, hd, rfl⟩ := Option.map_eq_some_iff.1 h
  obtain ⟨hmegs, hrest, hbroker⟩ := dealLoop_spec hd
  refine ⟨?_, ?_, hrest⟩
  · intro tx htx
    have htx : tx ∈ (BrokerCommittee.register (BrokerCommittee.tx1Of digest) b.brokerConfirm1Pool
        (stamped now (d.1.map fun meg => ⟨meg, meg.broker⟩))).2 := htx
    rw [register_snd] at htx
    obtain ⟨q, hq, rfl⟩ := List.mem_map.1 htx
    obtain ⟨meg, hmeg, hq⟩ := List.mem_map.1 (mem_of_mem_stamped hq)
    have hcross : meg.tx ∈ txs.filter (b.crosses home) := hmegs ▸ List.mem_map_of_mem hmeg
    have hrecipient : b.broker.isBroker meg.tx.recipient = false := by
      have := (List.mem_filter.1 hcross).2
      simp only [crosses, Bool.and_eq_true, Bool.not_eq_true'] at this
      exact this.1.2
    have hmem : meg.broker ∈ b.broker.brokerAddress := List.mem_of_head? (hbroker meg hmeg)
    refine BrokerCommittee.part_tx1Of digest q.1 ?_
    rw [← hq]
    rintro heq
    rw [Broker.isBroker, List.contains_eq_mem, ← heq, decide_eq_false_iff_not] at hrecipient
    exact hrecipient hmem
  · intro tx htx
    rw [hrest] at htx
    obtain ⟨tx', htx', rfl⟩ := List.mem_map.1 htx
    refine Transaction.part_of_rawTxHash ?_
    rw [← hraw tx' (List.mem_filter.1 htx').1, mark]
    split <;> rfl

/-- Which transfers go to the broker, and which of the others are marked, depends on the broker
    addresses only. -/
theorem crosses_eq {brokers : List Address} (h : b.broker.brokerAddress = brokers)
    (home : Address → ℕ) : b.crosses home = (BrokerTrace.init brokers).bcm.crosses home := by
  subst h
  rfl

theorem mark_eq {brokers : List Address} (h : b.broker.brokerAddress = brokers) :
    b.mark = (BrokerTrace.init brokers).bcm.mark := by
  subst h
  rfl

/-- What `HandleBlockInfo` hands on: second halves. -/
theorem handleBlockInfo_parts {info : BlockInfoMsg} {r : BrokerModule × List Transaction}
    (h : b.handleBlockInfo digest rawDigest now info = some r) :
    ∀ tx ∈ r.2, tx.part = .second := by
  unfold handleBlockInfo at h
  split at h
  · obtain rfl := Option.some.inj h
    simp
  · obtain ⟨r₁, h₁, rfl⟩ := Option.map_eq_some_iff.1 h
    obtain ⟨c, -, rfl⟩ := Option.map_eq_some_iff.1 h₁
    intro tx htx
    have htx : tx ∈ (BrokerCommittee.register (BrokerCommittee.tx2Of digest) b.brokerConfirm2Pool
        (stamped now c.2)).2 := htx
    rw [register_snd] at htx
    obtain ⟨q, -, rfl⟩ := List.mem_map.1 htx
    exact BrokerCommittee.part_tx2Of digest q.1 q.2

end BrokerModule

/-! ## What a report confirms -/

/-- The hash of a half and the hash of its transfer, in a transaction and in a confirmation. -/
def Transaction.ids (tx : Transaction) : List UInt8 × Option (List UInt8) := (tx.txHash, tx.rawTxHash)

def MagConfirm.ids (m : MagConfirm) : List UInt8 × Option (List UInt8) :=
  (m.txHash, some m.rawMeg.tx.txHash)

section Confirm

variable {pool : Finmap fun _ : List UInt8 => MagConfirm} {txs l : List Transaction}

/-- Registered halves are confirmed, each once and in order. -/
theorem Registers.confirmed_of_mem (hreg : Registers pool txs)
    (hnodup : (txs.map Transaction.txHash).Nodup) (hl : ∀ tx ∈ l, tx ∈ txs) :
    ((l.map Transaction.txHash).filterMap fun h => pool.lookup h).map MagConfirm.ids =
      l.map Transaction.ids := by
  induction l with
  | nil => rfl
  | cons tx l ih =>
    obtain ⟨htx, hrest⟩ := List.forall_mem_cons.1 hl
    obtain ⟨m, hm⟩ := Finmap.mem_iff.1 (hreg.mem tx htx)
    obtain ⟨tx', htx', hhash, hmhash, hraw⟩ := hreg.of_lookup _ m hm
    obtain rfl := List.inj_on_of_nodup_map hnodup htx' htx hhash
    have hids : m.ids = tx'.ids := by rw [MagConfirm.ids, Transaction.ids, hmhash, hraw]
    rw [List.map_cons, List.filterMap_cons_some (f := fun h => pool.lookup h) hm, List.map_cons,
      List.map_cons, ih hrest, hids]

/-- What is not registered is not confirmed. -/
theorem Registers.confirmed_of_ne (hreg : Registers pool txs)
    (hl : ∀ tx ∈ l, ∀ tx' ∈ txs, tx'.txHash ≠ tx.txHash) :
    ((l.map Transaction.txHash).filterMap fun h => pool.lookup h) = [] := by
  refine List.filterMap_eq_nil_iff.2 fun h hh => ?_
  obtain ⟨tx, htx, rfl⟩ := List.mem_map.1 hh
  by_contra hsome
  obtain ⟨m, hm⟩ := Option.ne_none_iff_exists'.1 hsome
  obtain ⟨tx', htx', hhash, -⟩ := hreg.of_lookup _ m hm
  exact hl tx htx tx' htx' hhash

/-- The confirmations of one transfer are those of its halves. -/
theorem confirmsOf_of_ids {ms : List MagConfirm} (h : ms.map MagConfirm.ids = l.map Transaction.ids)
    (raw : List UInt8) :
    (confirmsOf ms raw).map MagConfirm.txHash = (halvesOf l raw).map Transaction.txHash := by
  have hfilter := congrArg (fun ids => (ids.filter fun i => i.2 = some raw).map Prod.fst) h
  simp only [List.filter_map, List.map_map] at hfilter
  refine Eq.trans ?_ hfilter
  rw [confirmsOf]
  refine congrArg _ (List.filter_congr fun m _ => ?_)
  simp [MagConfirm.ids]

end Confirm

/-! ## What a report is -/

/-- The transactions of a report. -/
def BlockInfoMsg.brokerTxs (b : BlockInfoMsg) : List Transaction :=
  b.innerShardTxs ++ b.broker1Txs ++ b.broker2Txs

/-- The report is about the transactions of a block, sorted, in epoch zero. -/
structure BlockInfoMsg.OfBroker (b : BlockInfoMsg) : Prop where
  epoch : b.epoch = 0
  length : b.blockBodyLength = b.brokerTxs.length
  inner : ∀ tx ∈ b.innerShardTxs, tx.part = .inner
  first : ∀ tx ∈ b.broker1Txs, tx.part = .first
  second : ∀ tx ∈ b.broker2Txs, tx.part = .second

theorem count_partOf (p : BrokerPart) (txs : List Transaction) (t : Transaction) :
    (partOf p txs).count t = if t.part = p then txs.count t else 0 := by
  split
  · next hp => exact List.count_filter (decide_eq_true hp)
  · next hp => exact List.count_eq_zero.2 fun hmem => hp (mem_partOf.1 hmem).2

theorem Leader.perm_rawBlockInfo (n : Leader H) (b : Block H) :
    (n.rawBlockInfo b).brokerTxs.Perm b.body := by
  refine List.perm_iff_count.2 fun t => ?_
  rw [BlockInfoMsg.brokerTxs, List.count_append, List.count_append]
  simp only [rawBlockInfo, count_partOf]
  cases t.part <;> simp

theorem Leader.rawBlockInfo_ofBroker (n : Leader H) (b : Block H) :
    (n.rawBlockInfo b).OfBroker where
  epoch := rfl
  length := (n.perm_rawBlockInfo b).length_eq.symm
  inner := fun _ h => (mem_partOf.1 h).2
  first := fun _ h => (mem_partOf.1 h).2
  second := fun _ h => (mem_partOf.1 h).2

/-- The hashes that `HandleBlockInfo` looks up are those of the halves. -/
theorem BlockInfoMsg.OfBroker.reportedHashes_eq {b : BlockInfoMsg} (hb : b.OfBroker) :
    b.reportedHashes = (b.broker1Txs ++ b.broker2Txs).map Transaction.txHash := by
  unfold reportedHashes
  split
  · next hempty =>
    rw [hb.length, BlockInfoMsg.brokerTxs, List.append_assoc, List.length_append] at hempty
    rw [List.eq_nil_of_length_eq_zero (Nat.eq_zero_of_add_eq_zero_left hempty), List.map_nil]
  · rfl

/-- What a report counts, in halves. -/
def BlockInfoMsg.brokerHalves (b : BlockInfoMsg) : ℕ :=
  2 * b.innerShardTxs.length + b.broker1Txs.length + b.broker2Txs.length

theorem TestTxNumCountBroker.updateMeasureRecord_of_broker (t : TestTxNumCountBroker)
    {b : BlockInfoMsg} (hb : b.OfBroker) :
    ∃ t', t.updateMeasureRecord b = some t' ∧
      t'.counts.halves = t.counts.halves + b.brokerHalves := by
  have hrelay : BlockInfoMsg.OfRelay
      { b with relay1Txs := b.broker1Txs, relay2Txs := b.broker2Txs } :=
    ⟨hb.epoch, hb.length.trans (by simp [BlockInfoMsg.brokerTxs, Nat.add_assoc])⟩
  obtain ⟨c, hc, hhalves⟩ := t.counts.updateMeasureRecord_of_relay hrelay
  exact ⟨⟨c⟩, by rw [updateMeasureRecord, hc]; rfl, hhalves⟩

/-- The list of a report for each part. -/
def BlockInfoMsg.listOf (b : BlockInfoMsg) : BrokerPart → List Transaction
  | .inner => b.innerShardTxs
  | .first => b.broker1Txs
  | .second => b.broker2Txs

theorem partOf_append (p : BrokerPart) (txs txs' : List Transaction) :
    partOf p (txs ++ txs') = partOf p txs ++ partOf p txs' :=
  List.filter_append txs txs'

/-- Lists of the three parts, one after the other: a part is its list. -/
theorem partOf_concat {inner first second : List Transaction}
    (hinner : ∀ tx ∈ inner, tx.part = .inner) (hfirst : ∀ tx ∈ first, tx.part = .first)
    (hsecond : ∀ tx ∈ second, tx.part = .second) :
    partOf .inner (inner ++ first ++ second) = inner ∧
      partOf .first (inner ++ first ++ second) = first ∧
      partOf .second (inner ++ first ++ second) = second := by
  have hall : ∀ {p : BrokerPart} {txs : List Transaction}, (∀ tx ∈ txs, tx.part = p) →
      partOf p txs = txs := fun h => List.filter_eq_self.2 fun tx htx => decide_eq_true (h tx htx)
  have hnone : ∀ {p q : BrokerPart} {txs : List Transaction}, (∀ tx ∈ txs, tx.part = p) → p ≠ q →
      partOf q txs = [] := fun h hne => List.filter_eq_nil_iff.2 fun tx htx heq =>
    hne ((h tx htx).symm.trans (of_decide_eq_true heq))
  simp [partOf_append, hall hinner, hall hfirst, hall hsecond, hnone hinner, hnone hfirst,
    hnone hsecond]

theorem BlockInfoMsg.OfBroker.partOf_eq {b : BlockInfoMsg} (hb : b.OfBroker) (p : BrokerPart) :
    partOf p b.brokerTxs = b.listOf p := by
  obtain ⟨hinner, hfirst, hsecond⟩ := partOf_concat hb.inner hb.first hb.second
  cases p with
  | inner => exact hinner
  | first => exact hfirst
  | second => exact hsecond

end BlockEmulator
