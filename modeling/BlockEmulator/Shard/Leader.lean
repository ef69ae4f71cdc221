import BlockEmulator.Lib.Scatter
import BlockEmulator.Pbft.Modules

set_option autoImplicit false

/-! # The leader of a shard

What the leader of a shard does with messages from the supervisor and from other shards
(`pbftOutside_module.go`, `pbftOutside_moduleCLPA.go`), when it proposes (`HandleinPropose`,
`accountTransfer_module.go`) and when its proposal is committed (`HandleinCommit`). The two modules
are the raw relay module and the CLPA module, which is the first with repartitioning added.

Consensus inside the shard is one step here: a request is proposed and later committed. A loop over a
Go map visits the keys in an order that the model gets as an argument. -/

namespace BlockEmulator

/-- Where the accounts of a partition live. -/
abbrev ShardMap := Finmap fun _ : Address => ℕ

/-- `message.AccountStateAndTx`. -/
structure AccountStateAndTx where
  addrs : List Address
  accountState : List AccountState
  fromShard : ℕ
  txs : List Transaction
deriving DecidableEq

/-- The messages a leader gets from outside its shard. -/
inductive ShardMsg where
  | injectTxs (txs : List Transaction)
  | relay (txs : List Transaction) (senderShardID senderSeq : ℕ)
  | partitionModifiedMap (partitionModified : ShardMap)
  | partitionReady (fromShard nowSeqID : ℕ)
  | accountStateAndTx (at' : AccountStateAndTx)

/-- `dataSupport.Data_supportCLPA`. -/
structure DataSupportCLPA where
  modifiedMap : List ShardMap := []
  accountTransferRound : ℕ := 0
  receivedNewAccountState : Accounts := ∅
  receivedNewTx : List Transaction := []
  accountStateTx : Finmap (fun _ : ℕ => AccountStateAndTx) := ∅
  partitionOn : Bool := false
  partitionReady : Finset ℕ := ∅
  readySeq : Finmap (fun _ : ℕ => ℕ) := ∅
  collectOver : Bool := false

/-- Where the proposing routine is: before the sequence lock, in one of the two waiting loops of a
    partition proposal, or done and waiting for the commit of its request. -/
inductive ProposePhase (H : Type) where
  | idle
  | waitReady
  | waitCollect
  | proposed (msg : RequestMsg H)

/-- The leader's part of `PbftConsensusNode` and its modules. -/
structure Leader (H : Type) [DecidableEq H] [Hashing H] where
  curChain : BlockChain H
  sequenceID : ℕ
  seqIDMap : Finmap (fun _ : ℕ => ℕ) := ∅
  cdm : DataSupportCLPA := {}
  phase : ProposePhase H := .idle
  alive : Bool := true

namespace Leader

variable {H : Type} [DecidableEq H] [Hashing H]

/-- A new leader over an opened chain. -/
def new (bc : BlockChain H) : Leader H where
  curChain := bc
  sequenceID := bc.height + 1

def shardID (n : Leader H) : ℕ := n.curChain.chainConfig.shardID

def shardNums (n : Leader H) : ℕ := n.curChain.chainConfig.shardNums

def crash (n : Leader H) : Leader H := { n with alive := false }

def addTxs2Pool (n : Leader H) (txs : List Transaction) : Leader H :=
  { n with curChain := { n.curChain with txpool := n.curChain.txpool.addTxs2Pool txs } }

/-- The block that waits for its commit. -/
def proposedBlock (n : Leader H) : Option (Block H) :=
  match n.phase with
  | .proposed (.block b) => some b
  | _ => none

theorem mem_proposedBlock {n : Leader H} {b : Block H} :
    b ∈ n.proposedBlock ↔ n.phase = .proposed (.block b) := by
  unfold proposedBlock
  split
  · next b' h => simp [h]
  · next hno => exact ⟨fun h => absurd h (by simp), fun h => absurd h (hno b)⟩

/-- One message to the leader of every other shard. -/
def toOtherShards (n : Leader H) (msg : ℕ → ShardMsg) : List (ℕ × ShardMsg) :=
  ((List.range n.shardNums).filter fun sid => sid ≠ n.shardID).map fun sid => (sid, msg sid)

/-! ## Messages from outside -/

/-- `handleInjectTx`. -/
def handleInjectTx (n : Leader H) (txs : List Transaction) : Leader H := n.addTxs2Pool txs

/-- `handleRelay`. -/
def handleRelay (n : Leader H) (txs : List Transaction) (senderShardID senderSeq : ℕ) : Leader H :=
  { n.addTxs2Pool txs with seqIDMap := Finmap.insert senderShardID senderSeq n.seqIDMap }

/-- `handlePartitionMsg`. -/
def handlePartitionMsg (n : Leader H) (partitionModified : ShardMap) : Leader H :=
  { n with cdm := { n.cdm with
      modifiedMap := n.cdm.modifiedMap ++ [partitionModified]
      partitionOn := true } }

/-- `handlePartitionReady`. -/
def handlePartitionReady (n : Leader H) (fromShard nowSeqID : ℕ) : Leader H :=
  { n with cdm := { n.cdm with
      partitionReady := insert fromShard n.cdm.partitionReady
      readySeq := Finmap.insert fromShard nowSeqID n.cdm.readySeq } }

/-- `handleAccountStateAndTxMsg`. -/
def handleAccountStateAndTxMsg (n : Leader H) (at' : AccountStateAndTx) : Leader H :=
  let accountStateTx := Finmap.insert at'.fromShard at' n.cdm.accountStateTx
  { n with cdm := { n.cdm with
      accountStateTx := accountStateTx
      collectOver := n.cdm.collectOver || accountStateTx.keys.card + 1 = n.shardNums } }

/-- `HandleMessageOutsidePBFT`: the raw relay module ignores the messages about partitions. -/
def handleMessageOutsidePBFT (ht : HandleType) (n : Leader H) : ShardMsg → Leader H
  | .injectTxs txs => n.handleInjectTx txs
  | .relay txs senderShardID senderSeq => n.handleRelay txs senderShardID senderSeq
  | .partitionModifiedMap m => if ht.partitions then n.handlePartitionMsg m else n
  | .partitionReady fromShard nowSeqID =>
    if ht.partitions then n.handlePartitionReady fromShard nowSeqID else n
  | .accountStateAndTx at' => if ht.partitions then n.handleAccountStateAndTxMsg at' else n

/-! ## Proposing -/

/-- `HandleinPropose` for a block. -/
def proposeBlock (n : Leader H) (now : ℕ) : Leader H :=
  match n.curChain.generateBlock 0 now with
  | none => n.crash
  | some (bc, b) => { n with curChain := bc, phase := .proposed (.block b) }

/-- `sendPartitionReady`. -/
def sendPartitionReady (n : Leader H) : Leader H × List (ℕ × ShardMsg) :=
  ({ n with
      cdm := { n.cdm with partitionReady := insert n.shardID n.cdm.partitionReady }
      phase := .waitReady },
    n.toOtherShards fun _ => .partitionReady n.shardID n.sequenceID)

/-- `getPartitionReady`; `rval-1 != val` is on `uint64`. -/
def getPartitionReady (n : Leader H) : Bool :=
  n.cdm.partitionReady.card = n.shardNums ∧
    ∀ sid ∈ n.seqIDMap.keys, ∃ rval ∈ n.cdm.readySeq.lookup sid,
      some (u64 (rval + (2 ^ 64 - 1))) = n.seqIDMap.lookup sid

/-- The accounts that leave this shard under a modified map. -/
def accountToFetch (n : Leader H) (m : ShardMap) : Finset Address :=
  m.keys.filter fun key =>
    (m.lookup key).getD 0 ≠ n.shardID ∧ n.curChain.getPartitionMap key = n.shardID

/-- The two conditions under which a queued transaction moves along with the accounts. -/
def goesAlong (addrSet : List Address) (ptx : Transaction) : Bool :=
  (ptx.sender ∈ addrSet && !ptx.relayed) || (ptx.recipient ∈ addrSet && ptx.relayed)

/-- The loop over the destination shards in `sendAccounts_and_Txs`, on the queue and with the fetched
    accounts beside their states. -/
def sendAccountsLoop (shardID : ℕ) (m : ShardMap) (fetched : List (Address × AccountState)) :
    List ℕ → List Transaction → List Transaction × List (ℕ × ShardMsg)
  | [], queue => (queue, [])
  | i :: rest, queue =>
    if i = shardID then sendAccountsLoop shardID m fetched rest queue
    else
      let send := fetched.filter fun p => (m.lookup p.1).getD 0 = i
      -- the transactions taken along leave the queue before the next destination is looked at
      let s := sweep (fun ptx => !goesAlong (send.map Prod.fst) ptx)
        (fun txSend ptx => if goesAlong (send.map Prod.fst) ptx then txSend ++ [ptx] else txSend)
        [] queue
      let at' : AccountStateAndTx :=
        { addrs := send.map Prod.fst
          accountState := send.map Prod.snd
          fromShard := shardID
          txs := s.2 }
      let r := sendAccountsLoop shardID m fetched rest s.1
      (r.1, (i, .accountStateAndTx at') :: r.2)

/-- One destination, with the sweep of the queue done. -/
theorem sendAccountsLoop_cons {shardID : ℕ} {m : ShardMap}
    {fetched : List (Address × AccountState)} {i : ℕ} (hi : i ≠ shardID) (rest : List ℕ)
    (queue : List Transaction) :
    sendAccountsLoop shardID m fetched (i :: rest) queue =
      let send := fetched.filter fun p => (m.lookup p.1).getD 0 = i
      let r := sendAccountsLoop shardID m fetched rest
        (queue.filter fun ptx => !goesAlong (send.map Prod.fst) ptx)
      (r.1, (i, .accountStateAndTx
        { addrs := send.map Prod.fst
          accountState := send.map Prod.snd
          fromShard := shardID
          txs := queue.filter (goesAlong (send.map Prod.fst)) }) :: r.2) := by
  rw [sendAccountsLoop, if_neg hi]
  simp only [sweep_eq, foldl_collect, List.nil_append]

/-- `sendAccounts_and_Txs`, with the accounts to fetch in the given order. -/
def sendAccountsAndTxs (n : Leader H) (order : List Address) :
    Option (Leader H × List (ℕ × ShardMsg)) :=
  match n.cdm.modifiedMap.getLast? with
  | none => some (n.crash, [])
  | some m =>
    if order.Nodup ∧ order.toFinset = n.accountToFetch m then
      match n.curChain.fetchAccounts order with
      | none => some (n.crash, [])
      | some asFetched =>
        let r := sendAccountsLoop n.shardID m (order.zip asFetched) (List.range n.shardNums)
          n.curChain.txpool.txQueue
        some ({ n with
          curChain := { n.curChain with txpool := { n.curChain.txpool with txQueue := r.1 } }
          phase := .waitCollect }, r.2)
    else none

/-- What `sendAccounts_and_Txs` does: it panics without a map or a state, and sends otherwise. -/
theorem sendAccountsAndTxs_cases {n n' : Leader H} {order : List Address}
    {msgs : List (ℕ × ShardMsg)} (h : n.sendAccountsAndTxs order = some (n', msgs)) :
    ((n.cdm.modifiedMap.getLast? = none ∨ n.curChain.fetchAccounts order = none) ∧
      n' = n.crash ∧ msgs = []) ∨
    ∃ m asFetched r, n.cdm.modifiedMap.getLast? = some m ∧
      order.toFinset = n.accountToFetch m ∧ n.curChain.fetchAccounts order = some asFetched ∧
      r = sendAccountsLoop n.shardID m (order.zip asFetched) (List.range n.shardNums)
        n.curChain.txpool.txQueue ∧
      n' = { n with
        curChain := { n.curChain with txpool := { n.curChain.txpool with txQueue := r.1 } }
        phase := .waitCollect } ∧
      msgs = r.2 := by
  unfold sendAccountsAndTxs at h
  split at h
  · next hlast =>
      obtain ⟨⟨⟩⟩ := h
      exact .inl ⟨.inl hlast, rfl, rfl⟩
  next m hlast =>
  obtain ⟨⟨-, horder⟩, h⟩ := Option.ite_none_right_eq_some.1 h
  split at h
  · next hfetch =>
      obtain ⟨⟨⟩⟩ := h
      exact .inl ⟨.inr hfetch, rfl, rfl⟩
  · next asFetched hfetch =>
      obtain ⟨⟨⟩⟩ := h
      exact .inr ⟨m, asFetched, _, hlast, horder, hfetch, rfl, rfl, rfl⟩

/-- The first loop of `proposePartition`, over the given shards in turn. -/
def collectReceived (n : Leader H) :
    List ℕ → Accounts × List Transaction → Accounts × List Transaction
  | [], acc => acc
  | sid :: rest, acc =>
    match n.cdm.accountStateTx.lookup sid with
    | none => n.collectReceived rest acc
    | some at' =>
      n.collectReceived rest
        ((at'.addrs.zip at'.accountState).foldl (fun st p => Finmap.insert p.1 p.2 st) acc.1,
          acc.2 ++ at'.txs)

/-- The check of `proposePartition` on one received transaction. -/
def receivedTxOk (n : Leader H) (m : ShardMap) (tx : Transaction) : Bool :=
  if tx.relayed then (m.lookup tx.recipient).getD 0 = n.shardID
  else (m.lookup tx.sender).getD 0 = n.shardID

/-- `proposePartition`, with the received messages and the received accounts in the given orders. -/
def proposePartition (n : Leader H) (shards : List ℕ) (addrs : List Address) : Option (Leader H) :=
  let r := n.collectReceived shards (n.cdm.receivedNewAccountState, n.cdm.receivedNewTx)
  if shards.Nodup ∧ shards.toFinset = n.cdm.accountStateTx.keys ∧
      addrs.Nodup ∧ addrs.toFinset = r.1.keys then
    -- no map left for this round: an index out of range
    match n.cdm.modifiedMap[n.cdm.accountTransferRound]? with
    | none => some n.crash
    | some m =>
      if r.2.all (n.receivedTxOk m) then
        some { n.addTxs2Pool r.2 with
          cdm := { n.cdm with receivedNewAccountState := r.1, receivedNewTx := r.2 }
          phase := .proposed (.partition
            { modifiedMap := m
              addrs := addrs
              accountState := addrs.map fun a => r.1.getOrNew a 0
              atid := n.cdm.modifiedMap.length }) }
      else some n.crash
  else none

/-- What `proposePartition` does with what it has collected: it panics if no map is left or if a
    transaction is in the wrong shard, and proposes otherwise. -/
theorem proposePartition_cases {n n' : Leader H} {shards : List ℕ} {addrs : List Address}
    (h : n.proposePartition shards addrs = some n') :
    ∃ r, r = n.collectReceived shards (n.cdm.receivedNewAccountState, n.cdm.receivedNewTx) ∧
      shards.Nodup ∧ shards.toFinset = n.cdm.accountStateTx.keys ∧ addrs.toFinset = r.1.keys ∧
      ((n' = n.crash ∧ ∀ m ∈ n.cdm.modifiedMap[n.cdm.accountTransferRound]?,
          r.2.all (n.receivedTxOk m) = false) ∨
        ∃ m, n.cdm.modifiedMap[n.cdm.accountTransferRound]? = some m ∧
          n' = { n.addTxs2Pool r.2 with
            cdm := { n.cdm with receivedNewAccountState := r.1, receivedNewTx := r.2 }
            phase := .proposed (.partition
              { modifiedMap := m
                addrs := addrs
                accountState := addrs.map fun a => r.1.getOrNew a 0
                atid := n.cdm.modifiedMap.length }) }) := by
  unfold proposePartition at h
  obtain ⟨⟨hnodup, hshards, -, haddrs⟩, h⟩ := Option.ite_none_right_eq_some.1 h
  refine ⟨_, rfl, hnodup, hshards, haddrs, ?_⟩
  split at h
  · next hnone =>
      obtain ⟨⟨⟩⟩ := h
      exact .inl ⟨rfl, by simp [hnone]⟩
  next m hm =>
  split at h
  · obtain ⟨⟨⟩⟩ := h
    exact .inr ⟨m, hm, rfl⟩
  · next hwrong =>
      obtain ⟨⟨⟩⟩ := h
      refine .inl ⟨rfl, fun m' hm' => ?_⟩
      obtain rfl : m = m' := Option.some.inj (hm.symm.trans hm')
      exact Bool.eq_false_iff.2 hwrong

/-! ## Committing -/

/-- `RelayMsgSend` after the relay pool has been filled. -/
def relayMsgSend (n : Leader H) (pool : TxPool) : List (ℕ × ShardMsg) :=
  n.toOtherShards fun sid => .relay ((pool.relayPool.lookup sid).getD []) n.shardID n.sequenceID

/-- The part of `accountTransfer_do` that is not about the chain. -/
def afterTransfer (cdm : DataSupportCLPA) (atm : AccountTransferMsg) : DataSupportCLPA :=
  { modifiedMap :=
      if cdm.modifiedMap.length ≠ atm.atid then cdm.modifiedMap ++ [atm.modifiedMap]
      else cdm.modifiedMap
    accountTransferRound := atm.atid
    receivedNewAccountState := ∅
    receivedNewTx := []
    accountStateTx := ∅
    partitionOn := false
    partitionReady := ∅
    readySeq := cdm.readySeq
    collectOver := false }

/-- The round is over: the sequence lock is free again. -/
def nextRound (n : Leader H) : Leader H :=
  { n with sequenceID := n.sequenceID + 1, phase := .idle }

/-- `HandleinCommit` for a block, and the end of the round. -/
def commitBlock (n : Leader H) (b : Block H) : Leader H × List (ℕ × ShardMsg) :=
  match n.curChain.addBlock b with
  | none => (n.crash, [])
  | some bc =>
    match bc.collectRelayTxs b.body { bc.txpool with relayPool := ∅ } with
    -- an incorrect transaction is found when the block has already been added
    | none => ({ n with curChain := bc }.crash, [])
    | some pool =>
      ({ n with curChain := { bc with txpool := pool.clearRelayPool } }.nextRound,
        n.relayMsgSend pool)

/-- `HandleinCommit` for a partition request, and the end of the round. -/
def commitPartition (n : Leader H) (atm : AccountTransferMsg) : Leader H :=
  match n.curChain.accountTransferDo atm with
  | none => n.crash
  | some bc => { n with curChain := bc, cdm := afterTransfer n.cdm atm }.nextRound

/-- A leader here does to its chain what the main node of the PBFT model does. -/
theorem commitBlock_curChain {ht : HandleType} (hht : ht = .relay ∨ ht = .clpa) (n : Leader H)
    (b : Block H) (reqTime : ℕ) :
    ((n.commitBlock b).1.curChain, (n.commitBlock b).1.alive) =
      ((ht.handleinCommit true n.curChain ⟨.block b, reqTime⟩).1,
        n.alive && (ht.handleinCommit true n.curChain ⟨.block b, reqTime⟩).2) := by
  have hmain : ∀ bc : BlockChain H, ht.mainNodeCommit bc b =
      (bc.collectRelayTxs b.body { bc.txpool with relayPool := ∅ }).map fun pool =>
        { bc with txpool := pool.clearRelayPool } := by
    intro bc
    rcases hht with rfl | rfl <;> rfl
  cases hadd : n.curChain.addBlock b with
  | none => simp [commitBlock, HandleType.handleinCommit, hadd, crash]
  | some bc =>
    cases hrelay : bc.collectRelayTxs b.body { bc.txpool with relayPool := ∅ } with
    | none => simp [commitBlock, HandleType.handleinCommit, hadd, hmain, hrelay, crash]
    | some pool => simp [commitBlock, HandleType.handleinCommit, hadd, hmain, hrelay, nextRound]

theorem commitPartition_curChain {ht : HandleType} (hht : ht.partitions = true) (n : Leader H)
    (atm : AccountTransferMsg) (reqTime : ℕ) :
    ((n.commitPartition atm).curChain, (n.commitPartition atm).alive) =
      ((ht.handleinCommit true n.curChain ⟨.partition atm, reqTime⟩).1,
        n.alive && (ht.handleinCommit true n.curChain ⟨.partition atm, reqTime⟩).2) := by
  cases hdo : n.curChain.accountTransferDo atm with
  | none => simp [commitPartition, HandleType.handleinCommit, hht, hdo, crash]
  | some bc => simp [commitPartition, HandleType.handleinCommit, hht, hdo, nextRound]

end Leader

end BlockEmulator
