import BlockEmulator.Chain.BlockChain

set_option autoImplicit false

/-! # What a node does with a request

The four modules a node can run with (`ExtraOpInConsensus`), as far as they touch the chain: what they
check in the pre-prepare phase, what they execute on commit, and what they execute when a lagging node
gets old requests. A `log.Panic` ends the process; what it has written to the chain stays. -/

namespace BlockEmulator

/-- The `messageHandleType` of `NewPbftNode`. -/
inductive HandleType where
  | relay
  | broker
  | clpa
  | clpaBroker
deriving DecidableEq

/-- The modules that also propose and execute partition requests. -/
def HandleType.partitions : HandleType → Bool
  | relay => false
  | broker => false
  | clpa => true
  | clpaBroker => true

variable {H : Type} [DecidableEq H] [Hashing H]

namespace BlockChain

/-- The loop over the body in `HandleinCommit` of the relay modules: transactions with a remote
    recipient are marked and put into the relay pool; `none` is the panic on an incorrect one. -/
def collectRelayTxs (bc : BlockChain H) : List Transaction → TxPool → Option TxPool
  | [], pool => some pool
  | tx :: txs, pool =>
    let ssid := bc.getPartitionMap tx.sender
    let rsid := bc.getPartitionMap tx.recipient
    if !tx.relayed && ssid ≠ bc.chainConfig.shardID then none
    else if tx.relayed && rsid ≠ bc.chainConfig.shardID then none
    else if rsid ≠ bc.chainConfig.shardID then
      bc.collectRelayTxs txs (pool.addRelayTx { tx with relayed := true } rsid)
    else bc.collectRelayTxs txs pool

/-- The checks on one transaction in `HandleinCommit` of the CLPA broker module. -/
def brokerTxOk (bc : BlockChain H) (tx : Transaction) : Bool :=
  let senderIsInshard : Bool := bc.getPartitionMap tx.sender = bc.chainConfig.shardID
  let recipientIsInshard : Bool := bc.getPartitionMap tx.recipient = bc.chainConfig.shardID
  let isBroker1Tx : Bool := some tx.sender = tx.originalSender
  let isBroker2Tx : Bool := some tx.recipient = tx.finalRecipient
  (!isBroker1Tx || senderIsInshard) && (!isBroker2Tx || recipientIsInshard) &&
    (tx.rawTxHash.isSome ||
      if tx.hasBroker then (if tx.senderIsBroker then recipientIsInshard else senderIsInshard)
      else senderIsInshard && recipientIsInshard)

/-- The chain part of `accountTransfer_do`: new homes first, then the received accounts. -/
def accountTransferDo (bc : BlockChain H) (atm : AccountTransferMsg) : Option (BlockChain H) :=
  { bc with partitionMap := atm.modifiedMap ∪ bc.partitionMap }.addAccounts atm.addrs
    atm.accountState

end BlockChain

namespace HandleType

/-- `HandleinPrePrepare`; `none` is the panic of decoding a partition request as a block. -/
def handleinPrePrepare (ht : HandleType) (bc : BlockChain H) (r : Request H) : Option Bool :=
  match r.msg with
  | .block b => some (bc.isValidBlock b)
  | .partition _ => if ht.partitions then some true else none

/-- What the main node does in `HandleinCommit` after adding a block, up to the messages it sends to
    other shards. -/
def mainNodeCommit (ht : HandleType) (bc : BlockChain H) (b : Block H) : Option (BlockChain H) :=
  match ht with
  | relay | clpa =>
    (bc.collectRelayTxs b.body { bc.txpool with relayPool := ∅ }).map fun pool =>
      { bc with txpool := pool.clearRelayPool }
  | broker => some bc
  | clpaBroker => if b.body.all bc.brokerTxOk then some bc else none

/-- `HandleinCommit`: the chain afterwards, and whether the process survives. -/
def handleinCommit (ht : HandleType) (isMain : Bool) (bc : BlockChain H) (r : Request H) :
    BlockChain H × Bool :=
  match r.msg with
  | .partition atm =>
    if ht.partitions then
      match bc.accountTransferDo atm with
      | some bc' => (bc', true)
      | none => (bc, false)
    else (bc, false)
  | .block b =>
    match bc.addBlock b with
    | none => (bc, false)
    | some bc' =>
      if isMain then
        match ht.mainNodeCommit bc' b with
        | some bc'' => (bc'', true)
        | none => (bc', false)
      else (bc', true)

/-- One request of a `SendOldMessage` in `HandleforSequentialRequest`. -/
def sequentialRequest (ht : HandleType) (bc : BlockChain H) (r : Request H) :
    Option (BlockChain H) :=
  match r.msg with
  | .block b => bc.addBlock b
  | .partition atm => if ht.partitions then bc.accountTransferDo atm else some bc

/-- Requests of a `SendOldMessage`, one after the other; `false` is a panic on the way. -/
def sequentialRequests (ht : HandleType) : BlockChain H → List (Request H) → BlockChain H × Bool
  | bc, [] => (bc, true)
  | bc, r :: rs =>
    match ht.sequentialRequest bc r with
    | none => (bc, false)
    | some bc' => ht.sequentialRequests bc' rs

/-- How the loop of `HandleforSequentialRequest` ends: with a panic while it executes a request, or
    with one because it reads beyond the last of them, or after its last height. -/
inductive ReplayEnd where
  | finished
  | panicked
  | outOfRange
deriving DecidableEq

/-- The loop of `HandleforSequentialRequest` from `height` on, one request for each height up to
    `seqEnd`. The heights are `uint64` and start again from zero after the last one. -/
def replay (ht : HandleType) (seqEnd : ℕ) :
    BlockChain H → ℕ → List (Request H) → BlockChain H × ReplayEnd
  | bc, height, [] => (bc, if height ≤ seqEnd then .outOfRange else .finished)
  | bc, height, r :: rs =>
    if height ≤ seqEnd then
      match ht.sequentialRequest bc r with
      | none => (bc, .panicked)
      | some bc' => ht.replay seqEnd bc' (u64 (height + 1)) rs
    else (bc, .finished)

/-- The count check of `HandleforSequentialRequest`, in the arithmetic of the source; the raw broker
    module subtracts the other way round. -/
def enoughOldRequests (ht : HandleType) (seqStart seqEnd : ℕ) (count : ℕ) : Bool :=
  match ht with
  | broker => Int.bmod ((seqStart : ℤ) - seqEnd) (2 ^ 64) = count
  | _ => Int.bmod ((seqEnd : ℤ) - seqStart + 1) (2 ^ 64) = count

/-- `HandleforSequentialRequest`: the chain, and whether the process survives. -/
def handleforSequentialRequest (ht : HandleType) (bc : BlockChain H) (seqStart seqEnd : ℕ)
    (oldRequest : List (Request H)) : BlockChain H × Bool :=
  if ht.enoughOldRequests seqStart seqEnd oldRequest.length then
    let r := ht.replay seqEnd bc seqStart oldRequest
    (r.1, r.2 = .finished)
  else (bc, true)

/-! ## What the loop over old requests does -/

theorem replay_of_lt (ht : HandleType) {bc : BlockChain H} {seqEnd height : ℕ}
    (h : seqEnd < height) (rs : List (Request H)) :
    ht.replay seqEnd bc height rs = (bc, .finished) := by
  cases rs with
  | nil => rw [replay, if_neg (not_le.2 h)]
  | cons r rs => rw [replay, if_neg (not_le.2 h)]

/-- Where there is a height for every request, all of them are executed up to the first panic. -/
theorem replay_fst (ht : HandleType) {bc : BlockChain H} {seqEnd height : ℕ} {rs : List (Request H)}
    (h : rs.length ≤ seqEnd + 1 - height) :
    (ht.replay seqEnd bc height rs).1 = (ht.sequentialRequests bc rs).1 := by
  induction rs generalizing bc height with
  | nil => rfl
  | cons r rs ih =>
    rw [List.length_cons] at h
    rw [replay, if_pos (by omega), sequentialRequests]
    cases ht.sequentialRequest bc r with
    | none => rfl
    | some bc' =>
      -- after the last `uint64` there are only more heights left
      have hwrap : u64 (height + 1) ≤ height + 1 := Nat.mod_le _ _
      exact ih (by omega)

/-- With fewer requests than heights the loop never comes to its end. -/
theorem replay_snd_ne_finished (ht : HandleType) {bc : BlockChain H} {seqEnd height : ℕ}
    {rs : List (Request H)} (h : rs.length < seqEnd + 1 - height) :
    (ht.replay seqEnd bc height rs).2 ≠ .finished := by
  induction rs generalizing bc height with
  | nil =>
    rw [List.length_nil] at h
    rw [replay, if_pos (by omega)]
    simp
  | cons r rs ih =>
    rw [List.length_cons] at h
    rw [replay, if_pos (by omega)]
    cases ht.sequentialRequest bc r with
    | none => simp
    | some bc' =>
      have hwrap : u64 (height + 1) ≤ height + 1 := Nat.mod_le _ _
      exact ih (by omega)

/-- With as many requests as heights, and none of them the last `uint64`, it does. -/
theorem replay_of_length (ht : HandleType) {bc bc' : BlockChain H} {seqEnd height : ℕ}
    {rs : List (Request H)} (hend : seqEnd + 1 < 2 ^ 64) (hlen : height + rs.length = seqEnd + 1)
    (hrs : ht.sequentialRequests bc rs = (bc', true)) :
    ht.replay seqEnd bc height rs = (bc', .finished) := by
  induction rs generalizing bc height with
  | nil =>
    rw [List.length_nil] at hlen
    rw [replay, if_neg (by omega), (Prod.mk.inj hrs).1]
  | cons r rs ih =>
    rw [List.length_cons] at hlen
    rw [sequentialRequests] at hrs
    rw [replay, if_pos (by omega)]
    cases hreq : ht.sequentialRequest bc r with
    | none =>
      rw [hreq] at hrs
      exact absurd (Prod.mk.inj hrs).2 (by simp)
    | some bc₁ =>
      rw [hreq] at hrs
      have hnext : u64 (height + 1) = height + 1 := Nat.mod_eq_of_lt (by omega)
      simp only [hnext]
      exact ih (by omega) hrs

/-- A count that passes the check is not larger than the number of heights. -/
theorem length_le_of_enoughOldRequests {ht : HandleType} {seqStart seqEnd count : ℕ}
    (h : ht.enoughOldRequests seqStart seqEnd count = true) (hle : seqStart ≤ seqEnd) :
    count ≤ seqEnd + 1 - seqStart := by
  have hcount : Int.bmod ((seqStart : ℤ) - seqEnd) (2 ^ 64) = count ∨
      Int.bmod ((seqEnd : ℤ) - seqStart + 1) (2 ^ 64) = count := by
    cases ht with
    | broker => exact .inl (of_decide_eq_true h)
    | relay => exact .inr (of_decide_eq_true h)
    | clpa => exact .inr (of_decide_eq_true h)
    | clpaBroker => exact .inr (of_decide_eq_true h)
  rw [Int.bmod_def, Int.bmod_def] at hcount
  omega

/-- What passes the check and is executed: one request for each height. -/
theorem handleforSequentialRequest_fst {ht : HandleType} {bc : BlockChain H} {seqStart seqEnd : ℕ}
    {oldRequest : List (Request H)}
    (h : ht.enoughOldRequests seqStart seqEnd oldRequest.length = true) :
    (ht.handleforSequentialRequest bc seqStart seqEnd oldRequest).1 =
      (ht.sequentialRequests bc (oldRequest.take (seqEnd + 1 - seqStart))).1 := by
  rw [handleforSequentialRequest, if_pos h]
  rcases Nat.lt_or_ge seqEnd seqStart with hlt | hle
  · have hnone : seqEnd + 1 - seqStart = 0 := by omega
    rw [ht.replay_of_lt hlt, hnone]
    rfl
  · have hlen := length_le_of_enoughOldRequests h hle
    rw [List.take_of_length_le hlen]
    exact ht.replay_fst hlen

end HandleType

end BlockEmulator
