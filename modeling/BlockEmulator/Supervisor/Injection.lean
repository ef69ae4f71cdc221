import BlockEmulator.Supervisor.BrokerWorld
import BlockEmulator.Supervisor.RelayCommittee

set_option autoImplicit false

/-! # From the dataset to the shards

A committee reads the CSV file in `MsgSendingControl`, gathers the transactions in batches and hands
every batch to `txSending`, which sends it on to the shards at a limited speed.

`txSending` loses nothing: its loop goes one index past the end, and what has gathered is sent at every
multiple of the speed and at the end, before the next transaction is taken up
(`Committee.txSending_delivers`). The reading loop does, in two ways. A batch is handed over when it is
full or when the total is reached, but not when the file ends; the transactions of the last batch are
dropped unless it happens to be full. And `data2tx` takes any text for an address: the first that is no
address panics when the committee looks for its shard, with the batch it is in already handed over and
everything after it unread (`ControlLoop.every_record_injected_iff`). -/

namespace BlockEmulator

/-! ## Sending a batch -/

/-- `message.InjectTxs`. -/
structure InjectTxs where
  txs : List Transaction
  toShardID : ℕ

section TxSending

variable (injectSpeed S : ℕ) (route : ℕ → Transaction → ℕ)

/-- One message to every shard, with what has gathered for it. -/
def sendAll (sendToShard : Finmap fun _ : ℕ => List Transaction) : List InjectTxs :=
  (List.range S).map fun sid => ⟨(sendToShard.lookup sid).getD [], sid⟩

/-- The loop of `txSending` over `len` transactions, from index `idx` on. The shard of a transaction is
    looked up at its turn. -/
def injectLoop (len : ℕ) :
    ℕ → (Finmap fun _ : ℕ => List Transaction) → List Transaction → List InjectTxs
  | idx, sendToShard, [] =>
    if 0 < idx ∧ (idx % injectSpeed = 0 ∨ idx = len) then sendAll S sendToShard else []
  | idx, sendToShard, tx :: rest =>
    let sends := 0 < idx ∧ (idx % injectSpeed = 0 ∨ idx = len)
    let gathered := if sends then ∅ else sendToShard
    let sendersid := route idx tx
    (if sends then sendAll S sendToShard else []) ++
      injectLoop len (idx + 1)
        (Finmap.insert sendersid ((gathered.lookup sendersid).getD [] ++ [tx]) gathered) rest

/-- `txSending`, with the way a committee finds the shard of a transaction. A speed of zero is divided
    by at the second index. -/
def txSendingBy (txlist : List Transaction) : Option (List InjectTxs) :=
  if injectSpeed = 0 ∧ txlist ≠ [] then none
  else some (injectLoop injectSpeed S route txlist.length 0 ∅ txlist)

end TxSending

/-- `txSending` of `RelayCommitteeModule`. -/
def relayTxSending (injectSpeed S : ℕ) : List Transaction → Option (List InjectTxs) :=
  txSendingBy injectSpeed S fun _ tx => addr2Shard S tx.sender

/-- `txSending` of `CLPACommitteeModule`. -/
def CLPACommittee.txSending {F : Type} (injectSpeed S : ℕ) (c : CLPACommittee F) :
    List Transaction → Option (List InjectTxs) :=
  txSendingBy injectSpeed S fun _ tx => c.fetchModifiedMap S tx.sender

/-- `txSending` of `BrokerCommitteeMod`. -/
def BrokerModule.txSending (injectSpeed S : ℕ) (b : BrokerModule) :
    List Transaction → Option (List InjectTxs) :=
  txSendingBy injectSpeed S fun _ tx =>
    if b.broker.isBroker tx.sender then addr2Shard S tx.recipient else addr2Shard S tx.sender

/-- `txSending` of `CLPACommitteeMod_Broker`, which takes its lock at every turn: between two turns an
    epoch may end, and the committee be another. -/
def CLPACommitteeBroker.txSendingTurns {F : Type} (injectSpeed S : ℕ)
    (c : ℕ → CLPACommitteeBroker F) : List Transaction → Option (List InjectTxs) :=
  txSendingBy injectSpeed S fun idx tx => (c idx).route S tx

/-- What shard `k` is sent, message after message. -/
def deliveredTo (k : ℕ) (msgs : List InjectTxs) : List Transaction :=
  (msgs.filter fun it => it.toShardID = k).flatMap InjectTxs.txs

section Delivery

variable {injectSpeed S : ℕ} {route : ℕ → Transaction → ℕ}

theorem deliveredTo_append (k : ℕ) (msgs msgs' : List InjectTxs) :
    deliveredTo k (msgs ++ msgs') = deliveredTo k msgs ++ deliveredTo k msgs' := by
  rw [deliveredTo, List.filter_append, List.flatMap_append]
  rfl

theorem deliveredTo_sendAll {k : ℕ} (hk : k < S)
    (sendToShard : Finmap fun _ : ℕ => List Transaction) :
    deliveredTo k (sendAll S sendToShard) = (sendToShard.lookup k).getD [] := by
  have hone : ((List.range S).filter fun sid => sid = k) = [k] := by
    rw [List.filter_eq, List.count_eq_one_of_mem List.nodup_range (List.mem_range.2 hk)]
    rfl
  rw [deliveredTo, sendAll, List.filter_map]
  simp only [Function.comp_def]
  rw [hone]
  simp

/-- The gathered transactions of shard `k` after one more. -/
theorem getD_lookup_gather (sendToShard : Finmap fun _ : ℕ => List Transaction) (sid k : ℕ)
    (tx : Transaction) :
    ((Finmap.insert sid ((sendToShard.lookup sid).getD [] ++ [tx]) sendToShard).lookup k).getD [] =
      (sendToShard.lookup k).getD [] ++ if sid = k then [tx] else [] := by
  by_cases hk : sid = k
  · rw [hk, Finmap.lookup_insert, if_pos rfl]
    rfl
  · rw [Finmap.lookup_insert_of_ne _ (Ne.symm hk), if_neg hk, List.append_nil]

/-- **The loop delivers everything**: what has gathered for the shard, and then what is still to come
    for it. -/
theorem deliveredTo_injectLoop {k : ℕ} (hk : k < S) {len idx : ℕ}
    {sendToShard : Finmap fun _ : ℕ => List Transaction} {txs : List Transaction}
    (hlen : idx + txs.length = len) (hstart : idx = 0 → (sendToShard.lookup k).getD [] = []) :
    deliveredTo k (injectLoop injectSpeed S route len idx sendToShard txs) =
      (sendToShard.lookup k).getD [] ++
        ((txs.zipIdx idx).filter fun p => route p.2 p.1 = k).map Prod.fst := by
  induction txs generalizing idx sendToShard with
  | nil =>
    rw [injectLoop]
    rcases Nat.eq_zero_or_pos idx with h0 | hpos
    · rw [if_neg (fun h => absurd h.1 (by omega)), hstart h0]
      rfl
    · rw [if_pos ⟨hpos, .inr hlen⟩, deliveredTo_sendAll hk]
      simp
  | cons tx rest ih =>
    have hrest : idx + 1 + rest.length = len := by
      rw [← hlen, List.length_cons]
      omega
    rw [injectLoop, deliveredTo_append, ih hrest (by simp), getD_lookup_gather, List.zipIdx_cons,
      List.filter_cons]
    split
    · next hsends =>
        rw [deliveredTo_sendAll hk]
        by_cases hroute : route idx tx = k <;> simp [hroute]
    · next hsends =>
        by_cases hroute : route idx tx = k <;> simp [hroute, deliveredTo]

theorem toShardID_lt_of_mem_injectLoop {len idx : ℕ}
    {sendToShard : Finmap fun _ : ℕ => List Transaction} {txs : List Transaction} {it : InjectTxs}
    (h : it ∈ injectLoop injectSpeed S route len idx sendToShard txs) : it.toShardID < S := by
  have hall : ∀ m, it ∈ sendAll S m → it.toShardID < S := fun m hit => by
    obtain ⟨sid, hsid, rfl⟩ := List.mem_map.1 hit
    exact List.mem_range.1 hsid
  induction txs generalizing idx sendToShard with
  | nil =>
    rw [injectLoop] at h
    split at h
    · exact hall _ h
    · exact absurd h (by simp)
  | cons tx rest ih =>
    rw [injectLoop] at h
    rcases List.mem_append.1 h with h | h
    · split at h
      · exact hall _ h
      · exact absurd h (by simp)
    · exact ih h

/-- **`txSending` delivers every transaction once**, to the shard it is routed to and in order. -/
theorem deliveredTo_txSendingBy (hspeed : 0 < injectSpeed) {txlist : List Transaction}
    (hroute : ∀ p ∈ txlist.zipIdx, route p.2 p.1 < S) :
    ∃ msgs, txSendingBy injectSpeed S route txlist = some msgs ∧
      ∀ k, deliveredTo k msgs =
        (txlist.zipIdx.filter fun p => route p.2 p.1 = k).map Prod.fst := by
  refine ⟨_, if_neg fun h => absurd h.1 (by omega), fun k => ?_⟩
  by_cases hk : k < S
  · rw [deliveredTo_injectLoop hk (by simp) (by simp)]
    rfl
  · -- nothing is sent to a shard that does not exist, and nothing is routed to it
    have hsent : ((injectLoop injectSpeed S route txlist.length 0 ∅ txlist).filter
        fun it => it.toShardID = k) = [] := by
      rw [List.filter_eq_nil_iff]
      intro it hit heq
      exact hk (of_decide_eq_true heq ▸ toShardID_lt_of_mem_injectLoop hit)
    have hnone : (txlist.zipIdx.filter fun p => route p.2 p.1 = k) = [] := by
      rw [List.filter_eq_nil_iff]
      intro p hp heq
      exact hk (of_decide_eq_true heq ▸ hroute p hp)
    rw [deliveredTo, hsent, hnone]
    rfl

/-- The messages of a list of pending transactions, which the broker world keeps instead of the map. -/
theorem injectMsgs_eq {route : Transaction → ℕ} {pending : List Transaction}
    {sendToShard : Finmap fun _ : ℕ => List Transaction}
    (h : ∀ sid, (sendToShard.lookup sid).getD [] = pending.filter fun tx => route tx = sid) :
    injectMsgs S route pending =
      (sendAll S sendToShard).map fun it => (it.toShardID, .outside (.injectTxs it.txs)) := by
  rw [injectMsgs, sendAll, List.map_map]
  simp only [Function.comp_def, h]

theorem txSendingLoop_eq {route : Transaction → ℕ} {idx : ℕ} {pending txs : List Transaction}
    {sendToShard : Finmap fun _ : ℕ => List Transaction}
    (h : ∀ sid, (sendToShard.lookup sid).getD [] = pending.filter fun tx => route tx = sid) :
    txSendingLoop injectSpeed S route idx pending txs =
      (injectLoop injectSpeed S (fun _ => route) (idx + txs.length) idx sendToShard txs).map
        fun it => (it.toShardID, .outside (.injectTxs it.txs)) := by
  induction txs generalizing idx pending sendToShard with
  | nil =>
    rw [txSendingLoop, injectLoop]
    by_cases hidx : 0 < idx
    · rw [if_pos hidx, if_pos ⟨hidx, .inr rfl⟩, injectMsgs_eq h]
    · rw [if_neg hidx, if_neg fun h => hidx h.1]
      rfl
  | cons tx rest ih =>
    have hlen : idx + (tx :: rest).length = idx + 1 + rest.length := by
      rw [List.length_cons]
      omega
    have hcond : (0 < idx ∧ (idx % injectSpeed = 0 ∨ idx = idx + (tx :: rest).length)) ↔
        (0 < idx ∧ idx % injectSpeed = 0) := by
      rw [List.length_cons]
      omega
    rw [txSendingLoop, injectLoop]
    simp only [hcond]
    rw [hlen]
    split
    · rw [List.map_append, ← injectMsgs_eq h]
      refine congrArg _ (ih fun sid => ?_)
      rw [getD_lookup_gather]
      by_cases hsid : route tx = sid <;> simp [hsid]
    · refine ih fun sid => ?_
      rw [getD_lookup_gather, h, List.filter_append]
      by_cases hsid : route tx = sid <;> simp [hsid]

/-- The broker world's `txSending` is the one above, with a committee that stays the same. -/
theorem CLPACommitteeBroker.txSending_eq {F : Type} (hspeed : 0 < injectSpeed)
    (c : CLPACommitteeBroker F) (txs : List Transaction) :
    some (c.txSending injectSpeed S txs) =
      (CLPACommitteeBroker.txSendingTurns injectSpeed S (fun _ => c) txs).map fun msgs =>
        msgs.map fun it => (it.toShardID, .outside (.injectTxs it.txs)) := by
  have hempty : ∀ sid, (Finmap.lookup sid (∅ : Finmap fun _ : ℕ => List Transaction)).getD [] =
      ([] : List Transaction).filter fun tx => c.route S tx = sid := fun sid => by simp
  rw [CLPACommitteeBroker.txSendingTurns, txSendingBy, if_neg fun h => absurd h.1 (by omega),
    Option.map_some, CLPACommitteeBroker.txSending, txSendingLoop_eq hempty, Nat.zero_add]

end Delivery

/-! ### The four committees -/

/-- A committee, with what its `txSending` looks at. -/
inductive Committee (F : Type) where
  | relay
  | clpa (c : CLPACommittee F)
  | broker (b : BrokerModule)
  | clpaBroker (c : ℕ → CLPACommitteeBroker F)

namespace Committee

variable {F : Type}

def txSending (injectSpeed S : ℕ) : Committee F → List Transaction → Option (List InjectTxs)
  | relay => relayTxSending injectSpeed S
  | clpa c => c.txSending injectSpeed S
  | broker b => b.txSending injectSpeed S
  | clpaBroker c => CLPACommitteeBroker.txSendingTurns injectSpeed S c

/-- Where an account lives, to the committee's knowledge at turn `idx`. -/
def home (S : ℕ) (idx : ℕ) : Committee F → Address → ℕ
  | relay | broker _ => addr2Shard S
  | clpa c => c.fetchModifiedMap S
  | clpaBroker c => (c idx).fetchModifiedMap S

/-- Whether an account is a broker; without brokers none is. -/
def isBroker (idx : ℕ) : Committee F → Address → Bool
  | relay | clpa _ => fun _ => false
  | broker b => b.broker.isBroker
  | clpaBroker c => (c idx).bcm.broker.isBroker

/-- The shard a transaction is for: the sender's, or the recipient's if the sender is a broker. -/
def shardOf (S : ℕ) (c : Committee F) (idx : ℕ) (tx : Transaction) : ℕ :=
  if c.isBroker idx tx.sender then c.home S idx tx.recipient else c.home S idx tx.sender

theorem txSending_eq (injectSpeed S : ℕ) (c : Committee F) :
    c.txSending injectSpeed S = txSendingBy injectSpeed S (c.shardOf S) := by
  cases c <;> rfl

/-- **Sending a batch.** If every transaction of the list is for one of the `S` shards, `txSending`
    sends shard `k` exactly those for `k`, in their order, in all its messages together. -/
theorem txSending_delivers (c : Committee F) {injectSpeed S : ℕ} (hspeed : 0 < injectSpeed)
    {txlist : List Transaction} (hroute : ∀ p ∈ txlist.zipIdx, c.shardOf S p.2 p.1 < S) :
    ∃ msgs, c.txSending injectSpeed S txlist = some msgs ∧
      ∀ k, deliveredTo k msgs =
        (txlist.zipIdx.filter fun p => c.shardOf S p.2 p.1 = k).map Prod.fst := by
  rw [txSending_eq]
  exact deliveredTo_txSendingBy hspeed hroute

/-- Three transactions, two at a time: the second message to the first shard brings the third. -/
theorem three_txs_delivered :
    ∃ t₁ t₂ t₃ : Transaction, ∃ msgs,
      (relay (F := Unit)).txSending 2 2 [t₁, t₂, t₃] = some msgs ∧
      deliveredTo 0 msgs = [t₁, t₃] ∧ deliveredTo 1 msgs = [t₂] := by
  let t₂ : Transaction := { BlockChain.transfer 2 with sender := BlockChain.bob }
  have hroute : ∀ p ∈ [BlockChain.transfer 1, t₂, BlockChain.transfer 3].zipIdx,
      (relay (F := Unit)).shardOf 2 p.2 p.1 < 2 := by decide
  obtain ⟨msgs, hsent, hall⟩ := txSending_delivers (relay (F := Unit)) two_pos hroute
  refine ⟨_, t₂, _, msgs, hsent, ?_, ?_⟩
  · rw [hall]
    decide
  · rw [hall]
    decide

end Committee

/-! ## Reading the file -/

/-! ### Placing what was read -/

/-- `Addr2Shard` on any text; `none` is a panic, on a text that is no address or with no shard. -/
def addr2ShardText (S : ℕ) (text : List Char) : Option ℕ :=
  if S = 0 then none else (parseHex (last8 text)).map (· % S)

/-- `fetchModifiedMap` of the committees with a partition map, on any text. -/
def fetchModifiedText (S : ℕ) (modifiedMap : List Char → Option ℕ) (key : List Char) : Option ℕ :=
  (modifiedMap key).or (addr2ShardText S key)

/-- `txSending` of the relay and the CLPA committee returns: every sender is placed, and a speed of zero
    is not divided by. -/
def sendsBySender (injectSpeed : ℕ) (place : List Char → Option ℕ) (txlist : List TextTx) : Bool :=
  (0 < injectSpeed || txlist.isEmpty) && txlist.all fun tx => (place tx.sender).isSome

/-- `dealTxByBroker` and `txSending` of the broker committees return. Both accounts are placed, and a
    transaction between shards goes to the first broker, if there is one. -/
def sendsByBroker (injectSpeed : ℕ) (place : List Char → Option ℕ) (brokerAddress : List (List Char))
    (txlist : List TextTx) : Bool :=
  (0 < injectSpeed || txlist.isEmpty) && txlist.all fun tx =>
    match place tx.recipient, place tx.sender with
    | some rSid, some sSid => rSid = sSid || !brokerAddress.isEmpty
    | _, _ => false

/-! ### The loops -/

/-- What `MsgSendingControl` does with what it has read: a batch is handed over to be sent, or an epoch
    of the partition algorithm is run. -/
inductive ControlEvent where
  | batch (txlist : List TextTx)
  | epoch

/-- The batches among the events. -/
def batchesOf (events : List ControlEvent) : List (List TextTx) :=
  events.filterMap fun
    | .batch txlist => some txlist
    | .epoch => none

section Control

variable (now : ℕ → ℕ) (sends : ℕ → List TextTx → Bool) (batchDataNum dataTotalNum : ℕ)

/-- The loop of `MsgSendingControl` of `RelayCommitteeModule`, from a count and a batch on. A record
    that is left out comes to the two conditions as well. A panic ends the loop, of `data2tx` or of the
    sending of a batch: `sends` tells of a batch, handed over after so many transactions, whether it
    can be sent. -/
def relayControl : ℕ → List TextTx → List CsvRecord → List ControlEvent
  | _, _, [] => []
  | nowDataNum, txlist, data :: rest =>
    match data.data2tx (now nowDataNum) nowDataNum with
    | none => []
    | some read =>
      let txlist := txlist ++ read.toList
      let nowDataNum := nowDataNum + read.toList.length
      let full := txlist.length = batchDataNum ∨ nowDataNum = dataTotalNum
      (if full then [.batch txlist] else []) ++
        if full ∧ sends nowDataNum txlist = false then []
        else if nowDataNum = dataTotalNum then []
        else relayControl nowDataNum (if full then [] else txlist) rest

/-- The loop of the other committees, which go on to the next record when one is left out. `due row`
    tells whether an epoch is due after the record, once the timer runs; the first batch starts it. -/
def committeeControl (due : ℕ → Bool) :
    ℕ → ℕ → Bool → List TextTx → List CsvRecord → List ControlEvent
  | _, _, _, _, [] => []
  | row, nowDataNum, timer, txlist, data :: rest =>
    match data.data2tx (now nowDataNum) nowDataNum with
    | none => []
    | some none => committeeControl due (row + 1) nowDataNum timer txlist rest
    | some (some tx) =>
      let txlist := txlist ++ [tx]
      let nowDataNum := nowDataNum + 1
      let full := txlist.length = batchDataNum ∨ nowDataNum = dataTotalNum
      let timer := timer || decide full
      (if full then [.batch txlist] else []) ++
        if full ∧ sends nowDataNum txlist = false then []
        else (if timer && due row then [.epoch] else []) ++
          if nowDataNum = dataTotalNum then []
          else committeeControl due (row + 1) nowDataNum timer (if full then [] else txlist) rest

/-- The transactions that `data2tx` accepts, up to a panic of its own. -/
def acceptedTxs : ℕ → List CsvRecord → List TextTx
  | _, [] => []
  | nowDataNum, data :: rest =>
    match data.data2tx (now nowDataNum) nowDataNum with
    | none => []
    | some none => acceptedTxs nowDataNum rest
    | some (some tx) => tx :: acceptedTxs (nowDataNum + 1) rest

end Control

/-- The reading loop of a committee. The epochs of the two with a partition algorithm need more than one
    shard, and come when their timer has run out; their map is the one they have after so many
    transactions. -/
inductive ControlLoop where
  | relay
  | clpa (timeout : ℕ → Bool) (modifiedMap : ℕ → List Char → Option ℕ)
  | broker (brokerAddress : List (List Char))
  | clpaBroker (timeout : ℕ → Bool) (modifiedMap : ℕ → List Char → Option ℕ)
      (brokerAddress : List (List Char))

namespace ControlLoop

/-- The batch handed over after `nowDataNum` transactions is sent without a panic. -/
def sends (injectSpeed S : ℕ) : ControlLoop → ℕ → List TextTx → Bool
  | relay, _ => sendsBySender injectSpeed (addr2ShardText S)
  | clpa _ modifiedMap, nowDataNum =>
    sendsBySender injectSpeed (fetchModifiedText S (modifiedMap nowDataNum))
  | broker brokerAddress, _ => sendsByBroker injectSpeed (addr2ShardText S) brokerAddress
  | clpaBroker _ modifiedMap brokerAddress, nowDataNum =>
    sendsByBroker injectSpeed (fetchModifiedText S (modifiedMap nowDataNum)) brokerAddress

/-- `MsgSendingControl`, until it stops reading. -/
def msgSendingControl (now : ℕ → ℕ) (injectSpeed S batchDataNum dataTotalNum : ℕ) (c : ControlLoop)
    (records : List CsvRecord) : List ControlEvent :=
  let committee := fun due => committeeControl now (c.sends injectSpeed S) batchDataNum dataTotalNum
    due 0 0 false [] records
  match c with
  | relay => relayControl now (c.sends injectSpeed S) batchDataNum dataTotalNum 0 [] records
  | clpa timeout _ | clpaBroker timeout _ _ => committee fun row => decide (1 < S) && timeout row
  | broker _ => committee fun _ => false

end ControlLoop

/-! ### The dataset of the relay world -/

/-- What is placed of a list, up to the first transaction that is not. -/
def placedTxs (digest : TxDigest) : List TextTx → List Transaction
  | [] => []
  | t :: ts =>
    match t.toTransaction digest with
    | none => []
    | some tx => tx :: placedTxs digest ts

/-- The dataset of the relay world is what is accepted, up to the total, and placed. -/
theorem readDataset_eq_take {digest : TxDigest} {now : ℕ → ℕ} {dataTotalNum n : ℕ}
    (hn : n < dataTotalNum) (records : List CsvRecord) :
    CsvRecord.readDataset digest now dataTotalNum n records =
      placedTxs digest ((acceptedTxs now n records).take (dataTotalNum - n)) := by
  induction records generalizing n with
  | nil => simp [CsvRecord.readDataset, acceptedTxs, placedTxs]
  | cons data rest ih =>
    rw [CsvRecord.readDataset, acceptedTxs]
    cases hread : data.data2tx (now n) n with
    | none => simp [placedTxs]
    | some read =>
      cases read with
      | none =>
        simp only [if_neg hn.ne]
        exact ih hn
      | some t =>
        obtain ⟨d, hd⟩ : ∃ d, dataTotalNum - n = d + 1 := ⟨dataTotalNum - n - 1, by omega⟩
        simp only [hd, List.take_succ_cons, placedTxs]
        cases t.toTransaction digest with
        | none => rfl
        | some tx =>
          simp only
          split
          · rw [show d = 0 by omega, List.take_zero, placedTxs]
          · rw [ih (by omega), show dataTotalNum - (n + 1) = d by omega]

/-! ### What is handed over -/

section HandedOver

variable {sends : ℕ → List TextTx → Bool} {batchDataNum dataTotalNum : ℕ}

/-- All that is handed over, after `n` transactions, from a batch on and with the transactions still to
    come. -/
def handedOver (sends : ℕ → List TextTx → Bool) (batchDataNum dataTotalNum : ℕ) :
    ℕ → List TextTx → List TextTx → List TextTx
  | _, _, [] => []
  | n, txlist, tx :: accepted =>
    let txlist := txlist ++ [tx]
    if n + 1 = dataTotalNum then txlist
    else if txlist.length = batchDataNum then
      txlist ++ if sends (n + 1) txlist then
        handedOver sends batchDataNum dataTotalNum (n + 1) [] accepted else []
    else handedOver sends batchDataNum dataTotalNum (n + 1) txlist accepted

/-- Cut into batches, every batch of the list but the last is sent. The list comes after `start`
    transactions. -/
def EarlierSent (sends : ℕ → List TextTx → Bool) (batchDataNum start : ℕ) (txs : List TextTx) : Prop :=
  ∀ k, (k + 1) * batchDataNum < txs.length →
    sends (start + (k + 1) * batchDataNum) ((txs.drop (k * batchDataNum)).take batchDataNum) = true

theorem earlierSent_of_length_le {start : ℕ} {txs : List TextTx} (h : txs.length ≤ batchDataNum) :
    EarlierSent sends batchDataNum start txs := by
  intro k hk
  have hle : 1 * batchDataNum ≤ (k + 1) * batchDataNum := Nat.mul_le_mul_right _ (by omega)
  omega

/-- The first batch is sent, unless nothing comes after it. -/
theorem earlierSent_append {start : ℕ} {txlist txs : List TextTx}
    (hfull : txlist.length = batchDataNum) :
    EarlierSent sends batchDataNum start (txlist ++ txs) ↔
      (txs ≠ [] → sends (start + batchDataNum) txlist = true) ∧
        EarlierSent sends batchDataNum (start + batchDataNum) txs := by
  have hhead : ((txlist ++ txs).drop (0 * batchDataNum)).take batchDataNum = txlist := by
    rw [Nat.zero_mul, List.drop_zero, ← hfull, List.take_left']
    rfl
  have htail : ∀ k, (txlist ++ txs).drop ((k + 1) * batchDataNum) = txs.drop (k * batchDataNum) :=
    fun k => by rw [Nat.succ_mul, Nat.add_comm, ← hfull, List.drop_length_add_append]
  have hshift : ∀ k, start + (k + 1 + 1) * batchDataNum =
      start + batchDataNum + (k + 1) * batchDataNum := fun k => by
    rw [Nat.succ_mul (k + 1)]
    omega
  have hlen : ∀ k, (k + 1 + 1) * batchDataNum < (txlist ++ txs).length ↔
      (k + 1) * batchDataNum < txs.length := fun k => by
    rw [Nat.succ_mul (k + 1), List.length_append, hfull]
    omega
  constructor
  · intro h
    constructor
    · intro hne
      have hpos := List.length_pos_iff.2 hne
      have hfirst := h 0 (by rw [List.length_append, hfull]; omega)
      rw [hhead, Nat.zero_add, Nat.one_mul] at hfirst
      exact hfirst
    · intro k hk
      have hnext := h (k + 1) ((hlen k).2 hk)
      rw [htail, hshift] at hnext
      exact hnext
  · rintro ⟨hfirst, hrest⟩ k hk
    cases k with
    | zero =>
      rw [hhead, Nat.zero_add, Nat.one_mul]
      refine hfirst fun hnil => ?_
      rw [hnil, List.append_nil, hfull] at hk
      omega
    | succ k =>
      rw [htail, hshift]
      exact hrest k ((hlen k).1 hk)

/-- **All is handed over** exactly if the total is reached or the last batch is full, and every batch
    before the last is sent. -/
theorem handedOver_eq_iff {start n : ℕ} {txlist : List TextTx} (hn : n < dataTotalNum)
    (hlen : txlist.length < batchDataNum) (hstart : n = start + txlist.length)
    (accepted : List TextTx) :
    handedOver sends batchDataNum dataTotalNum n txlist accepted =
        txlist ++ accepted.take (dataTotalNum - n) ↔
      (dataTotalNum ≤ n + accepted.length ∨ batchDataNum ∣ (txlist ++ accepted).length) ∧
        EarlierSent sends batchDataNum start (txlist ++ accepted.take (dataTotalNum - n)) := by
  induction accepted generalizing start n txlist with
  | nil =>
    rw [handedOver, List.take_nil, List.append_nil, List.length_nil]
    constructor
    · rintro rfl
      exact ⟨.inr (dvd_zero _), earlierSent_of_length_le (Nat.zero_le _)⟩
    · rintro ⟨hreached | hdvd, -⟩
      · omega
      · exact (List.length_eq_zero_iff.1 (Nat.eq_zero_of_dvd_of_lt hdvd hlen)).symm
  | cons tx rest ih =>
    obtain ⟨d, hd⟩ : ∃ d, dataTotalNum - n = d + 1 := ⟨dataTotalNum - n - 1, by omega⟩
    have hsplit : ∀ l : List TextTx, txlist ++ tx :: l = txlist ++ [tx] ++ l := fun l => by simp
    have hgrown : (txlist ++ [tx]).length = txlist.length + 1 := by simp
    rw [handedOver, hd, List.take_succ_cons, hsplit (rest.take d), hsplit rest, List.length_cons]
    by_cases htotal : n + 1 = dataTotalNum
    · obtain rfl : d = 0 := by omega
      rw [if_pos htotal, List.take_zero, List.append_nil]
      exact iff_of_true rfl ⟨.inl (by omega), earlierSent_of_length_le (by omega)⟩
    obtain rfl : d = dataTotalNum - (n + 1) := by omega
    have hcount : n + (rest.length + 1) = n + 1 + rest.length := by omega
    rw [if_neg htotal, hcount]
    by_cases hfull : (txlist ++ [tx]).length = batchDataNum
    · have hnext : n + 1 = start + batchDataNum := by omega
      have hdvd : batchDataNum ∣ (txlist ++ [tx] ++ rest).length ↔ batchDataNum ∣ rest.length := by
        rw [List.length_append, hfull]
        exact (Nat.dvd_add_iff_right (dvd_refl _)).symm
      rw [if_pos hfull, List.append_cancel_left_eq, earlierSent_append hfull, hdvd]
      cases hsent : sends (n + 1) (txlist ++ [tx]) with
      | true =>
        have hrest := @ih (n + 1) (n + 1) [] (by omega) (Nat.zero_lt_of_lt hlen) rfl
        rw [List.nil_append, List.nil_append] at hrest
        rw [if_pos rfl, hrest, ← hnext, hsent]
        simp
      | false =>
        rw [if_neg (by simp), ← hnext, hsent]
        constructor
        · intro hnil
          have hrest : rest = [] := by
            rcases List.take_eq_nil_iff.1 hnil.symm with h0 | h
            · omega
            · exact h
          subst hrest
          exact ⟨.inr (dvd_zero _), by simp, earlierSent_of_length_le (by simp)⟩
        · rintro ⟨-, hnil, -⟩
          by_contra hne
          exact absurd (hnil (Ne.symm hne)) (by simp)
    · rw [if_neg hfull]
      exact ih (by omega) (by omega) (by omega)

end HandedOver

/-- All that the batches among the events hold. -/
def handedOverBy (events : List ControlEvent) : List TextTx := (batchesOf events).flatten

section Batches

variable {now : ℕ → ℕ} {sends : ℕ → List TextTx → Bool} {batchDataNum dataTotalNum : ℕ}

theorem handedOverBy_append (events events' : List ControlEvent) :
    handedOverBy (events ++ events') = handedOverBy events ++ handedOverBy events' := by
  rw [handedOverBy, batchesOf, List.filterMap_append, List.flatten_append]
  rfl

theorem handedOverBy_batch (p : Prop) [Decidable p] (txlist : List TextTx) :
    handedOverBy (if p then [.batch txlist] else []) = if p then txlist else [] := by
  split
  · simp [handedOverBy, batchesOf]
  · rfl

theorem handedOverBy_epoch (p : Prop) [Decidable p] :
    handedOverBy (if p then [.epoch] else []) = [] := by
  split <;> rfl

theorem handedOverBy_stop (p : Prop) [Decidable p] (events : List ControlEvent) :
    handedOverBy (if p then [] else events) = if p then [] else handedOverBy events := by
  split <;> rfl

/-- One turn of a loop that has accepted `tx`; `after` is what the rest of it hands over. -/
theorem handedOver_turn {n : ℕ} {txlist accepted : List TextTx} {tx : TextTx}
    (hn : n < dataTotalNum) (hlen : txlist.length < batchDataNum)
    {after : List TextTx → List TextTx}
    (hafter : n + 1 < dataTotalNum → ∀ l : List TextTx, l.length < batchDataNum →
      after l = handedOver sends batchDataNum dataTotalNum (n + 1) l accepted) :
    (if (txlist ++ [tx]).length = batchDataNum ∨ n + 1 = dataTotalNum then txlist ++ [tx] else []) ++
      (if ((txlist ++ [tx]).length = batchDataNum ∨ n + 1 = dataTotalNum) ∧
          sends (n + 1) (txlist ++ [tx]) = false then []
        else if n + 1 = dataTotalNum then []
        else after (if (txlist ++ [tx]).length = batchDataNum ∨ n + 1 = dataTotalNum then []
          else txlist ++ [tx])) =
      handedOver sends batchDataNum dataTotalNum n txlist (tx :: accepted) := by
  rw [handedOver]
  by_cases htotal : n + 1 = dataTotalNum
  · simp [htotal]
  have hlt : n + 1 < dataTotalNum := by omega
  by_cases hfull : (txlist ++ [tx]).length = batchDataNum
  · simp only [hfull, htotal, or_false, true_and, if_true, if_false,
      hafter hlt [] (Nat.zero_lt_of_lt hlen)]
    cases sends (n + 1) (txlist ++ [tx]) <;> rfl
  · have hshort : (txlist ++ [tx]).length < batchDataNum := by
      rw [List.length_append, List.length_singleton] at hfull ⊢
      omega
    simp only [hfull, htotal, or_false, false_and, if_false, hafter hlt _ hshort, List.nil_append]

/-- **The loop with epochs** hands over that much, whenever the epochs come. -/
theorem handedOverBy_committeeControl {due : ℕ → Bool} {row n : ℕ} {timer : Bool}
    {txlist : List TextTx} {records : List CsvRecord} (hn : n < dataTotalNum)
    (hlen : txlist.length < batchDataNum) :
    handedOverBy
        (committeeControl now sends batchDataNum dataTotalNum due row n timer txlist records) =
      handedOver sends batchDataNum dataTotalNum n txlist (acceptedTxs now n records) := by
  induction records generalizing row n timer txlist with
  | nil => rfl
  | cons data rest ih =>
    rw [committeeControl, acceptedTxs]
    cases data.data2tx (now n) n with
    | none => rfl
    | some read =>
      cases read with
      | none => exact ih hn hlen
      | some tx =>
        simp only [handedOverBy_append, handedOverBy_batch, handedOverBy_stop, handedOverBy_epoch,
          List.nil_append]
        exact handedOver_turn hn hlen fun hlt l hl => ih hlt hl

/-- **The relay loop** does the same: a record that is left out meets neither condition. -/
theorem handedOverBy_relayControl {n : ℕ} {txlist : List TextTx} {records : List CsvRecord}
    (hn : n < dataTotalNum) (hlen : txlist.length < batchDataNum) :
    handedOverBy (relayControl now sends batchDataNum dataTotalNum n txlist records) =
      handedOver sends batchDataNum dataTotalNum n txlist (acceptedTxs now n records) := by
  induction records generalizing n txlist with
  | nil => rfl
  | cons data rest ih =>
    rw [relayControl, acceptedTxs]
    cases data.data2tx (now n) n with
    | none => rfl
    | some read =>
      cases read with
      | none =>
        have hnot : ¬(txlist.length = batchDataNum ∨ n = dataTotalNum) := by omega
        simp only [Option.toList_none, List.append_nil, List.length_nil, Nat.add_zero,
          if_neg hn.ne, List.nil_append, hnot, false_and, if_false]
        exact ih hn hlen
      | some tx =>
        simp only [handedOverBy_append, handedOverBy_batch, handedOverBy_stop]
        exact handedOver_turn hn hlen fun hlt l hl => ih hlt hl

namespace ControlLoop

variable {injectSpeed S : ℕ}

theorem handedOverBy_msgSendingControl (hbatch : 0 < batchDataNum) (htotal : 0 < dataTotalNum)
    (c : ControlLoop) (records : List CsvRecord) :
    handedOverBy (c.msgSendingControl now injectSpeed S batchDataNum dataTotalNum records) =
      handedOver (c.sends injectSpeed S) batchDataNum dataTotalNum 0 []
        (acceptedTxs now 0 records) := by
  cases c with
  | relay => exact handedOverBy_relayControl htotal hbatch
  | clpa timeout modifiedMap => exact handedOverBy_committeeControl htotal hbatch
  | broker brokerAddress => exact handedOverBy_committeeControl htotal hbatch
  | clpaBroker timeout modifiedMap brokerAddress => exact handedOverBy_committeeControl htotal hbatch

/-- **What is read is injected**, in file order, up to the total: exactly if the total is reached or the
    last batch is full when the file ends, and every batch before the last one is sent without a
    panic. -/
theorem every_record_injected_iff (hbatch : 0 < batchDataNum) (htotal : 0 < dataTotalNum)
    (c : ControlLoop) (records : List CsvRecord) :
    (batchesOf (c.msgSendingControl now injectSpeed S batchDataNum dataTotalNum records)).flatten =
        (acceptedTxs now 0 records).take dataTotalNum ↔
      (dataTotalNum ≤ (acceptedTxs now 0 records).length ∨
          batchDataNum ∣ (acceptedTxs now 0 records).length) ∧
        EarlierSent (c.sends injectSpeed S) batchDataNum 0
          ((acceptedTxs now 0 records).take dataTotalNum) := by
  have hiff : handedOver (c.sends injectSpeed S) batchDataNum dataTotalNum 0 []
      (acceptedTxs now 0 records) = [] ++ _ ↔ _ :=
    handedOver_eq_iff htotal hbatch rfl (acceptedTxs now 0 records)
  rw [List.nil_append, List.nil_append, Nat.sub_zero, Nat.zero_add] at hiff
  rw [← handedOverBy, handedOverBy_msgSendingControl hbatch htotal, hiff]

/-- Three records in batches of two: the file ends, and the third transaction is never sent. -/
theorem last_batch_dropped :
    let records := List.replicate 3 (ShardWorld.sampleRecord "5")
    (batchesOf (relay.msgSendingControl id 1 2 2 10 records)).flatten ≠
        (acceptedTxs id 0 records).take 10 ∧
      (acceptedTxs id 0 records).length = 3 ∧
      (batchesOf (relay.msgSendingControl id 1 2 2 10 records)).flatten.length = 2 := by
  decide +kernel

/-- With a total of three everything is sent. -/
theorem total_reached_injected :
    let records := List.replicate 3 (ShardWorld.sampleRecord "5")
    (batchesOf (relay.msgSendingControl id 1 2 2 3 records)).flatten =
      (acceptedTxs id 0 records).take 3 := by
  have hreached : 3 = (acceptedTxs id 0
      (List.replicate 3 (ShardWorld.sampleRecord "5"))).length := by decide +kernel
  have hfirst : relay.sends 1 2 2 ((acceptedTxs id 0
      (List.replicate 3 (ShardWorld.sampleRecord "5"))).take 2) = true := by decide +kernel
  refine (every_record_injected_iff two_pos three_pos relay _).2 ⟨.inl hreached.le, ?_⟩
  intro k hk
  rw [List.length_take, ← hreached] at hk
  obtain rfl : k = 0 := by omega
  simpa [List.take_take] using hfirst

-- A record whose sender is no address, between two others and in batches of one: it is read and handed
-- over, the process panics, and the third record is never read.
example :
    let records := [ShardWorld.sampleRecord "5",
      (ShardWorld.sampleRecord "5").set 0 "0x00000000000000z".toList, ShardWorld.sampleRecord "5"]
    (acceptedTxs id 0 records).length = 3 ∧
      (batchesOf (relay.msgSendingControl id 1 2 1 10 records)).flatten =
        (acceptedTxs id 0 records).take 2 := by
  decide +kernel

end ControlLoop

end Batches

end BlockEmulator
