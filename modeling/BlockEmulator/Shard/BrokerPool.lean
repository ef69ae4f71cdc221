import BlockEmulator.Shard.Migration

set_option autoImplicit false

/-! # The pool of a broker shard

The CLPA broker module's version of `sendAccounts_and_Txs` (`accountTransfermod_Broker.go`). A
transaction waits in a shard because of one of its ends or of both: a plain one needs both ends here,
one that touches a broker the other end, the two halves of a brokered transfer their original sender
and their final recipient. When accounts move, the loop sends a transaction after the end it depends
on; a plain one goes back to the supervisor, which has it brokered.

The loop looks at one end of a transaction that is not plain, `HandleinCommit` at either end that has
a rule: the two agree on transactions that have a rule for one end only. -/

namespace BlockEmulator

variable {H : Type} [DecidableEq H] [Hashing H] {S : ℕ}

/-! ## The loop -/

/-- What the loop decides about a queued transaction: the two flags of the source, and whether it is
    appended to `txsBeCross`. -/
structure TransferFlags where
  beSend : Bool
  beRemoved : Bool
  beCross : Bool

namespace Leader

/-- The case distinction of the loop. -/
def transferFlags (addrSet : List Address) (ptx : Transaction) : TransferFlags :=
  let ok1 : Bool := ptx.sender ∈ addrSet
  let ok2 : Bool := ptx.recipient ∈ addrSet
  if ptx.rawTxHash = none then
    if ptx.hasBroker then
      if ptx.senderIsBroker then ⟨ok2, ok2, false⟩ else ⟨ok1, ok1, false⟩
    else if ok1 || ok2 then ⟨false, true, true⟩
    else ⟨false, false, false⟩
  else if ptx.finalRecipient = some ptx.recipient then ⟨ok2, ok2, false⟩
  else if ptx.originalSender = some ptx.sender then ⟨ok1, ok1, false⟩
  else ⟨false, false, false⟩

/-- The loop over the destination shards: the queue, the messages and `txsBeCross`. -/
def sendBrokerLoop (shardID : ℕ) (m : ShardMap) (fetched : List (Address × AccountState)) :
    List ℕ → List Transaction → List Transaction →
      List Transaction × List (ℕ × ShardMsg) × List Transaction
  | [], queue, txsBeCross => (queue, [], txsBeCross)
  | i :: rest, queue, txsBeCross =>
    if i = shardID then sendBrokerLoop shardID m fetched rest queue txsBeCross
    else
      let send := sentTo m fetched i
      let flags := transferFlags (send.map Prod.fst)
      let s := sweep (fun ptx => !(flags ptx).beRemoved)
        (fun (acc : List Transaction × List Transaction) ptx =>
          (if (flags ptx).beSend then acc.1 ++ [ptx] else acc.1,
            if (flags ptx).beCross then acc.2 ++ [ptx] else acc.2))
        ([], txsBeCross) queue
      let r := sendBrokerLoop shardID m fetched rest s.1 s.2.2
      (r.1, (i, .accountStateAndTx (transferMsg shardID send s.2.1)) :: r.2.1, r.2.2)

/-- `sendAccounts_and_Txs` of the broker module, with the accounts to fetch in the given order; the
    last component is the `InnerTx2CrossTx` message to the supervisor. -/
def sendBrokerAccountsAndTxs (n : Leader H) (order : List Address) :
    Option (Leader H × List (ℕ × ShardMsg) × List Transaction) :=
  match n.cdm.modifiedMap.getLast? with
  | none => some (n.crash, [], [])
  | some m =>
    if order.Nodup ∧ order.toFinset = n.accountToFetch m then
      match n.curChain.fetchAccounts order with
      | none => some (n.crash, [], [])
      | some asFetched =>
        let r := sendBrokerLoop n.shardID m (order.zip asFetched) (List.range n.shardNums)
          n.curChain.txpool.txQueue []
        some ({ n with
          curChain := { n.curChain with txpool := { n.curChain.txpool with txQueue := r.1 } }
          phase := .waitCollect }, r.2.1, r.2.2)
    else none

end Leader

/-! ## Ends and rules -/

namespace Transaction

/-- Neither a half of a brokered transfer nor a transfer from or to a broker. -/
def plain (tx : Transaction) : Bool := tx.rawTxHash = none && !tx.hasBroker

/-- `HandleinCommit` wants the sender here. -/
def needsSender (tx : Transaction) : Bool :=
  tx.originalSender = some tx.sender ||
    (tx.rawTxHash = none && !(tx.hasBroker && tx.senderIsBroker))

/-- `HandleinCommit` wants the recipient here. -/
def needsRecipient (tx : Transaction) : Bool :=
  tx.finalRecipient = some tx.recipient ||
    (tx.rawTxHash = none && (!tx.hasBroker || tx.senderIsBroker))

/-- The rules for a transaction that is not plain are about one end. -/
def OneEnded (tx : Transaction) : Prop :=
  tx.plain = false → ¬ (tx.needsSender = true ∧ tx.needsRecipient = true)

instance (tx : Transaction) : Decidable tx.OneEnded := inferInstanceAs (Decidable (_ → _))

/-- The transaction keeps the rules in shard `sid`. -/
def PlacedAt (S : ℕ) (M : ShardMap) (sid : ℕ) (tx : Transaction) : Prop :=
  (tx.needsSender = true → homeUnder S M tx.sender = sid) ∧
    (tx.needsRecipient = true → homeUnder S M tx.recipient = sid)

end Transaction

theorem BlockChain.brokerTxOk_iff (bc : BlockChain H) (tx : Transaction) :
    bc.brokerTxOk tx = true ↔
      tx.PlacedAt bc.chainConfig.shardNums bc.partitionMap bc.chainConfig.shardID := by
  have hhome : ∀ a, bc.getPartitionMap a = homeUnder bc.chainConfig.shardNums bc.partitionMap a :=
    fun _ => rfl
  unfold BlockChain.brokerTxOk Transaction.PlacedAt Transaction.needsSender
    Transaction.needsRecipient
  simp only [hhome, eq_comm (a := some tx.sender), eq_comm (a := some tx.recipient)]
  cases tx.rawTxHash <;> cases tx.hasBroker <;> cases tx.senderIsBroker <;>
    simp <;> grind

namespace Leader

section Flags

variable {addrSet : List Address} {tx : Transaction}

/-- What leaves the queue is reported if it is plain, and sent otherwise. -/
theorem transferFlags_eq (addrSet : List Address) (tx : Transaction) :
    (transferFlags addrSet tx).beSend = ((transferFlags addrSet tx).beRemoved && !tx.plain) ∧
      (transferFlags addrSet tx).beCross = ((transferFlags addrSet tx).beRemoved && tx.plain) := by
  unfold transferFlags Transaction.plain
  grind

/-- The loop follows the sender of a transaction that depends on it. -/
theorem beRemoved_of_sender (hone : tx.OneEnded) (hneeds : tx.needsSender = true)
    (hmem : tx.sender ∈ addrSet) : (transferFlags addrSet tx).beRemoved = true := by
  unfold Transaction.OneEnded Transaction.plain Transaction.needsSender
    Transaction.needsRecipient at *
  unfold transferFlags
  grind

/-- The loop follows the recipient of a transaction that depends on it. -/
theorem beRemoved_of_recipient (hone : tx.OneEnded) (hneeds : tx.needsRecipient = true)
    (hmem : tx.recipient ∈ addrSet) : (transferFlags addrSet tx).beRemoved = true := by
  unfold Transaction.OneEnded Transaction.plain Transaction.needsSender
    Transaction.needsRecipient at *
  unfold transferFlags
  grind

/-- What is sent has the end it depends on among the accounts that are sent. -/
theorem mem_of_beRemoved (hone : tx.OneEnded) (hplain : tx.plain = false)
    (h : (transferFlags addrSet tx).beRemoved = true) :
    (tx.needsSender = true → tx.sender ∈ addrSet) ∧
      (tx.needsRecipient = true → tx.recipient ∈ addrSet) := by
  unfold Transaction.OneEnded Transaction.plain Transaction.needsSender
    Transaction.needsRecipient at *
  unfold transferFlags at h
  grind

/-- What leaves the queue has an end among the accounts that are sent. -/
theorem end_mem_of_beRemoved (h : (transferFlags addrSet tx).beRemoved = true) :
    tx.sender ∈ addrSet ∨ tx.recipient ∈ addrSet := by
  unfold transferFlags at h
  grind

end Flags

/-- The loop scatters the queue; what a destination takes is split into what is sent there and what
    is reported. -/
theorem sendBrokerLoop_eq (shardID : ℕ) (m : ShardMap) (fetched : List (Address × AccountState))
    (sids : List ℕ) (queue txsBeCross : List Transaction) :
    sendBrokerLoop shardID m fetched sids queue txsBeCross =
      let r := scatter
        (fun i tx => (transferFlags ((sentTo m fetched i).map Prod.fst) tx).beRemoved)
        (sids.filter fun i => i ≠ shardID) queue
      (r.1, r.2.map fun p => (p.1, .accountStateAndTx
          (transferMsg shardID (sentTo m fetched p.1) (p.2.filter fun tx => !tx.plain))),
        txsBeCross ++ r.2.flatMap fun p => p.2.filter Transaction.plain) := by
  induction sids generalizing queue txsBeCross with
  | nil => simp [sendBrokerLoop, scatter]
  | cons i sids ih =>
    by_cases hi : i = shardID
    · rw [sendBrokerLoop, if_pos hi, ih, List.filter_cons_of_neg (by simpa using hi)]
    · rw [sendBrokerLoop, if_neg hi, List.filter_cons_of_pos (by simpa using hi)]
      simp only [ih, sweep_eq, foldl_collect_two, scatter, List.map_cons, List.flatMap_cons,
        List.nil_append, List.append_assoc, List.filter_filter,
        funext fun tx => (transferFlags_eq ((sentTo m fetched i).map Prod.fst) tx).1,
        funext fun tx => (transferFlags_eq ((sentTo m fetched i).map Prod.fst) tx).2,
        Bool.and_comm]

/-- The destination takes the transaction out of the queue. -/
def takes (D : ShardMap) (fetched : List (Address × AccountState)) (i : ℕ) (tx : Transaction) :
    Bool :=
  (transferFlags ((sentTo D fetched i).map Prod.fst) tx).beRemoved

/-- **`sendAccounts_and_Txs` of the broker module.** -/
theorem sendBrokerAccountsAndTxs_eq {n : Leader H} {D : ShardMap} {order : List Address}
    {st : Accounts} (hst : n.curChain.accounts = some st)
    (hlast : n.cdm.modifiedMap.getLast? = some D) (horder : order.Nodup)
    (hfetch : order.toFinset = n.accountToFetch D) :
    n.sendBrokerAccountsAndTxs order =
      let fetched := order.map fun a => (a, st.getOrNew a 0)
      let r := scatter (takes D fetched) ((List.range n.shardNums).filter fun i => i ≠ n.shardID)
        n.curChain.txpool.txQueue
      some ({ n with
          curChain := { n.curChain with txpool := { n.curChain.txpool with txQueue := r.1 } }
          phase := .waitCollect },
        r.2.map fun p => (p.1, .accountStateAndTx
          (transferMsg n.shardID (sentTo D fetched p.1) (p.2.filter fun tx => !tx.plain))),
        r.2.flatMap fun p => p.2.filter Transaction.plain) := by
  rw [sendBrokerAccountsAndTxs, hlast]
  simp only
  rw [if_pos ⟨horder, hfetch⟩, BlockChain.fetchAccounts_eq hst]
  simp only [← List.map_prod_left_eq_zip, sendBrokerLoop_eq, List.nil_append]
  rfl

/-! ## Where everything goes -/

section Places

variable {M D : ShardMap} {sid : ℕ} {order : List Address} {f : Address → AccountState}
  (hmem : ∀ i, i ≠ sid → ∀ a, a ∈ order ∧ (D.lookup a).getD 0 = i ↔ Moves S M D sid i a)

include hmem in
theorem mem_sentTo_addrs {i : ℕ} (hi : i ≠ sid) (a : Address) :
    a ∈ (sentTo D (order.map fun a => (a, f a)) i).map Prod.fst ↔ Moves S M D sid i a := by
  rw [sentTo_addrs, List.mem_filter, decide_eq_true_eq]
  exact hmem i hi a

include hmem in
/-- A transaction that no destination takes keeps the rules here. -/
theorem placedAt_of_kept (hD : ∀ a i, D.lookup a = some i → i < S) (hsid : sid < S)
    {tx : Transaction} (hone : tx.OneEnded) (hold : tx.PlacedAt S M sid)
    (hkept : ∀ i < S, i ≠ sid → takes D (order.map fun a => (a, f a)) i tx = false) :
    tx.PlacedAt S (D ∪ M) sid := by
  have hstays : ∀ a, homeUnder S M a = sid → homeUnder S (D ∪ M) a ≠ sid →
      ∃ i < S, i ≠ sid ∧ a ∈ (sentTo D (order.map fun a => (a, f a)) i).map Prod.fst := by
    intro a ha hne
    exact ⟨_, homeUnder_union_lt hD (ha.trans_lt hsid), hne,
      (mem_sentTo_addrs hmem hne a).2 ((moves_iff ha hne).2 rfl)⟩
  constructor
  · intro hneeds
    by_contra hne
    obtain ⟨i, hi, his, hin⟩ := hstays _ (hold.1 hneeds) hne
    have hremoved : takes D (order.map fun a => (a, f a)) i tx = true :=
      beRemoved_of_sender hone hneeds hin
    rw [hkept i hi his] at hremoved
    exact absurd hremoved (by simp)
  · intro hneeds
    by_contra hne
    obtain ⟨i, hi, his, hin⟩ := hstays _ (hold.2 hneeds) hne
    have hremoved : takes D (order.map fun a => (a, f a)) i tx = true :=
      beRemoved_of_recipient hone hneeds hin
    rw [hkept i hi his] at hremoved
    exact absurd hremoved (by simp)

include hmem in
/-- A transaction that is sent keeps the rules where it goes. -/
theorem placedAt_of_sent {i : ℕ} (hi : i ≠ sid) {tx : Transaction} (hone : tx.OneEnded)
    (hplain : tx.plain = false) (htakes : takes D (order.map fun a => (a, f a)) i tx = true) :
    tx.PlacedAt S (D ∪ M) i := by
  obtain ⟨hsender, hrecipient⟩ := mem_of_beRemoved hone hplain htakes
  have hgoes : ∀ a, a ∈ (sentTo D (order.map fun a => (a, f a)) i).map Prod.fst →
      homeUnder S (D ∪ M) a = i := by
    intro a ha
    rw [homeUnder_union, ((mem_sentTo_addrs hmem hi a).1 ha).1, Option.getD_some]
  exact ⟨fun hneeds => hgoes _ (hsender hneeds), fun hneeds => hgoes _ (hrecipient hneeds)⟩

end Places

/-- What each destination takes is split in two: nothing is lost. -/
theorem split_parts_perm (parts : List (ℕ × List Transaction)) :
    ((parts.flatMap fun p => p.2.filter fun tx => !tx.plain) ++
      parts.flatMap fun p => p.2.filter Transaction.plain).Perm (parts.flatMap Prod.snd) := by
  refine (List.flatMap_append_perm _ _ _).trans (List.Perm.flatMap_left _ fun p _ => ?_)
  exact List.perm_append_comm.trans (List.filter_append_perm Transaction.plain p.2)

end Leader

/-- The chain of shard `sid` with the accounts of `D` moved, as far as `HandleinCommit` looks at
    it. -/
def BlockChain.movedTo (bc : BlockChain H) (D : ShardMap) (sid : ℕ) : BlockChain H :=
  { bc with
    chainConfig := { bc.chainConfig with shardID := sid }
    partitionMap := D ∪ bc.partitionMap }

/-- **`sendAccounts_and_Txs` partitions the pool.** Every transaction is kept, in order, or sent to
    one shard, or returned to the supervisor. What is kept or sent passes the checks of
    `HandleinCommit` where it is then, and what is returned is plain and has an end that moves. -/
theorem Leader.sendBroker_partitions_pool {n : Leader H} {D : ShardMap} {order : List Address}
    (hsid : n.shardID < n.shardNums) (hst : n.curChain.accounts ≠ none)
    (hlast : n.cdm.modifiedMap.getLast? = some D)
    (hD : ∀ a i, D.lookup a = some i → i < n.shardNums)
    (hrules : ∀ tx ∈ n.curChain.txpool.txQueue, n.curChain.brokerTxOk tx = true)
    (hone : ∀ tx ∈ n.curChain.txpool.txQueue, tx.OneEnded)
    (horder : order.Nodup) (hfetch : order.toFinset = n.accountToFetch D) :
    ∃ n' msgs returned, n.sendBrokerAccountsAndTxs order = some (n', msgs, returned) ∧
      (n'.curChain.txpool.txQueue ++ (msgs.flatMap fun p => p.2.txs) ++ returned).Perm
        n.curChain.txpool.txQueue ∧
      n'.curChain.txpool.txQueue.Sublist n.curChain.txpool.txQueue ∧
      msgs.map Prod.fst = ((List.range n.shardNums).filter fun i => i ≠ n.shardID) ∧
      (∀ tx ∈ n'.curChain.txpool.txQueue,
        (n.curChain.movedTo D n.shardID).brokerTxOk tx = true) ∧
      (∀ p ∈ msgs, ∀ tx ∈ p.2.txs, (n.curChain.movedTo D p.1).brokerTxOk tx = true) ∧
      ∀ tx ∈ returned, tx.plain = true ∧ ∃ i, Moves n.shardNums n.curChain.partitionMap D n.shardID i
        tx.sender ∨ Moves n.shardNums n.curChain.partitionMap D n.shardID i tx.recipient := by
  obtain ⟨st, hst⟩ := Option.ne_none_iff_exists'.1 hst
  have hmem : ∀ i, i ≠ n.shardID → ∀ a, a ∈ order ∧ (D.lookup a).getD 0 = i ↔
      Moves n.shardNums n.curChain.partitionMap D n.shardID i a := by
    intro i hi a
    rw [← List.mem_toFinset, hfetch]
    exact mem_accountToFetch rfl rfl hi a
  have hplaced := fun tx htx => (n.curChain.brokerTxOk_iff tx).1 (hrules tx htx)
  refine ⟨_, _, _, sendBrokerAccountsAndTxs_eq hst hlast horder hfetch, ?_, ?_, ?_, ?_, ?_, ?_⟩
  · rw [List.flatMap_map, List.append_assoc]
    exact ((split_parts_perm _).append_left _).trans (scatter_perm _ _)
  · simp only [scatter_fst]
    exact List.filter_sublist
  · rw [List.map_map]
    exact scatter_map_fst _ _
  · intro tx htx
    simp only [scatter_fst, List.mem_filter, List.all_eq_true, List.mem_range,
      decide_eq_true_eq, Bool.not_eq_true'] at htx
    refine (BlockChain.brokerTxOk_iff _ tx).2 ?_
    exact placedAt_of_kept hmem hD hsid (hone tx htx.1) (hplaced tx htx.1)
      fun i hi hne => htx.2 i ⟨hi, hne⟩
  · intro p hp tx htx
    obtain ⟨part, hpart, rfl⟩ := List.mem_map.1 hp
    obtain ⟨hin, hplain⟩ := List.mem_filter.1 htx
    obtain ⟨hi, hqueue, htakes⟩ := of_mem_scatter hpart hin
    refine (BlockChain.brokerTxOk_iff _ tx).2 ?_
    exact placedAt_of_sent hmem (of_decide_eq_true (List.mem_filter.1 hi).2) (hone tx hqueue)
      (by simpa using hplain) htakes
  · intro tx htx
    obtain ⟨part, hpart, hin⟩ := List.mem_flatMap.1 htx
    obtain ⟨hin, hplain⟩ := List.mem_filter.1 hin
    obtain ⟨hi, -, htakes⟩ := of_mem_scatter hpart hin
    have hne := of_decide_eq_true (List.mem_filter.1 hi).2
    refine ⟨hplain, part.1, ?_⟩
    exact (end_mem_of_beRemoved htakes).imp (mem_sentTo_addrs hmem hne _).1
      (mem_sentTo_addrs hmem hne _).1

/-! ## Alice moves -/

section Sample

open BlockChain

/-- The leader of a fresh shard with a pool and a map to carry out. -/
def brokerLeader (i : Fin 2) (pool : List Transaction) (D : ShardMap) : Leader SymHash :=
  { Leader.new ((ShardWorld.twoShards i).inject pool) with cdm := { modifiedMap := [D] } }

/-- A plain transfer, the first half of a brokered one, and one to a broker. -/
def threeKinds : List Transaction :=
  [{ transfer 1 with recipient := carol },
    { transfer 2 with
      originalSender := some alice
      finalRecipient := some carol
      rawTxHash := some [] },
    { transfer 3 with sender := carol, hasBroker := true }]

theorem Leader.three_kinds_split :
    ∃ n' msgs returned, (brokerLeader 0 threeKinds
        (Finmap.singleton alice 1)).sendBrokerAccountsAndTxs [alice] = some (n', msgs, returned) ∧
      (n'.curChain.txpool.txQueue ++ (msgs.flatMap fun p => p.2.txs) ++ returned).Perm threeKinds ∧
      msgs.map Prod.fst = [1] ∧ ∀ tx ∈ returned, tx.plain = true := by
  have hD : ∀ a i, (Finmap.singleton alice 1 : ShardMap).lookup a = some i → i < 2 := by decide
  have hfetch : [alice].toFinset = (brokerLeader 0 threeKinds
      (Finmap.singleton alice 1)).accountToFetch (Finmap.singleton alice 1) := by decide +kernel
  obtain ⟨n', msgs, returned, hsend, hperm, -, hdest, -, -, hret⟩ :=
    Leader.sendBroker_partitions_pool (by decide) (by decide +kernel) rfl hD (by decide +kernel)
      (by decide) (by simp) hfetch
  exact ⟨n', msgs, returned, hsend, hperm, hdest, fun tx htx => (hret tx htx).1⟩

/-- Both halves in one: the sender is the original one and the recipient the final one. -/
def twoEnded : Transaction :=
  { transfer 1 with
    recipient := carol
    originalSender := some alice
    finalRecipient := some carol
    rawTxHash := some [] }

/-- The loop looks at the recipient only, and the transaction stays where its sender has left. No
    component builds such a transaction: the supervisor makes the two halves of a brokered transfer two
    transactions, and each has a broker at its other end. -/
theorem Leader.two_ended_stays_behind :
    (∀ tx ∈ [twoEnded], (brokerLeader 0 [twoEnded]
      (Finmap.singleton alice 1)).curChain.brokerTxOk tx = true) ∧
    ∃ r ∈ (brokerLeader 0 [twoEnded]
        (Finmap.singleton alice 1)).sendBrokerAccountsAndTxs [alice],
      r.1.curChain.txpool.txQueue = [twoEnded] ∧
      ((brokerLeader 0 [twoEnded] (Finmap.singleton alice 1)).curChain.movedTo
        (Finmap.singleton alice 1) 0).brokerTxOk twoEnded = false := by
  decide +kernel

end Sample

end BlockEmulator
