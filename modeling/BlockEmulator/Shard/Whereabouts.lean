import BlockEmulator.Chain.History
import BlockEmulator.Shard.World

set_option autoImplicit false

/-! # Where transactions are

A transaction waits in a leader's queue, in the block it has proposed, among the things it has
collected for a partition, in a message, or with the supervisor. `Everywhere P` says that `P` holds of
each of them, with the shard that holds it or will get it; `Everywhere.step` reduces that to what a
commit relays. -/

namespace BlockEmulator

variable {H : Type} [DecidableEq H] [Hashing H] {S : ℕ}

/-! ## What proposing and committing do to the pool -/

namespace BlockChain

/-- Packing takes the head of the queue. -/
theorem packForBlock_eq (bc : BlockChain H) : ∃ k, bc.packForBlock =
    (bc.txpool.txQueue.take k, { bc.txpool with txQueue := bc.txpool.txQueue.drop k }) := by
  unfold packForBlock
  split
  · exact ⟨_, rfl⟩
  · exact ⟨_, rfl⟩

/-- What a proposal does: the head of the queue is sealed into a block on top of the chain. -/
theorem generateBlock_spec {bc bc' : BlockChain H} {b : Block H} {miner : ℤ} {now : ℕ}
    (h : bc.generateBlock miner now = some (bc', b)) :
    SameFiles bc bc' ∧ bc.Extends b ∧ ∃ k, b.body = bc.txpool.txQueue.take k ∧
      bc'.txpool = { bc.txpool with txQueue := bc.txpool.txQueue.drop k } := by
  obtain ⟨k, hk⟩ := packForBlock_eq bc
  obtain ⟨rt, hexec, rfl⟩ := generateBlockOf_cases h
  have hframe := getUpdateStatusTrie_frame hexec
  rw [hk] at hframe
  refine ⟨?_, extends_sealBlock _ _ _ _ _, k, ?_, ?_⟩
  · rw [hframe]
    exact ⟨rfl, rfl, rfl, rfl⟩
  · rw [hk]
    rfl
  · rw [hframe]

/-- `AddBlock` looks at neither the pool nor the homes of accounts. -/
theorem addBlock_frame {bc bc' : BlockChain H} {b : Block H} (h : bc.addBlock b = some bc') :
    bc'.txpool = bc.txpool ∧ bc'.partitionMap = bc.partitionMap ∧
      bc'.chainConfig = bc.chainConfig := by
  rcases addBlock_cases h with ⟨-, rfl⟩ | ⟨-, -, rfl⟩ | ⟨-, -, bc₁, rt, hexec, rfl⟩
  · exact ⟨rfl, rfl, rfl⟩
  · exact ⟨rfl, rfl, rfl⟩
  · rw [getUpdateStatusTrie_frame hexec]
    exact ⟨rfl, rfl, rfl⟩

/-- The chain would not call the transaction incorrect. -/
def correctTx (bc : BlockChain H) (tx : Transaction) : Bool :=
  bc.getPartitionMap (if tx.relayed then tx.recipient else tx.sender) = bc.chainConfig.shardID

/-- One turn of the loop of `HandleinCommit`. -/
theorem collectRelayTxs_cons (bc : BlockChain H) (tx : Transaction) (txs : List Transaction)
    (pool : TxPool) : bc.collectRelayTxs (tx :: txs) pool =
      if bc.correctTx tx then
        bc.collectRelayTxs txs (if bc.getPartitionMap tx.recipient ≠ bc.chainConfig.shardID then
          pool.addRelayTx { tx with relayed := true } (bc.getPartitionMap tx.recipient) else pool)
      else none := by
  rw [collectRelayTxs, correctTx]
  cases tx.relayed <;> by_cases hs : bc.getPartitionMap tx.sender = bc.chainConfig.shardID <;>
    by_cases hr : bc.getPartitionMap tx.recipient = bc.chainConfig.shardID <;> simp [hs, hr]

/-- The loop of `HandleinCommit` finds the incorrect transactions and files the others that leave
    the shard under their destination. -/
theorem collectRelayTxs_spec {bc : BlockChain H} {body : List Transaction} {pool pool' : TxPool}
    (h : bc.collectRelayTxs body pool = some pool') :
    (∀ tx ∈ body, bc.correctTx tx = true) ∧ pool'.txQueue = pool.txQueue ∧
      ∀ sid, (pool'.relayPool.lookup sid).getD [] = (pool.relayPool.lookup sid).getD [] ++
        (bc.relayedTxs body).filter fun t => bc.getPartitionMap t.recipient = sid := by
  induction body generalizing pool with
  | nil =>
    rw [collectRelayTxs, Option.some.injEq] at h
    subst h
    simp [relayedTxs]
  | cons tx body ih =>
    rw [collectRelayTxs_cons] at h
    obtain ⟨hok, h⟩ := Option.ite_none_right_eq_some.1 h
    obtain ⟨hrest, hqueue, hpool⟩ := ih h
    refine ⟨List.forall_mem_cons.2 ⟨hok, hrest⟩, ?_, ?_⟩
    · rw [hqueue]
      split <;> rfl
    · intro sid
      rw [hpool sid]
      by_cases hr : bc.getPartitionMap tx.recipient = bc.chainConfig.shardID
      · simp [relayedTxs, hr]
      · rw [if_pos hr]
        by_cases hsid : bc.getPartitionMap tx.recipient = sid
        · subst hsid
          simp [relayedTxs, hr, TxPool.addRelayTx]
        · simp [relayedTxs, hr, hsid, TxPool.addRelayTx, Finmap.lookup_insert_of_ne _ (Ne.symm hsid)]

theorem collectRelayTxs_isSome {bc : BlockChain H} {body : List Transaction}
    (h : ∀ tx ∈ body, bc.correctTx tx = true) (pool : TxPool) :
    ∃ pool', bc.collectRelayTxs body pool = some pool' := by
  induction body generalizing pool with
  | nil => exact ⟨pool, rfl⟩
  | cons tx body ih =>
    obtain ⟨hok, hrest⟩ := List.forall_mem_cons.1 h
    rw [collectRelayTxs_cons, if_pos hok]
    exact ih hrest _

theorem relayedTxs_congr {bc bc' : BlockChain H} (hpm : bc'.partitionMap = bc.partitionMap)
    (hcc : bc'.chainConfig = bc.chainConfig) (body : List Transaction) :
    bc'.relayedTxs body = bc.relayedTxs body := by
  have hhome : ∀ a, bc'.getPartitionMap a = bc.getPartitionMap a := fun a => by
    rw [getPartitionMap, getPartitionMap, hpm, hcc]
  unfold relayedTxs
  congr 1
  refine List.filter_congr ?_
  intro tx _
  rw [decide_eq_decide, hhome, hcc]

end BlockChain

/-! ## What a leader holds -/

namespace Leader

/-- `P` holds of every transaction in the leader's hands. -/
structure Holds (P : Transaction → Prop) (n : Leader H) : Prop where
  queue : ∀ t ∈ n.curChain.txpool.txQueue, P t
  proposed : ∀ b, n.phase = .proposed (.block b) → ∀ t ∈ b.body, P t
  collected : ∀ sid at', n.cdm.accountStateTx.lookup sid = some at' → ∀ t ∈ at'.txs, P t
  received : ∀ t ∈ n.cdm.receivedNewTx, P t

theorem holds_new (P : Transaction → Prop) {bc : BlockChain H} (h : bc.txpool.txQueue = []) :
    (new bc).Holds P where
  queue := fun t ht => by
    rw [new, h] at ht
    exact absurd ht (by simp)
  proposed := fun b hb => absurd hb (by simp [new])
  collected := fun sid at' hat => absurd hat (by simp [new])
  received := by simp [new]

end Leader

/-- The transactions a message carries. -/
def ShardMsg.txs : ShardMsg → List Transaction
  | .injectTxs txs => txs
  | .relay txs _ _ => txs
  | .partitionModifiedMap _ => []
  | .partitionReady _ _ => []
  | .accountStateAndTx at' => at'.txs

namespace Leader

variable {P : Transaction → Prop} {n : Leader H}

theorem Holds.addTxs2Pool (hn : n.Holds P) {txs : List Transaction} (htxs : ∀ t ∈ txs, P t) :
    (n.addTxs2Pool txs).Holds P where
  queue := fun t ht => (List.mem_append.1 ht).elim (hn.queue t) (htxs t)
  proposed := hn.proposed
  collected := hn.collected
  received := hn.received

theorem Holds.crash (hn : n.Holds P) : n.crash.Holds P :=
  ⟨hn.queue, hn.proposed, hn.collected, hn.received⟩

theorem Holds.handleMessageOutsidePBFT (hn : n.Holds P) (ht : HandleType) {m : ShardMsg}
    (hm : ∀ t ∈ m.txs, P t) : (n.handleMessageOutsidePBFT ht m).Holds P := by
  cases m with
  | injectTxs txs => exact hn.addTxs2Pool hm
  | relay txs sid seq =>
    obtain ⟨h₁, h₂, h₃, h₄⟩ := hn.addTxs2Pool hm
    exact ⟨h₁, h₂, h₃, h₄⟩
  | partitionModifiedMap m =>
    rw [Leader.handleMessageOutsidePBFT]
    split
    · exact ⟨hn.queue, hn.proposed, hn.collected, hn.received⟩
    · exact hn
  | partitionReady sid seq =>
    rw [Leader.handleMessageOutsidePBFT]
    split
    · exact ⟨hn.queue, hn.proposed, hn.collected, hn.received⟩
    · exact hn
  | accountStateAndTx at' =>
    rw [Leader.handleMessageOutsidePBFT]
    split
    · refine ⟨hn.queue, hn.proposed, ?_, hn.received⟩
      intro sid at₁ hat
      have hlook : (Finmap.insert at'.fromShard at' n.cdm.accountStateTx).lookup sid = some at₁ := hat
      by_cases hsid : sid = at'.fromShard
      · subst hsid
        rw [Finmap.lookup_insert, Option.some.injEq] at hlook
        exact hlook ▸ hm
      · rw [Finmap.lookup_insert_of_ne _ hsid] at hlook
        exact hn.collected sid at₁ hlook
    · exact hn

theorem Holds.proposeBlock (hn : n.Holds P) {now : ℕ} {bc : BlockChain H} {b : Block H}
    (h : n.curChain.generateBlock 0 now = some (bc, b)) :
    Holds P { n with curChain := bc, phase := .proposed (.block b) } := by
  obtain ⟨-, -, k, hbody, hpool⟩ := BlockChain.generateBlock_spec h
  refine ⟨?_, ?_, hn.collected, hn.received⟩
  · intro t ht
    rw [hpool] at ht
    exact hn.queue t (List.mem_of_mem_drop ht)
  · intro b' hb' t ht
    obtain ⟨⟨⟩⟩ := hb'
    rw [hbody] at ht
    exact hn.queue t (List.mem_of_mem_take ht)

/-- What stays and what is sent when accounts leave. -/
theorem mem_sendAccountsLoop {shardID : ℕ} {m : ShardMap} {fetched : List (Address × AccountState)}
    {sids : List ℕ} {queue : List Transaction} {t : Transaction} :
    (t ∈ (sendAccountsLoop shardID m fetched sids queue).1 → t ∈ queue) ∧
      ∀ p ∈ (sendAccountsLoop shardID m fetched sids queue).2, t ∈ p.2.txs → t ∈ queue := by
  induction sids generalizing queue with
  | nil => exact ⟨id, by simp [sendAccountsLoop]⟩
  | cons i rest ih =>
    by_cases hi : i = shardID
    · rw [sendAccountsLoop, if_pos hi]
      exact ih
    · rw [sendAccountsLoop_cons hi]
      refine ⟨fun ht => (List.mem_filter.1 (ih.1 ht)).1, ?_⟩
      intro p hp ht
      rcases List.mem_cons.1 hp with rfl | hp
      · exact (List.mem_filter.1 ht).1
      · exact (List.mem_filter.1 (ih.2 p hp ht)).1

theorem Holds.sendAccountsAndTxs (hn : n.Holds P) {order : List Address} {n' : Leader H}
    {msgs : List (ℕ × ShardMsg)} (h : n.sendAccountsAndTxs order = some (n', msgs)) :
    n'.Holds P ∧ ∀ p ∈ msgs, ∀ t ∈ p.2.txs, P t := by
  rcases sendAccountsAndTxs_cases h with ⟨-, rfl, rfl⟩ | ⟨m, asFetched, r, -, -, -, rfl, rfl, rfl⟩
  · exact ⟨hn.crash, by simp⟩
  · exact ⟨⟨fun t ht => hn.queue t (mem_sendAccountsLoop.1 ht), fun b hb => absurd hb (by simp),
      hn.collected, hn.received⟩, fun p hp t ht => hn.queue t (mem_sendAccountsLoop.2 p hp ht)⟩

theorem Holds.collectReceived (hn : n.Holds P) (sids : List ℕ) {acc : Accounts × List Transaction}
    (hacc : ∀ t ∈ acc.2, P t) : ∀ t ∈ (n.collectReceived sids acc).2, P t := by
  induction sids generalizing acc with
  | nil => exact hacc
  | cons sid rest ih =>
    rw [Leader.collectReceived]
    split
    · exact ih hacc
    · next at' hat =>
        exact ih fun t ht => (List.mem_append.1 ht).elim (hacc t) (hn.collected sid at' hat t)

theorem Holds.proposePartition (hn : n.Holds P) {shards : List ℕ} {addrs : List Address}
    {n' : Leader H} (h : n.proposePartition shards addrs = some n') : n'.Holds P := by
  obtain ⟨r, rfl, -, -, -, h⟩ := proposePartition_cases h
  have hnew : ∀ t ∈ (n.collectReceived shards (n.cdm.receivedNewAccountState,
      n.cdm.receivedNewTx)).2, P t := hn.collectReceived shards hn.received
  rcases h with ⟨rfl, -⟩ | ⟨m, -, rfl⟩
  · exact hn.crash
  · exact ⟨(hn.addTxs2Pool hnew).queue, fun b hb => absurd hb (by simp), hn.collected, hnew⟩

theorem Holds.commitPartition (hn : n.Holds P) (atm : AccountTransferMsg) :
    (n.commitPartition atm).Holds P := by
  unfold Leader.commitPartition
  split
  · exact hn.crash
  · next bc hdo =>
      obtain ⟨db, root, rfl, -, -⟩ := BlockChain.addAccounts_cases hdo
      exact ⟨hn.queue, fun b hb => absurd hb (by simp [nextRound]),
        fun sid at' hat => absurd hat (by simp [nextRound, afterTransfer]),
        by simp [nextRound, afterTransfer]⟩

/-- What a committed block sends: its relayed transactions, to where their recipients live. -/
theorem mem_commitBlock_msgs {b : Block H} {p : ℕ × ShardMsg} (hp : p ∈ (n.commitBlock b).2)
    {t : Transaction} (ht : t ∈ p.2.txs) :
    t ∈ n.curChain.relayedTxs b.body ∧ n.curChain.getPartitionMap t.recipient = p.1 := by
  unfold Leader.commitBlock at hp
  split at hp
  · exact absurd hp (by simp)
  next bc hadd =>
  split at hp
  · exact absurd hp (by simp)
  next pool hrelay =>
  obtain ⟨sid, -, rfl⟩ := List.mem_map.1 hp
  obtain ⟨-, hpm, hcc⟩ := BlockChain.addBlock_frame hadd
  obtain ⟨-, -, hpool⟩ := BlockChain.collectRelayTxs_spec hrelay
  have hmem : t ∈ (pool.relayPool.lookup sid).getD [] := ht
  rw [hpool sid, BlockChain.relayedTxs_congr hpm hcc] at hmem
  simp only [Finmap.lookup_empty, Option.getD_none, List.nil_append, List.mem_filter,
    decide_eq_true_eq] at hmem
  refine ⟨hmem.1, ?_⟩
  rw [BlockChain.getPartitionMap, hpm, hcc] at hmem
  exact hmem.2

theorem Holds.commitBlock (hn : n.Holds P) (b : Block H) : (n.commitBlock b).1.Holds P := by
  unfold Leader.commitBlock
  split
  · exact hn.crash
  next bc hadd =>
  obtain ⟨hpool, -, -⟩ := BlockChain.addBlock_frame hadd
  split
  · refine ⟨fun t ht => hn.queue t ?_, hn.proposed, hn.collected, hn.received⟩
    rw [← hpool]
    exact ht
  · next pool hrelay =>
      obtain ⟨-, hqueue, -⟩ := BlockChain.collectRelayTxs_spec hrelay
      refine ⟨fun t ht => hn.queue t ?_, fun b hb => absurd hb (by simp [nextRound]), hn.collected,
        hn.received⟩
      rw [← hpool]
      exact hqueue ▸ ht

end Leader

/-! ## Everywhere -/

namespace ShardWorld

theorem forall_leaders_after {w : ShardWorld H S} {i : Fin S} {n : Leader H}
    {p : Fin S → Leader H → Prop} :
    (∀ j, p j (Function.update w.leaders i n j)) ↔ p i n ∧ ∀ j, j ≠ i → p j (w.leaders j) :=
  Function.forall_update_iff w.leaders p

theorem forall_log_update {w : ShardWorld H S} {i : Fin S} {l : ShardLog}
    {p : Fin S → ShardLog → Prop} :
    (∀ j, p j (Function.update w.log i l j)) ↔ p i l ∧ ∀ j, j ≠ i → p j (w.log j) :=
  Function.forall_update_iff w.log p

/-- `P sid t` holds of every transaction `t` that shard `sid` holds or will be sent. -/
structure Everywhere (P : ℕ → Transaction → Prop) (w : ShardWorld H S) : Prop where
  leaders : ∀ i : Fin S, (w.leaders i).Holds (P i)
  net : ∀ p ∈ w.net, ∀ t ∈ p.2.txs, P p.1 t
  remaining : ∀ t ∈ w.remaining, P (w.fetchModifiedMap t.sender) t

theorem Everywhere.after {P : ℕ → Transaction → Prop} {w : ShardWorld H S} (hw : Everywhere P w)
    {i : Fin S} {n : Leader H} {msgs : List (ℕ × ShardMsg)} (hn : n.Holds (P i))
    (hmsgs : ∀ p ∈ msgs, ∀ t ∈ p.2.txs, P p.1 t) : Everywhere P (w.after i n msgs) where
  leaders := (forall_leaders_after (p := fun j m => m.Holds (P j))).2 ⟨hn, fun j _ => hw.leaders j⟩
  net := fun p hp => (List.mem_append.1 hp).elim (hw.net p) (hmsgs p)
  remaining := hw.remaining

/-- **What holds of all transactions keeps holding**, if it holds of those a commit relays, and if it
    does not depend on the shard or no accounts move. -/
theorem Everywhere.step {P : ℕ → Transaction → Prop} {ht : HandleType} {w w' : ShardWorld H S}
    {a : ShardAct S} (hw : Everywhere P w) (h : w.Steps ht a w')
    (hmove : (∀ i j t, P i t → P j t) ∨
      (ht.partitions = false ∧ ∀ i, (w.leaders i).phase ≠ .waitReady))
    (hrelay : ∀ i b, a = .commit i → (w.leaders i).phase = .proposed (.block b) →
      ∀ t ∈ (w.leaders i).curChain.relayedTxs b.body,
        P ((w.leaders i).curChain.getPartitionMap t.recipient) t) : Everywhere P w' := by
  cases h with
  | txSending count =>
    refine ⟨hw.leaders, ?_, fun t ht => hw.remaining t (List.mem_of_mem_drop ht)⟩
    intro p hp t ht
    rcases List.mem_append.1 hp with hp | hp
    · exact hw.net p hp t ht
    · obtain ⟨sid, -, rfl⟩ := List.mem_map.1 hp
      obtain ⟨ht, hsid⟩ := List.mem_filter.1 ht
      exact of_decide_eq_true hsid ▸ hw.remaining t (List.mem_of_mem_take ht)
  | clpaMapSend m hht =>
    refine ⟨hw.leaders, ?_, ?_⟩
    · intro p hp t ht
      rcases List.mem_append.1 hp with hp | hp
      · exact hw.net p hp t ht
      · obtain ⟨sid, -, rfl⟩ := List.mem_map.1 hp
        exact absurd ht (by simp [ShardMsg.txs])
    · intro t ht
      rcases hmove with hmove | ⟨hstatic, -⟩
      · exact hmove _ _ t (hw.remaining t ht)
      · exact absurd hht (by simp [hstatic])
  | deliver hk _ =>
    next i m _ =>
    refine ⟨?_, fun p hp => hw.net p (List.mem_of_mem_eraseIdx hp), hw.remaining⟩
    have hm := hw.net _ (List.mem_of_getElem? hk)
    exact (forall_leaders_after (p := fun j n => n.Holds (P j))).2
      ⟨(hw.leaders i).handleMessageOutsidePBFT ht hm, fun j _ => hw.leaders j⟩
  | proposePanics => exact hw.after (hw.leaders _).crash (by simp)
  | proposeBlock _ _ hgen => exact hw.after ((hw.leaders _).proposeBlock hgen) (by simp)
  | @sendPartitionReady i =>
    obtain ⟨h₁, -, h₃, h₄⟩ := hw.leaders i
    refine hw.after ⟨h₁, fun b hb => absurd hb (by simp [Leader.sendPartitionReady]), h₃, h₄⟩ ?_
    intro p hp t ht
    obtain ⟨sid, -, rfl⟩ := List.mem_map.1 hp
    exact absurd ht (by simp [ShardMsg.txs])
  | sendAccountsAndTxs hphase hsend =>
    next i _ _ _ =>
    obtain ⟨hn, hmsgs⟩ := (hw.leaders i).sendAccountsAndTxs hsend
    refine hw.after hn ?_
    intro p hp t ht
    rcases hmove with hmove | ⟨-, hstatic⟩
    · exact hmove _ _ t (hmsgs p hp t ht)
    · exact absurd hphase (hstatic i)
  | proposePartition _ _ hprop => exact hw.after ((hw.leaders _).proposePartition hprop) (by simp)
  | commitBlock _ hphase =>
    next i b _ =>
    have hmsgs : ∀ p ∈ ((w.leaders i).commitBlock b).2, ∀ t ∈ p.2.txs, P p.1 t := by
      intro p hp t ht
      obtain ⟨hmem, hdst⟩ := Leader.mem_commitBlock_msgs hp ht
      exact hdst ▸ hrelay i b rfl hphase t hmem
    have hcommit := hw.after ((hw.leaders i).commitBlock b) hmsgs
    exact ⟨hcommit.leaders, hcommit.net, hcommit.remaining⟩
  | commitPartition => exact hw.after ((hw.leaders _).commitPartition _) (by simp)

/-- New shards hold nothing; the dataset is with the supervisor. -/
theorem everywhere_init {P : ℕ → Transaction → Prop} {bc : Fin S → BlockChain H}
    (hbc : ∀ i, (bc i).txpool.txQueue = []) {dataset : List Transaction}
    (hdata : ∀ t ∈ dataset, P (addr2Shard S t.sender) t) : Everywhere P (init bc dataset) where
  leaders := fun i => Leader.holds_new _ (hbc i)
  net := by simp [init]
  remaining := hdata

end ShardWorld

theorem BlockChain.of_mem_atTurnOf {bc : BlockChain H} {p : ExecCtx → Accounts → Transaction → Bool}
    {b : Block H} {tx : Transaction} (h : tx ∈ bc.atTurnOf p b) :
    tx ∈ b.body ∧ ∃ st, p bc.ctx st tx = true := by
  unfold atTurnOf at h
  split at h
  · exact absurd h (by simp)
  · split at h
    · exact of_mem_atTurn h
    · exact absurd h (by simp)

/-- A transaction as `NewTransaction` makes it and as far as it does not depend on the arguments:
    neither relayed nor through a broker. -/
def Transaction.Fresh (tx : Transaction) : Prop := tx.relayed = false ∧ tx.hasBroker = false

end BlockEmulator
