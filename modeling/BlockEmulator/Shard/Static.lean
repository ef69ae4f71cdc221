import BlockEmulator.Chain.Runs
import BlockEmulator.Lib.Counting
import BlockEmulator.Shard.Whereabouts

set_option autoImplicit false

/-! # Relay mode with a static partition

With the raw relay module accounts stay where `Addr2Shard` puts them. Every transaction is then at
home wherever it waits, so the panics of `HandleinCommit` on an incorrect transaction are out of
reach, and no transaction is lost or doubled on its way: `LedgerStep` says what one step does to the
transactions under way and to the log. -/

namespace BlockEmulator

variable {H : Type} [DecidableEq H] [Hashing H] {S : ℕ}

/-- The transaction has work to do in shard `sid`: its second half if it is relayed, otherwise its
    first. -/
def AtHome (S sid : ℕ) (t : Transaction) : Prop :=
  addr2Shard S (if t.relayed then t.recipient else t.sender) = sid

/-- The messages of relay mode. -/
def ShardMsg.Plain : ShardMsg → Prop
  | .injectTxs _ => True
  | .relay _ _ _ => True
  | _ => False

/-! ## One leader -/

/-- A leader that is idle or waits for the commit of a block is in no phase of a partition. -/
theorem Leader.no_partition_phase {n : Leader H}
    (h : n.phase = .idle ∨ ∃ b, n.phase = .proposed (.block b)) :
    n.phase ≠ .waitReady ∧ n.phase ≠ .waitCollect ∧
      ∀ atm, n.phase ≠ .proposed (.partition atm) := by
  rcases h with h | ⟨b, h⟩ <;> simp [h]

/-- The leader of shard `i` out of `S`, between two steps. -/
structure StaticLeader (S i : ℕ) (n : Leader H) : Prop where
  shardID : n.shardID = i
  shardNums : n.shardNums = S
  homes : n.curChain.partitionMap = ∅
  phase : n.phase = .idle ∨ ∃ b, n.phase = .proposed (.block b)
  resolves : n.curChain.accounts ≠ none
  proposed : ∀ b ∈ n.proposedBlock, n.curChain.Extends b ∧
    n.curChain.triedb.trieNew b.header.stateRoot ≠ none

namespace StaticLeader

variable {i : ℕ} {n : Leader H}

theorem getPartitionMap (hn : StaticLeader S i n) (a : Address) :
    n.curChain.getPartitionMap a = addr2Shard S a := by
  rw [BlockChain.getPartitionMap, hn.homes, ← hn.shardNums]
  rfl

theorem isLocal_iff (hn : StaticLeader S i n) (a : Address) :
    n.curChain.ctx.isLocal a = true ↔ addr2Shard S a = i := by
  rw [← hn.getPartitionMap, ← hn.shardID]
  exact beq_iff_eq

theorem correctTx_iff (hn : StaticLeader S i n) (t : Transaction) :
    n.curChain.correctTx t = true ↔ AtHome S i t := by
  rw [BlockChain.correctTx, decide_eq_true_iff, hn.getPartitionMap, ← hn.shardID]
  rfl

theorem not_waitReady (hn : StaticLeader S i n) : n.phase ≠ .waitReady :=
  (Leader.no_partition_phase hn.phase).1

theorem not_waitCollect (hn : StaticLeader S i n) : n.phase ≠ .waitCollect :=
  (Leader.no_partition_phase hn.phase).2.1

theorem not_partition (hn : StaticLeader S i n) (atm : AccountTransferMsg) :
    n.phase ≠ .proposed (.partition atm) :=
  (Leader.no_partition_phase hn.phase).2.2 atm

/-- The pool is no part of the invariant. -/
theorem congr_pool (hn : StaticLeader S i n) {n' : Leader H} (pool : TxPool)
    (hchain : n'.curChain = { n.curChain with txpool := pool }) (hphase : n'.phase = n.phase) :
    StaticLeader S i n' where
  shardID := by
    rw [Leader.shardID, hchain]
    exact hn.shardID
  shardNums := by
    rw [Leader.shardNums, hchain]
    exact hn.shardNums
  homes := by
    rw [hchain]
    exact hn.homes
  phase := by
    rw [hphase]
    exact hn.phase
  resolves := by
    rw [hchain]
    exact hn.resolves
  proposed := by
    rw [Leader.proposedBlock, hphase, hchain]
    exact hn.proposed

end StaticLeader

/-- In relay mode a message changes the pool, and nothing else that is looked at here. -/
theorem Leader.handleMessage_relay (n : Leader H) (m : ShardMsg) :
    ∃ pool, (n.handleMessageOutsidePBFT .relay m).curChain = { n.curChain with txpool := pool } ∧
      (n.handleMessageOutsidePBFT .relay m).phase = n.phase := by
  cases m with
  | injectTxs txs => exact ⟨_, rfl, rfl⟩
  | relay txs sid seq => exact ⟨_, rfl, rfl⟩
  | _ => exact ⟨n.curChain.txpool, rfl, rfl⟩

namespace BlockChain

/-- A fresh chain starts with no accounts. -/
theorem accounts_newBlockChain {cc : ChainConfig} {db : TrieDB H} {bc : BlockChain H}
    (h : newBlockChain cc Storage.empty db = some bc) : bc.accounts = some ∅ := by
  obtain rfl := Option.some.inj h
  exact if_pos (Or.inr rfl)

/-- A proposal loses no account state, and the database resolves the root it seals. -/
theorem generateBlock_resolves {bc bc' : BlockChain H} {b : Block H} {miner : ℤ} {now : ℕ}
    (hbc : bc.accounts ≠ none) (h : bc.generateBlock miner now = some (bc', b)) :
    bc'.accounts = bc.accounts ∧ bc'.triedb.trieNew b.header.stateRoot ≠ none := by
  obtain ⟨rt, hexec, rfl⟩ := generateBlockOf_cases h
  rcases getUpdateStatusTrie_cases hexec with ⟨-, rfl, rfl⟩ | ⟨-, st, st', bk', hst, -, rfl, rfl⟩
  · exact ⟨rfl, hbc⟩
  · constructor
    · have hst' : bc.accounts = some st := hst
      rw [hst']
      exact TrieDB.trieNew_commit_of_some hst st'
    · show (TrieDB.commit _ st').trieNew (Hashing.stateRoot st') ≠ none
      rw [TrieDB.trieNew_commit_self]
      simp

end BlockChain

theorem StaticLeader.proposeBlock {i : ℕ} {n : Leader H} (hn : StaticLeader S i n) {now : ℕ}
    {bc : BlockChain H} {b : Block H} (h : n.curChain.generateBlock 0 now = some (bc, b)) :
    StaticLeader S i { n with curChain := bc, phase := .proposed (.block b) } := by
  obtain ⟨hfiles, hext, -⟩ := BlockChain.generateBlock_spec h
  obtain ⟨hacc, hroot⟩ := BlockChain.generateBlock_resolves hn.resolves h
  refine ⟨?_, ?_, hfiles.partition.trans hn.homes, Or.inr ⟨b, rfl⟩, ?_, ?_⟩
  · show bc.chainConfig.shardID = i
    rw [hfiles.config]
    exact hn.shardID
  · show bc.chainConfig.shardNums = S
    rw [hfiles.config]
    exact hn.shardNums
  · show bc.accounts ≠ none
    rw [hacc]
    exact hn.resolves
  · intro b' hb'
    obtain rfl := Option.some.inj hb'
    refine ⟨?_, hroot⟩
    show bc.Extends b
    rw [BlockChain.Extends, hfiles.height, hfiles.block]
    exact hext

/-- The leader after its block is appended. -/
def Leader.appended (n : Leader H) (b : Block H) (pool : TxPool) : Leader H :=
  { n with curChain := { n.curChain.append b with txpool := pool } }.nextRound

/-- The messages it sends then: to every other shard the transactions whose recipients live there. -/
def Leader.relayMsgs (S : ℕ) (n : Leader H) (b : Block H) : List (ℕ × ShardMsg) :=
  n.toOtherShards fun sid => .relay
    ((n.curChain.relayedTxs b.body).filter fun t => addr2Shard S t.recipient = sid)
    n.shardID n.sequenceID

/-- **A commit in relay mode.** No check fails: the block is appended, and what leaves the shard is
    sent. -/
theorem StaticLeader.commitBlock {i : ℕ} {n : Leader H} (hn : StaticLeader S i n) {b : Block H}
    (hb : b ∈ n.proposedBlock) (hhome : ∀ t ∈ b.body, AtHome S i t) :
    ∃ pool : TxPool, pool.txQueue = n.curChain.txpool.txQueue ∧
      n.commitBlock b = (n.appended b pool, n.relayMsgs S b) := by
  obtain ⟨hext, hroot⟩ := hn.proposed b hb
  obtain ⟨st, hst⟩ := Option.ne_none_iff_exists'.1 hroot
  have hadd := BlockChain.addBlock_of_known hext hst
  have hcorrect : ∀ t ∈ b.body, (n.curChain.append b).correctTx t = true := fun t ht =>
    (hn.correctTx_iff t).2 (hhome t ht)
  obtain ⟨pool, hpool⟩ := BlockChain.collectRelayTxs_isSome hcorrect
    { (n.curChain.append b).txpool with relayPool := ∅ }
  obtain ⟨-, hqueue, hrelay⟩ := BlockChain.collectRelayTxs_spec hpool
  refine ⟨pool.clearRelayPool, hqueue, ?_⟩
  have hsent : ∀ sid, (pool.relayPool.lookup sid).getD [] =
      (n.curChain.relayedTxs b.body).filter fun t => addr2Shard S t.recipient = sid := by
    intro sid
    rw [hrelay sid]
    refine List.filter_congr ?_
    intro t _
    rw [decide_eq_decide, ← hn.getPartitionMap]
    rfl
  simp only [Leader.commitBlock, hadd, hpool, Leader.relayMsgSend, hsent, Leader.appended,
    Leader.relayMsgs]

theorem StaticLeader.afterCommit {i : ℕ} {n : Leader H} (hn : StaticLeader S i n) {b : Block H}
    (hb : b ∈ n.proposedBlock) (pool : TxPool) : StaticLeader S i (n.appended b pool) where
  shardID := hn.shardID
  shardNums := hn.shardNums
  homes := hn.homes
  phase := Or.inl rfl
  resolves := (hn.proposed b hb).2
  proposed := fun b' hb' => absurd hb' (by
    simp [Leader.proposedBlock, Leader.appended, Leader.nextRound])

/-! ## Transactions under way -/

/-- What a leader has not yet committed. -/
def Leader.held (n : Leader H) : List Transaction :=
  n.curChain.txpool.txQueue ++ n.proposedBlock.elim [] Block.body

namespace ShardWorld

/-- How often a transaction is under way: with the supervisor, in a message, or with a leader. -/
def pending (w : ShardWorld H S) (t : Transaction) : ℕ :=
  w.remaining.count t + (w.net.map fun p => p.2.txs.count t).sum +
    ∑ i, (w.leaders i).held.count t

/-- What one step does to the transactions under way and to the log: nothing, or it commits a block,
    whose transactions are done and whose relayed ones set out. -/
inductive LedgerStep (w : ShardWorld H S) (a : ShardAct S) (w' : ShardWorld H S) : Prop
  | same : w'.log = w.log → (∀ t, w'.pending t = w.pending t) → LedgerStep w a w'
  | commit (i : Fin S) (b : Block H) : a = .commit i → b ∈ (w.leaders i).proposedBlock →
      w'.log = Function.update w.log i ((w.log i).add (w.leaders i).curChain b true) →
      (∀ t, w'.pending t + b.body.count t =
        w.pending t + ((w.leaders i).curChain.relayedTxs b.body).count t) → LedgerStep w a w'

/-- The system in relay mode. -/
structure Static (w : ShardWorld H S) : Prop where
  leaders : ∀ i : Fin S, StaticLeader S i (w.leaders i)
  plain : ∀ p ∈ w.net, p.2.Plain
  modifiedMap : w.modifiedMap = ∅
  atHome : Everywhere (AtHome S) w

theorem static_init {cc : Fin S → ChainConfig} {db : Fin S → TrieDB H} {bc : Fin S → BlockChain H}
    (hid : ∀ i, (cc i).shardID = i) (hnums : ∀ i, (cc i).shardNums = S)
    (hnew : ∀ i, BlockChain.newBlockChain (cc i) Storage.empty (db i) = some (bc i))
    {dataset : List Transaction} (hdata : ∀ t ∈ dataset, t.Fresh) : Static (init bc dataset) where
  leaders := fun i => by
    obtain ⟨hcc, -, hpm, -, -⟩ := BlockChain.newBlockChain_spec (hnew i)
    refine ⟨?_, ?_, hpm, Or.inl rfl, ?_, fun b hb => absurd hb ?_⟩
    · show (bc i).chainConfig.shardID = i
      rw [hcc, hid]
    · show (bc i).chainConfig.shardNums = S
      rw [hcc, hnums]
    · show (bc i).accounts ≠ none
      rw [BlockChain.accounts_newBlockChain (hnew i)]
      simp
    · simp [init, Leader.new, Leader.proposedBlock]
  plain := by simp [init]
  modifiedMap := rfl
  atHome := by
    refine everywhere_init (fun i => BlockChain.newBlockChain_txQueue (hnew i)) ?_
    intro t ht
    rw [AtHome, (hdata t ht).1]
    rfl

/-- The steps that relay mode can take. -/
inductive StaticStep (w : ShardWorld H S) : ShardAct S → ShardWorld H S → Prop
  | txSending (count : ℕ) : StaticStep w (.txSending count) (w.txSending count)
  | deliver {k : ℕ} {i : Fin S} {m : ShardMsg} : w.net[k]? = some (i.val, m) → m.Plain →
      StaticStep w (.deliver k) (w.receive .relay k i m)
  | proposePanics (i : Fin S) (now : ℕ) :
      StaticStep w (.proposeBlock i now) (w.after i (w.leaders i).crash [])
  | proposeBlock {i : Fin S} {now : ℕ} {bc : BlockChain H} {b : Block H} :
      (w.leaders i).phase = .idle → (w.leaders i).curChain.generateBlock 0 now = some (bc, b) →
      StaticStep w (.proposeBlock i now)
        (w.after i { w.leaders i with curChain := bc, phase := .proposed (.block b) } [])
  | commitBlock {i : Fin S} {b : Block H} {pool : TxPool} : b ∈ (w.leaders i).proposedBlock →
      pool.txQueue = (w.leaders i).curChain.txpool.txQueue →
      StaticStep w (.commit i)
        { w.after i ((w.leaders i).appended b pool) ((w.leaders i).relayMsgs S b) with
          log := Function.update w.log i ((w.log i).add (w.leaders i).curChain b true) }

/-- **Relay mode never migrates accounts and never fails a check at a commit.** -/
theorem Static.staticStep {w w' : ShardWorld H S} {a : ShardAct S} (hw : Static w)
    (h : w.Steps .relay a w') : StaticStep w a w' := by
  cases h with
  | txSending count => exact .txSending count
  | clpaMapSend m hht => exact absurd hht (by decide)
  | deliver hk _ => exact .deliver hk (hw.plain _ (List.mem_of_getElem? hk))
  | proposePanics => exact .proposePanics _ _
  | proposeBlock _ hidle hgen => exact .proposeBlock hidle hgen
  | sendPartitionReady hht => exact absurd hht (by decide)
  | sendAccountsAndTxs hphase => exact absurd hphase (hw.leaders _).not_waitReady
  | proposePartition hphase => exact absurd hphase (hw.leaders _).not_waitCollect
  | commitBlock halive hphase =>
    next i b =>
    have hb := Leader.mem_proposedBlock.2 hphase
    obtain ⟨pool, hqueue, heq⟩ :=
      (hw.leaders i).commitBlock hb ((hw.atHome.leaders i).proposed b hphase)
    obtain ⟨hext, hroot⟩ := (hw.leaders i).proposed b hb
    obtain ⟨st, hst⟩ := Option.ne_none_iff_exists'.1 hroot
    have hlive : ((w.leaders i).appended b pool).alive = true := halive
    rw [commitBlock, heq, BlockChain.addBlock_of_known hext hst, hlive]
    exact .commitBlock hb hqueue
  | commitPartition hphase => exact absurd hphase ((hw.leaders _).not_partition _)

theorem Static.fetchModifiedMap {w : ShardWorld H S} (hw : Static w) (a : Address) :
    w.fetchModifiedMap a = addr2Shard S a := by
  rw [ShardWorld.fetchModifiedMap, hw.modifiedMap]
  rfl

/-- What is under way after one leader has changed and messages have come and gone. -/
theorem pending_update (w w' : ShardWorld H S) {i : Fin S} {n : Leader H}
    (hleaders : w'.leaders = Function.update w.leaders i n) (t : Transaction) :
    w'.pending t + (w.net.map fun p => p.2.txs.count t).sum + w.remaining.count t +
        (w.leaders i).held.count t =
      w.pending t + (w'.net.map fun p => p.2.txs.count t).sum + w'.remaining.count t +
        n.held.count t := by
  have hsum := sum_update_add w.leaders (fun m => m.held.count t) i n
  rw [pending, pending, hleaders]
  omega

theorem pending_after (w : ShardWorld H S) (i : Fin S) (n : Leader H)
    (msgs : List (ℕ × ShardMsg)) (t : Transaction) :
    (w.after i n msgs).pending t + (w.leaders i).held.count t =
      w.pending t + (msgs.map fun p => p.2.txs.count t).sum + n.held.count t := by
  have h := pending_update w (w.after i n msgs) rfl t
  rw [after, List.map_append, List.sum_append] at h
  simp only [after] at h ⊢
  omega

theorem pending_after_silent {w : ShardWorld H S} {i : Fin S} {n : Leader H} {t : Transaction}
    (hheld : n.held.count t = (w.leaders i).held.count t) :
    (w.after i n []).pending t = w.pending t := by
  have h := pending_after w i n [] t
  simp only [List.map_nil, List.sum_nil] at h
  omega

theorem sum_count_eraseIdx {net : List (ℕ × ShardMsg)} {k : ℕ} {p : ℕ × ShardMsg}
    (hk : net[k]? = some p) (t : Transaction) :
    ((net.eraseIdx k).map fun p => p.2.txs.count t).sum + p.2.txs.count t =
      (net.map fun p => p.2.txs.count t).sum := by
  induction net generalizing k with
  | nil => exact absurd hk (by simp)
  | cons q net ih =>
    cases k with
    | zero =>
      obtain rfl := Option.some.inj hk
      simp [Nat.add_comm]
    | succ k =>
      have hrest := ih hk
      simp only [List.eraseIdx_cons_succ, List.map_cons, List.sum_cons]
      omega

/-- The supervisor sends every transaction to exactly one shard. -/
theorem Static.pending_txSending {w : ShardWorld H S} (hw : Static w) (hS : 0 < S) (count : ℕ)
    (t : Transaction) : (w.txSending count).pending t = w.pending t := by
  have hsplit : (((List.range S).map fun sid => (sid, ShardMsg.injectTxs
      ((w.remaining.take count).filter fun tx => w.fetchModifiedMap tx.sender = sid))).map
        fun p => p.2.txs.count t).sum =
        (w.remaining.take count).count t := by
    rw [List.map_map]
    have hcount := sum_count_filter_eq (w.remaining.take count) (fun tx => addr2Shard S tx.sender) t
      (List.nodup_range (n := S))
    rw [if_pos (List.mem_range.2 (addr2Shard_lt hS _))] at hcount
    rw [← hcount]
    congr 1
    refine List.map_congr_left ?_
    intro sid _
    simp only [Function.comp_apply, ShardMsg.txs, hw.fetchModifiedMap]
  have htake : (w.remaining.take count).count t + (w.remaining.drop count).count t =
      w.remaining.count t := by
    rw [← List.count_append, List.take_append_drop]
  simp only [pending, txSending, List.map_append, List.sum_append, hsplit]
  omega

/-- What a commit relays goes to other shards, all of it. -/
theorem StaticLeader.sum_count_relay {i : ℕ} {n : Leader H} (hn : StaticLeader S i n) (hS : 0 < S)
    (b : Block H) (t : Transaction) :
    ((n.relayMsgs S b).map fun p => p.2.txs.count t).sum =
      (n.curChain.relayedTxs b.body).count t := by
  have hcount := sum_count_filter_eq (n.curChain.relayedTxs b.body)
    (fun tx => addr2Shard S tx.recipient) t
    ((List.nodup_range (n := n.shardNums)).filter fun sid => sid ≠ n.shardID)
  rw [Leader.relayMsgs, Leader.toOtherShards, List.map_map]
  refine Eq.trans ?_ (hcount.trans ?_)
  · rfl
  · split
    · rfl
    · next hnot =>
        refine (List.count_eq_zero.2 fun hmem => hnot ?_).symm
        obtain ⟨tx, htx, rfl⟩ := List.mem_map.1 hmem
        have hremote := of_decide_eq_true (List.mem_filter.1 htx).2
        rw [hn.getPartitionMap] at hremote
        refine List.mem_filter.2 ⟨List.mem_range.2 ?_, decide_eq_true hremote⟩
        rw [hn.shardNums]
        exact addr2Shard_lt hS _

/-- A leader that proposes holds the same transactions as before. -/
theorem count_held_proposeBlock {n : Leader H} (hidle : n.phase = .idle) {now : ℕ}
    {bc : BlockChain H} {b : Block H} (h : n.curChain.generateBlock 0 now = some (bc, b))
    (t : Transaction) :
    (Leader.held { n with curChain := bc, phase := .proposed (.block b) }).count t =
      n.held.count t := by
  obtain ⟨-, -, k, hbody, hpool⟩ := BlockChain.generateBlock_spec h
  have htake : (n.curChain.txpool.txQueue.take k).count t +
      (n.curChain.txpool.txQueue.drop k).count t = n.curChain.txpool.txQueue.count t := by
    rw [← List.count_append, List.take_append_drop]
  have hnone : n.proposedBlock = none := by rw [Leader.proposedBlock, hidle]
  rw [Leader.held, Leader.held, hnone, List.count_append, List.count_append, hpool]
  show _ + b.body.count t = _ + List.count t []
  rw [hbody, List.count_nil]
  show (n.curChain.txpool.txQueue.drop k).count t + _ = _
  omega

/-- A leader that gets a message holds its transactions too. -/
theorem count_held_handleMessage (n : Leader H) {m : ShardMsg} (hm : m.Plain) (t : Transaction) :
    (n.handleMessageOutsidePBFT .relay m).held.count t = n.held.count t + m.txs.count t := by
  cases m with
  | injectTxs txs =>
    show (n.curChain.txpool.txQueue ++ txs ++ n.proposedBlock.elim [] Block.body).count t = _
    rw [Leader.held, List.count_append, List.count_append, List.count_append, ShardMsg.txs]
    omega
  | relay txs sid seq =>
    show (n.curChain.txpool.txQueue ++ txs ++ n.proposedBlock.elim [] Block.body).count t = _
    rw [Leader.held, List.count_append, List.count_append, List.count_append, ShardMsg.txs]
    omega
  | _ => exact absurd hm (by simp [ShardMsg.Plain])

/-- A commit is done with the transactions of the block, and those it relays set out. -/
theorem Static.pending_commitBlock {w : ShardWorld H S} (hw : Static w) (hS : 0 < S) {i : Fin S}
    {b : Block H} {pool : TxPool} (hb : b ∈ (w.leaders i).proposedBlock)
    (hqueue : pool.txQueue = (w.leaders i).curChain.txpool.txQueue) (t : Transaction) :
    (w.after i ((w.leaders i).appended b pool) ((w.leaders i).relayMsgs S b)).pending t +
        b.body.count t =
      w.pending t + ((w.leaders i).curChain.relayedTxs b.body).count t := by
  have hpend := pending_after w i ((w.leaders i).appended b pool) ((w.leaders i).relayMsgs S b) t
  rw [StaticLeader.sum_count_relay (hw.leaders i) hS b t] at hpend
  have hbefore : (w.leaders i).held.count t =
      (w.leaders i).curChain.txpool.txQueue.count t + b.body.count t := by
    rw [Leader.held, List.count_append, Option.mem_def.1 hb]
    rfl
  have hafter : ((w.leaders i).appended b pool).held.count t =
      (w.leaders i).curChain.txpool.txQueue.count t := by
    show (pool.txQueue ++ []).count t = _
    rw [List.append_nil, hqueue]
  rw [hbefore, hafter] at hpend
  omega

/-- **No transaction is lost or doubled.** -/
theorem Static.ledgerStep {w w' : ShardWorld H S} {a : ShardAct S} (hw : Static w) (hS : 0 < S)
    (h : StaticStep w a w') : LedgerStep w a w' := by
  cases h with
  | txSending count => exact .same rfl (hw.pending_txSending hS count)
  | deliver hk hplain =>
    next k i m =>
    refine .same rfl ?_
    intro t
    have hpend := pending_update w (w.receive .relay k i m) rfl t
    have hnet : _ + m.txs.count t = _ := sum_count_eraseIdx hk t
    have hheld := count_held_handleMessage (w.leaders i) hplain t
    simp only [receive] at hpend ⊢
    omega
  | proposePanics => exact .same rfl fun t => pending_after_silent rfl
  | proposeBlock hidle hgen =>
    exact .same rfl fun t => pending_after_silent (count_held_proposeBlock hidle hgen t)
  | commitBlock hb hqueue => exact .commit _ _ rfl hb rfl (hw.pending_commitBlock hS hb hqueue)

theorem Static.atHome_step {w w' : ShardWorld H S} {a : ShardAct S} (hw : Static w)
    (h : w.Steps .relay a w') : Everywhere (AtHome S) w' := by
  refine hw.atHome.step h (Or.inr ⟨rfl, fun i => (hw.leaders i).not_waitReady⟩) ?_
  intro i b _ _ t ht
  obtain ⟨tx, -, rfl⟩ := List.mem_map.1 ht
  exact ((hw.leaders i).getPartitionMap _).symm

/-- A leader and messages that are in order again leave the system in order. -/
theorem Static.after {w w' : ShardWorld H S} (hw : Static w) (hhome : Everywhere (AtHome S) w')
    {i : Fin S} {n : Leader H} (hleaders : w'.leaders = Function.update w.leaders i n)
    (hmap : w'.modifiedMap = w.modifiedMap) (hn : StaticLeader S i n)
    (hplain : ∀ p ∈ w'.net, p ∈ w.net ∨ p.2.Plain) : Static w' where
  leaders := by
    rw [hleaders]
    exact (forall_leaders_after (p := fun j m => StaticLeader S j m)).2
      ⟨hn, fun j _ => hw.leaders j⟩
  plain := fun p hp => (hplain p hp).elim (hw.plain p) id
  modifiedMap := hmap.trans hw.modifiedMap
  atHome := hhome

/-- Relay mode keeps the system in order. -/
theorem Static.step {w w' : ShardWorld H S} {a : ShardAct S} (hw : Static w)
    (h : w.Steps .relay a w') : Static w' := by
  have hhome := hw.atHome_step h
  have hsilent : ∀ i n, ∀ p ∈ (w.after i n []).net, p ∈ w.net ∨ p.2.Plain := fun i n p hp =>
    Or.inl (by simpa [ShardWorld.after] using hp)
  cases hw.staticStep h with
  | txSending count =>
    refine ⟨hw.leaders, ?_, hw.modifiedMap, hhome⟩
    intro p hp
    rcases List.mem_append.1 hp with hp | hp
    · exact hw.plain p hp
    · obtain ⟨sid, -, rfl⟩ := List.mem_map.1 hp
      trivial
  | deliver hk hplain =>
    next k i m =>
    obtain ⟨pool, hchain, hphase⟩ := (w.leaders i).handleMessage_relay m
    exact hw.after hhome rfl rfl ((hw.leaders i).congr_pool pool hchain hphase)
      fun p hp => Or.inl (List.mem_of_mem_eraseIdx hp)
  | proposePanics i now =>
    exact hw.after hhome rfl rfl ((hw.leaders i).congr_pool _ rfl rfl) (hsilent _ _)
  | proposeBlock _ hgen =>
    exact hw.after hhome rfl rfl ((hw.leaders _).proposeBlock hgen) (hsilent _ _)
  | commitBlock hb _ =>
    refine hw.after hhome rfl rfl ((hw.leaders _).afterCommit hb _) ?_
    intro p hp
    refine (List.mem_append.1 hp).imp id ?_
    intro hp
    obtain ⟨sid, -, rfl⟩ := List.mem_map.1 hp
    trivial

end ShardWorld

end BlockEmulator
