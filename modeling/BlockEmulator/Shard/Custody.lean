import BlockEmulator.Lib.FiniteMap
import BlockEmulator.Shard.Barrier
import BlockEmulator.Shard.Static

set_option autoImplicit false

/-! # Custody of transactions under repartitioning

With the CLPA module a queued transaction travels along with the account it needs: it leaves the queue of
one leader, is carried by a message, waits with the accounts another leader has collected, and joins that
leader's queue when the transfer is proposed. `afoot` are the transactions in all these places together.
No step but the commit of a block changes it, and that takes the block's transactions out and puts the
relayed ones in (`CustodyStep`).

Two facts about whole runs carry this. Accounts find their receiver waiting and without an entry of their
sender (`AtBarrier.accounts_awaited`), so collecting neither overwrites an entry nor adds one that the
commit of the transfer would drop. And every map in the system names existing shards, if those the
supervisor sends do (`Consistent`), so that nothing is filed under a shard that gets no message. -/

namespace BlockEmulator

variable {H : Type} [DecidableEq H] [Hashing H] {S : ℕ}

/-! ## Maps that name existing shards -/

def ShardMap.Within (S : ℕ) (m : ShardMap) : Prop := ∀ a ∈ m.keys, (m.lookup a).getD 0 < S

instance (m : ShardMap) : Decidable (m.Within S) :=
  inferInstanceAs (Decidable (∀ a ∈ m.keys, (m.lookup a).getD 0 < S))

namespace ShardMap

variable {m m' : ShardMap}

theorem Within.lookup_lt (hm : Within S m) {a : Address} {sid : ℕ} (h : m.lookup a = some sid) :
    sid < S := by
  have hlt := hm a (Finmap.mem_keys.2 (Finmap.mem_iff.2 ⟨sid, h⟩))
  rwa [h] at hlt

theorem within_empty : Within S ∅ := fun _ ha => absurd (Finmap.mem_keys.1 ha) Finmap.notMem_empty

theorem Within.union (hm : Within S m) (hm' : Within S m') : Within S (m ∪ m') := by
  intro a ha
  by_cases hin : a ∈ m
  · rw [Finmap.lookup_union_left hin]
    exact hm a (Finmap.mem_keys.2 hin)
  · rw [Finmap.lookup_union_right hin]
    refine hm' a (Finmap.mem_keys.2 ?_)
    exact (Finmap.mem_union.1 (Finmap.mem_keys.1 ha)).resolve_left hin

/-- The home of every account exists. -/
theorem Within.home_lt (hm : Within S m) (hS : 0 < S) (a : Address) :
    (m.lookup a).getD (addr2Shard S a) < S := by
  cases h : m.lookup a with
  | none => exact addr2Shard_lt hS a
  | some sid => exact hm.lookup_lt h

end ShardMap

/-! ## What a commit of a block can do -/

/-- What a leader sends for the transactions that leave its shard. -/
def Leader.relaysOf (n : Leader H) (txs : List Transaction) : List (ℕ × ShardMsg) :=
  n.toOtherShards fun sid => .relay
    (txs.filter fun t => n.curChain.getPartitionMap t.recipient = sid) n.shardID n.sequenceID

/-- **`HandleinCommit` for a block**: the process ends, with the block added or not, or the checks pass and
    the relayed transactions are sent to where their recipients live. The queue and the homes of accounts
    stay. -/
theorem Leader.commitBlock_cases (n : Leader H) (b : Block H) :
    ∃ bc : BlockChain H, bc.partitionMap = n.curChain.partitionMap ∧
      bc.chainConfig = n.curChain.chainConfig ∧
      bc.txpool.txQueue = n.curChain.txpool.txQueue ∧
      (n.commitBlock b = ({ n with curChain := bc }.crash, []) ∨
        (∀ tx ∈ b.body, n.curChain.correctTx tx = true) ∧
          n.commitBlock b =
            ({ n with curChain := bc }.nextRound, n.relaysOf (n.curChain.relayedTxs b.body))) := by
  unfold commitBlock
  cases hadd : n.curChain.addBlock b with
  | none => exact ⟨n.curChain, rfl, rfl, rfl, .inl rfl⟩
  | some bc =>
    obtain ⟨hpool, hpm, hcc⟩ := BlockChain.addBlock_frame hadd
    have hhome : ∀ a, bc.getPartitionMap a = n.curChain.getPartitionMap a := fun a => by
      rw [BlockChain.getPartitionMap, BlockChain.getPartitionMap, hpm, hcc]
    cases hrelay : bc.collectRelayTxs b.body { bc.txpool with relayPool := ∅ } with
    | none => exact ⟨bc, hpm, hcc, by rw [hpool], .inl (by simp only [hrelay])⟩
    | some pool =>
      obtain ⟨hcorrect, hqueue, hfiled⟩ := BlockChain.collectRelayTxs_spec hrelay
      refine ⟨{ bc with txpool := pool.clearRelayPool }, hpm, hcc, ?_, .inr ⟨?_, ?_⟩⟩
      · exact hqueue.trans (by rw [hpool])
      · intro tx htx
        have hok := hcorrect tx htx
        rwa [BlockChain.correctTx, hhome, hcc] at hok
      · have hsent : ∀ sid, (pool.relayPool.lookup sid).getD [] =
            (n.curChain.relayedTxs b.body).filter fun t =>
              n.curChain.getPartitionMap t.recipient = sid := by
          intro sid
          rw [hfiled sid, BlockChain.relayedTxs_congr hpm hcc]
          simp only [Finmap.lookup_empty, Option.getD_none, List.nil_append, hhome]
        simp only [hrelay, relayMsgSend, relaysOf, hsent]

theorem Leader.commitBlock_sends_no_map (n : Leader H) (b : Block H) :
    ∀ p ∈ (n.commitBlock b).2, ∀ D, p.2 ≠ .partitionModifiedMap D := by
  obtain ⟨bc, -, -, -, h | ⟨-, h⟩⟩ := n.commitBlock_cases b
  · simp [h]
  · intro p hp D
    rw [h] at hp
    obtain ⟨sid, -, rfl⟩ := List.mem_map.1 hp
    simp

/-! ## Consistent leaders -/

/-- The maps a leader has name existing shards, and received transactions are kept apart only while the
    transfer is proposed. -/
structure Leader.Consistent (S : ℕ) (n : Leader H) : Prop where
  modifiedMap : ∀ m ∈ n.cdm.modifiedMap, ShardMap.Within S m
  proposed : ∀ atm, n.phase = .proposed (.partition atm) → ShardMap.Within S atm.modifiedMap
  partitionMap : ShardMap.Within S n.curChain.partitionMap
  receivedNewTx : n.stage ≠ 3 → n.cdm.receivedNewTx = []

namespace Leader

variable {n n' : Leader H}

theorem stage_eq_three_of_partition {atm : AccountTransferMsg}
    (h : n.phase = .proposed (.partition atm)) : n.stage = 3 := by
  rw [stage, h]

/-- Outside the proposal and the commit of a transfer, only new maps matter. -/
theorem Consistent.of_frame (hn : n.Consistent S)
    (hmaps : ∀ m ∈ n'.cdm.modifiedMap, m ∈ n.cdm.modifiedMap ∨ ShardMap.Within S m)
    (hreceived : n'.cdm.receivedNewTx = n.cdm.receivedNewTx)
    (hhomes : n'.curChain.partitionMap = n.curChain.partitionMap)
    (hphase : n'.phase = n.phase ∨ n.stage ≠ 3 ∧ n'.stage ≠ 3) : n'.Consistent S where
  modifiedMap := fun m hm => (hmaps m hm).elim (hn.modifiedMap m) id
  proposed := by
    intro atm hatm
    rcases hphase with hphase | ⟨-, hstage⟩
    · exact hn.proposed atm (hphase ▸ hatm)
    · exact absurd (stage_eq_three_of_partition hatm) hstage
  partitionMap := hhomes ▸ hn.partitionMap
  receivedNewTx := by
    intro hstage
    rw [hreceived]
    refine hn.receivedNewTx ?_
    rcases hphase with hphase | ⟨hstage', -⟩
    · rwa [stage, hphase] at hstage
    · exact hstage'

theorem Consistent.crash (hn : n.Consistent S) : n.crash.Consistent S :=
  hn.of_frame (fun _ => .inl) rfl rfl (.inl rfl)

theorem Consistent.handleMessage (hn : n.Consistent S) {m : ShardMsg}
    (hm : ∀ D, m = .partitionModifiedMap D → ShardMap.Within S D) :
    (n.handleMessageOutsidePBFT .clpa m).Consistent S := by
  cases m with
  | partitionModifiedMap D =>
    refine hn.of_frame (fun D' hD' => ?_) rfl rfl (.inl rfl)
    rcases List.mem_append.1 hD' with hold | hnew
    · exact .inl hold
    · exact .inr (List.mem_singleton.1 hnew ▸ hm D rfl)
  | _ => exact hn.of_frame (fun _ => .inl) rfl rfl (.inl rfl)

theorem Consistent.proposePartition (hn : n.Consistent S) {shards : List ℕ} {addrs : List Address}
    (h : n.proposePartition shards addrs = some n') : n'.Consistent S := by
  obtain ⟨r, -, -, -, -, ⟨rfl, -⟩ | ⟨m, hm, rfl⟩⟩ := proposePartition_cases h
  · exact hn.crash
  · refine ⟨hn.modifiedMap, ?_, hn.partitionMap, fun hstage => absurd rfl hstage⟩
    rintro atm ⟨⟩
    exact hn.modifiedMap m (List.mem_of_getElem? hm)

theorem Consistent.commitPartition (hn : n.Consistent S) {atm : AccountTransferMsg}
    (hphase : n.phase = .proposed (.partition atm)) : (n.commitPartition atm).Consistent S := by
  unfold Leader.commitPartition
  split
  · exact hn.crash
  next bc hdo =>
  obtain ⟨db, root, rfl, -, -⟩ := BlockChain.addAccounts_cases hdo
  refine ⟨?_, fun atm' h => absurd h (by simp [nextRound]),
    (hn.proposed atm hphase).union hn.partitionMap, fun _ => rfl⟩
  intro m hm
  have hmem : m ∈ (afterTransfer n.cdm atm).modifiedMap := hm
  rw [afterTransfer] at hmem
  simp only at hmem
  split at hmem
  · rcases List.mem_append.1 hmem with hold | hnew
    · exact hn.modifiedMap m hold
    · exact List.mem_singleton.1 hnew ▸ hn.proposed atm hphase
  · exact hn.modifiedMap m hmem

/-! ## What a leader has in its hands -/

/-- The queue, the proposed block and, as long as they are not in the queue, the transactions that came with
    accounts. -/
def custody (n : Leader H) : Multiset Transaction :=
  (n.held : Multiset Transaction) + if n.stage = 3 then 0
    else n.cdm.accountStateTx.sumBy fun _ at' => (at'.txs : Multiset Transaction)

end Leader

/-- The transactions that messages carry. -/
def carried (msgs : List (ℕ × ShardMsg)) : Multiset Transaction :=
  (msgs.map fun p => (p.2.txs : Multiset Transaction)).sum

theorem carried_append (msgs msgs' : List (ℕ × ShardMsg)) :
    carried (msgs ++ msgs') = carried msgs + carried msgs' := by
  simp [carried]

/-- A message is taken out. -/
theorem carried_eraseIdx {net : List (ℕ × ShardMsg)} {k : ℕ} {p : ℕ × ShardMsg}
    (hk : net[k]? = some p) : carried (net.eraseIdx k) + p.2.txs = carried net := by
  obtain ⟨hlt, rfl⟩ := List.getElem?_eq_some_iff.1 hk
  have hperm := (List.getElem_cons_eraseIdx_perm hlt).map fun p => (p.2.txs : Multiset Transaction)
  rw [carried, carried, ← hperm.sum_eq, List.map_cons, List.sum_cons, add_comm]

/-- Messages that split a list among all its destinations carry the list. -/
theorem carried_split {txs : List Transaction} {dest : Transaction → ℕ} {sids : List ℕ}
    (hnodup : sids.Nodup) (hdest : ∀ t ∈ txs, dest t ∈ sids) {msg : ℕ → ShardMsg}
    (hmsg : ∀ sid, (msg sid).txs = txs.filter fun t => dest t = sid) :
    carried (sids.map fun sid => (sid, msg sid)) = txs := by
  rw [carried, List.map_map]
  simp only [Function.comp_def, hmsg]
  rw [sum_map_coe, Multiset.coe_eq_coe]
  exact flatMap_filter_perm hnodup hdest

/-- Messages without transactions. -/
theorem carried_toOtherShards_nil (n : Leader H) {msg : ℕ → ShardMsg}
    (hmsg : ∀ sid, (msg sid).txs = []) : carried (n.toOtherShards msg) = 0 := by
  rw [carried, Leader.toOtherShards, List.map_map]
  simp [Function.comp_def, hmsg]

namespace Leader

variable {n n' : Leader H}

/-! ## Each operation hands over what it takes -/

theorem custody_of_frame (hheld : n'.held = n.held)
    (hstates : n'.cdm.accountStateTx = n.cdm.accountStateTx)
    (hstage : n'.stage = n.stage ∨ n.stage ≠ 3 ∧ n'.stage ≠ 3) : n'.custody = n.custody := by
  rw [custody, custody, hheld, hstates]
  rcases hstage with hstage | ⟨hstage, hstage'⟩
  · rw [hstage]
  · rw [if_neg hstage, if_neg hstage']

/-- A leader without a proposal holds its queue and what it has collected. -/
theorem custody_of_open (h : n.phase = .idle ∨ n.phase = .waitReady ∨ n.phase = .waitCollect) :
    n.custody = (n.curChain.txpool.txQueue : Multiset Transaction) +
      n.cdm.accountStateTx.sumBy fun _ at' => (at'.txs : Multiset Transaction) := by
  rcases h with h | h | h <;> simp [custody, held, proposedBlock, stage, h]

theorem custody_of_partition {atm : AccountTransferMsg} (h : n.phase = .proposed (.partition atm)) :
    n.custody = n.curChain.txpool.txQueue := by
  simp [custody, held, proposedBlock, stage, h]

/-- New transactions join the queue. -/
theorem custody_addTxs2Pool (n : Leader H) (txs : List Transaction) :
    (n.addTxs2Pool txs).custody = n.custody + txs := by
  have hheld : ((n.addTxs2Pool txs).held : Multiset Transaction) = n.held + txs := by
    show ((n.curChain.txpool.txQueue ++ txs ++ n.proposedBlock.elim [] Block.body : List Transaction) :
      Multiset Transaction) = _
    rw [held, ← Multiset.coe_add, ← Multiset.coe_add, ← Multiset.coe_add]
    abel
  have hrest : (n.addTxs2Pool txs).stage = n.stage ∧ (n.addTxs2Pool txs).cdm = n.cdm := ⟨rfl, rfl⟩
  rw [custody, custody, hheld, hrest.1, hrest.2]
  abel

/-- **A message that arrives is kept**; accounts need a leader that waits, without an entry of their
    sender. -/
theorem custody_handleMessage {m : ShardMsg} (hm : ∀ at', m = .accountStateAndTx at' →
      at'.fromShard ∉ n.cdm.accountStateTx ∧ n.stage ≠ 3) :
    (n.handleMessageOutsidePBFT .clpa m).custody = n.custody + m.txs := by
  cases m with
  | injectTxs txs => exact n.custody_addTxs2Pool txs
  | relay txs sid seq => exact n.custody_addTxs2Pool txs
  | partitionModifiedMap D => exact (add_zero n.custody).symm
  | partitionReady sid seq => exact (add_zero n.custody).symm
  | accountStateAndTx at' =>
    obtain ⟨hno, hstage⟩ := hm at' rfl
    have hstage' : (n.handleMessageOutsidePBFT .clpa (.accountStateAndTx at')).stage ≠ 3 := hstage
    rw [custody, custody, if_neg hstage, if_neg hstage']
    show (n.held : Multiset Transaction) +
      (Finmap.insert at'.fromShard at' n.cdm.accountStateTx).sumBy _ = _
    rw [Finmap.sumBy_insert_of_notMem _ _ hno, ShardMsg.txs]
    abel

theorem custody_proposeBlock (hidle : n.phase = .idle) {now : ℕ} {bc : BlockChain H} {b : Block H}
    (h : n.curChain.generateBlock 0 now = some (bc, b)) :
    custody { n with curChain := bc, phase := .proposed (.block b) } = n.custody := by
  have hheld : (held { n with curChain := bc, phase := .proposed (.block b) } : Multiset Transaction) =
      n.held := by
    rw [Multiset.coe_eq_coe]
    exact List.perm_iff_count.2 (ShardWorld.count_held_proposeBlock hidle h)
  have hstage : n.stage ≠ 3 := by simp [stage, hidle]
  rw [custody, custody, hheld, if_neg hstage, if_neg (by simp [stage])]

/-- What stays and what is carried away is the queue. -/
theorem coe_sendAccountsLoop (shardID : ℕ) (m : ShardMap) (fetched : List (Address × AccountState))
    (sids : List ℕ) (queue : List Transaction) :
    ((sendAccountsLoop shardID m fetched sids queue).1 : Multiset Transaction) +
      carried (sendAccountsLoop shardID m fetched sids queue).2 = queue := by
  have hperm := @scatter_perm _ _ (fun i => goesAlong ((sentTo m fetched i).map Prod.fst))
    (sids.filter fun i => i ≠ shardID) queue
  rw [← Multiset.coe_eq_coe, ← Multiset.coe_add, ← sum_map_coe] at hperm
  rw [sendAccountsLoop_eq, carried, List.map_map]
  exact hperm

/-- **What leaves with accounts** is carried by the messages. -/
theorem custody_sendAccountsAndTxs (hphase : n.phase = .waitReady) {order : List Address}
    {msgs : List (ℕ × ShardMsg)} (h : n.sendAccountsAndTxs order = some (n', msgs)) :
    n'.custody + carried msgs = n.custody := by
  rcases sendAccountsAndTxs_cases h with ⟨-, rfl, rfl⟩ | ⟨m, asFetched, r, -, -, -, hr, rfl, rfl⟩
  · exact add_zero n.custody
  · have hsplit : (r.1 : Multiset Transaction) + carried r.2 = n.curChain.txpool.txQueue :=
      hr ▸ coe_sendAccountsLoop ..
    rw [custody_of_open (.inr (.inl hphase)), custody_of_open (.inr (.inr rfl)), ← hsplit]
    show (r.1 : Multiset Transaction) + n.cdm.accountStateTx.sumBy _ + _ = _
    abel

/-- The transactions that come out of the first loop of `proposePartition`. -/
theorem collectReceived_txs (n : Leader H) (shards : List ℕ) (acc : Accounts × List Transaction) :
    (n.collectReceived shards acc).2 =
      acc.2 ++ shards.flatMap fun sid =>
        (n.cdm.accountStateTx.lookup sid).elim [] AccountStateAndTx.txs := by
  induction shards generalizing acc with
  | nil => simp [collectReceived]
  | cons sid shards ih =>
    rw [collectReceived, List.flatMap_cons]
    cases h : n.cdm.accountStateTx.lookup sid with
    | none => exact ih acc
    | some at' =>
      simp only [ih, Option.elim_some, List.append_assoc]

/-- In whatever order the collected accounts are visited, all their transactions come out. -/
theorem coe_collectReceived {shards : List ℕ} (hnodup : shards.Nodup)
    (hshards : shards.toFinset = n.cdm.accountStateTx.keys) (st : Accounts) :
    ((n.collectReceived shards (st, [])).2 : Multiset Transaction) =
      n.cdm.accountStateTx.sumBy fun _ at' => (at'.txs : Multiset Transaction) := by
  rw [collectReceived_txs, List.nil_append, ← sum_map_coe, ← List.sum_toFinset _ hnodup, hshards,
    Finmap.sumBy_eq_sum_of_subset _ _ subset_rfl]
  refine Finset.sum_congr rfl ?_
  intro sid _
  cases n.cdm.accountStateTx.lookup sid <;> rfl

/-- **What was collected joins the queue** when the transfer is proposed. -/
theorem custody_proposePartition (hphase : n.phase = .waitCollect) (hrec : n.cdm.receivedNewTx = [])
    {shards : List ℕ} {addrs : List Address} (h : n.proposePartition shards addrs = some n') :
    n'.custody = n.custody := by
  obtain ⟨r, hr, hnodup, hshards, -, ⟨rfl, -⟩ | ⟨m, -, rfl⟩⟩ := proposePartition_cases h
  · rfl
  · rw [hrec] at hr
    rw [custody_of_open (.inr (.inr hphase)), custody_of_partition rfl,
      ← coe_collectReceived hnodup hshards n.cdm.receivedNewAccountState, ← hr, Multiset.coe_add]
    rfl

/-- The commit of the transfer drops what is in the queue by now. -/
theorem custody_commitPartition {atm : AccountTransferMsg}
    (hphase : n.phase = .proposed (.partition atm)) : (n.commitPartition atm).custody = n.custody := by
  unfold Leader.commitPartition
  split
  · rfl
  next bc hdo =>
  obtain ⟨db, root, rfl, -, -⟩ := BlockChain.addAccounts_cases hdo
  rw [custody_of_partition hphase, custody_of_open (.inl rfl)]
  exact add_zero _

/-- **A committed block** is out of the leader's hands, and its relayed transactions are in messages. -/
theorem custody_commitBlock (hid : n.shardNums = S) (hn : n.Consistent S) (hS : 0 < S) {b : Block H}
    (hphase : n.phase = .proposed (.block b)) :
    (n.commitBlock b).1.Consistent S ∧
      ((n.commitBlock b).1.custody = n.custody ∧ (n.commitBlock b).2 = [] ∧
          (n.commitBlock b).1.alive = false ∨
        (∀ tx ∈ b.body, n.curChain.correctTx tx = true) ∧
          (n.commitBlock b).1.custody + b.body = n.custody ∧
          carried (n.commitBlock b).2 = n.curChain.relayedTxs b.body ∧
          (n.commitBlock b).1.alive = n.alive) := by
  have hstage : n.stage ≠ 3 := by simp [stage, hphase]
  have hblock : n.proposedBlock = some b := mem_proposedBlock.2 hphase
  obtain ⟨bc, hpm, -, hqueue, h | ⟨hcorrect, h⟩⟩ := n.commitBlock_cases b
  · rw [h]
    refine ⟨hn.of_frame (fun _ => .inl) rfl hpm (.inl rfl), .inl ⟨?_, rfl, rfl⟩⟩
    refine custody_of_frame ?_ rfl (.inl rfl)
    show bc.txpool.txQueue ++ n.proposedBlock.elim [] Block.body = _
    rw [hqueue]
    rfl
  · rw [h]
    refine ⟨hn.of_frame (fun _ => .inl) rfl hpm (.inr ⟨hstage, by simp [nextRound, stage]⟩),
      .inr ⟨hcorrect, ?_, ?_, rfl⟩⟩
    · rw [custody, custody, if_neg hstage, if_neg (by simp [nextRound, stage]), held, held, hblock]
      show ((bc.txpool.txQueue ++ [] : List Transaction) : Multiset Transaction) + _ + _ = _
      rw [hqueue, List.append_nil, Option.elim_some, ← Multiset.coe_add]
      show _ + n.cdm.accountStateTx.sumBy _ + _ = _
      abel
    · refine carried_split (List.nodup_range.filter _) ?_ fun _ => rfl
      intro t ht
      obtain ⟨tx, htx, rfl⟩ := List.mem_map.1 ht
      refine List.mem_filter.2 ⟨List.mem_range.2 ?_, (List.mem_filter.1 htx).2⟩
      subst hid
      exact hn.partitionMap.home_lt hS tx.recipient

end Leader

/-! ## The whole system -/

namespace ShardWorld

/-- The transactions under way, wherever they are. -/
def afoot (w : ShardWorld H S) : Multiset Transaction :=
  w.remaining + carried w.net + ∑ i, (w.leaders i).custody

/-- What is afoot after one leader and the network have changed. -/
theorem afoot_update (w w' : ShardWorld H S) {i : Fin S} {n : Leader H}
    (hleaders : w'.leaders = Function.update w.leaders i n) (hrem : w'.remaining = w.remaining) :
    w'.afoot + carried w.net + (w.leaders i).custody = w.afoot + carried w'.net + n.custody := by
  have hsum := sum_update_add w.leaders Leader.custody i n
  rw [afoot, afoot, hleaders, hrem]
  calc _ = (w.remaining + carried w'.net + carried w.net) +
          (∑ j, (Function.update w.leaders i n j).custody + (w.leaders i).custody) := by abel
    _ = _ := by rw [hsum]; abel

theorem afoot_after (w : ShardWorld H S) (i : Fin S) (n : Leader H) (msgs : List (ℕ × ShardMsg)) :
    (w.after i n msgs).afoot + (w.leaders i).custody = w.afoot + carried msgs + n.custody := by
  have h : (w.after i n msgs).afoot + carried w.net + (w.leaders i).custody =
      w.afoot + carried (w.net ++ msgs) + n.custody := afoot_update w (w.after i n msgs) rfl rfl
  rw [carried_append] at h
  refine add_right_cancel (b := carried w.net) ?_
  calc _ = _ := by abel
    _ = _ := h
    _ = _ := by abel

/-- A leader that hands over what it takes leaves everything afoot. -/
theorem afoot_after_eq {w : ShardWorld H S} {i : Fin S} {n : Leader H} {msgs : List (ℕ × ShardMsg)}
    (h : n.custody + carried msgs = (w.leaders i).custody) : (w.after i n msgs).afoot = w.afoot := by
  have hafter := afoot_after w i n msgs
  rw [← h] at hafter
  refine add_right_cancel (b := n.custody + carried msgs) ?_
  calc _ = _ := hafter
    _ = _ := by abel

/-- Every map in the system names existing shards. -/
structure Consistent (w : ShardWorld H S) : Prop where
  leaders : ∀ i, (w.leaders i).Consistent S
  net : ∀ p ∈ w.net, ∀ D, p.2 = .partitionModifiedMap D → ShardMap.Within S D
  modifiedMap : ShardMap.Within S w.modifiedMap

/-- The maps the supervisor sends name existing shards. -/
def MapsExist (_ : ShardWorld H S) : ShardAct S → Prop
  | .clpaMapSend m => ShardMap.Within S m
  | _ => True

instance (w : ShardWorld H S) : (a : ShardAct S) → Decidable (w.MapsExist a)
  | .clpaMapSend m => inferInstanceAs (Decidable (ShardMap.Within S m))
  | .txSending _ | .deliver _ | .proposeBlock _ _ | .sendPartitionReady _ | .sendAccountsAndTxs _ _
  | .proposePartition _ _ _ | .commit _ => .isTrue trivial

theorem consistent_init {bc : Fin S → BlockChain H} (hmap : ∀ i, (bc i).partitionMap = ∅)
    (dataset : List Transaction) : (init bc dataset).Consistent where
  leaders := fun i => by
    refine ⟨by simp [init, Leader.new], fun _ h => absurd h (by simp [init, Leader.new]), ?_,
      fun _ => rfl⟩
    show ShardMap.Within S (bc i).partitionMap
    rw [hmap]
    exact ShardMap.within_empty
  net := by simp [init]
  modifiedMap := ShardMap.within_empty

theorem Consistent.after {w : ShardWorld H S} (hw : w.Consistent) {i : Fin S} {n : Leader H}
    {msgs : List (ℕ × ShardMsg)} (hn : n.Consistent S)
    (hmsgs : ∀ p ∈ msgs, ∀ D, p.2 ≠ .partitionModifiedMap D) : (w.after i n msgs).Consistent where
  leaders := (forall_leaders_after (p := fun _ m => m.Consistent S)).2 ⟨hn, fun j _ => hw.leaders j⟩
  net := fun p hp D hD => (List.mem_append.1 hp).elim (fun hold => hw.net p hold D hD)
    fun hnew => absurd hD (hmsgs p hnew D)
  modifiedMap := hw.modifiedMap

/-- What one step does to the transactions afoot: nothing, or it commits a block, whose transactions are
    done and whose relayed ones set out. -/
inductive CustodyStep (w : ShardWorld H S) (a : ShardAct S) (w' : ShardWorld H S) : Prop
  | same : w'.afoot = w.afoot →
      (∀ i b, a = .commit i → b ∈ (w.leaders i).proposedBlock → (w'.leaders i).alive = false) →
      CustodyStep w a w'
  | commit (i : Fin S) (b : Block H) : a = .commit i → b ∈ (w.leaders i).proposedBlock →
      (w'.leaders i).alive = true →
      (∀ tx ∈ b.body, (w.leaders i).curChain.correctTx tx = true) →
      w'.afoot + b.body = w.afoot + (w.leaders i).curChain.relayedTxs b.body → CustodyStep w a w'

/-- The supervisor sends every transaction to one of the shards. -/
theorem Consistent.afoot_txSending {w : ShardWorld H S} (hw : w.Consistent) (hS : 0 < S) (count : ℕ) :
    (w.txSending count).afoot = w.afoot := by
  have hsplit : carried ((List.range S).map fun sid => (sid, ShardMsg.injectTxs
      ((w.remaining.take count).filter fun tx => w.fetchModifiedMap tx.sender = sid))) =
        w.remaining.take count :=
    carried_split List.nodup_range
      (fun t _ => List.mem_range.2 (hw.modifiedMap.home_lt hS t.sender)) fun _ => rfl
  have htake : (w.remaining : Multiset Transaction) =
      w.remaining.take count + w.remaining.drop count := by
    rw [Multiset.coe_add, List.take_append_drop]
  rw [afoot, afoot, htake]
  show ((w.remaining.drop count : List Transaction) : Multiset Transaction) +
    carried (w.net ++ _) + _ = _
  rw [carried_append, hsplit]
  show _ + ∑ i, (w.leaders i).custody = _
  abel

/-- **A message that arrives** changes hands. -/
theorem AtBarrier.afoot_receive {w : ShardWorld H S} (hw : w.AtBarrier) {k : ℕ} {i : Fin S}
    {m : ShardMsg} (hk : w.net[k]? = some (i.val, m)) : (w.receive .clpa k i m).afoot = w.afoot := by
  have hkeeps : ((w.leaders i).handleMessageOutsidePBFT .clpa m).custody =
      (w.leaders i).custody + m.txs := by
    refine Leader.custody_handleMessage ?_
    rintro at' rfl
    obtain ⟨hno, hphase, -⟩ := hw.accounts_awaited (List.mem_of_getElem? hk)
    refine ⟨hno, ?_⟩
    rcases hphase with hphase | hphase <;> simp [Leader.stage, hphase]
  have hnet : carried (w.net.eraseIdx k) + m.txs = carried w.net := carried_eraseIdx hk
  have h : (w.receive .clpa k i m).afoot + carried w.net + (w.leaders i).custody =
      w.afoot + carried (w.net.eraseIdx k) + ((w.leaders i).custody + m.txs) :=
    hkeeps ▸ afoot_update w (w.receive .clpa k i m) rfl rfl
  refine add_right_cancel (b := carried w.net + (w.leaders i).custody) ?_
  calc _ = _ := by abel
    _ = _ := h
    _ = _ := by rw [← hnet]; abel

/-- The leaders know their shards. -/
theorem AtBarrier.shardNums {w : ShardWorld H S} (hw : w.AtBarrier) (i : Fin S) :
    (w.leaders i).shardNums = S := by
  obtain ⟨rounds, sent, got, hw⟩ := hw
  exact (hw.announces i).shardNums

/-- **No transaction is lost or doubled**, whatever is repartitioned and in whatever order messages are
    delivered. -/
theorem Consistent.step {w w' : ShardWorld H S} {a : ShardAct S} (hw : w.Consistent)
    (hbarrier : w.AtBarrier) (hS : 0 < S) (hmaps : w.MapsExist a) (h : w.step .clpa a = some w') :
    w'.Consistent ∧ CustodyStep w a w' := by
  have hact : ∀ {i : Fin S} {n : Leader H} {msgs : List (ℕ × ShardMsg)} {a : ShardAct S},
      n.Consistent S → (∀ p ∈ msgs, ∀ D, p.2 ≠ .partitionModifiedMap D) →
      n.custody + carried msgs = (w.leaders i).custody →
      (∀ j b, a = .commit j → b ∈ (w.leaders j).proposedBlock →
        ((w.after i n msgs).leaders j).alive = false) →
      (w.after i n msgs).Consistent ∧ CustodyStep w a (w.after i n msgs) :=
    fun hn hmsgs hcustody hdone => ⟨hw.after hn hmsgs, .same (afoot_after_eq hcustody) hdone⟩
  cases steps_of_step h with
  | txSending count =>
    refine ⟨⟨hw.leaders, ?_, hw.modifiedMap⟩, .same (hw.afoot_txSending hS count) (by simp)⟩
    intro p hp D hD
    rcases List.mem_append.1 hp with hold | hnew
    · exact hw.net p hold D hD
    · obtain ⟨sid, -, rfl⟩ := List.mem_map.1 hnew
      exact absurd hD (by simp)
  | clpaMapSend m =>
    have hempty : carried ((List.range S).map fun sid => (sid, ShardMsg.partitionModifiedMap m)) = 0 := by
      simp [carried, Function.comp_def, ShardMsg.txs]
    refine ⟨⟨hw.leaders, ?_, ShardMap.Within.union hmaps hw.modifiedMap⟩, .same ?_ (by simp)⟩
    · intro p hp D hD
      rcases List.mem_append.1 hp with hold | hnew
      · exact hw.net p hold D hD
      · obtain ⟨sid, -, rfl⟩ := List.mem_map.1 hnew
        obtain ⟨⟩ := hD
        exact hmaps
    · show _ + carried (w.net ++ _) + _ = _
      rw [carried_append, hempty, add_zero]
      rfl
  | @deliver k i m hk =>
    refine ⟨⟨?_, fun p hp => hw.net p (List.mem_of_mem_eraseIdx hp), hw.modifiedMap⟩,
      .same (hbarrier.afoot_receive hk) (by simp)⟩
    refine (forall_leaders_after (p := fun _ m => m.Consistent S)).2 ⟨?_, fun j _ => hw.leaders j⟩
    exact (hw.leaders i).handleMessage (hw.net _ (List.mem_of_getElem? hk))
  | @proposePanics i => exact hact (hw.leaders i).crash (by simp) (add_zero _) (by simp)
  | @proposeBlock i now bc b _ hphase hgen =>
    obtain ⟨hfiles, -⟩ := BlockChain.generateBlock_spec hgen
    refine hact ((hw.leaders i).of_frame (fun _ => .inl) rfl hfiles.partition (.inr ⟨?_, ?_⟩)) (by simp)
      ((add_zero _).trans (Leader.custody_proposeBlock hphase hgen)) (by simp)
    · simp [Leader.stage, hphase]
    · simp [Leader.stage]
  | @sendPartitionReady i _ hphase =>
    refine hact ((hw.leaders i).of_frame (fun _ => .inl) rfl rfl (.inr ⟨?_, ?_⟩)) ?_ ?_ (by simp)
    · simp [Leader.stage, hphase]
    · simp [Leader.stage, Leader.sendPartitionReady]
    · intro p hp D
      obtain ⟨sid, -, rfl⟩ := List.mem_map.1 hp
      simp
    · rw [Leader.custody_of_open (.inl hphase), Leader.custody_of_open (.inr (.inl rfl)),
        Leader.sendPartitionReady, carried_toOtherShards_nil _ fun _ => rfl, add_zero]
  | @sendAccountsAndTxs i order n msgs hphase hsend =>
    refine hact ?_ ?_ (Leader.custody_sendAccountsAndTxs hphase hsend) (by simp)
    · rcases Leader.sendAccountsAndTxs_cases hsend with
        ⟨-, rfl, -⟩ | ⟨m, asFetched, r, -, -, -, -, rfl, -⟩
      · exact (hw.leaders i).crash
      · refine (hw.leaders i).of_frame (fun _ => .inl) rfl rfl (.inr ⟨?_, ?_⟩)
        · simp [Leader.stage, hphase]
        · simp [Leader.stage]
    · intro p hp D
      rcases Leader.sendAccountsAndTxs_cases hsend with
        ⟨-, -, rfl⟩ | ⟨m, asFetched, r, -, -, -, rfl, -, rfl⟩
      · exact absurd hp (by simp)
      · rw [Leader.sendAccountsLoop_eq] at hp
        obtain ⟨q, -, rfl⟩ := List.mem_map.1 hp
        simp
  | @proposePartition i shards addrs n hphase _ hprop =>
    have hrec := (hw.leaders i).receivedNewTx (by simp [Leader.stage, hphase])
    exact hact ((hw.leaders i).proposePartition hprop) (by simp)
      ((add_zero _).trans (Leader.custody_proposePartition hphase hrec hprop)) (by simp)
  | @commitBlock i b halive hphase =>
    have hb := Leader.mem_proposedBlock.2 hphase
    obtain ⟨hn, hcases⟩ :=
      Leader.custody_commitBlock (hbarrier.shardNums i) (hw.leaders i) hS hphase
    have hworld := hw.after (i := i) hn ((w.leaders i).commitBlock_sends_no_map b)
    have hafoot : (w.commitBlock i b).afoot + (w.leaders i).custody =
        w.afoot + carried ((w.leaders i).commitBlock b).2 + ((w.leaders i).commitBlock b).1.custody :=
      afoot_after w i _ _
    have hself : (w.commitBlock i b).leaders i = ((w.leaders i).commitBlock b).1 :=
      Function.update_self ..
    refine ⟨⟨hworld.leaders, hworld.net, hworld.modifiedMap⟩, ?_⟩
    rcases hcases with ⟨hcustody, hnone, hdead⟩ | ⟨hcorrect, hcustody, hrelayed, hlive⟩
    · refine .same ?_ ?_
      · refine afoot_after_eq ?_
        rw [hcustody, hnone]
        exact add_zero _
      · rintro j b' ⟨⟩ -
        rw [hself, hdead]
    · refine .commit i b rfl hb (by rw [hself, hlive, halive]) hcorrect ?_
      rw [← hcustody, hrelayed] at hafoot
      refine add_right_cancel (b := ((w.leaders i).commitBlock b).1.custody) ?_
      rw [← hafoot]
      abel
  | @commitPartition i atm hphase =>
    refine hact ((hw.leaders i).commitPartition hphase) (by simp)
      ((add_zero _).trans (Leader.custody_commitPartition hphase)) ?_
    rintro j b ⟨⟩ hb
    rw [Leader.mem_proposedBlock, hphase] at hb
    exact absurd hb (by simp)

end ShardWorld

end BlockEmulator
