import BlockEmulator.Shard.Custody
import BlockEmulator.Supervisor.TxNumCount

set_option autoImplicit false

/-! # Counting transactions under repartitioning

The CLPA module reports a committed block like the raw relay module does, under the number of the last
transfer of accounts, and the supervisor counts with the same measurement. Accounts move in between, and
queued transactions with them: the first half of a transaction may be done in one shard, its second half
wait in another and be done in a third.

A surviving commit has passed the checks on its transactions, so what it reports is what it takes off
(`Leader.halves_report`), and no other step changes the transactions afoot (`CustodyStep`). So the sum
of what is counted, reported and afoot is what the supervisor has injected, as in relay mode. -/

namespace BlockEmulator

variable {H : Type} [DecidableEq H] [Hashing H] {S : ℕ}

/-! ## Reports -/

/-- The report of the CLPA module on a block. -/
def Leader.clpaBlockInfo (n : Leader H) (b : Block H) : BlockInfoMsg :=
  { n.relayBlockInfo b with epoch := n.cdm.accountTransferRound }

/-- The report has an epoch and is about all transactions of its block. -/
structure BlockInfoMsg.Complete (b : BlockInfoMsg) : Prop where
  epoch : 0 ≤ b.epoch
  length : b.blockBodyLength =
    b.innerShardTxs.length + b.relay1Txs.length + b.relay2Txs.length

theorem Leader.clpaBlockInfo_complete (n : Leader H) (b : Block H) : (n.clpaBlockInfo b).Complete :=
  ⟨Int.natCast_nonneg _, (n.relayBlockInfo_ofRelay b).length⟩

/-- A report moves its weight into the count, in whatever epoch. -/
theorem TestTxNumCountRelay.updateMeasureRecord_of_complete (t : TestTxNumCountRelay)
    {b : BlockInfoMsg} (hb : b.Complete) :
    ∃ t', t.updateMeasureRecord b = some t' ∧ t'.halves = t.halves + b.halves := by
  unfold updateMeasureRecord
  split
  · next hempty =>
    refine ⟨t, rfl, ?_⟩
    have hlength := hb.length
    rw [BlockInfoMsg.halves]
    omega
  · simp only [dif_pos hb.epoch]
    refine ⟨_, rfl, ?_⟩
    rw [halves_add, halves_extendBy, BlockInfoMsg.halves]

/-! ## Weights -/

/-- What is left of some transactions, in halves. -/
def weigh (txs : Multiset Transaction) : ℕ := (txs.map Transaction.halves).sum

theorem weigh_add (txs txs' : Multiset Transaction) : weigh (txs + txs') = weigh txs + weigh txs' := by
  simp [weigh]

theorem weigh_coe (txs : List Transaction) : weigh txs = countHalves txs := by
  simp [weigh, countHalves]

theorem weigh_sum (f : Fin S → Multiset Transaction) : weigh (∑ i, f i) = ∑ i, weigh (f i) :=
  map_sum (Multiset.sumAddMonoidHom.comp (Multiset.mapAddMonoidHom Transaction.halves)) f Finset.univ

/-- **What a block reports is what its commit takes off**, if its checks pass. -/
theorem Leader.halves_report (n : Leader H) {b : Block H}
    (hcorrect : ∀ tx ∈ b.body, n.curChain.correctTx tx = true) :
    (n.clpaBlockInfo b).halves + countHalves (n.curChain.relayedTxs b.body) = countHalves b.body := by
  have hrelayed : ∀ body : List Transaction, countHalves (n.curChain.relayedTxs body) =
      (n.curChain.relayedTxs body).length := by
    intro body
    simp [countHalves, BlockChain.relayedTxs, Function.comp_def, Transaction.halves]
  rw [hrelayed]
  simp only [BlockInfoMsg.halves, clpaBlockInfo, relayBlockInfo, BlockChain.relayedTxs, List.length_map]
  generalize b.body = body at hcorrect ⊢
  induction body with
  | nil => rfl
  | cons tx body ih =>
    obtain ⟨hhead, hrest⟩ := List.forall_mem_cons.1 hcorrect
    have hbody := ih hrest
    have hid : n.curChain.chainConfig.shardID = n.shardID := rfl
    rw [BlockChain.correctTx, hid, decide_eq_true_eq] at hhead
    rw [hid] at hbody ⊢
    simp only [countHalves, List.map_cons, List.sum_cons, Transaction.halves] at hbody ⊢
    cases hrel : tx.relayed with
    | true =>
      -- a second half is done here
      rw [hrel, if_pos rfl] at hhead
      simp [hhead, hrel] at hbody ⊢
      omega
    | false =>
      by_cases hr : n.curChain.getPartitionMap tx.recipient = n.shardID <;>
        simp [hr, hrel] at hbody ⊢ <;> omega

namespace ShardWorld

/-- What the main nodes report when the step from `w` to `w'` is taken. -/
def clpaReports (w w' : ShardWorld H S) : ShardAct S → List BlockInfoMsg
  | .commit i =>
    match (w.leaders i).proposedBlock with
    | some b => if (w'.leaders i).alive then [(w.leaders i).clpaBlockInfo b] else []
    | none => []
  | _ => []

theorem complete_of_mem_clpaReports {w w' : ShardWorld H S} {a : ShardAct S} {b : BlockInfoMsg}
    (h : b ∈ w.clpaReports w' a) : b.Complete := by
  unfold clpaReports at h
  split at h
  · split at h
    · split at h
      · rw [List.mem_singleton] at h
        exact h ▸ Leader.clpaBlockInfo_complete _ _
      · exact absurd h (by simp)
    · exact absurd h (by simp)
  · exact absurd h (by simp)

/-- **One step in halves.** What it reports is what is no longer afoot. -/
theorem CustodyStep.weigh {w w' : ShardWorld H S} {a : ShardAct S} (h : CustodyStep w a w') :
    ((w.clpaReports w' a).map BlockInfoMsg.halves).sum + weigh w'.afoot = weigh w.afoot := by
  cases h with
  | same hafoot hdead =>
    have hnone : w.clpaReports w' a = [] := by
      unfold clpaReports
      split
      · split
        · next i _ b hb =>
            rw [hdead i b rfl hb]
            rfl
        · rfl
      · rfl
    rw [hnone, hafoot]
    simp
  | commit i b ha hb halive hcorrect hafoot =>
    subst ha
    have hreports : w.clpaReports w' (.commit i) = [(w.leaders i).clpaBlockInfo b] := by
      simp only [clpaReports, Option.mem_def.1 hb, halive, if_true]
    have hweigh := congrArg BlockEmulator.weigh hafoot
    have hreport := (w.leaders i).halves_report hcorrect
    rw [weigh_add, weigh_add, weigh_coe, weigh_coe] at hweigh
    rw [hreports]
    simp only [List.map_cons, List.map_nil, List.sum_cons, List.sum_nil]
    omega

/-- What is pending in messages and with the leaders, in halves. -/
def pendingWeight (w : ShardWorld H S) : ℕ :=
  BlockEmulator.weigh (carried w.net) + ∑ i, BlockEmulator.weigh (w.leaders i).custody

theorem weigh_afoot (w : ShardWorld H S) :
    BlockEmulator.weigh w.afoot = countHalves w.remaining + w.pendingWeight := by
  rw [afoot, weigh_add, weigh_add, weigh_coe, weigh_sum, pendingWeight, Nat.add_assoc]

end ShardWorld

/-! ## The shards and the measurement -/

namespace MeasuredWorld

/-- A step of the shards with the CLPA module, or the delivery of a report. -/
def clpaStep (w : MeasuredWorld H S) : MeasuredAct S → Option (MeasuredWorld H S)
  | .shards a =>
    (w.shards.step .clpa a).map fun s =>
      { w with shards := s, blockInfos := w.blockInfos ++ w.shards.clpaReports s a }
  | .handleBlockInfos k =>
    w.blockInfos[k]?.bind fun b =>
      (w.txNumCount.updateMeasureRecord b).map fun t =>
        { w with blockInfos := w.blockInfos.eraseIdx k, txNumCount := t }

/-- The maps the supervisor sends name existing shards. -/
def MapsExist (w : MeasuredWorld H S) : MeasuredAct S → Prop
  | .shards a => w.shards.MapsExist a
  | .handleBlockInfos _ => True

instance (w : MeasuredWorld H S) : (a : MeasuredAct S) → Decidable (w.MapsExist a)
  | .shards a => inferInstanceAs (Decidable (w.shards.MapsExist a))
  | .handleBlockInfos _ => .isTrue trivial

/-- The dataset is with the supervisor, afoot, reported or counted. -/
structure Tracked (dataset : List Transaction) (w : MeasuredWorld H S) : Prop where
  barrier : w.shards.AtBarrier
  consistent : w.shards.Consistent
  remaining : w.shards.remaining <:+ dataset
  reports : ∀ b ∈ w.blockInfos, b.Complete
  halves : w.txNumCount.halves + w.reportedHalves + weigh w.shards.afoot = countHalves dataset

theorem Tracked.step {dataset : List Transaction} {w w' : MeasuredWorld H S} {a : MeasuredAct S}
    (hw : Tracked dataset w) (hS : 0 < S) (hmaps : w.MapsExist a) (h : w.clpaStep a = some w') :
    Tracked dataset w' := by
  have hhalves := hw.halves
  cases a with
  | shards a =>
    obtain ⟨s, hstep, rfl⟩ := Option.map_eq_some_iff.1 h
    obtain ⟨hconsistent, hcustody⟩ := hw.consistent.step hw.barrier hS hmaps hstep
    refine ⟨hw.barrier.step hstep, hconsistent,
      (ShardWorld.steps_of_step hstep).remaining_suffix.trans hw.remaining, ?_, ?_⟩
    · intro b hb
      exact (List.mem_append.1 hb).elim (hw.reports b) ShardWorld.complete_of_mem_clpaReports
    · have hmoved := hcustody.weigh
      simp only [reportedHalves, List.map_append, List.sum_append] at hhalves ⊢
      omega
  | handleBlockInfos k =>
    obtain ⟨b, hb, h⟩ := Option.bind_eq_some_iff.1 h
    obtain ⟨t, hupdate, rfl⟩ := Option.map_eq_some_iff.1 h
    obtain ⟨t', hupdate', hcount⟩ :=
      w.txNumCount.updateMeasureRecord_of_complete (hw.reports b (List.mem_of_getElem? hb))
    obtain rfl := Option.some.inj (hupdate'.symm.trans hupdate)
    refine ⟨hw.barrier, hw.consistent, hw.remaining,
      fun b' hb' => hw.reports b' (List.mem_of_mem_eraseIdx hb'), ?_⟩
    have hrest : w.blockInfos.Perm (b :: w.blockInfos.eraseIdx k) := by
      obtain ⟨hk, rfl⟩ := List.getElem?_eq_some_iff.1 hb
      exact (List.getElem_cons_eraseIdx_perm hk).symm
    have hsum := (hrest.map BlockInfoMsg.halves).sum_eq
    simp only [reportedHalves, List.map_cons, List.sum_cons] at hhalves hsum ⊢
    omega

theorem tracked_init {cc : Fin S → ChainConfig} {db : Fin S → TrieDB H} {bc : Fin S → BlockChain H}
    (hid : ∀ i, (cc i).shardID = i) (hnums : ∀ i, (cc i).shardNums = S)
    (hnew : ∀ i, BlockChain.newBlockChain (cc i) Storage.empty (db i) = some (bc i))
    (dataset : List Transaction) : Tracked dataset (init bc dataset) := by
  have hcc : ∀ i, (bc i).chainConfig = cc i := fun i =>
    (BlockChain.newBlockChain_spec (hnew i)).1
  have hmap : ∀ i, (bc i).partitionMap = ∅ := fun i =>
    (BlockChain.newBlockChain_spec (hnew i)).2.2.1
  refine ⟨ShardWorld.atBarrier_init (fun i => by rw [hcc, hid]) fun i => by rw [hcc, hnums],
    ShardWorld.consistent_init hmap dataset, List.suffix_rfl, by simp [init], ?_⟩
  have hempty : ∀ i, (Leader.new (bc i)).custody = 0 := fun i => by
    rw [Leader.custody_of_open (.inl rfl)]
    show ((bc i).txpool.txQueue : Multiset Transaction) + Finmap.sumBy ∅ _ = 0
    rw [BlockChain.newBlockChain_txQueue (hnew i)]
    rfl
  rw [ShardWorld.weigh_afoot]
  simp [init, ShardWorld.init, ShardWorld.pendingWeight, carried, hempty, weigh, reportedHalves,
    TestTxNumCountRelay.halves, TestTxNumCountRelay.new]

/-- Every report is delivered, and no message or leader holds a transaction. -/
structure Settled (w : MeasuredWorld H S) : Prop where
  blockInfos : w.blockInfos = []
  net : carried w.shards.net = 0
  custody : ∀ i, (w.shards.leaders i).custody = 0

instance (w : MeasuredWorld H S) : Decidable w.Settled :=
  decidable_of_iff (w.blockInfos.length = 0 ∧ (carried w.shards.net).card = 0 ∧
    ∀ i, (w.shards.leaders i).custody.card = 0)
    ⟨fun h => ⟨List.eq_nil_of_length_eq_zero h.1, Multiset.card_eq_zero.1 h.2.1,
        fun i => Multiset.card_eq_zero.1 (h.2.2 i)⟩,
      fun h => ⟨by rw [h.blockInfos]; rfl, by rw [h.net]; rfl, fun i => by rw [h.custody i]; rfl⟩⟩

/-- **Repartitioning loses no count.** In every state of every run of CLPA mode, with accounts moved any
    number of times and with messages and reports delivered in any order: twice the number of injected
    transactions is twice the normal count and the relay counts, over all epochs, and the same weights in
    the reports in flight, and two for every pending transaction that is not relayed and one for every
    relayed one, in messages, queues, proposed blocks and among collected accounts. Every report can be
    handled; when all is settled, the total that is put out is the number of injected transactions. -/
theorem repartitioned_txs_counted {cc : Fin S → ChainConfig} {db : Fin S → TrieDB H}
    {bc : Fin S → BlockChain H} {digest : TxDigest} {now : ℕ → ℕ} {dataTotalNum : ℕ}
    {records : List CsvRecord} {w : MeasuredWorld H S} (hS : 0 < S)
    (hid : ∀ i, (cc i).shardID = i) (hnums : ∀ i, (cc i).shardNums = S)
    (hnew : ∀ i, BlockChain.newBlockChain (cc i) Storage.empty (db i) = some (bc i))
    (hrun : ReachesUnder clpaStep MapsExist
      (init bc (CsvRecord.readDataset digest now dataTotalNum 0 records)) w) :
    (∀ b ∈ w.blockInfos, w.txNumCount.updateMeasureRecord b ≠ none) ∧
    ∃ injected,
      injected ++ w.shards.remaining = CsvRecord.readDataset digest now dataTotalNum 0 records ∧
      2 * injected.length = 2 * w.txNumCount.normalTxNum.sum + w.txNumCount.relay1TxNum.sum +
        w.txNumCount.relay2TxNum.sum + (w.blockInfos.map BlockInfoMsg.halves).sum +
        w.shards.pendingWeight ∧
      (w.Settled → w.txNumCount.outputRecord.2 = injected.length) := by
  have hw := hrun.invariant (tracked_init hid hnums hnew _) fun _ _ _ hw hmaps hstep =>
    hw.step hS hmaps hstep
  refine ⟨?_, ?_⟩
  · intro b hb
    obtain ⟨t, hupdate, -⟩ := w.txNumCount.updateMeasureRecord_of_complete (hw.reports b hb)
    rw [hupdate]
    simp
  · obtain ⟨injected, hinjected⟩ := hw.remaining
    have hfirst : ∀ t ∈ injected, t.relayed = false := fun t ht =>
      (CsvRecord.fresh_of_mem_readDataset (hinjected ▸ List.mem_append_left _ ht)).1
    have hlaw : 2 * injected.length =
        w.txNumCount.halves + w.reportedHalves + w.shards.pendingWeight := by
      have hhalves := hw.halves
      rw [ShardWorld.weigh_afoot, ← hinjected, countHalves_append, countHalves_first hfirst] at hhalves
      omega
    refine ⟨injected, hinjected, hlaw, ?_⟩
    intro hsettled
    have hpending : w.shards.pendingWeight = 0 := by
      simp [ShardWorld.pendingWeight, hsettled.net, hsettled.custody, weigh]
    have hcount : w.txNumCount.halves = 2 * injected.length := by
      rw [hlaw, hpending, reportedHalves, hsettled.blockInfos]
      rfl
    have htotal := w.txNumCount.total
    rw [← TestTxNumCountRelay.halves, hcount] at htotal
    push_cast at htotal
    exact mul_left_cancel₀ two_ne_zero htotal

section Sample

open ShardWorld BlockChain

set_option maxRecDepth 100000

/-- The recipient of the sample bet. -/
def counterparty : Address := ⟨"00000000000000b".toList, rfl⟩

/-- The first half of a bet is done in the first shard, and its recipient moves there before the second
    half is done. -/
theorem moving_bet_counts_once :
    ∃ w, ReachesUnder clpaStep MapsExist (init twoShards (sampleDataset "5")) w ∧ w.Settled ∧
      (w.shards.leaders 0).cdm.accountTransferRound = 1 ∧ w.txNumCount.outputRecord.2 = 1 := by
  have hrun : ∃ w ∈ runChecked clpaStep (fun w a => decide (w.MapsExist a))
      (init twoShards (sampleDataset "5"))
      (List.map .shards (mapArrives 0 (Finmap.insert counterparty 0 ∅) ++
        migrating 0 1 [] [counterparty] ++ [ShardAct.proposeBlock 0 0, ShardAct.commit 0]) ++
        [.handleBlockInfos 1, .handleBlockInfos 0]),
      w.Settled ∧ w.shards.remaining = [] ∧
        (w.shards.leaders 0).cdm.accountTransferRound = 1 := by decide +kernel
  obtain ⟨w, hw, hsettled, hdone, hround⟩ := hrun
  have hreach := reachesUnder_of_runDecided hw
  obtain ⟨-, injected, hinjected, -, htotal⟩ := repartitioned_txs_counted (by decide)
    (fun _ => by rfl) (fun _ => by rfl) newBlockChain_twoShards hreach
  rw [hdone, List.append_nil] at hinjected
  have hone : injected.length = 1 := by
    rw [hinjected]
    decide +kernel
  refine ⟨w, hreach, hsettled, hround, ?_⟩
  rw [htotal hsettled, hone]
  rfl

end Sample

end MeasuredWorld

end BlockEmulator
