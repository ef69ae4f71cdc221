import BlockEmulator.Shard.Ledger
import BlockEmulator.Supervisor.BrokerModule
import BlockEmulator.Supervisor.RelayCommittee
import Mathlib.Algebra.BigOperators.Fin
import Mathlib.Algebra.Order.Field.Rat

set_option autoImplicit false

/-! # Counting transactions in relay mode

After every commit of the raw relay module the main node reports the transactions of the block to the
supervisor, and `TestTxNumCount_Relay` (`supervisor/measure/measure_TxNumCount_Relay.go`) adds up the
reports: a transaction inside a shard counts once, each half of a transaction between shards counts
one half. The reports travel like all messages and arrive in any order.

In halves, a transaction weighs two until its first half is done and one from then on. A commit takes
the weight of its block off what is under way, puts the second halves back and reports the difference
(`StaticLeader.halves_relayBlockInfo`); a delivered report moves its weight into the count. So the sum
of the three is what the supervisor has injected, in every state of every run. -/

namespace BlockEmulator

variable {H : Type} [DecidableEq H] [Hashing H] {S : ℕ}

/-! ## The measurement -/

/-- `TestTxNumCount_Relay`; the `float64` totals are sums of halves. -/
structure TestTxNumCountRelay where
  epochID : ℤ
  txNum : List ℚ
  normalTxNum : List ℕ
  relay1TxNum : List ℕ
  relay2TxNum : List ℕ
  /-- There is one entry for each epoch up to the last one. -/
  sizes : ∀ n ∈ [txNum.length, normalTxNum.length, relay1TxNum.length, relay2TxNum.length],
    (n : ℤ) = epochID + 1
  /-- The totals count normal transactions once and relayed ones by halves. -/
  total : 2 * txNum.sum = (2 * normalTxNum.sum + relay1TxNum.sum + relay2TxNum.sum : ℕ)

namespace TestTxNumCountRelay

/-- `NewTestTxNumCount_Relay`. -/
def new : TestTxNumCountRelay where
  epochID := -1
  txNum := []
  normalTxNum := []
  relay1TxNum := []
  relay2TxNum := []
  sizes := by simp
  total := by simp

/-- One turn of the loop that extends the lists. -/
def extend (t : TestTxNumCountRelay) : TestTxNumCountRelay where
  epochID := t.epochID + 1
  txNum := t.txNum ++ [0]
  normalTxNum := t.normalTxNum ++ [0]
  relay1TxNum := t.relay1TxNum ++ [0]
  relay2TxNum := t.relay2TxNum ++ [0]
  sizes := by simpa using t.sizes
  total := by simpa using t.total

/-- The loop itself, for `k` turns. -/
def extendBy (t : TestTxNumCountRelay) : ℕ → TestTxNumCountRelay
  | 0 => t
  | k + 1 => t.extend.extendBy k

theorem extendBy_epochID (t : TestTxNumCountRelay) (k : ℕ) :
    (t.extendBy k).epochID = t.epochID + k := by
  induction k generalizing t with
  | zero => simp [extendBy]
  | succ k ih =>
    rw [extendBy, ih, extend]
    push_cast
    ring

theorem length_eq (t : TestTxNumCountRelay) :
    (t.txNum.length : ℤ) = t.epochID + 1 ∧ (t.normalTxNum.length : ℤ) = t.epochID + 1 ∧
      (t.relay1TxNum.length : ℤ) = t.epochID + 1 ∧ (t.relay2TxNum.length : ℤ) = t.epochID + 1 := by
  simpa using t.sizes

/-- The four additions to the entries of epoch `e`. -/
def add (t : TestTxNumCountRelay) (e inner r1 r2 : ℕ) (he : (e : ℤ) ≤ t.epochID) :
    TestTxNumCountRelay where
  epochID := t.epochID
  txNum := t.txNum.modify e (· + (inner + (r1 + r2) / 2))
  normalTxNum := t.normalTxNum.modify e (· + inner)
  relay1TxNum := t.relay1TxNum.modify e (· + r1)
  relay2TxNum := t.relay2TxNum.modify e (· + r2)
  sizes := by simpa using t.sizes
  total := by
    obtain ⟨h₀, h₁, h₂, h₃⟩ := t.length_eq
    rw [sum_modify_add (by omega), sum_modify_add (by omega), sum_modify_add (by omega),
      sum_modify_add (by omega), mul_add, t.total]
    push_cast
    ring

/-- `UpdateMeasureRecord`; `none` is an index out of range. -/
def updateMeasureRecord (t : TestTxNumCountRelay) (b : BlockInfoMsg) :
    Option TestTxNumCountRelay :=
  if b.blockBodyLength = 0 then some t
  else
    let t' := t.extendBy (b.epoch - t.epochID).toNat
    if h : 0 ≤ b.epoch then
      some (t'.add b.epoch.toNat b.innerShardTxs.length b.relay1Txs.length b.relay2Txs.length (by
        rw [extendBy_epochID]
        omega))
    else none

/-- `OutputRecord`: the totals of the epochs, and their sum. -/
def outputRecord (t : TestTxNumCountRelay) : List ℚ × ℚ := (t.txNum, t.txNum.sum)

/-- What has been counted, in halves. -/
def halves (t : TestTxNumCountRelay) : ℕ :=
  2 * t.normalTxNum.sum + t.relay1TxNum.sum + t.relay2TxNum.sum

theorem halves_extendBy (t : TestTxNumCountRelay) (k : ℕ) : (t.extendBy k).halves = t.halves := by
  induction k generalizing t with
  | zero => rfl
  | succ k ih =>
    rw [extendBy, ih]
    simp [halves, extend]

theorem halves_add (t : TestTxNumCountRelay) {e inner r1 r2 : ℕ} (he : (e : ℤ) ≤ t.epochID) :
    (t.add e inner r1 r2 he).halves = t.halves + (2 * inner + r1 + r2) := by
  obtain ⟨-, h₁, h₂, h₃⟩ := t.length_eq
  rw [halves, add, sum_modify_add (by omega), sum_modify_add (by omega), sum_modify_add (by omega),
    halves]
  ring

end TestTxNumCountRelay

/-- What a report counts, in halves. -/
def BlockInfoMsg.halves (b : BlockInfoMsg) : ℕ :=
  2 * b.innerShardTxs.length + b.relay1Txs.length + b.relay2Txs.length

/-- The report is about the transactions of a block, in epoch zero. -/
structure BlockInfoMsg.OfRelay (b : BlockInfoMsg) : Prop where
  epoch : b.epoch = 0
  length : b.blockBodyLength =
    b.innerShardTxs.length + b.relay1Txs.length + b.relay2Txs.length

/-- A report moves its weight into the count. -/
theorem TestTxNumCountRelay.updateMeasureRecord_of_relay (t : TestTxNumCountRelay)
    {b : BlockInfoMsg} (hb : b.OfRelay) :
    ∃ t', t.updateMeasureRecord b = some t' ∧ t'.halves = t.halves + b.halves := by
  unfold updateMeasureRecord
  split
  · next hempty =>
    refine ⟨t, rfl, ?_⟩
    have hlength := hb.length
    rw [BlockInfoMsg.halves]
    omega
  · have hepoch : 0 ≤ b.epoch := hb.epoch.ge
    simp only [dif_pos hepoch]
    refine ⟨_, rfl, ?_⟩
    rw [halves_add, halves_extendBy, BlockInfoMsg.halves]

/-! ## Weights in halves -/

/-- What is left of a transaction, in halves. -/
def Transaction.halves (t : Transaction) : ℕ := if t.relayed then 1 else 2

def countHalves (txs : List Transaction) : ℕ := (txs.map Transaction.halves).sum

theorem countHalves_append (txs txs' : List Transaction) :
    countHalves (txs ++ txs') = countHalves txs + countHalves txs' := by
  simp [countHalves]

theorem countHalves_flatMap {α : Type} (f : α → List Transaction) (l : List α) :
    countHalves (l.flatMap f) = (l.map fun x => countHalves (f x)).sum := by
  induction l with
  | nil => rfl
  | cons x l ih => rw [List.flatMap_cons, countHalves_append, ih, List.map_cons, List.sum_cons]

theorem countHalves_eq_of_count {txs txs' : List Transaction} (h : ∀ t, txs.count t = txs'.count t) :
    countHalves txs = countHalves txs' :=
  ((List.perm_iff_count.2 h).map _).sum_eq

theorem countHalves_first {txs : List Transaction} (h : ∀ t ∈ txs, t.relayed = false) :
    countHalves txs = 2 * txs.length := by
  have hmap : txs.map Transaction.halves = txs.map fun _ => 2 :=
    List.map_congr_left fun t ht => by simp [Transaction.halves, h t ht]
  rw [countHalves, hmap, List.map_const', List.sum_replicate]
  ring

/-! ## Reports -/

/-- The report of the raw relay module on a block. -/
def Leader.relayBlockInfo (n : Leader H) (b : Block H) : BlockInfoMsg where
  blockBodyLength := b.body.length
  innerShardTxs := b.body.filter fun tx =>
    n.curChain.getPartitionMap tx.recipient = n.shardID ∧ tx.relayed = false
  epoch := 0
  relay1Txs := n.curChain.relayedTxs b.body
  relay2Txs := b.body.filter fun tx =>
    n.curChain.getPartitionMap tx.recipient = n.shardID ∧ tx.relayed = true
  senderShardID := n.shardID

/-- Every transaction of the block is in one of the three lists. -/
theorem Leader.relayBlockInfo_ofRelay (n : Leader H) (b : Block H) :
    (n.relayBlockInfo b).OfRelay where
  epoch := rfl
  length := by
    simp only [relayBlockInfo, BlockChain.relayedTxs, List.length_map]
    induction b.body with
    | nil => rfl
    | cons tx body ih =>
      have hid : n.curChain.chainConfig.shardID = n.shardID := rfl
      rw [hid] at ih ⊢
      by_cases hr : n.curChain.getPartitionMap tx.recipient = n.shardID <;>
        cases hrel : tx.relayed <;> simp [hr, hrel] at ih ⊢ <;> omega

/-- **What a block reports is what its commit takes off.** -/
theorem StaticLeader.halves_relayBlockInfo {i : ℕ} {n : Leader H} (hn : StaticLeader S i n)
    {b : Block H} (hhome : ∀ t ∈ b.body, AtHome S i t) :
    (n.relayBlockInfo b).halves + countHalves (n.curChain.relayedTxs b.body) = countHalves b.body := by
  have hsecond : countHalves (n.curChain.relayedTxs b.body) =
      (n.curChain.relayedTxs b.body).length := by
    have hmap : (n.curChain.relayedTxs b.body).map Transaction.halves =
        (n.curChain.relayedTxs b.body).map fun _ => 1 :=
      List.map_congr_left fun t ht => by
        obtain ⟨tx, -, rfl⟩ := List.mem_map.1 ht
        rfl
    rw [countHalves, hmap]
    simp
  rw [hsecond]
  simp only [BlockInfoMsg.halves, Leader.relayBlockInfo, BlockChain.relayedTxs, List.length_map]
  generalize b.body = body at hhome ⊢
  induction body with
  | nil => rfl
  | cons tx body ih =>
    obtain ⟨hhead, hrest⟩ := List.forall_mem_cons.1 hhome
    have hbody := ih hrest
    have hid : n.curChain.chainConfig.shardID = n.shardID := rfl
    rw [hid] at hbody ⊢
    simp only [countHalves, List.map_cons, List.sum_cons, Transaction.halves] at hbody ⊢
    by_cases hr : n.curChain.getPartitionMap tx.recipient = n.shardID
    · cases hrel : tx.relayed <;> simp [hr, hrel] at hbody ⊢ <;> omega
    · -- a transaction that leaves the shard is on its first half
      have hrel : tx.relayed = false := by
        by_contra hrel
        rw [AtHome, if_pos (by simpa using hrel)] at hhead
        rw [hn.getPartitionMap, hhead, hn.shardID] at hr
        exact hr rfl
      simp [hr, hrel] at hbody ⊢
      omega

namespace ShardWorld

/-- The transactions under way, as one list. -/
def underway (w : ShardWorld H S) : List Transaction :=
  w.remaining ++ w.net.flatMap (fun p => p.2.txs) ++
    (List.finRange S).flatMap fun i => (w.leaders i).held

theorem count_underway (w : ShardWorld H S) (t : Transaction) : w.underway.count t = w.pending t := by
  rw [underway, pending, List.count_append, List.count_append, List.count_flatMap,
    List.count_flatMap, Fin.sum_univ_def]
  rfl

/-- What is pending in messages, pools and proposed blocks, in halves. -/
def pendingHalves (w : ShardWorld H S) : ℕ :=
  (w.net.map fun p => countHalves p.2.txs).sum + ∑ i, countHalves (w.leaders i).held

theorem countHalves_underway (w : ShardWorld H S) :
    countHalves w.underway = countHalves w.remaining + w.pendingHalves := by
  rw [underway, pendingHalves, countHalves_append, countHalves_append, countHalves_flatMap,
    countHalves_flatMap, Fin.sum_univ_def, Nat.add_assoc]

/-- What the main nodes report when the step from `w` to `w'` is taken: a commit that the process
    survives is reported. -/
def reports (w : ShardWorld H S) (w' : ShardWorld H S) : ShardAct S → List BlockInfoMsg
  | .commit i =>
    match (w.leaders i).proposedBlock with
    | some b => if (w'.leaders i).alive then [(w.leaders i).relayBlockInfo b] else []
    | none => []
  | _ => []

/-- **One step in halves.** What it reports is what is no longer under way. -/
theorem Static.halves_step {w w' : ShardWorld H S} {a : ShardAct S} (hw : Static w) (hS : 0 < S)
    (h : w.Steps .relay a w') :
    ((w.reports w' a).map BlockInfoMsg.halves).sum + countHalves w'.underway =
      countHalves w.underway := by
  have hsame : (∀ i, a ≠ .commit i) → countHalves w'.underway = countHalves w.underway := by
    intro hcommit
    cases hw.ledgerStep hS (hw.staticStep h) with
    | same _ hpend =>
      refine countHalves_eq_of_count ?_
      intro t
      rw [count_underway, count_underway, hpend]
    | commit i b ha => exact absurd ha (hcommit i)
  cases h with
  | commitBlock halive hphase =>
    next i b =>
    have hb := Leader.mem_proposedBlock.2 hphase
    have hhome := (hw.atHome.leaders i).proposed b hphase
    obtain ⟨pool, hqueue, hcommit⟩ := (hw.leaders i).commitBlock hb hhome
    have hreports : w.reports (w.commitBlock i b) (.commit i) =
        [(w.leaders i).relayBlockInfo b] := by
      have hlive : ((w.commitBlock i b).leaders i).alive = true := by
        show (Function.update w.leaders i ((w.leaders i).commitBlock b).1 i).alive = true
        rw [Function.update_self, hcommit]
        exact halive
      simp only [reports, Option.mem_def.1 hb, hlive, if_true]
    have hpend : countHalves (w.commitBlock i b).underway + countHalves b.body =
        countHalves w.underway + countHalves ((w.leaders i).curChain.relayedTxs b.body) := by
      rw [← countHalves_append, ← countHalves_append]
      refine countHalves_eq_of_count ?_
      intro t
      rw [List.count_append, List.count_append, count_underway, count_underway,
        ← hw.pending_commitBlock hS hb hqueue t, commitBlock, hcommit]
      rfl
    have hreport := (hw.leaders i).halves_relayBlockInfo hhome
    rw [hreports]
    simp only [List.map_cons, List.map_nil, List.sum_cons, List.sum_nil]
    omega
  | commitPartition hphase => exact absurd hphase ((hw.leaders _).not_partition _)
  | _ =>
    rw [hsame (by simp)]
    simp [reports]

theorem ofRelay_of_mem_reports {w w' : ShardWorld H S} {a : ShardAct S} {b : BlockInfoMsg}
    (h : b ∈ w.reports w' a) : b.OfRelay := by
  unfold reports at h
  split at h
  · split at h
    · split at h
      · rw [List.mem_singleton] at h
        exact h ▸ Leader.relayBlockInfo_ofRelay _ _
      · exact absurd h (by simp)
    · exact absurd h (by simp)
  · exact absurd h (by simp)

end ShardWorld

/-! ## The shards and the measurement -/

/-- The shards in relay mode, the reports in flight and the supervisor's count. -/
structure MeasuredWorld (H : Type) [DecidableEq H] [Hashing H] (S : ℕ) where
  shards : ShardWorld H S
  blockInfos : List BlockInfoMsg
  txNumCount : TestTxNumCountRelay

inductive MeasuredAct (S : ℕ) where
  | shards (a : ShardAct S)
  | handleBlockInfos (k : ℕ)

namespace MeasuredWorld

def init (bc : Fin S → BlockChain H) (dataset : List Transaction) : MeasuredWorld H S where
  shards := .init bc dataset
  blockInfos := []
  txNumCount := .new

/-- A step of the shards, or the delivery of a report. -/
def step (w : MeasuredWorld H S) : MeasuredAct S → Option (MeasuredWorld H S)
  | .shards a =>
    (w.shards.step .relay a).map fun s =>
      { w with shards := s, blockInfos := w.blockInfos ++ w.shards.reports s a }
  | .handleBlockInfos k =>
    w.blockInfos[k]?.bind fun b =>
      (w.txNumCount.updateMeasureRecord b).map fun t =>
        { w with blockInfos := w.blockInfos.eraseIdx k, txNumCount := t }

/-- The weight of the reports in flight. -/
def reportedHalves (w : MeasuredWorld H S) : ℕ := (w.blockInfos.map BlockInfoMsg.halves).sum

/-- The dataset is with the supervisor, under way, reported or counted. -/
structure Counted (dataset : List Transaction) (w : MeasuredWorld H S) : Prop where
  static : w.shards.Static
  remaining : w.shards.remaining <:+ dataset
  reports : ∀ b ∈ w.blockInfos, b.OfRelay
  halves : w.txNumCount.halves + w.reportedHalves + countHalves w.shards.underway = countHalves dataset

theorem Counted.step {dataset : List Transaction} {w w' : MeasuredWorld H S} {a : MeasuredAct S}
    (hw : Counted dataset w) (hS : 0 < S) (h : w.step a = some w') : Counted dataset w' := by
  have hhalves := hw.halves
  cases a with
  | shards a =>
    obtain ⟨s, hstep, rfl⟩ := Option.map_eq_some_iff.1 h
    have hsteps := ShardWorld.steps_of_step hstep
    refine ⟨hw.static.step hsteps, hsteps.remaining_suffix.trans hw.remaining, ?_, ?_⟩
    · intro b hb
      exact (List.mem_append.1 hb).elim (hw.reports b) ShardWorld.ofRelay_of_mem_reports
    · have hmoved := hw.static.halves_step hS hsteps
      simp only [reportedHalves, List.map_append, List.sum_append] at hhalves ⊢
      omega
  | handleBlockInfos k =>
    obtain ⟨b, hb, h⟩ := Option.bind_eq_some_iff.1 h
    obtain ⟨t, hupdate, rfl⟩ := Option.map_eq_some_iff.1 h
    obtain ⟨t', hupdate', hcount⟩ :=
      w.txNumCount.updateMeasureRecord_of_relay (hw.reports b (List.mem_of_getElem? hb))
    obtain rfl := Option.some.inj (hupdate'.symm.trans hupdate)
    refine ⟨hw.static, hw.remaining, fun b' hb' => hw.reports b' (List.mem_of_mem_eraseIdx hb'), ?_⟩
    have hrest : w.blockInfos.Perm (b :: w.blockInfos.eraseIdx k) := by
      obtain ⟨hk, rfl⟩ := List.getElem?_eq_some_iff.1 hb
      exact (List.getElem_cons_eraseIdx_perm hk).symm
    have hsum := (hrest.map BlockInfoMsg.halves).sum_eq
    simp only [reportedHalves, List.map_cons, List.sum_cons] at hhalves hsum ⊢
    omega

theorem counted_init {cc : Fin S → ChainConfig} {db : Fin S → TrieDB H} {bc : Fin S → BlockChain H}
    {dataset : List Transaction} (hid : ∀ i, (cc i).shardID = i) (hnums : ∀ i, (cc i).shardNums = S)
    (hnew : ∀ i, BlockChain.newBlockChain (cc i) Storage.empty (db i) = some (bc i))
    (hfresh : ∀ t ∈ dataset, t.Fresh) : Counted dataset (init bc dataset) := by
  refine ⟨ShardWorld.static_init hid hnums hnew hfresh, List.suffix_rfl, by simp [init], ?_⟩
  have hqueue : ∀ i, (bc i).txpool.txQueue = [] := fun i =>
    BlockChain.newBlockChain_txQueue (hnew i)
  have hempty : ∑ i, countHalves (Leader.new (bc i)).held = 0 := Finset.sum_eq_zero fun i _ => by
    simp [Leader.held, Leader.new, Leader.proposedBlock, hqueue, countHalves]
  rw [ShardWorld.countHalves_underway]
  simp [init, ShardWorld.init, ShardWorld.pendingHalves, hempty, reportedHalves,
    TestTxNumCountRelay.halves, TestTxNumCountRelay.new]

/-- What has left the supervisor is counted, reported or pending. -/
theorem Counted.injected {dataset : List Transaction} {w : MeasuredWorld H S}
    (hw : Counted dataset w) (hfresh : ∀ t ∈ dataset, t.Fresh) :
    ∃ injected, injected ++ w.shards.remaining = dataset ∧
      2 * injected.length = w.txNumCount.halves + w.reportedHalves + w.shards.pendingHalves := by
  obtain ⟨injected, rfl⟩ := hw.remaining
  refine ⟨injected, rfl, ?_⟩
  have hfirst : ∀ t ∈ injected, t.relayed = false := fun t ht =>
    (hfresh t (List.mem_append_left _ ht)).1
  have hhalves := hw.halves
  rw [ShardWorld.countHalves_underway, countHalves_append, countHalves_first hfirst] at hhalves
  omega

/-- Every report is delivered, and no message, pool or proposed block holds a transaction. -/
structure Drained (w : MeasuredWorld H S) : Prop where
  blockInfos : w.blockInfos = []
  net : ∀ p ∈ w.shards.net, p.2.txs = []
  held : ∀ i, (w.shards.leaders i).held = []

instance (w : MeasuredWorld H S) : Decidable w.Drained :=
  decidable_of_iff (w.blockInfos.length = 0 ∧ (∀ p ∈ w.shards.net, p.2.txs = []) ∧
    ∀ i, (w.shards.leaders i).held = [])
    ⟨fun h => ⟨List.eq_nil_of_length_eq_zero h.1, h.2.1, h.2.2⟩,
      fun h => ⟨by rw [h.blockInfos]; rfl, h.net, h.held⟩⟩

theorem Drained.pendingHalves {w : MeasuredWorld H S} (hw : Drained w) :
    w.shards.pendingHalves = 0 := by
  have hnet : w.shards.net.map (fun p => countHalves p.2.txs) = w.shards.net.map fun _ => 0 :=
    List.map_congr_left fun p hp => by rw [hw.net p hp]; rfl
  have hheld : ∑ i, countHalves (w.shards.leaders i).held = 0 :=
    Finset.sum_eq_zero fun i _ => by rw [hw.held i]; rfl
  rw [ShardWorld.pendingHalves, hnet, hheld]
  simp

/-- **Counted transactions match injected transactions.** In every state of every run of relay mode,
    twice the number of injected transactions is twice the normal count and the relay counts, over all
    epochs, and the same weights in the reports in flight, and two for every pending transaction that
    is not relayed and one for every relayed one. Every report can be handled; when all has drained,
    the total that is put out is the number of injected transactions. -/
theorem counted_txs_match_injected {cc : Fin S → ChainConfig} {db : Fin S → TrieDB H}
    {bc : Fin S → BlockChain H} {digest : TxDigest} {now : ℕ → ℕ} {dataTotalNum : ℕ}
    {records : List CsvRecord} {w : MeasuredWorld H S} (hS : 0 < S)
    (hid : ∀ i, (cc i).shardID = i) (hnums : ∀ i, (cc i).shardNums = S)
    (hnew : ∀ i, BlockChain.newBlockChain (cc i) Storage.empty (db i) = some (bc i))
    (hrun : Reaches step (init bc (CsvRecord.readDataset digest now dataTotalNum 0 records)) w) :
    (∀ b ∈ w.blockInfos, w.txNumCount.updateMeasureRecord b ≠ none) ∧
    ∃ injected,
      injected ++ w.shards.remaining = CsvRecord.readDataset digest now dataTotalNum 0 records ∧
      2 * injected.length = 2 * w.txNumCount.normalTxNum.sum + w.txNumCount.relay1TxNum.sum +
        w.txNumCount.relay2TxNum.sum + (w.blockInfos.map BlockInfoMsg.halves).sum +
        w.shards.pendingHalves ∧
      (w.Drained → w.txNumCount.outputRecord.2 = injected.length) := by
  have hfresh : ∀ t ∈ CsvRecord.readDataset digest now dataTotalNum 0 records, t.Fresh :=
    fun t ht => CsvRecord.fresh_of_mem_readDataset ht
  have hw := hrun.invariant (counted_init hid hnums hnew hfresh) fun _ _ _ hw _ hstep =>
    hw.step hS hstep
  refine ⟨?_, ?_⟩
  · intro b hb
    obtain ⟨t, hupdate, -⟩ := w.txNumCount.updateMeasureRecord_of_relay (hw.reports b hb)
    rw [hupdate]
    simp
  · obtain ⟨injected, hinjected, hlaw⟩ := hw.injected hfresh
    refine ⟨injected, hinjected, hlaw, ?_⟩
    intro hdrained
    have htotal := w.txNumCount.total
    have hcount : w.txNumCount.halves = 2 * injected.length := by
      rw [hlaw, hdrained.pendingHalves, reportedHalves, hdrained.blockInfos]
      rfl
    rw [← TestTxNumCountRelay.halves, hcount] at htotal
    push_cast at htotal
    exact mul_left_cancel₀ two_ne_zero htotal

section Sample

open ShardWorld

set_option maxRecDepth 100000

/-- One bet between two shards; the report on its second half arrives first. -/
theorem crossing_bet_counts_once :
    ∃ w, Reaches step (init twoShards (sampleDataset "5")) w ∧ w.Drained ∧
      w.txNumCount.outputRecord.2 = 1 := by
  have hrun : ∃ w ∈ runActions step (init twoShards (sampleDataset "5"))
      (crossing.map .shards ++ [.handleBlockInfos 1, .handleBlockInfos 0]),
      w.Drained ∧ w.shards.remaining = [] := by decide +kernel
  obtain ⟨w, hw, hdrained, hdone⟩ := hrun
  have hreach := reaches_of_runActions hw
  obtain ⟨-, injected, hinjected, -, htotal⟩ := counted_txs_match_injected (by decide)
    (fun _ => by rfl) (fun _ => by rfl) newBlockChain_twoShards hreach
  rw [hdone, List.append_nil] at hinjected
  have hone : injected.length = 1 := by
    rw [hinjected]
    decide +kernel
  refine ⟨w, hreach, hdrained, ?_⟩
  rw [htotal hdrained, hone]
  rfl

end Sample

end MeasuredWorld

end BlockEmulator
