import BlockEmulator.Pbft.Replication
import BlockEmulator.Shard.Cluster

set_option autoImplicit false

/-! # The cluster and the sequential ledger

What node 0 of a shard holds follows from the refinement. The other nodes come to the same state by
another way: they execute a block when they add it, or skip it when its state root is an old one. A
root is old whenever balances come back to what they have been, which transfers do, so followers do
skip blocks. As long as proposals leave the betting book alone, this makes no difference to the
accounts: `Mirrored` says that there is one state for each height, that every node is in the state of
its height, and that every proposal leads any chain in the state below it to the state above it.

Together: when nothing is under way in a cluster that processes ordinary transfers, every node that
has kept up with node 0 of its shard holds the balances of the sequential ledger. -/

namespace BlockEmulator

variable {H : Type} [DecidableEq H] [Hashing H] {S N : ℕ}

/-! ## Chains in the same state -/

namespace BlockChain

theorem SameState.refl (bc : BlockChain H) : SameState bc bc := ⟨rfl, rfl, rfl, rfl, rfl⟩

theorem SameState.symm {l f : BlockChain H} (h : SameState l f) : SameState f l :=
  ⟨h.config.symm, h.block.symm, h.accounts.symm, h.partition.symm, h.book.symm⟩

theorem SameState.of_replica {l f : BlockChain H} (h : f.replica = l.replica) : SameState l f where
  config := (congrArg BlockChain.chainConfig h).symm
  block := (congrArg BlockChain.currentBlock h).symm
  accounts := (congrArg BlockChain.accounts h).symm
  partition := (congrArg BlockChain.partitionMap h).symm
  book := (congrArg BlockChain.g2eBook h).symm

theorem SameState.append {l f : BlockChain H} (h : SameState l f) {b : Block H}
    (hroot : l.triedb.trieNew b.header.stateRoot = f.triedb.trieNew b.header.stateRoot) :
    SameState (l.append b) (f.append b) :=
  ⟨h.config, rfl, hroot, h.partition, h.book⟩

/-- A chain in the state of the proposer before its proposal comes by adding the block to the state of
    the proposer after it, whether it executes the block or skips it. -/
theorem SameState.addBlock {l f l₁ : BlockChain H} (hsame : SameState l f) {b : Block H} {miner : ℤ}
    {now : ℕ} (hgen : l.generateBlock miner now = some (l₁, b)) (hbook : l₁.g2eBook = l.g2eBook) :
    ∃ f', f.addBlock b = some f' ∧ SameState (l₁.append b) f' := by
  have hsame' : SameState { l with txpool := l.packForBlock.2 } f :=
    (sameState_txpool l _).trans hsame
  obtain ⟨rt, hexec, rfl⟩ := generateBlockOf_cases hgen
  obtain ⟨f', hf, hroot', hbook'⟩ := hsame'.getUpdateStatusTrie hexec
  have hl₁ := sameState_of_getUpdateStatusTrie hexec hbook
  have hf' := sameState_of_getUpdateStatusTrie hf (hbook'.trans (hbook.trans hsame.book))
  have hext := (hsame'.extends_iff _).1 (extends_sealBlock _ l.packForBlock.1 miner now rt)
  cases hroot : f.triedb.trieNew rt with
  | none =>
    refine ⟨f'.append _, ?_, (hl₁.symm.trans (hsame'.trans hf')).append hroot'.symm⟩
    rw [addBlock_of_unknown hext hroot]
    exact congrArg (Option.map _) hf
  | some st =>
    refine ⟨f.append _, addBlock_of_known hext hroot, (hl₁.symm.trans hsame').append ?_⟩
    -- executing again could only have kept or committed the root
    show l₁.triedb.trieNew rt = f.triedb.trieNew rt
    rw [← hroot', hroot]
    rcases getUpdateStatusTrie_cases hf with ⟨-, rfl, -⟩ | ⟨-, s, s', bk', -, -, rfl, -⟩
    · exact hroot
    · exact TrieDB.trieNew_commit_of_some hroot s'

end BlockChain

open BlockChain

/-! ## One state for each height -/

/-- Each proposal leads from the state of the height below it to the state of its own height. -/
def Lands (K : ℕ → BlockChain H) (log : List (ℕ × Request H)) : Prop :=
  ∀ h r b, (h + 1, r) ∈ log → r.msg = .block b → ∀ f, SameState (K h) f →
    ∃ f', f.addBlock b = some f' ∧ SameState (K (h + 1)) f'

/-- The chain is in the state of its height, for which a block was proposed. -/
structure Mirrors (K : ℕ → BlockChain H) (log : List (ℕ × Request H)) (bc : BlockChain H) : Prop where
  same : SameState (K bc.height) bc
  reached : bc.height = 0 ∨ ∃ r, (bc.height, r) ∈ log

/-- The states up to the height of the chain are the same under a further proposal. -/
theorem Mirrors.extend {K K' : ℕ → BlockChain H} {log : List (ℕ × Request H)} {bc bc' : BlockChain H}
    (h : Mirrors K log bc) (hsame : SameState bc bc') (hK : K' bc.height = K bc.height)
    (p : ℕ × Request H) : Mirrors K' (p :: log) bc' where
  same := by
    rw [← hsame.height_eq, hK]
    exact h.same.trans hsame
  reached := by
    rw [← hsame.height_eq]
    exact h.reached.imp_right fun ⟨r, hr⟩ => ⟨r, List.mem_cons_of_mem _ hr⟩

theorem keptBy_mirrors {K : ℕ → BlockChain H} {log : List (ℕ × Request H)} (hs : Stacked log)
    (hlands : Lands K log) : KeptBy log (Mirrors K log) where
  congr := fun {bc bc'} h heq => by
    have hheight : bc'.height = bc.height := by rw [← replica_height, heq, replica_height]
    refine ⟨?_, hheight ▸ h.reached⟩
    rw [hheight]
    exact h.same.trans (.of_replica heq)
  addBlock := fun {bc bc' r b} h hr hmsg hadd => by
    rcases addBlock_grows hadd with ⟨-, rfl⟩ | ⟨hext, hgrow, -⟩
    · exact h
    obtain ⟨k, hmem⟩ := hr
    obtain ⟨b', hb', hnum⟩ := hs.block _ hmem
    obtain rfl := RequestMsg.block.inj (hmsg.symm.trans hb')
    obtain rfl : k = bc.height + 1 := hnum.symm.trans hext.1
    obtain ⟨f', hf', hsame⟩ := hlands _ _ _ hmem hmsg bc h.same
    obtain rfl := Option.some.inj (hadd.symm.trans hf')
    have hheight : bc'.height = bc.height + 1 := hgrow.number
    refine ⟨?_, Or.inr ⟨r, ?_⟩⟩
    · rw [hheight]
      exact hsame
    · rw [hheight]
      exact hmem

namespace PbftWorld

/-- All nodes of the shard are in the state of their height. -/
structure Mirrored (K : ℕ → BlockChain H) (w : PbftWorld H N) : Prop where
  lands : Lands K w.proposed
  nodes : ∀ j, Mirrors K w.proposed (w.nodes j).curChain

theorem mirrored_init {cc : ChainConfig} {db : TrieDB H} {bc : BlockChain H}
    (hnew : newBlockChain cc Storage.empty db = some bc) (ht : HandleType) :
    Mirrored (fun _ => bc) (init N ht bc) where
  lands := fun h r b hmem => absurd hmem (by simp [init])
  nodes := fun j => by
    obtain rfl := Option.some.inj hnew
    exact ⟨⟨rfl, rfl, rfl, rfl, rfl⟩, Or.inl rfl⟩

/-- **A step keeps the nodes in the states of their heights** if what it proposes leaves the book
    alone. A proposal fixes the state of a new height. -/
theorem Mirrored.step {K : ℕ → BlockChain H} {w w' : PbftWorld H N} {a : PbftAct N}
    (hw : Mirrored K w) (hsv : SingleView w) (h : w.step a = some w')
    (hbook : ∀ i n r msgs, (w.nodes i).alive = true → w.Acts i a n (some r) msgs →
      n.curChain.g2eBook = (w.nodes i).curChain.g2eBook) : ∃ K', Mirrored K' w' := by
  obtain ⟨i, n, r, msgs, hact, halive, rfl⟩ := step_cases h
  cases r with
  | none =>
    refine ⟨K, hw.lands, (forall_nodes_after (p := fun _ m => Mirrors K w.proposed m.curChain)).2
      ⟨?_, fun j _ => hw.nodes j⟩⟩
    exact Acts.keeps hsv hact (keptBy_mirrors hsv.stacked hw.lands) (hw.nodes i)
  | some r =>
    have hkeeps := hbook i n r msgs halive hact
    cases hact with
    | @propose partition now reqTime bc r hprop hpart hgen =>
      obtain ⟨-, -, hbelow, -⟩ := (hsv.nodes i).idle_of_proposing halive hprop
      obtain ⟨b, rfl, hblock⟩ := (hsv.nodes i).generates_block hpart hgen
      have hown := hw.nodes i
      -- no node is above the proposer
      have htop : ∀ j, w.height j ≤ w.height i := fun j => by
        rcases (hw.nodes j).reached with h0 | ⟨r, hr⟩
        · exact (Nat.le_of_eq h0).trans (Nat.zero_le _)
        · exact hbelow _ hr
      have hold : ∀ k, k ≤ w.height i →
          Function.update K (w.height i + 1) (bc.append b) k = K k := fun k hk =>
        Function.update_of_ne (by omega) ..
      have hstate : SameState (w.nodes i).curChain bc := by
        obtain ⟨rt, hexec, -⟩ := generateBlockOf_cases hblock
        exact (sameState_txpool _ _).symm.trans (sameState_of_getUpdateStatusTrie hexec hkeeps)
      refine ⟨Function.update K (w.height i + 1) (bc.append b), ?_, ?_⟩
      · intro h r' b' hmem hmsg f hf
        rcases List.mem_cons.1 hmem with heq | hmem
        · obtain ⟨hh, rfl⟩ := Prod.mk.inj heq
          obtain rfl : h = w.height i := Nat.succ.inj hh
          obtain rfl := RequestMsg.block.inj hmsg
          rw [hold _ le_rfl] at hf
          rw [Function.update_self]
          exact (hown.same.symm.trans hf).addBlock hblock hkeeps
        · have hle : h + 1 ≤ w.height i := hbelow _ hmem
          rw [hold _ (by omega)] at hf
          rw [hold _ hle]
          exact hw.lands h r' b' hmem hmsg f hf
      · exact (forall_nodes_after (p := fun _ m => Mirrors _ (_ :: w.proposed) m.curChain)).2
          ⟨hown.extend hstate (hold _ le_rfl) _, fun j _ => (hw.nodes j).extend (.refl _)
            (hold _ (htop j)) _⟩

end PbftWorld

/-! ## The balances of the coarse world -/

namespace ShardWorld

theorem inBalance_init {cc : Fin S → ChainConfig} {db : Fin S → TrieDB H}
    {bc : Fin S → BlockChain H} {dataset : List Transaction} (hid : ∀ i, (cc i).shardID = i)
    (hnums : ∀ i, (cc i).shardNums = S)
    (hnew : ∀ i, newBlockChain (cc i) Storage.empty (db i) = some (bc i))
    (hdata : ∀ t ∈ dataset, t.relayed = false ∧ t.Ordinary) :
    InBalance dataset (init bc dataset) := by
  have hqueue : ∀ i, (bc i).txpool.txQueue = [] := fun i => newBlockChain_txQueue (hnew i)
  exact ⟨static_init hid hnums hnew fun t ht => ⟨(hdata t ht).1, (hdata t ht).2.hasBroker⟩,
    everywhere_init hqueue fun t ht => (hdata t ht).2, balanced_init hnew dataset,
    flow_init hqueue fun t ht => (hdata t ht).1⟩

theorem InBalance.balance_eq_ledger {dataset sent : List Transaction} {w : ShardWorld H S}
    (hw : InBalance dataset w) (hq : Quiescent w) (hsent : sent ++ w.remaining = dataset)
    (hdata : ∀ t ∈ dataset, t.relayed = false ∧ t.Ordinary)
    (htotal : totalValue dataset ≤ initBalance) {i : Fin S} {a : Address}
    (ha : addr2Shard S a = i) :
    ∃ st, (w.leaders i).curChain.accounts = some st ∧
      st.balance a = (Ledger.loadFinalResultFromDataset sent).balance a := by
  obtain ⟨st, hst, hbal⟩ := (hw.balanced i).current
  refine ⟨st, hst, ?_⟩
  have hfirst : ∀ t ∈ dataset, t.relayed = false := fun t ht => (hdata t ht).1
  have hvalue : ∀ t ∈ sent, 0 ≤ t.value := fun t ht =>
    (hdata t (hsent ▸ List.mem_append_left _ ht)).2.value
  have htotal' : totalValue sent ≤ initBalance := by
    have hrest : 0 ≤ totalValue w.remaining :=
      totalValue_nonneg fun t ht => (hdata t (hsent ▸ List.mem_append_right _ ht)).2.value
    rw [← hsent, totalValue_append] at htotal
    linarith
  rw [Ledger.balance_loadFinalResultFromDataset hvalue htotal', hbal,
    hw.outflow_eq hq hsent hfirst ha, hw.inflow_eq hq hsent hfirst ha]

end ShardWorld

/-! ## The balances of the cluster -/

namespace Cluster

variable [NeZero N]

/-- No message is in flight between the shards, and every node 0 is up, with an empty pool and no
    proposal under way. Inside a shard messages may be in flight, and other nodes may lag behind. -/
structure Quiescent (c : Cluster H S N) : Prop where
  net : c.net = []
  alive : ∀ i, (c.node0 i).alive = true
  queue : ∀ i, (c.node0 i).curChain.txpool.txQueue = []
  executed : ∀ i, ∀ p ∈ (c.shards i).proposed, p.1 ≤ (c.node0 i).curChain.height

instance (c : Cluster H S N) : Decidable c.Quiescent :=
  decidable_of_iff (c.net.length = 0 ∧ (∀ i, (c.node0 i).alive = true) ∧
      (∀ i, (c.node0 i).curChain.txpool.txQueue = []) ∧
      ∀ i, ∀ p ∈ (c.shards i).proposed, p.1 ≤ (c.node0 i).curChain.height)
    ⟨fun h => ⟨List.eq_nil_of_length_eq_zero h.1, h.2.1, h.2.2.1, h.2.2.2⟩,
      fun h => ⟨by rw [h.net]; rfl, h.alive, h.queue, h.executed⟩⟩

theorem Shows.quiescent {c : Cluster H S N} {w : ShardWorld H S} (h : c.Shows w)
    (hq : c.Quiescent) : w.Quiescent where
  net := h.net.trans hq.net
  held := fun i => by
    have hl := h.leaders i
    have hidle : (w.leaders i).phase = .idle := by
      rcases hl.phase (hq.alive i) with ⟨hidle, -⟩ | ⟨r, b, hmem, -⟩
      · exact hidle
      · exact absurd (hq.executed i _ hmem) (by simp)
    rw [Leader.held, hl.curChain, hq.queue, Leader.proposedBlock, hidle]
    rfl

/-- What holds of the cluster after any number of steps, with the coarse world it shows. -/
structure Kept (dataset : List Transaction) (c : Cluster H S N) (w : ShardWorld H S) : Prop where
  shown : c.Shows w
  inView : c.InView
  inBalance : w.InBalance dataset
  mirrored : ∀ i, ∃ K, (c.shards i).Mirrored K

/-- Node 0 proposes blocks of ordinary transfers, which leave the book alone. -/
theorem Kept.book {dataset : List Transaction} {c : Cluster H S N} {w : ShardWorld H S}
    (hc : Kept dataset c w) {i : Fin S} {a : PbftAct N} {j : Fin N} {n : PbftNode H} {r : Request H}
    {msgs : List (ℕ × PbftMsg H)} (halive : ((c.shards i).nodes j).alive = true)
    (hact : (c.shards i).Acts j a n (some r) msgs) :
    n.curChain.g2eBook = ((c.shards i).nodes j).curChain.g2eBook := by
  have hsv := hc.inView i
  obtain rfl : j = 0 := Fin.ext (PbftWorld.Acts.proposer hsv hact halive)
  have hl := hc.shown.leaders i
  have hbal := hc.inBalance.balanced i
  cases hact with
  | propose hprop hpart hreq =>
    obtain ⟨b, rfl, hgen⟩ := (hsv.nodes 0).generates_block hpart hreq
    rw [(hsv.nodes 0).nodeID] at hgen
    have hnext := hbal.proposeBlock (hc.inBalance.ordinary.leaders i).queue
      (by rw [hl.curChain]; exact hgen)
    exact hnext.book.trans ((congrArg _ hl.curChain).symm.trans hbal.book).symm

theorem Kept.mirrored_step {dataset : List Transaction} {c c' : Cluster H S N} {w : ShardWorld H S}
    (hc : Kept dataset c w) {a : ClusterAct S N} (h : c.step a = some c') :
    ∀ i, ∃ K, (c'.shards i).Mirrored K := by
  have hupdate : ∀ {i b p}, (c.shards i).step b = some p →
      ∀ j, ∃ K, (Function.update c.shards i p j).Mirrored K := by
    intro i b p hp
    refine (Function.forall_update_iff c.shards fun _ q => ∃ K, q.Mirrored K).2
      ⟨?_, fun j _ => hc.mirrored j⟩
    obtain ⟨K, hK⟩ := hc.mirrored i
    exact hK.step (hc.inView i) hp fun _ _ _ _ halive hact => hc.book halive hact
  rcases step_cases h with ⟨count, rfl, rfl⟩ | ⟨k, i, m, rfl, -, h⟩ | ⟨i, b, rfl, -, h⟩
  · exact hc.mirrored
  · obtain ⟨p, hp, rfl⟩ := Option.map_eq_some_iff.1 h
    exact hupdate hp
  · obtain ⟨p, hp, rfl⟩ := Option.map_eq_some_iff.1 h
    intro j
    split <;> exact hupdate hp j

theorem Kept.step {dataset : List Transaction} {c c' : Cluster H S N} {w : ShardWorld H S}
    (hc : Kept dataset c w) (hS : 0 < S) (hdata : ∀ t ∈ dataset, 0 ≤ t.value)
    (htotal : totalValue dataset ≤ initBalance) {a : ClusterAct S N} (hview : c.StaysInView a)
    (h : c.step a = some c') : ∃ w', Kept dataset c' w' := by
  have hview' := hc.inView.step hview h
  have hmirrored := hc.mirrored_step h
  rcases hc.shown.step hc.inView hview h with hsame | ⟨b, w', hstep, hw'⟩
  · exact ⟨w, hsame, hview', hc.inBalance, hmirrored⟩
  · exact ⟨w', hw', hview', hc.inBalance.step hS hdata htotal (ShardWorld.steps_of_step hstep),
      hmirrored⟩

/-- The supervisor sends the dataset from its head on. -/
theorem remaining_suffix {c c' : Cluster H S N} {a : ClusterAct S N} (h : c.step a = some c') :
    c'.remaining <:+ c.remaining := by
  rcases step_cases h with ⟨count, rfl, rfl⟩ | ⟨k, i, m, rfl, -, h⟩ | ⟨i, b, rfl, -, h⟩
  · exact List.drop_suffix count c.remaining
  · obtain ⟨p, -, rfl⟩ := Option.map_eq_some_iff.1 h
    exact List.suffix_rfl
  · obtain ⟨p, -, rfl⟩ := Option.map_eq_some_iff.1 h
    split <;> exact List.suffix_rfl

/-- **A cluster in relay mode refines the sequential ledger.** Whatever the interleaving of the nodes'
    steps and of the messages inside and between the shards: if no view is installed and nothing is
    under way, every node that is as far as node 0 of its shard has for the accounts of the shard the
    balances the sequential ledger computes from the transactions sent so far. -/
theorem cluster_refines_sequential_ledger {cc : Fin S → ChainConfig} {db : Fin S → TrieDB H}
    {bc : Fin S → BlockChain H} {dataset : List Transaction} {c : Cluster H S N}
    (hid : ∀ i, (cc i).shardID = i) (hnums : ∀ i, (cc i).shardNums = S)
    (hnew : ∀ i, newBlockChain (cc i) Storage.empty (db i) = some (bc i))
    (hdata : ∀ t ∈ dataset, t.relayed = false ∧ t.Ordinary)
    (htotal : totalValue dataset ≤ initBalance)
    (hrun : ReachesUnder step StaysInView (init N bc dataset) c) (hq : c.Quiescent) :
    ∃ sent, sent ++ c.remaining = dataset ∧ ∀ (i : Fin S) (a : Address), addr2Shard S a = i →
      ∀ j : Fin N, (c.shards i).height j = (c.shards i).height 0 →
        ∃ st, ((c.shards i).nodes j).curChain.accounts = some st ∧
          st.balance a = (Ledger.loadFinalResultFromDataset sent).balance a := by
  obtain ⟨sent, hsent⟩ : c.remaining <:+ dataset :=
    hrun.invariant (I := fun c => c.remaining <:+ dataset) List.suffix_rfl
      fun _ _ _ hc _ h => (remaining_suffix h).trans hc
  refine ⟨sent, hsent, ?_⟩
  intro i a ha j hj
  obtain ⟨w, hc⟩ : ∃ w, Kept dataset c w := by
    refine hrun.invariant (I := fun c => ∃ w, Kept dataset c w) ⟨ShardWorld.init bc dataset, ?_⟩ ?_
    · exact ⟨shows_init bc dataset, fun i => PbftWorld.singleView_init rfl (bc i),
        ShardWorld.inBalance_init hid hnums hnew hdata,
        fun i => ⟨_, PbftWorld.mirrored_init (hnew i) _⟩⟩
    · rintro c a c' ⟨w, hc⟩ hview h
      exact hc.step i.pos (fun t ht => (hdata t ht).2.value) htotal hview h
  -- node 0 has the balances of the coarse leader, and node `j` those of node 0
  have hsent' : sent ++ w.remaining = dataset := by rw [hc.shown.remaining, hsent]
  obtain ⟨st, hst, hbal⟩ := hc.inBalance.balance_eq_ledger (hc.shown.quiescent hq) hsent' hdata
    htotal ha
  refine ⟨st, ?_, hbal⟩
  obtain ⟨K, hK⟩ := hc.mirrored i
  have hsame : SameState ((c.shards i).nodes 0).curChain ((c.shards i).nodes j).curChain :=
    (hK.nodes 0).same.symm.trans (by
      rw [show ((c.shards i).nodes 0).curChain.height = _ from hj.symm]
      exact (hK.nodes j).same)
  rw [← hsame.accounts, ← hst, (hc.shown.leaders i).curChain]
  rfl

section Sample

set_option maxRecDepth 100000

/-- Two shards of four nodes have exchanged payments; nodes 0, 1 and 2 of each have kept up. -/
theorem exchange_agrees_in_cluster :
    ∃ c, ReachesUnder step StaysInView (init 4 ShardWorld.twoShards ShardWorld.exchange) c ∧
      c.Quiescent ∧ ∃ sent, sent ++ c.remaining = ShardWorld.exchange ∧ c.remaining = [] ∧
        (∃ st, ((c.shards 0).nodes 2).curChain.accounts = some st ∧
          st.balance alice = (Ledger.loadFinalResultFromDataset sent).balance alice) ∧
        ∃ st, ((c.shards 1).nodes 1).curChain.accounts = some st ∧
          st.balance bob = (Ledger.loadFinalResultFromDataset sent).balance bob := by
  have hrun : ∃ c ∈ runChecked step (fun c a => decide (c.StaysInView a))
      (init 4 ShardWorld.twoShards ShardWorld.exchange) (exchanging 0 1 0),
      c.Quiescent ∧ c.remaining = [] ∧ (c.shards 0).height 2 = (c.shards 0).height 0 ∧
        (c.shards 1).height 1 = (c.shards 1).height 0 := by decide +kernel
  obtain ⟨c, hc, hq, hdone, h2, h1⟩ := hrun
  have hreach := reachesUnder_of_runDecided hc
  have hdata : ∀ t ∈ ShardWorld.exchange, t.relayed = false ∧ t.Ordinary := by
    intro t ht
    rcases List.mem_pair.1 ht with rfl | rfl <;> exact ⟨rfl, rfl, rfl, by decide⟩
  obtain ⟨sent, hsent, hbal⟩ := cluster_refines_sequential_ledger (fun _ => by rfl)
    (fun _ => by rfl) ShardWorld.newBlockChain_twoShards hdata (by decide) hreach hq
  exact ⟨c, hreach, hq, sent, hsent, hdone, hbal 0 alice rfl 2 h2, hbal 1 bob rfl 1 h1⟩

end Sample

end Cluster

end BlockEmulator
