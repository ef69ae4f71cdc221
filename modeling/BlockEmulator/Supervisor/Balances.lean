import BlockEmulator.Chain.Solvency
import BlockEmulator.Supervisor.RelayCommittee

set_option autoImplicit false

/-! # Balances in relay mode and in one shard

The reader of the dataset takes any text that `big.Float` reads for an amount, and nothing after it
asks for the sign: a sender can always pay a negative amount, and the recipient of the relayed half is
credited with it whatever they hold (`ShardWorld.negative_amount_overdraws`). If no legal record has
such an amount, every transaction anywhere in the system is of a non-negative value, no execution makes
a balance negative, and neither does a settlement. -/

namespace BlockEmulator

variable {H : Type} [DecidableEq H] [Hashing H] {S : ℕ}

/-! ## Amounts of records -/

namespace CsvRecord

/-- The amount has no minus sign, or what it writes is cut down to zero. -/
def NonNegAmount (data : CsvRecord) : Prop :=
  ∀ amount ∈ data[5]?, amount.head? = some '-' →
    ∀ val ∈ BigFloat.setString amount, val.magnitude = 0

instance (data : CsvRecord) : Decidable data.NonNegAmount :=
  inferInstanceAs (Decidable (∀ amount ∈ data[5]?, _ = some _ →
    ∀ val ∈ BigFloat.setString amount, _ = 0))

/-- The transaction of a record has a negative value exactly if the amount is negative. -/
theorem value_nonneg_iff {now : ℕ} {data : CsvRecord} {nonce : ℕ} {tx : TextTx}
    (h : data.data2tx now nonce = some (some tx)) : 0 ≤ tx.value ↔ data.NonNegAmount := by
  obtain ⟨-, amount, hamount, val, hval, hvalue⟩ := data2tx_spec h
  have hsign := BigFloat.setString_neg hval
  rw [hvalue, BigFloat.int_nonneg_iff, hsign, decide_eq_false_iff_not, ← imp_iff_not_or]
  constructor
  · intro hzero amount' hamount' hminus val' hval'
    obtain rfl := Option.some.inj (hamount.symm.trans hamount')
    obtain rfl := Option.some.inj (hval.symm.trans hval')
    exact hzero hminus
  · intro hcond hminus
    exact hcond amount hamount hminus val hval

theorem value_nonneg_of_mem_readDataset {digest : TxDigest} {now : ℕ → ℕ} {dataTotalNum n : ℕ}
    {records : List CsvRecord}
    (hcond : ∀ data ∈ records, data.isLegal = some true → data.NonNegAmount) {tx : Transaction}
    (h : tx ∈ readDataset digest now dataTotalNum n records) : 0 ≤ tx.value := by
  obtain ⟨data, hdata, nonce, t, hread, hplaced⟩ := of_mem_readDataset h
  obtain ⟨hlegal, -⟩ := data2tx_spec hread
  rw [(TextTx.toTransaction_spec hplaced).1]
  exact (value_nonneg_iff hread).2 (hcond data hdata hlegal)

end CsvRecord

/-! ## One leader -/

/-- The leader in relay mode: neither its accounts nor those of the block it has proposed have a
    negative balance. -/
structure Leader.Solvent (n : Leader H) : Prop where
  chain : n.curChain.Solvent
  proposed : ∀ b ∈ n.proposedBlock, NonNegRoot b.header.stateRoot
  phase : n.phase = .idle ∨ ∃ b, n.phase = .proposed (.block b)

namespace Leader.Solvent

variable {n : Leader H}

/-- The pool is no part of the invariant. -/
theorem congr_pool (hn : n.Solvent) {n' : Leader H} (pool : TxPool)
    (hchain : n'.curChain = { n.curChain with txpool := pool }) (hphase : n'.phase = n.phase) :
    n'.Solvent where
  chain := by
    rw [hchain]
    exact ⟨hn.chain.root, hn.chain.book⟩
  proposed := by
    rw [Leader.proposedBlock, hphase]
    exact hn.proposed
  phase := hphase ▸ hn.phase

theorem handleMessage (hn : n.Solvent) (m : ShardMsg) :
    (n.handleMessageOutsidePBFT .relay m).Solvent := by
  obtain ⟨pool, hchain, hphase⟩ := n.handleMessage_relay m
  exact hn.congr_pool pool hchain hphase

theorem proposeBlock (hn : n.Solvent) (hqueue : ∀ t ∈ n.curChain.txpool.txQueue, 0 ≤ t.value)
    {now : ℕ} {bc : BlockChain H} {b : Block H}
    (h : n.curChain.generateBlock 0 now = some (bc, b)) :
    Leader.Solvent { n with curChain := bc, phase := .proposed (.block b) } := by
  have htxs : ∀ t ∈ n.curChain.packForBlock.1, 0 ≤ t.value := fun t ht => by
    obtain ⟨k, hk⟩ := BlockChain.packForBlock_eq n.curChain
    rw [hk] at ht
    exact hqueue t (List.mem_of_mem_take ht)
  have hpacked : { n.curChain with txpool := n.curChain.packForBlock.2 }.Solvent :=
    ⟨hn.chain.root, hn.chain.book⟩
  obtain ⟨hroot, hbc⟩ := hpacked.generateBlockOf htxs h
  refine ⟨hbc, ?_, Or.inr ⟨b, rfl⟩⟩
  intro b' hb'
  obtain rfl := Option.some.inj hb'
  exact hroot

theorem commitBlock (hn : n.Solvent) {b : Block H} (hb : b ∈ n.proposedBlock)
    (hbody : ∀ t ∈ b.body, 0 ≤ t.value) : (n.commitBlock b).1.Solvent := by
  unfold Leader.commitBlock
  split
  · exact hn.congr_pool _ rfl rfl
  next bc hadd =>
  have hbc := hn.chain.addBlock (hn.proposed b hb) hbody hadd
  split
  · exact ⟨hbc, hn.proposed, hn.phase⟩
  · next pool _ =>
    refine ⟨⟨hbc.root, hbc.book⟩, fun b' hb' => absurd hb' ?_, Or.inl rfl⟩
    simp [Leader.proposedBlock, Leader.nextRound]

end Leader.Solvent

/-! ## Whole runs -/

namespace ShardWorld

/-- No balance is negative in any shard, and no value of a transaction anywhere. -/
structure Solvent (w : ShardWorld H S) : Prop where
  leaders : ∀ i, (w.leaders i).Solvent
  values : Everywhere (fun _ t => 0 ≤ t.value) w

theorem Solvent.step {w w' : ShardWorld H S} {a : ShardAct S} (hw : Solvent w)
    (h : w.Steps .relay a w') : Solvent w' := by
  refine ⟨?_, ?_⟩
  · have hafter : ∀ {i : Fin S} {n : Leader H}, n.Solvent →
        ∀ j, (Function.update w.leaders i n j).Solvent := fun hn =>
      (forall_leaders_after (p := fun _ m => m.Solvent)).2 ⟨hn, fun j _ => hw.leaders j⟩
    -- accounts never move in relay mode, so that the phases of a partition are out of reach
    have hphase := fun i => Leader.no_partition_phase (hw.leaders i).phase
    cases h with
    | txSending => exact hw.leaders
    | clpaMapSend m hht => exact absurd hht (by decide)
    | deliver => exact hafter ((hw.leaders _).handleMessage _)
    | proposePanics => exact hafter ((hw.leaders _).congr_pool _ rfl rfl)
    | proposeBlock _ _ hgen =>
      exact hafter ((hw.leaders _).proposeBlock (hw.values.leaders _).queue hgen)
    | sendPartitionReady hht => exact absurd hht (by decide)
    | sendAccountsAndTxs hwait => exact absurd hwait (hphase _).1
    | proposePartition hwait => exact absurd hwait (hphase _).2.1
    | commitBlock _ hproposed =>
      exact hafter ((hw.leaders _).commitBlock (Leader.mem_proposedBlock.2 hproposed)
        ((hw.values.leaders _).proposed _ hproposed))
    | commitPartition hproposed => exact absurd hproposed ((hphase _).2.2 _)
  · refine hw.values.step h (Or.inl fun _ _ _ h => h) ?_
    intro i b _ hproposed t ht
    obtain ⟨tx, htx, rfl⟩ := List.mem_map.1 ht
    exact (hw.values.leaders i).proposed b hproposed tx (List.mem_of_mem_filter htx)

/-- **Balances never become negative, if no amount is negative.** For every file whose legal records
    have no negative amount and every start from non-negative balances: in every state that relay mode
    reaches no account of any shard has a negative balance, and no grouping of the transactions into
    blocks of one chain leads to one, settlements included. -/
theorem balances_never_negative {digest : TxDigest} {now : ℕ → ℕ} {dataTotalNum : ℕ}
    {records : List CsvRecord}
    (hcond : ∀ data ∈ records, data.isLegal = some true → data.NonNegAmount) :
    (∀ {cc : Fin S → ChainConfig} {storage : Fin S → Storage H} {db : Fin S → TrieDB H}
      {bc : Fin S → BlockChain H} {w : ShardWorld H S},
      (∀ i, BlockChain.newBlockChain (cc i) (storage i) (db i) = some (bc i)) →
      (∀ i st, (bc i).accounts = some st → ∀ a, 0 ≤ st.balance a) →
      Reaches (step .relay)
        (init bc (CsvRecord.readDataset digest now dataTotalNum 0 records)) w →
      ∀ i st, (w.leaders i).curChain.accounts = some st → ∀ a, 0 ≤ st.balance a) ∧
    ∀ {cc : ChainConfig} {storage : Storage H} {db : TrieDB H} {bc bc' : BlockChain H}
      {miner : ℤ} {time : ℕ} {groups : List (List Transaction)},
      BlockChain.newBlockChain cc storage db = some bc →
      (∀ st, bc.accounts = some st → ∀ a, 0 ≤ st.balance a) →
      (∀ txs ∈ groups, ∀ tx ∈ txs,
        tx ∈ CsvRecord.readDataset digest now dataTotalNum 0 records) →
      bc.mineGroups miner time groups = some bc' →
      ∀ st, bc'.accounts = some st → ∀ a, 0 ≤ st.balance a := by
  have hvalues : ∀ tx ∈ CsvRecord.readDataset digest now dataTotalNum 0 records, 0 ≤ tx.value :=
    fun tx htx => CsvRecord.value_nonneg_of_mem_readDataset hcond htx
  refine ⟨?_, ?_⟩
  · intro cc storage db bc w hnew hstart hrun
    have hinit : Solvent (init bc (CsvRecord.readDataset digest now dataTotalNum 0 records)) := by
      refine ⟨?_, everywhere_init (fun i => BlockChain.newBlockChain_txQueue (hnew i)) hvalues⟩
      intro i
      refine ⟨BlockChain.solvent_newBlockChain (hnew i) (hstart i), ?_, Or.inl rfl⟩
      simp [init, Leader.new, Leader.proposedBlock]
    have hw := hrun.invariant hinit fun _ _ _ hw _ hstep => hw.step (steps_of_step hstep)
    intro i st hst
    exact (hw.leaders i).chain.accounts hst
  · intro cc storage db bc bc' miner time groups hnew hstart hgroups hmine st hst
    have hbc := BlockChain.solvent_newBlockChain hnew hstart
    exact (hbc.mineGroups (fun txs htxs tx htx => hvalues tx (hgroups txs htxs tx htx)) hmine).accounts
      hst

section Sample

open BlockChain

set_option maxRecDepth 100000

/-- A fresh chain starts with the initial balance everywhere. -/
theorem nonneg_twoShards (i : Fin 2) (st : Accounts) (hst : (twoShards i).accounts = some st)
    (a : Address) : 0 ≤ st.balance a := by
  rw [accounts_newBlockChain (newBlockChain_twoShards i), Option.some.injEq] at hst
  subst hst
  show 0 ≤ initBalance
  decide

/-- A record with a negative amount is accepted; its relayed half takes from the recipient more than
    they have. -/
theorem negative_amount_overdraws :
    (∃ tx, (sampleRecord "-1e45").data2tx 0 0 = some (some tx)) ∧
    (∀ i st, (twoShards i).accounts = some st → ∀ a, 0 ≤ st.balance a) ∧
    ∃ w, Reaches (step .relay) (init twoShards (sampleDataset "-1e45")) w ∧
      ∃ i st a, (w.leaders i).curChain.accounts = some st ∧ st.balance a < 0 := by
  refine ⟨?_, nonneg_twoShards, ?_⟩
  · exact Option.isSome_iff_exists.1
      (show ((sampleRecord "-1e45").data2tx 0 0).join.isSome = true by decide +kernel)
      |>.imp fun tx htx => Option.join_eq_some_iff.1 htx
  · have hrun : ∃ w ∈ runActions (step .relay) (init twoShards (sampleDataset "-1e45")) crossing,
        ∃ st ∈ (w.leaders 1).curChain.accounts, ∃ tx ∈ (w.log 1).credited,
          st.balance tx.recipient < 0 := by decide +kernel
    obtain ⟨w, hw, st, hst, tx, -, hneg⟩ := hrun
    exact ⟨w, reaches_of_runActions hw, 1, st, tx.recipient, hst, hneg⟩

/-- With an amount of five the same run ends with non-negative balances. -/
theorem nonneg_amount_keeps_balances :
    ∃ w, Reaches (step .relay) (init twoShards (sampleDataset "5")) w ∧
      (∃ st, (w.leaders 1).curChain.accounts = some st) ∧
      ∀ i st, (w.leaders i).curChain.accounts = some st → ∀ a, 0 ≤ st.balance a := by
  have hrun : ∃ w ∈ runActions (step .relay) (init twoShards (sampleDataset "5")) crossing,
      ∃ st ∈ (w.leaders 1).curChain.accounts, (w.log 1).credited ≠ [] := by decide +kernel
  obtain ⟨w, hw, st, hst, -⟩ := hrun
  have hreach := reaches_of_runActions hw
  have hcond : ∀ data ∈ [sampleRecord "5"], data.isLegal = some true → data.NonNegAmount := by
    decide +kernel
  exact ⟨w, hreach, ⟨st, hst⟩,
    (balances_never_negative hcond).1 newBlockChain_twoShards nonneg_twoShards hreach⟩

end Sample

end ShardWorld

end BlockEmulator
