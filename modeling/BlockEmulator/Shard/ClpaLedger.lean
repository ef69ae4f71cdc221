import BlockEmulator.Shard.Ownership

set_option autoImplicit false

/-! # CLPA mode refines the sequential ledger

`Books` says that the accounts hold what the committed blocks of all shards add up to, wherever the
accounts have been moved. `Turnover` says what that is: the first halves that were debited, with those
that are afoot, are the dataset, and so are the transactions that were credited, in either form, with all
that are afoot. A step keeps the turnover because it keeps what is afoot (`CustodyStep`) or commits a
block, and because no debit is refused: by the turnover itself an account is worth at least what all
transactions that are not yet debited cost. -/

namespace BlockEmulator

variable {H : Type} [DecidableEq H] [Hashing H] {S : ℕ}

/-- A transaction as it was sent. -/
def Transaction.asSent (t : Transaction) : Transaction := { t with relayed := false }

theorem Transaction.asSent_of_first {t : Transaction} (h : t.relayed = false) : t.asSent = t := by
  rw [asSent, ← h]

/-- A block's transactions are for local recipients or relayed. -/
theorem BlockChain.map_asSent_body (bc : BlockChain H) (body : List Transaction) :
    (body : Multiset Transaction).map Transaction.asSent =
      Multiset.map Transaction.asSent
          (body.filter fun tx => bc.ctx.isLocal tx.recipient : List Transaction) +
        (bc.relayedTxs body : Multiset Transaction).map Transaction.asSent := by
  have hrelayed : (bc.relayedTxs body).map Transaction.asSent =
      (body.filter fun tx => !bc.ctx.isLocal tx.recipient).map Transaction.asSent := by
    rw [relayedTxs_eq, List.map_map]
    rfl
  rw [Multiset.map_coe, Multiset.map_coe, Multiset.map_coe, hrelayed, Multiset.coe_add,
    ← List.map_append, Multiset.coe_eq_coe]
  exact ((List.filter_append_perm _ body).map _).symm

theorem Leader.idle_iff {n : Leader H} :
    n.phase = .idle ↔ n.stage = 0 ∧ n.proposedBlock.isNone = true := by
  unfold stage proposedBlock
  split <;> simp_all

namespace ShardWorld

/-! ## Turnover -/

/-- What the committed blocks of all shards have debited. -/
def debited (w : ShardWorld H S) : Multiset Transaction :=
  ∑ i, ((w.log i).debited : Multiset Transaction)

/-- What they have credited. -/
def credited (w : ShardWorld H S) : Multiset Transaction :=
  ∑ i, ((w.log i).credited : Multiset Transaction)

theorem worth_eq (w : ShardWorld H S) (a : Address) :
    w.worth a = initBalance - (w.debited.map fun t => if a = t.sender then t.value else 0).sum +
      (w.credited.map fun t => if a = t.recipient then t.value else 0).sum := by
  rw [worth, debited, credited, sum_map_sum, sum_map_sum]
  rfl

/-- Every transaction of the dataset has been debited or is afoot in its first form, and has been
    credited or is afoot. -/
structure Turnover (dataset : List Transaction) (w : ShardWorld H S) : Prop where
  debited : w.debited + w.afoot.filter (fun t => t.relayed = false) = dataset
  credited : w.credited.map Transaction.asSent + w.afoot.map Transaction.asSent = dataset

theorem turnover_init {bc : Fin S → BlockChain H} (hbc : ∀ i, (bc i).txpool.txQueue = [])
    {dataset : List Transaction} (hdata : ∀ t ∈ dataset, t.relayed = false) :
    Turnover dataset (init bc dataset) := by
  have hafoot : (init bc dataset).afoot = dataset := by
    have hcustody : ∀ i, ((init bc dataset).leaders i).custody = 0 := fun i => by
      rw [Leader.custody_of_open (.inl rfl)]
      show (((bc i).txpool.txQueue : List Transaction) : Multiset Transaction) + _ = 0
      rw [hbc i]
      rfl
    rw [afoot, Finset.sum_eq_zero fun i _ => hcustody i, add_zero]
    exact add_zero _
  have hdebited : (init bc dataset).debited = 0 := Finset.sum_eq_zero fun _ _ => rfl
  have hcredited : (init bc dataset).credited = 0 := Finset.sum_eq_zero fun _ _ => rfl
  constructor
  · rw [hafoot, hdebited, zero_add]
    exact Multiset.filter_eq_self.2 hdata
  · rw [hafoot, hcredited, Multiset.map_zero, zero_add, Multiset.map_coe]
    refine congrArg _ ((List.map_congr_left fun t ht => ?_).trans (List.map_id _))
    exact Transaction.asSent_of_first (hdata t ht)

/-- The first halves of a block are no longer afoot after it is committed, and no others come. -/
theorem filter_first_of_commit {m m' : Multiset Transaction} {bc : BlockChain H}
    {body : List Transaction} (h : m' + body = m + bc.relayedTxs body) :
    m'.filter (fun t => t.relayed = false) + (body.filter fun tx => !tx.relayed : List Transaction) =
      m.filter fun t => t.relayed = false := by
  have hnone : (bc.relayedTxs body : Multiset Transaction).filter (fun t => t.relayed = false) = 0 := by
    refine Multiset.filter_eq_nil.2 fun t ht => ?_
    obtain ⟨tx, -, rfl⟩ := List.mem_map.1 (Multiset.mem_coe.1 ht)
    simp
  have hbody : (body : Multiset Transaction).filter (fun t => t.relayed = false) =
      (body.filter fun tx => !tx.relayed : List Transaction) := by
    rw [Multiset.filter_coe]
    exact congrArg _ (List.filter_congr fun t _ => by cases t.relayed <;> rfl)
  have hfilter := congrArg (Multiset.filter fun t => t.relayed = false) h
  rwa [Multiset.filter_add, Multiset.filter_add, hnone, add_zero, hbody] at hfilter

section Turnover

variable {dataset : List Transaction} {w w' : ShardWorld H S}

/-- What is debited is part of the dataset. -/
theorem Turnover.mem_of_debited (hw : Turnover dataset w) {t : Transaction} (ht : t ∈ w.debited) :
    t ∈ dataset := by
  rw [← Multiset.mem_coe, ← hw.debited]
  exact Multiset.mem_add.2 (.inl ht)

theorem Turnover.mem_of_credited (hw : Turnover dataset w) {t : Transaction} (ht : t ∈ w.credited) :
    t.asSent ∈ dataset := by
  rw [← Multiset.mem_coe, ← hw.credited]
  exact Multiset.mem_add.2 (.inl (Multiset.mem_map_of_mem _ ht))

/-- **Every account can pay for what is not yet debited**, since all transactions together do not exceed
    the initial balance. -/
theorem Turnover.payable (hw : Turnover dataset w) (hdata : ∀ t ∈ dataset, 0 ≤ t.value)
    (htotal : totalValue dataset ≤ initBalance) {txs : List Transaction} {rest : Multiset Transaction}
    (hafoot : rest + txs = w.afoot.filter fun t => t.relayed = false) (a : Address) :
    totalValue txs ≤ w.worth a := by
  have hall : w.debited + (rest + (txs : Multiset Transaction)) = dataset := by
    rw [hafoot]
    exact hw.debited
  have hvalues : (w.debited.map Transaction.value).sum +
      ((rest.map Transaction.value).sum + totalValue txs) = totalValue dataset := by
    have hsum := congrArg (fun m : Multiset Transaction => (m.map Transaction.value).sum) hall
    simpa [totalValue] using hsum
  have hrest : 0 ≤ (rest.map Transaction.value).sum := by
    refine Multiset.sum_nonneg fun v hv => ?_
    obtain ⟨t, ht, rfl⟩ := Multiset.mem_map.1 hv
    refine hdata t ?_
    rw [← Multiset.mem_coe, ← hall]
    exact Multiset.mem_add.2 (.inr (Multiset.mem_add.2 (.inl ht)))
  have hout : (w.debited.map fun t => if a = t.sender then t.value else 0).sum ≤
      (w.debited.map Transaction.value).sum := by
    refine Multiset.sum_map_le_sum_map _ _ fun t ht => ?_
    split
    · exact le_rfl
    · exact hdata t (hw.mem_of_debited ht)
  have hin : 0 ≤ (w.credited.map fun t => if a = t.recipient then t.value else 0).sum := by
    refine Multiset.sum_nonneg fun v hv => ?_
    obtain ⟨t, ht, rfl⟩ := Multiset.mem_map.1 hv
    split
    · exact hdata t.asSent (hw.mem_of_credited ht)
    · exact le_rfl
  rw [worth_eq]
  linarith

/-- A commit debits the first halves of its block and credits those with a local recipient. -/
theorem Turnover.commit (hw : Turnover dataset w) {i : Fin S} {bc : BlockChain H} {b : Block H}
    {survives : Bool} (hlog : w'.log = Function.update w.log i ((w.log i).add bc b survives))
    (hdebits : bc.atTurnOf debits b = b.body.filter fun tx => !tx.relayed)
    (hcredits : bc.atTurnOf credits b = b.body.filter fun tx => bc.ctx.isLocal tx.recipient)
    (hafoot : w'.afoot + b.body = w.afoot + bc.relayedTxs b.body) : Turnover dataset w' := by
  have hdebited : w'.debited = w.debited + (b.body.filter fun tx => !tx.relayed : List Transaction) := by
    rw [← hdebits, ShardWorld.debited, hlog]
    exact sum_update_of_add (f := fun l : ShardLog => (l.debited : Multiset Transaction))
      (Multiset.coe_add ..).symm
  have hcredited : w'.credited = w.credited +
      (b.body.filter fun tx => bc.ctx.isLocal tx.recipient : List Transaction) := by
    rw [← hcredits, ShardWorld.credited, hlog]
    exact sum_update_of_add (f := fun l : ShardLog => (l.credited : Multiset Transaction))
      (Multiset.coe_add ..).symm
  constructor
  · have hfirst := filter_first_of_commit hafoot
    rw [hdebited, add_assoc, add_comm (Multiset.ofList _), hfirst]
    exact hw.debited
  · have hsplit := bc.map_asSent_body b.body
    have hmap := congrArg (Multiset.map Transaction.asSent) hafoot
    rw [Multiset.map_add, Multiset.map_add, hsplit, ← add_assoc] at hmap
    rw [hcredited, Multiset.map_add, add_assoc, add_comm (Multiset.map _ (Multiset.ofList _)),
      add_right_cancel hmap]
    exact hw.credited

end Turnover

/-! ## Runs -/

/-- A transaction keeps being ordinary when it is relayed. -/
theorem Everywhere.ordinary_step {ht : HandleType} {w w' : ShardWorld H S} {a : ShardAct S}
    (hw : Everywhere (fun _ t => t.Ordinary) w) (h : w.Steps ht a w') :
    Everywhere (fun _ t => t.Ordinary) w' := by
  refine hw.step h (.inl fun _ _ _ h => h) ?_
  intro i b _ hphase t ht
  obtain ⟨tx, htx, rfl⟩ := List.mem_map.1 ht
  obtain ⟨hbroker, hbet, hvalue⟩ := (hw.leaders i).proposed b hphase tx (List.mem_of_mem_filter htx)
  exact ⟨hbroker, hbet, hvalue⟩

/-- What holds of the system after any number of steps; of accounts and transactions, as long as no
    process has ended. -/
structure Orderly (dataset : List Transaction) (maps : List ShardMap) (w : ShardWorld H S) : Prop where
  agreed : Agreed maps w
  consistent : w.Consistent
  ordinary : Everywhere (fun _ t => t.Ordinary) w
  remaining : w.remaining <:+ dataset
  accounts : (∀ i, (w.leaders i).alive = true) → Books maps w ∧ Turnover dataset w

theorem orderly_init {cc : Fin S → ChainConfig} {db : Fin S → TrieDB H} {bc : Fin S → BlockChain H}
    {dataset : List Transaction} (hid : ∀ i, (cc i).shardID = i) (hnums : ∀ i, (cc i).shardNums = S)
    (hnew : ∀ i, BlockChain.newBlockChain (cc i) Storage.empty (db i) = some (bc i))
    (hdata : ∀ t ∈ dataset, t.relayed = false ∧ t.Ordinary) :
    Orderly dataset [] (init bc dataset) := by
  have hcc : ∀ i, (bc i).chainConfig = cc i := fun i => (BlockChain.newBlockChain_spec (hnew i)).1
  have hmap : ∀ i, (bc i).partitionMap = ∅ := fun i =>
    (BlockChain.newBlockChain_spec (hnew i)).2.2.1
  have hqueue : ∀ i, (bc i).txpool.txQueue = [] := fun i => BlockChain.newBlockChain_txQueue (hnew i)
  exact ⟨agreed_init (fun i => by rw [hcc, hid]) (fun i => by rw [hcc, hnums]) hmap,
    consistent_init hmap dataset, everywhere_init hqueue fun t ht => (hdata t ht).2, List.suffix_rfl,
    fun _ => ⟨books_init hnew dataset, turnover_init hqueue fun t ht => (hdata t ht).1⟩⟩

section Run

variable {dataset : List Transaction} {maps : List ShardMap} {w w' : ShardWorld H S} {a : ShardAct S}

/-- **The proposed block does what its transactions say.** -/
theorem Turnover.turns (hw : Turnover dataset w) (hbooks : Books maps w) (hag : Agreed maps w)
    (hdata : ∀ t ∈ dataset, 0 ≤ t.value) (htotal : totalValue dataset ≤ initBalance) {i : Fin S}
    {b : Block H} (hphase : (w.leaders i).phase = .proposed (.block b))
    (hord : ∀ t ∈ b.body, t.Ordinary)
    (hcorrect : ∀ tx ∈ b.body, (w.leaders i).curChain.correctTx tx = true)
    {m : Multiset Transaction}
    (hafoot : m + b.body = w.afoot + (w.leaders i).curChain.relayedTxs b.body) :
    (w.leaders i).curChain.atTurnOf debits b = (b.body.filter fun tx => !tx.relayed) ∧
      (w.leaders i).curChain.atTurnOf credits b =
        b.body.filter fun tx => (w.leaders i).curChain.ctx.isLocal tx.recipient := by
  obtain ⟨hext, -⟩ := (hbooks.leaders i).proposed b (Leader.mem_proposedBlock.2 hphase)
  obtain ⟨st, hst, hbalance⟩ := (hbooks.leaders i).current
  have hturn := BlockChain.atTurnOf_eq hst hext
  rw [hturn, hturn]
  refine atTurn_of_payable hord (fun t ht => ?_) fun a ha => ?_
  · exact beq_iff_eq.2 (of_decide_eq_true (hcorrect t ht))
  · show _ ≤ st.balance a
    rw [hbalance a ((Leader.owns_iff_isLocal (hag.leaders i) (hag.shardID i) (hag.shardNums i)
      (by simp [Leader.stage, hphase])).2 ha)]
    exact hw.payable hdata htotal (filter_first_of_commit hafoot) a

/-- Only the commit of a block is written down. -/
theorem log_of_step (h : w.step .clpa a = some w')
    (hno : ∀ i b, a = .commit i → b ∉ (w.leaders i).proposedBlock) : w'.log = w.log := by
  cases steps_of_step h with
  | @commitBlock i b _ hphase => exact absurd (Leader.mem_proposedBlock.2 hphase) (hno i b rfl)
  | _ => rfl

theorem Turnover.step (hw : Turnover dataset w) (hbooks : Books maps w) (hag : Agreed maps w)
    (hord : Everywhere (fun _ t => t.Ordinary) w) (hdata : ∀ t ∈ dataset, 0 ≤ t.value)
    (htotal : totalValue dataset ≤ initBalance) (hcustody : CustodyStep w a w')
    (h : w.step .clpa a = some w') (halive : ∀ i, (w'.leaders i).alive = true) :
    Turnover dataset w' := by
  cases hcustody with
  | same hafoot hdead =>
    have hlog := log_of_step h fun i b ha hb => absurd (halive i) (by simp [hdead i b ha hb])
    constructor
    · rw [ShardWorld.debited, hlog, hafoot]
      exact hw.debited
    · rw [ShardWorld.credited, hlog, hafoot]
      exact hw.credited
  | commit i b ha hb _ hcorrect hafoot =>
    have hphase := Leader.mem_proposedBlock.1 hb
    obtain ⟨hext, st, hst, -⟩ := (hbooks.leaders i).proposed b hb
    obtain ⟨hdebits, hcredits⟩ := hw.turns hbooks hag hdata htotal hphase
      ((hord.leaders i).proposed b hphase) hcorrect hafoot
    have hlog : w'.log = Function.update w.log i ((w.log i).add (w.leaders i).curChain b
        ((w.leaders i).commitBlock b).1.alive) := by
      subst ha
      cases steps_of_step h with
      | @commitBlock _ b' _ hphase' =>
        obtain rfl : b = b' := by simpa using hphase.symm.trans hphase'
        show Function.update w.log i (if (w.leaders i).curChain.addBlock b = none then _ else _) = _
        rw [if_neg (by simp [BlockChain.addBlock_of_known hext hst])]
      | commitPartition hphase' => exact absurd (hphase.symm.trans hphase') (by simp)
    exact hw.commit hlog hdebits hcredits hafoot

theorem Orderly.step (hw : Orderly dataset maps w) (hS : 0 < S) (hdata : ∀ t ∈ dataset, 0 ≤ t.value)
    (htotal : totalValue dataset ≤ initBalance) (hturn : w.MapsInTurn a)
    (h : w.step .clpa a = some w') : Orderly dataset (maps ++ a.mapsSent) w' := by
  obtain ⟨sent, got, hr⟩ := hw.agreed.rounds
  have hmaps : w.MapsExist a := by
    cases a with
    | clpaMapSend m => exact hturn.1
    | _ => trivial
  have hagreed := hw.agreed.step hturn h
  obtain ⟨hconsistent, hcustody⟩ := hw.consistent.step ⟨_, sent, got, hr⟩ hS hmaps h
  refine ⟨hagreed, hconsistent, hw.ordinary.ordinary_step (steps_of_step h),
    (steps_of_step h).remaining_suffix.trans hw.remaining, fun halive => ?_⟩
  obtain ⟨hbooks, hturnover⟩ := hw.accounts fun i => alive_of_step h i (halive i)
  exact ⟨hbooks.step hw.agreed hagreed hw.consistent hw.ordinary hS h halive,
    hturnover.step hbooks hw.agreed hw.ordinary hdata htotal hcustody h halive⟩

end Run

/-- All processes run, no leader has proposed anything or is being repartitioned, and no transaction is
    in a queue or on its way. -/
structure AtRest (w : ShardWorld H S) : Prop where
  alive : ∀ i, (w.leaders i).alive = true
  idle : ∀ i, (w.leaders i).phase = .idle
  queue : ∀ i, (w.leaders i).curChain.txpool.txQueue = []
  net : carried w.net = 0

instance (w : ShardWorld H S) : Decidable w.AtRest :=
  decidable_of_iff ((∀ i, (w.leaders i).alive = true) ∧
      (∀ i, (w.leaders i).stage = 0 ∧ (w.leaders i).proposedBlock.isNone = true) ∧
      (∀ i, (w.leaders i).curChain.txpool.txQueue = []) ∧ (carried w.net).card = 0)
    ⟨fun h => ⟨h.1, fun i => Leader.idle_iff.2 (h.2.1 i), h.2.2.1, Multiset.card_eq_zero.1 h.2.2.2⟩,
      fun h => ⟨h.alive, fun i => Leader.idle_iff.1 (h.idle i), h.queue, by rw [h.net]; rfl⟩⟩

section AtRest

variable {dataset sent : List Transaction} {maps : List ShardMap} {w : ShardWorld H S}

theorem AtRest.stage_lt (hrest : AtRest w) (i : Fin S) : (w.leaders i).stage < 2 := by
  simp [Leader.stage, hrest.idle i]

/-- What is afoot is what the supervisor has not sent. -/
theorem AtRest.afoot_eq (hrest : AtRest w) (hag : Agreed maps w) : w.afoot = w.remaining := by
  have hcustody : ∀ i, (w.leaders i).custody = 0 := by
    intro i
    have hnone : (w.leaders i).cdm.accountStateTx = ∅ := by
      refine Finmap.ext_lookup fun j => ?_
      rw [Finmap.lookup_empty, Finmap.lookup_eq_none]
      -- what is collected has been sent in a round that nobody is in
      intro hj
      obtain ⟨j', -, -, hsent⟩ := hag.sent_of_collected hj
      have hsame := hag.round_eq_of_open (hrest.stage_lt i) (hrest.stage_lt j')
      have hlt := hrest.stage_lt j'
      rw [Leader.roundsSent, if_neg (by omega)] at hsent
      omega
    rw [Leader.custody_of_open (.inl (hrest.idle i)), hrest.queue i, hnone]
    rfl
  rw [afoot, hrest.net, Finset.sum_eq_zero fun i _ => hcustody i, add_zero, add_zero]

/-- **What an account is worth when all is at rest**: what the sequential ledger says. -/
theorem Turnover.worth_eq_ledger (hw : Turnover dataset w) (hafoot : w.afoot = w.remaining)
    (hsent : sent ++ w.remaining = dataset) (hdata : ∀ t ∈ dataset, t.relayed = false ∧ 0 ≤ t.value)
    (htotal : totalValue dataset ≤ initBalance) (a : Address) :
    w.worth a = (Ledger.loadFinalResultFromDataset sent).balance a := by
  subst hsent
  obtain ⟨hsentData, hrem⟩ := List.forall_mem_append.1 hdata
  have hdebited : w.debited = sent := by
    have hall := hw.debited
    rw [hafoot, Multiset.filter_eq_self.2 fun t ht => (hrem t ht).1, ← Multiset.coe_add] at hall
    exact add_right_cancel hall
  have hcredited : w.credited.map Transaction.asSent = sent := by
    have hall := hw.credited
    have hforms : w.remaining.map Transaction.asSent = w.remaining :=
      (List.map_congr_left fun t ht => Transaction.asSent_of_first (hrem t ht).1).trans (List.map_id _)
    rw [hafoot, Multiset.map_coe, hforms, ← Multiset.coe_add] at hall
    exact add_right_cancel hall
  have hin : (w.credited.map fun t => if a = t.recipient then t.value else 0).sum = inflow a sent := by
    have hsum := congrArg (fun m : Multiset Transaction =>
      (m.map fun t => if a = t.recipient then t.value else 0).sum) hcredited
    simp only [Multiset.map_map] at hsum
    exact hsum
  have hle : totalValue sent ≤ initBalance := by
    have hrest := totalValue_nonneg fun t ht => (hrem t ht).2
    rw [totalValue_append] at htotal
    linarith
  rw [worth_eq, hdebited, hin,
    Ledger.balance_loadFinalResultFromDataset (fun t ht => (hsentData t ht).2) hle]
  rfl

end AtRest

/-- **CLPA mode refines the sequential ledger.** Whatever accounts are moved and whatever the
    interleaving of sending, delivering, proposing, committing and repartitioning: when all is at rest,
    all leaders agree where an account lives, and the trie of that shard has for it the balance that the
    sequential ledger computes from the transactions sent so far. -/
theorem clpa_refines_sequential_ledger {cc : Fin S → ChainConfig} {db : Fin S → TrieDB H}
    {bc : Fin S → BlockChain H} {dataset : List Transaction} {w : ShardWorld H S} (hS : 0 < S)
    (hid : ∀ i, (cc i).shardID = i) (hnums : ∀ i, (cc i).shardNums = S)
    (hnew : ∀ i, BlockChain.newBlockChain (cc i) Storage.empty (db i) = some (bc i))
    (hdata : ∀ t ∈ dataset, t.relayed = false ∧ t.Ordinary)
    (htotal : totalValue dataset ≤ initBalance)
    (hrun : ReachesUnder (step .clpa) MapsInTurn (init bc dataset) w) (hrest : AtRest w) :
    ∃ sent, sent ++ w.remaining = dataset ∧ ∀ a, ∃ i : Fin S,
      (∀ j, (w.leaders j).curChain.getPartitionMap a = i) ∧
      ∃ st, (w.leaders i).curChain.accounts = some st ∧
        st.balance a = (Ledger.loadFinalResultFromDataset sent).balance a := by
  have hvalues : ∀ t ∈ dataset, 0 ≤ t.value := fun t ht => (hdata t ht).2.value
  obtain ⟨maps, hw⟩ : ∃ maps, Orderly dataset maps w :=
    hrun.invariant (I := fun w => ∃ maps, Orderly dataset maps w)
      ⟨[], orderly_init hid hnums hnew hdata⟩
      fun _ _ _ ⟨_, hw⟩ hturn hstep => ⟨_, hw.step hS hvalues htotal hturn hstep⟩
  obtain ⟨hbooks, hturnover⟩ := hw.accounts hrest.alive
  obtain ⟨sent, hsent⟩ := hw.remaining
  refine ⟨sent, hsent, fun a => ?_⟩
  have hhome : ∀ i, (w.leaders i).curChain.getPartitionMap a =
      homeAfter S maps (w.leaders i).cdm.accountTransferRound a := fun i =>
    (hw.agreed.leaders i).getPartitionMap (hw.agreed.shardNums i) a
  obtain ⟨i, hi⟩ : ∃ i : Fin S, (w.leaders ⟨0, hS⟩).curChain.getPartitionMap a = i :=
    ⟨⟨_, homeAfter_lt hw.agreed.within hS _ a⟩, hhome ⟨0, hS⟩⟩
  have hall : ∀ j, (w.leaders j).curChain.getPartitionMap a = i := by
    intro j
    rw [hhome, hw.agreed.round_eq_of_open (hrest.stage_lt j) (hrest.stage_lt ⟨0, hS⟩), ← hhome]
    exact hi
  obtain ⟨st, hst, hbalance⟩ := (hbooks.leaders i).current
  refine ⟨i, hall, st, hst, ?_⟩
  rw [hbalance a ((Leader.owns_iff_of_stage (hrest.stage_lt i)).2 ((hhome i).symm.trans (hall i)))]
  exact hturnover.worth_eq_ledger (hrest.afoot_eq hw.agreed) hsent
    (fun t ht => ⟨(hdata t ht).1, hvalues t ht⟩) htotal a

section Sample

open BlockChain

set_option maxRecDepth 100000

/-- Alice pays bob, the two change places before the payment has reached bob, and bob pays alice. -/
def exchangingPlaces (i j : Fin 2) : List (ShardAct 2) :=
  mapArrives i (swap i j) ++ migrating i j [alice] [bob] ++
    [.proposeBlock i 1, .commit i, .deliver 0, .txSending 1, .deliver 0, .deliver 0, .proposeBlock i 2,
      .commit i, .deliver 0, .proposeBlock j 2, .commit j, .deliver 0]

theorem exchanged_places_agree_with_ledger :
    ∃ w, ReachesUnder (step .clpa) MapsInTurn (init twoShards exchange) w ∧ AtRest w ∧
      ∃ sent, sent ++ w.remaining = exchange ∧ w.remaining = [] ∧
        ∃ i : Fin 2, (∀ j, (w.leaders j).curChain.getPartitionMap alice = i) ∧
        ∃ st, (w.leaders i).curChain.accounts = some st ∧
          st.balance alice = (Ledger.loadFinalResultFromDataset sent).balance alice := by
  have hrun : ∃ w ∈ runChecked (step .clpa) (fun w a => decide (w.MapsInTurn a))
      (init twoShards exchange) (exchangingPlaces 0 1), AtRest w ∧ w.remaining = [] := by
    decide +kernel
  obtain ⟨w, hw, hrest, hdone⟩ := hrun
  have hreach := reachesUnder_of_runDecided hw
  have hdata : ∀ t ∈ exchange, t.relayed = false ∧ t.Ordinary := by
    intro t ht
    rcases List.mem_pair.1 ht with rfl | rfl <;> exact ⟨rfl, rfl, rfl, by decide⟩
  obtain ⟨sent, hsent, hbalances⟩ := clpa_refines_sequential_ledger (by decide) (fun _ => by rfl)
    (fun _ => by rfl) newBlockChain_twoShards hdata (by decide) hreach hrest
  exact ⟨w, hreach, hrest, sent, hsent, hdone, hbalances alice⟩

end Sample

end ShardWorld

end BlockEmulator
