import BlockEmulator.Chain.Transfers
import BlockEmulator.Shard.Relay

set_option autoImplicit false

/-! # Relay mode refines the sequential ledger

A transfer between two shards is debited in one and credited, later, in the other. The relation to the
sequential ledger is kept by two invariants. `Balanced` says that the accounts of a shard are what its
log adds up to, and that those under the root of the block it has proposed are what the log will add
up to. `Flow` says that of every transfer each half is done once or still under way. When nothing is
under way, the logs of all shards together hold the transfers the supervisor has sent, and what they
add up to does not depend on the order. -/

namespace BlockEmulator

variable {H : Type} [DecidableEq H] [Hashing H] {S : ℕ}

/-! ## The accounts of one shard -/

/-- The accounts under a root are what the log adds up to. -/
def ShardLog.AddsUpTo (log : ShardLog) (db : TrieDB H) (root : H) : Prop :=
  ∃ st, db.trieNew root = some st ∧
    ∀ a, st.balance a = initBalance - outflow a log.debited + inflow a log.credited

structure Balanced (log : ShardLog) (n : Leader H) : Prop where
  book : n.curChain.g2eBook = ∅
  current : log.AddsUpTo n.curChain.triedb n.curChain.stateRoot
  proposed : ∀ b ∈ n.proposedBlock,
    (log.add n.curChain b true).AddsUpTo n.curChain.triedb b.header.stateRoot

namespace BlockChain

theorem atTurnOf_eq {bc : BlockChain H} {st : Accounts} (hst : bc.accounts = some st) {b : Block H}
    (hext : bc.Extends b) (p : ExecCtx → Accounts → Transaction → Bool) :
    bc.atTurnOf p b = atTurn p bc.ctx 0 b.body ⟨st, bc.g2eBook, 0⟩ := by
  simp only [atTurnOf, hst, if_pos hext]

theorem SameState.atTurnOf_eq {l f : BlockChain H} (h : SameState l f)
    (p : ExecCtx → Accounts → Transaction → Bool) (b : Block H) :
    l.atTurnOf p b = f.atTurnOf p b := by
  simp only [atTurnOf, h.accounts, h.ctx_eq, h.book, h.extends_iff]

end BlockChain

namespace Balanced

variable {log : ShardLog} {n : Leader H}

/-- The pool is no part of the invariant. -/
theorem congr_pool (hn : Balanced log n) {n' : Leader H} (pool : TxPool)
    (hchain : n'.curChain = { n.curChain with txpool := pool }) (hphase : n'.phase = n.phase) :
    Balanced log n' where
  book := by
    rw [hchain]
    exact hn.book
  current := by
    rw [hchain]
    exact hn.current
  proposed := by
    rw [Leader.proposedBlock, hphase, hchain]
    exact hn.proposed

theorem proposeBlock (hn : Balanced log n) (hord : ∀ t ∈ n.curChain.txpool.txQueue, t.Ordinary)
    {now : ℕ} {bc : BlockChain H} {b : Block H}
    (h : n.curChain.generateBlock 0 now = some (bc, b)) :
    Balanced log { n with curChain := bc, phase := .proposed (.block b) } := by
  obtain ⟨-, hext, -⟩ := BlockChain.generateBlock_spec h
  obtain ⟨st, hst, hbal⟩ := hn.current
  obtain ⟨rt, hexec, rfl⟩ := BlockChain.generateBlockOf_cases h
  have hord' : ∀ t ∈ n.curChain.packForBlock.1, t.Ordinary := fun t ht => by
    obtain ⟨k, hk⟩ := BlockChain.packForBlock_eq n.curChain
    rw [hk] at ht
    exact hord t (List.mem_of_mem_take ht)
  obtain ⟨hbook, st', hst', hbal'⟩ :=
    BlockChain.getUpdateStatusTrie_of_ordinary hexec hord' hn.book hst
  have hsame := BlockChain.sameState_of_getUpdateStatusTrie hexec (hbook.trans hn.book.symm)
  refine ⟨hbook, ⟨st, hsame.accounts.symm.trans hst, hbal⟩, ?_⟩
  intro b hb
  obtain rfl := Option.some.inj hb
  refine ⟨st', hst', ?_⟩
  intro a
  have hturn : ∀ p, bc.atTurnOf p _ =
      atTurn p n.curChain.ctx 0 n.curChain.packForBlock.1 ⟨st, n.curChain.g2eBook, 0⟩ := fun p =>
    (hsame.atTurnOf_eq p _).symm.trans (BlockChain.atTurnOf_eq hst hext p)
  simp only [ShardLog.add, hturn, outflow_append, inflow_append]
  refine (hbal' a).trans ?_
  rw [hbal a]
  show initBalance - _ + _ - outflow a (atTurn debits n.curChain.ctx 0 _ _) +
    inflow a (atTurn credits n.curChain.ctx 0 _ _) = _
  ring

theorem afterCommit (hn : Balanced log n) {b : Block H} (hb : b ∈ n.proposedBlock) (pool : TxPool) :
    Balanced (log.add n.curChain b true) (n.appended b pool) where
  book := hn.book
  current := hn.proposed b hb
  proposed := fun b' hb' => absurd hb' (by
    simp [Leader.proposedBlock, Leader.appended, Leader.nextRound])

end Balanced

namespace ShardWorld

theorem balanced_init {cc : Fin S → ChainConfig} {db : Fin S → TrieDB H} {bc : Fin S → BlockChain H}
    (hnew : ∀ i, BlockChain.newBlockChain (cc i) Storage.empty (db i) = some (bc i))
    (dataset : List Transaction) (i : Fin S) :
    Balanced ((init bc dataset).log i) ((init bc dataset).leaders i) where
  book := (BlockChain.newBlockChain_spec (hnew i)).2.2.2.1
  current := ⟨∅, BlockChain.accounts_newBlockChain (hnew i), fun a => by
    simp [init, outflow, inflow]⟩
  proposed := fun b hb => absurd hb (by simp [init, Leader.new, Leader.proposedBlock])

theorem balanced_step {w w' : ShardWorld H S} {a : ShardAct S}
    (hw : ∀ i, Balanced (w.log i) (w.leaders i)) (hord : Everywhere (fun _ t => t.Ordinary) w)
    (h : StaticStep w a w') : ∀ i, Balanced (w'.log i) (w'.leaders i) := by
  have hafter : ∀ {i n}, Balanced (w.log i) n →
      ∀ j, Balanced (w.log j) (Function.update w.leaders i n j) := fun hn =>
    (forall_leaders_after (p := fun j m => Balanced (w.log j) m)).2 ⟨hn, fun j _ => hw j⟩
  cases h with
  | txSending => exact hw
  | deliver _ hplain =>
    next k i m _ =>
    obtain ⟨pool, hchain, hphase⟩ := (w.leaders i).handleMessage_relay m
    exact hafter ((hw i).congr_pool pool hchain hphase)
  | proposePanics i now => exact hafter ((hw i).congr_pool _ rfl rfl)
  | proposeBlock _ hgen => exact hafter ((hw _).proposeBlock (hord.leaders _).queue hgen)
  | commitBlock hb _ =>
    next i b pool _ =>
    intro j
    show Balanced (Function.update w.log i _ j) (Function.update w.leaders i _ j)
    by_cases hj : j = i
    · subst hj
      rw [Function.update_self, Function.update_self]
      exact (hw j).afterCommit hb pool
    · rw [Function.update_of_ne hj, Function.update_of_ne hj]
      exact hw j

end ShardWorld

/-! ## The transactions of one block -/

/-- `t` is a transfer as the supervisor sends it, and `u` the form in which it is relayed. -/
def Transaction.Halves (t u : Transaction) : Prop :=
  t.relayed = false ∧ u = { t with relayed := true }

namespace Transaction.Halves

variable {t u : Transaction}

theorem relayed (h : t.Halves u) : u.relayed = true := by rw [h.2]

theorem recipient (h : t.Halves u) : u.recipient = t.recipient := by rw [h.2]

theorem ne (h : t.Halves u) : t ≠ u := by
  rintro rfl
  exact absurd (h.1.symm.trans h.relayed) (by simp)

/-- Both forms come from the same transfer, and nothing else does. -/
theorem eq_iff (h : t.Halves u) (x : Transaction) :
    { x with relayed := false } = t ↔ x = t ∨ x = u := by
  obtain ⟨ht, rfl⟩ := h
  constructor
  · rintro rfl
    cases hx : x.relayed with
    | false => exact Or.inl (by rw [← hx])
    | true => exact Or.inr (by rw [← hx])
  · rintro (rfl | rfl) <;> rw [← ht]

end Transaction.Halves

theorem BlockChain.count_relayedTxs_first (bc : BlockChain H) (body : List Transaction)
    {t : Transaction} (ht : t.relayed = false) : (bc.relayedTxs body).count t = 0 := by
  refine List.count_eq_zero.2 ?_
  intro hmem
  obtain ⟨tx, -, rfl⟩ := List.mem_map.1 hmem
  exact absurd ht (by simp)

namespace StaticLeader

variable {i : ℕ} {n : Leader H} {body : List Transaction} {t u : Transaction}

/-- A block relays the second half of what it holds for remote recipients. -/
theorem count_relayedTxs_second (hn : StaticLeader S i n) (hhome : ∀ t ∈ body, AtHome S i t)
    (h : t.Halves u) : (n.curChain.relayedTxs body).count u =
      (body.filter fun tx => !n.curChain.ctx.isLocal tx.recipient).count t := by
  obtain ⟨ht, rfl⟩ := h
  rw [BlockChain.relayedTxs_eq, List.count, List.countP_map, List.count]
  refine List.countP_congr ?_
  intro tx htx
  obtain ⟨hmem, hremote⟩ := List.mem_filter.1 htx
  have hfirst := hn.relayed_eq_false (hhome tx hmem) (by simpa using hremote)
  rw [Function.comp_apply, beq_iff_eq, beq_iff_eq]
  constructor
  · intro heq
    calc tx = { { tx with relayed := true } with relayed := false } := by rw [← hfirst]
      _ = { { t with relayed := true } with relayed := false } := by rw [heq]
      _ = t := by rw [← ht]
  · exact fun heq => heq ▸ rfl

/-- The second halves in a block are all for local recipients. -/
theorem count_local_second (hn : StaticLeader S i n) (hhome : ∀ t ∈ body, AtHome S i t)
    (h : t.Halves u) :
    (body.filter fun tx => n.curChain.ctx.isLocal tx.recipient).count u = body.count u := by
  cases hlocal : n.curChain.ctx.isLocal u.recipient with
  | true => exact List.count_filter hlocal
  | false =>
    have hnone : body.count u = 0 := List.count_eq_zero.2 fun hmem =>
      absurd (hn.relayed_eq_false (hhome u hmem) hlocal) (by simp [h.relayed])
    have hle := (List.filter_sublist (p := fun tx : Transaction =>
      n.curChain.ctx.isLocal tx.recipient) (l := body)).count_le u
    omega

/-- The first halves in a block are for local recipients or remote ones. -/
theorem count_local_add_count_remote (n : Leader H) (body : List Transaction) (t : Transaction) :
    (body.filter fun tx => n.curChain.ctx.isLocal tx.recipient).count t +
      (body.filter fun tx => !n.curChain.ctx.isLocal tx.recipient).count t = body.count t :=
  (List.countP_eq_countP_filter_add body (· == t)
    fun tx => n.curChain.ctx.isLocal tx.recipient).symm

end StaticLeader

/-! ## Every half once -/

namespace ShardWorld

/-- Each half of every transfer of the dataset is done once or still under way, and has been done in
    the shard where its account lives. -/
structure Flow (dataset : List Transaction) (w : ShardWorld H S) : Prop where
  debited : ∀ t, t.relayed = false →
    ∑ i, (w.log i).debited.count t + w.pending t = dataset.count t
  credited : ∀ t u, t.Halves u →
    ∑ i, ((w.log i).credited.count t + (w.log i).credited.count u) + w.pending t + w.pending u =
      dataset.count t
  senders : ∀ i : Fin S, ∀ t ∈ (w.log i).debited,
    t.relayed = false ∧ 0 ≤ t.value ∧ addr2Shard S t.sender = i
  recipients : ∀ i : Fin S, ∀ t ∈ (w.log i).credited, 0 ≤ t.value ∧ addr2Shard S t.recipient = i

theorem flow_init {bc : Fin S → BlockChain H} (hbc : ∀ i, (bc i).txpool.txQueue = [])
    {dataset : List Transaction} (hdata : ∀ t ∈ dataset, t.relayed = false) :
    Flow dataset (init bc dataset) := by
  have hpend : ∀ t, (init bc dataset).pending t = dataset.count t := fun t => by
    simp [init, pending, Leader.held, Leader.new, Leader.proposedBlock, hbc]
  refine ⟨?_, ?_, by simp [init], by simp [init]⟩
  · intro t _
    rw [hpend]
    simp [init]
  · intro t u h
    have hnone : dataset.count u = 0 := List.count_eq_zero.2 fun hmem =>
      absurd (hdata u hmem) (by simp [h.relayed])
    rw [hpend, hpend, hnone]
    simp [init]

/-- What has been proposed is under way. -/
theorem count_proposed_le_pending {w : ShardWorld H S} {i : Fin S} {b : Block H}
    (hb : b ∈ (w.leaders i).proposedBlock) (t : Transaction) :
    b.body.count t ≤ w.pending t := by
  have hheld : b.body.count t ≤ (w.leaders i).held.count t := by
    rw [Leader.held, Option.mem_def.1 hb, List.count_append]
    exact Nat.le_add_left _ _
  have hsum : (w.leaders i).held.count t ≤ ∑ j, (w.leaders j).held.count t :=
    Finset.single_le_sum (f := fun j => (w.leaders j).held.count t) (fun _ _ => Nat.zero_le _)
      (Finset.mem_univ i)
  rw [pending]
  omega

/-- **Every account can pay for the proposed block**, since all transfers together do not exceed the
    initial balance. -/
theorem Flow.covered {dataset : List Transaction} {w : ShardWorld H S} (hw : Flow dataset w)
    (hdata : ∀ t ∈ dataset, 0 ≤ t.value) (htotal : totalValue dataset ≤ initBalance) {i : Fin S}
    {st : Accounts}
    (hst : ∀ a, st.balance a =
      initBalance - outflow a (w.log i).debited + inflow a (w.log i).credited)
    {b : Block H} (hb : b ∈ (w.leaders i).proposedBlock) (a : Address) :
    totalValue (b.body.filter fun tx => !tx.relayed) ≤ st.balance a := by
  have hcount : ∀ t, ((w.log i).debited ++ b.body.filter fun tx => !tx.relayed).count t ≤
      dataset.count t := by
    intro t
    rw [List.count_append]
    cases ht : t.relayed with
    | true =>
      rw [List.count_eq_zero.2 fun hmem => absurd (hw.senders i t hmem).1 (by simp [ht]),
        List.count_eq_zero.2 fun hmem => absurd (List.mem_filter.1 hmem).2 (by simp [ht])]
      exact Nat.zero_le _
    | false =>
      have hone : (w.log i).debited.count t ≤ ∑ j, (w.log j).debited.count t :=
        Finset.single_le_sum (f := fun j => (w.log j).debited.count t) (fun _ _ => Nat.zero_le _)
          (Finset.mem_univ i)
      rw [List.count_filter (by simp [ht])]
      have hpend := count_proposed_le_pending hb t
      have hflow := hw.debited t ht
      omega
  have hsum : totalValue (w.log i).debited + totalValue (b.body.filter fun tx => !tx.relayed) ≤
      totalValue dataset := by
    rw [← totalValue_append]
    exact sum_map_le_of_count_le hcount hdata
  have hout := outflow_le_totalValue (fun t ht => (hw.senders i t ht).2.1) a
  have hin := inflow_nonneg (fun t ht => (hw.recipients i t ht).1) a
  rw [hst]
  linarith

/-- So the proposed block will debit its first halves and credit its local recipients. -/
theorem Flow.turns {dataset : List Transaction} {w : ShardWorld H S} (hw : Flow dataset w)
    (hdata : ∀ t ∈ dataset, 0 ≤ t.value) (htotal : totalValue dataset ≤ initBalance) {i : Fin S}
    (hn : StaticLeader S i (w.leaders i)) (hbal : Balanced (w.log i) (w.leaders i)) {b : Block H}
    (hb : b ∈ (w.leaders i).proposedBlock) (hhome : ∀ t ∈ b.body, AtHome S i t)
    (hord : ∀ t ∈ b.body, t.Ordinary) :
    (w.leaders i).curChain.atTurnOf debits b = (b.body.filter fun tx => !tx.relayed) ∧
      (w.leaders i).curChain.atTurnOf credits b =
        b.body.filter fun tx => (w.leaders i).curChain.ctx.isLocal tx.recipient := by
  obtain ⟨st, hst, hstbal⟩ := hbal.current
  have hturn := BlockChain.atTurnOf_eq hst (hn.proposed b hb).1
  rw [hturn, hturn]
  exact atTurn_of_covered hord (fun t ht => (hn.isLocal_iff _).2 (hhome t ht))
    (hw.covered hdata htotal hstbal hb)

theorem Flow.step {dataset : List Transaction} {w w' : ShardWorld H S} {a : ShardAct S}
    (hw : Flow dataset w) (hdata : ∀ t ∈ dataset, 0 ≤ t.value)
    (htotal : totalValue dataset ≤ initBalance) (hstatic : Static w)
    (hord : Everywhere (fun _ t => t.Ordinary) w) (hbal : ∀ i, Balanced (w.log i) (w.leaders i))
    (h : LedgerStep w a w') : Flow dataset w' := by
  cases h with
  | same hlog hpend =>
    refine ⟨?_, ?_, ?_, ?_⟩ <;> simp only [hlog, hpend]
    · exact hw.debited
    · exact hw.credited
    · exact hw.senders
    · exact hw.recipients
  | commit i b ha hb hlog hpend =>
    have hn := hstatic.leaders i
    have hhome : ∀ t ∈ b.body, AtHome S i t :=
      (hstatic.atHome.leaders i).proposed b (Leader.mem_proposedBlock.1 hb)
    have hbody : ∀ t ∈ b.body, t.Ordinary :=
      (hord.leaders i).proposed b (Leader.mem_proposedBlock.1 hb)
    obtain ⟨hdeb, hcred⟩ := hw.turns hdata htotal hn (hbal i) hb hhome hbody
    refine ⟨?_, ?_, ?_, ?_⟩
    · intro t ht
      -- the first halves of the block leave those under way and are debited
      have hsum := sum_update_add w.log (fun l => l.debited.count t) i
        ((w.log i).add (w.leaders i).curChain b true)
      have hflow := hpend t
      simp only [ShardLog.add, List.count_append, hdeb] at hsum
      rw [List.count_filter (by simp [ht])] at hsum
      rw [BlockChain.count_relayedTxs_first _ _ ht] at hflow
      have hold := hw.debited t ht
      simp only [hlog, ShardLog.add, hdeb]
      omega
    · intro t u h
      -- a first half is credited here or sets out as a second half; a second half is credited here
      have hsum := sum_update_add w.log (fun l => l.credited.count t + l.credited.count u) i
        ((w.log i).add (w.leaders i).curChain b true)
      have hfirst := hpend t
      have hsecond := hpend u
      simp only [ShardLog.add, List.count_append, hcred] at hsum
      rw [BlockChain.count_relayedTxs_first _ _ h.1] at hfirst
      rw [hn.count_relayedTxs_second hhome h] at hsecond
      rw [hn.count_local_second hhome h] at hsum
      have hsplit := StaticLeader.count_local_add_count_remote (w.leaders i) b.body t
      have hold := hw.credited t u h
      simp only [hlog, ShardLog.add, hcred]
      omega
    · rw [hlog, forall_log_update (p := fun j l => ∀ t ∈ l.debited,
        t.relayed = false ∧ 0 ≤ t.value ∧ addr2Shard S t.sender = j)]
      refine ⟨?_, fun j _ => hw.senders j⟩
      intro t ht
      simp only [ShardLog.add, hdeb, List.mem_append, List.mem_filter] at ht
      rcases ht with ht | ⟨hmem, hfirst⟩
      · exact hw.senders i t ht
      · have hfirst : t.relayed = false := by simpa using hfirst
        have hat := hhome t hmem
        rw [AtHome, hfirst] at hat
        exact ⟨hfirst, (hbody t hmem).value, hat⟩
    · rw [hlog, forall_log_update (p := fun j l => ∀ t ∈ l.credited,
        0 ≤ t.value ∧ addr2Shard S t.recipient = j)]
      refine ⟨?_, fun j _ => hw.recipients j⟩
      intro t ht
      simp only [ShardLog.add, hcred, List.mem_append, List.mem_filter] at ht
      rcases ht with ht | ⟨hmem, hlocal⟩
      · exact hw.recipients i t ht
      · exact ⟨(hbody t hmem).value, (hn.isLocal_iff _).1 hlocal⟩

/-! ## Whole runs -/

/-- What holds of the system after any number of steps. -/
structure InBalance (dataset : List Transaction) (w : ShardWorld H S) : Prop where
  static : Static w
  ordinary : Everywhere (fun _ t => t.Ordinary) w
  balanced : ∀ i, Balanced (w.log i) (w.leaders i)
  flow : Flow dataset w

theorem InBalance.step {dataset : List Transaction} {w w' : ShardWorld H S} {a : ShardAct S}
    (hw : InBalance dataset w) (hS : 0 < S) (hdata : ∀ t ∈ dataset, 0 ≤ t.value)
    (htotal : totalValue dataset ≤ initBalance) (h : w.Steps .relay a w') :
    InBalance dataset w' where
  static := hw.static.step h
  ordinary := by
    refine hw.ordinary.step h (Or.inl fun _ _ _ h => h) ?_
    intro i b _ hphase t ht
    obtain ⟨tx, htx, rfl⟩ := List.mem_map.1 ht
    obtain ⟨hbroker, hbet, hval⟩ :=
      (hw.ordinary.leaders i).proposed b hphase tx (List.mem_of_mem_filter htx)
    exact ⟨hbroker, hbet, hval⟩
  balanced := balanced_step hw.balanced hw.ordinary (hw.static.staticStep h)
  flow := hw.flow.step hdata htotal hw.static hw.ordinary hw.balanced
    (hw.static.ledgerStep hS (hw.static.staticStep h))

/-- The supervisor sends the dataset from its head on. -/
theorem Steps.remaining_suffix {ht : HandleType} {w w' : ShardWorld H S} {a : ShardAct S}
    (h : w.Steps ht a w') : w'.remaining <:+ w.remaining := by
  cases h with
  | txSending count => exact List.drop_suffix count w.remaining
  | _ => exact List.suffix_rfl

/-- No message is in flight, every pool is empty and no transaction waits in a proposed block. -/
structure Quiescent (w : ShardWorld H S) : Prop where
  net : w.net = []
  held : ∀ i, (w.leaders i).held = []

instance (w : ShardWorld H S) : Decidable w.Quiescent :=
  decidable_of_iff (w.net.length = 0 ∧ ∀ i, (w.leaders i).held = [])
    ⟨fun h => ⟨List.eq_nil_of_length_eq_zero h.1, h.2⟩, fun h => ⟨by rw [h.net]; rfl, h.held⟩⟩

theorem Quiescent.pending {w : ShardWorld H S} (hq : Quiescent w) (t : Transaction) :
    w.pending t = w.remaining.count t := by
  simp [ShardWorld.pending, hq.net, hq.held]

theorem count_map_first {t u : Transaction} (h : t.Halves u) (l : List Transaction) :
    (l.map fun x => { x with relayed := false }).count t = l.count t + l.count u := by
  induction l with
  | nil => rfl
  | cons x l ih =>
    have hne := h.ne
    rw [List.map_cons, List.count_cons, List.count_cons, List.count_cons, ih]
    simp only [beq_iff_eq, h.eq_iff]
    split_ifs <;> simp_all <;> omega

section Quiescent

variable {dataset sent : List Transaction} {w : ShardWorld H S}

/-- The home shard of an account has debited it for what was sent. -/
theorem InBalance.outflow_eq (hw : InBalance dataset w) (hq : Quiescent w)
    (hsent : sent ++ w.remaining = dataset) (hdata : ∀ t ∈ dataset, t.relayed = false) {i : Fin S}
    {a : Address} (ha : addr2Shard S a = i) :
    outflow a (w.log i).debited = outflow a sent := by
  refine sum_map_eq_of_count_eq ?_
  intro t ht
  have hsender : a = t.sender := by
    by_contra hne
    exact ht (if_neg hne)
  subst hsender
  cases hrel : t.relayed with
  | true =>
    rw [List.count_eq_zero.2 fun hmem => absurd (hw.flow.senders i t hmem).1 (by simp [hrel]),
      List.count_eq_zero.2 fun hmem => absurd (hdata t (hsent ▸ List.mem_append_left _ hmem))
        (by simp [hrel])]
  | false =>
    have honly : ∑ j, (w.log j).debited.count t = (w.log i).debited.count t := by
      refine Finset.sum_eq_single i (fun j _ hj => List.count_eq_zero.2 fun hmem => hj ?_) (by simp)
      exact Fin.ext ((hw.flow.senders j t hmem).2.2.symm.trans ha)
    have hflow := hw.flow.debited t hrel
    rw [honly, hq.pending, ← hsent, List.count_append] at hflow
    omega

/-- The home shard of an account has credited it, in one of two forms, for what was sent. -/
theorem InBalance.inflow_eq (hw : InBalance dataset w) (hq : Quiescent w)
    (hsent : sent ++ w.remaining = dataset) (hdata : ∀ t ∈ dataset, t.relayed = false) {i : Fin S}
    {a : Address} (ha : addr2Shard S a = i) :
    inflow a (w.log i).credited = inflow a sent := by
  have hforms : inflow a (w.log i).credited =
      inflow a ((w.log i).credited.map fun x => { x with relayed := false }) := by
    rw [inflow, inflow, List.map_map]
    rfl
  rw [hforms]
  refine sum_map_eq_of_count_eq ?_
  intro t ht
  have hrecipient : a = t.recipient := by
    by_contra hne
    exact ht (if_neg hne)
  subst hrecipient
  cases hrel : t.relayed with
  | true =>
    have hnone : ((w.log i).credited.map fun x => { x with relayed := false }).count t = 0 :=
      List.count_eq_zero.2 fun hmem => by
        obtain ⟨x, -, rfl⟩ := List.mem_map.1 hmem
        exact absurd hrel (by simp)
    rw [hnone, List.count_eq_zero.2 fun hmem =>
      absurd (hdata t (hsent ▸ List.mem_append_left _ hmem)) (by simp [hrel])]
  | false =>
    obtain ⟨u, hu⟩ : ∃ u, t.Halves u := ⟨_, hrel, rfl⟩
    have hzero : ∀ j, j ≠ i → ∀ x : Transaction, x.recipient = t.recipient →
        (w.log j).credited.count x = 0 := fun j hj x hx =>
      List.count_eq_zero.2 fun hmem => hj <| Fin.ext <|
        (hw.flow.recipients j x hmem).2.symm.trans ((congrArg _ hx).trans ha)
    have honly : ∑ j, ((w.log j).credited.count t + (w.log j).credited.count u) =
        (w.log i).credited.count t + (w.log i).credited.count u := by
      refine Finset.sum_eq_single i ?_ (by simp)
      intro j _ hj
      rw [hzero j hj t rfl, hzero j hj u hu.recipient, Nat.add_zero]
    have hsecond : w.remaining.count u = 0 := List.count_eq_zero.2 fun hmem =>
      absurd (hdata u (hsent ▸ List.mem_append_right _ hmem)) (by simp [hu.relayed])
    have hflow := hw.flow.credited t u hu
    rw [honly, hq.pending, hq.pending, hsecond, ← hsent, List.count_append] at hflow
    rw [count_map_first hu]
    omega

end Quiescent

/-- **Relay mode refines the sequential ledger.** Whatever the interleaving of sending, delivering,
    proposing and committing: when no transaction is under way, every account has in its home shard
    the balance the sequential ledger computes from the transactions sent so far. -/
theorem relay_refines_sequential_ledger {cc : Fin S → ChainConfig} {db : Fin S → TrieDB H}
    {bc : Fin S → BlockChain H} {dataset : List Transaction} {w : ShardWorld H S}
    (hid : ∀ i, (cc i).shardID = i) (hnums : ∀ i, (cc i).shardNums = S)
    (hnew : ∀ i, BlockChain.newBlockChain (cc i) Storage.empty (db i) = some (bc i))
    (hdata : ∀ t ∈ dataset, t.relayed = false ∧ t.Ordinary)
    (htotal : totalValue dataset ≤ initBalance)
    (hrun : Reaches (step .relay) (init bc dataset) w) (hq : Quiescent w) :
    ∃ sent, sent ++ w.remaining = dataset ∧ ∀ (i : Fin S) (a : Address), addr2Shard S a = i →
      ∃ st, (w.leaders i).curChain.accounts = some st ∧
        st.balance a = (Ledger.loadFinalResultFromDataset sent).balance a := by
  have hsuffix : w.remaining <:+ dataset :=
    hrun.invariant (I := fun w => w.remaining <:+ dataset) List.suffix_rfl
      fun _ _ _ hw _ hstep => (steps_of_step hstep).remaining_suffix.trans hw
  obtain ⟨sent, hsent⟩ := hsuffix
  refine ⟨sent, hsent, ?_⟩
  intro i a ha
  have hS : 0 < S := i.pos
  have hfirst : ∀ t ∈ dataset, t.relayed = false := fun t ht => (hdata t ht).1
  have hval : ∀ t ∈ dataset, 0 ≤ t.value := fun t ht => (hdata t ht).2.value
  have hqueue : ∀ i, (bc i).txpool.txQueue = [] := fun i =>
    BlockChain.newBlockChain_txQueue (hnew i)
  have hinit : InBalance dataset (init bc dataset) :=
    ⟨static_init hid hnums hnew fun t ht => ⟨hfirst t ht, (hdata t ht).2.hasBroker⟩,
      everywhere_init hqueue fun t ht => (hdata t ht).2, balanced_init hnew dataset,
      flow_init hqueue hfirst⟩
  have hw : InBalance dataset w := hrun.invariant hinit fun _ _ _ hw _ hstep =>
    hw.step hS hval htotal (steps_of_step hstep)
  obtain ⟨st, hst, hbal⟩ := (hw.balanced i).current
  refine ⟨st, hst, ?_⟩
  have hvalSent : ∀ t ∈ sent, 0 ≤ t.value := fun t ht => hval t (hsent ▸ List.mem_append_left _ ht)
  have htotalSent : totalValue sent ≤ initBalance := by
    have hrest : 0 ≤ totalValue w.remaining :=
      totalValue_nonneg fun t ht => hval t (hsent ▸ List.mem_append_right _ ht)
    rw [← hsent, totalValue_append] at htotal
    linarith
  rw [Ledger.balance_loadFinalResultFromDataset hvalSent htotalSent, hbal,
    hw.outflow_eq hq hsent hfirst ha, hw.inflow_eq hq hsent hfirst ha]

section Sample

open BlockChain

set_option maxRecDepth 100000

/-- Alice pays bob and bob pays alice. -/
def exchange : List Transaction :=
  [transfer 5, { transfer 3 with sender := bob, recipient := alice }]

/-- Both shards commit their first halves, and then the second halves of the other's. -/
def exchanging {S : ℕ} (i j : Fin S) : List (ShardAct S) :=
  [.txSending 2, .deliver 0, .deliver 0, .proposeBlock i 0, .proposeBlock j 0, .commit i, .commit j,
    .deliver 0, .deliver 0, .proposeBlock j 1, .proposeBlock i 1, .commit j, .commit i, .deliver 0,
    .deliver 0]

theorem exchange_agrees_with_ledger :
    ∃ w, Reaches (step .relay) (init twoShards exchange) w ∧ Quiescent w ∧
      ∃ sent, sent ++ w.remaining = exchange ∧ w.remaining = [] ∧
        (∃ st, (w.leaders 0).curChain.accounts = some st ∧
          st.balance alice = (Ledger.loadFinalResultFromDataset sent).balance alice) ∧
        ∃ st, (w.leaders 1).curChain.accounts = some st ∧
          st.balance bob = (Ledger.loadFinalResultFromDataset sent).balance bob := by
  have hrun : ∃ w ∈ runActions (step .relay) (init twoShards exchange) (exchanging 0 1),
      Quiescent w ∧ w.remaining = [] := by decide +kernel
  obtain ⟨w, hw, hq, hdone⟩ := hrun
  have hreach := reaches_of_runActions hw
  have hdata : ∀ t ∈ exchange, t.relayed = false ∧ t.Ordinary := by
    intro t ht
    rcases List.mem_pair.1 ht with rfl | rfl <;> exact ⟨rfl, rfl, rfl, by decide⟩
  obtain ⟨sent, hsent, hbal⟩ := relay_refines_sequential_ledger (fun _ => by rfl)
    (fun _ => by rfl) newBlockChain_twoShards hdata (by decide) hreach hq
  exact ⟨w, hreach, hq, sent, hsent, hdone, hbal 0 alice rfl, hbal 1 bob rfl⟩

end Sample

end ShardWorld

end BlockEmulator
