import BlockEmulator.Shard.Bets
import BlockEmulator.Shard.Static
import Mathlib.Algebra.Order.BigOperators.Group.Finset

set_option autoImplicit false

/-! # Credits of relayed transactions

Whether a transaction is debited is decided when its block is executed; whether it is relayed is
decided afterwards from the block alone. So a relayed transaction was debited exactly if every
transaction with a remote recipient is debited at its turn; then every credit of a relayed
transaction stands for a debit in the shard that relayed it. -/

namespace BlockEmulator

variable {H : Type} [DecidableEq H] [Hashing H] {S : ℕ}

/-- The transaction leaves the shard but is not debited at its turn. -/
def unpaidRelay (c : ExecCtx) (st : Accounts) (tx : Transaction) : Bool :=
  !c.isLocal tx.recipient && !debits c st tx

/-! ## One block -/

theorem count_atTurn_le (p : ExecCtx → Accounts → Transaction → Bool) (c : ExecCtx) (i : ℕ)
    (txs : List Transaction) (s : ExecState) (t : Transaction) :
    (atTurn p c i txs s).count t ≤ txs.count t := by
  induction txs generalizing i s with
  | nil => exact le_rfl
  | cons tx txs ih =>
    have hrest := ih (i + 1) (execTx c i tx s)
    rw [atTurn, List.count_append, List.count_cons]
    split
    · rw [List.count_singleton]
      omega
    · rw [List.count_nil]
      omega

/-- If no transaction leaves unpaid, those that leave are among the debited ones. -/
theorem count_remote_le {c : ExecCtx} {txs : List Transaction}
    (hfresh : ∀ tx ∈ txs, c.isLocal tx.recipient = false → tx.relayed = false) {i : ℕ}
    {s : ExecState} (hpaid : atTurn unpaidRelay c i txs s = []) (t : Transaction) :
    ((txs.filter fun tx => !c.isLocal tx.recipient).map
      fun tx => { tx with relayed := true }).count t ≤
        (atTurn debits c i txs s).count { t with relayed := false } := by
  induction txs generalizing i s with
  | nil => exact le_rfl
  | cons tx txs ih =>
    obtain ⟨hhead, hrest⟩ := List.forall_mem_cons.1 hfresh
    rw [atTurn, List.append_eq_nil_iff] at hpaid
    have hle := ih hrest hpaid.2
    rw [atTurn, List.count_append]
    cases hlocal : c.isLocal tx.recipient with
    | true =>
      rw [List.filter_cons_of_neg (by simp [hlocal])]
      omega
    | false =>
      have hdebit : debits c s.st tx = true := by
        by_contra hno
        simp [unpaidRelay, hlocal, hno] at hpaid
      rw [List.filter_cons_of_pos (by simp [hlocal]), List.map_cons, List.count_cons, if_pos hdebit]
      split
      · next heq =>
          have htx : tx = { t with relayed := false } := by
            rw [← eq_of_beq heq, ← hhead hlocal]
          rw [htx, List.count_singleton_self]
          rw [htx] at hle
          omega
      · omega

namespace BlockChain

theorem count_atTurnOf_le (bc : BlockChain H) (p : ExecCtx → Accounts → Transaction → Bool)
    (b : Block H) (t : Transaction) : (bc.atTurnOf p b).count t ≤ b.body.count t := by
  unfold atTurnOf
  split
  · simp
  · split
    · exact count_atTurn_le ..
    · simp

theorem relayedTxs_eq (bc : BlockChain H) (body : List Transaction) :
    bc.relayedTxs body = (body.filter fun tx => !bc.ctx.isLocal tx.recipient).map
      fun tx => { tx with relayed := true } := by
  unfold relayedTxs
  congr 1
  refine List.filter_congr ?_
  intro tx _
  by_cases h : bc.getPartitionMap tx.recipient = bc.chainConfig.shardID <;> simp [ctx, h]

/-- What a block relays was debited by it. -/
theorem count_relayedTxs_le {bc : BlockChain H} {b : Block H} (hacc : bc.accounts ≠ none)
    (hext : bc.Extends b)
    (hfresh : ∀ tx ∈ b.body, bc.ctx.isLocal tx.recipient = false → tx.relayed = false)
    (hpaid : bc.atTurnOf unpaidRelay b = []) (t : Transaction) :
    (bc.relayedTxs b.body).count t ≤ (bc.atTurnOf debits b).count { t with relayed := false } := by
  obtain ⟨st, hst⟩ := Option.ne_none_iff_exists'.1 hacc
  simp only [atTurnOf, hst, if_pos hext] at hpaid ⊢
  rw [relayedTxs_eq]
  exact count_remote_le hfresh hpaid t

end BlockChain

/-- A transaction that leaves its home is on its first half. -/
theorem StaticLeader.relayed_eq_false {i : ℕ} {n : Leader H} (hn : StaticLeader S i n)
    {t : Transaction} (hhome : AtHome S i t) (hremote : n.curChain.ctx.isLocal t.recipient = false) :
    t.relayed = false := by
  by_contra hrel
  rw [AtHome, if_pos (by simpa using hrel)] at hhome
  rw [(hn.isLocal_iff _).2 hhome] at hremote
  exact absurd hremote (by simp)

/-! ## Whole runs -/

namespace ShardWorld

/-- The block that a commit adds relays nothing that it has not debited. -/
def RelaysPaid (w : ShardWorld H S) : ShardAct S → Prop
  | .commit i => ∀ b ∈ (w.leaders i).proposedBlock,
      (w.leaders i).curChain.atTurnOf unpaidRelay b = []
  | _ => True

instance (w : ShardWorld H S) : (a : ShardAct S) → Decidable (w.RelaysPaid a)
  | .commit i => inferInstanceAs (Decidable (∀ b ∈ (w.leaders i).proposedBlock, _ = []))
  | .txSending _ | .clpaMapSend _ | .deliver _ | .proposeBlock _ _ | .sendPartitionReady _
  | .sendAccountsAndTxs _ _ | .proposePartition _ _ _ => .isTrue trivial

/-- Every credit of a relayed transaction, past or to come, stands for one relay of it, and every
    relay for a debit in the same shard. -/
structure CreditsBacked (w : ShardWorld H S) : Prop where
  relayed : ∀ t, t.relayed = true →
    ∑ i, (w.log i).credited.count t + w.pending t ≤ ∑ i, (w.log i).relayed.count t
  paid : ∀ t i, (w.log i).relayed.count t ≤ (w.log i).debited.count { t with relayed := false }
  away : ∀ i : Fin S, ∀ t ∈ (w.log i).relayed, addr2Shard S t.recipient ≠ i
  home : ∀ i : Fin S, ∀ t ∈ (w.log i).credited, t.relayed = true → addr2Shard S t.recipient = i

theorem creditsBacked_init {bc : Fin S → BlockChain H} (hbc : ∀ i, (bc i).txpool.txQueue = [])
    {dataset : List Transaction} (hdata : ∀ t ∈ dataset, t.Fresh) :
    CreditsBacked (init bc dataset) where
  relayed := fun t ht => by
    have hnone : dataset.count t = 0 := List.count_eq_zero.2 fun hmem => by
      rw [(hdata t hmem).1] at ht
      exact absurd ht (by simp)
    simp [init, pending, hnone, Leader.held, Leader.new, Leader.proposedBlock, hbc]
  paid := by simp [init]
  away := by simp [init]
  home := by simp [init]

theorem CreditsBacked.step {w w' : ShardWorld H S} {a : ShardAct S} (hw : CreditsBacked w)
    (hstatic : Static w) (hpaid : w.RelaysPaid a) (h : LedgerStep w a w') : CreditsBacked w' := by
  cases h with
  | same hlog hpend =>
    refine ⟨?_, ?_, ?_, ?_⟩
    · intro t ht
      rw [hlog, hpend]
      exact hw.relayed t ht
    · rw [hlog]
      exact hw.paid
    · rw [hlog]
      exact hw.away
    · rw [hlog]
      exact hw.home
  | commit i b ha hb hlog hpend =>
    subst ha
    have hn := hstatic.leaders i
    have hhome : ∀ t ∈ b.body, AtHome S i t :=
      (hstatic.atHome.leaders i).proposed b (Leader.mem_proposedBlock.1 hb)
    -- the block credits no more than it holds, and relays no more than it debits
    have hcred := (w.leaders i).curChain.count_atTurnOf_le credits b
    have hdeb := BlockChain.count_relayedTxs_le hn.resolves (hn.proposed b hb).1
      (fun t ht => hn.relayed_eq_false (hhome t ht)) (hpaid b hb)
    refine ⟨?_, ?_, ?_, ?_⟩
    · intro t ht
      have hsum := sum_update_add w.log (fun l => l.credited.count t) i
        ((w.log i).add (w.leaders i).curChain b true)
      have hsum' := sum_update_add w.log (fun l => l.relayed.count t) i
        ((w.log i).add (w.leaders i).curChain b true)
      simp only [ShardLog.add, List.count_append, if_true] at hsum hsum'
      have hback := hw.relayed t ht
      have hflow := hpend t
      have hle := hcred t
      simp only [hlog, ShardLog.add, if_true]
      omega
    · intro t
      rw [hlog, forall_log_update (p := fun _ l =>
        l.relayed.count t ≤ l.debited.count { t with relayed := false })]
      refine ⟨?_, fun j _ => hw.paid t j⟩
      simp only [ShardLog.add, List.count_append, if_true]
      exact Nat.add_le_add (hw.paid t i) (hdeb t)
    · rw [hlog, forall_log_update (p := fun j l => ∀ t ∈ l.relayed, addr2Shard S t.recipient ≠ j)]
      refine ⟨?_, fun j _ => hw.away j⟩
      intro t ht
      rcases List.mem_append.1 ht with ht | ht
      · exact hw.away i t ht
      · obtain ⟨tx, htx, rfl⟩ := List.mem_map.1 ht
        have hremote := of_decide_eq_true (List.mem_filter.1 htx).2
        rw [hn.getPartitionMap] at hremote
        exact fun heq => hremote (heq.trans hn.shardID.symm)
    · rw [hlog, forall_log_update (p := fun j l => ∀ t ∈ l.credited, t.relayed = true →
        addr2Shard S t.recipient = j)]
      refine ⟨?_, fun j _ => hw.home j⟩
      intro t ht hrel
      rcases List.mem_append.1 ht with ht | ht
      · exact hw.home i t ht hrel
      · have hat := hhome t (BlockChain.of_mem_atTurnOf ht).1
        rwa [AtHome, if_pos hrel] at hat

/-- **Credits of relayed transactions are backed by debits.** In every run of relay mode whose
    commits relay nothing unpaid: what is credited as relayed in one shard was relayed and debited by
    another, no shard relays more often than it debits, and so the credits never exceed the debits. -/
theorem relayed_credits_backed {cc : Fin S → ChainConfig} {db : Fin S → TrieDB H}
    {bc : Fin S → BlockChain H} {dataset : List Transaction} {w : ShardWorld H S}
    (hid : ∀ i, (cc i).shardID = i) (hnums : ∀ i, (cc i).shardNums = S)
    (hnew : ∀ i, BlockChain.newBlockChain (cc i) Storage.empty (db i) = some (bc i))
    (hdata : ∀ t ∈ dataset, t.Fresh)
    (hrun : ReachesUnder (step .relay) RelaysPaid (init bc dataset) w) {t : Transaction}
    (ht : t.relayed = true) :
    (∀ d, t ∈ (w.log d).credited → ∃ s, s ≠ d ∧ t ∈ (w.log s).relayed ∧
      { t with relayed := false } ∈ (w.log s).debited) ∧
    (∀ s, (w.log s).relayed.count t ≤ (w.log s).debited.count { t with relayed := false }) ∧
    ∑ d, (w.log d).credited.count t ≤ ∑ s, (w.log s).debited.count { t with relayed := false } := by
  rcases Nat.eq_zero_or_pos S with rfl | hS
  · exact ⟨fun d => d.elim0, fun s => s.elim0, by simp⟩
  have hqueue : ∀ i, (bc i).txpool.txQueue = [] := fun i =>
    BlockChain.newBlockChain_txQueue (hnew i)
  have hinv : Static w ∧ CreditsBacked w := by
    refine hrun.invariant (I := fun w => Static w ∧ CreditsBacked w)
      ⟨static_init hid hnums hnew hdata, creditsBacked_init hqueue hdata⟩ ?_
    rintro w a w' ⟨hstatic, hw⟩ hpaid hstep
    have hsteps := steps_of_step hstep
    have hledger := hstatic.ledgerStep hS (hstatic.staticStep hsteps)
    exact ⟨hstatic.step hsteps, hw.step hstatic hpaid hledger⟩
  obtain ⟨-, hw⟩ := hinv
  have hpaid := hw.paid t
  have htotal := hw.relayed t ht
  refine ⟨?_, hpaid, ?_⟩
  · intro d hd
    have hone : 0 < ∑ s, (w.log s).relayed.count t := by
      have hpos : 0 < (w.log d).credited.count t := List.count_pos_iff.2 hd
      have hle : (w.log d).credited.count t ≤ ∑ i, (w.log i).credited.count t :=
        Finset.single_le_sum (f := fun i => (w.log i).credited.count t) (fun _ _ => Nat.zero_le _)
          (Finset.mem_univ d)
      omega
    obtain ⟨s, -, hs⟩ := Finset.exists_ne_zero_of_sum_ne_zero hone.ne'
    have hpos : 0 < (w.log s).relayed.count t := Nat.pos_of_ne_zero hs
    have hmem := List.count_pos_iff.1 hpos
    refine ⟨s, ?_, hmem, List.count_pos_iff.1 (hpos.trans_le (hpaid s))⟩
    rintro rfl
    exact hw.away s t hmem (hw.home s t hd ht)
  · exact (Nat.le_add_right _ _).trans (htotal.trans (Finset.sum_le_sum fun s _ => hpaid s))

section Sample

open BlockChain

set_option maxRecDepth 100000

/-- A transfer that alice can pay reaches bob in the other shard. -/
theorem crossing_transfer_backed :
    ∃ w, ReachesUnder (step .relay) RelaysPaid (init twoShards [transfer 5]) w ∧
      { transfer 5 with relayed := true } ∈ (w.log 1).credited ∧
      ∃ s, s ≠ 1 ∧ { transfer 5 with relayed := true } ∈ (w.log s).relayed ∧
        transfer 5 ∈ (w.log s).debited := by
  have hrun : ∃ w ∈ runChecked (step .relay) (fun w a => decide (w.RelaysPaid a))
      (init twoShards [transfer 5]) crossing,
      { transfer 5 with relayed := true } ∈ (w.log 1).credited := by decide +kernel
  obtain ⟨w, hw, hcredit⟩ := hrun
  have hreach := reachesUnder_of_runDecided hw
  have hdata : ∀ t ∈ [transfer 5], t.Fresh := by simp [Transaction.Fresh, transfer]
  have hback := relayed_credits_backed (fun _ => by rfl) (fun _ => by rfl)
    newBlockChain_twoShards hdata hreach (t := { transfer 5 with relayed := true }) rfl
  exact ⟨w, hreach, hcredit, hback.1 1 hcredit⟩

/-- A transfer that alice cannot pay is refused in the first shard and credited in the second. -/
theorem refused_transfer_is_credited :
    ∃ w, Reaches (step .relay) (init twoShards [transfer (initBalance + 1)]) w ∧
      (∀ i, (w.log i).debited = []) ∧
      { transfer (initBalance + 1) with relayed := true } ∈ (w.log 1).credited ∧
      ∃ st, (w.leaders 1).curChain.accounts = some st ∧
        st.balance bob = initBalance + (initBalance + 1) := by
  have hrun : ∃ w ∈ runActions (step .relay) (init twoShards [transfer (initBalance + 1)]) crossing,
      (∀ i, (w.log i).debited = []) ∧
      { transfer (initBalance + 1) with relayed := true } ∈ (w.log 1).credited ∧
      ∃ st ∈ (w.leaders 1).curChain.accounts,
        st.balance bob = initBalance + (initBalance + 1) := by decide +kernel
  obtain ⟨w, hw, hdeb, hcredit, st, hst, hbal⟩ := hrun
  exact ⟨w, reaches_of_runActions hw, hdeb, hcredit, st, hst, hbal⟩

end Sample

end ShardWorld

end BlockEmulator
