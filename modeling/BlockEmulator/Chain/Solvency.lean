import BlockEmulator.Chain.Conservation

set_option autoImplicit false

/-! # Balances stay non-negative

Only the sender side of execution looks at a balance before it changes it; deposits, relayed credits,
refunds and payouts are made unseen. They keep balances non-negative if the amounts are: the amounts of
the transactions, and with them the stakes in the book and the quotient a payout multiplies by.

A state root stands for one account state, whatever database resolves it, so `NonNegRoot` is a property
of the root alone and survives everything that is done to the database. -/

namespace BlockEmulator

/-- No balance is negative. -/
def Accounts.NonNeg (st : Accounts) : Prop := ∀ a, 0 ≤ st.balance a

namespace Accounts.NonNeg

/-- One turn of the transaction loop. A debit is covered; a credit adds the amount. -/
theorem execTx {c : ExecCtx} {i : ℕ} {tx : Transaction} {s : ExecState} (hst : s.st.NonNeg)
    (hval : 0 ≤ tx.value) : (execTx c i tx s).st.NonNeg := by
  intro a
  have hbal := hst a
  rw [(execTx_turn c i tx s).balance]
  have hdebit : (if debits c s.st tx = true ∧ a = tx.sender then tx.value else 0) ≤
      s.st.balance a := by
    split
    · next hd =>
      obtain ⟨hd, rfl⟩ := hd
      simp only [debits, Bool.and_eq_true, decide_eq_true_eq] at hd
      exact hd.1.2
    · exact hbal
  have hcredit : 0 ≤ if credits c s.st tx = true ∧ a = tx.recipient then tx.value else 0 := by
    split
    · exact hval
    · exact le_rfl
  linarith

theorem execTxs {c : ExecCtx} {txs : List Transaction} (htxs : ∀ tx ∈ txs, 0 ≤ tx.value) {i : ℕ}
    {s : ExecState} (hst : s.st.NonNeg) : (execTxs c i txs s).st.NonNeg := by
  induction txs generalizing i s with
  | nil => exact hst
  | cons tx txs ih =>
    obtain ⟨hval, hrest⟩ := List.forall_mem_cons.1 htxs
    exact ih hrest (hst.execTx hval)

theorem payout {st : Accounts} (hst : st.NonNeg) {q : ℤ} (hq : 0 ≤ q) {es : List BetEntry}
    (hes : ∀ e ∈ es, 0 ≤ e.amount) : (payout q es st).NonNeg := by
  intro a
  rw [balance_payout]
  refine add_nonneg (hst a) (List.sum_nonneg (List.forall_mem_map.2 ?_))
  intro e he
  exact mul_nonneg (hes e (List.mem_of_mem_filter he)) hq

/-- The payouts of an epoch: stakes are non-negative, and so is their quotient. -/
theorem payEpoch {st : Accounts} (hst : st.NonNeg) {eb : EpochBook} (heb : eb.NonNeg)
    (star : Pair) : (payEpoch eb star st).NonNeg := by
  unfold BlockEmulator.payEpoch
  simp only
  split
  · next hw =>
    exact hst.payout (Int.ediv_nonneg (heb.loseStake_nonneg star) hw.le) (heb star)
  · exact hst

theorem settle {st st' : Accounts} {bk bk' : G2EBook} {h : ℕ} (hst : st.NonNeg) (hbk : bk.NonNeg)
    (hs : settle h st bk = some (st', bk')) : st'.NonNeg := by
  unfold BlockEmulator.settle at hs
  split at hs
  · rw [Option.some.injEq, Prod.mk.injEq] at hs
    exact hs.1 ▸ hst
  · next eb heb =>
    obtain ⟨star, -, hpay⟩ := Option.map_eq_some_iff.1 hs
    rw [Prod.mk.injEq] at hpay
    exact hpay.1 ▸ hst.payEpoch (hbk h eb heb) star

end Accounts.NonNeg

/-! ## State roots -/

variable {H : Type} [DecidableEq H] [Hashing H]

/-- The accounts under the root, in any database that has them, have no negative balance. -/
def NonNegRoot (root : H) : Prop :=
  ∀ (db : TrieDB H) (st : Accounts), db.trieNew root = some st → st.NonNeg

theorem nonNegRoot_of_trieNew {db : TrieDB H} {root : H} {st : Accounts}
    (h : db.trieNew root = some st) (hst : st.NonNeg) : NonNegRoot root := by
  intro db' st' h'
  exact TrieDB.trieNew_unique h h' ▸ hst

namespace BlockChain

/-- No balance and no stake is negative. -/
structure Solvent (bc : BlockChain H) : Prop where
  root : NonNegRoot bc.stateRoot
  book : bc.g2eBook.NonNeg

theorem Solvent.accounts {bc : BlockChain H} (hbc : bc.Solvent) {st : Accounts}
    (hst : bc.accounts = some st) (a : Address) : 0 ≤ st.balance a :=
  hbc.root bc.triedb st hst a

/-- **One execution.** The new root has no negative balance, and the chain stays solvent. -/
theorem Solvent.getUpdateStatusTrie {bc bc' : BlockChain H} {txs : List Transaction} {rt : H}
    (hbc : bc.Solvent) (htxs : ∀ tx ∈ txs, 0 ≤ tx.value)
    (h : bc.getUpdateStatusTrie txs = some (bc', rt)) : NonNegRoot rt ∧ bc'.Solvent := by
  have hbook : bc'.g2eBook.NonNeg :=
    nonNeg_getUpdateStatusTrie h hbc.book fun tx htx _ => htxs tx htx
  have hroot : bc'.stateRoot = bc.stateRoot := by rw [getUpdateStatusTrie_frame h]; rfl
  refine ⟨?_, hroot ▸ hbc.root, hbook⟩
  rcases getUpdateStatusTrie_cases h with ⟨-, -, rfl⟩ | ⟨-, st, st', bk', hst, hs, -, rfl⟩
  · exact hbc.root
  · have hloop : (bc.execLoop txs st).st.NonNeg :=
      Accounts.NonNeg.execTxs (s := ⟨st, bc.g2eBook, 0⟩) htxs (hbc.root _ st hst)
    have hstakes : (bc.execLoop txs st).book.NonNeg := by
      rw [execLoop_book]
      exact hbc.book.recordBets (NonNegBets.newBets (fun tx htx _ => htxs tx htx) bc st)
    exact nonNegRoot_of_trieNew (TrieDB.trieNew_commit_self .empty st') (hloop.settle hstakes hs)

/-- A proposal; the block is sealed with a root that has no negative balance. -/
theorem Solvent.generateBlockOf {bc bc' : BlockChain H} {b : Block H} {txs : List Transaction}
    {miner : ℤ} {now : ℕ} (hbc : bc.Solvent) (htxs : ∀ tx ∈ txs, 0 ≤ tx.value)
    (h : bc.generateBlockOf txs miner now = some (bc', b)) :
    NonNegRoot b.header.stateRoot ∧ bc'.Solvent := by
  obtain ⟨rt, hexec, rfl⟩ := generateBlockOf_cases h
  exact hbc.getUpdateStatusTrie htxs hexec

/-- `AddBlock` of a block whose root has no negative balance, executed or not. -/
theorem Solvent.addBlock {bc bc' : BlockChain H} {b : Block H} (hbc : bc.Solvent)
    (hroot : NonNegRoot b.header.stateRoot) (hbody : ∀ tx ∈ b.body, 0 ≤ tx.value)
    (h : bc.addBlock b = some bc') : bc'.Solvent := by
  rcases addBlock_cases h with ⟨-, rfl⟩ | ⟨-, -, rfl⟩ | ⟨-, -, bc₁, rt, hexec, rfl⟩
  · exact hbc
  · exact ⟨hroot, hbc.book⟩
  · exact ⟨hroot, (hbc.getUpdateStatusTrie hbody hexec).2.book⟩

/-- A chain that is opened on non-negative balances is solvent. -/
theorem solvent_newBlockChain {cc : ChainConfig} {storage : Storage H} {db : TrieDB H}
    {bc : BlockChain H} (h : newBlockChain cc storage db = some bc)
    (hstart : ∀ st, bc.accounts = some st → st.NonNeg) : bc.Solvent := by
  have hresolves : bc.accounts ≠ none := by
    rcases newBlockChain_cases h with ⟨-, rfl⟩ | ⟨_, _, st, -, -, hroot, rfl⟩
    · simp [accounts, stateRoot, newGenisisBlock, TrieDB.trieNew]
    · rw [accounts, stateRoot, hroot]
      exact Option.some_ne_none st
  obtain ⟨st, hst⟩ := Option.ne_none_iff_exists'.1 hresolves
  refine ⟨nonNegRoot_of_trieNew hst (hstart st hst), ?_⟩
  rw [(newBlockChain_spec h).2.2.2.1]
  intro height eb heb
  exact absurd heb (by simp [G2EBook.getEpoch])

/-- A block is generated and appended. -/
theorem Solvent.mineOf {bc bc' : BlockChain H} {txs : List Transaction} {miner : ℤ} {now : ℕ}
    (hbc : bc.Solvent) (htxs : ∀ tx ∈ txs, 0 ≤ tx.value)
    (h : bc.mineOf txs miner now = some bc') : bc'.Solvent := by
  obtain ⟨⟨bc₁, b⟩, hgen, hadd⟩ := Option.bind_eq_some_iff.1 h
  obtain ⟨hroot, hbc₁⟩ := hbc.generateBlockOf htxs hgen
  have hbody : b.body = txs := by
    obtain ⟨rt, -, rfl⟩ := generateBlockOf_cases hgen
    rfl
  exact hbc₁.addBlock hroot (hbody ▸ htxs) hadd

/-- The chain after its leader has mined the given lists, a block each. -/
def mineGroups (bc : BlockChain H) (miner : ℤ) (now : ℕ) :
    List (List Transaction) → Option (BlockChain H)
  | [] => some bc
  | txs :: rest => (bc.mineOf txs miner now).bind fun bc' => bc'.mineGroups miner now rest

theorem Solvent.mineGroups {bc bc' : BlockChain H} {miner : ℤ} {now : ℕ}
    {groups : List (List Transaction)} (hbc : bc.Solvent)
    (hgroups : ∀ txs ∈ groups, ∀ tx ∈ txs, 0 ≤ tx.value)
    (h : bc.mineGroups miner now groups = some bc') : bc'.Solvent := by
  induction groups generalizing bc with
  | nil => exact Option.some.inj h ▸ hbc
  | cons txs rest ih =>
    obtain ⟨htxs, hrest⟩ := List.forall_mem_cons.1 hgroups
    obtain ⟨bc₁, hmine, h⟩ := Option.bind_eq_some_iff.1 h
    exact ih (hbc.mineOf htxs hmine) hrest h

end BlockChain

end BlockEmulator
