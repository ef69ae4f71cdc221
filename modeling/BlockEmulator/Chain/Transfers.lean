import BlockEmulator.Chain.Propose

set_option autoImplicit false

/-! # Ordinary transfers

The sequential ledger of `query/resultcheck_test.go`, and what a chain does with transactions that
are neither bets nor sent through a broker. As long as every account could pay for all transactions
at once no debit is refused, and then both come down to the same sums: the initial balance, less what
goes out, plus what comes in. -/

namespace BlockEmulator

/-- No bet, not sent through a broker, and of a value that is not negative. -/
structure Transaction.Ordinary (tx : Transaction) : Prop where
  hasBroker : tx.hasBroker = false
  g2eEnabled : tx.g2eEnabled = false
  value : 0 ≤ tx.value

/-- The value of a list of transactions. -/
def totalValue (txs : List Transaction) : ℤ := (txs.map Transaction.value).sum

theorem totalValue_cons (tx : Transaction) (txs : List Transaction) :
    totalValue (tx :: txs) = tx.value + totalValue txs := by
  simp [totalValue]

theorem totalValue_append (txs txs' : List Transaction) :
    totalValue (txs ++ txs') = totalValue txs + totalValue txs' := by
  simp [totalValue]

theorem totalValue_nonneg {txs : List Transaction} (h : ∀ tx ∈ txs, 0 ≤ tx.value) :
    0 ≤ totalValue txs :=
  List.sum_nonneg (List.forall_mem_map.2 h)

theorem inflow_nonneg {txs : List Transaction} (h : ∀ tx ∈ txs, 0 ≤ tx.value) (a : Address) :
    0 ≤ inflow a txs := by
  refine List.sum_nonneg (List.forall_mem_map.2 ?_)
  intro tx htx
  split
  · exact h tx htx
  · exact le_rfl

theorem outflow_le_totalValue {txs : List Transaction} (h : ∀ tx ∈ txs, 0 ≤ tx.value)
    (a : Address) : outflow a txs ≤ totalValue txs := by
  refine List.sum_le_sum ?_
  intro tx htx
  split
  · exact le_rfl
  · exact h tx htx

/-! ## The sequential ledger -/

/-- The map of `loadFinalResultFromDataset`. -/
abbrev Ledger := Finmap fun _ : Address => ℤ

namespace Ledger

/-- The balance of an address; one that is not in the map has `Init_Balance`. -/
def balance (l : Ledger) (a : Address) : ℤ := (l.lookup a).getD initBalance

/-- Give an address its initial balance if it is not in the map. -/
def touch (l : Ledger) (a : Address) : Ledger :=
  if a ∈ l then l else Finmap.insert a initBalance l

/-- The body of the loop, once a row has been read as a transaction. -/
def transfer (l : Ledger) (tx : Transaction) : Ledger :=
  let l := (l.touch tx.sender).touch tx.recipient
  if tx.value ≤ l.balance tx.sender then
    let l : Ledger := Finmap.insert tx.sender (l.balance tx.sender - tx.value) l
    Finmap.insert tx.recipient (l.balance tx.recipient + tx.value) l
  else l

/-- `loadFinalResultFromDataset` on the transactions of the dataset. -/
def loadFinalResultFromDataset (txs : List Transaction) : Ledger := txs.foldl transfer ∅

@[simp]
theorem balance_empty (a : Address) : balance ∅ a = initBalance := rfl

theorem balance_insert (l : Ledger) (b a : Address) (v : ℤ) :
    balance (Finmap.insert b v l) a = if a = b then v else l.balance a := by
  unfold balance
  by_cases h : a = b
  · subst h; simp
  · rw [Finmap.lookup_insert_of_ne _ h, if_neg h]

@[simp]
theorem balance_touch (l : Ledger) (b a : Address) : (l.touch b).balance a = l.balance a := by
  unfold touch
  split
  · rfl
  · next hmem =>
      rw [balance_insert]
      split
      · next heq => rw [balance, heq, Finmap.lookup_eq_none.2 hmem, Option.getD_none]
      · rfl

theorem balance_transfer {l : Ledger} {tx : Transaction} (h : tx.value ≤ l.balance tx.sender)
    (a : Address) :
    (l.transfer tx).balance a = l.balance a - (if a = tx.sender then tx.value else 0)
      + if a = tx.recipient then tx.value else 0 := by
  simp only [transfer, balance_touch, if_pos h, balance_insert]
  by_cases hr : a = tx.recipient
  · subst hr
    by_cases hs : tx.recipient = tx.sender <;> simp [hs]
  · by_cases hs : a = tx.sender
    · subst hs
      simp [hr]
    · simp [hr, hs]

/-- A ledger that can pay for everything refuses nothing. -/
theorem balance_foldl_transfer {txs : List Transaction} (hval : ∀ tx ∈ txs, 0 ≤ tx.value)
    {l : Ledger} (hcov : ∀ a, totalValue txs ≤ l.balance a) (a : Address) :
    (txs.foldl transfer l).balance a = l.balance a - outflow a txs + inflow a txs := by
  induction txs generalizing l with
  | nil => simp [outflow, inflow]
  | cons tx txs ih =>
    obtain ⟨hv, hval⟩ := List.forall_mem_cons.1 hval
    have hrest := totalValue_nonneg hval
    simp only [totalValue_cons] at hcov
    have hpay : tx.value ≤ l.balance tx.sender := by linarith [hcov tx.sender]
    have hbal := balance_transfer hpay
    have hcov' : ∀ b, totalValue txs ≤ (l.transfer tx).balance b := fun b => by
      rw [hbal]
      split <;> split <;> linarith [hcov b]
    rw [List.foldl_cons, ih hval hcov', hbal]
    simp only [outflow, inflow, List.map_cons, List.sum_cons]
    ring

theorem balance_loadFinalResultFromDataset {txs : List Transaction}
    (hval : ∀ tx ∈ txs, 0 ≤ tx.value) (htotal : totalValue txs ≤ initBalance) (a : Address) :
    (loadFinalResultFromDataset txs).balance a = initBalance - outflow a txs + inflow a txs :=
  balance_foldl_transfer (l := ∅) hval (fun _ => htotal) a

end Ledger

/-! ## Ordinary transfers in a block -/

/-- A transaction whose turn it is in this shard: the second half of a transfer to a local account,
    or the first half of one from a local account. -/
def ExecCtx.Due (c : ExecCtx) (tx : Transaction) : Prop :=
  c.isLocal (if tx.relayed then tx.recipient else tx.sender) = true

theorem accepts_of_ordinary {tx : Transaction} (h : tx.Ordinary) (c : ExecCtx) (st : Accounts) :
    accepts c st tx = false := by
  simp [accepts, h.g2eEnabled]

theorem atTurn_accepts_of_ordinary {txs : List Transaction} (h : ∀ tx ∈ txs, tx.Ordinary)
    (c : ExecCtx) (i : ℕ) (s : ExecState) : atTurn accepts c i txs s = [] := by
  refine List.eq_nil_iff_forall_not_mem.2 ?_
  intro tx htx
  obtain ⟨hmem, st, hacc⟩ := of_mem_atTurn htx
  rw [accepts_of_ordinary (h tx hmem)] at hacc
  exact absurd hacc (by simp)

theorem debits_of_ordinary {c : ExecCtx} {st : Accounts} {tx : Transaction} (h : tx.Ordinary)
    (hdue : c.Due tx) (hpay : tx.relayed = false → tx.value ≤ st.balance tx.sender) :
    debits c st tx = !tx.relayed := by
  cases hrel : tx.relayed with
  | true => simp [debits, takesSender, hrel]
  | false =>
    rw [ExecCtx.Due, hrel] at hdue
    have hlocal : c.isLocal tx.sender = true := hdue
    simp [debits, takesSender, hrel, hlocal, hpay hrel, h.g2eEnabled]

theorem credits_of_ordinary {c : ExecCtx} {st : Accounts} {tx : Transaction} (h : tx.Ordinary)
    (hpay : tx.relayed = false → tx.value ≤ st.balance tx.sender) :
    credits c st tx = c.isLocal tx.recipient := by
  cases hrel : tx.relayed with
  | true => simp [credits, takesSender, hrel, h.hasBroker]
  | false => simp [credits, hpay hrel, h.g2eEnabled, h.hasBroker]

/-- **No debit is refused.** If every local account can pay for the block, exactly the first halves in
    it are debited and exactly those with a local recipient are credited. -/
theorem atTurn_of_payable {c : ExecCtx} {txs : List Transaction} (hord : ∀ tx ∈ txs, tx.Ordinary)
    (hdue : ∀ tx ∈ txs, c.Due tx) {i : ℕ} {s : ExecState}
    (hcov : ∀ a, c.isLocal a = true →
      totalValue (txs.filter fun tx => !tx.relayed) ≤ s.st.balance a) :
    atTurn debits c i txs s = (txs.filter fun tx => !tx.relayed) ∧
      atTurn credits c i txs s = txs.filter fun tx => c.isLocal tx.recipient := by
  induction txs generalizing i s with
  | nil => exact ⟨rfl, rfl⟩
  | cons tx txs ih =>
    obtain ⟨htx, hord⟩ := List.forall_mem_cons.1 hord
    obtain ⟨hhead, hdue⟩ := List.forall_mem_cons.1 hdue
    have hval := htx.value
    have hrest : 0 ≤ totalValue (txs.filter fun tx => !tx.relayed) :=
      totalValue_nonneg fun t ht => (hord t (List.mem_of_mem_filter ht)).value
    -- the head costs its value if it is a first half, and nothing otherwise
    have hsplit : totalValue ((tx :: txs).filter fun tx => !tx.relayed) =
        (if tx.relayed then 0 else tx.value) + totalValue (txs.filter fun tx => !tx.relayed) := by
      cases hrel : tx.relayed <;> simp [hrel, totalValue_cons]
    simp only [hsplit] at hcov
    have hpay : tx.relayed = false → tx.value ≤ s.st.balance tx.sender := fun hrel => by
      have hlocal : c.isLocal tx.sender = true := by
        rw [ExecCtx.Due, hrel] at hhead
        exact hhead
      have hle := hcov tx.sender hlocal
      rw [hrel] at hle
      simp only [Bool.false_eq_true, if_false] at hle
      linarith
    have hdebit := debits_of_ordinary htx hhead hpay
    have hcredit := credits_of_ordinary (c := c) htx hpay
    have hcov' : ∀ a, c.isLocal a = true → totalValue (txs.filter fun tx => !tx.relayed) ≤
        (execTx c i tx s).st.balance a := fun a ha => by
      have hcost : (if debits c s.st tx = true ∧ a = tx.sender then tx.value else 0) ≤
          if tx.relayed then 0 else tx.value := by
        rw [hdebit]
        cases tx.relayed <;> simp only [Bool.not_true, Bool.not_false] <;> split_ifs <;> simp_all
      have hgain : 0 ≤ if credits c s.st tx = true ∧ a = tx.recipient then tx.value else 0 := by
        split_ifs
        · exact hval
        · exact le_rfl
      rw [(execTx_turn c i tx s).balance]
      linarith [hcov a ha]
    obtain ⟨hdebits, hcredits⟩ := ih hord hdue hcov'
    rw [atTurn, atTurn, hdebits, hcredits, hdebit, hcredit]
    constructor
    · cases hrel : tx.relayed <;> simp [hrel]
    · cases hloc : c.isLocal tx.recipient <;> simp [hloc]

theorem atTurn_of_covered {c : ExecCtx} {txs : List Transaction} (hord : ∀ tx ∈ txs, tx.Ordinary)
    (hdue : ∀ tx ∈ txs, c.Due tx) {i : ℕ} {s : ExecState}
    (hcov : ∀ a, totalValue (txs.filter fun tx => !tx.relayed) ≤ s.st.balance a) :
    atTurn debits c i txs s = (txs.filter fun tx => !tx.relayed) ∧
      atTurn credits c i txs s = txs.filter fun tx => c.isLocal tx.recipient :=
  atTurn_of_payable hord hdue fun a _ => hcov a

/-! ## Executing ordinary transfers -/

namespace BlockChain

variable {H : Type} [DecidableEq H] [Hashing H]

/-- A block that is quiet debits and credits nobody. -/
theorem atTurn_of_quiet {bc : BlockChain H} {txs : List Transaction} {st : Accounts}
    (hst : bc.accounts = some st) (h : bc.Quiet txs) :
    atTurn debits bc.ctx 0 txs ⟨st, bc.g2eBook, 0⟩ = [] ∧
      atTurn credits bc.ctx 0 txs ⟨st, bc.g2eBook, 0⟩ = [] := by
  have hidle : ∀ tx ∈ txs, idle bc.ctx st tx = true := by
    rcases h with rfl | ⟨st', hst', hidle⟩
    · simp
    · rw [hst, Option.some.injEq] at hst'
      exact hst' ▸ hidle
  have hcnt := execTxs_cnt bc.ctx 0 txs ⟨st, bc.g2eBook, 0⟩
  rw [(execTxs_cnt_eq_iff bc.ctx 0 txs ⟨st, bc.g2eBook, 0⟩).2 hidle] at hcnt
  exact ⟨List.eq_nil_of_length_eq_zero (by omega), List.eq_nil_of_length_eq_zero (by omega)⟩

/-- **Executing ordinary transfers** on an empty book leaves the book empty and moves the balances
    by what is debited and credited. -/
theorem getUpdateStatusTrie_of_ordinary {bc bc' : BlockChain H} {txs : List Transaction} {rt : H}
    {st : Accounts} (h : bc.getUpdateStatusTrie txs = some (bc', rt))
    (hord : ∀ tx ∈ txs, tx.Ordinary) (hbook : bc.g2eBook = ∅) (hst : bc.accounts = some st) :
    bc'.g2eBook = ∅ ∧ ∃ st', bc'.triedb.trieNew rt = some st' ∧ ∀ a, st'.balance a =
      st.balance a - outflow a (atTurn debits bc.ctx 0 txs ⟨st, bc.g2eBook, 0⟩)
        + inflow a (atTurn credits bc.ctx 0 txs ⟨st, bc.g2eBook, 0⟩) := by
  rcases getUpdateStatusTrie_cases h with ⟨hq, rfl, rfl⟩ | ⟨-, st₀, st', bk', hst₀, hs, rfl, rfl⟩
  · obtain ⟨hdebits, hcredits⟩ := atTurn_of_quiet hst hq
    refine ⟨hbook, st, hst, ?_⟩
    intro a
    rw [hdebits, hcredits]
    simp [outflow, inflow]
  · rw [hst, Option.some.injEq] at hst₀
    subst hst₀
    have hempty : (bc.execLoop txs st).book = ∅ := by
      rw [execLoop_book, newBets, acceptedBets, atTurn_accepts_of_ordinary hord, hbook]
      rfl
    have hsettle : settle (bc.height + 1) (bc.execLoop txs st).st ∅ =
        some ((bc.execLoop txs st).st, ∅) := rfl
    rw [hempty, hsettle, Option.some.injEq, Prod.mk.injEq] at hs
    obtain ⟨rfl, rfl⟩ := hs
    exact ⟨rfl, _, TrieDB.trieNew_commit_self _ _, fun a => execTxs_balance _ _ _ _ a⟩

end BlockChain

end BlockEmulator
