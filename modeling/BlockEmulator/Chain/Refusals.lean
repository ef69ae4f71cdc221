import BlockEmulator.Chain.Settlements

set_option autoImplicit false

/-! # Refused transactions

`GetUpdateStatusTrie` refuses a transaction in its sender branch, for one of two reasons: the sender
cannot pay, or it is a bet and comes too late. In the second case the sender has been debited and
counted before, and is refunded and uncounted; a new account stays in the open trie. None of this can
be told from the balances, the book or the counter, and so a block and the block without its refused
transactions end alike, settlement included.

Both are looked at in the sender branch only. A transaction that arrives relayed, or whose sender lives
elsewhere, is never refused: its recipient is credited, whatever the sender's account here holds
(`BlockChain.relayed_transfer_is_credited`). -/

namespace BlockEmulator

/-- The transaction is refused at its turn: the sender branch applies, and the sender cannot pay or the
    bet is too late. -/
def turnedDown (c : ExecCtx) (st : Accounts) (tx : Transaction) : Bool :=
  takesSender c tx && (decide (st.balance tx.sender < tx.value) || (tx.g2eEnabled && tooClose c tx))

theorem idle_of_turnedDown {c : ExecCtx} {st : Accounts} {tx : Transaction}
    (h : turnedDown c st tx = true) : idle c st tx = true := by
  simp only [turnedDown, Bool.and_eq_true, Bool.or_eq_true, decide_eq_true_eq] at h
  obtain ⟨htake, hwhy⟩ := h
  unfold idle debits credits
  rcases hwhy with hpoor | ⟨hbet, hclose⟩
  · simp [htake, not_le.2 hpoor]
  · simp [htake, hbet, hclose]

/-! ## Dropping what has no effect -/

/-- Two states of the loop that differ at most in nonces and in accounts nobody has paid from or to. -/
structure ExecState.Alike (s s' : ExecState) : Prop where
  balance : ∀ a, s.st.balance a = s'.st.balance a
  book : s.book = s'.book
  cnt : s.cnt = s'.cnt

namespace ExecState.Alike

variable {c : ExecCtx} {s s' : ExecState} {tx : Transaction}

/-- The same transaction does the same, at whatever position. -/
theorem execTx (h : Alike s s') (i j : ℕ) : Alike (execTx c i tx s) (execTx c j tx s') := by
  have hd : debits c s.st tx = debits c s'.st tx := debits_congr h.balance tx
  have hc : credits c s.st tx = credits c s'.st tx := credits_congr h.balance tx
  have hturn := execTx_turn c i tx s
  have hturn' := execTx_turn c j tx s'
  refine ⟨fun a => ?_, ?_, ?_⟩
  · rw [hturn.balance, hturn'.balance, h.balance, hd, hc]
  · rw [hturn.book, hturn'.book, h.book, accepts, accepts, hd]
  · rw [hturn.cnt, hturn'.cnt, h.cnt, hd, hc]

/-- An idle transaction does nothing. -/
theorem execTx_of_idle (h : Alike s s') (hidle : idle c s.st tx = true) (i : ℕ) :
    Alike (BlockEmulator.execTx c i tx s) s' := by
  have hturn := execTx_turn c i tx s
  rw [idle, Bool.and_eq_true, Bool.not_eq_true', Bool.not_eq_true'] at hidle
  refine ⟨fun a => ?_, ?_, ?_⟩
  · rw [hturn.balance, hidle.1, hidle.2, ← h.balance]
    simp
  · rw [hturn.book, accepts, hidle.1, ← h.book]
    rfl
  · rw [hturn.cnt, hidle.1, hidle.2, ← h.cnt]
    rfl

end ExecState.Alike

/-- **Idle transactions can be dropped**, any of them, at their turns. -/
theorem execTxs_atTurn {p : ExecCtx → Accounts → Transaction → Bool} {c : ExecCtx}
    (hp : ∀ st tx, p c st tx = true → idle c st tx = true) (txs : List Transaction) (i j : ℕ)
    {s s' : ExecState} (h : s.Alike s') :
    (execTxs c i txs s).Alike (execTxs c j (atTurn (fun c st tx => !p c st tx) c i txs s) s') := by
  induction txs generalizing i j s s' with
  | nil => exact h
  | cons tx rest ih =>
    rw [execTxs, atTurn]
    cases hdrop : p c s.st tx with
    | true => exact ih (i + 1) j (h.execTx_of_idle (hp s.st tx hdrop) i)
    | false => exact ih (i + 1) (j + 1) (h.execTx i j)

namespace BlockChain

variable {H : Type} [DecidableEq H] [Hashing H]

/-- Two executions that both panic, or end with the same balances under the roots they return and with
    the same book. -/
def EndsWithSame : Option (BlockChain H × H) → Option (BlockChain H × H) → Prop
  | none, none => True
  | some r, some r' =>
    (r.1.triedb.trieNew r.2).map Accounts.balance = (r'.1.triedb.trieNew r'.2).map Accounts.balance ∧
      r.1.g2eBook = r'.1.g2eBook
  | _, _ => False

theorem EndsWithSame.refl : ∀ r : Option (BlockChain H × H), EndsWithSame r r
  | none => trivial
  | some _ => ⟨rfl, rfl⟩

theorem EndsWithSame.commit (bc : BlockChain H) {st st' : Accounts}
    (h : ∀ a, st.balance a = st'.balance a) (bk : G2EBook) :
    EndsWithSame
      (some ({ bc with triedb := bc.triedb.commit st, g2eBook := bk }, Hashing.stateRoot st))
      (some ({ bc with triedb := bc.triedb.commit st', g2eBook := bk }, Hashing.stateRoot st')) := by
  refine ⟨?_, rfl⟩
  simp only [TrieDB.trieNew_commit_self, Option.map_some, Option.some.injEq]
  exact funext h

/-- Two lists whose loops end alike settle the same epoch and have the same effect. -/
theorem getUpdateStatusTrie_of_alike {bc : BlockChain H} {txs txs' : List Transaction}
    {st : Accounts} (hst : bc.accounts = some st)
    (h : (bc.execLoop txs st).Alike (bc.execLoop txs' st)) :
    EndsWithSame (bc.getUpdateStatusTrie txs) (bc.getUpdateStatusTrie txs') ∧
      bc.settlementOf txs = bc.settlementOf txs' := by
  refine ⟨?_, by simp only [settlementOf, hst, h.cnt, h.book]⟩
  have hquiet := quiet_iff_cnt_eq_zero hst
  by_cases hq : bc.Quiet txs
  · have hq' : bc.Quiet txs' := (hquiet txs').2 (h.cnt.symm.trans ((hquiet txs).1 hq))
    rw [getUpdateStatusTrie_of_quiet hq, getUpdateStatusTrie_of_quiet hq']
    exact .refl _
  · have hq' : ¬ bc.Quiet txs' := fun hq' =>
      hq ((hquiet txs).2 (h.cnt.trans ((hquiet txs').1 hq')))
    rw [getUpdateStatusTrie_of_not_quiet hst hq, getUpdateStatusTrie_of_not_quiet hst hq', settle,
      settle, ← h.book]
    cases hepoch : (bc.execLoop txs st).book.getEpoch (bc.height + 1) with
    | none => exact .commit bc h.balance _
    | some eb =>
      cases hstar : chooseWinningPair (bc.height + 1) eb with
      | none =>
        simp only [hstar]
        trivial
      | some star =>
        simp only [hstar]
        exact .commit bc (balance_payEpoch_perm (fun p => .refl (eb.bets p)) h.balance star) _

/-- **Refused transactions have no effect.** A list and the list without the transactions that are
    refused at their turn both panic, or end with the same balances and the same book; and they settle
    the same epoch, or none. -/
theorem refused_txs_have_no_effect (bc : BlockChain H) (txs : List Transaction) :
    EndsWithSame (bc.getUpdateStatusTrie txs)
        (bc.getUpdateStatusTrie (bc.without turnedDown txs)) ∧
      bc.settlementOf txs = bc.settlementOf (bc.without turnedDown txs) := by
  cases hst : bc.accounts with
  | none =>
    have hkept : bc.without turnedDown txs = txs := by rw [without, hst]
    rw [hkept]
    exact ⟨.refl _, rfl⟩
  | some st =>
    refine getUpdateStatusTrie_of_alike hst ?_
    rw [without, hst]
    exact execTxs_atTurn (fun _ _ => idle_of_turnedDown) txs 0 0 ⟨fun _ => rfl, rfl, rfl⟩

/-- The local sender cannot pay, or the transaction is a bet for which the window has closed, whether or
    not the sender branch applies to it. -/
def poorOrLate (c : ExecCtx) (st : Accounts) (tx : Transaction) : Bool :=
  (c.isLocal tx.sender && decide (st.balance tx.sender < tx.value)) ||
    (tx.g2eEnabled && tooClose c tx)

/-- A relayed transfer of more than the sender has here is credited to its recipient; without it nothing
    happens. -/
theorem relayed_transfer_is_credited :
    sampleChain.without poorOrLate [{ transfer (10 ^ 45) with relayed := true }] = [] ∧
      EndsApart (sampleChain.getUpdateStatusTrie [{ transfer (10 ^ 45) with relayed := true }])
        (sampleChain.getUpdateStatusTrie []) bob := by
  decide +kernel

end BlockChain

end BlockEmulator
