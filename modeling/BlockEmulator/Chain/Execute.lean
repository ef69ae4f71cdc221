import BlockEmulator.Chain.Book

set_option autoImplicit false

/-! # Executing the transactions of a block

The transaction loop and the settlement of `GetUpdateStatusTrie`. The loop reads three things of the
chain besides the trie and the book: which addresses live in this shard, the current height and the
betting window `params.G2E_Beta`. They make up an `ExecCtx`.

What one turn of the loop does is said once, by `execTx_balance`, `execTx_book` and `execTx_cnt`, in
terms of four questions about the transaction: does the sender branch apply (`takesSender`), does it
end in a debit (`debits`), in a recorded bet (`accepts`), and is the recipient credited
(`credits`). -/

namespace BlockEmulator

/-- What execution reads of the chain. -/
structure ExecCtx where
  isLocal : Address → Bool
  curH : ℕ
  beta : ℕ

/-- What the transaction loop carries: the open trie, the book and the counter `cnt`. -/
structure ExecState where
  st : Accounts
  book : G2EBook
  cnt : ℕ

/-- The second half of the loop body: credit the recipient if it is local. -/
def creditRecipient (c : ExecCtx) (i : ℕ) (tx : Transaction) (s : ExecState) : ExecState :=
  if c.isLocal tx.recipient || tx.hasBroker then
    { s with
      st := Finmap.insert tx.recipient ((s.st.getOrNew tx.recipient i).deposit tx.value) s.st
      cnt := s.cnt + 1 }
  else s

/-- One turn of the transaction loop; `i` is the position in the block, which a new account gets as
    its nonce. -/
def execTx (c : ExecCtx) (i : ℕ) (tx : Transaction) (s : ExecState) : ExecState :=
  if !tx.relayed && (c.isLocal tx.sender || tx.hasBroker) then
    let sState := s.st.getOrNew tx.sender i
    if sState.balance < tx.value then s
    else
      let sState := (sState.deduct tx.value).2
      let st := Finmap.insert tx.sender sState s.st
      if tx.g2eEnabled then
        if tx.height < u64 (c.curH + u64 c.beta) then
          -- too close: the debit is rolled back, and `cnt` with it
          { s with st := Finmap.insert tx.sender (sState.deposit tx.value) st }
        else { st := st, book := s.book.recordBet tx, cnt := s.cnt + 1 }
      else creditRecipient c i tx { s with st := st, cnt := s.cnt + 1 }
  else creditRecipient c i tx s

/-- The transaction loop from position `i` on. -/
def execTxs (c : ExecCtx) : ℕ → List Transaction → ExecState → ExecState
  | _, [], s => s
  | i, tx :: txs, s => execTxs c (i + 1) txs (execTx c i tx s)

/-! ## The settlement -/

/-- The payout loop: every winning bet is credited with its amount times `q`. -/
def payout (q : ℤ) (es : List BetEntry) (st : Accounts) : Accounts :=
  es.foldl (fun st e =>
    Finmap.insert e.player ((st.getOrNew e.player 0).deposit (e.amount * q)) st) st

/-- The settlement of one epoch once the winning pair is known; `Div` of `math/big` is Euclidean. -/
def payEpoch (eb : EpochBook) (star : Pair) (st : Accounts) : Accounts :=
  let w := eb.winStake star
  let l := eb.loseStake star
  if 0 < w then payout (l / w) (eb.bets star) st else st

/-- The settlement of height `h`, if the book has an epoch for it; `none` is the panic of
    `chooseWinningPair`. -/
def settle (h : ℕ) (st : Accounts) (bk : G2EBook) : Option (Accounts × G2EBook) :=
  match bk.getEpoch h with
  | none => some (st, bk)
  | some eb => (chooseWinningPair h eb).map fun star => (payEpoch eb star st, bk.cleanup h)

/-- However it ends, a settlement leaves no epoch for its height. -/
theorem settle_book {h : ℕ} {st st' : Accounts} {bk bk' : G2EBook}
    (hs : settle h st bk = some (st', bk')) : bk' = bk.cleanup h := by
  unfold settle at hs
  split at hs
  · next hnone =>
      rw [Option.some.injEq, Prod.mk.injEq] at hs
      rw [G2EBook.cleanup_of_getEpoch_none hnone, hs.2]
  · next eb heb =>
      obtain ⟨star, -, hstar⟩ := Option.map_eq_some_iff.1 hs
      rw [Prod.mk.injEq] at hstar
      exact hstar.2.symm

/-- The account part of a settlement only looks at the epoch it settles. -/
theorem settle_accounts_congr {h : ℕ} {bk bk' : G2EBook} (hb : bk.getEpoch h = bk'.getEpoch h)
    (st : Accounts) : (settle h st bk).map Prod.fst = (settle h st bk').map Prod.fst := by
  unfold settle
  rw [hb]
  split
  · rfl
  · simp only [Option.map_map]
    rfl

theorem balance_payout (q : ℤ) (es : List BetEntry) (st : Accounts) (a : Address) :
    (payout q es st).balance a =
      st.balance a + ((es.filter fun e => e.player = a).map fun e => e.amount * q).sum := by
  unfold payout
  induction es generalizing st with
  | nil => simp
  | cons e es ih =>
    rw [List.foldl_cons, ih, Accounts.balance_insert]
    by_cases ha : a = e.player
    · subst ha
      simp [AccountState.deposit, Accounts.getOrNew_balance, add_assoc]
    · simp [ha, Ne.symm ha]

/-! ## What a transaction does at its turn -/

section Outcome

variable (c : ExecCtx) (st : Accounts) (tx : Transaction)

/-- The sender branch of the loop applies. -/
def takesSender : Bool := !tx.relayed && (c.isLocal tx.sender || tx.hasBroker)

/-- The betting window for the transaction's target height has closed. -/
def tooClose : Bool := tx.height < u64 (c.curH + u64 c.beta)

/-- The sender is debited, and not refunded. -/
def debits : Bool :=
  takesSender c tx && tx.value ≤ st.balance tx.sender && !(tx.g2eEnabled && tooClose c tx)

/-- The transaction is recorded as a bet. -/
def accepts : Bool := debits c st tx && tx.g2eEnabled

/-- The recipient is credited. -/
def credits : Bool :=
  (!takesSender c tx || (tx.value ≤ st.balance tx.sender && !tx.g2eEnabled))
    && (c.isLocal tx.recipient || tx.hasBroker)

end Outcome

/-- What one turn of the loop does, from the state `s` to the state `s'`. -/
structure ExecTurn (c : ExecCtx) (tx : Transaction) (s s' : ExecState) : Prop where
  balance : ∀ a, s'.st.balance a = s.st.balance a
    - (if debits c s.st tx = true ∧ a = tx.sender then tx.value else 0)
    + if credits c s.st tx = true ∧ a = tx.recipient then tx.value else 0
  book : s'.book = if accepts c s.st tx then s.book.recordBet tx else s.book
  cnt : s'.cnt = s.cnt + (if debits c s.st tx then 1 else 0) + if credits c s.st tx then 1 else 0

theorem creditRecipient_balance (c : ExecCtx) (i : ℕ) (tx : Transaction) (s : ExecState)
    (a : Address) :
    (creditRecipient c i tx s).st.balance a = s.st.balance a
      + if (c.isLocal tx.recipient || tx.hasBroker) = true ∧ a = tx.recipient then tx.value
        else 0 := by
  unfold creditRecipient
  split
  · next hl =>
      simp only [Accounts.balance_insert, AccountState.deposit, Accounts.getOrNew_balance]
      by_cases ha : a = tx.recipient
      · subst ha; simp [hl]
      · simp [ha]
  · next hl => simp [hl]

theorem creditRecipient_book (c : ExecCtx) (i : ℕ) (tx : Transaction) (s : ExecState) :
    (creditRecipient c i tx s).book = s.book := by
  unfold creditRecipient
  split <;> rfl

theorem creditRecipient_cnt (c : ExecCtx) (i : ℕ) (tx : Transaction) (s : ExecState) :
    (creditRecipient c i tx s).cnt
      = s.cnt + if c.isLocal tx.recipient || tx.hasBroker then 1 else 0 := by
  unfold creditRecipient
  split <;> rfl

/-- Paying out and back in leaves the sender's balance alone. -/
theorem deduct_balance {st : Accounts} {tx : Transaction} (i : ℕ)
    (h : tx.value ≤ st.balance tx.sender) :
    ((st.getOrNew tx.sender i).deduct tx.value).2.balance = st.balance tx.sender - tx.value := by
  simp [AccountState.deduct, Accounts.getOrNew_balance, not_lt.2 h]

theorem execTx_turn (c : ExecCtx) (i : ℕ) (tx : Transaction) (s : ExecState) :
    ExecTurn c tx s (execTx c i tx s) := by
  unfold execTx
  by_cases htake : takesSender c tx = true
  · rw [if_pos (by simpa [takesSender] using htake)]
    simp only [Accounts.getOrNew_balance]
    by_cases hpay : s.st.balance tx.sender < tx.value
    · -- the sender cannot pay: `continue`
      rw [if_pos hpay]
      have hd : debits c s.st tx = false := by simp [debits, htake, hpay]
      have hc : credits c s.st tx = false := by simp [credits, htake, hpay]
      exact ⟨fun a => by simp [hd, hc], by simp [accepts, hd], by simp [hd, hc]⟩
    · rw [if_neg hpay]
      have hded := deduct_balance i (not_lt.1 hpay)
      by_cases hbet : tx.g2eEnabled = true
      · rw [if_pos hbet]
        have hc : credits c s.st tx = false := by simp [credits, htake, hbet]
        by_cases hclose : tooClose c tx = true
        · -- a bet after its window has closed: debited and refunded
          rw [if_pos (by simpa [tooClose] using hclose)]
          have hd : debits c s.st tx = false := by simp [debits, hbet, hclose]
          refine ⟨?_, by simp [accepts, hd], by simp [hd, hc]⟩
          intro a
          simp only [hd, hc, Accounts.balance_insert, AccountState.deposit, hded]
          by_cases ha : a = tx.sender
          · subst ha; simp
          · simp [ha]
        · rw [if_neg (by simpa [tooClose] using hclose)]
          have hd : debits c s.st tx = true := by
            simp [debits, htake, hclose, not_lt.1 hpay]
          refine ⟨?_, by simp [accepts, hd, hbet], by simp [hd, hc]⟩
          intro a
          simp only [hd, hc, Accounts.balance_insert, hded]
          by_cases ha : a = tx.sender
          · subst ha; simp
          · simp [ha]
      · -- an ordinary transfer: the second half of the loop body follows
        rw [if_neg hbet]
        have hd : debits c s.st tx = true := by
          simp [debits, htake, hbet, not_lt.1 hpay]
        have hc : credits c s.st tx = (c.isLocal tx.recipient || tx.hasBroker) := by
          simp [credits, htake, hbet, not_lt.1 hpay]
        refine ⟨?_, ?_, ?_⟩
        · intro a
          rw [creditRecipient_balance]
          simp only [hd, hc, Accounts.balance_insert, hded]
          by_cases ha : a = tx.sender
          · subst ha; simp
          · simp [ha]
        · rw [creditRecipient_book]
          simp [accepts, hbet]
        · rw [creditRecipient_cnt, hd, hc]
          rfl
  · rw [if_neg (by simpa [takesSender] using htake)]
    have hd : debits c s.st tx = false := by simp [debits, htake]
    have hc : credits c s.st tx = (c.isLocal tx.recipient || tx.hasBroker) := by
      simp [credits, htake]
    refine ⟨?_, ?_, ?_⟩
    · intro a
      rw [creditRecipient_balance]
      simp [hd, hc]
    · rw [creditRecipient_book]
      simp [accepts, hd]
    · rw [creditRecipient_cnt, hd, hc]
      rfl

/-! ## The whole loop -/

/-- The transactions of a list for which `p` holds at their turn. -/
def atTurn (p : ExecCtx → Accounts → Transaction → Bool) (c : ExecCtx) :
    ℕ → List Transaction → ExecState → List Transaction
  | _, [], _ => []
  | i, tx :: txs, s =>
    (if p c s.st tx then [tx] else []) ++ atTurn p c (i + 1) txs (execTx c i tx s)

/-- The bets the loop records, in order. -/
def acceptedBets (c : ExecCtx) (txs : List Transaction) (s : ExecState) : List Transaction :=
  atTurn accepts c 0 txs s

/-- What a list of transactions takes out of an account. -/
def outflow (a : Address) (txs : List Transaction) : ℤ :=
  (txs.map fun t => if a = t.sender then t.value else 0).sum

/-- What a list of transactions puts into an account. -/
def inflow (a : Address) (txs : List Transaction) : ℤ :=
  (txs.map fun t => if a = t.recipient then t.value else 0).sum

theorem outflow_append (a : Address) (txs txs' : List Transaction) :
    outflow a (txs ++ txs') = outflow a txs + outflow a txs' := by
  simp [outflow]

theorem inflow_append (a : Address) (txs txs' : List Transaction) :
    inflow a (txs ++ txs') = inflow a txs + inflow a txs' := by
  simp [inflow]

theorem of_mem_atTurn {p : ExecCtx → Accounts → Transaction → Bool} {c : ExecCtx} {i : ℕ}
    {txs : List Transaction} {s : ExecState} {tx : Transaction} (h : tx ∈ atTurn p c i txs s) :
    tx ∈ txs ∧ ∃ st, p c st tx = true := by
  induction txs generalizing i s with
  | nil => exact absurd h (by simp [atTurn])
  | cons t rest ih =>
    rw [atTurn, List.mem_append] at h
    rcases h with h | h
    · split at h
      · next hp =>
          rw [List.mem_singleton] at h
          subst h
          exact ⟨List.mem_cons_self .., s.st, hp⟩
      · exact absurd h (by simp)
    · obtain ⟨hmem, hst⟩ := ih h
      exact ⟨List.mem_cons_of_mem _ hmem, hst⟩

/-- Only bets inside the betting window are recorded. -/
theorem tooClose_of_accepts {c : ExecCtx} {st : Accounts} {tx : Transaction}
    (h : accepts c st tx = true) : tooClose c tx = false := by
  simp only [accepts, debits, Bool.and_eq_true, Bool.not_eq_true', Bool.and_eq_false_iff] at h
  obtain ⟨⟨-, hclose⟩, hbet⟩ := h
  exact hclose.resolve_left (by simp [hbet])

theorem execTxs_balance (c : ExecCtx) (i : ℕ) (txs : List Transaction) (s : ExecState)
    (a : Address) :
    (execTxs c i txs s).st.balance a
      = s.st.balance a - outflow a (atTurn debits c i txs s)
        + inflow a (atTurn credits c i txs s) := by
  induction txs generalizing i s with
  | nil => simp [execTxs, atTurn, outflow, inflow]
  | cons tx rest ih =>
    rw [execTxs, ih, (execTx_turn c i tx s).balance, atTurn, atTurn, outflow_append, inflow_append]
    have hout : outflow a (if debits c s.st tx then [tx] else [])
        = if debits c s.st tx = true ∧ a = tx.sender then tx.value else 0 := by
      by_cases hd : debits c s.st tx = true <;> simp [outflow, hd]
    have hin : inflow a (if credits c s.st tx then [tx] else [])
        = if credits c s.st tx = true ∧ a = tx.recipient then tx.value else 0 := by
      by_cases hc : credits c s.st tx = true <;> simp [inflow, hc]
    rw [hout, hin]
    ring

theorem execTxs_book (c : ExecCtx) (i : ℕ) (txs : List Transaction) (s : ExecState) :
    (execTxs c i txs s).book = (atTurn accepts c i txs s).foldl G2EBook.recordBet s.book := by
  induction txs generalizing i s with
  | nil => rfl
  | cons tx rest ih =>
    rw [execTxs, ih, (execTx_turn c i tx s).book, atTurn, List.foldl_append]
    split <;> rfl

theorem execTxs_cnt (c : ExecCtx) (i : ℕ) (txs : List Transaction) (s : ExecState) :
    (execTxs c i txs s).cnt
      = s.cnt + (atTurn debits c i txs s).length + (atTurn credits c i txs s).length := by
  induction txs generalizing i s with
  | nil => rfl
  | cons tx rest ih =>
    rw [execTxs, ih, (execTx_turn c i tx s).cnt, atTurn, atTurn, List.length_append,
      List.length_append]
    split <;> split <;> simp <;> omega

/-! ## What the loop reads -/

/-- Two contexts that look the same to a list of transactions. -/
structure ExecCtx.AgreeOn (c c' : ExecCtx) (txs : List Transaction) : Prop where
  curH : c.curH = c'.curH
  beta : c.beta = c'.beta
  sender : ∀ tx ∈ txs, c.isLocal tx.sender = c'.isLocal tx.sender
  recipient : ∀ tx ∈ txs, c.isLocal tx.recipient = c'.isLocal tx.recipient

theorem debits_agree {c c' : ExecCtx} {txs : List Transaction} (h : c.AgreeOn c' txs)
    {tx : Transaction} (htx : tx ∈ txs) (st : Accounts) : debits c st tx = debits c' st tx := by
  simp only [debits, takesSender, tooClose, h.curH, h.beta, h.sender tx htx]

theorem credits_agree {c c' : ExecCtx} {txs : List Transaction} (h : c.AgreeOn c' txs)
    {tx : Transaction} (htx : tx ∈ txs) (st : Accounts) : credits c st tx = credits c' st tx := by
  simp only [credits, takesSender, h.sender tx htx, h.recipient tx htx]

/-- One turn neither reads the book nor the rest of the context. -/
theorem execTx_agree {c c' : ExecCtx} {txs : List Transaction} (h : c.AgreeOn c' txs)
    {tx : Transaction} (htx : tx ∈ txs) (i : ℕ) (st : Accounts) (bk bk' : G2EBook) (n : ℕ) :
    (execTx c i tx ⟨st, bk, n⟩).st = (execTx c' i tx ⟨st, bk', n⟩).st ∧
      (execTx c i tx ⟨st, bk, n⟩).cnt = (execTx c' i tx ⟨st, bk', n⟩).cnt := by
  simp only [execTx, creditRecipient, h.curH, h.beta, h.sender tx htx, h.recipient tx htx]
  split_ifs <;> exact ⟨rfl, rfl⟩

/-- **The loop reads its transactions' accounts and the window, but never the book.** -/
theorem execTxs_agree {c c' : ExecCtx} {txs : List Transaction} (h : c.AgreeOn c' txs) (i : ℕ)
    (st : Accounts) (bk bk' : G2EBook) (n : ℕ) :
    (execTxs c i txs ⟨st, bk, n⟩).st = (execTxs c' i txs ⟨st, bk', n⟩).st ∧
      atTurn accepts c i txs ⟨st, bk, n⟩ = atTurn accepts c' i txs ⟨st, bk', n⟩ := by
  induction txs generalizing i st bk bk' n with
  | nil => exact ⟨rfl, rfl⟩
  | cons tx rest ih =>
    have hrest : c.AgreeOn c' rest :=
      ⟨h.curH, h.beta, fun t ht => h.sender t (List.mem_cons_of_mem _ ht),
        fun t ht => h.recipient t (List.mem_cons_of_mem _ ht)⟩
    obtain ⟨hst, hcnt⟩ := execTx_agree h (List.mem_cons_self ..) i st bk bk' n
    have hnext := ih hrest (i + 1) (execTx c i tx ⟨st, bk, n⟩).st (execTx c i tx ⟨st, bk, n⟩).book
      (execTx c' i tx ⟨st, bk', n⟩).book (execTx c i tx ⟨st, bk, n⟩).cnt
    have hs' : (⟨(execTx c i tx ⟨st, bk, n⟩).st, (execTx c' i tx ⟨st, bk', n⟩).book,
        (execTx c i tx ⟨st, bk, n⟩).cnt⟩ : ExecState) = execTx c' i tx ⟨st, bk', n⟩ := by
      rw [hst, hcnt]
    rw [hs'] at hnext
    refine ⟨hnext.1, ?_⟩
    rw [atTurn, atTurn, hnext.2, accepts, accepts, debits_agree h (List.mem_cons_self ..)]

/-! ## Blocks without effect -/

/-- Nothing happens at the transaction's turn: it is refused, or not of this shard. -/
def idle (c : ExecCtx) (st : Accounts) (tx : Transaction) : Bool :=
  !debits c st tx && !credits c st tx

theorem debits_congr {c : ExecCtx} {st st' : Accounts} (h : ∀ a, st.balance a = st'.balance a)
    (tx : Transaction) : debits c st tx = debits c st' tx := by
  unfold debits
  rw [h]

theorem credits_congr {c : ExecCtx} {st st' : Accounts} (h : ∀ a, st.balance a = st'.balance a)
    (tx : Transaction) : credits c st tx = credits c st' tx := by
  unfold credits
  rw [h]

/-- An idle transaction may write an account, but never another balance. -/
theorem execTx_balance_of_idle {c : ExecCtx} {tx : Transaction} {s : ExecState}
    (h : idle c s.st tx = true) (i : ℕ) (a : Address) :
    (execTx c i tx s).st.balance a = s.st.balance a := by
  rw [idle, Bool.and_eq_true, Bool.not_eq_true', Bool.not_eq_true'] at h
  rw [(execTx_turn c i tx s).balance, h.1, h.2]
  simp

/-- The counter stays where it was exactly when every transaction is idle already on the balances
    the loop starts from. -/
theorem execTxs_cnt_eq_iff (c : ExecCtx) (i : ℕ) (txs : List Transaction) (s : ExecState) :
    (execTxs c i txs s).cnt = s.cnt ↔ ∀ tx ∈ txs, idle c s.st tx = true := by
  induction txs generalizing i s with
  | nil => simp [execTxs]
  | cons tx rest ih =>
    have hstep := (execTx_turn c i tx s).cnt
    have hrest := execTxs_cnt c (i + 1) rest (execTx c i tx s)
    rw [execTxs, List.forall_mem_cons]
    by_cases hidle : idle c s.st tx = true
    · have hcnt : (execTx c i tx s).cnt = s.cnt := by
        simp only [idle, Bool.and_eq_true, Bool.not_eq_true'] at hidle
        rw [hstep, hidle.1, hidle.2]
        rfl
      have hbal := execTx_balance_of_idle hidle i
      rw [← hcnt, ih]
      have hsame : ∀ t, idle c (execTx c i tx s).st t = idle c s.st t := fun t => by
        rw [idle, idle, debits_congr hbal, credits_congr hbal]
      simp only [hsame, hidle, true_and]
    · have hgrow : s.cnt < (execTx c i tx s).cnt := by
        have hone : debits c s.st tx = true ∨ credits c s.st tx = true := by
          by_contra hnone
          rw [not_or, Bool.not_eq_true, Bool.not_eq_true] at hnone
          exact hidle (by rw [idle, hnone.1, hnone.2]; rfl)
        rw [hstep]
        rcases hone with hd | hc
        · rw [hd, if_pos rfl]; omega
        · rw [hc, if_pos rfl]; omega
      constructor
      · intro h
        omega
      · intro h
        exact absurd h.1 hidle

/-- A list of idle transactions records no bet. -/
theorem atTurn_accepts_of_idle {c : ExecCtx} {txs : List Transaction} {s : ExecState}
    (h : ∀ tx ∈ txs, idle c s.st tx = true) (i : ℕ) : atTurn accepts c i txs s = [] := by
  have hcnt := execTxs_cnt c i txs s
  rw [(execTxs_cnt_eq_iff c i txs s).2 h] at hcnt
  have hnone : atTurn debits c i txs s = [] := List.eq_nil_of_length_eq_zero (by omega)
  clear h hcnt
  induction txs generalizing i s with
  | nil => rfl
  | cons tx rest ih =>
    rw [atTurn, List.append_eq_nil_iff] at hnone ⊢
    refine ⟨?_, ih _ hnone.2⟩
    have hd : debits c s.st tx = false := by
      by_contra hd
      simp [hd] at hnone
    simp [accepts, hd]

end BlockEmulator
