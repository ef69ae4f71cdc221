import BlockEmulator.Chain.Runs
import Mathlib.Algebra.Order.BigOperators.Group.List
import Mathlib.Algebra.BigOperators.Ring.List
import Mathlib.Algebra.BigOperators.Group.Finset.Piecewise

set_option autoImplicit false

/-! # Money inside one shard

The wealth of a shard is what its accounts hold, a missing account counted with the initial balance,
and what waits in the betting book. Executing local transactions moves wealth around; settling an
epoch takes its stakes out of the book and pays some of the losing stakes to the winners. -/

namespace BlockEmulator

/-! ## The transaction loop -/

section Loop

variable (F : Finset Address)

/-- What the accounts in `F` hold together. -/
def holdings (st : Accounts) : ℤ := ∑ a ∈ F, st.balance a

/-- A transaction that is not relayed and whose accounts live in the shard. -/
structure LocalTx (isLocal : Address → Bool) (tx : Transaction) : Prop where
  notRelayed : tx.relayed = false
  sender : isLocal tx.sender = true
  recipient : isLocal tx.recipient = true

variable {F}

theorem holdings_execTx {c : ExecCtx} {tx : Transaction} (hs : tx.sender ∈ F)
    (hr : tx.recipient ∈ F) (i : ℕ) (s : ExecState) :
    holdings F (execTx c i tx s).st = holdings F s.st
      - (if debits c s.st tx then tx.value else 0) + if credits c s.st tx then tx.value else 0 := by
  simp only [holdings, (execTx_turn c i tx s).balance, Finset.sum_add_distrib,
    Finset.sum_sub_distrib, ite_and]
  congr 1
  · congr 1
    split <;> simp [hs]
  · split <;> simp [hr]

/-- A local transaction is either refused, or a bet, or a transfer to the recipient. -/
theorem LocalTx.debits_eq {c : ExecCtx} {tx : Transaction} (h : LocalTx c.isLocal tx)
    (st : Accounts) :
    (if debits c st tx then tx.value else 0)
      = (if accepts c st tx then tx.value else 0) + if credits c st tx then tx.value else 0 := by
  have htake : takesSender c tx = true := by simp [takesSender, h.notRelayed, h.sender]
  by_cases hbet : tx.g2eEnabled = true
  · simp [accepts, credits, htake, hbet]
  · simp [accepts, credits, debits, htake, hbet, h.recipient]

theorem pending_execTx (c : ExecCtx) (i : ℕ) (tx : Transaction) (s : ExecState) :
    (execTx c i tx s).book.pending
      = s.book.pending + if accepts c s.st tx then tx.value else 0 := by
  rw [(execTx_turn c i tx s).book]
  split
  · exact G2EBook.pending_appendBet _ _ _ _ _
  · simp

/-- **The loop moves wealth around.** -/
theorem wealth_execTxs {c : ExecCtx} {txs : List Transaction}
    (hlocal : ∀ tx ∈ txs, LocalTx c.isLocal tx)
    (hF : ∀ tx ∈ txs, tx.sender ∈ F ∧ tx.recipient ∈ F) (i : ℕ) (s : ExecState) :
    holdings F (execTxs c i txs s).st + (execTxs c i txs s).book.pending
      = holdings F s.st + s.book.pending := by
  induction txs generalizing i s with
  | nil => rfl
  | cons tx rest ih =>
    rw [List.forall_mem_cons] at hlocal hF
    rw [execTxs, ih hlocal.2 hF.2, holdings_execTx hF.1.1 hF.1.2, pending_execTx,
      hlocal.1.debits_eq]
    ring

end Loop

/-! ## The settlement -/

namespace EpochBook

/-- What the settlement of an epoch pays out in total. -/
def gains (eb : EpochBook) (star : Pair) : ℤ :=
  if 0 < eb.winStake star then
    ((eb.bets star).map fun e => e.amount * (eb.loseStake star / eb.winStake star)).sum
  else 0

/-- The gains add up to the winning stake times the rounded quota. -/
theorem gains_eq (eb : EpochBook) (star : Pair) :
    eb.gains star = if 0 < eb.winStake star
      then eb.winStake star * (eb.loseStake star / eb.winStake star) else 0 := by
  unfold gains
  split
  · rw [List.sum_map_mul_right, winStake_eq, betSum]
  · rfl

/-- All bets of the epoch are of a non-negative amount. -/
def NonNeg (eb : EpochBook) : Prop := ∀ p, ∀ e ∈ eb.bets p, 0 ≤ e.amount

theorem NonNeg.loseStake_nonneg {eb : EpochBook} (h : eb.NonNeg) (star : Pair) :
    0 ≤ eb.loseStake star := by
  unfold loseStake
  refine Finmap.sumBy_nonneg ?_
  intro p sum hp
  split
  · exact le_rfl
  · have hsum := eb.sum_eq p
    rw [hp, Option.getD_some] at hsum
    rw [hsum]
    exact List.sum_nonneg fun x hx => by
      obtain ⟨e, he, rfl⟩ := List.mem_map.1 hx
      exact h p e he

/-- The gains never exceed what the losers staked. -/
theorem NonNeg.gains_le {eb : EpochBook} (h : eb.NonNeg) (star : Pair) :
    eb.gains star ≤ eb.loseStake star := by
  rw [gains_eq]
  split
  · next hw => exact Int.mul_ediv_self_le hw.ne'
  · exact h.loseStake_nonneg star

theorem NonNeg.winStake_nonneg {eb : EpochBook} (h : eb.NonNeg) (star : Pair) :
    0 ≤ eb.winStake star := by
  rw [winStake_eq]
  exact List.sum_nonneg fun x hx => by
    obtain ⟨e, he, rfl⟩ := List.mem_map.1 hx
    exact h star e he

end EpochBook

theorem holdings_payout {F : Finset Address} (q : ℤ) {es : List BetEntry}
    (hF : ∀ e ∈ es, e.player ∈ F) (st : Accounts) :
    holdings F (payout q es st) = holdings F st + (es.map fun e => e.amount * q).sum := by
  unfold payout
  induction es generalizing st with
  | nil => simp
  | cons e rest ih =>
    rw [List.forall_mem_cons] at hF
    rw [List.foldl_cons, ih hF.2, List.map_cons, List.sum_cons, ← add_assoc]
    congr 1
    have hbal : ∀ a, Accounts.balance (Finmap.insert e.player
        ((st.getOrNew e.player 0).deposit (e.amount * q)) st) a
        = st.balance a + if a = e.player then e.amount * q else 0 := fun a => by
      rw [Accounts.balance_insert]
      by_cases ha : a = e.player
      · subst ha; simp [AccountState.deposit, Accounts.getOrNew_balance]
      · simp [ha]
    simp only [holdings, hbal, Finset.sum_add_distrib]
    simp [hF.1]

/-- Settling an epoch adds its gains to the accounts. -/
theorem holdings_payEpoch {F : Finset Address} {eb : EpochBook} {star : Pair}
    (hF : ∀ e ∈ eb.bets star, e.player ∈ F) (st : Accounts) :
    holdings F (payEpoch eb star st) = holdings F st + eb.gains star := by
  unfold payEpoch EpochBook.gains
  simp only []
  split
  · exact holdings_payout _ hF st
  · simp

/-! ## Books of non-negative bets -/

/-- Every bet in the book is of a non-negative amount. -/
def G2EBook.NonNeg (bk : G2EBook) : Prop := ∀ h eb, bk.getEpoch h = some eb → eb.NonNeg

namespace G2EBook

theorem NonNeg.recordBet {bk : G2EBook} (hbk : bk.NonNeg) {tx : Transaction} (htx : 0 ≤ tx.value) :
    (bk.recordBet tx).NonNeg := by
  intro h eb heb p e he
  have hold : ∀ e ∈ bk.bets h p, 0 ≤ e.amount := by
    intro e he
    cases hlook : bk.lookup h with
    | none => simp [bets, hlook, EpochBook.new, EpochBook.bets] at he
    | some eb' =>
      rw [bets, hlook] at he
      exact hbk h eb' hlook p e he
  have hbets : e ∈ (bk.recordBet tx).bets h p := by
    rw [bets, show (bk.recordBet tx).lookup h = some eb from heb]
    exact he
  rw [G2EBook.recordBet, bets_appendBet, List.mem_append] at hbets
  rcases hbets with hbets | hbets
  · exact hold e hbets
  · split at hbets
    · rw [List.mem_singleton] at hbets
      rw [hbets]
      exact htx
    · exact absurd hbets (by simp)

theorem NonNeg.recordBets {txs : List Transaction} (htxs : ∀ tx ∈ txs, 0 ≤ tx.value) {bk : G2EBook}
    (hbk : bk.NonNeg) : (txs.foldl G2EBook.recordBet bk).NonNeg := by
  induction txs generalizing bk with
  | nil => exact hbk
  | cons tx rest ih =>
    rw [List.forall_mem_cons] at htxs
    exact ih htxs.2 (hbk.recordBet htxs.1)

theorem NonNeg.cleanup {bk : G2EBook} (hbk : bk.NonNeg) (h : ℕ) : (bk.cleanup h).NonNeg := by
  intro h' eb heb
  by_cases hh : h' = h
  · subst hh
    rw [getEpoch_cleanup_self] at heb
    exact absurd heb (by simp)
  · rw [getEpoch_cleanup_of_ne bk hh] at heb
    exact hbk h' eb heb

end G2EBook

namespace BlockChain

variable {H : Type} [DecidableEq H] [Hashing H]

/-- Every bet among the transactions is of a non-negative amount. -/
def NonNegBets (txs : List Transaction) : Prop :=
  ∀ tx ∈ txs, tx.g2eEnabled = true → 0 ≤ tx.value

theorem NonNegBets.newBets {txs : List Transaction} (h : NonNegBets txs) (bc : BlockChain H)
    (st : Accounts) : ∀ tx ∈ bc.newBets txs st, 0 ≤ tx.value := by
  intro tx htx
  obtain ⟨hmem, st', hacc⟩ := of_mem_atTurn htx
  rw [accepts, Bool.and_eq_true] at hacc
  exact h tx hmem hacc.2

/-- The bets the operation executes are of a non-negative amount. -/
def ExecutesNonNegBets (bc : BlockChain H) : ChainOp H → Prop
  | .generateBlock _ _ => NonNegBets bc.packForBlock.1
  | .addBlock b => NonNegBets b.body
  | _ => True

instance (txs : List Transaction) : Decidable (NonNegBets txs) :=
  inferInstanceAs (Decidable (∀ tx ∈ txs, _ → _ ≤ _))

instance (bc : BlockChain H) : (op : ChainOp H) → Decidable (bc.ExecutesNonNegBets op)
  | .generateBlock _ _ => inferInstanceAs (Decidable (NonNegBets bc.packForBlock.1))
  | .addBlock b => inferInstanceAs (Decidable (NonNegBets b.body))
  | .addTxs2Pool _ | .addAccounts _ _ | .updatePartitionMap _ _ => .isTrue trivial

theorem nonNeg_getUpdateStatusTrie {bc bc' : BlockChain H} {txs : List Transaction} {rt : H}
    (hexec : bc.getUpdateStatusTrie txs = some (bc', rt)) (hbook : bc.g2eBook.NonNeg)
    (htxs : NonNegBets txs) : bc'.g2eBook.NonNeg := by
  rcases getUpdateStatusTrie_cases hexec with ⟨-, rfl, -⟩ | ⟨-, st, st', bk', -, hs, rfl, -⟩
  · exact hbook
  · show bk'.NonNeg
    rw [settle_book hs, execLoop_book]
    exact (hbook.recordBets (htxs.newBets bc st)).cleanup _

theorem nonNeg_step {bc bc' : BlockChain H} {op : ChainOp H} (hbook : bc.g2eBook.NonNeg)
    (hcond : bc.ExecutesNonNegBets op) (hstep : bc.step op = some bc') : bc'.g2eBook.NonNeg := by
  rcases step_cases hstep with ⟨pool, pm, rfl⟩ | ⟨miner, now, rt, rfl, hexec⟩ |
    ⟨b, rfl, -, -, rfl⟩ | ⟨b, bc₁, rt, rfl, -, -, hexec, rfl⟩ | ⟨ac, as, db, root, rfl, rfl, -, -⟩
  · exact hbook
  · exact nonNeg_getUpdateStatusTrie hexec hbook hcond
  · exact hbook
  · show bc₁.g2eBook.NonNeg
    exact nonNeg_getUpdateStatusTrie hexec hbook hcond
  · exact hbook

/-! ## The wealth of a shard -/

/-- What the accounts in `F` hold under a state root, and what waits in the book. -/
def wealth (F : Finset Address) (bc : BlockChain H) (root : H) : ℤ :=
  holdings F ((bc.triedb.trieNew root).getD ∅) + bc.g2eBook.pending

/-- Executing `txs` settles the epoch `eb` of the next height with the winning pair `star`. -/
def Settles (bc : BlockChain H) (txs : List Transaction) (eb : EpochBook) (star : Pair) : Prop :=
  ¬ bc.Quiet txs ∧ ∃ st, bc.accounts = some st ∧
    (bc.execLoop txs st).book.getEpoch (bc.height + 1) = some eb ∧
    chooseWinningPair (bc.height + 1) eb = some star

/-- `F` has every account that executing `txs` next may touch. -/
structure Covers (bc : BlockChain H) (txs : List Transaction) (F : Finset Address) : Prop where
  parties : ∀ tx ∈ txs, tx.sender ∈ F ∧ tx.recipient ∈ F
  players : ∀ p, ∀ e ∈ bc.g2eBook.bets (bc.height + 1) p, e.player ∈ F

theorem Covers.winner_mem {bc : BlockChain H} {txs : List Transaction} {F : Finset Address}
    (hF : bc.Covers txs F) {st : Accounts} {eb : EpochBook} {star : Pair}
    (heb : (bc.execLoop txs st).book.getEpoch (bc.height + 1) = some eb) :
    ∀ e ∈ eb.bets star, e.player ∈ F := by
  intro e he
  have hbets : e ∈ (bc.execLoop txs st).book.bets (bc.height + 1) star := by
    rw [G2EBook.bets, show (bc.execLoop txs st).book.lookup (bc.height + 1) = some eb from heb]
    exact he
  rw [execLoop_book, G2EBook.bets_recordBets, List.mem_append] at hbets
  rcases hbets with hold | hnew
  · exact hF.players star e hold
  · obtain ⟨tx, htx, rfl⟩ := List.mem_map.1 hnew
    exact (hF.parties tx (of_mem_atTurn (List.mem_filter.1 htx).1).1).1

/-- What an execution does to the wealth: nothing, or the settled stakes go and the gains come. -/
theorem wealth_getUpdateStatusTrie {bc bc' : BlockChain H} {txs : List Transaction} {rt : H}
    {F : Finset Address} (hlocal : ∀ tx ∈ txs, LocalTx bc.ctx.isLocal tx) (hF : bc.Covers txs F)
    (hexec : bc.getUpdateStatusTrie txs = some (bc', rt)) :
    ((∀ eb star, ¬ bc.Settles txs eb star) ∧ wealth F bc' rt = wealth F bc bc.stateRoot) ∨
    ∃ eb star, bc.Settles txs eb star ∧ wealth F bc' rt
      = wealth F bc bc.stateRoot - (eb.winStake star + eb.loseStake star) + eb.gains star := by
  rcases getUpdateStatusTrie_cases hexec with ⟨hq, rfl, rfl⟩ | ⟨hq, st, st', bk', hst, hs, rfl, rfl⟩
  · exact Or.inl ⟨fun eb star h => h.1 hq, rfl⟩
  · have hloop := wealth_execTxs hlocal hF.parties 0 ⟨st, bc.g2eBook, 0⟩
    have hbefore : wealth F bc bc.stateRoot
        = holdings F (bc.execLoop txs st).st + (bc.execLoop txs st).book.pending := by
      rw [wealth, show bc.triedb.trieNew bc.stateRoot = some st from hst]
      exact hloop.symm
    have hafter : wealth F { bc with triedb := bc.triedb.commit st', g2eBook := bk' }
        (Hashing.stateRoot st') = holdings F st' + bk'.pending := by
      rw [wealth, TrieDB.trieNew_commit_self, Option.getD_some]
    rw [hbefore, hafter]
    unfold settle at hs
    split at hs
    · next hnone =>
        rw [Option.some.injEq, Prod.mk.injEq] at hs
        refine Or.inl ⟨?_, by rw [← hs.1, ← hs.2]⟩
        rintro eb star ⟨_, st₂, hst₂, heb, _⟩
        rw [hst, Option.some.injEq] at hst₂
        subst hst₂
        rw [hnone] at heb
        exact absurd heb (by simp)
    · next eb heb =>
        obtain ⟨star, hstar, hpay⟩ := Option.map_eq_some_iff.1 hs
        rw [Prod.mk.injEq] at hpay
        refine Or.inr ⟨eb, star, ⟨hq, st, hst, heb, hstar⟩, ?_⟩
        rw [← hpay.1, ← hpay.2, holdings_payEpoch (hF.winner_mem heb), G2EBook.pending_cleanup heb,
          EpochBook.winStake_add_loseStake]
        ring

theorem Settles.unique {bc : BlockChain H} {txs : List Transaction} {eb eb' : EpochBook}
    {star star' : Pair} (h : bc.Settles txs eb star) (h' : bc.Settles txs eb' star') :
    eb = eb' ∧ star = star' := by
  obtain ⟨-, st, hst, heb, hstar⟩ := h
  obtain ⟨-, st', hst', heb', hstar'⟩ := h'
  obtain rfl := Option.some.inj (hst.symm.trans hst')
  obtain rfl := Option.some.inj (heb.symm.trans heb')
  exact ⟨rfl, Option.some.inj (hstar.symm.trans hstar')⟩

/-- The epoch an execution settles has only non-negative bets. -/
theorem Settles.nonNeg {bc : BlockChain H} {txs : List Transaction} {eb : EpochBook} {star : Pair}
    (h : bc.Settles txs eb star) (hbook : bc.g2eBook.NonNeg) (htxs : NonNegBets txs) :
    eb.NonNeg := by
  obtain ⟨-, st, -, heb, -⟩ := h
  rw [execLoop_book] at heb
  exact hbook.recordBets (htxs.newBets bc st) _ eb heb

/-- **Betting never creates money inside a shard.** On a chain that has only executed non-negative
    bets, executing local transactions of non-negative value keeps the wealth if nothing is settled;
    a settlement pays out the winning stake times the rounded quota, which is at most the losing
    stake, so the wealth never grows. -/
theorem betting_never_creates_money {cc : ChainConfig} {storage : Storage H} {db : TrieDB H}
    {bc₀ bc bc' : BlockChain H} {txs : List Transaction} {rt : H} {F : Finset Address}
    (hopen : newBlockChain cc storage db = some bc₀)
    (hrun : ReachesUnder step ExecutesNonNegBets bc₀ bc)
    (hlocal : ∀ tx ∈ txs, LocalTx bc.ctx.isLocal tx ∧ 0 ≤ tx.value) (hF : bc.Covers txs F)
    (hexec : bc.getUpdateStatusTrie txs = some (bc', rt)) :
    ((∀ eb star, ¬ bc.Settles txs eb star) → wealth F bc' rt = wealth F bc bc.stateRoot) ∧
    (∀ eb star, bc.Settles txs eb star →
      eb.gains star = (if 0 < eb.winStake star
        then eb.winStake star * (eb.loseStake star / eb.winStake star) else 0) ∧
      eb.gains star ≤ eb.loseStake star ∧
      wealth F bc' rt = wealth F bc bc.stateRoot - (eb.winStake star + eb.loseStake star)
        + eb.gains star) ∧
    wealth F bc' rt ≤ wealth F bc bc.stateRoot := by
  have hbook : bc.g2eBook.NonNeg := by
    refine hrun.invariant (I := fun bc => bc.g2eBook.NonNeg) ?_
      fun t op u hbk hcond hs => nonNeg_step hbk hcond hs
    rw [(newBlockChain_spec hopen).2.2.2.1]
    exact fun h eb heb => absurd heb (by simp [G2EBook.getEpoch])
  have hbets : NonNegBets txs := fun tx htx _ => (hlocal tx htx).2
  rcases wealth_getUpdateStatusTrie (fun tx htx => (hlocal tx htx).1) hF hexec with
    ⟨hnone, heq⟩ | ⟨eb, star, hset, heq⟩
  · exact ⟨fun _ => heq, fun eb star h => absurd h (hnone eb star), heq.le⟩
  · have hnn := hset.nonNeg hbook hbets
    have hle := hnn.gains_le star
    have hwin := hnn.winStake_nonneg star
    refine ⟨fun h => absurd hset (h eb star), ?_, by omega⟩
    intro eb' star' hset'
    obtain ⟨rfl, rfl⟩ := hset.unique hset'
    exact ⟨eb.gains_eq star, hle, heq⟩

theorem covers_sample {bc : BlockChain H} {bets : List Transaction}
    (hbook : bc.g2eBook = bets.foldl G2EBook.recordBet ∅)
    (hplayers : ∀ tx ∈ bets, tx.sender = alice ∨ tx.sender = bob) :
    bc.Covers [transfer 1] {alice, bob} := by
  constructor
  · intro tx htx
    rw [List.mem_singleton] at htx
    subst htx
    decide
  · intro p e he
    rw [hbook, G2EBook.bets_recordBets, List.mem_append] at he
    rcases he with he | he
    · exact absurd he (by simp [G2EBook.bets, EpochBook.new, EpochBook.bets])
    · obtain ⟨tx, htx, rfl⟩ := List.mem_map.1 he
      simpa using hplayers tx (List.mem_filter.1 htx).1

theorem localTx_transfer {bc : BlockChain H} (hcc : bc.chainConfig = sampleConfig)
    (hpm : bc.partitionMap = ∅) : ∀ tx ∈ [transfer 1], LocalTx bc.ctx.isLocal tx ∧ 0 ≤ tx.value := by
  intro tx htx
  rw [List.mem_singleton] at htx
  subst htx
  have hlocal : ∀ a : Address, a = alice ∨ a = bob → bc.ctx.isLocal a = true := by
    rintro a (rfl | rfl) <;> simp only [ctx, getPartitionMap, hcc, hpm] <;> rfl
  exact ⟨⟨rfl, hlocal _ (Or.inl rfl), hlocal _ (Or.inr rfl)⟩, by decide⟩

/-- A bet of minus five puts five into the account and minus five into the book; dropping the epoch
    then adds five to the wealth. -/
theorem negative_bet_creates_money :
    ∃ bc, Reaches step sampleGenesis bc ∧
      (∀ tx ∈ [transfer 1], LocalTx bc.ctx.isLocal tx ∧ 0 ≤ tx.value) ∧
      bc.Covers [transfer 1] {alice, bob} ∧
      ∃ r ∈ bc.getUpdateStatusTrie [transfer 1],
        wealth {alice, bob} bc bc.stateRoot < wealth {alice, bob} r.1 r.2 := by
  have hrun : ∃ bc ∈ runActions step sampleGenesis
      ((sampleGenesis.blocksOf [[bet (-5) 2]]).map .addBlock),
      (bc.chainConfig = sampleConfig ∧ bc.partitionMap = ∅ ∧
        bc.g2eBook = [bet (-5) 2].foldl G2EBook.recordBet ∅) ∧
      ∃ r ∈ bc.getUpdateStatusTrie [transfer 1],
        wealth {alice, bob} bc bc.stateRoot < wealth {alice, bob} r.1 r.2 := by decide +kernel
  obtain ⟨bc, hbc, ⟨hcc, hpm, hbook⟩, hgrow⟩ := hrun
  exact ⟨bc, reaches_of_runActions hbc, localTx_transfer hcc hpm,
    covers_sample hbook (by decide), hgrow⟩

/-- Bets on two pairs, settled by the next block. -/
theorem rival_bets_create_no_money :
    ∃ bc, ReachesUnder step ExecutesNonNegBets sampleGenesis bc ∧
      ∃ r ∈ bc.getUpdateStatusTrie [transfer 1],
        wealth {alice, bob} r.1 r.2 ≤ wealth {alice, bob} bc bc.stateRoot := by
  have hrun : ∃ bc ∈ runChecked step (fun bc op => bc.ExecutesNonNegBets op) sampleGenesis
      ((sampleGenesis.blocksOf [rivalBets]).map .addBlock),
      (bc.chainConfig = sampleConfig ∧ bc.partitionMap = ∅ ∧
        bc.g2eBook = rivalBets.foldl G2EBook.recordBet ∅) ∧
      (bc.getUpdateStatusTrie [transfer 1]).isSome := by decide +kernel
  obtain ⟨bc, hbc, ⟨hcc, hpm, hbook⟩, hsome⟩ := hrun
  obtain ⟨⟨bc', rt⟩, hexec⟩ := Option.isSome_iff_exists.1 hsome
  have hreach : ReachesUnder step ExecutesNonNegBets sampleGenesis bc :=
    reachesUnder_of_runDecided hbc
  refine ⟨bc, hreach, (bc', rt), hexec, ?_⟩
  exact (betting_never_creates_money newBlockChain_sample hreach
    (localTx_transfer hcc hpm) (covers_sample hbook (by decide)) hexec).2.2

end BlockChain

end BlockEmulator
