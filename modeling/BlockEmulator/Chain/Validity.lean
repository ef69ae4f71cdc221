import BlockEmulator.Chain.History
import BlockEmulator.Chain.Propose

set_option autoImplicit false

/-! # What a valid block commits to

`IsValidBlock` looks at the parent hash and the transaction root, `AddBlock` at the number and the
parent hash. Neither compares the state root of the header with the one execution gives, and the
transaction root is the root of a trie keyed by transaction hash, so it sees neither the order of a
body nor a repetition in it.

The first section says when the root an accepted block puts in place is the executed one, the second
when two bodies under one header have the same effect. -/

namespace BlockEmulator

variable {H : Type} [DecidableEq H] [Hashing H]

/-! ## The state root of an accepted block -/

namespace BlockChain

/-- The root that executing `txs` on the current state gives. -/
def executedRoot (bc : BlockChain H) (txs : List Transaction) : Option H :=
  (bc.getUpdateStatusTrie txs).map Prod.snd

/-- The root an execution returns is resolved by the database it leaves behind. -/
theorem trieNew_executed {bc bc' : BlockChain H} {txs : List Transaction} {rt : H}
    (hst : bc.accounts ≠ none) (h : bc.getUpdateStatusTrie txs = some (bc', rt)) :
    bc'.triedb.trieNew rt ≠ none := by
  rcases getUpdateStatusTrie_cases h with ⟨-, rfl, rfl⟩ | ⟨-, st, st', bk', -, -, rfl, rfl⟩
  · exact hst
  · rw [TrieDB.trieNew_commit_self]
    simp

theorem stateRoot_of_addBlock {bc bc' : BlockChain H} {b : Block H} (hext : bc.Extends b)
    (h : bc.addBlock b = some bc') : bc'.stateRoot = b.header.stateRoot := by
  rcases addBlock_cases h with ⟨hskip, -⟩ | ⟨-, -, rfl⟩ | ⟨-, -, bc₁, rt, -, rfl⟩
  · exact absurd hext hskip
  · rfl
  · rfl

/-- A block whose header holds the executed root leaves a chain whose root resolves. -/
theorem accounts_of_addBlock {bc bc' : BlockChain H} {b : Block H} (hst : bc.accounts ≠ none)
    (hroot : bc.executedRoot b.body = some b.header.stateRoot) (h : bc.addBlock b = some bc') :
    bc'.accounts ≠ none := by
  rcases addBlock_cases h with ⟨-, rfl⟩ | ⟨-, hknown, rfl⟩ | ⟨-, -, bc₁, rt, hexec, rfl⟩
  · exact hst
  · exact hknown
  · have hrt : rt = b.header.stateRoot := by
      rw [executedRoot, hexec] at hroot
      exact Option.some.inj hroot
    have hres := trieNew_executed hst hexec
    rwa [hrt] at hres

theorem ne_of_extends {bc bc' : BlockChain H} {b : Block H} (hext : bc.Extends b)
    (h : bc.addBlock b = some bc') : bc' ≠ bc := by
  rcases addBlock_grows h with ⟨hskip, -⟩ | ⟨-, hgrown, -⟩
  · exact absurd hext hskip
  · rintro rfl
    have hnumber := hgrown.number
    omega

/-- **Accepting a valid block.** On a chain whose root resolves, the block is ignored or its root
    resolves and is the executed one, exactly when the block is out of turn or its header holds that
    root. -/
theorem executed_root_adopted_iff {bc bc' : BlockChain H} {b : Block H} (hst : bc.accounts ≠ none)
    (hvalid : bc.isValidBlock b = true) (hadd : bc.addBlock b = some bc') :
    (bc' = bc ∨ bc'.accounts ≠ none ∧ bc.executedRoot b.body = some bc'.stateRoot) ↔
      b.header.number ≠ bc.height + 1 ∨ bc.executedRoot b.body = some b.header.stateRoot := by
  by_cases hnum : b.header.number = bc.height + 1
  · have hext : bc.Extends b := by
      rw [isValidBlock, Bool.and_eq_true, beq_iff_eq] at hvalid
      exact ⟨hnum, hvalid.1⟩
    rw [or_iff_right (ne_of_extends hext hadd), or_iff_right (not_not.2 hnum),
      stateRoot_of_addBlock hext hadd]
    constructor
    · exact fun h => h.2
    · exact fun h => ⟨accounts_of_addBlock hst h hadd, h⟩
  · have hskip : bc' = bc := by
      rw [addBlock_of_not_extends fun hext => hnum hext.1, Option.some.injEq] at hadd
      exact hadd.symm
    exact iff_of_true (Or.inl hskip) (Or.inl hnum)

/-- The block a leader seals around `txs`, with another state root in its header. -/
def withRoot (bc : BlockChain H) (txs : List Transaction) (rt : H) : Block H :=
  bc.sealBlock txs 0 0 rt

/-- A valid block with a root nobody has committed is accepted, and the next execution panics; one
    with the root of the state before it is accepted without being executed. -/
theorem foreign_root_adopted :
    sampleChain.accounts ≠ none ∧
    (sampleChain.isValidBlock (sampleChain.withRoot [transfer 1] (.txs ∅)) = true ∧
      ∃ bc' ∈ sampleChain.addBlock (sampleChain.withRoot [transfer 1] (.txs ∅)),
        bc'.height ≠ sampleChain.height ∧ bc'.accounts = none ∧
        (bc'.getUpdateStatusTrie [transfer 2]).isNone = true) ∧
    (sampleChain.isValidBlock (sampleChain.withRoot [transfer 1] sampleChain.stateRoot) = true ∧
      ∃ bc' ∈ sampleChain.addBlock (sampleChain.withRoot [transfer 1] sampleChain.stateRoot),
        bc'.height ≠ sampleChain.height ∧
        sampleChain.executedRoot [transfer 1] ≠ some bc'.stateRoot) := by
  decide +kernel

/-- A block with the executed root is taken over with it. -/
theorem sealed_root_adopted :
    ∃ r ∈ sampleChain.generateBlockOf [transfer 1] 0 0, ∃ bc' ∈ sampleChain.addBlock r.2,
      bc' = sampleChain ∨
        bc'.accounts ≠ none ∧ sampleChain.executedRoot r.2.body = some bc'.stateRoot := by
  have hsample : sampleChain.accounts ≠ none ∧
      ∃ r ∈ sampleChain.generateBlockOf [transfer 1] 0 0,
        sampleChain.isValidBlock r.2 = true ∧
        sampleChain.executedRoot r.2.body = some r.2.header.stateRoot ∧
        (sampleChain.addBlock r.2).isSome = true := by decide +kernel
  obtain ⟨hst, r, hr, hvalid, hroot, hsome⟩ := hsample
  obtain ⟨bc', hadd⟩ := Option.isSome_iff_exists.1 hsome
  exact ⟨r, hr, bc', hadd, (executed_root_adopted_iff hst hvalid hadd).2 (Or.inr hroot)⟩

end BlockChain

/-! ## The body under a header -/

/-- The transaction costs its sender its value, if it has an effect at all. -/
def owes (c : ExecCtx) (tx : Transaction) : Bool :=
  takesSender c tx && !(tx.g2eEnabled && tooClose c tx)

/-- The transaction gives its recipient its value, if it has an effect at all. -/
def due (c : ExecCtx) (tx : Transaction) : Bool :=
  (!takesSender c tx || !tx.g2eEnabled) && (c.isLocal tx.recipient || tx.hasBroker)

section Effective

variable {c : ExecCtx}

/-- The transaction has an effect at its turn. -/
def effective (c : ExecCtx) (st : Accounts) (tx : Transaction) : Bool := !idle c st tx

theorem debits_or_credits {st : Accounts} {tx : Transaction} (h : effective c st tx = true) :
    debits c st tx = true ∨ credits c st tx = true := by
  simpa [effective, idle, or_iff_not_imp_left] using h

/-- Whoever has an effect as a sender can pay. -/
theorem value_le_balance {st : Accounts} {tx : Transaction} (h : effective c st tx = true)
    (htake : takesSender c tx = true) : tx.value ≤ st.balance tx.sender := by
  rcases debits_or_credits h with h | h
  · simp only [debits, Bool.and_eq_true, decide_eq_true_eq] at h
    exact h.1.2
  · simp only [credits, htake, Bool.not_true, Bool.false_or, Bool.and_eq_true,
      decide_eq_true_eq] at h
    exact h.1.1

theorem debits_of_effective {st : Accounts} {tx : Transaction} (h : effective c st tx = true) :
    debits c st tx = owes c tx := by
  unfold debits owes
  cases htake : takesSender c tx with
  | false => rfl
  | true => simp [value_le_balance h htake]

theorem credits_of_effective {st : Accounts} {tx : Transaction} (h : effective c st tx = true) :
    credits c st tx = due c tx := by
  unfold credits due
  cases htake : takesSender c tx with
  | false => rfl
  | true => simp [value_le_balance h htake]

theorem accepts_of_effective {st : Accounts} {tx : Transaction} (h : effective c st tx = true) :
    accepts c st tx = (owes c tx && tx.g2eEnabled) := by
  rw [accepts, debits_of_effective h]

theorem effective_of_debits {st : Accounts} {tx : Transaction} (h : debits c st tx = true) :
    effective c st tx = true := by
  simp [effective, idle, h]

theorem effective_of_credits {st : Accounts} {tx : Transaction} (h : credits c st tx = true) :
    effective c st tx = true := by
  simp [effective, idle, h]

theorem effective_of_accepts {st : Accounts} {tx : Transaction} (h : accepts c st tx = true) :
    effective c st tx = true := by
  rw [accepts, Bool.and_eq_true] at h
  exact effective_of_debits h.1

/-- What happens to an effective transaction does not depend on its turn. -/
theorem atTurn_eq_filter {p : ExecCtx → Accounts → Transaction → Bool} {q : Transaction → Bool}
    (hp : ∀ {st tx}, p c st tx = true → effective c st tx = true)
    (hpq : ∀ {st tx}, effective c st tx = true → p c st tx = q tx) (i : ℕ) (txs : List Transaction)
    (s : ExecState) : atTurn p c i txs s = (atTurn effective c i txs s).filter q := by
  induction txs generalizing i s with
  | nil => rfl
  | cons tx rest ih =>
    rw [atTurn, atTurn, List.filter_append, ih]
    cases heff : effective c s.st tx with
    | true =>
      rw [hpq heff, if_pos rfl]
      simp only [List.filter_cons, List.filter_nil]
    | false =>
      have hnot : ¬ p c s.st tx = true := fun h => by simp [hp h] at heff
      rw [if_neg hnot, if_neg (by simp), List.filter_nil]

theorem outflow_perm {a : Address} {txs txs' : List Transaction} (h : txs.Perm txs') :
    outflow a txs = outflow a txs' :=
  (h.map _).sum_eq

theorem inflow_perm {a : Address} {txs txs' : List Transaction} (h : txs.Perm txs') :
    inflow a txs = inflow a txs' :=
  (h.map _).sum_eq

/-- The same transactions have an effect in both lists, each as often, in whatever order. -/
def EffectivePerm (c : ExecCtx) (s : ExecState) (txs txs' : List Transaction) : Prop :=
  (atTurn effective c 0 txs s).Perm (atTurn effective c 0 txs' s)

namespace EffectivePerm

variable {s : ExecState} {txs txs' : List Transaction}

theorem debits (h : EffectivePerm c s txs txs') :
    (atTurn debits c 0 txs s).Perm (atTurn BlockEmulator.debits c 0 txs' s) := by
  rw [atTurn_eq_filter effective_of_debits debits_of_effective,
    atTurn_eq_filter effective_of_debits debits_of_effective]
  exact h.filter _

theorem credits (h : EffectivePerm c s txs txs') :
    (atTurn credits c 0 txs s).Perm (atTurn BlockEmulator.credits c 0 txs' s) := by
  rw [atTurn_eq_filter effective_of_credits credits_of_effective,
    atTurn_eq_filter effective_of_credits credits_of_effective]
  exact h.filter _

theorem accepts (h : EffectivePerm c s txs txs') :
    (atTurn accepts c 0 txs s).Perm (atTurn BlockEmulator.accepts c 0 txs' s) := by
  rw [atTurn_eq_filter effective_of_accepts accepts_of_effective,
    atTurn_eq_filter effective_of_accepts accepts_of_effective]
  exact h.filter _

/-- The loop gives every account the same balance. -/
theorem execTxs_balance (h : EffectivePerm c s txs txs') (a : Address) :
    (execTxs c 0 txs s).st.balance a = (execTxs c 0 txs' s).st.balance a := by
  rw [BlockEmulator.execTxs_balance, BlockEmulator.execTxs_balance, outflow_perm h.debits,
    inflow_perm h.credits]

theorem execTxs_cnt (h : EffectivePerm c s txs txs') :
    (execTxs c 0 txs s).cnt = (execTxs c 0 txs' s).cnt := by
  rw [BlockEmulator.execTxs_cnt, BlockEmulator.execTxs_cnt, h.debits.length_eq, h.credits.length_eq]

end EffectivePerm

end Effective

/-! ### Books that hold the same bets -/

/-- The two books hold the same bets, each height and pair in some order. -/
structure G2EBook.SameBets (bk bk' : G2EBook) : Prop where
  epochs : ∀ h, h ∈ bk ↔ h ∈ bk'
  bets : ∀ h p, (bk.bets h p).Perm (bk'.bets h p)

namespace EpochBook

theorem betSum_perm {es es' : List BetEntry} (h : es.Perm es') : betSum es = betSum es' :=
  (h.map _).sum_eq

/-- The recorded sums do not depend on the order of the bets. -/
theorem sumByPair_eq_of_perm {eb eb' : EpochBook} (h : ∀ p, (eb.bets p).Perm (eb'.bets p)) :
    eb.sumByPair = eb'.sumByPair := by
  refine Finmap.ext_lookup ?_
  intro p
  have hmem : p ∈ eb.sumByPair ↔ p ∈ eb'.sumByPair := by
    have hlen : (eb.bets p).length = (eb'.bets p).length := (h p).length_eq
    rw [eb.carries, eb'.carries, ← List.length_pos_iff, ← List.length_pos_iff]
    exact iff_of_eq (congrArg _ hlen)
  have hsum : (eb.sumByPair.lookup p).getD 0 = (eb'.sumByPair.lookup p).getD 0 := by
    rw [eb.sum_eq, eb'.sum_eq]
    exact betSum_perm (h p)
  rw [Finmap.mem_iff, Finmap.mem_iff] at hmem
  cases hl : eb.sumByPair.lookup p with
  | none =>
    cases hl' : eb'.sumByPair.lookup p with
    | none => rfl
    | some v => simp [hl, hl'] at hmem
  | some v =>
    cases hl' : eb'.sumByPair.lookup p with
    | none => simp [hl, hl'] at hmem
    | some v' =>
      rw [hl, hl'] at hsum
      exact congrArg some hsum

end EpochBook

/-- Paying out the same bets in another order ends in the same balances. -/
theorem balance_payEpoch_perm {eb eb' : EpochBook} (h : ∀ p, (eb.bets p).Perm (eb'.bets p))
    {st st' : Accounts} (hst : ∀ a, st.balance a = st'.balance a) (star : Pair) (a : Address) :
    (payEpoch eb star st).balance a = (payEpoch eb' star st').balance a := by
  have hsums := EpochBook.sumByPair_eq_of_perm h
  have hwin : eb.winStake star = eb'.winStake star := by
    rw [EpochBook.winStake, EpochBook.winStake, hsums]
  have hlose : eb.loseStake star = eb'.loseStake star := by
    rw [EpochBook.loseStake, EpochBook.loseStake, hsums]
  unfold payEpoch
  simp only [hwin, hlose]
  split
  · rw [balance_payout, balance_payout, hst, (((h star).filter _).map _).sum_eq]
  · exact hst a

namespace G2EBook

theorem SameBets.recordBets {txs txs' : List Transaction} (hperm : txs.Perm txs') (bk : G2EBook) :
    SameBets (txs.foldl recordBet bk) (txs'.foldl recordBet bk) where
  epochs := fun h => by
    rw [mem_recordBets_iff, mem_recordBets_iff]
    simp only [hperm.mem_iff]
  bets := fun h p => by
    rw [bets_recordBets, bets_recordBets]
    exact ((hperm.filter _).map _).append_left _

theorem SameBets.cleanup {bk bk' : G2EBook} (hsame : SameBets bk bk') (h : ℕ) :
    SameBets (bk.cleanup h) (bk'.cleanup h) where
  epochs := fun k => by
    rw [G2EBook.cleanup, G2EBook.cleanup, Finmap.mem_erase, Finmap.mem_erase, hsame.epochs]
  bets := fun k p => by
    by_cases hk : k = h
    · subst hk
      simp [G2EBook.bets, G2EBook.cleanup]
    · simpa [G2EBook.bets, G2EBook.cleanup, Finmap.lookup_erase_ne hk] using hsame.bets k p

end G2EBook

/-- How a settlement ended, up to the order of bets and the accounts nobody has written. -/
def SettledAlike : Option (Accounts × G2EBook) → Option (Accounts × G2EBook) → Prop
  | none, none => True
  | some r, some r' => (∀ a, r.1.balance a = r'.1.balance a) ∧ G2EBook.SameBets r.2 r'.2
  | _, _ => False

/-- A settlement does not depend on the order of the bets. -/
theorem settle_alike {st st' : Accounts} (hst : ∀ a, st.balance a = st'.balance a)
    {bk bk' : G2EBook} (hbk : bk.SameBets bk') (h : ℕ) :
    SettledAlike (settle h st bk) (settle h st' bk') := by
  have hmem := hbk.epochs h
  rw [Finmap.mem_iff, Finmap.mem_iff] at hmem
  unfold settle G2EBook.getEpoch
  cases hl : bk.lookup h with
  | none =>
    cases hl' : bk'.lookup h with
    | none => exact ⟨hst, hbk⟩
    | some eb' => simp [hl, hl'] at hmem
  | some eb =>
    cases hl' : bk'.lookup h with
    | none => simp [hl, hl'] at hmem
    | some eb' =>
      have hbets : ∀ p, (eb.bets p).Perm (eb'.bets p) := fun p => by
        simpa [G2EBook.bets, hl, hl'] using hbk.bets h p
      have hstar : chooseWinningPair h eb = chooseWinningPair h eb' := by
        rw [chooseWinningPair, chooseWinningPair, EpochBook.sumByPair_eq_of_perm hbets]
      simp only [hstar]
      cases chooseWinningPair h eb' with
      | none => trivial
      | some star => exact ⟨balance_payEpoch_perm hbets hst star, hbk.cleanup h⟩

/-! ### Two bodies, one header -/

namespace BlockChain

/-- The transactions of a list for which `p` does not hold at their turn. -/
def without (p : ExecCtx → Accounts → Transaction → Bool) (bc : BlockChain H)
    (txs : List Transaction) : List Transaction :=
  match bc.accounts with
  | none => txs
  | some st => atTurn (fun c st tx => !p c st tx) bc.ctx 0 txs ⟨st, bc.g2eBook, 0⟩

theorem mem_of_mem_without {p : ExecCtx → Accounts → Transaction → Bool} {bc : BlockChain H}
    {txs : List Transaction} {tx : Transaction} (h : tx ∈ bc.without p txs) : tx ∈ txs := by
  unfold without at h
  split at h
  · exact h
  · exact (of_mem_atTurn h).1

/-- Two executions end alike: both panic, or they end with the same balances under the roots they
    return and with the same bets in their books. -/
def ExecutedAlike : Option (BlockChain H × H) → Option (BlockChain H × H) → Prop
  | none, none => True
  | some r, some r' =>
    (r.1.triedb.trieNew r.2).map Accounts.balance = (r'.1.triedb.trieNew r'.2).map Accounts.balance ∧
      G2EBook.SameBets r.1.g2eBook r'.1.g2eBook
  | _, _ => False

theorem ExecutedAlike.refl : ∀ r : Option (BlockChain H × H), ExecutedAlike r r
  | none => trivial
  | some _ => ⟨rfl, fun _ => Iff.rfl, fun _ _ => .refl _⟩

/-- Executing two lists has the same effect if the same transactions have one, each as often. -/
theorem getUpdateStatusTrie_perm {bc : BlockChain H} {txs txs' : List Transaction}
    (hperm : (bc.without idle txs).Perm (bc.without idle txs')) :
    ExecutedAlike (bc.getUpdateStatusTrie txs) (bc.getUpdateStatusTrie txs') := by
  cases hst : bc.accounts with
  | none =>
    simp only [without, hst] at hperm
    rcases eq_or_ne txs [] with rfl | hne
    · rw [hperm.nil_eq]
      exact .refl _
    · have hne' : txs' ≠ [] := fun h => hne (h ▸ hperm).eq_nil
      rw [getUpdateStatusTrie_of_no_root hst hne, getUpdateStatusTrie_of_no_root hst hne']
      trivial
  | some st =>
    simp only [without, hst] at hperm
    have heff : EffectivePerm bc.ctx ⟨st, bc.g2eBook, 0⟩ txs txs' := hperm
    have hquiet : bc.Quiet txs ↔ bc.Quiet txs' := by
      rw [quiet_iff_cnt_eq_zero hst, quiet_iff_cnt_eq_zero hst, execLoop, execLoop, heff.execTxs_cnt]
    by_cases hq : bc.Quiet txs
    · rw [getUpdateStatusTrie_of_quiet hq, getUpdateStatusTrie_of_quiet (hquiet.1 hq)]
      exact .refl _
    have hq' : ¬ bc.Quiet txs' := fun h0 => hq (hquiet.2 h0)
    rw [getUpdateStatusTrie_of_not_quiet hst hq, getUpdateStatusTrie_of_not_quiet hst hq']
    have hbets : G2EBook.SameBets (bc.execLoop txs st).book (bc.execLoop txs' st).book := by
      rw [execLoop, execLoop, execTxs_book, execTxs_book]
      exact .recordBets heff.accepts _
    have hend := settle_alike heff.execTxs_balance hbets (bc.height + 1)
    rw [← execLoop, ← execLoop] at hend
    revert hend
    cases settle (bc.height + 1) (bc.execLoop txs st).st (bc.execLoop txs st).book with
    | none =>
      cases settle (bc.height + 1) (bc.execLoop txs' st).st (bc.execLoop txs' st).book with
      | none => exact fun _ => trivial
      | some r' => exact False.elim
    | some r =>
      cases settle (bc.height + 1) (bc.execLoop txs' st).st (bc.execLoop txs' st).book with
      | none => exact False.elim
      | some r' =>
        rintro ⟨hbal, hbook⟩
        refine ⟨?_, hbook⟩
        simp only [TrieDB.trieNew_commit_self, Option.map_some, Option.some.injEq]
        exact funext hbal

/-- Valid bodies of one header hold the same transactions, in some order and some number. -/
theorem mem_body_iff {bc : BlockChain H} {b b' : Block H} (hhead : b.header = b'.header)
    (hvalid : bc.isValidBlock b = true) (hvalid' : bc.isValidBlock b' = true)
    (hfree : ∀ tx ∈ b.body, ∀ tx' ∈ b'.body, tx.txHash = tx'.txHash → tx = tx') (tx : Transaction) :
    tx ∈ b.body ↔ tx ∈ b'.body := by
  simp only [isValidBlock, Bool.and_eq_true, beq_iff_eq] at hvalid hvalid'
  have hroots : getTxTreeRoot (H := H) b.body = getTxTreeRoot b'.body := by
    rw [hvalid.2, hvalid'.2, hhead]
  have hhashes := Hashing.txRoot_injective hroots
  have hmem := Finset.ext_iff.1 hhashes tx.txHash
  simp only [List.mem_toFinset, List.mem_map] at hmem
  constructor
  · intro htx
    obtain ⟨tx', htx', heq⟩ := hmem.1 ⟨tx, htx, rfl⟩
    exact hfree tx htx tx' htx' heq.symm ▸ htx'
  · intro htx'
    obtain ⟨tx₁, htx, heq⟩ := hmem.2 ⟨tx, htx', rfl⟩
    exact hfree tx₁ htx tx htx' heq ▸ htx

/-- **A header and its bodies.** Two valid blocks with one header have the same effect when every
    transaction has an effect, at its turn, as often in one body as in the other. -/
theorem header_binds_body {bc : BlockChain H} {b b' : Block H} (hhead : b.header = b'.header)
    (hvalid : bc.isValidBlock b = true) (hvalid' : bc.isValidBlock b' = true)
    (hfree : ∀ tx ∈ b.body, ∀ tx' ∈ b'.body, tx.txHash = tx'.txHash → tx = tx')
    (heffect : ∀ tx ∈ b.body,
      (bc.without idle b.body).count tx = (bc.without idle b'.body).count tx) :
    ExecutedAlike (bc.getUpdateStatusTrie b.body) (bc.getUpdateStatusTrie b'.body) := by
  refine getUpdateStatusTrie_perm (List.perm_iff_count.2 fun tx => ?_)
  by_cases htx : tx ∈ b.body
  · exact heffect tx htx
  · have htx' : tx ∉ b'.body := fun h => htx ((mem_body_iff hhead hvalid hvalid' hfree tx).2 h)
    rw [List.count_eq_zero_of_not_mem fun h => htx (mem_of_mem_without h),
      List.count_eq_zero_of_not_mem fun h => htx' (mem_of_mem_without h)]

/-- Another body under the header, and the hash, of a block. -/
def withBody (b : Block H) (txs : List Transaction) : Block H := { b with body := txs }

/-- Bob gives back what the sample chain's first block gave them. -/
def repay : Transaction :=
  { sender := bob, recipient := alice, nonce := 0, value := 5, txHash := [3] }

/-- Some address ends with different balances after the two executions. -/
def EndsApart (r r' : Option (BlockChain H × H)) (a : Address) : Prop :=
  ∃ x ∈ r, ∃ x' ∈ r', ∃ st ∈ x.1.triedb.trieNew x.2, ∃ st' ∈ x'.1.triedb.trieNew x'.2,
    st.balance a ≠ st'.balance a

instance (r r' : Option (BlockChain H × H)) (a : Address) : Decidable (EndsApart r r' a) :=
  inferInstanceAs (Decidable (∃ x ∈ r, ∃ x' ∈ r', ∃ st ∈ _, ∃ st' ∈ _, _ ≠ _))

/-- Two bodies pass under the header of the first block and end with different balances for
    `alice`. -/
def BothPassAndDiffer (bc : BlockChain H) (txs txs' : List Transaction) : Prop :=
  bc.isValidBlock (bc.withRoot txs bc.stateRoot) = true ∧
    bc.isValidBlock (withBody (bc.withRoot txs bc.stateRoot) txs') = true ∧
    EndsApart (bc.getUpdateStatusTrie txs) (bc.getUpdateStatusTrie txs') alice

instance (bc : BlockChain H) (txs txs' : List Transaction) :
    Decidable (bc.BothPassAndDiffer txs txs') :=
  inferInstanceAs (Decidable (_ ∧ _ ∧ _))

/-- A repeated transfer is executed twice under the header of the single one; and a payment that
    needs the money another one brings is refused when it comes first. -/
theorem body_not_bound :
    sampleChain.BothPassAndDiffer [transfer 5] [transfer 5, transfer 5] ∧
      sampleChain.BothPassAndDiffer [repay, transfer (10 ^ 44)] [transfer (10 ^ 44), repay] := by
  decide +kernel

/-- A payment of more than there is. -/
def hopeless : Transaction := { transfer (10 ^ 45) with txHash := [4] }

/-- Two payments that both senders can afford in either order, and one that is refused in either: the
    two bodies have one effect. -/
theorem payments_commute :
    ExecutedAlike (sampleChain.getUpdateStatusTrie [repay, transfer 7, hopeless])
      (sampleChain.getUpdateStatusTrie [hopeless, transfer 7, repay]) := by
  let txs := [repay, transfer 7, hopeless]
  let b := sampleChain.withRoot txs sampleChain.stateRoot
  have hhead : b.header = (withBody b txs.reverse).header := rfl
  have hvalid : sampleChain.isValidBlock b = true ∧
      sampleChain.isValidBlock (withBody b txs.reverse) = true := by decide +kernel
  have heffect : ∀ tx ∈ txs, (sampleChain.without idle txs).count tx =
      (sampleChain.without idle txs.reverse).count tx := by decide +kernel
  exact header_binds_body hhead hvalid.1 hvalid.2 (by decide) heffect

end BlockChain

end BlockEmulator
