import BlockEmulator.Chain.Runs
import BlockEmulator.Chain.Validity

set_option autoImplicit false

/-! # Settlements

All nodes of a shard have to agree on what a settlement pays, but Go ranges over a map in a random
order, and the bets of a height may have been appended in different orders. The settlement is written
down here once more with the orders in it: the one in which `chooseWinningPair` collects the pairs, the
one in which the stakes are added up, and whatever `sort.Slice` does inside its contract. The pairs
are sorted before one is picked, stakes and deposits commute, and the division is between totals; so
the outcome is that of `settle`, and depends on the bets only.

The second half is about time. A block is executed against the height before its own, so that bets on
its own height may still come in with it and are settled at the end of it. From the next block on they
are too late: an epoch is settled once, with all the bets that ever were accepted for it. -/

namespace BlockEmulator

/-! ## The order of a settlement -/

/-- The comparator of `chooseWinningPair`. -/
def pairLess (a b : Pair) : Bool := if a.1 ≠ b.1 then a.1 < b.1 else a.2 < b.2

/-- What `sort.Slice` does with this comparator: the pairs stay the same, and none is less than one
    before it. -/
structure SortsPairs (sortSlice : List Pair → List Pair) : Prop where
  perm : ∀ keys, (sortSlice keys).Perm keys
  ordered : ∀ keys, (sortSlice keys).Pairwise fun a b => pairLess b a = false

theorem pairLe_of_not_pairLess {a b : Pair} (h : pairLess b a = false) : pairLe a b := by
  unfold pairLess at h
  unfold pairLe
  split_ifs at h ⊢ with hb ha ha <;> simp at h <;> omega

section Orders

variable (sortSlice : List Pair → List Pair) (h : ℕ)

/-- `chooseWinningPair`, which has ranged over the pairs in the order `keys`. -/
def chooseWinningPairOf (keys : List Pair) : Option Pair :=
  let keys := sortSlice keys
  if keys.length = 0 then some (0, 0)
  else
    let idx := (goInt h).tmod keys.length
    if idx < 0 then none else keys[idx.toNat]?

/-- The stakes `W` and `L`, added up in the order `sums`. -/
def stakesOf (star : Pair) (sums : List (Σ _ : Pair, ℤ)) : ℤ × ℤ :=
  sums.foldl (fun s e => if e.1 = star then (s.1 + e.2, s.2) else (s.1, s.2 + e.2)) (0, 0)

/-- The settlement of height `h` with the two orders in which it ranges over the sums: the winning
    pair, the accounts and the book. -/
def settleOf (keys sums : List (Σ _ : Pair, ℤ)) (st : Accounts) (bk : G2EBook) :
    Option (Option Pair × Accounts × G2EBook) :=
  match bk.getEpoch h with
  | none => some (none, st, bk)
  | some eb =>
    (chooseWinningPairOf sortSlice h (keys.map Sigma.fst)).map fun star =>
      let s := stakesOf star sums
      (some star, if 0 < s.1 then payout (s.2 / s.1) (eb.bets star) st else st, bk.cleanup h)

end Orders

section Settle

variable {sortSlice : List Pair → List Pair} {h : ℕ} {eb : EpochBook}
  {keys sums : List (Σ _ : Pair, ℤ)}

theorem chooseWinningPairOf_eq (hsort : SortsPairs sortSlice) (hkeys : eb.sumByPair.Ranges keys) :
    chooseWinningPairOf sortSlice h (keys.map Sigma.fst) = chooseWinningPair h eb := by
  have hsorted : sortSlice (keys.map Sigma.fst) = eb.sumByPair.sortedKeys pairLe :=
    hkeys.sorted_eq pairLe (hsort.perm _)
      ((hsort.ordered _).imp fun hless => pairLe_of_not_pairLess hless)
  rw [chooseWinningPairOf, chooseWinningPair, hsorted]

theorem foldl_stakes (star : Pair) (sums : List (Σ _ : Pair, ℤ)) (w l : ℤ) :
    sums.foldl (fun s e => if e.1 = star then (s.1 + e.2, s.2) else (s.1, s.2 + e.2)) (w, l) =
      (w + (sums.map fun e => if e.1 = star then e.2 else 0).sum,
        l + (sums.map fun e => if e.1 = star then 0 else e.2).sum) := by
  induction sums generalizing w l with
  | nil => simp
  | cons e sums ih =>
    rw [List.foldl_cons]
    split
    · next hstar => simp [ih, hstar, add_assoc]
    · next hstar => simp [ih, hstar, add_assoc]

theorem stakesOf_eq (star : Pair) (hsums : eb.sumByPair.Ranges sums) :
    stakesOf star sums = (eb.winStake star, eb.loseStake star) := by
  have hwin := hsums.sum fun p sum => if p = star then sum else 0
  have hlose := hsums.sum fun p sum => if p = star then 0 else sum
  rw [stakesOf, foldl_stakes, hwin, hlose, zero_add, zero_add]
  rfl

/-- The settlement is `settle`, in whatever order it ranges over the sums. -/
theorem settleOf_eq (hsort : SortsPairs sortSlice) {bk : G2EBook}
    (hkeys : ∀ eb, bk.getEpoch h = some eb → eb.sumByPair.Ranges keys)
    (hsums : ∀ eb, bk.getEpoch h = some eb → eb.sumByPair.Ranges sums) (st : Accounts) :
    (settleOf sortSlice h keys sums st bk).map Prod.snd = settle h st bk := by
  unfold settleOf settle
  cases heb : bk.getEpoch h with
  | none => rfl
  | some eb =>
    simp only [chooseWinningPairOf_eq hsort (hkeys eb heb), stakesOf_eq _ (hsums eb heb),
      Option.map_map]
    rfl

/-- The settlement of a height with an epoch. -/
theorem settleOf_of_getEpoch (hsort : SortsPairs sortSlice) {bk : G2EBook}
    (heb : bk.getEpoch h = some eb) (hkeys : eb.sumByPair.Ranges keys)
    (hsums : eb.sumByPair.Ranges sums) {star : Pair} (hstar : chooseWinningPair h eb = some star)
    (st : Accounts) :
    settleOf sortSlice h keys sums st bk = some (some star, payEpoch eb star st, bk.cleanup h) := by
  rw [settleOf, heb]
  simp only [chooseWinningPairOf_eq hsort hkeys, hstar, stakesOf_eq _ hsums, Option.map_some]
  rfl

/-- The winning pair carries a bet, if any pair does. -/
theorem bets_chooseWinningPair_ne_nil {p star : Pair} (hp : eb.bets p ≠ [])
    (hstar : chooseWinningPair h eb = some star) : eb.bets star ≠ [] := by
  refine (eb.carries star).1 ?_
  unfold chooseWinningPair at hstar
  simp only [] at hstar
  split at hstar
  · next hlen =>
      have hmem := (Finmap.mem_sortedKeys pairLe).2 ((eb.carries p).2 hp)
      rw [List.eq_nil_of_length_eq_zero hlen] at hmem
      exact absurd hmem (by simp)
  · split at hstar
    · exact absurd hstar (by simp)
    · exact (Finmap.mem_sortedKeys pairLe).1 (List.mem_of_getElem? hstar)

/-- Two deposits of a payout can be swapped. -/
theorem payout_swap (q : ℤ) (st : Accounts) (e e' : BetEntry) :
    payout q [e, e'] st = payout q [e', e] st := by
  simp only [payout, List.foldl_cons, List.foldl_nil]
  by_cases hp : e.player = e'.player
  · rw [hp, Finmap.insert_insert, Finmap.insert_insert]
    congr 1
    simp only [Accounts.getOrNew, Finmap.lookup_insert, Option.getD_some, AccountState.deposit]
    rw [add_right_comm]
  · rw [Finmap.insert_insert_of_ne _ (Ne.symm hp)]
    simp only [Accounts.getOrNew, Finmap.lookup_insert_of_ne _ hp,
      Finmap.lookup_insert_of_ne _ (Ne.symm hp)]

/-- The order of the winning bets does not matter. -/
theorem payout_perm (q : ℤ) {es es' : List BetEntry} (hperm : es.Perm es') (st : Accounts) :
    payout q es st = payout q es' st :=
  hperm.foldl_eq' (fun e _ e' _ st => payout_swap q st e e') st

theorem payEpoch_perm {eb' : EpochBook} (hperm : ∀ p, (eb.bets p).Perm (eb'.bets p)) (star : Pair)
    (st : Accounts) : payEpoch eb star st = payEpoch eb' star st := by
  have hsums := EpochBook.sumByPair_eq_of_perm hperm
  unfold payEpoch
  rw [EpochBook.winStake, EpochBook.loseStake, hsums, ← EpochBook.winStake,
    ← EpochBook.loseStake]
  simp only [payout_perm _ (hperm star)]

end Settle

namespace G2EBook

variable {h : ℕ} {bk : G2EBook}

theorem bets_of_getEpoch {eb : EpochBook} (heb : bk.getEpoch h = some eb) (p : Pair) :
    bk.bets h p = eb.bets p := by
  rw [bets, show bk.lookup h = some eb from heb, Option.getD_some]

theorem bets_of_getEpoch_none (hnone : bk.getEpoch h = none) (p : Pair) : bk.bets h p = [] := by
  rw [bets, show bk.lookup h = none from hnone, Option.getD_none]
  rfl

/-- The bets of an epoch that starts with the list. -/
theorem bets_recordBets_of_getEpoch_none (hnone : bk.getEpoch h = none) (txs : List Transaction)
    (p : Pair) :
    (txs.foldl recordBet bk).bets h p =
      ((txs.filter fun t => t.height = h).filter fun t => (t.pairI, t.pairJ) = p).map
        fun t => ⟨t.sender, (t.pairI, t.pairJ), t.value⟩ := by
  rw [bets_recordBets, bets_of_getEpoch_none hnone, List.nil_append, List.filter_filter]
  simp only [Bool.decide_and, Bool.and_comm]

theorem getEpoch_recordBets_eq_none_iff (hnone : bk.getEpoch h = none) (txs : List Transaction) :
    (txs.foldl recordBet bk).getEpoch h = none ↔ (txs.filter fun t => t.height = h) = [] := by
  have hmem := mem_recordBets_iff txs bk h
  rw [getEpoch] at hnone
  rw [← Finmap.lookup_isSome, ← Finmap.lookup_isSome, hnone] at hmem
  rw [List.filter_eq_nil_iff, getEpoch, ← Option.not_isSome_iff_eq_none, hmem]
  simp

end G2EBook

/-- **Settlements do not depend on orders.** For all bets on a height there is one winning pair, which
    carries one of them, and one account state, such that the settlement ends with these: in whatever
    order, and between whatever other bets, they were appended, in whatever orders Go ranges over the
    sums, and however `sort.Slice` sorts the pairs. Without bets there is no settlement. -/
theorem settlement_order_irrelevant {h : ℕ} (hh : h < 2 ^ 63) (st : Accounts)
    (bets : List Transaction) :
    ∃ winner st', (∀ star ∈ winner, ∃ tx ∈ bets, tx.height = h ∧ (tx.pairI, tx.pairJ) = star) ∧
      (winner = none → (∀ tx ∈ bets, tx.height ≠ h) ∧ st' = st) ∧
      ∀ {txs : List Transaction} {bk : G2EBook} {sortSlice : List Pair → List Pair}
        {keys sums : List (Σ _ : Pair, ℤ)},
        (txs.filter fun t => t.height = h).Perm (bets.filter fun t => t.height = h) →
        bk.getEpoch h = none → SortsPairs sortSlice →
        (∀ eb, (txs.foldl G2EBook.recordBet bk).getEpoch h = some eb →
          eb.sumByPair.Ranges keys ∧ eb.sumByPair.Ranges sums) →
        ∃ bk', settleOf sortSlice h keys sums st (txs.foldl G2EBook.recordBet bk) =
          some (winner, st', bk') := by
  by_cases hbets : (bets.filter fun t => t.height = h) = []
  · refine ⟨none, st, by simp, fun _ => ⟨?_, rfl⟩, ?_⟩
    · simpa using List.filter_eq_nil_iff.1 hbets
    · intro txs bk sortSlice keys sums hperm hnone _ _
      rw [hbets] at hperm
      have hepoch := (G2EBook.getEpoch_recordBets_eq_none_iff hnone txs).2 hperm.eq_nil
      exact ⟨_, by rw [settleOf, hepoch]⟩
  · -- the epoch that starts with the bets as they are listed
    have hempty : G2EBook.getEpoch ∅ h = none := rfl
    obtain ⟨eb₀, heb₀⟩ := Option.ne_none_iff_exists'.1
      (mt (G2EBook.getEpoch_recordBets_eq_none_iff hempty bets).1 hbets)
    have hbets₀ := fun p => (G2EBook.bets_of_getEpoch heb₀ p).symm.trans
      (G2EBook.bets_recordBets_of_getEpoch_none hempty bets p)
    obtain ⟨star, hstar⟩ := chooseWinningPair_isSome hh eb₀
    refine ⟨some star, payEpoch eb₀ star st, ?_, by simp, ?_⟩
    · rintro _ ⟨rfl⟩
      obtain ⟨tx, htx⟩ := List.exists_mem_of_ne_nil _ hbets
      have hcarried : eb₀.bets (tx.pairI, tx.pairJ) ≠ [] := fun hnil => by
        rw [hbets₀, List.map_eq_nil_iff, List.filter_eq_nil_iff] at hnil
        exact hnil tx htx (by simp)
      obtain ⟨e, he⟩ := List.exists_mem_of_ne_nil _ (bets_chooseWinningPair_ne_nil hcarried hstar)
      rw [hbets₀ star, List.mem_map] at he
      obtain ⟨t, ht, -⟩ := he
      simp only [List.mem_filter, decide_eq_true_eq] at ht
      exact ⟨t, ht.1.1, ht.1.2, ht.2⟩
    · intro txs bk sortSlice keys sums hperm hnone hsort hranges
      have hsome : (txs.foldl G2EBook.recordBet bk).getEpoch h ≠ none := fun hepoch => by
        rw [(G2EBook.getEpoch_recordBets_eq_none_iff hnone txs).1 hepoch] at hperm
        exact hbets hperm.symm.eq_nil
      obtain ⟨eb, heb⟩ := Option.ne_none_iff_exists'.1 hsome
      have hsame : ∀ p, (eb.bets p).Perm (eb₀.bets p) := fun p => by
        rw [hbets₀ p, ← G2EBook.bets_of_getEpoch heb,
          G2EBook.bets_recordBets_of_getEpoch_none hnone]
        exact (hperm.filter _).map _
      have hchosen : chooseWinningPair h eb = some star := by
        rw [← hstar, chooseWinningPair, chooseWinningPair, EpochBook.sumByPair_eq_of_perm hsame]
      refine ⟨(txs.foldl G2EBook.recordBet bk).cleanup h, ?_⟩
      rw [← payEpoch_perm hsame]
      exact settleOf_of_getEpoch hsort heb (hranges eb heb).1 (hranges eb heb).2 hchosen st

theorem sortsPairs_insertionSort : SortsPairs fun keys => keys.insertionSort pairLe where
  perm := List.perm_insertionSort pairLe
  ordered := fun keys => (List.pairwise_insertionSort pairLe keys).imp fun {a b} hle => by
    unfold pairLe at hle
    unfold pairLess
    split_ifs at hle ⊢ <;> simp <;> omega

/-- The rival bets end alike, appended and ranged over one way and the other. -/
theorem rivalBets_settled_alike :
    ∃ star st' bk' bk'', ∃ orders : List (Σ _ : Pair, ℤ),
      settleOf (fun keys => keys.insertionSort pairLe) 2 orders orders ∅
        (BlockChain.rivalBets.foldl G2EBook.recordBet ∅) = some (some star, st', bk') ∧
      settleOf (fun keys => keys.insertionSort pairLe) 2 orders.reverse orders.reverse ∅
        (BlockChain.rivalBets.reverse.foldl G2EBook.recordBet ∅) = some (some star, st', bk'') := by
  obtain ⟨winner, st', -, hwon, hall⟩ :=
    settlement_order_irrelevant (h := 2) (by decide) ∅ BlockChain.rivalBets
  obtain ⟨star, rfl⟩ : ∃ star, winner = some star := by
    refine Option.ne_none_iff_exists'.1 fun hnone => ?_
    exact (hwon hnone).1 (BlockChain.bet 2 2) (by decide) rfl
  have horders : ∀ eb ∈ (BlockChain.rivalBets.foldl G2EBook.recordBet ∅).getEpoch 2,
      eb.sumByPair.Ranges [⟨(0, 0), 2⟩, ⟨(1, 0), 5⟩] := by decide
  have horders' : ∀ eb ∈ (BlockChain.rivalBets.reverse.foldl G2EBook.recordBet ∅).getEpoch 2,
      eb.sumByPair.Ranges [⟨(1, 0), 5⟩, ⟨(0, 0), 2⟩] := by decide
  obtain ⟨bk', hone⟩ := hall (.refl _) rfl sortsPairs_insertionSort
    fun eb heb => ⟨horders eb heb, horders eb heb⟩
  obtain ⟨bk'', hother⟩ := hall ((List.reverse_perm _).filter _) rfl sortsPairs_insertionSort
    fun eb heb => ⟨horders' eb heb, horders' eb heb⟩
  exact ⟨star, st', bk', bk'', _, hone, hother⟩

/-! ## Every epoch is settled once -/

namespace BlockChain

variable {H : Type} [DecidableEq H] [Hashing H]

/-- The bets that the execution of a list appends to the book. -/
def acceptedBy (bc : BlockChain H) (txs : List Transaction) : List Transaction :=
  match bc.accounts with
  | none => []
  | some st => bc.newBets txs st

/-- The settlement that the execution of a list ends with: the next height and its epoch. -/
def settlementOf (bc : BlockChain H) (txs : List Transaction) : List (ℕ × EpochBook) :=
  match bc.accounts with
  | none => []
  | some st =>
    if (bc.execLoop txs st).cnt = 0 then []
    else (((bc.execLoop txs st).book.getEpoch (bc.height + 1)).map (bc.height + 1, ·)).toList

theorem acceptedBy_of_quiet {bc : BlockChain H} {txs : List Transaction} (hq : bc.Quiet txs) :
    bc.acceptedBy txs = [] := by
  unfold acceptedBy
  split
  · rfl
  · next st hst => exact atTurn_accepts_of_idle (idle_of_quiet hq hst) 0

theorem settlementOf_of_quiet {bc : BlockChain H} {txs : List Transaction} (hq : bc.Quiet txs) :
    bc.settlementOf txs = [] := by
  unfold settlementOf
  split
  · rfl
  · next st hst => rw [if_pos ((execLoop_cnt_eq_zero_iff bc txs st).2 (idle_of_quiet hq hst))]

/-- **The book after one execution.** The accepted bets are appended; then nothing is settled, or the
    epoch of the next height is, and is gone. -/
theorem getUpdateStatusTrie_book {bc bc' : BlockChain H} {txs : List Transaction} {rt : H}
    (hexec : bc.getUpdateStatusTrie txs = some (bc', rt)) :
    (bc.settlementOf txs = [] ∧
      bc'.g2eBook = (bc.acceptedBy txs).foldl G2EBook.recordBet bc.g2eBook) ∨
    ∃ eb, bc.settlementOf txs = [(bc.height + 1, eb)] ∧
      ((bc.acceptedBy txs).foldl G2EBook.recordBet bc.g2eBook).getEpoch (bc.height + 1) = some eb ∧
      bc'.g2eBook =
        ((bc.acceptedBy txs).foldl G2EBook.recordBet bc.g2eBook).cleanup (bc.height + 1) := by
  rcases getUpdateStatusTrie_cases hexec with ⟨hq, rfl, -⟩ | ⟨hq, st, st', bk', hst, hs, rfl, -⟩
  · left
    rw [acceptedBy_of_quiet hq, settlementOf_of_quiet hq]
    exact ⟨rfl, rfl⟩
  · have hcnt : (bc.execLoop txs st).cnt ≠ 0 := fun h0 =>
      hq (.inr ⟨st, hst, (execLoop_cnt_eq_zero_iff bc txs st).1 h0⟩)
    have hbook : bk' = (bc.execLoop txs st).book.cleanup (bc.height + 1) := settle_book hs
    have hnew : (bc.acceptedBy txs).foldl G2EBook.recordBet bc.g2eBook =
        (bc.execLoop txs st).book := by
      rw [execLoop_book, acceptedBy, hst]
    have hset : bc.settlementOf txs =
        (((bc.execLoop txs st).book.getEpoch (bc.height + 1)).map (bc.height + 1, ·)).toList := by
      rw [settlementOf, hst]
      exact if_neg hcnt
    rw [hnew, hset]
    cases hepoch : (bc.execLoop txs st).book.getEpoch (bc.height + 1) with
    | none => exact .inl ⟨rfl, hbook.trans (G2EBook.cleanup_of_getEpoch_none hepoch)⟩
    | some eb => exact .inr ⟨eb, rfl, rfl, hbook⟩

/-- A bet that is accepted is on a height after the current one. -/
theorem height_lt_of_mem_acceptedBy {bc : BlockChain H} (hbeta : 1 ≤ bc.chainConfig.g2eBeta)
    (hfits : bc.WindowFits) {txs : List Transaction} {tx : Transaction}
    (h : tx ∈ bc.acceptedBy txs) : bc.height < tx.height := by
  unfold acceptedBy at h
  split at h
  · exact absurd h (by simp)
  · exact height_lt_of_mem_newBets hbeta hfits h

end BlockChain

/-- The bets of a list on one height and pair, as the book has them. -/
def betsOn (txs : List Transaction) (h : ℕ) (p : Pair) : List BetEntry :=
  (txs.filter fun t => t.height = h ∧ (t.pairI, t.pairJ) = p).map
    fun t => ⟨t.sender, (t.pairI, t.pairJ), t.value⟩

theorem betsOn_append (txs txs' : List Transaction) (h : ℕ) (p : Pair) :
    betsOn (txs ++ txs') h p = betsOn txs h p ++ betsOn txs' h p := by
  simp [betsOn]

theorem betsOn_eq_nil {txs : List Transaction} {h : ℕ} (hne : ∀ tx ∈ txs, tx.height ≠ h) (p : Pair) :
    betsOn txs h p = [] := by
  rw [betsOn, List.map_eq_nil_iff, List.filter_eq_nil_iff]
  intro tx htx
  simp [hne tx htx]

/-- A height is settled at most once, no later than it is reached; its epoch is gone for good and had
    all the bets on the height that are accepted in the whole run, after those of the book `bk` that
    the run starts with. What is not settled is still in the book. -/
structure SettledOnce (bk : G2EBook) (height : ℕ) (book : G2EBook) (accepted : List Transaction)
    (settled : List (ℕ × EpochBook)) : Prop where
  distinct : (settled.map Prod.fst).Nodup
  reached : ∀ s ∈ settled, s.1 ≤ height
  gone : ∀ s ∈ settled, book.getEpoch s.1 = none
  complete : ∀ s ∈ settled, ∀ p, s.2.bets p = bk.bets s.1 p ++ betsOn accepted s.1 p
  waiting : ∀ h ∉ settled.map Prod.fst, ∀ p, book.bets h p = bk.bets h p ++ betsOn accepted h p

namespace SettledOnce

variable {bk book : G2EBook} {height : ℕ} {accepted : List Transaction}
  {settled : List (ℕ × EpochBook)}

theorem succ (hinv : SettledOnce bk height book accepted settled) :
    SettledOnce bk (height + 1) book accepted settled :=
  { hinv with reached := fun s hs => (hinv.reached s hs).trans (Nat.le_succ _) }

/-- Bets on later heights are accepted. -/
theorem accept (hinv : SettledOnce bk height book accepted settled) {txs : List Transaction}
    (hlate : ∀ tx ∈ txs, height < tx.height) :
    SettledOnce bk height (txs.foldl G2EBook.recordBet book) (accepted ++ txs) settled where
  distinct := hinv.distinct
  reached := hinv.reached
  gone := fun s hs => by
    rw [G2EBook.getEpoch_recordBets_of_forall_ne txs]
    · exact hinv.gone s hs
    · exact fun tx htx => ((hinv.reached s hs).trans_lt (hlate tx htx)).ne'
  complete := fun s hs p => by
    have hnone := betsOn_eq_nil
      (fun tx htx => ((hinv.reached s hs).trans_lt (hlate tx htx)).ne') p
    rw [betsOn_append, hnone, List.append_nil, hinv.complete s hs]
  waiting := fun h hh p => by
    rw [G2EBook.bets_recordBets, hinv.waiting h hh, betsOn_append, List.append_assoc]
    rfl

/-- The next height is settled, when it is reached. -/
theorem settle (hinv : SettledOnce bk height book accepted settled) {eb : EpochBook}
    (heb : book.getEpoch (height + 1) = some eb) :
    SettledOnce bk (height + 1) (book.cleanup (height + 1)) accepted
      (settled ++ [(height + 1, eb)]) := by
  have hnew : height + 1 ∉ settled.map Prod.fst := fun hmem => by
    obtain ⟨s, hs, heq⟩ := List.mem_map.1 hmem
    have hle := hinv.reached s hs
    omega
  refine ⟨?_, ?_, ?_, ?_, ?_⟩
  · rw [List.map_append, List.nodup_append]
    refine ⟨hinv.distinct, by simp, ?_⟩
    rintro a ha _ hb rfl
    obtain rfl : a = height + 1 := by simpa using hb
    exact hnew ha
  · intro s hs
    rcases List.mem_append.1 hs with hs | hs
    · exact (hinv.reached s hs).trans (Nat.le_succ _)
    · exact (List.mem_singleton.1 hs ▸ le_rfl)
  · intro s hs
    rcases List.mem_append.1 hs with hs | hs
    · have hle := hinv.reached s hs
      rw [G2EBook.getEpoch_cleanup_of_ne _ (by omega)]
      exact hinv.gone s hs
    · obtain rfl := List.mem_singleton.1 hs
      exact G2EBook.getEpoch_cleanup_self _ _
  · intro s hs p
    rcases List.mem_append.1 hs with hs | hs
    · exact hinv.complete s hs p
    · obtain rfl := List.mem_singleton.1 hs
      rw [← hinv.waiting _ hnew, G2EBook.bets_of_getEpoch heb]
  · intro h hh p
    rw [List.map_append, List.mem_append, not_or] at hh
    have hne : h ≠ height + 1 := fun heq => hh.2 (by simp [heq])
    rw [← hinv.waiting h hh.1]
    simp only [G2EBook.bets, G2EBook.cleanup, Finmap.lookup_erase_ne hne]

end SettledOnce

/-- A chain that executes every block before it appends it, with the bets it has accepted and the
    epochs it has settled so far. -/
structure EpochTrace (H : Type) [DecidableEq H] [Hashing H] where
  chain : BlockChain H
  accepted : List Transaction
  settled : List (ℕ × EpochBook)

namespace EpochTrace

variable {H : Type} [DecidableEq H] [Hashing H] {t t' : EpochTrace H}

/-- The next block is executed, and becomes the current one. -/
def step (t : EpochTrace H) (b : Block H) : Option (EpochTrace H) :=
  if t.chain.Extends b then
    (t.chain.getUpdateStatusTrie b.body).map fun r =>
      { chain := r.1.append b
        accepted := t.accepted ++ t.chain.acceptedBy b.body
        settled := t.settled ++ t.chain.settlementOf b.body }
  else none

/-- **One block.** -/
theorem step_spec {b : Block H} (h : t.step b = some t') :
    t.chain.Extends b ∧ ∃ bc' rt, t.chain.getUpdateStatusTrie b.body = some (bc', rt) ∧
      t'.chain = bc'.append b ∧ t'.accepted = t.accepted ++ t.chain.acceptedBy b.body ∧
      t'.settled = t.settled ++ t.chain.settlementOf b.body := by
  unfold step at h
  split at h
  · next hext =>
      obtain ⟨⟨bc', rt⟩, hexec, rfl⟩ := Option.map_eq_some_iff.1 h
      exact ⟨hext, bc', rt, hexec, rfl, rfl, rfl⟩
  · exact absurd h (by simp)

theorem chainConfig_step {b : Block H} (h : t.step b = some t') :
    t'.chain.chainConfig = t.chain.chainConfig := by
  obtain ⟨-, bc', rt, hexec, hchain, -, -⟩ := step_spec h
  rw [hchain, BlockChain.getUpdateStatusTrie_frame hexec]
  rfl

/-- Every epoch has been settled at most once, in a run from a chain with the book `bk`. -/
def Once (bk : G2EBook) (t : EpochTrace H) : Prop :=
  SettledOnce bk t.chain.height t.chain.g2eBook t.accepted t.settled

theorem Once.step {bk : G2EBook} (hinv : Once bk t) (hbeta : 1 ≤ t.chain.chainConfig.g2eBeta)
    (hfits : t.chain.WindowFits) {b : Block H} (hstep : t.step b = some t') : Once bk t' := by
  obtain ⟨hext, bc', rt, hexec, hchain, haccepted, hsettled⟩ := step_spec hstep
  have hheight : t'.chain.height = t.chain.height + 1 := by
    rw [hchain]
    exact hext.1
  have hbook : t'.chain.g2eBook = bc'.g2eBook := by
    rw [hchain]
    rfl
  have hlate : ∀ tx ∈ t.chain.acceptedBy b.body, t.chain.height < tx.height := fun tx htx =>
    BlockChain.height_lt_of_mem_acceptedBy hbeta hfits htx
  unfold Once at hinv ⊢
  rw [hheight, hbook, haccepted, hsettled]
  rcases BlockChain.getUpdateStatusTrie_book hexec with ⟨hnone, hbk⟩ | ⟨eb, hset, heb, hbk⟩
  · rw [hnone, hbk, List.append_nil]
    exact (hinv.accept hlate).succ
  · rw [hset, hbk]
    exact (hinv.accept hlate).settle heb

/-- **Every epoch is settled at most once, and never reopened.** In every state of every run that
    executes each block once, the settled heights are distinct, a settled epoch had all the bets on its
    height that the run accepts, and it is no longer in the book; and no block executed next gets a bet
    on a settled height accepted. -/
theorem epochs_settled_once {bc₀ : BlockChain H} (hbeta : 1 ≤ bc₀.chainConfig.g2eBeta)
    (hrun : ReachesUnder step (fun t _ => t.chain.WindowFits) ⟨bc₀, [], []⟩ t) :
    t.Once bc₀.g2eBook ∧
      ∀ b, t.chain.WindowFits → ∀ tx ∈ t.chain.acceptedBy b, tx.height ∉ t.settled.map Prod.fst := by
  have hinv : t.chain.chainConfig = bc₀.chainConfig ∧ t.Once bc₀.g2eBook := by
    refine hrun.invariant (I := fun t => t.chain.chainConfig = bc₀.chainConfig ∧ t.Once bc₀.g2eBook)
      ⟨rfl, ?_⟩ ?_
    · exact ⟨by simp, by simp, by simp, by simp, fun h _ p => by simp [betsOn]⟩
    · rintro t b t' ⟨hcc, hinv⟩ hfits hstep
      exact ⟨(chainConfig_step hstep).trans hcc, hinv.step (hcc ▸ hbeta) hfits hstep⟩
  refine ⟨hinv.2, fun txs hfits tx htx hmem => ?_⟩
  obtain ⟨s, hs, heq⟩ := List.mem_map.1 hmem
  have hle := hinv.2.reached s hs
  have hlt := BlockChain.height_lt_of_mem_acceptedBy (hinv.1 ▸ hbeta) hfits htx
  omega

/-- The rival bets are accepted in the first block and settled in the second. -/
theorem rivalBets_settled_once :
    ∃ t, ReachesUnder step (fun t _ => t.chain.WindowFits) ⟨BlockChain.sampleGenesis, [], []⟩ t ∧
      t.settled.map Prod.fst = [2] ∧ t.Once BlockChain.sampleGenesis.g2eBook := by
  have hrun : ∃ t ∈ runChecked step (fun t _ => decide t.chain.WindowFits)
      ⟨BlockChain.sampleGenesis, [], []⟩
      (BlockChain.sampleGenesis.blocksOf [BlockChain.rivalBets, [BlockChain.transfer 1]]),
      t.settled.map Prod.fst = [2] := by decide +kernel
  obtain ⟨t, ht, hsettled⟩ := hrun
  have hreach : ReachesUnder step (fun t _ => t.chain.WindowFits) ⟨BlockChain.sampleGenesis, [], []⟩ t :=
    reachesUnder_of_runDecided ht
  exact ⟨t, hreach, hsettled, (epochs_settled_once (by decide) hreach).1⟩

end EpochTrace

end BlockEmulator
