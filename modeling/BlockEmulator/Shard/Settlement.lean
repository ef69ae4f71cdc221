import BlockEmulator.Chain.Conservation
import BlockEmulator.Chain.Propose
import BlockEmulator.Shard.Migration

set_option autoImplicit false

/-! # Settlements and migration

A bet stays in the book of the shard that accepted it; the player's account may be moved away by a
partition before the target height is settled. The settlement credits the player in the trie that the
book belongs to. So the gain reaches the player's account exactly if its home is that shard at the
time, be it that it never left or that it has come back. Otherwise it goes to the copy that the
migration left behind. -/

namespace BlockEmulator

variable {H : Type} [DecidableEq H] [Hashing H] {S : ℕ}

/-! ## What a settlement pays one player -/

/-- What the settlement of an epoch pays to one player. -/
def EpochBook.gainOf (eb : EpochBook) (star : Pair) (a : Address) : ℤ :=
  if 0 < eb.winStake star then
    (((eb.bets star).filter fun e => e.player = a).map fun e =>
      e.amount * (eb.loseStake star / eb.winStake star)).sum
  else 0

theorem balance_payEpoch (eb : EpochBook) (star : Pair) (st : Accounts) (a : Address) :
    (payEpoch eb star st).balance a = st.balance a + eb.gainOf star a := by
  unfold payEpoch EpochBook.gainOf
  simp only []
  split
  · exact balance_payout _ _ st a
  · simp

namespace BlockChain

/-- The accounts after the transactions, before any settlement. -/
def executed (bc : BlockChain H) (txs : List Transaction) : Accounts :=
  (bc.execLoop txs (bc.accounts.getD ∅)).st

/-- The block a leader generates when it settles an epoch brings the gains into the shard's trie. -/
theorem generateBlock_settles {bc bc' : BlockChain H} {b : Block H} {miner : ℤ} {now : ℕ}
    {eb : EpochBook} {star : Pair} (hset : bc.Settles bc.packForBlock.1 eb star)
    (h : bc.generateBlock miner now = some (bc', b)) :
    (bc'.append b).accounts = some (payEpoch eb star (bc.executed bc.packForBlock.1)) := by
  obtain ⟨rt, hexec, rfl⟩ := generateBlockOf_cases h
  obtain ⟨hloud, st, hst, heb, hstar⟩ := hset
  rcases getUpdateStatusTrie_cases hexec with ⟨hq, -, -⟩ | ⟨-, st₁, st', bk', hst₁, hs, rfl, rfl⟩
  · exact absurd hq hloud
  · obtain rfl : st = st₁ := Option.some.inj (hst.symm.trans hst₁)
    have hpay : st' = payEpoch eb star (bc.execLoop bc.packForBlock.1 st).st := by
      have hs' : settle (bc.height + 1) (bc.execLoop bc.packForBlock.1 st).st
          (bc.execLoop bc.packForBlock.1 st).book = some (st', bk') := hs
      rw [settle, heb] at hs'
      simp only [hstar, Option.map_some, Option.some.injEq, Prod.mk.injEq] at hs'
      exact hs'.1.symm
    rw [executed, hst, Option.getD_some, ← hpay]
    exact TrieDB.trieNew_commit_self _ _

/-- A leader that settles an epoch does not panic. -/
theorem generateBlock_ne_none {bc : BlockChain H} {eb : EpochBook} {star : Pair}
    (hset : bc.Settles bc.packForBlock.1 eb star) (miner : ℤ) (now : ℕ) :
    bc.generateBlock miner now ≠ none := by
  obtain ⟨hloud, st, hst, heb, hstar⟩ := hset
  let packed : BlockChain H := { bc with txpool := bc.packForBlock.2 }
  have hexec := getUpdateStatusTrie_of_not_quiet (show packed.accounts = some st from hst) hloud
  have hs : settle (bc.height + 1) (bc.execLoop bc.packForBlock.1 st).st
      (bc.execLoop bc.packForBlock.1 st).book ≠ none := by
    simp [settle, heb, hstar]
  rw [generateBlock, generateBlockOf, hexec, ne_eq, Option.map_eq_none_iff, Option.map_eq_none_iff]
  exact hs

end BlockChain

/-! ## From the proposal to the commit -/

/-- The leader has executed the block, which left the chain `bc`, and waits for its commit. -/
def Leader.Awaits (bc : BlockChain H) (b : Block H) (n : Leader H) : Prop :=
  n.phase = .proposed (.block b) ∧ ∃ pool, n.curChain = { bc with txpool := pool }

/-- While it waits, messages change its pool only. -/
theorem Leader.Awaits.handleMessageOutsidePBFT {bc : BlockChain H} {b : Block H} {n : Leader H}
    (hn : n.Awaits bc b) (ht : HandleType) (m : ShardMsg) :
    (n.handleMessageOutsidePBFT ht m).Awaits bc b := by
  obtain ⟨hphase, pool, hchain⟩ := hn
  have hpool : ∀ txs, (n.addTxs2Pool txs).Awaits bc b := by
    intro txs
    refine ⟨hphase, pool.addTxs2Pool txs, ?_⟩
    rw [Leader.addTxs2Pool, hchain]
  cases m with
  | injectTxs txs => exact hpool txs
  | relay txs sid seq => exact hpool txs
  | partitionModifiedMap m =>
    rw [Leader.handleMessageOutsidePBFT]
    split <;> exact ⟨hphase, pool, hchain⟩
  | partitionReady sid seq =>
    rw [Leader.handleMessageOutsidePBFT]
    split <;> exact ⟨hphase, pool, hchain⟩
  | accountStateAndTx at' =>
    rw [Leader.handleMessageOutsidePBFT]
    split <;> exact ⟨hphase, pool, hchain⟩

namespace ShardWorld

/-- Whatever the others do, the leader waits until its block is committed. -/
theorem awaits_step {ht : HandleType} {w w' : ShardWorld H S} {a : ShardAct S} {i : Fin S}
    {bc : BlockChain H} {b : Block H} (hw : (w.leaders i).Awaits bc b) (ha : a ≠ .commit i)
    (h : w.step ht a = some w') : (w'.leaders i).Awaits bc b := by
  have hupdate : ∀ {j : Fin S} {n : Leader H}, (j = i → n.Awaits bc b) →
      (Function.update w.leaders j n i).Awaits bc b := by
    intro j n hn
    by_cases hj : j = i
    · subst hj
      rw [Function.update_self]
      exact hn rfl
    · rw [Function.update_of_ne (Ne.symm hj)]
      exact hw
  have hbusy : ∀ {j : Fin S} {p : ProposePhase H}, (w.leaders j).phase = p → j = i →
      p = .proposed (.block b) := by
    intro j p hp hj
    rw [← hp, hj, hw.1]
  cases steps_of_step h with
  | txSending => exact hw
  | clpaMapSend => exact hw
  | deliver => exact hupdate fun hj => hj ▸ hw.handleMessageOutsidePBFT _ _
  | proposePanics => exact hupdate fun hj => by subst hj; exact hw
  | proposeBlock _ hphase => exact hupdate fun hj => absurd (hbusy hphase hj) (by simp)
  | sendPartitionReady _ hphase => exact hupdate fun hj => absurd (hbusy hphase hj) (by simp)
  | sendAccountsAndTxs hphase => exact hupdate fun hj => absurd (hbusy hphase hj) (by simp)
  | proposePartition hphase => exact hupdate fun hj => absurd (hbusy hphase hj) (by simp)
  | commitBlock => exact hupdate fun hj => absurd (hj ▸ rfl) ha
  | commitPartition => exact hupdate fun hj => absurd (hj ▸ rfl) ha

end ShardWorld

/-- The commit makes the executed block the current one. -/
theorem Leader.Awaits.commitBlock {bc : BlockChain H} {b : Block H} {n : Leader H}
    (hn : n.Awaits bc b) (hext : bc.Extends b) {st : Accounts}
    (hst : (bc.append b).accounts = some st) :
    (n.commitBlock b).1.curChain.accounts = some st := by
  obtain ⟨-, pool, hchain⟩ := hn
  have hadd : ({ bc with txpool := pool } : BlockChain H).addBlock b =
      some (({ bc with txpool := pool } : BlockChain H).append b) :=
    BlockChain.addBlock_of_known hext hst
  rw [Leader.commitBlock, hchain, hadd]
  simp only
  split
  · exact hst
  · exact hst

/-! ## Where the gain goes -/

namespace ShardWorld

/-- The balance of an account in shard `home` when shard `i` has executed the transactions of its
    block on the chain `bc` and has not settled yet. -/
def unsettled (w : ShardWorld H S) (i : Fin S) (bc : BlockChain H) (home : ℕ) (a : Address) : ℤ :=
  if home = i then (bc.executed bc.packForBlock.1).balance a else (w.stateAt home a).balance

theorem stateAt_commitBlock_of_ne (w : ShardWorld H S) {i : Fin S} (b : Block H) {sid : ℕ}
    (hsid : sid ≠ i) (a : Address) : (w.commitBlock i b).stateAt sid a = w.stateAt sid a := by
  unfold stateAt
  split
  · next hlt =>
      have hne : (⟨sid, hlt⟩ : Fin S) ≠ i := fun h => hsid (congrArg Fin.val h)
      rw [show (w.commitBlock i b).leaders ⟨sid, hlt⟩ = w.leaders ⟨sid, hlt⟩ from
        Function.update_of_ne hne _ _]
  · rfl

section Settle

variable {w w₁ w₂ w₃ : ShardWorld H S} {i : Fin S} {now : ℕ} {eb : EpochBook} {star : Pair}
  (hset : (w.leaders i).curChain.Settles (w.leaders i).curChain.packForBlock.1 eb star)
  (hpropose : w.step .clpa (.proposeBlock i now) = some w₁)
  (hwait : ReachesUnder (step .clpa) (fun _ a => a ≠ .commit i) w₁ w₂)
  (hcommit : w₂.step .clpa (.commit i) = some w₃)

include hset hpropose hwait hcommit in
/-- What the commit of a settling block does to the tries: in shard `i` every player has the gain on
    top of what the transactions left, the other shards keep theirs. -/
theorem settlement_committed (a : Address) :
    (w₃.stateAt i a).balance = ((w.leaders i).curChain.executed
        (w.leaders i).curChain.packForBlock.1).balance a + eb.gainOf star a ∧
      ∀ sid : ℕ, sid ≠ i → w₃.stateAt sid a = w₂.stateAt sid a := by
  cases steps_of_step hpropose with
  | proposePanics hnone => exact absurd hnone (BlockChain.generateBlock_ne_none hset 0 now)
  | @proposeBlock _ _ bc b _ _ hgen =>
  have hst := BlockChain.generateBlock_settles hset hgen
  obtain ⟨hfiles, hext, -⟩ := BlockChain.generateBlock_spec hgen
  have hext' : bc.Extends b := by
    rw [BlockChain.Extends, hfiles.height, hfiles.block]
    exact hext
  have hawaits : (w₂.leaders i).Awaits bc b := by
    refine hwait.invariant (I := fun w => (w.leaders i).Awaits bc b) ?_
      fun _ _ _ hw ha h => awaits_step hw ha h
    show (Function.update w.leaders i _ i).Awaits bc b
    rw [Function.update_self]
    exact ⟨rfl, bc.txpool, rfl⟩
  cases steps_of_step hcommit with
  | commitPartition hphase => exact absurd (hphase.symm.trans hawaits.1) (by simp)
  | commitBlock _ hphase =>
  obtain ⟨⟨⟩⟩ := ProposePhase.proposed.inj (hphase.symm.trans hawaits.1)
  have hacc : ((w₂.commitBlock i b).leaders i).curChain.accounts = some (payEpoch eb star
      ((w.leaders i).curChain.executed (w.leaders i).curChain.packForBlock.1)) := by
    show (Function.update w₂.leaders i _ i).curChain.accounts = _
    rw [Function.update_self]
    exact hawaits.commitBlock hext' hst
  refine ⟨?_, fun sid hsid => stateAt_commitBlock_of_ne w₂ b hsid a⟩
  rw [stateAt_val, hacc, Option.getD_some]
  exact balance_payEpoch eb star _ a

include hset hpropose hwait hcommit in
/-- **The gain is credited at the player's home if and only if the home is the shard that settles.**
    Leader `i` proposes a block that settles an epoch, any steps follow, and the block is committed:
    in shard `i` the player's balance rises by the gain, wherever the account lives. -/
theorem gain_at_home_iff (player : Address) :
    (w₃.stateAt i player).balance =
        w₂.unsettled i (w.leaders i).curChain i player + eb.gainOf star player ∧
      ((w₃.stateAt ((w₂.leaders i).curChain.getPartitionMap player) player).balance =
          w₂.unsettled i (w.leaders i).curChain
            ((w₂.leaders i).curChain.getPartitionMap player) player + eb.gainOf star player ↔
        (w₂.leaders i).curChain.getPartitionMap player = i ∨ eb.gainOf star player = 0) := by
  obtain ⟨hhere, hother⟩ := settlement_committed hset hpropose hwait hcommit player
  generalize (w₂.leaders i).curChain.getPartitionMap player = home
  have hself : w₂.unsettled i (w.leaders i).curChain i player =
      ((w.leaders i).curChain.executed (w.leaders i).curChain.packForBlock.1).balance player :=
    if_pos rfl
  rw [hself]
  refine ⟨hhere, ?_⟩
  by_cases hhome : home = i
  · subst hhome
    rw [hself]
    exact iff_of_true hhere (.inl rfl)
  · rw [hother home hhome, unsettled, if_neg hhome, left_eq_add]
    exact ⟨.inr, fun h => h.resolve_left hhome⟩

end Settle

section Sample

open BlockChain

/-- Alice and carol, who live in the first of two shards, bet against each other; alice will win at
    an odd height. Carol's transfer is for the block that settles. -/
def wager (height : ℕ) : List Transaction :=
  [{ bet 2 height with recipient := carol, pairI := 1 },
    { bet 5 height with sender := carol, recipient := alice },
    { transfer 1 with sender := carol, recipient := carol }]

/-- The bets are placed; then the leaders carry out a map that moves alice. -/
def betAndLeave (i j : Fin 2) (m : ShardMap) : List (ShardAct 2) :=
  [.txSending 2, .deliver 0, .deliver 0, .proposeBlock i 0, .commit i, .deliver 0,
    .clpaMapSend m, .deliver 0, .deliver 0] ++ migrating i j [alice] []

/-- After another block a second map brings alice back. -/
def comeBack (i j : Fin 2) (m : ShardMap) : List (ShardAct 2) :=
  [.proposeBlock i 0, .commit i, .deliver 0, .clpaMapSend m, .deliver 0, .deliver 0] ++
    migrating i j [] [alice]

/-- The transfer arrives. -/
def lastTransfer : List (ShardAct 2) := [.txSending 1, .deliver 0, .deliver 0]

/-- Alice is back when the epoch is settled, and gets the gain. -/
theorem gain_after_return : ∃ (w w₁ w₂ : ShardWorld SymHash 2) (eb : EpochBook) (star : Pair),
    Reaches (step .clpa) (init twoShards (wager 5)) w ∧
    (w.leaders 0).curChain.Settles (w.leaders 0).curChain.packForBlock.1 eb star ∧
    w.step .clpa (.proposeBlock 0 0) = some w₁ ∧ w₁.step .clpa (.commit 0) = some w₂ ∧
    (w₂.stateAt ((w₁.leaders 0).curChain.getPartitionMap alice) alice).balance =
      w₁.unsettled 0 (w.leaders 0).curChain ((w₁.leaders 0).curChain.getPartitionMap alice) alice +
        eb.gainOf star alice ∧
    eb.gainOf star alice = 4 := by
  have hrun : ∃ w ∈ runActions (step .clpa) (init twoShards (wager 5))
      (betAndLeave 0 1 (Finmap.singleton alice 1) ++ comeBack 0 1 (Finmap.singleton alice 0) ++
        lastTransfer),
      ∃ w₁ ∈ w.step .clpa (.proposeBlock 0 0), ∃ w₂ ∈ w₁.step .clpa (.commit 0),
      ¬ (w.leaders 0).curChain.Quiet (w.leaders 0).curChain.packForBlock.1 ∧
      ∃ st ∈ (w.leaders 0).curChain.accounts,
      ∃ eb ∈ ((w.leaders 0).curChain.execLoop (w.leaders 0).curChain.packForBlock.1
        st).book.getEpoch ((w.leaders 0).curChain.height + 1),
      ∃ star ∈ chooseWinningPair ((w.leaders 0).curChain.height + 1) eb,
      (w₁.leaders 0).curChain.getPartitionMap alice = 0 ∧ eb.gainOf star alice = 4 := by
    decide +kernel
  obtain ⟨w, hw, w₁, hw₁, w₂, hw₂, hloud, st, hst, eb, heb, star, hstar, hhome, hgain⟩ := hrun
  have hset : (w.leaders 0).curChain.Settles (w.leaders 0).curChain.packForBlock.1 eb star :=
    ⟨hloud, st, hst, heb, hstar⟩
  refine ⟨w, w₁, w₂, eb, star, reaches_of_runActions hw, hset, hw₁, hw₂, ?_, hgain⟩
  exact (gain_at_home_iff hset hw₁ .refl hw₂ alice).2.2 (.inl hhome)

/-- Alice has moved to the second shard, and the gain goes to the copy in the first. -/
theorem gain_to_stale_copy : ∃ w₁ w₂ : ShardWorld SymHash 2,
    Reaches (step .clpa) (init twoShards (wager 3)) w₁ ∧ w₁.step .clpa (.commit 0) = some w₂ ∧
    { bet 2 3 with recipient := carol, pairI := 1 } ∈ (w₁.log 0).recorded ∧
    (w₂.leaders 0).curChain.height = 3 ∧ (w₁.leaders 0).curChain.getPartitionMap alice = 1 ∧
    w₂.stateAt 1 alice = w₁.stateAt 1 alice ∧
    (w₂.stateAt 0 alice).balance = (w₁.stateAt 0 alice).balance + 4 := by
  have hrun : ∃ w₁ ∈ runActions (step .clpa) (init twoShards (wager 3))
      (betAndLeave 0 1 (Finmap.singleton alice 1) ++ lastTransfer ++ [.proposeBlock 0 0]),
      ∃ w₂ ∈ w₁.step .clpa (.commit 0),
      { bet 2 3 with recipient := carol, pairI := 1 } ∈ (w₁.log 0).recorded ∧
      (w₂.leaders 0).curChain.height = 3 ∧ (w₁.leaders 0).curChain.getPartitionMap alice = 1 ∧
      w₂.stateAt 1 alice = w₁.stateAt 1 alice ∧
      (w₂.stateAt 0 alice).balance = (w₁.stateAt 0 alice).balance + 4 := by
    decide +kernel
  obtain ⟨w₁, hw₁, w₂, hw₂, hstale⟩ := hrun
  exact ⟨w₁, w₂, reaches_of_runActions hw₁, hw₂, hstale⟩

end Sample

end ShardWorld

end BlockEmulator
