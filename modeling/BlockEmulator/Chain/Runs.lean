import BlockEmulator.Chain.Propose
import BlockEmulator.Lib.Run

set_option autoImplicit false

/-! # Runs of one chain

The operations that change a chain, as the actions of a transition system, and the first invariant of
its runs: bets are settled when their height is reached, provided every operation that advances the
height either settles or finds nothing to settle. -/

namespace BlockEmulator

variable {H : Type} [DecidableEq H] [Hashing H]

/-- One call on the chain object or its pool. -/
inductive ChainOp (H : Type) where
  | addTxs2Pool (txs : List Transaction)
  | generateBlock (miner : ℤ) (now : ℕ)
  | addBlock (b : Block H)
  | addAccounts (ac : List Address) (as : List AccountState)
  | updatePartitionMap (key : Address) (val : ℕ)

namespace BlockChain

/-- The chain after one call; `none` is a panic. -/
def step (bc : BlockChain H) : ChainOp H → Option (BlockChain H)
  | .addTxs2Pool txs => some { bc with txpool := bc.txpool.addTxs2Pool txs }
  | .generateBlock miner now => (bc.generateBlock miner now).map Prod.fst
  | .addBlock b => bc.addBlock b
  | .addAccounts ac as => bc.addAccounts ac as
  | .updatePartitionMap key val => some (bc.updatePartitionMap key val)

/-- Add blocks one after the other. -/
def addBlocks (bc : BlockChain H) : List (Block H) → Option (BlockChain H)
  | [] => some bc
  | b :: bs => (bc.addBlock b).bind fun bc' => bc'.addBlocks bs

/-- **One call.** The pool or the partition map changes, a list is executed speculatively, a block is
    ignored, appended unread or executed and appended, or an account block is appended. -/
theorem step_cases {bc bc' : BlockChain H} {op : ChainOp H} (h : bc.step op = some bc') :
    (∃ pool pm, bc' = { bc with txpool := pool, partitionMap := pm }) ∨
    (∃ miner now rt, op = .generateBlock miner now ∧
      { bc with txpool := bc.packForBlock.2 }.getUpdateStatusTrie bc.packForBlock.1
        = some (bc', rt)) ∨
    (∃ b, op = .addBlock b ∧ bc.Extends b ∧ bc.triedb.trieNew b.header.stateRoot ≠ none ∧
      bc' = bc.append b) ∨
    (∃ b bc₁ rt, op = .addBlock b ∧ bc.Extends b ∧ bc.triedb.trieNew b.header.stateRoot = none ∧
      bc.getUpdateStatusTrie b.body = some (bc₁, rt) ∧ bc' = bc₁.append b) ∨
    (∃ ac as db root, op = .addAccounts ac as ∧
      bc' = { bc with triedb := db }.append (bc.accountsBlock root) ∧
      (∀ r st, bc.triedb.trieNew r = some st → db.trieNew r = some st) ∧
      (bc.accounts ≠ none → db.trieNew root ≠ none)) := by
  cases op with
  | addTxs2Pool txs =>
    rw [step, Option.some.injEq] at h
    exact Or.inl ⟨_, bc.partitionMap, h.symm⟩
  | updatePartitionMap key val =>
    rw [step, Option.some.injEq] at h
    exact Or.inl ⟨bc.txpool, _, h.symm⟩
  | generateBlock miner now =>
    obtain ⟨⟨bc₂, b⟩, hgen, rfl⟩ := Option.map_eq_some_iff.1 h
    obtain ⟨rt, hexec, -⟩ := generateBlockOf_cases hgen
    exact Or.inr (Or.inl ⟨miner, now, rt, rfl, hexec⟩)
  | addBlock b =>
    rcases addBlock_cases h with ⟨-, rfl⟩ | ⟨hext, hroot, rfl⟩ | ⟨hext, hroot, bc₁, rt, hexec, rfl⟩
    · exact Or.inl ⟨bc'.txpool, bc'.partitionMap, rfl⟩
    · exact Or.inr (Or.inr (Or.inl ⟨b, rfl, hext, hroot, rfl⟩))
    · exact Or.inr (Or.inr (Or.inr (Or.inl ⟨b, bc₁, rt, rfl, hext, hroot, hexec, rfl⟩)))
  | addAccounts ac as =>
    obtain ⟨db, root, heq, hkeep, hroot⟩ := addAccounts_cases h
    exact Or.inr (Or.inr (Or.inr (Or.inr ⟨ac, as, db, root, rfl, heq, hkeep, hroot⟩)))

/-! ## Bets are settled when their height is reached -/

/-- Every height the book still has bets for lies ahead. -/
def NothingOverdue (bc : BlockChain H) : Prop := ∀ h ∈ bc.g2eBook, bc.height < h

/-- The end of the betting window does not wrap around. -/
def WindowFits (bc : BlockChain H) : Prop := bc.height + bc.chainConfig.g2eBeta < 2 ^ 64

/-- The operation does not step over a pending epoch: an executed block settles it, and where nothing
    is settled (an appended block whose root is known, one without effect, an account block) the next
    height has no bets. -/
def StepsOverNothing (bc : BlockChain H) : ChainOp H → Prop
  | .addTxs2Pool _ => True
  | .generateBlock _ _ => bc.WindowFits
  | .addBlock b => bc.Extends b →
      bc.WindowFits ∧ (bc.height + 1 ∉ bc.g2eBook ∨
        (bc.triedb.trieNew b.header.stateRoot = none ∧ ¬ bc.Quiet b.body))
  | .addAccounts _ _ => bc.height + 1 ∉ bc.g2eBook
  | .updatePartitionMap _ _ => True

instance (bc : BlockChain H) : Decidable bc.WindowFits := inferInstanceAs (Decidable (_ < _))

instance (bc : BlockChain H) : (op : ChainOp H) → Decidable (bc.StepsOverNothing op)
  | .generateBlock _ _ => inferInstanceAs (Decidable bc.WindowFits)
  | .addBlock b => inferInstanceAs (Decidable (bc.Extends b → bc.WindowFits ∧ (_ ∨ _ = none ∧ ¬ _)))
  | .addAccounts _ _ => inferInstanceAs (Decidable (_ ∉ bc.g2eBook))
  | .addTxs2Pool _ | .updatePartitionMap _ _ => .isTrue trivial

/-- A recorded bet is on a height after the current one. -/
theorem height_lt_of_mem_newBets {bc : BlockChain H} (hbeta : 1 ≤ bc.chainConfig.g2eBeta)
    (hfits : bc.WindowFits) {txs : List Transaction} {st : Accounts} {tx : Transaction}
    (h : tx ∈ bc.newBets txs st) : bc.height < tx.height := by
  obtain ⟨-, st', hacc⟩ := of_mem_atTurn h
  have hopen := tooClose_of_accepts hacc
  have hb : u64 bc.chainConfig.g2eBeta = bc.chainConfig.g2eBeta :=
    Nat.mod_eq_of_lt (lt_of_le_of_lt (Nat.le_add_left _ _) hfits)
  have hsum : u64 (bc.height + bc.chainConfig.g2eBeta) = bc.height + bc.chainConfig.g2eBeta :=
    Nat.mod_eq_of_lt hfits
  simp only [tooClose, ctx, hb, hsum, decide_eq_false_iff_not, not_lt] at hopen
  omega

/-- After an execution the bets still lie ahead, and those for the next height are gone unless the
    block had no effect. -/
theorem bets_ahead_of_execution {bc bc' : BlockChain H} {txs : List Transaction} {rt : H}
    (hexec : bc.getUpdateStatusTrie txs = some (bc', rt)) (hinv : bc.NothingOverdue)
    (hbeta : 1 ≤ bc.chainConfig.g2eBeta) (hfits : bc.WindowFits) {h : ℕ} (hmem : h ∈ bc'.g2eBook) :
    bc.height < h ∧ (bc.Quiet txs ∧ h ∈ bc.g2eBook ∨ h ≠ bc.height + 1) := by
  rcases getUpdateStatusTrie_cases hexec with ⟨hq, rfl, -⟩ | ⟨-, st, st', bk', -, hs, rfl, -⟩
  · exact ⟨hinv h hmem, Or.inl ⟨hq, hmem⟩⟩
  · simp only [settle_book hs, execLoop_book, G2EBook.cleanup, Finmap.mem_erase] at hmem
    refine ⟨?_, Or.inr hmem.1⟩
    rcases (G2EBook.mem_recordBets_iff _ _ _).1 hmem.2 with hold | ⟨tx, htx, rfl⟩
    · exact hinv h hold
    · exact height_lt_of_mem_newBets hbeta hfits htx

/-- **One call keeps the bets ahead of the chain**, if it steps over nothing. -/
theorem NothingOverdue.step {bc bc' : BlockChain H} {op : ChainOp H} (hinv : bc.NothingOverdue)
    (hbeta : 1 ≤ bc.chainConfig.g2eBeta) (hcond : bc.StepsOverNothing op)
    (hstep : bc.step op = some bc') : bc'.NothingOverdue := by
  rcases step_cases hstep with ⟨pool, pm, rfl⟩ | ⟨miner, now, rt, rfl, hexec⟩ |
    ⟨b, rfl, hext, hroot, rfl⟩ | ⟨b, bc₁, rt, rfl, hext, hroot, hexec, rfl⟩ |
    ⟨ac, as, db, root, rfl, rfl, -, -⟩
  · exact hinv
  · intro h hmem
    have hcur : bc'.height = bc.height := by rw [getUpdateStatusTrie_frame hexec]; rfl
    rw [hcur]
    exact (bets_ahead_of_execution hexec hinv hbeta hcond hmem).1
  · intro h hmem
    have hnone := (hcond hext).2.resolve_right fun hunknown => hroot hunknown.1
    have hne : h ≠ bc.height + 1 := fun heq => hnone (heq ▸ hmem)
    have hlt := hinv h hmem
    show b.header.number < h
    rw [hext.1]
    omega
  · intro h hmem
    obtain ⟨hlt, hgone⟩ := bets_ahead_of_execution hexec hinv hbeta (hcond hext).1 hmem
    have hne : h ≠ bc.height + 1 := by
      rcases hgone with ⟨hq, hold⟩ | hne
      · rcases (hcond hext).2 with hnone | ⟨-, heffect⟩
        · exact fun heq => hnone (heq ▸ hold)
        · exact absurd hq heffect
      · exact hne
    show b.header.number < h
    rw [hext.1]
    omega
  · intro h hmem
    have hne : h ≠ bc.height + 1 := fun heq => hcond (heq ▸ hmem)
    have hlt := hinv h hmem
    show bc.height + 1 < h
    omega

theorem step_chainConfig {bc bc' : BlockChain H} {op : ChainOp H} (hstep : bc.step op = some bc') :
    bc'.chainConfig = bc.chainConfig := by
  rcases step_cases hstep with ⟨pool, pm, rfl⟩ | ⟨miner, now, rt, rfl, hexec⟩ |
    ⟨b, rfl, -, -, rfl⟩ | ⟨b, bc₁, rt, rfl, -, -, hexec, rfl⟩ | ⟨ac, as, db, root, rfl, rfl, -, -⟩
  · rfl
  · rw [getUpdateStatusTrie_frame hexec]
  · rfl
  · show bc₁.chainConfig = bc.chainConfig
    rw [getUpdateStatusTrie_frame hexec]
  · rfl

/-- A chain that has just been opened knows no bets and no repartitioning. -/
theorem newBlockChain_spec {cc : ChainConfig} {storage : Storage H} {db : TrieDB H}
    {bc : BlockChain H} (h : newBlockChain cc storage db = some bc) :
    bc.chainConfig = cc ∧ bc.triedb = db ∧ bc.partitionMap = ∅ ∧ bc.g2eBook = ∅ ∧
      bc.txpool = {} := by
  rcases newBlockChain_cases h with ⟨-, rfl⟩ | ⟨_, _, _, -, -, -, rfl⟩
  · exact ⟨rfl, rfl, rfl, rfl, rfl⟩
  · exact ⟨rfl, rfl, rfl, rfl, rfl⟩

theorem newBlockChain_txQueue {cc : ChainConfig} {storage : Storage H} {db : TrieDB H}
    {bc : BlockChain H} (h : newBlockChain cc storage db = some bc) : bc.txpool.txQueue = [] := by
  rw [(newBlockChain_spec h).2.2.2.2]

/-- The storage knows the current block, under the newest hash. -/
structure Stored (bc : BlockChain H) : Prop where
  newest : bc.storage.newestBlockHash = some bc.currentBlock.hash
  block : bc.storage.getBlock bc.currentBlock.hash = some bc.currentBlock

theorem stored_newBlockChain {cc : ChainConfig} {storage : Storage H} {db : TrieDB H}
    {bc : BlockChain H} (h : newBlockChain cc storage db = some bc) : bc.Stored := by
  rcases newBlockChain_cases h with ⟨-, rfl⟩ | ⟨curHash, curb, st, hnew, hcurb, -, rfl⟩
  · exact ⟨rfl, Storage.getBlock_addBlock_self _ _⟩
  · have hkey : curb.hash = curHash := storage.keyed curHash curb hcurb
    exact ⟨by rw [hnew, hkey], by rw [hkey]; exact hcurb⟩

/-- **No bet is left behind.** In every run from an opened chain whose calls step over no pending
    epoch, the heights with open bets are above the chain's. -/
theorem nothing_overdue_of_run {cc : ChainConfig} {storage : Storage H} {db : TrieDB H}
    {bc₀ bc : BlockChain H} (hbeta : 1 ≤ cc.g2eBeta)
    (hopen : newBlockChain cc storage db = some bc₀)
    (hrun : ReachesUnder step StepsOverNothing bc₀ bc) : bc.NothingOverdue := by
  obtain ⟨hcc, -, -, hbook, -⟩ := newBlockChain_spec hopen
  have hinv : bc.chainConfig = cc ∧ bc.NothingOverdue := by
    refine hrun.invariant (I := fun bc => bc.chainConfig = cc ∧ bc.NothingOverdue) ⟨hcc, ?_⟩ ?_
    · intro h hmem
      rw [hbook] at hmem
      exact absurd hmem (Finmap.notMem_empty)
    · rintro t op u ⟨hcc, hahead⟩ hcond hstep
      exact ⟨(step_chainConfig hstep).trans hcc, hahead.step (hcc ▸ hbeta) hcond hstep⟩
  exact hinv.2

/-- The blocks a leader mines from the given lists, one after the other. -/
def blocksOf (bc : BlockChain H) : List (List Transaction) → List (Block H)
  | [] => []
  | txs :: rest =>
    match bc.generateBlockOf txs 0 0 with
    | none => []
    | some (bc₁, b) => b :: (bc₁.append b).blocksOf rest

def transferBlocks : List (Block SymHash) :=
  sampleGenesis.blocksOf [[transfer 5], [transfer 1], [bet 1 9]]

/-- A bet on height 2 in block 1; block 2 is empty, so nothing settles it. -/
theorem empty_block_leaves_bet_overdue :
    ∃ bc, Reaches step sampleGenesis bc ∧ ¬ bc.NothingOverdue := by
  have hrun : ∃ bc ∈ runActions step sampleGenesis
      ((sampleGenesis.blocksOf [[bet 1 2], []]).map .addBlock),
      bc.height = 2 ∧ 2 ∈ bc.g2eBook := by decide +kernel
  obtain ⟨bc, hbc, hheight, hmem⟩ := hrun
  refine ⟨bc, reaches_of_runActions hbc, ?_⟩
  intro hahead
  have hlt := hahead 2 hmem
  omega

/-- With a transfer in block 2 the bet is settled. -/
theorem transfer_block_settles_bet :
    ∃ bc, ReachesUnder step StepsOverNothing sampleGenesis bc ∧ bc.height = 2 ∧
      bc.NothingOverdue := by
  have hrun : ∃ bc ∈ runChecked step (fun bc op => bc.StepsOverNothing op) sampleGenesis
      ((sampleGenesis.blocksOf [[bet 1 2], [transfer 5]]).map .addBlock), bc.height = 2 := by
    decide +kernel
  obtain ⟨bc, hbc, hheight⟩ := hrun
  have hreach : ReachesUnder step StepsOverNothing sampleGenesis bc :=
    reachesUnder_of_runDecided hbc
  exact ⟨bc, hreach, hheight,
    nothing_overdue_of_run (by decide) newBlockChain_sample hreach⟩

end BlockChain

end BlockEmulator
