import BlockEmulator.Chain.BlockChain

set_option autoImplicit false

/-! # Proposing a block and following one

The leader executes a block when it proposes it and appends it later; a follower executes it when it
appends it, unless the block's root is already in its trie database. Both effects of an execution,
the account state and the betting book, are compared here. -/

namespace BlockEmulator

namespace BlockChain

variable {H : Type} [DecidableEq H] [Hashing H]

/-! ## Chains in the same state -/

/-- Two nodes agree on everything an execution reads; their databases and pools may differ. -/
structure SameState (l f : BlockChain H) : Prop where
  config : l.chainConfig = f.chainConfig
  block : l.currentBlock = f.currentBlock
  accounts : l.accounts = f.accounts
  partition : l.partitionMap = f.partitionMap
  book : l.g2eBook = f.g2eBook

namespace SameState

variable {l f : BlockChain H}

theorem trans {g : BlockChain H} (h : SameState l f) (h' : SameState f g) : SameState l g where
  config := h.config.trans h'.config
  block := h.block.trans h'.block
  accounts := h.accounts.trans h'.accounts
  partition := h.partition.trans h'.partition
  book := h.book.trans h'.book

theorem height_eq (h : SameState l f) : l.height = f.height := by rw [height, height, h.block]

theorem stateRoot_eq (h : SameState l f) : l.stateRoot = f.stateRoot := by
  rw [stateRoot, stateRoot, h.block]

theorem ctx_eq (h : SameState l f) : l.ctx = f.ctx := by
  simp only [ctx, getPartitionMap, h.height_eq, h.config, h.partition]

theorem execLoop_eq (h : SameState l f) (txs : List Transaction) (st : Accounts) :
    l.execLoop txs st = f.execLoop txs st := by
  rw [execLoop, execLoop, h.ctx_eq, h.book]

theorem quiet_iff (h : SameState l f) (txs : List Transaction) : l.Quiet txs ↔ f.Quiet txs := by
  rw [Quiet, Quiet, h.accounts, h.ctx_eq]

theorem extends_iff (h : SameState l f) (b : Block H) : l.Extends b ↔ f.Extends b := by
  rw [Extends, Extends, h.height_eq, h.block]

/-- Execution reads nothing but what the two chains agree on. -/
theorem getUpdateStatusTrie (h : SameState l f) {l' : BlockChain H} {rt : H}
    {txs : List Transaction} (hl : l.getUpdateStatusTrie txs = some (l', rt)) :
    ∃ f', f.getUpdateStatusTrie txs = some (f', rt) ∧ f'.triedb.trieNew rt = l'.triedb.trieNew rt ∧
      f'.g2eBook = l'.g2eBook := by
  rcases getUpdateStatusTrie_cases hl with ⟨hq, rfl, rfl⟩ | ⟨hq, st, st', bk', hst, hs, rfl, rfl⟩
  · refine ⟨f, ?_, ?_, h.book.symm⟩
    · rw [getUpdateStatusTrie_of_quiet ((h.quiet_iff txs).1 hq), h.stateRoot_eq]
    · rw [h.stateRoot_eq]
      exact h.accounts.symm.trans (by rw [BlockChain.accounts, h.stateRoot_eq])
  · rw [h.execLoop_eq, h.height_eq] at hs
    refine ⟨{ f with triedb := f.triedb.commit st', g2eBook := bk' }, ?_, ?_, rfl⟩
    · rw [getUpdateStatusTrie_of_not_quiet (h.accounts ▸ hst) (mt (h.quiet_iff txs).2 hq), hs]
      rfl
    · rw [TrieDB.trieNew_commit_self, TrieDB.trieNew_commit_self]

end SameState

/-! ## The effect of an execution on the book -/

/-- Executing `txs` next leaves the betting book as it is: either nothing is executed, or nothing is
    pending for the next height and every bet recorded is settled in the same block. -/
def LeavesBook (bc : BlockChain H) (txs : List Transaction) : Prop :=
  bc.Quiet txs ∨
    ∃ st, bc.accounts = some st ∧ bc.g2eBook.getEpoch (bc.height + 1) = none ∧
      ∀ tx ∈ bc.newBets txs st, tx.height = bc.height + 1

theorem getUpdateStatusTrie_book_eq_iff {bc bc' : BlockChain H} {txs : List Transaction} {rt : H}
    (h : bc.getUpdateStatusTrie txs = some (bc', rt)) :
    bc'.g2eBook = bc.g2eBook ↔ bc.LeavesBook txs := by
  rcases getUpdateStatusTrie_cases h with ⟨hq, rfl, -⟩ | ⟨hq, st, st', bk', hst, hs, rfl, -⟩
  · exact ⟨fun _ => Or.inl hq, fun _ => rfl⟩
  · have hbk : bk' = ((bc.newBets txs st).foldl G2EBook.recordBet bc.g2eBook).cleanup
        (bc.height + 1) := by
      rw [settle_book hs, execLoop_book]
    rw [LeavesBook, or_iff_right hq]
    simp only [hst, Option.some.injEq, exists_eq_left', hbk]
    exact G2EBook.cleanup_recordBets_eq_iff _ _ _

/-! ## The leader's path -/

/-- After proposing a block the leader appends it without executing it again. -/
theorem addBlock_of_generateBlockOf {bc bc' : BlockChain H} {b : Block H} {txs : List Transaction}
    {miner : ℤ} {now : ℕ} (h : bc.generateBlockOf txs miner now = some (bc', b)) :
    bc'.addBlock b = some (bc'.append b) := by
  obtain ⟨rt, hexec, rfl⟩ := generateBlockOf_cases h
  have hext : bc'.Extends (bc.sealBlock txs miner now rt) := by
    rw [getUpdateStatusTrie_frame hexec]
    exact extends_sealBlock bc txs miner now rt
  cases hroot : bc'.triedb.trieNew rt with
  | some st => exact addBlock_of_known hext hroot
  | none =>
    rcases getUpdateStatusTrie_cases hexec with ⟨-, rfl, -⟩ | ⟨-, st, st', bk', -, -, rfl, rfl⟩
    · rw [addBlock_of_unknown hext hroot, sealBlock, hexec]
      rfl
    · rw [TrieDB.trieNew_commit_self] at hroot
      exact absurd hroot (by simp)

theorem sameState_txpool (bc : BlockChain H) (pool : TxPool) :
    SameState { bc with txpool := pool } bc :=
  ⟨rfl, rfl, rfl, rfl, rfl⟩

/-! ## Leader and follower -/

/-- The states in which leader and follower end after the same block. -/
def EndAlike (l₁ f : BlockChain H) (b : Block H) : Prop :=
  ∃ l₂ ∈ l₁.addBlock b, ∃ f₂ ∈ f.addBlock b,
    l₂.accounts = f₂.accounts ∧ l₂.g2eBook = f₂.g2eBook

instance (l₁ f : BlockChain H) (b : Block H) : Decidable (EndAlike l₁ f b) :=
  inferInstanceAs (Decidable (∃ l₂ ∈ l₁.addBlock b, ∃ f₂ ∈ f.addBlock b, _ ∧ _))

/-- **Leader and follower.** From the same state, the leader's `GenerateBlock` and `AddBlock` and the
    follower's `AddBlock` end in the same account state and the same book exactly when the follower
    executes the block, or skips one that leaves the book alone. -/
theorem leader_follower_agree_iff {l f l₁ : BlockChain H} {b : Block H} {miner : ℤ} {now : ℕ}
    (hsame : SameState l f) (hgen : l.generateBlock miner now = some (l₁, b)) :
    EndAlike l₁ f b ↔
      f.triedb.trieNew b.header.stateRoot = none ∨ f.LeavesBook l.packForBlock.1 := by
  have hsame' : SameState { l with txpool := l.packForBlock.2 } f :=
    (sameState_txpool l _).trans hsame
  have hl := addBlock_of_generateBlockOf hgen
  obtain ⟨rt, hexec, rfl⟩ := generateBlockOf_cases hgen
  obtain ⟨f', hf, hroot', hbook'⟩ := hsame'.getUpdateStatusTrie hexec
  have hext := (hsame'.extends_iff _).1 (extends_sealBlock _ l.packForBlock.1 miner now rt)
  cases hroot : f.triedb.trieNew rt with
  | none =>
    have hfadd := addBlock_of_unknown hext hroot
    rw [show f.getUpdateStatusTrie (sealBlock _ l.packForBlock.1 miner now rt).body = _ from hf]
      at hfadd
    exact iff_of_true ⟨_, hl, _, hfadd, hroot'.symm, hbook'.symm⟩ (Or.inl hroot)
  | some st =>
    have hfadd := addBlock_of_known hext hroot
    have hacc : l₁.triedb.trieNew rt = f.triedb.trieNew rt := by
      rw [← hroot', hroot]
      -- executing again could only have kept or committed the root it was given
      rcases getUpdateStatusTrie_cases hf with ⟨-, rfl, -⟩ | ⟨-, s, s', bk', -, -, rfl, -⟩
      · exact hroot
      · exact TrieDB.trieNew_commit_of_some hroot s'
    rw [← getUpdateStatusTrie_book_eq_iff hf, hbook', or_iff_right (by simp [sealBlock, hroot])]
    constructor
    · rintro ⟨l₂, hl₂, f₂, hf₂, -, hbook⟩
      rw [hl, Option.mem_some_iff] at hl₂
      rw [hfadd, Option.mem_some_iff] at hf₂
      subst hl₂ hf₂
      exact hbook
    · intro hbook
      exact ⟨_, hl, _, hfadd, hacc, hbook⟩

/-! ### A skipped block with a bet in it -/

section Sample

/-- A chain of one shard, with bets open until one block before their target. -/
def sampleConfig : ChainConfig where
  shardID := 0
  shardNums := 1
  blockSize := 10
  g2eBeta := 1

def sampleGenesis : BlockChain SymHash :=
  (newBlockChain sampleConfig Storage.empty TrieDB.empty).get rfl

theorem newBlockChain_sample :
    newBlockChain sampleConfig Storage.empty TrieDB.empty = some sampleGenesis :=
  (Option.some_get _).symm

def alice : Address := ⟨['a'], rfl⟩

def bob : Address := ⟨['b'], rfl⟩

def carol : Address := ⟨['c'], rfl⟩

def transfer (value : ℤ) : Transaction :=
  { sender := alice, recipient := bob, nonce := 0, value := value, txHash := [1] }

def bet (value : ℤ) (height : ℕ) : Transaction :=
  { sender := alice, recipient := bob, nonce := 0, value := value, txHash := [2]
    g2eEnabled := true, height := height }

/-- Bets on two pairs for height 2. -/
def rivalBets : List Transaction := [bet 2 2, { bet 5 2 with sender := bob, pairI := 1 }]

def inject (bc : BlockChain H) (txs : List Transaction) : BlockChain H :=
  { bc with txpool := bc.txpool.addTxs2Pool txs }

/-- Propose the pool's block and append it. -/
def mine (bc : BlockChain H) : Option (BlockChain H) :=
  (bc.generateBlock 0 0).bind fun r => r.1.addBlock r.2

/-- One block long, with both accounts in the trie. -/
def sampleChain : BlockChain SymHash := ((sampleGenesis.inject [transfer 5]).mine).get rfl

def leaderWith (tx : Transaction) : BlockChain SymHash := sampleChain.inject [tx]

end Sample

/-- A bet of zero from a known account changes no balance: the root is the old one, the follower
    skips the block and its book misses the bet. -/
theorem leader_follower_disagree :
    SameState (leaderWith (bet 0 5)) sampleChain ∧
      ∃ r ∈ (leaderWith (bet 0 5)).generateBlock 0 0, ¬ EndAlike r.1 sampleChain r.2 := by
  refine ⟨sameState_txpool _ _, ?_⟩
  decide +kernel

/-- A bet of one moves the root, so the follower executes the block. -/
theorem leader_follower_agree_on_one :
    ∃ r ∈ (leaderWith (bet 1 5)).generateBlock 0 0, EndAlike r.1 sampleChain r.2 := by
  have hroot : ∃ r ∈ (leaderWith (bet 1 5)).generateBlock 0 0,
      sampleChain.triedb.trieNew r.2.header.stateRoot = none := by decide +kernel
  obtain ⟨⟨l₁, b⟩, hgen, hnone⟩ := hroot
  have hsame : SameState (leaderWith (bet 1 5)) sampleChain := sameState_txpool _ _
  exact ⟨(l₁, b), hgen, (leader_follower_agree_iff hsame hgen).2 (Or.inl hnone)⟩

/-! ## A proposal that is never appended -/

/-- Generate a block with `txs` and append it. -/
def mineOf (bc : BlockChain H) (txs : List Transaction) (miner : ℤ) (now : ℕ) :
    Option (BlockChain H) :=
  (bc.generateBlockOf txs miner now).bind fun r => r.1.addBlock r.2

theorem mineOf_eq (bc : BlockChain H) (txs : List Transaction) (miner : ℤ) (now : ℕ) :
    bc.mineOf txs miner now = (bc.generateBlockOf txs miner now).map fun r => r.1.append r.2 := by
  unfold mineOf
  cases h : bc.generateBlockOf txs miner now with
  | none => rfl
  | some r => exact addBlock_of_generateBlockOf h

/-- The accounts survive a speculative execution; only the book may change. -/
theorem sameState_of_getUpdateStatusTrie {bc bc₁ : BlockChain H} {txs : List Transaction} {rt : H}
    (h : bc.getUpdateStatusTrie txs = some (bc₁, rt)) (hbook : bc₁.g2eBook = bc.g2eBook) :
    SameState bc bc₁ := by
  rcases getUpdateStatusTrie_cases h with ⟨-, rfl, -⟩ | ⟨-, st, st', bk', hst, -, rfl, -⟩
  · exact ⟨rfl, rfl, rfl, rfl, rfl⟩
  · exact ⟨rfl, rfl, hst.trans (TrieDB.trieNew_commit_of_some hst st').symm, rfl, hbook.symm⟩

/-- Chains in the same state mine the same block, up to their databases. -/
theorem SameState.mineOf {bc bc₁ r : BlockChain H} (hsame : SameState bc bc₁)
    {txs : List Transaction} {miner : ℤ} {now : ℕ} (h : bc.mineOf txs miner now = some r) :
    ∃ r₁ ∈ bc₁.mineOf txs miner now, r₁.accounts = r.accounts ∧ r₁.g2eBook = r.g2eBook := by
  rw [mineOf_eq] at h
  obtain ⟨⟨bc', b⟩, hgen, rfl⟩ := Option.map_eq_some_iff.1 h
  obtain ⟨rt, hexec, rfl⟩ := generateBlockOf_cases hgen
  obtain ⟨f', hf, hroot, hbook⟩ := hsame.getUpdateStatusTrie hexec
  refine ⟨f'.append (bc₁.sealBlock txs miner now rt), ?_, hroot, hbook⟩
  rw [mineOf_eq, generateBlockOf, hf]
  rfl

/-- **A discarded proposal.** Whatever block is mined after it, the discarded one leaves no trace
    exactly when its execution leaves the book as it was. -/
theorem discarded_proposal_leaves_no_trace_iff {bc bc₁ : BlockChain H} {a : List Transaction}
    {blockA : Block H} {miner : ℤ} {now : ℕ}
    (hgen : bc.generateBlockOf a miner now = some (bc₁, blockA)) :
    (∀ b miner' now', ∀ r ∈ bc.mineOf b miner' now', ∃ r₁ ∈ bc₁.mineOf b miner' now',
        r₁.accounts = r.accounts ∧ r₁.g2eBook = r.g2eBook) ↔ bc.LeavesBook a := by
  obtain ⟨rt, hexec, -⟩ := generateBlockOf_cases hgen
  rw [← getUpdateStatusTrie_book_eq_iff hexec]
  constructor
  · intro h
    -- an empty block executes nothing and shows the books themselves
    obtain ⟨r₁, hr₁, -, hbook⟩ := h [] 0 0 _ (mineOf_eq bc [] 0 0)
    rw [mineOf_eq] at hr₁
    obtain ⟨r, hr, rfl⟩ := Option.map_eq_some_iff.1 hr₁
    rw [generateBlockOf, getUpdateStatusTrie_of_quiet (Or.inl rfl), Option.map_some,
      Option.some.injEq] at hr
    subst hr
    exact hbook
  · intro hbook b miner' now' r hr
    exact (sameState_of_getUpdateStatusTrie hexec hbook).mineOf hr

/-- The bet of a discarded block stays in the book. -/
theorem discarded_bet_stays :
    ∃ p ∈ sampleChain.generateBlockOf [bet 1 5] 0 0, ∃ r ∈ sampleChain.mineOf [transfer 1] 0 1,
      ∃ r₁ ∈ p.1.mineOf [transfer 1] 0 1, r₁.g2eBook ≠ r.g2eBook := by
  decide +kernel

/-- A discarded block of transfers leaves no trace. -/
theorem discarded_transfer_leaves_no_trace :
    ∃ p ∈ sampleChain.generateBlockOf [transfer 2] 0 0, ∀ b miner now,
      ∀ r ∈ sampleChain.mineOf b miner now, ∃ r₁ ∈ p.1.mineOf b miner now,
        r₁.accounts = r.accounts ∧ r₁.g2eBook = r.g2eBook := by
  have hp : ∃ p ∈ sampleChain.generateBlockOf [transfer 2] 0 0,
      ∃ st ∈ sampleChain.accounts, sampleChain.g2eBook.getEpoch (sampleChain.height + 1) = none ∧
        ∀ tx ∈ sampleChain.newBets [transfer 2] st, tx.height = sampleChain.height + 1 := by
    decide +kernel
  obtain ⟨⟨bc₁, blockA⟩, hgen, hleaves⟩ := hp
  exact ⟨(bc₁, blockA), hgen, (discarded_proposal_leaves_no_trace_iff hgen).2 (Or.inr hleaves)⟩

end BlockChain

end BlockEmulator
