import BlockEmulator.Chain.BlockChain

set_option autoImplicit false

/-! # Histories

The blocks of a chain are found in its storage by following parent hashes from the current block. A
history `C` gives each height one block and one partition map; a chain follows it when its tip is the
tip of `C` at its height and all blocks of `C` below are stored. Two chains that follow one history
hold the same block at every height both have reached. -/

namespace BlockEmulator

variable {H : Type} [DecidableEq H] [Hashing H]

namespace BlockChain

/-- The block `n` steps behind the current one. -/
def ancestor (bc : BlockChain H) : ℕ → Option (Block H)
  | 0 => some bc.currentBlock
  | n + 1 => (bc.ancestor n).bind fun b => bc.storage.getBlock b.header.parentBlockHash

/-- The block of the chain at height `h`. -/
def blockAt (bc : BlockChain H) (h : ℕ) : Option (Block H) := bc.ancestor (bc.height - h)

end BlockChain

/-- What later requests build on: the current block and where the accounts live. -/
structure Tip (H : Type) where
  block : Block H
  partitionMap : Finmap fun _ : Address => ℕ

def BlockChain.tip (bc : BlockChain H) : Tip H := ⟨bc.currentBlock, bc.partitionMap⟩

/-! ## Following a history -/

/-- The history is a chain of hashed blocks up to height `top`. -/
structure Linked (C : ℕ → Tip H) (top : ℕ) : Prop where
  number : ∀ h ≤ top, (C h).block.header.number = h
  hash : ∀ h ≤ top, (C h).block.hash = Hashing.headerHash (C h).block.header
  parent : ∀ h < top, (C (h + 1)).block.header.parentBlockHash = (C h).block.hash

omit [DecidableEq H] in
/-- Blocks at different heights have different hashes. -/
theorem Linked.hash_ne {C : ℕ → Tip H} {top : ℕ} (hC : Linked C top) {h h' : ℕ} (hh : h ≤ top)
    (hh' : h' ≤ top) (hne : h ≠ h') : (C h).block.hash ≠ (C h').block.hash := by
  intro heq
  rw [hC.hash h hh, hC.hash h' hh'] at heq
  have hhead := Hashing.headerHash_injective heq
  have hnum : (C h).block.header.number = (C h').block.header.number := by rw [hhead]
  rw [hC.number h hh, hC.number h' hh'] at hnum
  exact hne hnum

structure BlockChain.Follows (bc : BlockChain H) (C : ℕ → Tip H) : Prop where
  tip : bc.tip = C bc.height
  stored : ∀ h ≤ bc.height, bc.storage.getBlock (C h).block.hash = some (C h).block

namespace BlockChain

theorem Follows.ancestor {bc : BlockChain H} {C : ℕ → Tip H} {top : ℕ} (hbc : bc.Follows C)
    (hC : Linked C top) (htop : bc.height ≤ top) {n : ℕ} (hn : n ≤ bc.height) :
    bc.ancestor n = some (C (bc.height - n)).block := by
  induction n with
  | zero => exact congrArg (fun t => some t.block) hbc.tip
  | succ n ih =>
    rw [BlockChain.ancestor, ih (by omega), Option.bind_some]
    have hpred : bc.height - n = bc.height - (n + 1) + 1 := by omega
    rw [hpred, hC.parent _ (by omega)]
    exact hbc.stored _ (by omega)

/-- A chain that follows a history holds its blocks. -/
theorem Follows.blockAt {bc : BlockChain H} {C : ℕ → Tip H} {top : ℕ} (hbc : bc.Follows C)
    (hC : Linked C top) (htop : bc.height ≤ top) {h : ℕ} (hh : h ≤ bc.height) :
    bc.blockAt h = some (C h).block := by
  rw [BlockChain.blockAt, hbc.ancestor hC htop (by omega)]
  congr 3
  omega

theorem Follows.congr {bc : BlockChain H} {C C' : ℕ → Tip H} (hbc : bc.Follows C)
    (hagree : ∀ h ≤ bc.height, C' h = C h) : bc.Follows C' where
  tip := by rw [hagree _ le_rfl, hbc.tip]
  stored := fun h hh => by rw [hagree h hh]; exact hbc.stored h hh

/-! ## What a request does to a chain's tip -/

/-- The two chains differ at most in the trie database, the pool and the book. -/
structure SameFiles (bc bc' : BlockChain H) : Prop where
  config : bc'.chainConfig = bc.chainConfig
  block : bc'.currentBlock = bc.currentBlock
  partition : bc'.partitionMap = bc.partitionMap
  storage : bc'.storage = bc.storage

theorem SameFiles.refl (bc : BlockChain H) : SameFiles bc bc := ⟨rfl, rfl, rfl, rfl⟩

theorem SameFiles.height {bc bc' : BlockChain H} (h : SameFiles bc bc') : bc'.height = bc.height := by
  rw [BlockChain.height, BlockChain.height, h.block]

theorem SameFiles.follows {bc bc' : BlockChain H} (h : SameFiles bc bc') {C : ℕ → Tip H}
    (hbc : bc.Follows C) : bc'.Follows C where
  tip := by
    rw [h.height, ← hbc.tip, BlockChain.tip, BlockChain.tip, h.block, h.partition]
  stored := fun k hk => by
    rw [h.storage]
    exact hbc.stored k (h.height ▸ hk)

theorem sameFiles_getUpdateStatusTrie {bc bc' : BlockChain H} {txs : List Transaction} {rt : H}
    (h : bc.getUpdateStatusTrie txs = some (bc', rt)) : SameFiles bc bc' := by
  rw [getUpdateStatusTrie_frame h]
  exact ⟨rfl, rfl, rfl, rfl⟩

/-- `bc'` is `bc` with one more block and possibly other homes for accounts. -/
structure GrownBy (bc bc' : BlockChain H) : Prop where
  config : bc'.chainConfig = bc.chainConfig
  number : bc'.height = bc.height + 1
  parent : bc'.currentBlock.header.parentBlockHash = bc.currentBlock.hash
  storage : bc'.storage = bc.storage.addBlock bc'.currentBlock

/-- A chain grown by the next block of the history still follows it. -/
theorem GrownBy.follows {bc bc' : BlockChain H} (hg : GrownBy bc bc') {C : ℕ → Tip H} {top : ℕ}
    (hC : Linked C top) (hbc : bc.Follows C) (htop : bc.height + 1 ≤ top)
    (htip : bc'.tip = C (bc.height + 1)) : bc'.Follows C where
  tip := by rw [hg.number, htip]
  stored := fun h hh => by
    have hcur : bc'.currentBlock = (C (bc.height + 1)).block := by rw [← htip]; rfl
    rw [hg.number] at hh
    rw [hg.storage, hcur, Storage.getBlock, Storage.addBlock]
    by_cases hlast : h = bc.height + 1
    · rw [hlast]
      exact Finmap.lookup_insert _
    · have hne := hC.hash_ne (by omega) htop hlast
      rw [Finmap.lookup_insert_of_ne _ hne]
      exact hbc.stored h (by omega)

/-- `AddBlock` ignores a block that does not extend the chain and grows the chain by any other. -/
theorem addBlock_grows {bc bc' : BlockChain H} {b : Block H} (h : bc.addBlock b = some bc') :
    (¬ bc.Extends b ∧ bc' = bc) ∨
      (bc.Extends b ∧ GrownBy bc bc' ∧ bc'.tip = ⟨b, bc.partitionMap⟩) := by
  rcases addBlock_cases h with hskip | ⟨hext, -, rfl⟩ | ⟨hext, -, bc₁, rt, hexec, rfl⟩
  · exact Or.inl hskip
  · exact Or.inr ⟨hext, ⟨rfl, hext.1, hext.2, rfl⟩, rfl⟩
  · have hfiles := sameFiles_getUpdateStatusTrie hexec
    refine Or.inr ⟨hext, ⟨hfiles.config, hext.1, hext.2, ?_⟩, ?_⟩
    · show bc₁.storage.addBlock b = bc.storage.addBlock b
      rw [hfiles.storage]
    · show (⟨b, bc₁.partitionMap⟩ : Tip H) = ⟨b, bc.partitionMap⟩
      rw [hfiles.partition]

/-! ## Account blocks -/

theorem addAccounts_grows {bc bc' : BlockChain H} {ac : List Address} {as : List AccountState}
    (h : bc.addAccounts ac as = some bc') :
    GrownBy bc bc' ∧ bc'.partitionMap = bc.partitionMap ∧
      bc'.currentBlock.hash = Hashing.headerHash bc'.currentBlock.header := by
  obtain ⟨db, root, rfl, -, -⟩ := addAccounts_cases h
  exact ⟨⟨rfl, rfl, rfl, rfl⟩, rfl, rfl⟩

end BlockChain

end BlockEmulator
