import BlockEmulator.Chain.History
import BlockEmulator.Chain.Runs

set_option autoImplicit false

/-! # Proofs that a transaction is in the chain

`chain/merkleproof.go`. A proof names a block and lists the trie nodes from the transaction root of
that block down to a transaction hash. `TrieProofs` is what the code relies on from the trie library:
what `VerifyProof` accepts is in the trie, and what `Prove` writes for a key of the trie is accepted.

Three results. `txProofGenerate_exact`: on a chain grown by its own operations the search finds exactly
the transactions of its blocks, and what it returns verifies. `provedIn_of_txProofVerify`: an accepted
proof is one for the hash that stands in it; the hash the verifier is asked about is never read.
`batch_agrees_iff`: the batch generator leaves out the look into the body, and then differs from the
generator for one hash exactly where the bloom filter has a false positive. -/

namespace BlockEmulator

/-- A proof database: trie nodes by their hash. -/
abbrev ProofDB := Finmap fun _ : List UInt8 => List UInt8

/-- The trie library, on the tries of `GetTxTreeRoot`: their keys are transaction hashes, and every
    value is `[]byte{0}`. -/
class TrieProofs (H : Type) [Hashing H] where
  /-- `Trie.Prove` of a key, as the entries of the database it fills; `none` is an error. -/
  prove : Finset (List UInt8) → List UInt8 → Option (List (List UInt8 × List UInt8))
  /-- `trie.VerifyProof`: `none` is an error, `some none` a proof that the key is absent. -/
  verifyProof : H → List UInt8 → ProofDB → Option (Option (List UInt8))
  verifyProof_sound : ∀ {root key db v}, verifyProof root key db = some (some v) →
    ∃ keys, Hashing.txRoot keys = root ∧ key ∈ keys
  verifyProof_prove : ∀ {keys key}, key ∈ keys → ∃ nodes, prove keys key = some nodes ∧
    ∃ v, verifyProof (Hashing.txRoot keys) key
      (nodes.foldl (fun db p => Finmap.insert p.1 p.2 db) ∅) = some (some v)

/-- Proofs over digests that remember what was hashed: the proof of a key is one node, filed under
    the key. -/
instance : TrieProofs SymHash where
  prove := fun _ key => some [(key, [0])]
  verifyProof := fun root key db =>
    match root with
    | .txs keys => if key ∈ keys then (db.lookup key).map some else some none
    | _ => none
  verifyProof_sound := fun {root key db v} h => by
    cases root with
    | txs keys =>
      by_cases hkey : key ∈ keys
      · exact ⟨keys, rfl, hkey⟩
      · simp [hkey] at h
    | _ => exact absurd h (by simp)
  verifyProof_prove := fun {keys key} hkey => by
    refine ⟨_, rfl, [0], ?_⟩
    simp [Hashing.txRoot, hkey]

/-! ## The source's functions -/

/-- The `Error` of a result. -/
inductive TxProofError where
  | cannotFind
  | notInBlock (height : ℕ)
  | rootMismatch (height : ℕ)
  | blockNotExisted
deriving DecidableEq

/-- The text of the error, as the source formats it. -/
def TxProofError.text : TxProofError → String
  | cannotFind => "cannot find this tx"
  | notInBlock height =>
    "this tx cannot be found in this block (height=" ++ toString height ++ ")"
  | rootMismatch height => "tx root mismatch in height " ++ toString height
  | blockNotExisted => "the block is not existed"

/-- `TxProofResult`. Empty byte fields are read as the zero hash. -/
structure TxProofResult (H : Type) [Hashing H] where
  found : Bool := false
  blockHash : H := Hashing.zero
  txHash : List UInt8
  txRoot : H := Hashing.zero
  blockHeight : ℕ := 0
  keyList : List (List UInt8) := []
  valueList : List (List UInt8) := []
  error : Option TxProofError := none

/-- The two errors of `TxProofVerify`. -/
inductive TxVerifyError where
  | notFound
  | wrongProof
deriving DecidableEq

def TxVerifyError.text : TxVerifyError → String
  | notFound => "the result shows not found"
  | wrongProof => "wrong proof"

variable {H : Type} [DecidableEq H] [Hashing H] [TrieProofs H]

/-- The end of both generators: the nodes `Prove` writes for the hash, with where they are from. -/
def txProofOf (block : Block H) (txHash : List UInt8) : TxProofResult H :=
  match TrieProofs.prove H (block.body.map Transaction.txHash).toFinset txHash with
  | some nodes =>
    { found := true
      blockHash := block.hash
      txHash := txHash
      txRoot := block.header.txRoot
      blockHeight := block.header.number
      keyList := nodes.map Prod.fst
      valueList := nodes.map Prod.snd }
  | none => { txHash := txHash, error := some .cannotFind }

/-- `TxProofGenerateOnTheBlock`. -/
def txProofGenerateOnTheBlock (txHash : List UInt8) (block : Block H) : TxProofResult H :=
  if modBytes txHash 2048 ∉ block.header.bloom then { txHash := txHash, error := some .cannotFind }
  else if !block.body.any fun tx => txHash = tx.txHash then
    { txHash := txHash, error := some (.notInBlock block.header.number) }
  else if getTxTreeRoot block.body ≠ block.header.txRoot then
    { txHash := txHash, error := some (.rootMismatch block.header.number) }
  else txProofOf block txHash

/-- The loop of `TxProofGenerate`, with `nowheight` and `nowblockHash`. -/
def BlockChain.txProofSearch (bc : BlockChain H) (txHash : List UInt8) : ℕ → H → TxProofResult H
  | 0, _ => { txHash := txHash, error := some .cannotFind }
  | nowheight + 1, nowblockHash =>
    match bc.storage.getBlock nowblockHash with
    | none => { txHash := txHash, error := some .blockNotExisted }
    | some block =>
      let ret := txProofGenerateOnTheBlock txHash block
      if ret.found then ret else bc.txProofSearch txHash nowheight block.header.parentBlockHash

/-- `TxProofGenerate`. -/
def BlockChain.txProofGenerate (bc : BlockChain H) (txHash : List UInt8) : TxProofResult H :=
  bc.txProofSearch txHash bc.height bc.currentBlock.hash

/-- One entry of `TxProofBatchGenerateOnBlock`: unlike the search, it does not look whether the
    transaction is in the body. -/
def txProofOfBatch (block : Block H) (txHash : List UInt8) : TxProofResult H :=
  if getTxTreeRoot block.body ≠ block.header.txRoot then
    { txHash := txHash, error := some (.rootMismatch block.header.number) }
  else if modBytes txHash 2048 ∉ block.header.bloom then
    { txHash := txHash, error := some .cannotFind }
  else txProofOf block txHash

/-- `TxProofBatchGenerateOnBlock`. -/
def txProofBatchGenerateOnBlock (txHashes : List (List UInt8)) (block : Block H) :
    List (TxProofResult H) :=
  txHashes.map (txProofOfBatch block)

/-- The loop of `TxProofVerify` that fills the database; `none` is an index out of range. -/
def recoverProof : List (List UInt8) → List (List UInt8) → ProofDB → Option ProofDB
  | [], _, db => some db
  | _ :: _, [], _ => none
  | key :: keys, value :: values, db => recoverProof keys values (Finmap.insert key value db)

/-- `TxProofVerify`: `some (.ok ())` is `(true, nil)`, `none` a panic. -/
def txProofVerify (_txHash : List UInt8) (proof : TxProofResult H) :
    Option (Except TxVerifyError Unit) :=
  if !proof.found then some (.error .notFound)
  else
    (recoverProof proof.keyList proof.valueList ∅).map fun recoveredProof =>
      match TrieProofs.verifyProof proof.txRoot proof.txHash recoveredProof with
      | some (some _) => .ok ()
      | _ => .error .wrongProof

/-! ## What a verified proof says -/

/-- The hash is a key of the transaction trie with this root. -/
def ProvedIn (h : List UInt8) (root : H) : Prop := ∃ keys, Hashing.txRoot keys = root ∧ h ∈ keys

omit [DecidableEq H] in
theorem found_of_txProofVerify {h : List UInt8} {pr : TxProofResult H}
    (hok : txProofVerify h pr = some (.ok ())) : pr.found = true := by
  unfold txProofVerify at hok
  split at hok
  · simp at hok
  · next hfound => simpa using hfound

omit [DecidableEq H] in
/-- An accepted proof shows that the hash standing in it is a key under its root. -/
theorem provedIn_of_txProofVerify {h : List UInt8} {pr : TxProofResult H}
    (hok : txProofVerify h pr = some (.ok ())) : ProvedIn pr.txHash pr.txRoot := by
  unfold txProofVerify at hok
  split at hok
  · simp at hok
  obtain ⟨db, -, hver⟩ := Option.map_eq_some_iff.1 hok
  split at hver
  · next v hv => exact TrieProofs.verifyProof_sound hv
  · exact absurd hver (by simp)

theorem recoverProof_entries (nodes : List (List UInt8 × List UInt8)) (db : ProofDB) :
    recoverProof (nodes.map Prod.fst) (nodes.map Prod.snd) db
      = some (nodes.foldl (fun db p => Finmap.insert p.1 p.2 db) db) := by
  induction nodes generalizing db with
  | nil => rfl
  | cons p rest ih => exact ih _

/-- The result is about hash `h` in block `b`, and verifies. -/
structure TxProofResult.Attests (r : TxProofResult H) (h : List UInt8) (b : Block H) : Prop where
  found : r.found = true
  blockHash : r.blockHash = b.hash
  blockHeight : r.blockHeight = b.header.number
  verifies : txProofVerify h r = some (.ok ())

omit [DecidableEq H] in
/-- The generators' result for a transaction of a block with the right root. -/
theorem txProofOf_attests {h : List UInt8} {b : Block H} (hmem : h ∈ b.body.map Transaction.txHash)
    (hroot : b.header.txRoot = getTxTreeRoot b.body) : (txProofOf b h).Attests h b := by
  obtain ⟨nodes, hprove, v, hver⟩ :=
    TrieProofs.verifyProof_prove (H := H) (List.mem_toFinset.2 hmem)
  unfold txProofOf
  rw [hprove]
  refine ⟨rfl, rfl, rfl, ?_⟩
  simp only [txProofVerify, recoverProof_entries, hroot, getTxTreeRoot]
  simp [hver]

/-! ## The search over a chain -/

/-- The header of the block describes its body, and its hash is the header's. -/
structure Block.Sealed (b : Block H) : Prop where
  hash : b.hash = Hashing.headerHash b.header
  bloom : b.header.bloom = getBloomFilter b.body
  txRoot : b.header.txRoot = getTxTreeRoot b.body

omit [DecidableEq H] [Hashing H] [TrieProofs H] in
/-- The bloom filter has no false negatives. -/
theorem modBytes_mem_getBloomFilter {h : List UInt8} {txs : List Transaction}
    (hmem : h ∈ txs.map Transaction.txHash) : modBytes h 2048 ∈ getBloomFilter txs := by
  obtain ⟨tx, htx, rfl⟩ := List.mem_map.1 hmem
  rw [getBloomFilter, List.mem_toFinset]
  exact List.mem_map.2 ⟨tx, htx, rfl⟩

/-- On a sealed block the generator finds what is in the body. -/
theorem txProofGenerateOnTheBlock_of_mem {h : List UInt8} {b : Block H} (hb : b.Sealed)
    (hmem : h ∈ b.body.map Transaction.txHash) : (txProofGenerateOnTheBlock h b).Attests h b := by
  have hany : (b.body.any fun tx => decide (h = tx.txHash)) = true := by
    obtain ⟨tx, htx, rfl⟩ := List.mem_map.1 hmem
    exact List.any_eq_true.2 ⟨tx, htx, by simp⟩
  unfold txProofGenerateOnTheBlock
  rw [if_neg (not_not.2 (hb.bloom ▸ modBytes_mem_getBloomFilter hmem)), hany,
    if_neg (by simp), if_neg (not_not.2 hb.txRoot.symm)]
  exact txProofOf_attests hmem hb.txRoot

/-- What is not in the body is not found, whatever the bloom filter says. -/
theorem txProofGenerateOnTheBlock_of_not_mem {h : List UInt8} {b : Block H}
    (hmem : h ∉ b.body.map Transaction.txHash) : (txProofGenerateOnTheBlock h b).found = false := by
  have hany : (b.body.any fun tx => decide (h = tx.txHash)) = false := by
    rw [List.any_eq_false]
    intro tx htx heq
    exact hmem (List.mem_map.2 ⟨tx, htx, (of_decide_eq_true heq).symm⟩)
  unfold txProofGenerateOnTheBlock
  split
  · rfl
  · rw [hany, Bool.not_false, if_pos rfl]

namespace BlockChain

/-- The blocks behind the current one, down to the genesis block, are stored, linked and sealed. -/
structure Archived (bc : BlockChain H) (C : ℕ → Tip H) : Prop where
  linked : Linked C bc.height
  follows : bc.Follows C
  genesis : (C 0).block.body = []
  sealed : ∀ h ≤ bc.height, (C h).block.Sealed

/-- The search from height `n` finds a transaction exactly if one of the blocks `1..n` has it. -/
theorem Archived.txProofSearch {bc : BlockChain H} {C : ℕ → Tip H} (hbc : bc.Archived C)
    (h : List UInt8) {n : ℕ} (hn : n ≤ bc.height) :
    ((bc.txProofSearch h n (C n).block.hash).found = false ∧
      ∀ k ≤ n, h ∉ (C k).block.body.map Transaction.txHash) ∨
    ∃ k ≤ n, h ∈ (C k).block.body.map Transaction.txHash ∧
      (bc.txProofSearch h n (C n).block.hash).Attests h (C k).block := by
  induction n with
  | zero =>
    refine Or.inl ⟨rfl, ?_⟩
    intro k hk
    obtain rfl : k = 0 := by omega
    simp [hbc.genesis]
  | succ n ih =>
    rw [BlockChain.txProofSearch, hbc.follows.stored _ hn]
    simp only
    by_cases hmem : h ∈ (C (n + 1)).block.body.map Transaction.txHash
    · have hatt := txProofGenerateOnTheBlock_of_mem (hbc.sealed _ hn) hmem
      rw [if_pos hatt.found]
      exact Or.inr ⟨n + 1, le_rfl, hmem, hatt⟩
    · rw [txProofGenerateOnTheBlock_of_not_mem hmem, if_neg (by simp),
        hbc.linked.parent n (by omega)]
      rcases ih (by omega) with ⟨hfalse, hnone⟩ | ⟨k, hk, hin, hatt⟩
      · refine Or.inl ⟨hfalse, ?_⟩
        intro k hk
        by_cases hlast : k = n + 1
        · rw [hlast]
          exact hmem
        · exact hnone k (by omega)
      · exact Or.inr ⟨k, by omega, hin, hatt⟩

/-! ### Chains grown by their own operations -/

/-- What happens to a chain that proposes its own blocks. -/
inductive GrowOp where
  | addTxs2Pool (txs : List Transaction)
  | updatePartitionMap (key : Address) (val : ℕ)
  /-- `GenerateBlock`, and `AddBlock` with the block it returns. -/
  | generateAndAdd (miner : ℤ) (now : ℕ)
  | addAccounts (ac : List Address) (as : List AccountState)

def grow (bc : BlockChain H) : GrowOp → Option (BlockChain H)
  | .addTxs2Pool txs => some { bc with txpool := bc.txpool.addTxs2Pool txs }
  | .updatePartitionMap key val => some (bc.updatePartitionMap key val)
  | .generateAndAdd miner now => (bc.generateBlock miner now).bind fun r => r.1.addBlock r.2
  | .addAccounts ac as => bc.addAccounts ac as

omit [TrieProofs H] in
/-- One operation keeps the blocks, or grows the chain by one sealed block. -/
theorem grow_cases {bc bc' : BlockChain H} {op : GrowOp} (h : bc.grow op = some bc') :
    (bc'.currentBlock = bc.currentBlock ∧ bc'.storage = bc.storage) ∨
      (GrownBy bc bc' ∧ bc'.currentBlock.Sealed) := by
  cases op with
  | addTxs2Pool txs =>
    rw [grow, Option.some.injEq] at h
    subst h
    exact Or.inl ⟨rfl, rfl⟩
  | updatePartitionMap key val =>
    rw [grow, Option.some.injEq] at h
    subst h
    exact Or.inl ⟨rfl, rfl⟩
  | generateAndAdd miner now =>
    obtain ⟨⟨bc₁, b⟩, hgen, hadd⟩ := Option.bind_eq_some_iff.1 h
    rw [addBlock_of_generateBlockOf hgen, Option.some.injEq] at hadd
    subst hadd
    obtain ⟨rt, hexec, rfl⟩ := generateBlockOf_cases hgen
    have hfiles := sameFiles_getUpdateStatusTrie hexec
    refine Or.inr ⟨⟨hfiles.config, rfl, rfl, ?_⟩, rfl, rfl, rfl⟩
    show bc₁.storage.addBlock _ = bc.storage.addBlock _
    rw [hfiles.storage]
    rfl
  | addAccounts ac as =>
    obtain ⟨db, root, rfl, -, -⟩ := addAccounts_cases h
    exact Or.inr ⟨⟨rfl, rfl, rfl, rfl⟩, rfl, rfl, rfl⟩

omit [TrieProofs H] in
/-- A chain with the same blocks is archived under the history with its tip replaced. -/
theorem Archived.of_same_blocks {bc bc' : BlockChain H} {C : ℕ → Tip H} (hbc : bc.Archived C)
    (hcur : bc'.currentBlock = bc.currentBlock) (hsto : bc'.storage = bc.storage) :
    bc'.Archived (Function.update C bc.height bc'.tip) := by
  have hheight : bc'.height = bc.height := by rw [height, height, hcur]
  have hblock : ∀ h, (Function.update C bc.height bc'.tip h).block = (C h).block := fun h => by
    by_cases hh : h = bc.height
    · subst hh
      rw [Function.update_self, ← hbc.follows.tip]
      exact hcur
    · rw [Function.update_of_ne hh]
  refine ⟨⟨?_, ?_, ?_⟩, ⟨?_, ?_⟩, ?_, ?_⟩
  · intro h hh
    rw [hblock, hbc.linked.number h (hheight ▸ hh)]
  · intro h hh
    rw [hblock, hbc.linked.hash h (hheight ▸ hh)]
  · intro h hh
    rw [hblock, hblock, hbc.linked.parent h (hheight ▸ hh)]
  · rw [hheight, Function.update_self]
  · intro h hh
    rw [hblock, hsto, hbc.follows.stored h (hheight ▸ hh)]
  · rw [hblock, hbc.genesis]
  · intro h hh
    rw [hblock]
    exact hbc.sealed h (hheight ▸ hh)

omit [TrieProofs H] in
/-- One more sealed block extends the archive. -/
theorem Archived.of_grown {bc bc' : BlockChain H} {C : ℕ → Tip H} (hbc : bc.Archived C)
    (hg : GrownBy bc bc') (hseal : bc'.currentBlock.Sealed) :
    bc'.Archived (Function.update C (bc.height + 1) bc'.tip) := by
  set C' := Function.update C (bc.height + 1) bc'.tip with hC'
  have hold : ∀ h ≤ bc.height, C' h = C h := fun h hh => by
    rw [hC', Function.update_of_ne (by omega)]
  have hnew : C' (bc.height + 1) = bc'.tip := by rw [hC', Function.update_self]
  have hlinked : Linked C' bc'.height := by
    rw [hg.number]
    refine ⟨?_, ?_, ?_⟩
    · intro h hh
      by_cases hlast : h = bc.height + 1
      · subst hlast
        rw [hnew]
        exact hg.number
      · rw [hold h (by omega), hbc.linked.number h (by omega)]
    · intro h hh
      by_cases hlast : h = bc.height + 1
      · subst hlast
        rw [hnew]
        exact hseal.hash
      · rw [hold h (by omega), hbc.linked.hash h (by omega)]
    · intro h hh
      by_cases hlast : h = bc.height
      · subst hlast
        rw [hnew, hold _ le_rfl, ← hbc.follows.tip]
        exact hg.parent
      · rw [hold h (by omega), hold (h + 1) (by omega), hbc.linked.parent h (by omega)]
  refine ⟨hlinked, ?_, ?_, ?_⟩
  · exact hg.follows hlinked (hbc.follows.congr hold) (by rw [hg.number]) hnew.symm
  · rw [hold 0 (by omega), hbc.genesis]
  · intro h hh
    rw [hg.number] at hh
    by_cases hlast : h = bc.height + 1
    · subst hlast
      rw [hnew]
      exact hseal
    · rw [hold h (by omega)]
      exact hbc.sealed h (by omega)

omit [TrieProofs H] in
theorem archived_genesis {cc : ChainConfig} {storage : Storage H} {db : TrieDB H}
    {bc : BlockChain H} (hfresh : storage.newestBlockHash = none)
    (hopen : newBlockChain cc storage db = some bc) : bc.Archived fun _ => bc.tip := by
  obtain ⟨-, rfl⟩ | ⟨curHash, _, _, hnew, -⟩ := newBlockChain_cases hopen
  case inr => exact absurd (hfresh.symm.trans hnew) (Option.some_ne_none curHash).symm
  refine ⟨⟨?_, ?_, ?_⟩, ⟨rfl, ?_⟩, rfl, ?_⟩
  · intro h hh
    exact (Nat.le_zero.1 hh).symm
  · exact fun h hh => rfl
  · exact fun h hh => absurd hh (Nat.not_lt_zero h)
  · exact fun h hh => Storage.getBlock_addBlock_self _ _
  · exact fun h hh => ⟨rfl, rfl, rfl⟩

omit [TrieProofs H] in
theorem archived_of_run {cc : ChainConfig} {storage : Storage H} {db : TrieDB H}
    {bc₀ bc : BlockChain H} (hfresh : storage.newestBlockHash = none)
    (hopen : newBlockChain cc storage db = some bc₀) (hrun : Reaches grow bc₀ bc) :
    ∃ C, bc.Archived C := by
  refine hrun.invariant (I := fun bc => ∃ C, bc.Archived C) ⟨_, archived_genesis hfresh hopen⟩ ?_
  rintro t op u ⟨C, hC⟩ - hgrow
  rcases grow_cases hgrow with ⟨hcur, hsto⟩ | ⟨hg, hseal⟩
  · exact ⟨_, hC.of_same_blocks hcur hsto⟩
  · exact ⟨_, hC.of_grown hg hseal⟩

/-- **The search is exact.** On a chain grown from its genesis block, `TxProofGenerate` finds a hash
    exactly if a block of the chain has a transaction with it, and then its result names such a block
    and verifies. -/
theorem txProofGenerate_exact {cc : ChainConfig} {storage : Storage H} {db : TrieDB H}
    {bc₀ bc : BlockChain H} (hfresh : storage.newestBlockHash = none)
    (hopen : newBlockChain cc storage db = some bc₀) (hrun : Reaches grow bc₀ bc)
    (h : List UInt8) :
    ((bc.txProofGenerate h).found = true ↔
      ∃ k ≤ bc.height, ∃ b ∈ bc.blockAt k, h ∈ b.body.map Transaction.txHash) ∧
    ((bc.txProofGenerate h).found = true →
      (∃ b ∈ bc.blockAt (bc.txProofGenerate h).blockHeight, h ∈ b.body.map Transaction.txHash ∧
        (bc.txProofGenerate h).blockHash = b.hash) ∧
      (bc.txProofGenerate h).blockHeight ≤ bc.height ∧
      txProofVerify h (bc.txProofGenerate h) = some (.ok ())) := by
  obtain ⟨C, hC⟩ := archived_of_run hfresh hopen hrun
  have hat : ∀ k ≤ bc.height, bc.blockAt k = some (C k).block := fun k hk =>
    hC.follows.blockAt hC.linked le_rfl hk
  have hstart : bc.txProofGenerate h = bc.txProofSearch h bc.height (C bc.height).block.hash := by
    rw [txProofGenerate, ← hC.follows.tip]
    rfl
  rw [hstart]
  rcases hC.txProofSearch h le_rfl with ⟨hfalse, hnone⟩ | ⟨k, hk, hmem, hatt⟩
  · rw [hfalse]
    refine ⟨iff_of_false (by simp) ?_, fun hf => absurd hf (by simp)⟩
    rintro ⟨k, hk, b, hb, hin⟩
    rw [hat k hk, Option.mem_some_iff] at hb
    exact hnone k hk (hb ▸ hin)
  · have hnum : (bc.txProofSearch h bc.height (C bc.height).block.hash).blockHeight = k :=
      hatt.blockHeight.trans (hC.linked.number k hk)
    refine ⟨iff_of_true hatt.found ⟨k, hk, _, hat k hk, hmem⟩, fun _ => ⟨?_, ?_, hatt.verifies⟩⟩
    · rw [hnum]
      exact ⟨_, hat k hk, hmem, hatt.blockHash⟩
    · rw [hnum]
      exact hk

/-- A transfer, mined below an account block, is found and its proof verifies. -/
theorem mined_transfer_is_proved :
    ∃ bc, Reaches grow sampleGenesis bc ∧ bc.height = 2 ∧
      (bc.txProofGenerate [1]).found = true ∧ (bc.txProofGenerate [1]).blockHeight ≤ bc.height ∧
      txProofVerify [1] (bc.txProofGenerate [1]) = some (.ok ()) := by
  have hsample : ∃ bc ∈ runActions grow sampleGenesis
      [.addTxs2Pool [transfer 5], .generateAndAdd 0 0, .addAccounts [] []],
      bc.height = 2 ∧ (bc.txProofGenerate [1]).found = true := by decide +kernel
  obtain ⟨bc, hacts, hheight, hfound⟩ := hsample
  have hrun := reaches_of_runActions hacts
  have hexact := txProofGenerate_exact rfl newBlockChain_sample hrun [1]
  exact ⟨bc, hrun, hheight, hfound, (hexact.2 hfound).2⟩

end BlockChain

/-! ## The batch generator -/

/-- The two results say the same: both found nothing, or they have the same proof. -/
structure TxProofResult.Agrees (r r' : TxProofResult H) : Prop where
  found : r.found = r'.found
  proof : r.found = true → r.blockHash = r'.blockHash ∧ r.txRoot = r'.txRoot ∧
    r.blockHeight = r'.blockHeight ∧ r.keyList = r'.keyList ∧ r.valueList = r'.valueList

omit [DecidableEq H] [TrieProofs H] in
theorem TxProofResult.Agrees.refl (r : TxProofResult H) : r.Agrees r :=
  ⟨rfl, fun _ => ⟨rfl, rfl, rfl, rfl, rfl⟩⟩

omit [DecidableEq H] [TrieProofs H] in
theorem TxProofResult.Agrees.of_not_found {r r' : TxProofResult H} (h : r.found = false)
    (h' : r'.found = false) : r.Agrees r' :=
  ⟨h.trans h'.symm, fun hfound => absurd (hfound.symm.trans h) (by simp)⟩

/-- The bloom filter is right about a hash, or the block's root is wrong. -/
def Block.Decides (block : Block H) (h : List UInt8) : Prop :=
  h ∈ block.body.map Transaction.txHash ∨ modBytes h 2048 ∉ block.header.bloom ∨
    getTxTreeRoot block.body ≠ block.header.txRoot

/-- With the right root, and the bit of the hash in the bloom filter, the batch generator proves
    whatever it is asked for. -/
theorem txProofOfBatch_found (hprove : ∀ keys key, key ∉ keys → (TrieProofs.prove H keys key).isSome)
    {block : Block H} {h : List UInt8} (hmem : h ∉ block.body.map Transaction.txHash)
    (hbloom : modBytes h 2048 ∈ block.header.bloom)
    (hroot : getTxTreeRoot block.body = block.header.txRoot) :
    (txProofOfBatch block h).found = true := by
  have habsent : h ∉ (block.body.map Transaction.txHash).toFinset := by
    rwa [List.mem_toFinset]
  obtain ⟨nodes, hnodes⟩ := Option.isSome_iff_exists.1 (hprove _ h habsent)
  rw [txProofOfBatch, if_neg (not_not.2 hroot), if_neg (not_not.2 hbloom), txProofOf, hnodes]

/-- One entry of the batch. -/
theorem txProofOfBatch_agrees_iff
    (hprove : ∀ keys key, key ∉ keys → (TrieProofs.prove H keys key).isSome) (block : Block H)
    (h : List UInt8) :
    (txProofOfBatch block h).Agrees (txProofGenerateOnTheBlock h block) ↔ block.Decides h := by
  by_cases hmem : h ∈ block.body.map Transaction.txHash
  · refine iff_of_true ?_ (.inl hmem)
    have hany : (block.body.any fun tx => decide (h = tx.txHash)) = true := by
      obtain ⟨tx, htx, rfl⟩ := List.mem_map.1 hmem
      exact List.any_eq_true.2 ⟨tx, htx, by simp⟩
    rw [txProofOfBatch, txProofGenerateOnTheBlock, hany, if_neg (c := (!true) = true) (by simp)]
    -- the two checks are made in the other order
    split
    · refine .of_not_found rfl ?_
      split <;> rfl
    · split
      · exact .refl _
      · exact .refl _
  · have hsingle := txProofGenerateOnTheBlock_of_not_mem hmem
    by_cases hdecides : block.Decides h
    · refine iff_of_true (.of_not_found ?_ hsingle) hdecides
      unfold txProofOfBatch
      split
      · rfl
      next hroot =>
        split
        · rfl
        next hbloom => exact absurd hdecides (not_or.2 ⟨hmem, not_or.2 ⟨hbloom, hroot⟩⟩)
    · refine iff_of_false (fun hagrees => ?_) hdecides
      obtain ⟨-, hbloom, hroot⟩ : _ ∧ ¬_ ∧ ¬_ := by
        rwa [Block.Decides, not_or, not_or] at hdecides
      have hbatch := txProofOfBatch_found hprove hmem (not_not.1 hbloom) (not_not.1 hroot)
      exact absurd (hagrees.found.symm.trans hbatch) (by simp [hsingle])

/-- **The batch generator agrees with the single one** on a list of hashes exactly if, for each of
    them, the transaction is in the block, or the bloom filter excludes it, or the block's root is
    wrong. A hash that only the bloom filter takes for one of the block's is reported as found by the
    batch generator, with a proof of its absence. -/
theorem batch_agrees_iff
    (hprove : ∀ keys key, key ∉ keys → (TrieProofs.prove H keys key).isSome)
    (txHashes : List (List UInt8)) (block : Block H) :
    (∀ (i : ℕ) h, txHashes[i]? = some h → ∃ r, (txProofBatchGenerateOnBlock txHashes block)[i]? = some r ∧
      r.Agrees (txProofGenerateOnTheBlock h block)) ↔ ∀ h ∈ txHashes, block.Decides h := by
  constructor
  · intro hall h hmem
    obtain ⟨i, hi⟩ := List.getElem?_of_mem hmem
    obtain ⟨r, hr, hagrees⟩ := hall i h hi
    rw [txProofBatchGenerateOnBlock, List.getElem?_map, hi] at hr
    obtain rfl := Option.some.inj hr
    exact (txProofOfBatch_agrees_iff hprove block h).1 hagrees
  · intro hall i h hi
    refine ⟨txProofOfBatch block h, ?_, ?_⟩
    · rw [txProofBatchGenerateOnBlock, List.getElem?_map, hi, Option.map_some]
    · exact (txProofOfBatch_agrees_iff hprove block h).2 (hall h (List.mem_of_getElem? hi))

section Sample

open BlockChain

/-- The bytes of 2049, which the bloom filter does not tell from the hash of the transfer. -/
def falsePositive : List UInt8 := [8, 1]

/-- A mined block has one transfer; the batch generator also finds what is not in the block. -/
theorem batch_finds_absent_tx :
    (∀ keys key, key ∉ keys → (TrieProofs.prove SymHash keys key).isSome) ∧
    ∃ bc, Reaches grow sampleGenesis bc ∧ bc.currentBlock.body.map Transaction.txHash = [[1]] ∧
      (txProofGenerateOnTheBlock falsePositive bc.currentBlock).found = false ∧
      ∃ r ∈ (txProofBatchGenerateOnBlock [falsePositive] bc.currentBlock)[0]?, r.found = true := by
  refine ⟨fun _ _ _ => rfl, ?_⟩
  have hsample : ∃ bc ∈ runActions grow sampleGenesis
      [.addTxs2Pool [transfer 5], .generateAndAdd 0 0],
      bc.currentBlock.body.map Transaction.txHash = [[1]] ∧
      (txProofGenerateOnTheBlock falsePositive bc.currentBlock).found = false ∧
      ∃ r ∈ (txProofBatchGenerateOnBlock [falsePositive] bc.currentBlock)[0]?, r.found = true := by
    decide +kernel
  obtain ⟨bc, hacts, hfalse⟩ := hsample
  exact ⟨bc, reaches_of_runActions hacts, hfalse⟩

/-- On the transfer itself, and on a hash with another bit, they agree. -/
theorem batch_agrees_on_transfer :
    ∃ bc, Reaches grow sampleGenesis bc ∧
      ∀ (i : ℕ) h, [[1], [2]][i]? = some h → ∃ r,
        (txProofBatchGenerateOnBlock [[1], [2]] bc.currentBlock)[i]? = some r ∧
          r.Agrees (txProofGenerateOnTheBlock h bc.currentBlock) := by
  have hsample : ∃ bc ∈ runActions grow sampleGenesis
      [.addTxs2Pool [transfer 5], .generateAndAdd 0 0],
      [1] ∈ bc.currentBlock.body.map Transaction.txHash ∧
        modBytes [2] 2048 ∉ bc.currentBlock.header.bloom := by decide +kernel
  obtain ⟨bc, hacts, hone, htwo⟩ := hsample
  refine ⟨bc, reaches_of_runActions hacts, ?_⟩
  refine (batch_agrees_iff (fun _ _ _ => rfl) [[1], [2]] bc.currentBlock).2 ?_
  intro h hmem
  rcases List.mem_cons.1 hmem with rfl | hmem
  · exact .inl hone
  · rw [List.mem_singleton.1 hmem]
    exact .inr (.inl htwo)

end Sample

end BlockEmulator
