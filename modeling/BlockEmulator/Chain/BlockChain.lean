import BlockEmulator.Chain.Execute
import BlockEmulator.Hashing

set_option autoImplicit false

/-! # The blockchain object

`chain/blockchain.go`. A `log.Panic` is modelled as `none`: the node is gone. The methods that
change the chain return the new chain; `GetUpdateStatusTrie` returns the new root beside it.

`getUpdateStatusTrie_cases`, `addBlock_cases`, `addAccounts_cases` and `generateBlockOf_cases` say what
one call can do; nothing after this module unfolds the functions again. -/

namespace BlockEmulator

/-- `params.ChainConfig`, with the global parameters the chain reads. -/
structure ChainConfig where
  shardID : ℕ
  shardNums : ℕ
  blockSize : ℕ
  useBlocksizeInBytes : Bool := false
  blocksizeInBytes : ℕ := 20000
  g2eBeta : ℕ
deriving DecidableEq

/-- `chain.BlockChain`. -/
structure BlockChain (H : Type) [DecidableEq H] [Hashing H] where
  triedb : TrieDB H
  chainConfig : ChainConfig
  currentBlock : Block H
  storage : Storage H
  txpool : TxPool
  partitionMap : Finmap fun _ : Address => ℕ
  g2eBook : G2EBook

namespace BlockChain

variable {H : Type} [DecidableEq H] [Hashing H]

/-- `CurrentBlock.Header.Number`. -/
def height (bc : BlockChain H) : ℕ := bc.currentBlock.header.number

/-- `CurrentBlock.Header.StateRoot`. -/
def stateRoot (bc : BlockChain H) : H := bc.currentBlock.header.stateRoot

/-- The account state under the current root, if the database resolves it. -/
def accounts (bc : BlockChain H) : Option Accounts := bc.triedb.trieNew bc.stateRoot

/-- `Update_PartitionMap`. -/
def updatePartitionMap (bc : BlockChain H) (key : Address) (val : ℕ) : BlockChain H :=
  { bc with partitionMap := Finmap.insert key val bc.partitionMap }

/-- `Get_PartitionMap`. -/
def getPartitionMap (bc : BlockChain H) (key : Address) : ℕ :=
  (bc.partitionMap.lookup key).getD (addr2Shard bc.chainConfig.shardNums key)

def ctx (bc : BlockChain H) : ExecCtx where
  isLocal := fun a => bc.getPartitionMap a == bc.chainConfig.shardID
  curH := bc.height
  beta := bc.chainConfig.g2eBeta

/-- The transaction loop of `GetUpdateStatusTrie` on an open trie. -/
def execLoop (bc : BlockChain H) (txs : List Transaction) (st : Accounts) : ExecState :=
  execTxs bc.ctx 0 txs ⟨st, bc.g2eBook, 0⟩

/-- `GetUpdateStatusTrie`. -/
def getUpdateStatusTrie (bc : BlockChain H) (txs : List Transaction) : Option (BlockChain H × H) :=
  if txs.length = 0 then some (bc, bc.stateRoot)
  else
    match bc.triedb.trieNew bc.stateRoot with
    | none => none
    | some st =>
      let s := bc.execLoop txs st
      -- the early return skips the settlement and keeps the old root
      if s.cnt = 0 then some ({ bc with g2eBook := s.book }, bc.stateRoot)
      else
        match settle (bc.height + 1) s.st s.book with
        | none => none
        | some (st', book') =>
          some ({ bc with triedb := bc.triedb.commit st', g2eBook := book' }, Hashing.stateRoot st')

/-- The block `GenerateBlock` builds at time `now` around an executed state root. -/
def sealBlock (bc : BlockChain H) (txs : List Transaction) (miner : ℤ) (now : ℕ) (rt : H) :
    Block H :=
  let header : BlockHeader H :=
    { parentBlockHash := bc.currentBlock.hash
      number := bc.height + 1
      time := now
      stateRoot := rt
      txRoot := getTxTreeRoot txs
      bloom := getBloomFilter txs
      miner := miner }
  { header := header, body := txs, hash := Hashing.headerHash header }

/-- `GenerateBlock` on the transactions it has packed. -/
def generateBlockOf (bc : BlockChain H) (txs : List Transaction) (miner : ℤ) (now : ℕ) :
    Option (BlockChain H × Block H) :=
  (bc.getUpdateStatusTrie txs).map fun r => (r.1, bc.sealBlock txs miner now r.2)

/-- The packing step of `GenerateBlock`, by number of transactions or by size. -/
def packForBlock (bc : BlockChain H) : List Transaction × TxPool :=
  if bc.chainConfig.useBlocksizeInBytes then
    bc.txpool.packTxsWithBytes bc.chainConfig.blocksizeInBytes
  else bc.txpool.packTxs bc.chainConfig.blockSize

/-- `GenerateBlock`. -/
def generateBlock (bc : BlockChain H) (miner : ℤ) (now : ℕ) : Option (BlockChain H × Block H) :=
  { bc with txpool := bc.packForBlock.2 }.generateBlockOf bc.packForBlock.1 miner now

/-- Make `b` the current block and store it: the last two lines of `AddBlock` and `AddAccounts`. -/
def append (bc : BlockChain H) (b : Block H) : BlockChain H :=
  { bc with currentBlock := b, storage := bc.storage.addBlock b }

/-- `AddBlock`: a block that does not extend the chain is ignored; one whose root the database
    already resolves is appended without being executed. -/
def addBlock (bc : BlockChain H) (b : Block H) : Option (BlockChain H) :=
  if b.header.number ≠ bc.height + 1 then some bc
  else if b.header.parentBlockHash ≠ bc.currentBlock.hash then some bc
  else
    match bc.triedb.trieNew b.header.stateRoot with
    | some _ => some (bc.append b)
    | none => (bc.getUpdateStatusTrie b.body).map fun r => r.1.append b

/-- `NewGenisisBlock`; the header's other fields are Go's zero values. -/
def newGenisisBlock : Block H :=
  let header : BlockHeader H :=
    { parentBlockHash := Hashing.zero
      number := 0
      time := 0
      stateRoot := Hashing.stateRoot ∅
      txRoot := getTxTreeRoot []
      bloom := getBloomFilter []
      miner := 0 }
  { header := header, body := [], hash := Hashing.headerHash header }

/-- `NewBlockChain` over a block storage and a trie database. -/
def newBlockChain (cc : ChainConfig) (storage : Storage H) (db : TrieDB H) :
    Option (BlockChain H) :=
  match storage.newestBlockHash with
  | none =>
    let gb : Block H := newGenisisBlock
    some
      { triedb := db, chainConfig := cc, currentBlock := gb, storage := storage.addBlock gb
        txpool := {}, partitionMap := ∅, g2eBook := ∅ }
  | some curHash =>
    match storage.getBlock curHash with
    | none => none
    | some curb =>
      match db.trieNew curb.header.stateRoot with
      | none => none
      | some _ =>
        some
          { triedb := db, chainConfig := cc, currentBlock := curb, storage := storage
            txpool := {}, partitionMap := ∅, g2eBook := ∅ }

/-- A new chain starts with the genesis block, and one that is there already with the block under its
    newest hash, whose root resolves. -/
theorem newBlockChain_cases {cc : ChainConfig} {storage : Storage H} {db : TrieDB H}
    {bc : BlockChain H} (h : newBlockChain cc storage db = some bc) :
    (storage.newestBlockHash = none ∧ bc =
      { triedb := db, chainConfig := cc, currentBlock := newGenisisBlock
        storage := storage.addBlock newGenisisBlock
        txpool := {}, partitionMap := ∅, g2eBook := ∅ }) ∨
    ∃ curHash curb st, storage.newestBlockHash = some curHash ∧
      storage.getBlock curHash = some curb ∧ db.trieNew curb.header.stateRoot = some st ∧ bc =
      { triedb := db, chainConfig := cc, currentBlock := curb, storage := storage
        txpool := {}, partitionMap := ∅, g2eBook := ∅ } := by
  unfold newBlockChain at h
  split at h
  · next hnew => exact .inl ⟨hnew, (Option.some.inj h).symm⟩
  · next curHash hnew =>
      split at h
      · exact absurd h (by simp)
      · next curb hcurb =>
          split at h
          · exact absurd h (by simp)
          · next st hst => exact .inr ⟨curHash, curb, st, hnew, hcurb, hst, (Option.some.inj h).symm⟩

/-- `IsValidBlock`. -/
def isValidBlock (bc : BlockChain H) (b : Block H) : Bool :=
  b.header.parentBlockHash == bc.currentBlock.hash && getTxTreeRoot b.body == b.header.txRoot

/-- The account loop of `AddAccounts`; `none` is an index out of range in `as`. -/
def addAccountsLoop (bc : BlockChain H) (as : List AccountState) :
    ℕ → List Address → Accounts → Option Accounts
  | _, [], st => some st
  | i, addr :: ac, st =>
    if bc.getPartitionMap addr = bc.chainConfig.shardID then
      match as[i]? with
      | none => none
      | some a => bc.addAccountsLoop as (i + 1) ac (Finmap.insert addr a st)
    else bc.addAccountsLoop as (i + 1) ac st

/-- The empty block `AddAccounts` appends, with the root it has computed. -/
def accountsBlock (bc : BlockChain H) (root : H) : Block H :=
  let header : BlockHeader H :=
    { parentBlockHash := bc.currentBlock.hash
      number := bc.height + 1
      time := 0
      stateRoot := root
      txRoot := getTxTreeRoot []
      bloom := getBloomFilter []
      miner := 0 }
  { header := header, body := [], hash := Hashing.headerHash header }

/-- `AddAccounts`. When no account changed, `st.Commit` returns no nodes and the root stays. -/
def addAccounts (bc : BlockChain H) (ac : List Address) (as : List AccountState) :
    Option (BlockChain H) :=
  if ac.length = 0 then some (bc.append (bc.accountsBlock bc.stateRoot))
  else
    match bc.triedb.trieNew bc.stateRoot with
    | none => none
    | some st =>
      (bc.addAccountsLoop as 0 ac st).map fun st' =>
        if st' = st then bc.append (bc.accountsBlock bc.stateRoot)
        else
          { bc with triedb := bc.triedb.commit st' }.append
            (bc.accountsBlock (Hashing.stateRoot st'))

/-- `FetchAccounts`. -/
def fetchAccounts (bc : BlockChain H) (addrs : List Address) : Option (List AccountState) :=
  (bc.triedb.trieNew bc.stateRoot).map fun st => addrs.map fun a => st.getOrNew a 0

theorem fetchAccounts_eq {bc : BlockChain H} {st : Accounts} (hst : bc.accounts = some st)
    (addrs : List Address) : bc.fetchAccounts addrs = some (addrs.map fun a => st.getOrNew a 0) :=
  congrArg (Option.map _) hst

/-! ## What one execution does -/

/-- No transaction of the list has an effect on the current state. -/
def Quiet (bc : BlockChain H) (txs : List Transaction) : Prop :=
  txs = [] ∨ ∃ st, bc.accounts = some st ∧ ∀ tx ∈ txs, idle bc.ctx st tx = true

instance (bc : BlockChain H) (txs : List Transaction) : Decidable (bc.Quiet txs) :=
  inferInstanceAs
    (Decidable (txs = [] ∨ ∃ st ∈ bc.accounts, ∀ tx ∈ txs, idle bc.ctx st tx = true))

theorem execLoop_cnt_eq_zero_iff (bc : BlockChain H) (txs : List Transaction) (st : Accounts) :
    (bc.execLoop txs st).cnt = 0 ↔ ∀ tx ∈ txs, idle bc.ctx st tx = true :=
  execTxs_cnt_eq_iff bc.ctx 0 txs ⟨st, bc.g2eBook, 0⟩

theorem idle_of_quiet {bc : BlockChain H} {txs : List Transaction} (hq : bc.Quiet txs)
    {st : Accounts} (hst : bc.accounts = some st) : ∀ tx ∈ txs, idle bc.ctx st tx = true := by
  rcases hq with rfl | ⟨st', hst', hidle⟩
  · simp
  · rw [hst, Option.some.injEq] at hst'
    exact hst' ▸ hidle

theorem quiet_iff_cnt_eq_zero {bc : BlockChain H} {st : Accounts} (hst : bc.accounts = some st)
    (txs : List Transaction) : bc.Quiet txs ↔ (bc.execLoop txs st).cnt = 0 := by
  rw [execLoop_cnt_eq_zero_iff]
  exact ⟨fun hq => idle_of_quiet hq hst, fun hidle => .inr ⟨st, hst, hidle⟩⟩

/-- The bets a list of transactions would get recorded. -/
def newBets (bc : BlockChain H) (txs : List Transaction) (st : Accounts) : List Transaction :=
  acceptedBets bc.ctx txs ⟨st, bc.g2eBook, 0⟩

theorem execLoop_book (bc : BlockChain H) (txs : List Transaction) (st : Accounts) :
    (bc.execLoop txs st).book = (bc.newBets txs st).foldl G2EBook.recordBet bc.g2eBook :=
  execTxs_book bc.ctx 0 txs ⟨st, bc.g2eBook, 0⟩

/-- A block without effect returns the current root and leaves the chain alone. -/
theorem getUpdateStatusTrie_of_quiet {bc : BlockChain H} {txs : List Transaction}
    (h : bc.Quiet txs) : bc.getUpdateStatusTrie txs = some (bc, bc.stateRoot) := by
  unfold getUpdateStatusTrie
  rcases h with rfl | ⟨st, hst, hidle⟩
  · rfl
  · split
    · rfl
    · rw [accounts] at hst
      have hcnt : (bc.execLoop txs st).cnt = 0 := (execLoop_cnt_eq_zero_iff bc txs st).2 hidle
      have hbook : (bc.execLoop txs st).book = bc.g2eBook := by
        rw [execLoop_book, newBets, acceptedBets,
          atTurn_accepts_of_idle (s := ⟨st, bc.g2eBook, 0⟩) hidle]
        rfl
      simp only [hst, hcnt, hbook, ↓reduceIte]

/-- A block with an effect runs the loop, settles the next height and commits. -/
theorem getUpdateStatusTrie_of_not_quiet {bc : BlockChain H} {txs : List Transaction}
    {st : Accounts} (hst : bc.accounts = some st) (h : ¬ bc.Quiet txs) :
    bc.getUpdateStatusTrie txs
      = (settle (bc.height + 1) (bc.execLoop txs st).st (bc.execLoop txs st).book).map fun r =>
          ({ bc with triedb := bc.triedb.commit r.1, g2eBook := r.2 }, Hashing.stateRoot r.1) := by
  rw [Quiet, not_or] at h
  have hlen : txs.length ≠ 0 := fun h0 => h.1 (List.eq_nil_of_length_eq_zero h0)
  have hcnt : (bc.execLoop txs st).cnt ≠ 0 := fun h0 =>
    h.2 ⟨st, hst, (execLoop_cnt_eq_zero_iff bc txs st).1 h0⟩
  unfold getUpdateStatusTrie
  rw [accounts] at hst
  simp only [if_neg hlen, hst, if_neg hcnt]
  cases settle (bc.height + 1) (bc.execLoop txs st).st (bc.execLoop txs st).book <;> rfl

theorem getUpdateStatusTrie_of_no_root {bc : BlockChain H} {txs : List Transaction}
    (hst : bc.accounts = none) (h : txs ≠ []) : bc.getUpdateStatusTrie txs = none := by
  unfold getUpdateStatusTrie
  rw [if_neg (fun h0 => h (List.eq_nil_of_length_eq_zero h0))]
  rw [accounts] at hst
  rw [hst]

/-- **One execution.** Either the block is quiet and nothing changes, or the loop and the settlement
    run on the current account state and their results are committed. -/
theorem getUpdateStatusTrie_cases {bc bc' : BlockChain H} {txs : List Transaction} {rt : H}
    (h : bc.getUpdateStatusTrie txs = some (bc', rt)) :
    (bc.Quiet txs ∧ bc' = bc ∧ rt = bc.stateRoot) ∨
    (¬ bc.Quiet txs ∧ ∃ st st' bk', bc.accounts = some st ∧
      settle (bc.height + 1) (bc.execLoop txs st).st (bc.execLoop txs st).book = some (st', bk') ∧
      bc' = { bc with triedb := bc.triedb.commit st', g2eBook := bk' } ∧
      rt = Hashing.stateRoot st') := by
  by_cases hq : bc.Quiet txs
  · left
    rw [getUpdateStatusTrie_of_quiet hq, Option.some.injEq, Prod.mk.injEq] at h
    exact ⟨hq, h.1.symm, h.2.symm⟩
  · right
    refine ⟨hq, ?_⟩
    cases hst : bc.accounts with
    | none =>
      rw [getUpdateStatusTrie_of_no_root hst fun h0 => hq (Or.inl h0)] at h
      exact absurd h (by simp)
    | some st =>
      rw [getUpdateStatusTrie_of_not_quiet hst hq] at h
      obtain ⟨⟨st', bk'⟩, hs, heq⟩ := Option.map_eq_some_iff.1 h
      rw [Prod.mk.injEq] at heq
      exact ⟨st, st', bk', rfl, hs, heq.1.symm, heq.2.symm⟩

/-! ## What adding a block does -/

/-- The block passes the two checks of `AddBlock`. -/
def Extends (bc : BlockChain H) (b : Block H) : Prop :=
  b.header.number = bc.height + 1 ∧ b.header.parentBlockHash = bc.currentBlock.hash

instance (bc : BlockChain H) (b : Block H) : Decidable (bc.Extends b) :=
  inferInstanceAs (Decidable (_ ∧ _))

theorem addBlock_of_not_extends {bc : BlockChain H} {b : Block H} (h : ¬ bc.Extends b) :
    bc.addBlock b = some bc := by
  unfold addBlock
  by_cases hnum : b.header.number = bc.height + 1
  · rw [if_neg (not_not.2 hnum), if_pos fun hpar => h ⟨hnum, hpar⟩]
  · rw [if_pos hnum]

theorem addBlock_of_known {bc : BlockChain H} {b : Block H} {st : Accounts} (h : bc.Extends b)
    (hroot : bc.triedb.trieNew b.header.stateRoot = some st) :
    bc.addBlock b = some (bc.append b) := by
  unfold addBlock
  rw [if_neg (not_not.2 h.1), if_neg (not_not.2 h.2), hroot]

theorem addBlock_of_unknown {bc : BlockChain H} {b : Block H} (h : bc.Extends b)
    (hroot : bc.triedb.trieNew b.header.stateRoot = none) :
    bc.addBlock b = (bc.getUpdateStatusTrie b.body).map fun r => r.1.append b := by
  unfold addBlock
  rw [if_neg (not_not.2 h.1), if_neg (not_not.2 h.2), hroot]

/-- **One `AddBlock`.** The block is ignored, appended unread, or executed and appended. -/
theorem addBlock_cases {bc bc' : BlockChain H} {b : Block H} (h : bc.addBlock b = some bc') :
    (¬ bc.Extends b ∧ bc' = bc) ∨
    (bc.Extends b ∧ bc.triedb.trieNew b.header.stateRoot ≠ none ∧ bc' = bc.append b) ∨
    (bc.Extends b ∧ bc.triedb.trieNew b.header.stateRoot = none ∧
      ∃ bc₁ rt, bc.getUpdateStatusTrie b.body = some (bc₁, rt) ∧ bc' = bc₁.append b) := by
  by_cases hext : bc.Extends b
  · right
    cases hroot : bc.triedb.trieNew b.header.stateRoot with
    | some st =>
      rw [addBlock_of_known hext hroot, Option.some.injEq] at h
      exact Or.inl ⟨hext, by simp, h.symm⟩
    | none =>
      rw [addBlock_of_unknown hext hroot] at h
      obtain ⟨⟨bc₁, rt⟩, hexec, heq⟩ := Option.map_eq_some_iff.1 h
      exact Or.inr ⟨hext, rfl, bc₁, rt, hexec, heq.symm⟩
  · rw [addBlock_of_not_extends hext, Option.some.injEq] at h
    exact Or.inl ⟨hext, h.symm⟩

/-! ## What `AddAccounts` does -/

/-- **One `AddAccounts`.** An empty block is appended; the book and the partition map stay. -/
theorem addAccounts_cases {bc bc' : BlockChain H} {ac : List Address} {as : List AccountState}
    (h : bc.addAccounts ac as = some bc') :
    ∃ db root, bc' = { bc with triedb := db }.append (bc.accountsBlock root) ∧
      (∀ r st, bc.triedb.trieNew r = some st → db.trieNew r = some st) ∧
      (bc.accounts ≠ none → db.trieNew root ≠ none) := by
  unfold addAccounts at h
  split at h
  · rw [Option.some.injEq] at h
    exact ⟨bc.triedb, bc.stateRoot, h.symm, fun r st hr => hr, id⟩
  · split at h
    · exact absurd h (by simp)
    · next st hst =>
        obtain ⟨st', hloop, heq⟩ := Option.map_eq_some_iff.1 h
        split at heq
        · exact ⟨bc.triedb, bc.stateRoot, heq.symm, fun r st hr => hr, id⟩
        · refine ⟨bc.triedb.commit st', Hashing.stateRoot st', heq.symm, ?_, ?_⟩
          · exact fun r st hr => TrieDB.trieNew_commit_of_some hr st'
          · intro _
            rw [TrieDB.trieNew_commit_self]
            simp

/-- The account loop writes the accounts that live here, each with its state. -/
theorem addAccountsLoop_map (bc : BlockChain H) (f : Address → AccountState) {ac : List Address}
    {as : List AccountState} {i : ℕ} (has : as.drop i = ac.map f) (st : Accounts) :
    ∃ st', bc.addAccountsLoop as i ac st = some st' ∧ ∀ a, st'.lookup a =
      if a ∈ ac ∧ bc.getPartitionMap a = bc.chainConfig.shardID then some (f a)
      else st.lookup a := by
  induction ac generalizing i st with
  | nil => exact ⟨st, rfl, fun a => by simp⟩
  | cons addr ac ih =>
    have hget : as[i]? = some (f addr) := by
      rw [← List.head?_drop, has]
      rfl
    have hrest : as.drop (i + 1) = ac.map f := by
      rw [← List.tail_drop, has]
      rfl
    rw [addAccountsLoop, hget]
    split
    · next hhome =>
        obtain ⟨st', hloop, hlook⟩ := ih hrest (Finmap.insert addr (f addr) st)
        refine ⟨st', hloop, fun a => ?_⟩
        rw [hlook]
        by_cases ha : a = addr
        · subst ha
          simp [hhome]
        · simp [ha]
    · next hhome =>
        obtain ⟨st', hloop, hlook⟩ := ih hrest st
        refine ⟨st', hloop, fun a => ?_⟩
        rw [hlook]
        by_cases ha : a = addr
        · subst ha
          simp [hhome]
        · simp [ha]

/-- `AddAccounts` with a state for every address: the accounts that live here get it. -/
theorem addAccounts_map {bc : BlockChain H} {st : Accounts} (hst : bc.accounts = some st)
    (ac : List Address) (f : Address → AccountState) :
    ∃ bc' st', bc.addAccounts ac (ac.map f) = some bc' ∧ bc'.accounts = some st' ∧
      bc'.txpool = bc.txpool ∧ ∀ a, st'.lookup a =
        if a ∈ ac ∧ bc.getPartitionMap a = bc.chainConfig.shardID then some (f a)
        else st.lookup a := by
  unfold addAccounts
  split
  · next hlen =>
      obtain rfl := List.eq_nil_of_length_eq_zero hlen
      exact ⟨_, st, rfl, hst, rfl, fun a => by simp⟩
  · obtain ⟨st', hloop, hlook⟩ := bc.addAccountsLoop_map f (List.drop_zero (l := ac.map f)) st
    rw [show bc.triedb.trieNew bc.stateRoot = some st from hst]
    simp only [hloop, Option.map_some, Option.some.injEq]
    split
    · next hsame => exact ⟨_, st, rfl, hst, rfl, hsame ▸ hlook⟩
    · exact ⟨_, st', rfl, TrieDB.trieNew_commit_self _ _, rfl, hlook⟩

/-! ## What generating a block does -/

theorem extends_sealBlock (bc : BlockChain H) (txs : List Transaction) (miner : ℤ) (now : ℕ)
    (rt : H) : bc.Extends (bc.sealBlock txs miner now rt) :=
  ⟨rfl, rfl⟩

/-- **One `GenerateBlock`.** The list is executed and its root sealed into the next block. -/
theorem generateBlockOf_cases {bc bc' : BlockChain H} {b : Block H} {txs : List Transaction}
    {miner : ℤ} {now : ℕ} (h : bc.generateBlockOf txs miner now = some (bc', b)) :
    ∃ rt, bc.getUpdateStatusTrie txs = some (bc', rt) ∧ b = bc.sealBlock txs miner now rt := by
  obtain ⟨⟨bc₁, rt⟩, hexec, heq⟩ := Option.map_eq_some_iff.1 h
  rw [Prod.mk.injEq] at heq
  obtain ⟨rfl, rfl⟩ := heq
  exact ⟨rt, hexec, rfl⟩

/-- Execution only ever touches the trie database and the book. -/
theorem getUpdateStatusTrie_frame {bc bc' : BlockChain H} {txs : List Transaction} {rt : H}
    (h : bc.getUpdateStatusTrie txs = some (bc', rt)) :
    bc' = { bc with triedb := bc'.triedb, g2eBook := bc'.g2eBook } := by
  rcases getUpdateStatusTrie_cases h with ⟨-, rfl, -⟩ | ⟨-, st, st', bk', -, -, rfl, -⟩ <;> rfl

end BlockChain

end BlockEmulator
