import BlockEmulator.Chain.Runs
import BlockEmulator.Chain.Validity

set_option autoImplicit false

/-! # Crashes

A chain keeps two databases, and appending a block takes up to four writes to them: the state trie, the
block, its header and the newest hash, each a transaction of its own. A node can stop between any two
of them, and again while it is being opened.

The writes of every operation are listed here in their order, and the model's operations are shown to
perform exactly these (`BlockChain.writes_cases`). What survives is a prefix of the list. `Disk.Heads d b`
says that opening `d` gives the block `b`; it holds after every single write, of the old block until
the newest hash is written and of the new one from then on. A leader commits the trie when it proposes,
long before the block; a trie nobody refers to is no harm. -/

namespace BlockEmulator

variable {H : Type} [DecidableEq H]

/-! ## Durable writes -/

/-- One transaction of the block database, or one commit of the trie database. -/
inductive Write (H : Type) where
  | trie (st : Accounts)
  | block (b : Block H)
  | header (blockhash : H) (bh : BlockHeader H)
  | newest (newestbhash : H)

/-- The writes of `Storage.AddBlock`. -/
def storeWrites (b : Block H) : List (Write H) :=
  [.block b, .header b.hash b.header, .newest b.hash]

/-- What is left of a chain when its process is gone. -/
structure Disk (H : Type) [DecidableEq H] where
  storage : Storage H
  triedb : TrieDB H

namespace Disk

/-- The disk of a new node. -/
def empty : Disk H := ⟨Storage.empty, TrieDB.empty⟩

def write (d : Disk H) : Write H → Disk H
  | .trie st => { d with triedb := d.triedb.commit st }
  | .block b =>
    { d with
      storage :=
        { d.storage with
          blockBucket := Finmap.insert b.hash b d.storage.blockBucket
          keyed := (d.storage.addBlock b).keyed } }
  | .header blockhash bh =>
    { d with
      storage :=
        { d.storage with
          blockHeaderBucket := Finmap.insert blockhash bh d.storage.blockHeaderBucket } }
  | .newest newestbhash =>
    { d with storage := { d.storage with newestBlockHash := some newestbhash } }

/-- The disk after some writes. -/
def after (d : Disk H) (ws : List (Write H)) : Disk H := ws.foldl write d

theorem after_append (d : Disk H) (ws ws' : List (Write H)) :
    d.after (ws ++ ws') = (d.after ws).after ws' :=
  List.foldl_append

/-- The three writes together are `Storage.AddBlock`. -/
theorem after_storeWrites (d : Disk H) (b : Block H) :
    d.after (storeWrites b) = { d with storage := d.storage.addBlock b } := rfl

theorem storage_after_tries (d : Disk H) (tries : List Accounts) :
    (d.after (tries.map .trie)).storage = d.storage := by
  induction tries generalizing d with
  | nil => rfl
  | cons st tries ih => exact ih (d.write (.trie st))

variable [Hashing H]

theorem trieNew_after_tries {d : Disk H} {root : H} (h : d.triedb.trieNew root ≠ none)
    (tries : List Accounts) : (d.after (tries.map .trie)).triedb.trieNew root ≠ none := by
  induction tries generalizing d with
  | nil => exact h
  | cons st tries ih =>
    obtain ⟨st', hst'⟩ := Option.ne_none_iff_exists'.1 h
    refine ih (d := d.write (.trie st)) ?_
    rw [write, TrieDB.trieNew_commit_of_some hst']
    simp

/-! ## The block a disk opens with -/

/-- The writes of `NewBlockChain`: those of `AddGenisisBlock`, if there is no chain yet. -/
def openingWrites (d : Disk H) : List (Write H) :=
  match d.storage.newestBlockHash with
  | none => storeWrites BlockChain.newGenisisBlock
  | some _ => []

/-- The root of the genesis block is the one of the empty trie, which is never looked up. -/
theorem trieNew_genesis (db : TrieDB H) :
    db.trieNew BlockChain.newGenisisBlock.header.stateRoot = some ∅ :=
  if_pos (.inr rfl)

/-- Opening the disk gives the block `b`: the genesis block if no newest hash was written, and otherwise
    the block it names, whose root resolves. -/
def Heads (d : Disk H) (b : Block H) : Prop :=
  match d.storage.newestBlockHash with
  | none => b = BlockChain.newGenisisBlock
  | some curHash =>
    d.storage.getBlock curHash = some b ∧ d.triedb.trieNew b.header.stateRoot ≠ none

variable {d : Disk H} {b b' : Block H}

theorem heads_of_newest {curHash : H} (hnew : d.storage.newestBlockHash = some curHash)
    (hb : d.storage.getBlock curHash = some b)
    (hroot : d.triedb.trieNew b.header.stateRoot ≠ none) : d.Heads b := by
  rw [Heads, hnew]
  exact ⟨hb, hroot⟩

theorem Heads.newBlockChain (h : d.Heads b) (cc : ChainConfig) :
    ∃ bc, BlockChain.newBlockChain cc d.storage d.triedb = some bc ∧ bc.currentBlock = b ∧
      bc.chainConfig = cc ∧ bc.accounts ≠ none := by
  cases hnew : d.storage.newestBlockHash with
  | none =>
    rw [Heads, hnew] at h
    rw [BlockChain.newBlockChain, hnew]
    refine ⟨_, rfl, h.symm, rfl, ?_⟩
    rw [BlockChain.accounts, BlockChain.stateRoot, trieNew_genesis]
    exact Option.some_ne_none ∅
  | some curHash =>
    rw [Heads, hnew] at h
    obtain ⟨hb, hroot⟩ := h
    obtain ⟨st, hst⟩ := Option.ne_none_iff_exists'.1 hroot
    rw [BlockChain.newBlockChain, hnew]
    simp only [hb, hst]
    refine ⟨_, rfl, rfl, rfl, ?_⟩
    rwa [BlockChain.accounts]

theorem heads_of_newBlockChain {cc : ChainConfig} {bc : BlockChain H}
    (h : BlockChain.newBlockChain cc d.storage d.triedb = some bc) : d.Heads bc.currentBlock := by
  rcases BlockChain.newBlockChain_cases h with ⟨hnew, rfl⟩ | ⟨curHash, curb, st, hnew, hcurb, hst, rfl⟩
  · rw [Heads, hnew]
  · exact heads_of_newest hnew hcurb (hst ▸ Option.some_ne_none st)

namespace Heads

theorem tries (h : d.Heads b) (tries : List Accounts) : (d.after (tries.map .trie)).Heads b := by
  unfold Heads at h ⊢
  rw [storage_after_tries]
  split
  · next hnew => rwa [hnew] at h
  · next curHash hnew =>
      rw [hnew] at h
      exact ⟨h.1, trieNew_after_tries h.2 tries⟩

/-- The block record comes first. It changes nothing, unless the block has the newest hash already. -/
theorem block (h : d.Heads b) (hroot : d.triedb.trieNew b'.header.stateRoot ≠ none) :
    (d.write (.block b')).Heads b ∨ (d.write (.block b')).Heads b' := by
  unfold Heads at h ⊢
  cases hnew : d.storage.newestBlockHash with
  | none =>
    rw [hnew] at h
    simp only [write, hnew]
    exact .inl h
  | some curHash =>
    rw [hnew] at h
    simp only [write, hnew, Storage.getBlock]
    by_cases hhash : curHash = b'.hash
    · rw [hhash, Finmap.lookup_insert]
      exact .inr ⟨rfl, hroot⟩
    · rw [Finmap.lookup_insert_of_ne _ hhash]
      exact .inl h

theorem header (h : d.Heads b) (blockhash : H) (bh : BlockHeader H) :
    (d.write (.header blockhash bh)).Heads b := h

/-- **Storing a block, interrupted anywhere**, leaves the old block or the new one. -/
theorem take_storeWrites (h : d.Heads b) (hroot : d.triedb.trieNew b'.header.stateRoot ≠ none)
    (n : ℕ) : (d.after ((storeWrites b').take n)).Heads b ∨
      (d.after ((storeWrites b').take n)).Heads b' := by
  match n with
  | 0 => exact .inl h
  | 1 => exact h.block hroot
  | 2 => exact (h.block hroot).imp (fun h' => h'.header _ _) fun h' => h'.header _ _
  | n + 3 =>
    rw [List.take_of_length_le (Nat.le_add_left 3 n), after_storeWrites]
    exact .inr (heads_of_newest rfl (Storage.getBlock_addBlock_self d.storage b') hroot)

/-- The same, after some tries were committed. -/
theorem take_writes (h : d.Heads b) {tries : List Accounts}
    (hroot : (d.after (tries.map .trie)).triedb.trieNew b'.header.stateRoot ≠ none) (n : ℕ) :
    (d.after ((tries.map Write.trie ++ storeWrites b').take n)).Heads b ∨
      (d.after ((tries.map Write.trie ++ storeWrites b').take n)).Heads b' := by
  rw [List.take_append, after_append]
  rcases Nat.le_total (tries.map (Write.trie (H := H))).length n with hn | hn
  · rw [List.take_of_length_le hn]
    exact (h.tries tries).take_storeWrites hroot _
  · rw [Nat.sub_eq_zero_of_le hn, List.take_zero, ← List.map_take]
    exact .inl (h.tries (tries.take n))

theorem resolves (h : d.Heads b) : d.triedb.trieNew b.header.stateRoot ≠ none := by
  unfold Heads at h
  split at h
  · rw [h, trieNew_genesis]
    simp
  · exact h.2

/-- Opening may be interrupted as well: the writes of a first start are those of the genesis block. -/
theorem take_openingWrites (h : d.Heads b) (n : ℕ) : (d.after (d.openingWrites.take n)).Heads b := by
  unfold openingWrites
  cases hnew : d.storage.newestBlockHash with
  | none =>
    have hb : b = BlockChain.newGenisisBlock := by rwa [Heads, hnew] at h
    rw [← hb]
    exact (h.take_storeWrites h.resolves n).elim id id
  | some curHash =>
    rw [List.take_nil]
    exact h

end Heads

end Disk

/-! ## What the operations write -/

namespace BlockChain

variable [Hashing H]

def disk (bc : BlockChain H) : Disk H := ⟨bc.storage, bc.triedb⟩

/-- The trie `GetUpdateStatusTrie` commits, if it gets there. -/
def committedBy (bc : BlockChain H) (txs : List Transaction) : List Accounts :=
  if txs.length = 0 then []
  else
    match bc.triedb.trieNew bc.stateRoot with
    | none => []
    | some st =>
      let s := bc.execLoop txs st
      if s.cnt = 0 then []
      else ((settle (bc.height + 1) s.st s.book).map Prod.fst).toList

/-- The writes of `AddBlock`. -/
def addBlockWrites (bc : BlockChain H) (b : Block H) : List (Write H) :=
  if b.header.number ≠ bc.height + 1 then []
  else if b.header.parentBlockHash ≠ bc.currentBlock.hash then []
  else
    match bc.triedb.trieNew b.header.stateRoot with
    | some _ => storeWrites b
    | none =>
      (bc.committedBy b.body).map .trie ++
        -- a panic of the execution is before the block is stored
        if (bc.getUpdateStatusTrie b.body).isSome then storeWrites b else []

/-- The writes of `AddAccounts`. -/
def addAccountsWrites (bc : BlockChain H) (ac : List Address) (as : List AccountState) :
    List (Write H) :=
  if ac.length = 0 then storeWrites (bc.accountsBlock bc.stateRoot)
  else
    match bc.triedb.trieNew bc.stateRoot with
    | none => []
    | some st =>
      match bc.addAccountsLoop as 0 ac st with
      | none => []
      | some st' =>
        if st' = st then storeWrites (bc.accountsBlock bc.stateRoot)
        else .trie st' :: storeWrites (bc.accountsBlock (Hashing.stateRoot st'))

/-- The writes of one call on the chain, in their order. -/
def writes (bc : BlockChain H) : ChainOp H → List (Write H)
  | .addTxs2Pool _ => []
  | .generateBlock _ _ =>
    ({ bc with txpool := bc.packForBlock.2 }.committedBy bc.packForBlock.1).map .trie
  | .addBlock b => bc.addBlockWrites b
  | .addAccounts ac as => bc.addAccountsWrites ac as
  | .updatePartitionMap _ _ => []

theorem committedBy_of_quiet {bc : BlockChain H} {txs : List Transaction} (h : bc.Quiet txs) :
    bc.committedBy txs = [] := by
  unfold committedBy
  rcases h with rfl | ⟨st, hst, hidle⟩
  · rfl
  · rw [accounts] at hst
    simp only [hst, (execLoop_cnt_eq_zero_iff bc txs st).2 hidle, ↓reduceIte, ite_self]

theorem committedBy_of_not_quiet {bc : BlockChain H} {txs : List Transaction} {st : Accounts}
    (hst : bc.accounts = some st) (h : ¬ bc.Quiet txs) :
    bc.committedBy txs =
      ((settle (bc.height + 1) (bc.execLoop txs st).st (bc.execLoop txs st).book).map
        Prod.fst).toList := by
  have hlen : txs.length ≠ 0 := fun h0 => h (.inl (List.eq_nil_of_length_eq_zero h0))
  have hcnt : (bc.execLoop txs st).cnt ≠ 0 := fun h0 =>
    h (.inr ⟨st, hst, (execLoop_cnt_eq_zero_iff bc txs st).1 h0⟩)
  rw [accounts] at hst
  simp only [committedBy, hst, if_neg hlen, if_neg hcnt]

/-- An execution leaves the disk with the trie it commits. -/
theorem disk_getUpdateStatusTrie {bc bc' : BlockChain H} {txs : List Transaction} {rt : H}
    (h : bc.getUpdateStatusTrie txs = some (bc', rt)) :
    bc'.disk = bc.disk.after ((bc.committedBy txs).map .trie) := by
  rcases getUpdateStatusTrie_cases h with ⟨hq, rfl, -⟩ | ⟨hq, st, st', bk', hst, hs, rfl, -⟩
  · rw [committedBy_of_quiet hq]
    rfl
  · rw [committedBy_of_not_quiet hst hq, hs]
    rfl

theorem disk_newBlockChain {cc : ChainConfig} {d : Disk H} {bc : BlockChain H}
    (h : newBlockChain cc d.storage d.triedb = some bc) : bc.disk = d.after d.openingWrites := by
  rcases newBlockChain_cases h with ⟨hnew, rfl⟩ | ⟨curHash, curb, st, hnew, -, -, rfl⟩
  · rw [Disk.openingWrites, hnew, Disk.after_storeWrites]
    rfl
  · rw [Disk.openingWrites, hnew]
    rfl

/-- The root a block brings with it, if it is new, is the one its execution gives. -/
def BringsExecutedRoot (bc : BlockChain H) (b : Block H) : Prop :=
  bc.Extends b → bc.triedb.trieNew b.header.stateRoot = none →
    ∀ rt ∈ bc.executedRoot b.body, rt = b.header.stateRoot

instance (bc : BlockChain H) (b : Block H) : Decidable (bc.BringsExecutedRoot b) :=
  inferInstanceAs (Decidable (bc.Extends b → _ → ∀ rt ∈ bc.executedRoot b.body, _))

/-- The call commits some tries and leaves the current block alone, unless it panics. -/
structure CommitsOnly (bc : BlockChain H) (op : ChainOp H) (tries : List Accounts) : Prop where
  writes_eq : bc.writes op = tries.map .trie
  step : ∀ bc' ∈ bc.step op, bc'.disk = bc.disk.after (bc.writes op) ∧
    bc'.currentBlock = bc.currentBlock ∧ bc'.chainConfig = bc.chainConfig

/-- The call commits some tries and then stores a block whose root they resolve. -/
structure StoresBlock (bc : BlockChain H) (op : ChainOp H) (tries : List Accounts) (b : Block H) :
    Prop where
  writes_eq : bc.writes op = tries.map .trie ++ storeWrites b
  resolves : (bc.disk.after (tries.map .trie)).triedb.trieNew b.header.stateRoot ≠ none
  step : ∃ bc' ∈ bc.step op, bc'.disk = bc.disk.after (bc.writes op) ∧ bc'.currentBlock = b ∧
    bc'.chainConfig = bc.chainConfig

variable {bc : BlockChain H}

theorem storesBlock_of_append {op : ChainOp H} {tries : List Accounts} {b : Block H}
    (bc₁ : BlockChain H) (hwrites : bc.writes op = tries.map .trie ++ storeWrites b)
    (hdisk : bc₁.disk = bc.disk.after (tries.map .trie)) (hconfig : bc₁.chainConfig = bc.chainConfig)
    (hroot : bc₁.triedb.trieNew b.header.stateRoot ≠ none)
    (hstep : bc.step op = some (bc₁.append b)) : bc.StoresBlock op tries b where
  writes_eq := hwrites
  resolves := by
    rw [← hdisk]
    exact hroot
  step := by
    refine ⟨_, hstep, ?_, rfl, hconfig⟩
    rw [hwrites, Disk.after_append, ← hdisk, Disk.after_storeWrites]
    rfl

theorem generateBlock_writes (bc : BlockChain H) (miner : ℤ) (now : ℕ) :
    ∃ tries, bc.CommitsOnly (.generateBlock miner now) tries := by
  refine ⟨_, rfl, fun bc' hstep => ?_⟩
  obtain ⟨⟨bc₂, b⟩, hgen, rfl⟩ := Option.map_eq_some_iff.1 hstep
  obtain ⟨rt, hexec, -⟩ := generateBlockOf_cases hgen
  have hdisk := disk_getUpdateStatusTrie hexec
  have hframe := getUpdateStatusTrie_frame hexec
  exact ⟨hdisk, by rw [hframe], by rw [hframe]⟩

theorem committedBy_of_panic {txs : List Transaction} (h : bc.getUpdateStatusTrie txs = none) :
    bc.committedBy txs = [] := by
  by_cases hq : bc.Quiet txs
  · exact committedBy_of_quiet hq
  · cases hst : bc.accounts with
    | none =>
      rw [accounts] at hst
      simp only [committedBy, hst, ite_self]
    | some st =>
      rw [getUpdateStatusTrie_of_not_quiet hst hq, Option.map_eq_none_iff] at h
      rw [committedBy_of_not_quiet hst hq, h]
      rfl

theorem addBlockWrites_of_extends {b : Block H} (hext : bc.Extends b) :
    bc.addBlockWrites b =
      match bc.triedb.trieNew b.header.stateRoot with
      | some _ => storeWrites b
      | none =>
        (bc.committedBy b.body).map .trie ++
          if (bc.getUpdateStatusTrie b.body).isSome then storeWrites b else [] := by
  rw [addBlockWrites, if_neg (not_not.2 hext.1), if_neg (not_not.2 hext.2)]

theorem addBlockWrites_of_not_extends {b : Block H} (hext : ¬ bc.Extends b) :
    bc.addBlockWrites b = [] := by
  unfold addBlockWrites
  by_cases hnum : b.header.number = bc.height + 1
  · rw [if_neg (not_not.2 hnum), if_pos fun hpar => hext ⟨hnum, hpar⟩]
  · rw [if_pos hnum]

theorem addBlock_writes {b : Block H} (hst : bc.accounts ≠ none) (hbrings : bc.BringsExecutedRoot b) :
    (∃ tries, bc.CommitsOnly (.addBlock b) tries) ∨ ∃ tries, bc.StoresBlock (.addBlock b) tries b := by
  by_cases hext : bc.Extends b
  · have hwrites := addBlockWrites_of_extends hext
    cases hroot : bc.triedb.trieNew b.header.stateRoot with
    | some st =>
      rw [hroot] at hwrites
      refine .inr ⟨[], storesBlock_of_append bc hwrites rfl rfl ?_ (addBlock_of_known hext hroot)⟩
      rw [hroot]
      simp
    | none =>
      have hstep := addBlock_of_unknown hext hroot
      rw [hroot] at hwrites
      cases hexec : bc.getUpdateStatusTrie b.body with
      | none =>
        rw [hexec, committedBy_of_panic hexec] at hwrites
        rw [hexec] at hstep
        refine .inl ⟨[], hwrites, fun bc' hbc' => ?_⟩
        rw [step, hstep] at hbc'
        exact absurd hbc' (by simp)
      | some r =>
        obtain ⟨bc₁, rt⟩ := r
        rw [hexec] at hwrites hstep
        have hrt : rt = b.header.stateRoot :=
          hbrings hext hroot rt (by rw [executedRoot, hexec]; rfl)
        have hdisk := disk_getUpdateStatusTrie hexec
        refine .inr ⟨_, storesBlock_of_append bc₁ hwrites hdisk ?_ ?_ hstep⟩
        · rw [getUpdateStatusTrie_frame hexec]
        · rw [← hrt]
          exact trieNew_executed hst hexec
  · refine .inl ⟨[], addBlockWrites_of_not_extends hext, fun bc' hbc' => ?_⟩
    rw [step, addBlock_of_not_extends hext, Option.mem_some_iff] at hbc'
    rw [← hbc', writes, addBlockWrites_of_not_extends hext]
    exact ⟨rfl, rfl, rfl⟩

theorem addAccounts_writes (ac : List Address) (as : List AccountState) (hst : bc.accounts ≠ none) :
    (∃ tries, bc.CommitsOnly (.addAccounts ac as) tries) ∨
      ∃ tries b, bc.StoresBlock (.addAccounts ac as) tries b := by
  obtain ⟨st, hst'⟩ := Option.ne_none_iff_exists'.1 hst
  rw [accounts] at hst hst'
  have hsame : ∀ {op : ChainOp H}, bc.writes op = storeWrites (bc.accountsBlock bc.stateRoot) →
      bc.step op = some (bc.append (bc.accountsBlock bc.stateRoot)) → ∃ tries b,
      bc.StoresBlock op tries b := fun hwrites hstep =>
    ⟨[], _, storesBlock_of_append bc hwrites rfl rfl hst hstep⟩
  by_cases hac : ac.length = 0
  · exact .inr (hsame (if_pos hac) (if_pos hac))
  · have hwrites : bc.writes (.addAccounts ac as) = _ := if_neg hac
    have hstep : bc.step (.addAccounts ac as) = _ := if_neg hac
    rw [hst'] at hwrites hstep
    cases hloop : bc.addAccountsLoop as 0 ac st with
    | none =>
      simp only [hloop] at hwrites hstep
      refine .inl ⟨[], hwrites, fun bc' hbc' => ?_⟩
      rw [hstep] at hbc'
      exact absurd hbc' (by simp)
    | some st' =>
      simp only [hloop, Option.map_some] at hwrites hstep
      by_cases heq : st' = st
      · rw [if_pos heq] at hwrites hstep
        exact .inr (hsame hwrites hstep)
      · rw [if_neg heq] at hwrites hstep
        refine .inr ⟨[st'], _, storesBlock_of_append { bc with triedb := bc.triedb.commit st' }
          hwrites rfl rfl ?_ hstep⟩
        exact (TrieDB.trieNew_commit_self bc.triedb st').trans_ne (by simp)

/-- The condition on a call: a block that is added brings the executed root. -/
def BringsExecuted (bc : BlockChain H) : ChainOp H → Prop
  | .addBlock b => bc.BringsExecutedRoot b
  | _ => True

instance (bc : BlockChain H) : (op : ChainOp H) → Decidable (bc.BringsExecuted op)
  | .addBlock b => inferInstanceAs (Decidable (bc.BringsExecutedRoot b))
  | .addTxs2Pool _ | .generateBlock _ _ | .addAccounts _ _ | .updatePartitionMap _ _ =>
    .isTrue trivial

/-- **One call and its writes.** -/
theorem writes_cases {op : ChainOp H} (hst : bc.accounts ≠ none) (hcond : bc.BringsExecuted op) :
    (∃ tries, bc.CommitsOnly op tries) ∨ ∃ tries b, bc.StoresBlock op tries b := by
  cases op with
  | addTxs2Pool txs =>
    refine .inl ⟨[], rfl, fun bc' hbc' => ?_⟩
    rw [← Option.mem_some_iff.1 hbc']
    exact ⟨rfl, rfl, rfl⟩
  | generateBlock miner now => exact .inl (generateBlock_writes bc miner now)
  | addBlock b => exact (addBlock_writes hst hcond).imp id fun ⟨tries, h⟩ => ⟨tries, b, h⟩
  | addAccounts ac as => exact addAccounts_writes ac as hst
  | updatePartitionMap key val =>
    refine .inl ⟨[], rfl, fun bc' hbc' => ?_⟩
    rw [← Option.mem_some_iff.1 hbc']
    exact ⟨rfl, rfl, rfl⟩

end BlockChain

/-! ## Machines that crash -/

variable [Hashing H]

/-- A node's machine: the chain is open, or only its disk is there. -/
inductive Machine (H : Type) [DecidableEq H] [Hashing H] where
  | running (bc : BlockChain H)
  | down (d : Disk H)

/-- What a machine is doing: `NewBlockChain`, or one call on the open chain. -/
inductive Task (H : Type) where
  | start
  | op (op : ChainOp H)

/-- A task is carried through, or the machine stops after some of its writes. -/
inductive Event (H : Type) where
  | run (t : Task H)
  | crash (t : Task H) (n : ℕ)

namespace Machine

def disk : Machine H → Disk H
  | running bc => bc.disk
  | down d => d

/-- The writes of a task; `none` if the machine cannot take it up. -/
def writes : Machine H → Task H → Option (List (Write H))
  | running bc, .op op => some (bc.writes op)
  | down d, .start => some d.openingWrites
  | _, _ => none

variable (cc : ChainConfig)

/-- A task from beginning to end. A panic ends the process and leaves what was written; a machine whose
    chain cannot be opened has no next state. -/
def run : Machine H → Task H → Option (Machine H)
  | running bc, .op op =>
    match bc.step op with
    | some bc' => some (running bc')
    | none => some (down (bc.disk.after (bc.writes op)))
  | down d, .start => (BlockChain.newBlockChain cc d.storage d.triedb).map running
  | _, _ => none

def step (m : Machine H) : Event H → Option (Machine H)
  | .run t => m.run cc t
  | .crash t n => (m.writes t).map fun ws => down (m.disk.after (ws.take n))

/-- The current block of the open chain, or the one it would open with. -/
def head : Machine H → Option (Block H)
  | running bc => some bc.currentBlock
  | down d => (BlockChain.newBlockChain cc d.storage d.triedb).map BlockChain.currentBlock

/-- Every block that is added brings the executed root, also if the call does not come to its end. -/
def BringsExecuted : Machine H → Event H → Prop
  | running bc, .run (.op op) | running bc, .crash (.op op) _ => bc.BringsExecuted op
  | _, _ => True

instance : (m : Machine H) → (e : Event H) → Decidable (m.BringsExecuted e)
  | running bc, .run (.op op) | running bc, .crash (.op op) _ =>
    inferInstanceAs (Decidable (bc.BringsExecuted op))
  | running _, .run .start | running _, .crash .start _ | down _, _ => .isTrue trivial

/-- The disk opens with the machine's head. -/
structure Sound (m : Machine H) (b : Block H) : Prop where
  heads : m.disk.Heads b
  head : m.head cc = some b
  config : ∀ bc, m = running bc → bc.chainConfig = cc

variable {cc} {m m' : Machine H} {b : Block H}

theorem sound_down {d : Disk H} (h : d.Heads b) : (down d).Sound cc b := by
  obtain ⟨bc, hopen, hcur, -⟩ := h.newBlockChain cc
  exact ⟨h, by rw [Machine.head, hopen, Option.map_some, hcur], fun _ hrunning => nomatch hrunning⟩

theorem sound_running {bc : BlockChain H} (h : bc.disk.Heads bc.currentBlock)
    (hconfig : bc.chainConfig = cc) : (running bc).Sound cc bc.currentBlock :=
  ⟨h, rfl, fun bc' hbc' => by rw [← running.inj hbc', hconfig]⟩

/-- **A machine can stop anywhere**: its disk opens with the block it had, or with the one the task would
    have ended with. -/
theorem Sound.crash {t : Task H} {n : ℕ} (hinv : m.Sound cc b)
    (hcond : m.BringsExecuted (.crash t n)) (hcrash : m.step cc (.crash t n) = some m') :
    m'.Sound cc b ∨ ∃ m'' b', m.run cc t = some m'' ∧ m''.head cc = some b' ∧ m'.Sound cc b' := by
  obtain ⟨ws, hws, rfl⟩ := Option.map_eq_some_iff.1 hcrash
  match m, t with
  | running bc, .start => exact absurd hws (by simp [writes])
  | down d, .op op => exact absurd hws (by simp [writes])
  | down d, .start =>
    rw [writes, Option.some.injEq] at hws
    rw [← hws]
    exact .inl (sound_down (hinv.heads.take_openingWrites n))
  | running bc, .op op =>
    rw [writes, Option.some.injEq] at hws
    obtain rfl := Option.some.inj hinv.head
    rcases bc.writes_cases hinv.heads.resolves hcond with ⟨tries, hcall⟩ | ⟨tries, b', hcall⟩
    · rw [← hws, hcall.writes_eq, ← List.map_take]
      exact .inl (sound_down (hinv.heads.tries _))
    · obtain ⟨bc', hstep, -, hcur, -⟩ := hcall.step
      rw [← hws, hcall.writes_eq]
      refine (hinv.heads.take_writes hcall.resolves n).imp sound_down fun h => ?_
      refine ⟨running bc', b', ?_, by rw [Machine.head, hcur], sound_down h⟩
      rw [run, Option.mem_def.1 hstep]

/-- A task that is carried through leaves a sound machine. -/
theorem Sound.run {t : Task H} (hinv : m.Sound cc b) (hcond : m.BringsExecuted (.run t))
    (hrun : m.run cc t = some m') : ∃ b', m'.Sound cc b' := by
  match m, t with
  | running bc, .start => exact absurd hrun (by simp [Machine.run])
  | down d, .op op => exact absurd hrun (by simp [Machine.run])
  | down d, .start =>
    obtain ⟨bc, hopen, hcur, hconfig, -⟩ := hinv.heads.newBlockChain cc
    rw [disk] at hopen
    rw [Machine.run, hopen, Option.map_some, Option.some.injEq] at hrun
    have hall := hinv.heads.take_openingWrites d.openingWrites.length
    rw [disk, List.take_length, ← BlockChain.disk_newBlockChain hopen] at hall
    rw [← hrun]
    exact ⟨_, sound_running (hcur ▸ hall) hconfig⟩
  | running bc, .op op =>
    obtain rfl := Option.some.inj hinv.head
    have hcc := hinv.config bc rfl
    rcases bc.writes_cases hinv.heads.resolves hcond with ⟨tries, hcall⟩ | ⟨tries, b', hcall⟩
    · rw [Machine.run] at hrun
      split at hrun
      · next bc' hstep =>
          obtain ⟨hdisk, hcur, hconfig⟩ := hcall.step bc' hstep
          rw [← Option.some.inj hrun]
          refine ⟨_, sound_running ?_ (hconfig.trans hcc)⟩
          rw [hdisk, hcall.writes_eq, hcur]
          exact hinv.heads.tries tries
      · rw [← Option.some.inj hrun, hcall.writes_eq]
        exact ⟨_, sound_down (hinv.heads.tries tries)⟩
    · obtain ⟨bc', hstep, hdisk, hcur, hconfig⟩ := hcall.step
      rw [Machine.run, Option.mem_def.1 hstep, Option.some.injEq] at hrun
      rw [← hrun]
      refine ⟨_, sound_running ?_ (hconfig.trans hcc)⟩
      rw [hdisk, hcall.writes_eq, hcur, Disk.after_append, Disk.after_storeWrites]
      exact Disk.heads_of_newest rfl (Storage.getBlock_addBlock_self _ b') hcall.resolves

theorem Sound.step {e : Event H} (hinv : m.Sound cc b) (hcond : m.BringsExecuted e)
    (hstep : m.step cc e = some m') : ∃ b', m'.Sound cc b' := by
  cases e with
  | run t => exact hinv.run hcond hstep
  | crash t n =>
    rcases hinv.crash hcond hstep with hsame | ⟨-, b', -, -, hnext⟩
    · exact ⟨b, hsame⟩
    · exact ⟨b', hnext⟩

/-- **Crash consistency.** Take any machine that a disk that opens leads to, through any tasks, crashes
    and restarts, and let it stop after any of the writes of its next task. Then the chain opens: the
    newest hash names a stored block, its root resolves, and it is the block that was current before
    the task or the one that would be after it. -/
theorem crash_consistent {d₀ : Disk H}
    (hopens : BlockChain.newBlockChain cc d₀.storage d₀.triedb ≠ none)
    (hrun : ReachesUnder (step cc) BringsExecuted (down d₀) m) {t : Task H} {n : ℕ}
    (hcond : m.BringsExecuted (.crash t n)) (hcrash : m.step cc (.crash t n) = some m') :
    ∃ bc, m'.step cc (.run .start) = some (running bc) ∧ bc.Stored ∧ bc.accounts ≠ none ∧
      (m.head cc = some bc.currentBlock ∨
        ∃ m'', m.step cc (.run t) = some m'' ∧ m''.head cc = some bc.currentBlock) := by
  obtain ⟨bc₀, hopen₀⟩ := Option.ne_none_iff_exists'.1 hopens
  obtain ⟨b, hinv⟩ : ∃ b, m.Sound cc b := by
    refine hrun.invariant (I := fun m => ∃ b, m.Sound cc b) ?_ ?_
    · exact ⟨_, sound_down (Disk.heads_of_newBlockChain hopen₀)⟩
    · intro m e m' hinv hcond hstep
      obtain ⟨b, hb⟩ := hinv
      exact hb.step hcond hstep
  obtain ⟨ws, hws, rfl⟩ := Option.map_eq_some_iff.1 hcrash
  have hreopen : ∀ b', (down (m.disk.after (ws.take n))).Sound cc b' →
      ∃ bc, (down (m.disk.after (ws.take n))).step cc (.run .start) = some (running bc) ∧
        bc.Stored ∧ bc.accounts ≠ none ∧ bc.currentBlock = b' := fun b' h => by
    obtain ⟨bc, hopen, hcur, -, hroot⟩ := h.heads.newBlockChain cc
    refine ⟨bc, ?_, BlockChain.stored_newBlockChain hopen, hroot, hcur⟩
    exact congrArg (Option.map running) hopen
  rcases hinv.crash hcond hcrash with hsame | ⟨m'', b', hdone, hhead, hnext⟩
  · obtain ⟨bc, hopen, hstored, hroot, rfl⟩ := hreopen b hsame
    exact ⟨bc, hopen, hstored, hroot, .inl hinv.head⟩
  · obtain ⟨bc, hopen, hstored, hroot, rfl⟩ := hreopen b' hnext
    exact ⟨bc, hopen, hstored, hroot, .inr ⟨m'', hdone, hhead⟩⟩

/-- A follower stops when its second block, but not the newest hash, is on disk: it opens at the
    first. -/
theorem crash_before_newest_hash :
    ∃ m m' : Machine SymHash, ∃ bc, ∃ b ∈ BlockChain.transferBlocks,
      m.step BlockChain.sampleConfig (.crash (.op (.addBlock b)) 3) = some m' ∧
      m'.step BlockChain.sampleConfig (.run .start) = some (running bc) ∧
      bc.Stored ∧ bc.accounts ≠ none ∧ m.head BlockChain.sampleConfig = some bc.currentBlock := by
  have hrun : ∃ m ∈ runChecked (step BlockChain.sampleConfig) (fun m e => decide (m.BringsExecuted e))
      (down Disk.empty) [.run .start, .run (.op (.addBlock (BlockChain.transferBlocks[0])))],
      m.BringsExecuted (.crash (.op (.addBlock (BlockChain.transferBlocks[1]))) 3) ∧
      ∃ m' ∈ m.step BlockChain.sampleConfig (.crash (.op (.addBlock (BlockChain.transferBlocks[1]))) 3),
        m'.head BlockChain.sampleConfig = m.head BlockChain.sampleConfig := by
    decide +kernel
  obtain ⟨m, hm, hcond, m', hcrash, hhead⟩ := hrun
  have hopens := ne_of_eq_of_ne BlockChain.newBlockChain_sample (Option.some_ne_none _)
  obtain ⟨bc, hopen, hstored, hroot, -⟩ :=
    crash_consistent hopens (reachesUnder_of_runDecided hm) hcond hcrash
  refine ⟨m, m', bc, _, List.getElem_mem _, hcrash, hopen, hstored, hroot, ?_⟩
  obtain ⟨ws, -, rfl⟩ := Option.map_eq_some_iff.1 hcrash
  obtain ⟨bc', hbc', heq⟩ := Option.map_eq_some_iff.1 hopen
  rw [← hhead, head, hbc', running.inj heq]
  rfl

end Machine

end BlockEmulator
