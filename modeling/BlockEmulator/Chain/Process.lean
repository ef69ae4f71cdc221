import BlockEmulator.Chain.Runs

set_option autoImplicit false

/-! # A chain in its process

A state trie holds encodings, and an encoding carries the type ids of the process that has made it. So
the root of the same accounts depends on the processes that have written them, and a process can open
what another one has written, but does not come to the same roots. `ProcessChain` is the blockchain
object with the tries as they are on disk. To execute a block it runs on the decoded accounts what
`BlockChain` runs, and encodes anew the accounts that are written. `writesOf` and `paid` list these;
the list is complete (`rewrites_execTxs`, `rewrites_settle`), so that all other accounts keep their bytes.

A process that was started without a store does call by call what `BlockChain` does
(`step_toBlockChain`), over whole runs too (`reaches_toBlockChain`). -/

namespace BlockEmulator

/-! ## Which accounts are written -/

/-- The accounts that are written at the transaction's turn: the sender's if it is debited, also when it
    gets the amount back, and the recipient's if it is credited. -/
def writes (c : ExecCtx) (st : Accounts) (tx : Transaction) : List Address :=
  (if takesSender c tx && tx.value ≤ st.balance tx.sender then [tx.sender] else []) ++
    if credits c st tx then [tx.recipient] else []

/-- The accounts that the transaction loop writes. -/
def writesOf (c : ExecCtx) : ℕ → List Transaction → ExecState → List Address
  | _, [], _ => []
  | i, tx :: txs, s => writes c s.st tx ++ writesOf c (i + 1) txs (execTx c i tx s)

/-- The accounts that the settlement of height `h` writes. -/
def paid (h : ℕ) (bk : G2EBook) : List Address :=
  match bk.getEpoch h with
  | none => []
  | some eb =>
    match chooseWinningPair h eb with
    | none => []
    | some star => if 0 < eb.winStake star then (eb.bets star).map BetEntry.player else []

/-- `st'` is `st` with the accounts of `ws` written, and no others. -/
structure Rewrites (ws : List Address) (st st' : Accounts) : Prop where
  others : ∀ a, a ∉ ws → st'.lookup a = st.lookup a
  written : ∀ a ∈ ws, a ∈ st'

namespace Rewrites

variable {ws ws' : List Address} {st st₁ st₂ : Accounts}

theorem refl (st : Accounts) : Rewrites [] st st := ⟨fun _ _ => rfl, fun _ h => absurd h (by simp)⟩

theorem insert (a : Address) (s : AccountState) (st : Accounts) :
    Rewrites [a] st (Finmap.insert a s st) where
  others := fun _ h => Finmap.lookup_insert_of_ne _ (by simpa using h)
  written := fun _ h => Finmap.mem_insert.2 (Or.inl (by simpa using h))

theorem mem (h : Rewrites ws st st₁) {a : Address} (ha : a ∈ st) : a ∈ st₁ := by
  by_cases hw : a ∈ ws
  · exact h.written a hw
  · rwa [← Finmap.lookup_isSome, h.others a hw, Finmap.lookup_isSome]

theorem trans (h : Rewrites ws st st₁) (h' : Rewrites ws' st₁ st₂) : Rewrites (ws ++ ws') st st₂ where
  others := fun a ha => by
    rw [List.mem_append, not_or] at ha
    rw [h'.others a ha.2, h.others a ha.1]
  written := fun a ha => by
    rcases List.mem_append.1 ha with hw | hw
    · exact h'.mem (h.written a hw)
    · exact h'.written a hw

end Rewrites

theorem rewrites_creditRecipient (c : ExecCtx) (i : ℕ) (tx : Transaction) (s : ExecState) :
    Rewrites (if c.isLocal tx.recipient || tx.hasBroker then [tx.recipient] else []) s.st
      (creditRecipient c i tx s).st := by
  unfold creditRecipient
  split
  · exact .insert ..
  · exact .refl _

/-- One turn of the loop writes what `writes` lists. -/
theorem rewrites_execTx (c : ExecCtx) (i : ℕ) (tx : Transaction) (s : ExecState) :
    Rewrites (writes c s.st tx) s.st (execTx c i tx s).st := by
  unfold execTx
  by_cases htake : takesSender c tx = true
  · rw [if_pos (by simpa [takesSender] using htake)]
    simp only [Accounts.getOrNew_balance]
    by_cases hpay : s.st.balance tx.sender < tx.value
    · rw [if_pos hpay]
      have hnone : writes c s.st tx = [] := by simp [writes, credits, htake, hpay]
      rw [hnone]
      exact .refl _
    rw [if_neg hpay]
    by_cases hbet : tx.g2eEnabled = true
    · have hsender : writes c s.st tx = [tx.sender] := by
        simp [writes, credits, htake, hbet, not_lt.1 hpay]
      rw [if_pos hbet, hsender]
      split
      · -- a bet after its window has closed is written twice
        rw [Finmap.insert_insert]
        exact .insert ..
      · exact .insert ..
    · have hboth : writes c s.st tx =
          [tx.sender] ++ if c.isLocal tx.recipient || tx.hasBroker then [tx.recipient] else [] := by
        simp [writes, credits, htake, hbet, not_lt.1 hpay]
      rw [if_neg hbet, hboth]
      exact (Rewrites.insert tx.sender _ s.st).trans
        (rewrites_creditRecipient c i tx { s with st := _, cnt := s.cnt + 1 })
  · have hcredit : writes c s.st tx =
        if c.isLocal tx.recipient || tx.hasBroker then [tx.recipient] else [] := by
      simp [writes, credits, htake]
    rw [if_neg (by simpa [takesSender] using htake), hcredit]
    exact rewrites_creditRecipient c i tx s

/-- **The loop writes what `writesOf` lists.** -/
theorem rewrites_execTxs (c : ExecCtx) (i : ℕ) (txs : List Transaction) (s : ExecState) :
    Rewrites (writesOf c i txs s) s.st (execTxs c i txs s).st := by
  induction txs generalizing i s with
  | nil => exact .refl _
  | cons tx rest ih => exact (rewrites_execTx c i tx s).trans (ih (i + 1) _)

theorem rewrites_payout (q : ℤ) (es : List BetEntry) (st : Accounts) :
    Rewrites (es.map BetEntry.player) st (payout q es st) := by
  unfold payout
  induction es generalizing st with
  | nil => exact .refl _
  | cons e es ih => exact (Rewrites.insert ..).trans (ih _)

/-- **The settlement writes what `paid` lists.** -/
theorem rewrites_settle {h : ℕ} {st st' : Accounts} {bk bk' : G2EBook}
    (hs : settle h st bk = some (st', bk')) : Rewrites (paid h bk) st st' := by
  unfold settle at hs
  unfold paid
  cases heb : bk.getEpoch h with
  | none =>
    simp only [heb, Option.some.injEq, Prod.mk.injEq] at hs
    rw [hs.1]
    exact .refl _
  | some eb =>
    simp only [heb] at hs
    obtain ⟨star, hstar, heq⟩ := Option.map_eq_some_iff.1 hs
    obtain ⟨rfl, -⟩ := Prod.mk.inj heq
    simp only [hstar, payEpoch]
    split
    · exact rewrites_payout ..
    · exact .refl _

/-- A loop that writes nothing counts nothing. -/
theorem cnt_eq_of_writesOf_eq_nil {c : ExecCtx} {i : ℕ} {txs : List Transaction} {s : ExecState}
    (h : writesOf c i txs s = []) : (execTxs c i txs s).cnt = s.cnt := by
  induction txs generalizing i s with
  | nil => rfl
  | cons tx rest ih =>
    obtain ⟨hwrites, hrest⟩ := List.append_eq_nil_iff.1 h
    have hdebits : debits c s.st tx = false := by
      by_contra hd
      simp only [debits, Bool.not_eq_false, Bool.and_eq_true] at hd
      simp [writes, hd.1] at hwrites
    have hcredits : credits c s.st tx = false := by
      by_contra hc
      simp [writes, hc] at hwrites
    rw [execTxs, ih hrest, (execTx_turn c i tx s).cnt, hdebits, hcredits]
    rfl

theorem writesOf_agree {c c' : ExecCtx} {txs : List Transaction} (h : c.AgreeOn c' txs) (i : ℕ)
    (st : Accounts) (bk bk' : G2EBook) (n : ℕ) :
    writesOf c i txs ⟨st, bk, n⟩ = writesOf c' i txs ⟨st, bk', n⟩ := by
  induction txs generalizing i st bk bk' n with
  | nil => rfl
  | cons tx rest ih =>
    have hrest : c.AgreeOn c' rest :=
      ⟨h.curH, h.beta, fun t ht => h.sender t (List.mem_cons_of_mem _ ht),
        fun t ht => h.recipient t (List.mem_cons_of_mem _ ht)⟩
    have htake : takesSender c tx = takesSender c' tx := by
      rw [takesSender, takesSender, h.sender tx (List.mem_cons_self ..)]
    have htx : writes c st tx = writes c' st tx := by
      rw [writes, writes, htake, credits_agree h (List.mem_cons_self ..)]
    obtain ⟨hst, hcnt⟩ := execTx_agree h (List.mem_cons_self ..) i st bk bk' n
    have hnext : execTx c' i tx ⟨st, bk', n⟩ =
        ⟨(execTx c i tx ⟨st, bk, n⟩).st, (execTx c' i tx ⟨st, bk', n⟩).book,
          (execTx c i tx ⟨st, bk, n⟩).cnt⟩ := by
      rw [hst, hcnt]
    rw [writesOf, writesOf, htx, hnext]
    exact congrArg _ (ih hrest _ _ _ _ _)

/-! ## The object -/

/-- `chain.BlockChain` in a process. -/
structure ProcessChain (H : Type) [DecidableEq H] where
  /-- The ids its process gives out. -/
  gob : GobTypes
  /-- The state tries committed to disk. -/
  tries : List StateTrie
  chainConfig : ChainConfig
  currentBlock : Block H
  storage : Storage H
  txpool : TxPool
  partitionMap : Finmap fun _ : Address => ℕ
  g2eBook : G2EBook

namespace ProcessChain

variable {H : Type} [DecidableEq H] [GobHashing H]

/-- The chain with the accounts decoded. -/
def toBlockChain (pc : ProcessChain H) : BlockChain H where
  triedb := ⟨pc.tries.map StateTrie.decode⟩
  chainConfig := pc.chainConfig
  currentBlock := pc.currentBlock
  storage := pc.storage
  txpool := pc.txpool
  partitionMap := pc.partitionMap
  g2eBook := pc.g2eBook

def height (pc : ProcessChain H) : ℕ := pc.currentBlock.header.number

def stateRoot (pc : ProcessChain H) : H := pc.currentBlock.header.stateRoot

/-- `trie.New` over the committed tries. -/
def trieNew (tries : List StateTrie) (root : H) : Option StateTrie :=
  if root = Hashing.zero ∨ root = GobHashing.trieRoot ∅ then some ∅
  else tries.find? fun t => GobHashing.trieRoot t = root

/-- The accounts under the current root, if it can be opened. -/
def accounts (pc : ProcessChain H) : Option Accounts :=
  (trieNew pc.tries pc.stateRoot).map StateTrie.decode

/-- What `GetUpdateStatusTrie` has made of the accounts of `t` and of the book when it commits. -/
def execute (pc : ProcessChain H) (txs : List Transaction) (t : StateTrie) :
    Option (StateTrie × G2EBook) :=
  let s := pc.toBlockChain.execLoop txs t.decode
  (settle (pc.height + 1) s.st s.book).map fun r =>
    (t.recode pc.gob.accountState
      (writesOf pc.toBlockChain.ctx 0 txs ⟨t.decode, pc.g2eBook, 0⟩ ++ paid (pc.height + 1) s.book) r.1,
      r.2)

/-- `GetUpdateStatusTrie`. -/
def getUpdateStatusTrie (pc : ProcessChain H) (txs : List Transaction) :
    Option (ProcessChain H × H) :=
  if txs.length = 0 then some (pc, pc.stateRoot)
  else
    match trieNew pc.tries pc.stateRoot with
    | none => none
    | some t =>
      let s := pc.toBlockChain.execLoop txs t.decode
      if s.cnt = 0 then some ({ pc with g2eBook := s.book }, pc.stateRoot)
      else
        (pc.execute txs t).map fun r =>
          ({ pc with tries := r.1 :: pc.tries, g2eBook := r.2 }, GobHashing.trieRoot r.1)

/-- A block with the hash it gets in this process. -/
def hashed (pc : ProcessChain H) (b : Block H) : Block H :=
  { b with hash := GobHashing.hashHeader pc.gob.blockHeader b.header }

/-- `GenerateBlock`. -/
def generateBlock (pc : ProcessChain H) (miner : ℤ) (now : ℕ) : Option (ProcessChain H × Block H) :=
  let packed := pc.toBlockChain.packForBlock
  let rest : ProcessChain H := { pc with txpool := packed.2 }
  (rest.getUpdateStatusTrie packed.1).map fun r =>
    (r.1, pc.hashed (pc.toBlockChain.sealBlock packed.1 miner now r.2))

/-- Make `b` the current block and store it. -/
def append (pc : ProcessChain H) (b : Block H) : ProcessChain H :=
  { pc with currentBlock := b, storage := pc.storage.addBlock b }

/-- `AddBlock`. -/
def addBlock (pc : ProcessChain H) (b : Block H) : Option (ProcessChain H) :=
  if b.header.number ≠ pc.height + 1 then some pc
  else if b.header.parentBlockHash ≠ pc.currentBlock.hash then some pc
  else
    match trieNew pc.tries b.header.stateRoot with
    | some _ => some (pc.append b)
    | none => (pc.getUpdateStatusTrie b.body).map fun r => r.1.append b

/-- `AddAccounts`, which writes the accounts that live here. -/
def addAccounts (pc : ProcessChain H) (ac : List Address) (as : List AccountState) :
    Option (ProcessChain H) :=
  let bc := pc.toBlockChain
  if ac.length = 0 then some (pc.append (pc.hashed (bc.accountsBlock pc.stateRoot)))
  else
    match trieNew pc.tries pc.stateRoot with
    | none => none
    | some t =>
      (bc.addAccountsLoop as 0 ac t.decode).map fun st =>
        let t' := t.recode pc.gob.accountState
          (ac.filter fun a => bc.getPartitionMap a = bc.chainConfig.shardID) st
        if t' = t then pc.append (pc.hashed (bc.accountsBlock pc.stateRoot))
        else
          { pc with tries := t' :: pc.tries }.append
            (pc.hashed (bc.accountsBlock (GobHashing.trieRoot t')))

/-- `NewGenisisBlock`. -/
def newGenisisBlock (g : GobTypes) : Block H :=
  let gb : Block H := BlockChain.newGenisisBlock
  { gb with hash := GobHashing.hashHeader g.blockHeader gb.header }

/-- `NewBlockChain` in a process with these ids. -/
def newBlockChain (g : GobTypes) (cc : ChainConfig) (storage : Storage H) (tries : List StateTrie) :
    Option (ProcessChain H) :=
  match storage.newestBlockHash with
  | none =>
    let gb : Block H := newGenisisBlock g
    some
      { gob := g, tries := tries, chainConfig := cc, currentBlock := gb, storage := storage.addBlock gb
        txpool := {}, partitionMap := ∅, g2eBook := ∅ }
  | some curHash =>
    match storage.getBlock curHash with
    | none => none
    | some curb =>
      match trieNew tries curb.header.stateRoot with
      | none => none
      | some _ =>
        some
          { gob := g, tries := tries, chainConfig := cc, currentBlock := curb, storage := storage
            txpool := {}, partitionMap := ∅, g2eBook := ∅ }

/-- The chain after one call; `none` is a panic. -/
def step (pc : ProcessChain H) : ChainOp H → Option (ProcessChain H)
  | .addTxs2Pool txs => some { pc with txpool := pc.txpool.addTxs2Pool txs }
  | .generateBlock miner now => (pc.generateBlock miner now).map Prod.fst
  | .addBlock b => pc.addBlock b
  | .addAccounts ac as => pc.addAccounts ac as
  | .updatePartitionMap key val =>
    some { pc with partitionMap := Finmap.insert key val pc.partitionMap }

/-! ## What one call does -/

/-- No transaction of the list has an effect on the current state. -/
def Quiet (pc : ProcessChain H) (txs : List Transaction) : Prop :=
  txs = [] ∨ ∃ t, trieNew pc.tries pc.stateRoot = some t ∧
    ∀ tx ∈ txs, idle pc.toBlockChain.ctx t.decode tx = true

theorem getUpdateStatusTrie_of_quiet {pc : ProcessChain H} {txs : List Transaction}
    (h : pc.Quiet txs) : pc.getUpdateStatusTrie txs = some (pc, pc.stateRoot) := by
  unfold getUpdateStatusTrie
  rcases h with rfl | ⟨t, ht, hidle⟩
  · rfl
  · split
    · rfl
    · have hcnt := (pc.toBlockChain.execLoop_cnt_eq_zero_iff txs t.decode).2 hidle
      have hbook : (pc.toBlockChain.execLoop txs t.decode).book = pc.g2eBook := by
        rw [BlockChain.execLoop_book, BlockChain.newBets, acceptedBets,
          atTurn_accepts_of_idle (s := ⟨t.decode, pc.toBlockChain.g2eBook, 0⟩) hidle]
        rfl
      simp only [ht, hcnt, hbook, ↓reduceIte]

theorem getUpdateStatusTrie_of_not_quiet {pc : ProcessChain H} {txs : List Transaction}
    {t : StateTrie} (ht : trieNew pc.tries pc.stateRoot = some t) (h : ¬ pc.Quiet txs) :
    pc.getUpdateStatusTrie txs = (pc.execute txs t).map fun r =>
      ({ pc with tries := r.1 :: pc.tries, g2eBook := r.2 }, GobHashing.trieRoot r.1) := by
  rw [Quiet, not_or] at h
  have hlen : txs.length ≠ 0 := fun h0 => h.1 (List.eq_nil_of_length_eq_zero h0)
  have hcnt : (pc.toBlockChain.execLoop txs t.decode).cnt ≠ 0 := fun h0 =>
    h.2 ⟨t, ht, (pc.toBlockChain.execLoop_cnt_eq_zero_iff txs t.decode).1 h0⟩
  unfold getUpdateStatusTrie
  simp only [if_neg hlen, ht, if_neg hcnt]

theorem getUpdateStatusTrie_of_no_root {pc : ProcessChain H} {txs : List Transaction}
    (ht : trieNew pc.tries pc.stateRoot = none) (h : txs ≠ []) :
    pc.getUpdateStatusTrie txs = none := by
  unfold getUpdateStatusTrie
  rw [if_neg (fun h0 => h (List.eq_nil_of_length_eq_zero h0)), ht]

/-- **One execution.** Either the block is quiet and nothing changes, or the trie it makes of the current
    one is committed. -/
theorem getUpdateStatusTrie_cases {pc pc' : ProcessChain H} {txs : List Transaction} {rt : H}
    (h : pc.getUpdateStatusTrie txs = some (pc', rt)) :
    (pc.Quiet txs ∧ pc' = pc ∧ rt = pc.stateRoot) ∨
    (¬ pc.Quiet txs ∧ ∃ t t' bk', trieNew pc.tries pc.stateRoot = some t ∧
      pc.execute txs t = some (t', bk') ∧
      pc' = { pc with tries := t' :: pc.tries, g2eBook := bk' } ∧ rt = GobHashing.trieRoot t') := by
  by_cases hq : pc.Quiet txs
  · rw [getUpdateStatusTrie_of_quiet hq, Option.some.injEq, Prod.mk.injEq] at h
    exact Or.inl ⟨hq, h.1.symm, h.2.symm⟩
  · refine Or.inr ⟨hq, ?_⟩
    cases ht : trieNew pc.tries pc.stateRoot with
    | none =>
      rw [getUpdateStatusTrie_of_no_root ht fun h0 => hq (Or.inl h0)] at h
      exact absurd h (by simp)
    | some t =>
      rw [getUpdateStatusTrie_of_not_quiet ht hq] at h
      obtain ⟨⟨t', bk'⟩, hexec, heq⟩ := Option.map_eq_some_iff.1 h
      obtain ⟨rfl, rfl⟩ := Prod.mk.inj heq
      exact ⟨t, t', bk', rfl, hexec, rfl, rfl⟩

/-- Executing leaves ids, current block and storage alone. -/
theorem getUpdateStatusTrie_frame {pc pc' : ProcessChain H} {txs : List Transaction} {rt : H}
    (h : pc.getUpdateStatusTrie txs = some (pc', rt)) :
    pc'.gob = pc.gob ∧ pc'.currentBlock = pc.currentBlock ∧ pc'.storage = pc.storage := by
  rcases getUpdateStatusTrie_cases h with ⟨-, rfl, -⟩ | ⟨-, t, t', bk', -, -, rfl, -⟩
  · exact ⟨rfl, rfl, rfl⟩
  · exact ⟨rfl, rfl, rfl⟩

/-- The block passes the two checks of `AddBlock`. -/
def Extends (pc : ProcessChain H) (b : Block H) : Prop :=
  b.header.number = pc.height + 1 ∧ b.header.parentBlockHash = pc.currentBlock.hash

theorem addBlock_of_not_extends {pc : ProcessChain H} {b : Block H} (h : ¬ pc.Extends b) :
    pc.addBlock b = some pc := by
  unfold addBlock
  by_cases hnum : b.header.number = pc.height + 1
  · rw [if_neg (not_not.2 hnum), if_pos fun hpar => h ⟨hnum, hpar⟩]
  · rw [if_pos hnum]

theorem addBlock_of_known {pc : ProcessChain H} {b : Block H} (h : pc.Extends b)
    (hroot : trieNew pc.tries b.header.stateRoot ≠ none) : pc.addBlock b = some (pc.append b) := by
  obtain ⟨t, ht⟩ := Option.ne_none_iff_exists'.1 hroot
  unfold addBlock
  rw [if_neg (not_not.2 h.1), if_neg (not_not.2 h.2), ht]

theorem addBlock_of_unknown {pc : ProcessChain H} {b : Block H} (h : pc.Extends b)
    (hroot : trieNew pc.tries b.header.stateRoot = none) :
    pc.addBlock b = (pc.getUpdateStatusTrie b.body).map fun r => r.1.append b := by
  unfold addBlock
  rw [if_neg (not_not.2 h.1), if_neg (not_not.2 h.2), hroot]

/-- **One `AddAccounts`.** A block is appended, and a trie may have been committed. -/
theorem addAccounts_cases {pc pc' : ProcessChain H} {ac : List Address} {as : List AccountState}
    (h : pc.addAccounts ac as = some pc') :
    ∃ tries b, pc' = { pc with tries := tries }.append b := by
  unfold addAccounts at h
  dsimp only at h
  split at h
  · exact ⟨pc.tries, _, (Option.some.inj h).symm⟩
  split at h
  · exact absurd h (by simp)
  obtain ⟨st, -, rfl⟩ := Option.map_eq_some_iff.1 h
  split
  · exact ⟨pc.tries, _, rfl⟩
  · exact ⟨_, _, rfl⟩

/-- **One call.** The current block and the storage stay as they are, or a block is appended. -/
theorem step_cases {pc pc' : ProcessChain H} {op : ChainOp H} (h : pc.step op = some pc') :
    (pc'.gob = pc.gob ∧ pc'.currentBlock = pc.currentBlock ∧ pc'.storage = pc.storage) ∨
      ∃ (pc₁ : ProcessChain H) (b : Block H), pc₁.gob = pc.gob ∧ pc' = pc₁.append b := by
  cases op with
  | addTxs2Pool txs =>
    obtain rfl := Option.some.inj h
    exact Or.inl ⟨rfl, rfl, rfl⟩
  | updatePartitionMap key val =>
    obtain rfl := Option.some.inj h
    exact Or.inl ⟨rfl, rfl, rfl⟩
  | generateBlock miner now =>
    obtain ⟨⟨pc₁, b⟩, hgen, rfl⟩ := Option.map_eq_some_iff.1 h
    obtain ⟨⟨pc₂, rt⟩, hrun, heq⟩ := Option.map_eq_some_iff.1 hgen
    obtain ⟨rfl, -⟩ := Prod.mk.inj heq
    have hkeep := getUpdateStatusTrie_frame hrun
    exact Or.inl hkeep
  | addBlock b =>
    by_cases hext : pc.Extends b
    · cases hroot : trieNew pc.tries b.header.stateRoot with
      | some t =>
        rw [step, addBlock_of_known hext (by simp [hroot])] at h
        obtain rfl := Option.some.inj h
        exact Or.inr ⟨pc, b, rfl, rfl⟩
      | none =>
        rw [step, addBlock_of_unknown hext hroot] at h
        obtain ⟨⟨pc₁, rt⟩, hrun, rfl⟩ := Option.map_eq_some_iff.1 h
        exact Or.inr ⟨pc₁, b, (getUpdateStatusTrie_frame hrun).1, rfl⟩
    · rw [step, addBlock_of_not_extends hext] at h
      obtain rfl := Option.some.inj h
      exact Or.inl ⟨rfl, rfl, rfl⟩
  | addAccounts ac as =>
    obtain ⟨tries, b, rfl⟩ := addAccounts_cases h
    exact Or.inr ⟨{ pc with tries := tries }, b, rfl, rfl⟩

/-! ## Processes that were started without a store -/

/-- All that has been encoded, has been encoded with the ids of such a process. -/
structure Fresh (pc : ProcessChain H) : Prop where
  gob : pc.gob = GobHashing.fresh H
  tries : ∀ t ∈ pc.tries, t = StateTrie.encode (GobHashing.fresh H).accountState t.decode

namespace Fresh

variable {pc : ProcessChain H}

theorem trieRoot_eq (h : pc.Fresh) {t : StateTrie} (ht : t ∈ pc.tries) :
    GobHashing.trieRoot t = (Hashing.stateRoot t.decode : H) := by
  rw [GobHashing.stateRoot_eq, ← h.tries t ht]

omit [DecidableEq H] in
theorem trieRoot_empty : GobHashing.trieRoot ∅ = (Hashing.stateRoot ∅ : H) := by
  rw [GobHashing.stateRoot_eq]
  rfl

/-- The same roots can be opened, and show the same accounts. -/
theorem trieNew_eq (h : pc.Fresh) (root : H) :
    pc.toBlockChain.triedb.trieNew root = (trieNew pc.tries root).map StateTrie.decode := by
  unfold TrieDB.trieNew trieNew
  rw [trieRoot_empty]
  split
  · rfl
  · show (pc.tries.map StateTrie.decode).find? _ = _
    have hroots : ∀ t ∈ pc.tries, GobHashing.trieRoot t = (Hashing.stateRoot t.decode : H) :=
      fun t ht => h.trieRoot_eq ht
    generalize pc.tries = ts at hroots ⊢
    induction ts with
    | nil => rfl
    | cons t ts ih =>
      rw [List.forall_mem_cons] at hroots
      rw [List.map_cons, List.find?_cons, List.find?_cons, hroots.1]
      split
      · rfl
      · exact ih hroots.2

theorem trie_of_trieNew (h : pc.Fresh) {root : H} {t : StateTrie}
    (ht : trieNew pc.tries root = some t) :
    t = StateTrie.encode (GobHashing.fresh H).accountState t.decode := by
  unfold trieNew at ht
  split at ht
  · obtain rfl := Option.some.inj ht
    rfl
  · exact h.tries t (List.mem_of_find?_eq_some ht)

theorem accounts_eq (h : pc.Fresh) : pc.toBlockChain.accounts = pc.accounts :=
  h.trieNew_eq pc.stateRoot

/-- What such a process makes of a trie of its kind is of its kind. -/
theorem recode_eq (h : pc.Fresh) {root : H} {t : StateTrie} (ht : trieNew pc.tries root = some t)
    (written : List Address) (st : Accounts) :
    t.recode pc.gob.accountState written st =
      StateTrie.encode (GobHashing.fresh H).accountState st := by
  rw [h.trie_of_trieNew ht, h.gob, StateTrie.recode_encode]

theorem commit (h : pc.Fresh) (st : Accounts) :
    ∀ t ∈ StateTrie.encode (GobHashing.fresh H).accountState st :: pc.tries,
      t = StateTrie.encode (GobHashing.fresh H).accountState t.decode := by
  rw [List.forall_mem_cons, StateTrie.decode_encode]
  exact ⟨rfl, h.tries⟩

theorem hashed_eq (h : pc.Fresh) {b : Block H} (hb : b.hash = Hashing.headerHash b.header) :
    pc.hashed b = b := by
  unfold hashed
  rw [h.gob, ← GobHashing.headerHash_eq, ← hb]

theorem quiet_iff (h : pc.Fresh) (txs : List Transaction) :
    pc.toBlockChain.Quiet txs ↔ pc.Quiet txs := by
  refine or_congr_right ?_
  rw [BlockChain.accounts, h.trieNew_eq]
  simp only [Option.map_eq_some_iff]
  constructor
  · rintro ⟨_, ⟨t, ht, rfl⟩, hidle⟩
    exact ⟨t, ht, hidle⟩
  · rintro ⟨t, ht, hidle⟩
    exact ⟨_, ⟨t, ht, rfl⟩, hidle⟩

/-- `GetUpdateStatusTrie` does to the accounts what that of `BlockChain` does. -/
theorem getUpdateStatusTrie (h : pc.Fresh) (txs : List Transaction) :
    pc.toBlockChain.getUpdateStatusTrie txs =
        (pc.getUpdateStatusTrie txs).map (fun r => (r.1.toBlockChain, r.2)) ∧
      ∀ r, pc.getUpdateStatusTrie txs = some r → r.1.Fresh := by
  by_cases hq : pc.Quiet txs
  · rw [getUpdateStatusTrie_of_quiet hq,
      BlockChain.getUpdateStatusTrie_of_quiet ((h.quiet_iff txs).2 hq)]
    exact ⟨rfl, fun r hr => by obtain rfl := Option.some.inj hr; exact h⟩
  cases ht : trieNew pc.tries pc.stateRoot with
  | none =>
    have hne : txs ≠ [] := fun h0 => hq (Or.inl h0)
    have hnone : pc.toBlockChain.accounts = none := by
      rw [h.accounts_eq, ProcessChain.accounts, ht, Option.map_none]
    rw [getUpdateStatusTrie_of_no_root ht hne,
      BlockChain.getUpdateStatusTrie_of_no_root hnone hne]
    exact ⟨rfl, fun r hr => absurd hr (by simp)⟩
  | some t =>
    have hst : pc.toBlockChain.accounts = some t.decode := by
      rw [h.accounts_eq, ProcessChain.accounts, ht, Option.map_some]
    rw [getUpdateStatusTrie_of_not_quiet ht hq,
      BlockChain.getUpdateStatusTrie_of_not_quiet hst (mt (h.quiet_iff txs).1 hq), execute]
    simp only [h.recode_eq ht, Option.map_map]
    refine ⟨congrArg (fun f => Option.map f _) (funext fun r => ?_), fun r hr => ?_⟩
    · simp only [Function.comp_apply, GobHashing.stateRoot_eq, toBlockChain, TrieDB.commit,
        List.map_cons, StateTrie.decode_encode]
    · obtain ⟨r', -, rfl⟩ := Option.map_eq_some_iff.1 hr
      exact ⟨h.gob, h.commit r'.1⟩

theorem generateBlock (h : pc.Fresh) (miner : ℤ) (now : ℕ) :
    pc.toBlockChain.generateBlock miner now =
        (pc.generateBlock miner now).map (fun r => (r.1.toBlockChain, r.2)) ∧
      ∀ r, pc.generateBlock miner now = some r → r.1.Fresh := by
  unfold BlockChain.generateBlock BlockChain.generateBlockOf ProcessChain.generateBlock
  generalize pc.toBlockChain.packForBlock = packed
  have hpool : ({ pc with txpool := packed.2 } : ProcessChain H).Fresh := ⟨h.gob, h.tries⟩
  obtain ⟨heq, hfresh⟩ := hpool.getUpdateStatusTrie packed.1
  refine ⟨?_, fun r hr => ?_⟩
  · refine (congrArg (Option.map _) heq).trans ?_
    rw [Option.map_map, Option.map_map]
    refine congrArg (fun f => Option.map f _) (funext fun r => ?_)
    simp only [Function.comp_apply]
    rw [h.hashed_eq rfl]
    rfl
  · obtain ⟨r', hr', rfl⟩ := Option.map_eq_some_iff.1 hr
    exact hfresh r' hr'

theorem addBlock (h : pc.Fresh) (b : Block H) :
    pc.toBlockChain.addBlock b = (pc.addBlock b).map toBlockChain ∧
      ∀ pc', pc.addBlock b = some pc' → pc'.Fresh := by
  by_cases hext : pc.Extends b
  · have hext' : pc.toBlockChain.Extends b := hext
    cases hroot : trieNew pc.tries b.header.stateRoot with
    | some t =>
      have hroot' : pc.toBlockChain.triedb.trieNew b.header.stateRoot = some t.decode := by
        rw [h.trieNew_eq, hroot, Option.map_some]
      rw [addBlock_of_known hext (by simp [hroot]), BlockChain.addBlock_of_known hext' hroot']
      exact ⟨rfl, fun pc' hpc => by obtain rfl := Option.some.inj hpc; exact ⟨h.gob, h.tries⟩⟩
    | none =>
      have hroot' : pc.toBlockChain.triedb.trieNew b.header.stateRoot = none := by
        rw [h.trieNew_eq, hroot, Option.map_none]
      obtain ⟨heq, hfresh⟩ := h.getUpdateStatusTrie b.body
      rw [addBlock_of_unknown hext hroot, BlockChain.addBlock_of_unknown hext' hroot', heq,
        Option.map_map, Option.map_map]
      refine ⟨rfl, fun pc' hpc => ?_⟩
      obtain ⟨r, hr, rfl⟩ := Option.map_eq_some_iff.1 hpc
      exact ⟨(hfresh r hr).gob, (hfresh r hr).tries⟩
  · have hext' : ¬ pc.toBlockChain.Extends b := hext
    rw [addBlock_of_not_extends hext, BlockChain.addBlock_of_not_extends hext']
    exact ⟨rfl, fun pc' hpc => by obtain rfl := Option.some.inj hpc; exact h⟩

theorem addAccounts (h : pc.Fresh) (ac : List Address) (as : List AccountState) :
    pc.toBlockChain.addAccounts ac as = (pc.addAccounts ac as).map toBlockChain ∧
      ∀ pc', pc.addAccounts ac as = some pc' → pc'.Fresh := by
  have hblock : ∀ root, pc.hashed (pc.toBlockChain.accountsBlock root) =
      pc.toBlockChain.accountsBlock root := fun root => h.hashed_eq rfl
  have hroot := h.trieNew_eq pc.stateRoot
  unfold BlockChain.addAccounts ProcessChain.addAccounts
  simp only [hblock]
  split
  · exact ⟨rfl, fun pc' hpc => by obtain rfl := Option.some.inj hpc; exact ⟨h.gob, h.tries⟩⟩
  rw [show pc.toBlockChain.triedb.trieNew pc.toBlockChain.stateRoot = _ from hroot]
  cases ht : trieNew pc.tries pc.stateRoot with
  | none => exact ⟨rfl, fun pc' hpc => absurd hpc (by simp)⟩
  | some t =>
    have hsame : ∀ st written, t.recode pc.gob.accountState written st = t ↔ st = t.decode := by
      intro st written
      rw [h.recode_eq ht, h.trie_of_trieNew ht, StateTrie.decode_encode]
      exact ⟨fun heq => by simpa using congrArg StateTrie.decode heq, congrArg _⟩
    simp only [Option.map_some, Option.map_map, hsame]
    refine ⟨congrArg (fun f => Option.map f _) (funext fun st => ?_), fun pc' hpc => ?_⟩
    · simp only [Function.comp_apply]
      split
      · rfl
      · simp only [h.recode_eq ht, ← GobHashing.stateRoot_eq, toBlockChain, ProcessChain.append,
          BlockChain.append, TrieDB.commit, List.map_cons, StateTrie.decode_encode]
    · obtain ⟨st, -, rfl⟩ := Option.map_eq_some_iff.1 hpc
      split
      · exact ⟨h.gob, h.tries⟩
      · rw [h.recode_eq ht]
        exact ⟨h.gob, h.commit st⟩

end Fresh

/-- **One call, decoded.** In a process that was started without a store each call does to the accounts
    what it does in `BlockChain`, panics alike, and leaves the process as it is. -/
theorem step_toBlockChain {pc : ProcessChain H} (h : pc.Fresh) (op : ChainOp H) :
    pc.toBlockChain.step op = (pc.step op).map toBlockChain ∧
      ∀ pc', pc.step op = some pc' → pc'.Fresh := by
  cases op with
  | addTxs2Pool txs =>
    exact ⟨rfl, fun pc' hpc => by obtain rfl := Option.some.inj hpc; exact ⟨h.gob, h.tries⟩⟩
  | updatePartitionMap key val =>
    exact ⟨rfl, fun pc' hpc => by obtain rfl := Option.some.inj hpc; exact ⟨h.gob, h.tries⟩⟩
  | generateBlock miner now =>
    obtain ⟨heq, hfresh⟩ := h.generateBlock miner now
    refine ⟨?_, fun pc' hpc => ?_⟩
    · rw [BlockChain.step, heq, step, Option.map_map, Option.map_map]
      rfl
    · obtain ⟨r, hr, rfl⟩ := Option.map_eq_some_iff.1 hpc
      exact hfresh r hr
  | addBlock b => exact h.addBlock b
  | addAccounts ac as => exact h.addAccounts ac as

/-- A chain that is opened without a store is fresh if its process is. -/
theorem newBlockChain_fresh (cc : ChainConfig) :
    ∃ pc, newBlockChain (GobHashing.fresh H) cc (Storage.empty : Storage H) [] = some pc ∧ pc.Fresh ∧
      BlockChain.newBlockChain cc (Storage.empty : Storage H) TrieDB.empty =
        some pc.toBlockChain := by
  refine ⟨_, rfl, ⟨rfl, fun t ht => absurd ht (by simp)⟩, ?_⟩
  have hgb : (newGenisisBlock (GobHashing.fresh H) : Block H) = BlockChain.newGenisisBlock := by
    unfold newGenisisBlock
    dsimp only
    rw [← GobHashing.headerHash_eq]
    rfl
  simp only [toBlockChain, hgb]
  rfl

/-- **Runs, decoded.** What a process that was started without a store goes through is a run of
    `BlockChain`. -/
theorem reaches_toBlockChain {pc₀ pc : ProcessChain H} (h : pc₀.Fresh) (hrun : Reaches step pc₀ pc) :
    Reaches BlockChain.step pc₀.toBlockChain pc.toBlockChain ∧ pc.Fresh := by
  have hinit : Reaches BlockChain.step pc₀.toBlockChain pc₀.toBlockChain := ReachesUnder.refl
  refine ReachesUnder.invariant hrun (I := fun pc =>
    Reaches BlockChain.step pc₀.toBlockChain pc.toBlockChain ∧ pc.Fresh) ⟨hinit, h⟩ ?_
  rintro pc₁ op pc₂ ⟨hreach, hfresh⟩ - hstep
  obtain ⟨heq, hnext⟩ := step_toBlockChain hfresh op
  rw [hstep, Option.map_some] at heq
  exact ⟨hreach.tail trivial heq, hnext pc₂ hstep⟩

end ProcessChain

end BlockEmulator
