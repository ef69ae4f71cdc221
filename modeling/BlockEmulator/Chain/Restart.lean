import BlockEmulator.Chain.Process

set_option autoImplicit false

/-! # Closing a chain and opening it again

`NewBlockChain` finds the newest block and the state tries on disk. Three things that executing a block
depends on are not there: the betting book, the partition map, and the type ids of the process, which has
ended with it. A block whose root is on disk already is not executed, and adding it reads none of them.
For any other block, two chains with the same files that agree on these three things, as far as the block
reads them, do the same (`Agree.addBlock`); so a restart goes unnoticed if nothing of what it loses is
read (`restart_transparent`).

The ids matter in earnest. A process that gives `AccountState` another number comes to another root with
the first block it has to execute, and can then not open the state under the root in the header
(`restart_unreadable`). -/

namespace BlockEmulator

namespace ProcessChain

variable {H : Type} [DecidableEq H] [GobHashing H]

/-- `NewBlockChain` over the files of a closed chain, in a process with these ids. -/
def reopen (g : GobTypes) (pc : ProcessChain H) : Option (ProcessChain H) :=
  newBlockChain g pc.chainConfig pc.storage pc.tries

/-- Add blocks one after the other. -/
def addBlocks (pc : ProcessChain H) : List (Block H) → Option (ProcessChain H)
  | [] => some pc
  | b :: bs => (pc.addBlock b).bind fun pc' => pc'.addBlocks bs

/-! ## The newest block is on disk -/

/-- The storage knows the current block, under the newest hash. -/
structure Stored (pc : ProcessChain H) : Prop where
  newest : pc.storage.newestBlockHash = some pc.currentBlock.hash
  block : pc.storage.getBlock pc.currentBlock.hash = some pc.currentBlock

omit [GobHashing H] in
theorem stored_append (pc : ProcessChain H) (b : Block H) : (pc.append b).Stored :=
  ⟨rfl, Storage.getBlock_addBlock_self _ _⟩

theorem stored_newBlockChain {g : GobTypes} {cc : ChainConfig} {storage : Storage H}
    {tries : List StateTrie} {pc : ProcessChain H}
    (h : newBlockChain g cc storage tries = some pc) : pc.Stored := by
  unfold newBlockChain at h
  split at h
  · obtain rfl := Option.some.inj h
    exact ⟨rfl, Storage.getBlock_addBlock_self _ _⟩
  next curHash hnew =>
  split at h
  · exact absurd h (by simp)
  next curb hcurb =>
  split at h
  · exact absurd h (by simp)
  · obtain rfl := Option.some.inj h
    have hkey : curb.hash = curHash := storage.keyed curHash curb hcurb
    exact ⟨by rw [hnew, hkey], by rw [hkey]; exact hcurb⟩

theorem stored_of_run {g : GobTypes} {cc : ChainConfig} {storage : Storage H}
    {tries : List StateTrie} {pc₀ pc : ProcessChain H}
    (hopen : newBlockChain g cc storage tries = some pc₀) (hrun : Reaches step pc₀ pc) :
    pc.Stored := by
  refine ReachesUnder.invariant hrun (stored_newBlockChain hopen) fun pc₁ op pc₂ hinv _ hstep => ?_
  rcases step_cases hstep with ⟨-, hblock, hstorage⟩ | ⟨pc₃, b, -, rfl⟩
  · exact ⟨by rw [hstorage, hblock, hinv.newest], by rw [hstorage, hblock, hinv.block]⟩
  · exact stored_append _ _

/-- What a restart gives back: the files, and nothing of what was in memory. -/
theorem Stored.reopen_eq {pc : ProcessChain H} (h : pc.Stored) (hroot : pc.accounts ≠ none)
    (g : GobTypes) :
    pc.reopen g = some { pc with gob := g, txpool := {}, partitionMap := ∅, g2eBook := ∅ } := by
  have hresolves : trieNew pc.tries pc.stateRoot ≠ none := fun hnone =>
    hroot (by rw [accounts, hnone, Option.map_none])
  obtain ⟨t, ht⟩ := Option.ne_none_iff_exists'.1 hresolves
  unfold reopen newBlockChain
  rw [h.newest]
  simp only [h.block]
  rw [show trieNew pc.tries pc.currentBlock.header.stateRoot = some t from ht]

/-! ## Chains that agree on what a list of blocks reads -/

/-- Both chains execute the block alike: their processes encode alike, the same bets are due at its
    height, and its accounts live in the same shards. -/
structure ReadsAlike (b : Block H) (pc pc' : ProcessChain H) : Prop where
  ids : pc.gob.accountState = pc'.gob.accountState
  due : pc.g2eBook.getEpoch b.header.number = pc'.g2eBook.getEpoch b.header.number
  sender : ∀ tx ∈ b.body, pc.toBlockChain.getPartitionMap tx.sender =
    pc'.toBlockChain.getPartitionMap tx.sender
  recipient : ∀ tx ∈ b.body, pc.toBlockChain.getPartitionMap tx.recipient =
    pc'.toBlockChain.getPartitionMap tx.recipient

/-- Both chains have the same files, and execute alike those blocks of `bs` whose root is not there. -/
structure Agree (bs : List (Block H)) (pc pc' : ProcessChain H) : Prop where
  config : pc.chainConfig = pc'.chainConfig
  block : pc.currentBlock = pc'.currentBlock
  tries : pc.tries = pc'.tries
  reads : ∀ b ∈ bs, trieNew pc.tries b.header.stateRoot = none → ReadsAlike b pc pc'

/-- Committing loses no root. -/
theorem trieNew_of_trieNew_cons {t : StateTrie} {tries : List StateTrie} {root : H}
    (h : trieNew (t :: tries) root = none) : trieNew tries root = none := by
  unfold trieNew at h ⊢
  split at h
  · exact absurd h (by simp)
  · next hroot =>
      rw [if_neg hroot]
      rw [List.find?_cons] at h
      split at h
      · exact absurd h (by simp)
      · exact h

namespace Agree

variable {bs : List (Block H)} {pc pc' : ProcessChain H} {b : Block H}

theorem height_eq (h : Agree bs pc pc') : pc.height = pc'.height := by
  rw [height, height, h.block]

theorem stateRoot_eq (h : Agree bs pc pc') : pc.stateRoot = pc'.stateRoot := by
  rw [stateRoot, stateRoot, h.block]

theorem accounts_eq (h : Agree bs pc pc') : pc.accounts = pc'.accounts := by
  rw [accounts, accounts, h.stateRoot_eq, h.tries]

theorem ctx (h : Agree bs pc pc') (hreads : ReadsAlike b pc pc') :
    pc.toBlockChain.ctx.AgreeOn pc'.toBlockChain.ctx b.body where
  curH := h.height_eq
  beta := congrArg ChainConfig.g2eBeta h.config
  sender := fun tx htx => by
    simp only [BlockChain.ctx, hreads.sender tx htx]
    simp only [toBlockChain, h.config]
  recipient := fun tx htx => by
    simp only [BlockChain.ctx, hreads.recipient tx htx]
    simp only [toBlockChain, h.config]

theorem quiet_iff (h : Agree bs pc pc') (hreads : ReadsAlike b pc pc') :
    pc.Quiet b.body ↔ pc'.Quiet b.body := by
  have hidle : ∀ st, (∀ tx ∈ b.body, idle pc.toBlockChain.ctx st tx = true) ↔
      ∀ tx ∈ b.body, idle pc'.toBlockChain.ctx st tx = true := fun st =>
    forall₂_congr fun tx htx => by
      rw [idle, idle, debits_agree (h.ctx hreads) htx, credits_agree (h.ctx hreads) htx]
  rw [Quiet, Quiet, h.tries, h.stateRoot_eq]
  simp only [hidle]

/-- Both executions record the same bets. -/
theorem book_eq (h : Agree bs pc pc') (hreads : ReadsAlike b pc pc') (st : Accounts) {n : ℕ}
    (hn : pc.g2eBook.getEpoch n = pc'.g2eBook.getEpoch n) :
    (pc.toBlockChain.execLoop b.body st).book.getEpoch n =
      (pc'.toBlockChain.execLoop b.body st).book.getEpoch n := by
  have hbets : pc.toBlockChain.newBets b.body st = pc'.toBlockChain.newBets b.body st :=
    (execTxs_agree (h.ctx hreads) 0 st pc.g2eBook pc'.g2eBook 0).2
  rw [BlockChain.execLoop_book, BlockChain.execLoop_book, hbets]
  exact G2EBook.getEpoch_recordBets_congr hn _

/-- **Executing a block** gives both chains the same trie, and the same epochs where they had the same;
    or both panic on the settlement. -/
theorem execute (h : Agree bs pc pc') (hreads : ReadsAlike b pc pc')
    (hnum : b.header.number = pc.height + 1) (t : StateTrie) :
    (pc.execute b.body t = none ∧ pc'.execute b.body t = none) ∨
    ∃ t' bk bk', pc.execute b.body t = some (t', bk) ∧ pc'.execute b.body t = some (t', bk') ∧
      ∀ n, pc.g2eBook.getEpoch n = pc'.g2eBook.getEpoch n → bk.getEpoch n = bk'.getEpoch n := by
  have hst : (pc.toBlockChain.execLoop b.body t.decode).st =
      (pc'.toBlockChain.execLoop b.body t.decode).st :=
    (execTxs_agree (h.ctx hreads) 0 t.decode pc.g2eBook pc'.g2eBook 0).1
  have hdue := h.book_eq hreads t.decode (hnum ▸ hreads.due)
  have hfst := settle_accounts_congr hdue (pc'.toBlockChain.execLoop b.body t.decode).st
  have hwrites : writesOf pc.toBlockChain.ctx 0 b.body ⟨t.decode, pc.g2eBook, 0⟩ =
      writesOf pc'.toBlockChain.ctx 0 b.body ⟨t.decode, pc'.g2eBook, 0⟩ :=
    writesOf_agree (h.ctx hreads) 0 t.decode _ _ 0
  have hpaid : paid (pc.height + 1) (pc.toBlockChain.execLoop b.body t.decode).book =
      paid (pc.height + 1) (pc'.toBlockChain.execLoop b.body t.decode).book := by
    rw [paid, paid, hdue]
  unfold ProcessChain.execute
  simp only [hst, hwrites, hpaid, ← h.height_eq, ← hreads.ids]
  cases hs : settle (pc.height + 1) (pc'.toBlockChain.execLoop b.body t.decode).st
      (pc.toBlockChain.execLoop b.body t.decode).book with
  | none =>
    rw [hs, Option.map_none, eq_comm, Option.map_eq_none_iff] at hfst
    rw [hfst]
    exact Or.inl ⟨rfl, rfl⟩
  | some r =>
    rw [hs, Option.map_some, eq_comm, Option.map_eq_some_iff] at hfst
    obtain ⟨r', hs', hr'⟩ := hfst
    rw [hs']
    refine Or.inr ⟨_, _, _, rfl, by rw [Option.map_some, hr'], fun n hn => ?_⟩
    -- the settled epoch is gone from both books, and every other one has got the same bets
    rw [settle_book hs, settle_book hs']
    by_cases hnh : n = pc.height + 1
    · rw [hnh, G2EBook.getEpoch_cleanup_self, G2EBook.getEpoch_cleanup_self]
    · rw [G2EBook.getEpoch_cleanup_of_ne _ hnh, G2EBook.getEpoch_cleanup_of_ne _ hnh]
      exact h.book_eq hreads t.decode hn

/-- Executing a block keeps the agreement, or panics on both chains. -/
theorem getUpdateStatusTrie (h : Agree bs pc pc') (hreads : ReadsAlike b pc pc')
    (hnum : b.header.number = pc.height + 1) :
    (pc.getUpdateStatusTrie b.body = none ∧ pc'.getUpdateStatusTrie b.body = none) ∨
    ∃ pc₁ pc₁' rt, pc.getUpdateStatusTrie b.body = some (pc₁, rt) ∧
      pc'.getUpdateStatusTrie b.body = some (pc₁', rt) ∧ Agree bs pc₁ pc₁' := by
  by_cases hq : pc.Quiet b.body
  · refine Or.inr ⟨pc, pc', pc.stateRoot, getUpdateStatusTrie_of_quiet hq, ?_, h⟩
    rw [getUpdateStatusTrie_of_quiet ((h.quiet_iff hreads).1 hq), h.stateRoot_eq]
  have hq' : ¬ pc'.Quiet b.body := mt (h.quiet_iff hreads).2 hq
  cases ht : trieNew pc.tries pc.stateRoot with
  | none =>
    have hne : b.body ≠ [] := fun h0 => hq (Or.inl h0)
    exact Or.inl ⟨getUpdateStatusTrie_of_no_root ht hne,
      getUpdateStatusTrie_of_no_root (h.tries ▸ h.stateRoot_eq ▸ ht) hne⟩
  | some t =>
    rw [getUpdateStatusTrie_of_not_quiet ht hq,
      getUpdateStatusTrie_of_not_quiet (h.tries ▸ h.stateRoot_eq ▸ ht) hq']
    rcases h.execute hreads hnum t with ⟨hnone, hnone'⟩ | ⟨t', bk, bk', hs, hs', hbooks⟩
    · rw [hnone, hnone']
      exact Or.inl ⟨rfl, rfl⟩
    · rw [hs, hs']
      refine Or.inr ⟨_, _, _, rfl, rfl, h.config, h.block, by rw [h.tries], fun c hc hroot => ?_⟩
      have hc := h.reads c hc (trieNew_of_trieNew_cons hroot)
      exact ⟨hc.ids, hbooks _ hc.due, hc.sender, hc.recipient⟩

theorem append (h : Agree bs pc pc') (b : Block H) : Agree bs (pc.append b) (pc'.append b) where
  config := h.config
  block := rfl
  tries := h.tries
  reads := fun c hc hroot =>
    have hc := h.reads c hc hroot
    ⟨hc.ids, hc.due, hc.sender, hc.recipient⟩

/-- **Adding a block keeps the agreement**, or panics on both chains. -/
theorem addBlock (h : Agree bs pc pc') (hb : b ∈ bs) :
    (pc.addBlock b = none ∧ pc'.addBlock b = none) ∨
    ∃ pc₁ pc₁', pc.addBlock b = some pc₁ ∧ pc'.addBlock b = some pc₁' ∧ Agree bs pc₁ pc₁' := by
  have hexts : pc.Extends b ↔ pc'.Extends b := by rw [Extends, Extends, h.height_eq, h.block]
  by_cases hext : pc.Extends b
  · by_cases hroot : trieNew pc.tries b.header.stateRoot = none
    · rw [addBlock_of_unknown hext hroot, addBlock_of_unknown (hexts.1 hext) (h.tries ▸ hroot)]
      rcases h.getUpdateStatusTrie (h.reads b hb hroot) hext.1 with
        ⟨hnone, hnone'⟩ | ⟨pc₁, pc₁', rt, hs, hs', hagree⟩
      · rw [hnone, hnone']
        exact Or.inl ⟨rfl, rfl⟩
      · rw [hs, hs']
        exact Or.inr ⟨_, _, rfl, rfl, hagree.append b⟩
    · exact Or.inr ⟨_, _, addBlock_of_known hext hroot,
        addBlock_of_known (hexts.1 hext) (h.tries ▸ hroot), h.append b⟩
  · exact Or.inr ⟨pc, pc', addBlock_of_not_extends hext,
      addBlock_of_not_extends (mt hexts.2 hext), h⟩

theorem tail (h : Agree (b :: bs) pc pc') : Agree bs pc pc' :=
  ⟨h.config, h.block, h.tries, fun c hc => h.reads c (List.mem_cons_of_mem _ hc)⟩

/-- Adding the blocks gives both chains the same accounts. -/
theorem addBlocks (h : Agree bs pc pc') :
    (pc.addBlocks bs).map accounts = (pc'.addBlocks bs).map accounts := by
  induction bs generalizing pc pc' with
  | nil => exact congrArg some h.accounts_eq
  | cons b rest ih =>
    rw [ProcessChain.addBlocks, ProcessChain.addBlocks]
    rcases h.addBlock (List.mem_cons_self ..) with ⟨hnone, hnone'⟩ | ⟨pc₁, pc₁', hs, hs', hagree⟩
    · rw [hnone, hnone']
    · rw [hs, hs']
      exact ih hagree.tail

end Agree

/-! ## Restarts -/

/-- Nothing that a restart loses is read to execute the block: the new process encodes accounts as the
    old one did, no bets are pending for the block's height, and its accounts live where `Addr2Shard`
    puts them. -/
structure ReadsNothingLost (pc : ProcessChain H) (g : GobTypes) (b : Block H) : Prop where
  ids : g.accountState = pc.gob.accountState
  noBets : pc.g2eBook.getEpoch b.header.number = none
  sender : ∀ tx ∈ b.body, pc.toBlockChain.getPartitionMap tx.sender =
    addr2Shard pc.chainConfig.shardNums tx.sender
  recipient : ∀ tx ∈ b.body, pc.toBlockChain.getPartitionMap tx.recipient =
    addr2Shard pc.chainConfig.shardNums tx.recipient

/-- The current state is on disk, and so is that of every block that reads something lost. -/
structure RestartSafe (pc : ProcessChain H) (g : GobTypes) (bs : List (Block H)) : Prop where
  resolves : pc.accounts ≠ none
  reads : ∀ b ∈ bs, trieNew pc.tries b.header.stateRoot = none → pc.ReadsNothingLost g b

/-- **Restart transparency.** From every state that a run reaches in any process, closing the chain,
    reopening it in a process with the ids `g` and then adding blocks gives the accounts of adding them
    without the restart, provided no block that has to be executed reads what is lost. -/
theorem restart_transparent {g₀ : GobTypes} {cc : ChainConfig} {storage : Storage H}
    {tries : List StateTrie} {pc₀ pc : ProcessChain H} {g : GobTypes} {bs : List (Block H)}
    (hopen : newBlockChain g₀ cc storage tries = some pc₀) (hrun : Reaches step pc₀ pc)
    (hsafe : pc.RestartSafe g bs) :
    ((pc.reopen g).bind fun pc' => pc'.addBlocks bs).map accounts
      = (pc.addBlocks bs).map accounts := by
  rw [(stored_of_run hopen hrun).reopen_eq hsafe.resolves, Option.bind_some]
  refine (Agree.addBlocks ?_).symm
  refine ⟨rfl, rfl, rfl, fun b hb hroot => ?_⟩
  have hreads := hsafe.reads b hb hroot
  exact ⟨hreads.ids.symm, hreads.noBets, hreads.sender, hreads.recipient⟩

/-- A process of the relay shard with nothing on its disk. -/
def sampleProcess : ProcessChain SymHash :=
  (newBlockChain (GobHashing.fresh SymHash) BlockChain.sampleConfig Storage.empty []).get rfl

/-- A process that encodes accounts before headers. -/
def laterTypes : GobTypes := ⟨[65], [66]⟩

/-- Two bets are pending for height 2 when the chain is closed. Reopened, it executes block 2 without
    settling them, in whichever process, and no longer knows its own state. In a process with other ids
    one transfer is enough. -/
theorem restart_loses_bets :
    (∃ pc, Reaches step sampleProcess pc ∧ ∃ bs, ∀ g ∈ [GobHashing.fresh SymHash, laterTypes],
      ((pc.reopen g).bind fun pc' => pc'.addBlocks bs).map accounts
        ≠ (pc.addBlocks bs).map accounts) ∧
    ∃ bs, ((sampleProcess.reopen laterTypes).bind fun pc' => pc'.addBlocks bs).map accounts
        ≠ (sampleProcess.addBlocks bs).map accounts := by
  have hrun : ∃ pc ∈ runActions step sampleProcess
      ((BlockChain.sampleGenesis.blocksOf [BlockChain.rivalBets]).map .addBlock),
      ∀ g ∈ [GobHashing.fresh SymHash, laterTypes],
        ((pc.reopen g).bind fun pc' => pc'.addBlocks ((BlockChain.sampleGenesis.blocksOf
          [BlockChain.rivalBets, [BlockChain.transfer 1]]).drop 1)).map accounts
        ≠ (pc.addBlocks ((BlockChain.sampleGenesis.blocksOf
          [BlockChain.rivalBets, [BlockChain.transfer 1]]).drop 1)).map accounts := by
    decide +kernel
  obtain ⟨pc, hpc, hne⟩ := hrun
  refine ⟨⟨pc, reaches_of_runActions hpc, _, hne⟩, BlockChain.transferBlocks.take 1, ?_⟩
  decide +kernel

/-- A leader is closed after it has proposed a block, and the block is added in a process with other ids.
    And without other ids and pending bets, blocks can be executed. -/
theorem restart_after_proposal :
    (∃ pc, Reaches step sampleProcess pc ∧ pc.height = 0 ∧
      ((pc.reopen laterTypes).bind fun pc' =>
        pc'.addBlocks (BlockChain.transferBlocks.take 1)).map accounts
        = (pc.addBlocks (BlockChain.transferBlocks.take 1)).map accounts) ∧
    ∃ pc, Reaches step sampleProcess pc ∧ pc.height = 1 ∧
      ((pc.reopen ⟨[66], []⟩).bind fun pc' =>
        pc'.addBlocks (BlockChain.transferBlocks.drop 1)).map accounts
        = (pc.addBlocks (BlockChain.transferBlocks.drop 1)).map accounts := by
  have hopen : newBlockChain (GobHashing.fresh SymHash) BlockChain.sampleConfig Storage.empty [] =
      some sampleProcess := (Option.some_get _).symm
  have hproposed : ∃ pc ∈ runActions step sampleProcess
      [.addTxs2Pool [BlockChain.transfer 5], .generateBlock 0 0],
      pc.height = 0 ∧ pc.accounts ≠ none ∧ ∀ b ∈ BlockChain.transferBlocks.take 1,
        trieNew pc.tries b.header.stateRoot ≠ none := by
    decide +kernel
  have hadded : ∃ pc ∈ runActions step sampleProcess
      ((BlockChain.transferBlocks.take 1).map .addBlock),
      pc.height = 1 ∧ pc.accounts ≠ none ∧ pc.gob.accountState = [66] ∧ pc.g2eBook = ∅ ∧
      (∀ b ∈ BlockChain.transferBlocks.drop 1, ∀ tx ∈ b.body,
        pc.toBlockChain.getPartitionMap tx.sender = addr2Shard pc.chainConfig.shardNums tx.sender) ∧
      ∀ b ∈ BlockChain.transferBlocks.drop 1, ∀ tx ∈ b.body,
        pc.toBlockChain.getPartitionMap tx.recipient =
          addr2Shard pc.chainConfig.shardNums tx.recipient := by
    decide +kernel
  constructor
  · obtain ⟨pc, hpc, hheight, hroot, hknown⟩ := hproposed
    have hreach : Reaches step sampleProcess pc := reaches_of_runActions hpc
    have hsafe : pc.RestartSafe laterTypes (BlockChain.transferBlocks.take 1) :=
      ⟨hroot, fun b hb hnone => absurd hnone (hknown b hb)⟩
    exact ⟨pc, hreach, hheight, restart_transparent hopen hreach hsafe⟩
  · obtain ⟨pc, hpc, hheight, hroot, hids, hbook, hsend, hrecv⟩ := hadded
    have hreach : Reaches step sampleProcess pc := reaches_of_runActions hpc
    have hsafe : pc.RestartSafe ⟨[66], []⟩ (BlockChain.transferBlocks.drop 1) :=
      ⟨hroot, fun b hb _ => ⟨hids.symm, by rw [hbook]; rfl, hsend b hb, hrecv b hb⟩⟩
    exact ⟨pc, hreach, hheight, restart_transparent hopen hreach hsafe⟩

/-! ## Other ids -/

/-- What a process has not encoded itself was encoded before. -/
theorem typeIDs_execute {pc : ProcessChain H} {txs : List Transaction} {t t' : StateTrie}
    {bk : G2EBook} (hexec : pc.execute txs t = some (t', bk)) {a : Address} {e : EncodedAccount}
    (he : t'.lookup a = some e) :
    e.typeIDs = pc.gob.accountState ∨ ∃ e', t.lookup a = some e' ∧ e.typeIDs = e'.typeIDs := by
  obtain ⟨r, -, heq⟩ := Option.map_eq_some_iff.1 hexec
  obtain ⟨rfl, -⟩ := Prod.mk.inj heq
  rw [StateTrie.recode, Finmap.lookup_mapVals] at he
  obtain ⟨s, -, rfl⟩ := Option.map_eq_some_iff.1 he
  dsimp only
  split
  · exact Or.inl rfl
  · cases ht : t.lookup a with
    | none => exact Or.inl rfl
    | some e' => exact Or.inr ⟨e', rfl, rfl⟩

/-- A process that commits has encoded an account. -/
theorem exists_typeIDs_execute {pc : ProcessChain H} {txs : List Transaction} {t t' : StateTrie}
    {bk : G2EBook} (ht : trieNew pc.tries pc.stateRoot = some t) (hq : ¬ pc.Quiet txs)
    (hexec : pc.execute txs t = some (t', bk)) :
    ∃ a e, t'.lookup a = some e ∧ e.typeIDs = pc.gob.accountState := by
  have hwrites : writesOf pc.toBlockChain.ctx 0 txs ⟨t.decode, pc.g2eBook, 0⟩ ≠ [] := fun hnil =>
    hq (Or.inr ⟨t, ht, (pc.toBlockChain.execLoop_cnt_eq_zero_iff txs t.decode).1
      (cnt_eq_of_writesOf_eq_nil hnil)⟩)
  obtain ⟨a, ha⟩ := List.exists_mem_of_ne_nil _ hwrites
  obtain ⟨r, hs, heq⟩ := Option.map_eq_some_iff.1 hexec
  obtain ⟨rfl, -⟩ := Prod.mk.inj heq
  have hmem : a ∈ r.1 := (rewrites_settle hs).mem ((rewrites_execTxs ..).written a ha)
  obtain ⟨s, hstate⟩ := Finmap.mem_iff.1 hmem
  refine ⟨a, ⟨pc.gob.accountState, s⟩, ?_, rfl⟩
  rw [StateTrie.recode, Finmap.lookup_mapVals, hstate, Option.map_some,
    if_pos (List.mem_append_left _ ha)]

theorem trieNew_cons_of_none {t : StateTrie} {tries : List StateTrie} {root : H}
    (h : trieNew tries root = none) :
    trieNew (t :: tries) root = if GobHashing.trieRoot t = root then some t else none := by
  unfold trieNew at h ⊢
  split at h
  · exact absurd h (by simp)
  · next hroot =>
      rw [if_neg hroot, List.find?_cons]
      by_cases heq : GobHashing.trieRoot t = root
      · simp [heq]
      · simp [heq, h]

/-- A process does not come to a trie of another one, if it finds nothing with its own ids. -/
theorem execute_ne_of_typeIDs {pc pc' : ProcessChain H} {txs txs' : List Transaction}
    {t t₁ t₁' : StateTrie} {bk bk' : G2EBook} (hids : pc.gob.accountState ≠ pc'.gob.accountState)
    (hold : ∀ a e, t.lookup a = some e → e.typeIDs ≠ pc'.gob.accountState)
    (hexec : pc.execute txs t = some (t₁, bk)) (ht : trieNew pc'.tries pc'.stateRoot = some t)
    (hq : ¬ pc'.Quiet txs') (hexec' : pc'.execute txs' t = some (t₁', bk')) : t₁' ≠ t₁ := by
  -- an account of the second trie has the new ids, and none of the first has
  rintro rfl
  obtain ⟨a, e, he, hnew⟩ := exists_typeIDs_execute ht hq hexec'
  rcases typeIDs_execute hexec he with hpc | ⟨e', he', heq'⟩
  · exact hids (hpc.symm.trans hnew)
  · exact hold a e' he' (heq'.symm.trans hnew)

/-- **A restart in a process with other ids.** Nothing in the current trie has been encoded with the ids
    of the new process. Then a block that has to be executed, and whose root is the one the old process
    comes to, leaves the new one without its state. -/
theorem restart_unreadable {pc pc₁ : ProcessChain H} {g : GobTypes} {b : Block H} (hstored : pc.Stored)
    (hroot : pc.accounts ≠ none) (hids : pc.gob.accountState ≠ g.accountState)
    (hold : ∀ t ∈ trieNew pc.tries pc.stateRoot, ∀ a e, t.lookup a = some e →
      e.typeIDs ≠ g.accountState)
    (hext : pc.Extends b) (hunknown : trieNew pc.tries b.header.stateRoot = none)
    (hmined : pc.getUpdateStatusTrie b.body = some (pc₁, b.header.stateRoot)) :
    (∃ st, (pc.addBlock b).map accounts = some (some st)) ∧
      ∀ pc', (pc.reopen g).bind (fun pc' => pc'.addBlock b) = some pc' → pc'.accounts = none := by
  rcases getUpdateStatusTrie_cases hmined with ⟨-, -, hsame⟩ | ⟨hq, t, t', bk, ht, hexec, rfl, htrie⟩
  · rw [hsame] at hunknown
    exact absurd (by rw [accounts, hunknown, Option.map_none]) hroot
  constructor
  · refine ⟨t'.decode, ?_⟩
    rw [addBlock_of_unknown hext hunknown, hmined]
    show some ((trieNew (t' :: pc.tries) b.header.stateRoot).map StateTrie.decode) = _
    rw [trieNew_cons_of_none hunknown, if_pos htrie.symm, Option.map_some]
  intro pc' hpc'
  let re : ProcessChain H := { pc with gob := g, txpool := {}, partitionMap := ∅, g2eBook := ∅ }
  have hext' : re.Extends b := hext
  rw [hstored.reopen_eq hroot, Option.bind_some] at hpc'
  replace hpc' := (addBlock_of_unknown hext' hunknown).symm.trans hpc'
  obtain ⟨⟨pc₂, rt⟩, hexec', rfl⟩ := Option.map_eq_some_iff.1 hpc'
  show (trieNew pc₂.tries b.header.stateRoot).map StateTrie.decode = none
  rcases getUpdateStatusTrie_cases hexec' with
    ⟨-, rfl, -⟩ | ⟨hq', t₀, t'', bk', ht₀, hexec'', rfl, -⟩
  · exact congrArg (Option.map _) hunknown
  · obtain rfl := Option.some.inj (ht.symm.trans ht₀)
    have hne : t'' ≠ t' := execute_ne_of_typeIDs hids (hold t ht) hexec ht₀ hq' hexec''
    show (trieNew (t'' :: pc.tries) b.header.stateRoot).map StateTrie.decode = none
    rw [trieNew_cons_of_none hunknown, htrie, if_neg (GobHashing.trieRoot_injective.ne hne),
      Option.map_none]

end ProcessChain

end BlockEmulator
