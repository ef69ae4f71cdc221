import BlockEmulator.Chain.Runs
import BlockEmulator.Pbft.SingleView

set_option autoImplicit false

/-! # Replicated state

Agreement is about blocks; what the shard is for is the state behind them. Within one view a follower
changes its chain by `AddBlock` alone, on blocks that were proposed, one for each height. So its whole
chain object apart from the transaction pool (tries, storage, betting book, partition map) is what
adding the agreed blocks to the genesis chain gives, however the messages came and whether a block was
executed on commit or replayed from a `SendOldMessage`.

The leader executes a block when it proposes it and only appends it later. It ends in the same state
when no proposal is skipped by the others: the block has no effect, or its state root is new. -/

namespace BlockEmulator

variable {H : Type} [DecidableEq H] [Hashing H] {N : ℕ}

/-! ## A chain without its pool -/

namespace BlockChain

/-- What the blocks determine of a chain: everything but the transaction pool. -/
def replica (bc : BlockChain H) : BlockChain H := { bc with txpool := {} }

theorem replica_height (bc : BlockChain H) : bc.replica.height = bc.height := rfl

/-- Executing a block does not read the pool. -/
theorem getUpdateStatusTrie_replica (bc : BlockChain H) (txs : List Transaction) :
    bc.replica.getUpdateStatusTrie txs =
      (bc.getUpdateStatusTrie txs).map fun r => (r.1.replica, r.2) := by
  unfold getUpdateStatusTrie
  split
  · rfl
  · have hroot : bc.replica.triedb.trieNew bc.replica.stateRoot = bc.triedb.trieNew bc.stateRoot := rfl
    rw [hroot]
    cases bc.triedb.trieNew bc.stateRoot with
    | none => rfl
    | some st =>
      have hloop : bc.replica.execLoop txs st = bc.execLoop txs st := rfl
      have hheight : bc.replica.height = bc.height := rfl
      simp only [hloop, hheight]
      split
      · rfl
      · cases settle (bc.height + 1) (bc.execLoop txs st).st (bc.execLoop txs st).book <;> rfl

theorem addBlock_replica (bc : BlockChain H) (b : Block H) :
    bc.replica.addBlock b = (bc.addBlock b).map replica := by
  by_cases hext : bc.Extends b
  · have hext' : bc.replica.Extends b := hext
    cases hroot : bc.triedb.trieNew b.header.stateRoot with
    | some st =>
      have hroot' : bc.replica.triedb.trieNew b.header.stateRoot = some st := hroot
      rw [addBlock_of_known hext hroot, addBlock_of_known hext' hroot']
      rfl
    | none =>
      have hroot' : bc.replica.triedb.trieNew b.header.stateRoot = none := hroot
      rw [addBlock_of_unknown hext hroot, addBlock_of_unknown hext' hroot',
        getUpdateStatusTrie_replica]
      cases bc.getUpdateStatusTrie b.body <;> rfl
  · have hext' : ¬ bc.replica.Extends b := hext
    rw [addBlock_of_not_extends hext, addBlock_of_not_extends hext']
    rfl

theorem addBlocks_concat {bc bc' : BlockChain H} {bs : List (Block H)}
    (h : bc.addBlocks bs = some bc') (b : Block H) :
    bc.addBlocks (bs ++ [b]) = bc'.addBlock b := by
  induction bs generalizing bc with
  | nil =>
    obtain rfl := Option.some.inj h
    exact Option.bind_fun_some (bc.addBlock b)
  | cons b₀ bs ih =>
    obtain ⟨bc₁, hadd, hrest⟩ := Option.bind_eq_some_iff.1 h
    rw [List.cons_append, addBlocks, hadd]
    exact ih hrest

/-- A chain that has generated a block is, once the block is appended, where adding the block leads
    those that have not executed it, unless they skip a block with an effect. -/
theorem addBlock_of_generateBlock {bc bc' : BlockChain H} {b : Block H} {miner : ℤ} {now : ℕ}
    (h : bc.generateBlock miner now = some (bc', b))
    (hfresh : bc.Quiet b.body ∨ bc.triedb.trieNew b.header.stateRoot = none) :
    bc.replica.addBlock b = some (bc'.append b).replica := by
  obtain ⟨rt, hexec, rfl⟩ := generateBlockOf_cases h
  have hext : bc.replica.Extends (sealBlock { bc with txpool := bc.packForBlock.2 }
    bc.packForBlock.1 miner now rt) := ⟨rfl, rfl⟩
  cases hroot : bc.triedb.trieNew rt with
  | none =>
    have hreplica := getUpdateStatusTrie_replica { bc with txpool := bc.packForBlock.2 }
      bc.packForBlock.1
    rw [hexec] at hreplica
    rw [addBlock_of_unknown hext hroot]
    exact congrArg (Option.map _) hreplica
  | some st =>
    have hquiet : bc.Quiet bc.packForBlock.1 :=
      hfresh.resolve_right (by simp [sealBlock, hroot])
    rcases getUpdateStatusTrie_cases hexec with ⟨-, rfl, -⟩ | ⟨hnot, -⟩
    · exact addBlock_of_known hext hroot
    · exact absurd hquiet hnot

end BlockChain

open BlockChain

theorem mainNodeCommit_replica {ht : HandleType} {bc bc' : BlockChain H} {b : Block H}
    (h : ht.mainNodeCommit bc b = some bc') : bc'.replica = bc.replica := by
  have hrelay : ∀ {pool : Option TxPool},
      (pool.map fun p => { bc with txpool := p.clearRelayPool }) = some bc' →
        bc'.replica = bc.replica := by
    intro pool hp
    obtain ⟨p, -, rfl⟩ := Option.map_eq_some_iff.1 hp
    rfl
  cases ht with
  | relay => exact hrelay h
  | clpa => exact hrelay h
  | broker => exact Option.some.inj h ▸ rfl
  | clpaBroker =>
    simp only [HandleType.mainNodeCommit] at h
    split at h
    · exact Option.some.inj h ▸ rfl
    · exact absurd h (by simp)

/-- Whatever a module without partition requests does on commit, the replica stays or the block is
    added to it. -/
theorem handleinCommit_replica {ht : HandleType} (hht : ht.partitions = false) (isMain : Bool)
    (bc : BlockChain H) (r : Request H) :
    (ht.handleinCommit isMain bc r).1.replica = bc.replica ∨
      ∃ b bc', r.msg = .block b ∧ bc.addBlock b = some bc' ∧
        (ht.handleinCommit isMain bc r).1.replica = bc'.replica := by
  unfold HandleType.handleinCommit
  split
  · left
    rw [if_neg (by simp [hht])]
  · next b hb =>
      split
      · exact Or.inl rfl
      · next bc' hadd =>
          refine Or.inr ⟨b, bc', hb, hadd, ?_⟩
          split
          · split
            · next bc'' hmain => exact mainNodeCommit_replica hmain
            · rfl
          · rfl

/-! ## Properties that proposed blocks keep -/

/-- A property of chains that does not depend on the pool and that adding a proposed block keeps. -/
structure KeptBy (log : List (ℕ × Request H)) (Q : BlockChain H → Prop) : Prop where
  congr : ∀ {bc bc' : BlockChain H}, Q bc → bc'.replica = bc.replica → Q bc'
  addBlock : ∀ {bc bc' : BlockChain H} {r : Request H} {b : Block H}, Q bc → Known log r →
    r.msg = .block b → bc.addBlock b = some bc' → Q bc'

namespace KeptBy

variable {log : List (ℕ × Request H)} {Q : BlockChain H → Prop} {bc : BlockChain H}

theorem handleinCommit (hQ : KeptBy log Q) (h : Q bc) {ht : HandleType}
    (hht : ht.partitions = false) {r : Request H} (hr : Known log r) (isMain : Bool) :
    Q (ht.handleinCommit isMain bc r).1 := by
  rcases handleinCommit_replica hht isMain bc r with hsame | ⟨b, bc₁, hmsg, hadd, hsame⟩
  · exact hQ.congr h hsame
  · exact hQ.congr (hQ.addBlock h hr hmsg hadd) hsame

/-- Old requests are added one after the other, up to the first that ends the process. -/
theorem sequentialRequests (hs : Stacked log) (hQ : KeptBy log Q) {ht : HandleType}
    {rs : List (Request H)} (hrs : ∀ r ∈ rs, Known log r) (h : Q bc) :
    Q (ht.sequentialRequests bc rs).1 := by
  induction rs generalizing bc with
  | nil => exact h
  | cons r rs ih =>
    obtain ⟨hr, hrest⟩ := List.forall_mem_cons.1 hrs
    rw [HandleType.sequentialRequests]
    cases hreq : ht.sequentialRequest bc r with
    | none => exact h
    | some bc₁ =>
      obtain ⟨k, hmem⟩ := hr
      obtain ⟨b, hmsg, -⟩ := hs.block _ hmem
      have hadd : bc.addBlock b = some bc₁ := by
        rw [HandleType.sequentialRequest, hmsg] at hreq
        exact hreq
      exact ih hrest (hQ.addBlock h ⟨k, hmem⟩ hmsg hadd)

theorem handleforSequentialRequest (hs : Stacked log) (hQ : KeptBy log Q) (h : Q bc)
    (ht : HandleType) (seqStart seqEnd : ℕ) {rs : List (Request H)} (hrs : ∀ r ∈ rs, Known log r) :
    Q (ht.handleforSequentialRequest bc seqStart seqEnd rs).1 := by
  by_cases henough : ht.enoughOldRequests seqStart seqEnd rs.length = true
  · rw [HandleType.handleforSequentialRequest_fst henough]
    exact hQ.sequentialRequests hs (fun r hr => hrs r (List.mem_of_mem_take hr)) h
  · rw [HandleType.handleforSequentialRequest, if_neg henough]
    exact h

end KeptBy

/-! ## Replaying the proposals -/

/-- The chain is what adding `bs` to `bc₀` gives: one block for each height, each of them proposed. -/
structure Replays (bc₀ : BlockChain H) (log : List (ℕ × Request H)) (bs : List (Block H))
    (bc : BlockChain H) : Prop where
  height : bc.height = bs.length
  proposed : ∀ k b, bs[k]? = some b → ∃ r, (k + 1, r) ∈ log ∧ r.msg = .block b
  replay : bc₀.addBlocks bs = some bc.replica

namespace Replays

variable {bc₀ bc bc' : BlockChain H} {log : List (ℕ × Request H)} {bs bs' : List (Block H)}

theorem congr (h : Replays bc₀ log bs bc) (heq : bc'.replica = bc.replica) :
    Replays bc₀ log bs bc' where
  height := by rw [← replica_height, heq, replica_height, h.height]
  proposed := h.proposed
  replay := by rw [heq, h.replay]

theorem cons (h : Replays bc₀ log bs bc) (p : ℕ × Request H) : Replays bc₀ (p :: log) bs bc where
  height := h.height
  proposed := fun k b hb => by
    obtain ⟨r, hr, hmsg⟩ := h.proposed k b hb
    exact ⟨r, List.mem_cons_of_mem _ hr, hmsg⟩
  replay := h.replay

/-- One block for each height was proposed, so the height fixes the blocks. -/
theorem unique (hs : Stacked log) (h : Replays bc₀ log bs bc) (h' : Replays bc₀ log bs' bc')
    (hheight : bc.height = bc'.height) : bs = bs' := by
  have hlen : bs.length = bs'.length := by rw [← h.height, hheight, h'.height]
  refine List.ext_getElem hlen fun k hk hk' => ?_
  obtain ⟨r, hr, hmsg⟩ := h.proposed k _ (List.getElem?_eq_getElem hk)
  obtain ⟨r', hr', hmsg'⟩ := h'.proposed k _ (List.getElem?_eq_getElem hk')
  have hlatest := Stacked.latest hs.sorted hr
  rw [Stacked.latest hs.sorted hr', Option.some.injEq] at hlatest
  subst hlatest
  exact RequestMsg.block.inj (hmsg.symm.trans hmsg')

/-- The chain grown by the proposal for its next height. -/
theorem concat (h : Replays bc₀ log bs bc) {r : Request H} {b : Block H}
    (hr : (bc.height + 1, r) ∈ log) (hmsg : r.msg = .block b) (hheight : bc'.height = bc.height + 1)
    (hadd : bc.replica.addBlock b = some bc'.replica) : Replays bc₀ log (bs ++ [b]) bc' where
  height := by rw [hheight, h.height, List.length_append, List.length_singleton]
  proposed := fun k b' hb' => by
    rcases Nat.lt_trichotomy k bs.length with hlt | rfl | hgt
    · rw [List.getElem?_append_left hlt] at hb'
      exact h.proposed k b' hb'
    · rw [List.getElem?_concat_length, Option.some.injEq] at hb'
      exact ⟨r, h.height ▸ hr, hb' ▸ hmsg⟩
    · rw [List.getElem?_eq_none (by rw [List.length_append]; exact hgt)] at hb'
      exact absurd hb' (by simp)
  replay := by rw [addBlocks_concat h.replay, hadd]

/-- **Adding a proposed block** leaves a replayed chain replayed: it is ignored, or it is the block
    proposed for the next height. -/
theorem addBlock (hs : Stacked log) (h : Replays bc₀ log bs bc) {r : Request H} (hr : Known log r)
    {b : Block H} (hmsg : r.msg = .block b) (hadd : bc.addBlock b = some bc') :
    ∃ bs', Replays bc₀ log bs' bc' := by
  rcases addBlock_grows hadd with ⟨-, rfl⟩ | ⟨hext, hgrow, -⟩
  · exact ⟨bs, h⟩
  · obtain ⟨k, hmem⟩ := hr
    obtain ⟨b', hb', hnum⟩ := hs.block _ hmem
    obtain rfl := RequestMsg.block.inj (hmsg.symm.trans hb')
    obtain rfl : k = bc.height + 1 := hnum.symm.trans hext.1
    exact ⟨_, h.concat hmem hmsg hgrow.number (by rw [addBlock_replica, hadd]; rfl)⟩

end Replays

theorem keptBy_replays {bc₀ : BlockChain H} {log : List (ℕ × Request H)} (hs : Stacked log) :
    KeptBy log fun bc => ∃ bs, Replays bc₀ log bs bc where
  congr := fun ⟨bs, h⟩ heq => ⟨bs, h.congr heq⟩
  addBlock := fun ⟨_, h⟩ hr hmsg hadd => h.addBlock hs hr hmsg hadd

/-- A fresh chain replays no blocks. -/
theorem replays_genesis {cc : ChainConfig} {db : TrieDB H} {bc : BlockChain H}
    (hnew : newBlockChain cc Storage.empty db = some bc) (log : List (ℕ × Request H)) :
    Replays bc log [] bc := by
  obtain rfl := Option.some.inj hnew
  exact ⟨rfl, fun k b hb => absurd hb (by simp), rfl⟩

namespace PbftWorld

/-! ## What a step does to a replica -/

/-- **What a step does to the state of the node that acts**: nothing, or it generates a block to
    propose, or executes the request of a commit message, or those of a `SendOldMessage`. -/
theorem Acts.replica {w : PbftWorld H N} {a : PbftAct N} {i : Fin N} {n : PbftNode H}
    {r : Option (Request H)} {msgs : List (ℕ × PbftMsg H)} (h : w.Acts i a n r msgs) :
    (r = none ∧ n.curChain.replica = (w.nodes i).curChain.replica) ∨
      (∃ partition now reqTime req, a = .propose i partition now reqTime ∧ r = some req ∧
        0 < (w.nodes i).proposing ∧
        (partition.isSome = true → (w.nodes i).handleType.partitions = true) ∧
        (w.nodes i).handleinPropose partition now reqTime = some (n.curChain, req)) ∨
      (∃ (k : ℕ) (m : Vote H) (req : Request H), r = none ∧ w.net[k]? = some (i.val, .commit m) ∧
        (w.nodes i).committing m = some req ∧ n.curChain =
          ((w.nodes i).handleType.handleinCommit (w.nodes i).isMain (w.nodes i).curChain req).1) ∨
      ∃ (k : ℕ) (m : SendOldMessage H), r = none ∧ w.net[k]? = some (i.val, .sendOld m) ∧ n.curChain =
        ((w.nodes i).handleType.handleforSequentialRequest (w.nodes i).curChain m.seqStartHeight
          m.seqEndHeight m.oldRequest).1 := by
  cases h with
  | outside => exact Or.inl ⟨rfl, rfl⟩
  | roundSignal => exact Or.inl ⟨rfl, rfl⟩
  | takeSignal => exact Or.inl ⟨rfl, rfl⟩
  | lockSequence => exact Or.inl ⟨rfl, rfl⟩
  | proposePanics => exact Or.inl ⟨rfl, rfl⟩
  | propose hprop hpart hreq => exact Or.inr (Or.inl ⟨_, _, _, _, rfl, rfl, hprop, hpart, hreq⟩)
  | storeStage => exact Or.inl ⟨rfl, rfl⟩
  | resume =>
    left
    rw [PbftNode.askForOld, PbftNode.endRound_curChain]
    exact ⟨rfl, rfl⟩
  | timeout => exact Or.inl ⟨rfl, rfl⟩
  | deliver hk hn =>
    next k m =>
    cases m with
    | prePrepare m =>
      rcases PbftNode.handlePrePrepare_cases hn with
        ⟨rfl, -⟩ | ⟨rfl, -⟩ | ⟨-, rfl, -⟩ | ⟨-, rfl, -⟩ <;> exact Or.inl ⟨rfl, rfl⟩
    | prepare m =>
      obtain ⟨-, -, -, rfl, -⟩ := PbftNode.handlePrepare_cases hn
      exact Or.inl ⟨rfl, rfl⟩
    | commit m =>
      rcases PbftNode.handleCommit_curChain hn with hsame | ⟨req, hreq, hchain⟩
      · exact Or.inl ⟨rfl, congrArg BlockChain.replica hsame⟩
      · exact Or.inr (Or.inr (Or.inl ⟨k, m, req, rfl, hk, hreq, hchain⟩))
    | requestOld m =>
      obtain rfl : ((w.nodes i).handleRequestOldSeq m).1 = n :=
        congrArg Prod.fst (Option.some.inj hn)
      rw [PbftNode.handleRequestOldSeq_fst]
      exact Or.inl ⟨rfl, rfl⟩
    | sendOld m =>
      obtain rfl : ((w.nodes i).handleSendOldSeq m).1 = n :=
        congrArg Prod.fst (Option.some.inj hn)
      exact Or.inr (Or.inr (Or.inr ⟨k, m, rfl, hk, PbftNode.handleSendOldSeq_curChain _ _⟩))
    | viewChange m =>
      obtain rfl : ((w.nodes i).handleViewChangeMsg m).1 = n :=
        congrArg Prod.fst (Option.some.inj hn)
      exact Or.inl ⟨rfl, rfl⟩
    | newView m =>
      obtain rfl : (w.nodes i).handleNewViewMsg m = n :=
        congrArg Prod.fst (Option.some.inj hn)
      rw [PbftNode.handleNewViewMsg_curChain]
      exact Or.inl ⟨rfl, rfl⟩

/-- A node that proposes nothing adds proposed blocks to its chain, or none. -/
theorem Acts.keeps {w : PbftWorld H N} (hsv : SingleView w) {a : PbftAct N} {i : Fin N}
    {n : PbftNode H} {msgs : List (ℕ × PbftMsg H)} (h : w.Acts i a n none msgs)
    {Q : BlockChain H → Prop} (hQ : KeptBy w.proposed Q) (hq : Q (w.nodes i).curChain) :
    Q n.curChain := by
  have hi := hsv.nodes i
  rcases h.replica with ⟨-, hsame⟩ | ⟨_, _, _, _, -, hr, -⟩ | ⟨k, m, req, -, hk, hreq, hchain⟩ |
    ⟨k, m, -, hk, hchain⟩
  · exact hQ.congr hq hsame
  · exact absurd hr (by simp)
  · have hknown := (hi.pool _ _ (PbftNode.committing_spec hreq).1).2
    rw [hchain]
    exact hQ.handleinCommit hq hi.partitions hknown _
  · rw [hchain]
    exact hQ.handleforSequentialRequest hsv.stacked hq _ _ _
      (hsv.net _ (List.mem_of_getElem? hk)).2

/-- Only node 0 proposes. -/
theorem Acts.proposer {w : PbftWorld H N} (hsv : SingleView w) {a : PbftAct N} {i : Fin N}
    {n : PbftNode H} {r : Request H} {msgs : List (ℕ × PbftMsg H)} (h : w.Acts i a n (some r) msgs)
    (halive : (w.nodes i).alive = true) : i.val = 0 := by
  cases h with
  | propose hprop _ _ => exact ((hsv.nodes i).idle_of_proposing halive hprop).1

/-! ## The followers -/

/-- Each follower's chain is a replay of proposals. -/
def FollowersReplay (bc₀ : BlockChain H) (w : PbftWorld H N) : Prop :=
  ∀ i : Fin N, i.val ≠ 0 → ∃ bs, Replays bc₀ w.proposed bs (w.nodes i).curChain

theorem FollowersReplay.step {bc₀ : BlockChain H} {w w' : PbftWorld H N} {a : PbftAct N}
    (hw : FollowersReplay bc₀ w) (hsv : SingleView w) (h : w.step a = some w') :
    FollowersReplay bc₀ w' := by
  obtain ⟨i, n, r, msgs, hact, halive, rfl⟩ := step_cases h
  have hi := hsv.nodes i
  have hkeep : ∀ j : Fin N, j.val ≠ 0 →
      ∃ bs, Replays bc₀ (w.after i n r msgs).proposed bs (w.nodes j).curChain := by
    intro j hj
    obtain ⟨bs, hbs⟩ := hw j hj
    cases r with
    | none => exact ⟨bs, hbs⟩
    | some r => exact ⟨bs, hbs.cons _⟩
  refine (forall_nodes_after (p := fun j m => j.val ≠ 0 →
    ∃ bs, Replays bc₀ (w.after i n r msgs).proposed bs m.curChain)).2 ⟨?_, fun j _ => hkeep j⟩
  intro hi0
  cases r with
  | none => exact Acts.keeps hsv hact (keptBy_replays hsv.stacked) (hw i hi0)
  | some r => exact absurd (Acts.proposer hsv hact halive) hi0

/-- **Followers are replicas.** With the raw relay or raw broker module, in every run in which no
    node changes its view, two followers at the same height hold the same tries, blocks, betting book
    and partition map: what adding the agreed blocks to the genesis chain gives. -/
theorem followers_replicate {cc : ChainConfig} {db : TrieDB H} {bc : BlockChain H}
    (hnew : newBlockChain cc Storage.empty db = some bc) {ht : HandleType}
    (hht : ht = .relay ∨ ht = .broker) {w : PbftWorld H N}
    (hrun : ReachesUnder step KeepsViews (init N ht bc) w) {i j : Fin N} (hi : i.val ≠ 0)
    (hj : j.val ≠ 0) (hsame : w.height i = w.height j) :
    ∃ bs, bs.length = w.height i ∧ bc.addBlocks bs = some (w.nodes i).curChain.replica ∧
      bc.addBlocks bs = some (w.nodes j).curChain.replica := by
  have hpart : ht.partitions = false := by rcases hht with rfl | rfl <;> rfl
  have hinv : SingleView w ∧ FollowersReplay bc w := by
    refine hrun.invariant (I := fun w => SingleView w ∧ FollowersReplay bc w)
      ⟨singleView_init hpart bc, fun _ _ => ⟨[], replays_genesis hnew _⟩⟩ ?_
    rintro w a w' ⟨hsv, hw⟩ hkeep hstep
    exact ⟨hsv.step hkeep hstep, hw.step hsv hstep⟩
  obtain ⟨hsv, hw⟩ := hinv
  obtain ⟨bs, hbs⟩ := hw i hi
  obtain ⟨bs', hbs'⟩ := hw j hj
  obtain rfl := hbs.unique hsv.stacked hbs' hsame
  exact ⟨bs, hbs.height.symm, hbs.replay, hbs'.replay⟩

section Sample

set_option maxRecDepth 100000

/-- The first round, executed by the followers 1 and 2. -/
theorem first_round_replicated :
    ∃ w, ReachesUnder step KeepsViews (init 4 .relay sampleGenesis) w ∧
      w.height 1 = 1 ∧ w.height 2 = 1 ∧ ∃ bs, bs.length = w.height 1 ∧
        sampleGenesis.addBlocks bs = some (w.nodes 1).curChain.replica ∧
        sampleGenesis.addBlocks bs = some (w.nodes 2).curChain.replica := by
  have hrun : ∃ w ∈ runChecked step (fun w a => decide (w.KeepsViews a))
      (init 4 .relay sampleGenesis) (firstRound ++ [21, 25, 29, 22, 26, 30].map .deliver),
      w.height 1 = 1 ∧ w.height 2 = 1 := by decide +kernel
  obtain ⟨w, hw, h1, h2⟩ := hrun
  have hreach := reachesUnder_of_runDecided hw
  exact ⟨w, hreach, h1, h2, followers_replicate newBlockChain_sample (Or.inl rfl) hreach
    (by decide) (by decide) (h1.trans h2.symm)⟩

end Sample

/-! ## The leader -/

end PbftWorld

/-- The leader's chain is a replay of all proposals, or it has executed the newest one ahead of the
    others, who will come to the same state by adding it. -/
inductive LeaderReplays (bc₀ : BlockChain H) (log : List (ℕ × Request H)) (bc : BlockChain H) : Prop
  | level {bs : List (Block H)} : Replays bc₀ log bs bc → (∀ p ∈ log, p.1 ≤ bc.height) →
      LeaderReplays bc₀ log bc
  | ahead {bs : List (Block H)} {base : BlockChain H} {r : Request H} {b : Block H} :
      Replays bc₀ log bs base → base.height = bc.height → (bc.height + 1, r) ∈ log →
      (∀ p ∈ log, p.1 ≤ bc.height + 1) → r.msg = .block b →
      base.replica.addBlock b = some (bc.append b).replica →
      bc.replica.addBlock b = some (bc.append b).replica → LeaderReplays bc₀ log bc

namespace LeaderReplays

variable {bc₀ bc bc' : BlockChain H} {log : List (ℕ × Request H)}

theorem congr (h : LeaderReplays bc₀ log bc) (heq : bc'.replica = bc.replica) :
    LeaderReplays bc₀ log bc' := by
  have hheight : bc'.height = bc.height := by rw [← replica_height, heq, replica_height]
  cases h with
  | level hbs hbelow => exact .level (hbs.congr heq) (by rwa [hheight])
  | ahead hbs hbase hr hbelow hmsg hadd hown =>
    next b =>
    have happend : (bc'.append b).replica = (bc.append b).replica :=
      congrArg (fun c => BlockChain.append c b) heq
    refine .ahead hbs (hbase.trans hheight.symm) (by rwa [hheight]) (by rwa [hheight]) hmsg ?_ ?_
    · rw [happend, hadd]
    · rw [happend, heq, hown]

/-- Adding a proposed block keeps the leader's chain where it is, or makes it level with its newest
    proposal. -/
theorem addBlock (hs : Stacked log) (h : LeaderReplays bc₀ log bc) {r : Request H}
    (hr : Known log r) {b : Block H} (hmsg : r.msg = .block b) (hadd : bc.addBlock b = some bc') :
    LeaderReplays bc₀ log bc' := by
  rcases addBlock_grows hadd with ⟨-, rfl⟩ | ⟨hext, hgrow, -⟩
  · exact h
  obtain ⟨k, hmem⟩ := hr
  obtain ⟨b₁, hb₁, hnum⟩ := hs.block _ hmem
  obtain rfl := RequestMsg.block.inj (hmsg.symm.trans hb₁)
  obtain rfl : k = bc.height + 1 := hnum.symm.trans hext.1
  cases h with
  | level _ hbelow => exact absurd (hbelow _ hmem) (by simp)
  | ahead hbs hbase hnew hbelow hmsg' hothers hown =>
    -- one proposal for the next height
    have hlatest := Stacked.latest hs.sorted hnew
    rw [Stacked.latest hs.sorted hmem, Option.some.injEq] at hlatest
    subst hlatest
    obtain rfl := RequestMsg.block.inj (hmsg.symm.trans hmsg')
    have hsame : bc'.replica = (bc.append b).replica := by
      rw [addBlock_replica, hadd] at hown
      exact Option.some.inj hown
    refine .level (hbs.concat (hbase ▸ hnew) hmsg (hgrow.number.trans (by rw [hbase])) ?_) ?_
    · rw [hothers, hsame]
    · rw [hgrow.number]
      exact hbelow

/-- A proposal by a leader that is level puts it ahead. -/
theorem propose {bs : List (Block H)} (h : Replays bc₀ log bs bc) (hbelow : ∀ p ∈ log, p.1 ≤ bc.height)
    {b : Block H} {miner : ℤ} {now : ℕ} (hgen : bc.generateBlock miner now = some (bc', b))
    (hfresh : bc.Quiet b.body ∨ bc.triedb.trieNew b.header.stateRoot = none) {r : Request H}
    (hmsg : r.msg = .block b) : LeaderReplays bc₀ ((bc.height + 1, r) :: log) bc' := by
  have hheight : bc'.height = bc.height := by
    obtain ⟨rt, hexec, -⟩ := generateBlockOf_cases hgen
    exact (sameFiles_getUpdateStatusTrie hexec).height
  refine .ahead (h.cons _) hheight.symm (by rw [hheight]; exact List.mem_cons_self) ?_ hmsg
    (addBlock_of_generateBlock hgen hfresh) ?_
  · rw [hheight]
    refine List.forall_mem_cons.2 ⟨le_rfl, fun p hp => (hbelow p hp).trans (Nat.le_succ _)⟩
  · rw [addBlock_replica, addBlock_of_generateBlockOf hgen]
    rfl

end LeaderReplays

theorem keptBy_leaderReplays {bc₀ : BlockChain H} {log : List (ℕ × Request H)} (hs : Stacked log) :
    KeptBy log (LeaderReplays bc₀ log) where
  congr := LeaderReplays.congr
  addBlock := fun h hr hmsg hadd => h.addBlock hs hr hmsg hadd

/-- The others do not skip the request: its block has no effect on the chain, or its state root is
    new to the chain's database. -/
def BlockChain.NotSkipped (bc : BlockChain H) : Request H → Prop
  | ⟨.block b, _⟩ => bc.Quiet b.body ∨ bc.triedb.trieNew b.header.stateRoot = none
  | ⟨.partition _, _⟩ => True

instance (bc : BlockChain H) : (r : Request H) → Decidable (bc.NotSkipped r)
  | ⟨.block b, _⟩ =>
    inferInstanceAs (Decidable (bc.Quiet b.body ∨ bc.triedb.trieNew b.header.stateRoot = none))
  | ⟨.partition _, _⟩ => .isTrue trivial

namespace PbftWorld

/-- No proposal is one that the others skip. -/
def ProposesFresh (w : PbftWorld H N) : PbftAct N → Prop
  | .propose i partition now reqTime =>
    ∀ p ∈ (w.nodes i).handleinPropose partition now reqTime, (w.nodes i).curChain.NotSkipped p.2
  | _ => True

instance (w : PbftWorld H N) : (a : PbftAct N) → Decidable (w.ProposesFresh a)
  | .propose i partition now reqTime => inferInstanceAs (Decidable
      (∀ p ∈ (w.nodes i).handleinPropose partition now reqTime,
        (w.nodes i).curChain.NotSkipped p.2))
  | .outside _ _ | .roundSignal _ | .takeSignal _ | .lockSequence _ | .storeStage _ | .resume _
  | .timeout _ | .deliver _ => .isTrue trivial

/-- The leader's chain is a replay of proposals, up to one that it has executed early. -/
def LeadersReplay (bc₀ : BlockChain H) (w : PbftWorld H N) : Prop :=
  ∀ i : Fin N, i.val = 0 → LeaderReplays bc₀ w.proposed (w.nodes i).curChain

theorem LeadersReplay.step {bc₀ : BlockChain H} {w w' : PbftWorld H N} {a : PbftAct N}
    (hw : LeadersReplay bc₀ w) (hsv : SingleView w) (hfresh : w.ProposesFresh a)
    (h : w.step a = some w') : LeadersReplay bc₀ w' := by
  obtain ⟨i, n, r, msgs, hact, halive, rfl⟩ := step_cases h
  have hi := hsv.nodes i
  refine (forall_nodes_after (p := fun j m => j.val = 0 →
    LeaderReplays bc₀ (w.after i n r msgs).proposed m.curChain)).2 ⟨?_, ?_⟩
  · intro hi0
    have hlead := hw i hi0
    cases r with
    | none => exact Acts.keeps hsv hact (keptBy_leaderReplays hsv.stacked) hlead
    | some r =>
      cases hact with
      | propose hprop hpart hgen =>
        obtain ⟨-, -, hbelow, -⟩ := hi.idle_of_proposing halive hprop
        obtain ⟨b, rfl, hblock⟩ := hi.generates_block hpart hgen
        cases hlead with
        | level hbs _ => exact LeaderReplays.propose hbs hbelow hblock (hfresh _ hgen) rfl
        | ahead _ _ hnew _ _ _ _ => exact absurd (hbelow _ hnew) (by simp)
  · intro j hj hj0
    cases r with
    | none => exact hw j hj0
    | some r => exact absurd (Fin.ext (hj0.trans (Acts.proposer hsv hact halive).symm)) hj

/-- The node is not the leader between a proposal and its execution. -/
def AtRest (w : PbftWorld H N) (i : Fin N) : Prop :=
  i.val ≠ 0 ∨ ∀ p ∈ w.proposed, p.1 ≤ w.height i

theorem replays_of_atRest {bc₀ : BlockChain H} {w : PbftWorld H N} (hf : FollowersReplay bc₀ w)
    (hl : LeadersReplay bc₀ w) {i : Fin N} (hi : w.AtRest i) :
    ∃ bs, Replays bc₀ w.proposed bs (w.nodes i).curChain := by
  by_cases h0 : i.val = 0
  · cases hl i h0 with
    | level hbs _ => exact ⟨_, hbs⟩
    | ahead _ _ hnew _ _ _ _ =>
      exact absurd (hi.resolve_left (not_not.2 h0) _ hnew) (Nat.not_succ_le_self _)
  · exact hf i h0

/-- **The shard is one replicated state machine.** If moreover no proposal has an effect and an old
    state root, the leader takes part: any two nodes at the same height, neither of them the leader
    with a proposal under way, hold the replay of the same blocks. -/
theorem shard_replicates {cc : ChainConfig} {db : TrieDB H} {bc : BlockChain H}
    (hnew : newBlockChain cc Storage.empty db = some bc) {ht : HandleType}
    (hht : ht = .relay ∨ ht = .broker) {w : PbftWorld H N}
    (hrun : ReachesUnder step (fun w a => w.KeepsViews a ∧ w.ProposesFresh a) (init N ht bc) w)
    {i j : Fin N} (hi : w.AtRest i) (hj : w.AtRest j) (hsame : w.height i = w.height j) :
    ∃ bs, bs.length = w.height i ∧ bc.addBlocks bs = some (w.nodes i).curChain.replica ∧
      bc.addBlocks bs = some (w.nodes j).curChain.replica := by
  have hpart : ht.partitions = false := by rcases hht with rfl | rfl <;> rfl
  have hinv : SingleView w ∧ FollowersReplay bc w ∧ LeadersReplay bc w := by
    refine hrun.invariant (I := fun w => SingleView w ∧ FollowersReplay bc w ∧ LeadersReplay bc w)
      ⟨singleView_init hpart bc, fun _ _ => ⟨[], replays_genesis hnew _⟩,
        fun _ _ => .level (replays_genesis hnew _) (by simp [init])⟩ ?_
    rintro w a w' ⟨hsv, hf, hl⟩ ⟨hkeep, hfresh⟩ hstep
    exact ⟨hsv.step hkeep hstep, hf.step hsv hstep, hl.step hsv hfresh hstep⟩
  obtain ⟨hsv, hf, hl⟩ := hinv
  obtain ⟨bs, hbs⟩ := replays_of_atRest hf hl hi
  obtain ⟨bs', hbs'⟩ := replays_of_atRest hf hl hj
  obtain rfl := hbs.unique hsv.stacked hbs' hsame
  exact ⟨bs, hbs.height.symm, hbs.replay, hbs'.replay⟩

section Sample

set_option maxRecDepth 100000

/-- The first round, executed by the leader and by node 1: the transfer is new to both. -/
theorem first_round_replicated_by_leader :
    ∃ w, ReachesUnder step (fun w a => w.KeepsViews a ∧ w.ProposesFresh a)
        (init 4 .relay sampleGenesis) w ∧
      w.height 0 = 1 ∧ w.height 1 = 1 ∧ ∃ bs, bs.length = w.height 0 ∧
        sampleGenesis.addBlocks bs = some (w.nodes 0).curChain.replica ∧
        sampleGenesis.addBlocks bs = some (w.nodes 1).curChain.replica := by
  have hrun : ∃ w ∈ runChecked step (fun w a => decide (w.KeepsViews a ∧ w.ProposesFresh a))
      (init 4 .relay sampleGenesis) (firstRound ++ [20, 24, 28, 21, 25, 29].map .deliver),
      (∀ p ∈ w.proposed, p.1 ≤ w.height 0) ∧ w.height 0 = 1 ∧ w.height 1 = 1 := by
    decide +kernel
  obtain ⟨w, hw, hrest, h0, h1⟩ := hrun
  have hreach := reachesUnder_of_runDecided hw
  exact ⟨w, hreach, h0, h1, shard_replicates newBlockChain_sample (Or.inl rfl) hreach
    (Or.inr hrest) (Or.inl (by decide)) (h0.trans h1.symm)⟩

end Sample

end PbftWorld

end BlockEmulator
