import BlockEmulator.Chain.Runs
import BlockEmulator.Pbft.Lockstep

set_option autoImplicit false

/-! # Catching up

A node that sees a quorum of commit messages for a request it does not have asks the main node for old
requests, replays the answer and goes on after it. It asks from `sequenceID + 1` on: the request of its
own round is not part of the answer. So the replay levels the two chains exactly when the chain of the
node already holds the block of that round, which in lockstep it does not. -/

namespace BlockEmulator

variable {H : Type} [DecidableEq H] [Hashing H]

/-! ## Chains over one sequence of blocks -/

/-- The blocks are numbered, hashed and linked up to `top`. -/
def LinkedBlocks (B : ℕ → Block H) (top : ℕ) : Prop := Linked (fun h => ⟨B h, ∅⟩) top

namespace BlockChain

/-- The chain consists of the blocks `B 0, …, B height`. -/
structure Holds (bc : BlockChain H) (B : ℕ → Block H) : Prop where
  block : bc.currentBlock = B bc.height
  stored : ∀ h ≤ bc.height, bc.storage.getBlock (B h).hash = some (B h)

variable {bc bc' : BlockChain H} {B : ℕ → Block H} {top : ℕ}

theorem Holds.blockAt (h : bc.Holds B) (hB : LinkedBlocks B top) (htop : bc.height ≤ top) {k : ℕ}
    (hk : k ≤ bc.height) : bc.blockAt k = some (B k) := by
  have hfollows : BlockChain.Follows { bc with partitionMap := ∅ } fun h => ⟨B h, ∅⟩ :=
    ⟨congrArg (fun b => (⟨b, ∅⟩ : Tip H)) h.block, h.stored⟩
  have hancestor : ∀ n, BlockChain.ancestor { bc with partitionMap := ∅ } n = bc.ancestor n := by
    intro n
    induction n with
    | zero => rfl
    | succ n ih => rw [BlockChain.ancestor, BlockChain.ancestor, ih]
  have hat := hfollows.blockAt hB htop hk
  rw [BlockChain.blockAt, hancestor] at hat
  exact hat

theorem Holds.extends_iff (h : bc.Holds B) (hB : LinkedBlocks B top) {k : ℕ} (hk : k ≤ top) :
    bc.Extends (B k) ↔ k = bc.height + 1 := by
  rw [Extends, hB.number k hk]
  constructor
  · exact fun hext => hext.1
  · rintro rfl
    refine ⟨rfl, ?_⟩
    rw [h.block]
    exact hB.parent _ hk

/-- The next block of the sequence. -/
theorem Holds.addBlock (h : bc.Holds B) (hB : LinkedBlocks B top) (htop : bc.height + 1 ≤ top)
    (hadd : bc.addBlock (B (bc.height + 1)) = some bc') :
    bc'.Holds B ∧ bc'.height = bc.height + 1 := by
  rcases addBlock_grows hadd with ⟨hnot, -⟩ | ⟨-, hg, htip⟩
  · exact absurd ((h.extends_iff hB htop).2 rfl) hnot
  have hcur : bc'.currentBlock = B (bc.height + 1) := congrArg Tip.block htip
  refine ⟨⟨by rw [hg.number, hcur], ?_⟩, hg.number⟩
  intro k hk
  rw [hg.number] at hk
  rw [hg.storage, hcur, Storage.getBlock, Storage.addBlock]
  by_cases hlast : k = bc.height + 1
  · rw [hlast]
    exact Finmap.lookup_insert _
  · rw [Finmap.lookup_insert_of_ne _ (hB.hash_ne (by omega) htop hlast)]
    exact h.stored k (by omega)

/-- Blocks above the next one are ignored. -/
theorem addBlocks_of_gap (h : bc.Holds B) (hB : LinkedBlocks B top) {k count : ℕ}
    (hk : bc.height + 1 < k) (hcount : k + count ≤ top + 1) :
    bc.addBlocks ((List.range' k count).map B) = some bc := by
  induction count generalizing k with
  | zero => rfl
  | succ count ih =>
    have hnot : ¬ bc.Extends (B k) := by
      rw [h.extends_iff hB (by omega)]
      omega
    rw [List.range'_succ, List.map_cons, addBlocks, addBlock_of_not_extends hnot, Option.bind_some]
    exact ih (by omega) (by omega)

/-- Without a gap the chain ends with the last of the blocks, if it was not higher already. -/
theorem addBlocks_of_no_gap (h : bc.Holds B) (hB : LinkedBlocks B top) {k count : ℕ}
    (hk : k ≤ bc.height + 1) (hcount : k + count ≤ top + 1)
    (hadd : bc.addBlocks ((List.range' k count).map B) = some bc') :
    bc'.Holds B ∧ bc'.height = max bc.height (k + count - 1) := by
  induction count generalizing k bc with
  | zero =>
    obtain rfl := Option.some.inj hadd
    exact ⟨h, by omega⟩
  | succ count ih =>
    rw [List.range'_succ, List.map_cons, addBlocks] at hadd
    obtain ⟨bc₁, hadd₁, hrest⟩ := Option.bind_eq_some_iff.1 hadd
    rcases hk.lt_or_eq with hlt | rfl
    · -- the chain has this block already
      have hnot : ¬ bc.Extends (B k) := by
        rw [h.extends_iff hB (by omega)]
        omega
      obtain rfl := Option.some.inj ((addBlock_of_not_extends hnot).symm.trans hadd₁)
      obtain ⟨hholds, hheight⟩ := ih h (by omega) (by omega) hrest
      exact ⟨hholds, by omega⟩
    · obtain ⟨hholds₁, hheight₁⟩ := h.addBlock hB (by omega) hadd₁
      obtain ⟨hholds, hheight⟩ := ih hholds₁ (by omega) (by omega) hrest
      exact ⟨hholds, by omega⟩

end BlockChain

/-! ## Replaying old requests -/

theorem sequentialRequests_of_blocks (ht : HandleType) {bc bc' : BlockChain H}
    {rs : List (Request H)} {bs : List (Block H)} (hrs : rs.map Request.msg = bs.map .block)
    (hadd : bc.addBlocks bs = some bc') : ht.sequentialRequests bc rs = (bc', true) := by
  induction rs generalizing bc bs with
  | nil =>
    obtain rfl : bs = [] := by simpa using hrs.symm
    obtain rfl := Option.some.inj hadd
    rfl
  | cons r rs ih =>
    cases bs with
    | nil => exact absurd hrs (by simp)
    | cons b bs =>
      rw [List.map_cons, List.map_cons, List.cons.injEq] at hrs
      obtain ⟨bc₁, hadd₁, hrest⟩ := Option.bind_eq_some_iff.1 hadd
      have hreq : ht.sequentialRequest bc r = some bc₁ := by
        rw [HandleType.sequentialRequest, hrs.1]
        exact hadd₁
      rw [HandleType.sequentialRequests, hreq]
      exact ih hrs.2 hrest

/-- The count is as asked for. -/
theorem enoughOldRequests_of_length {ht : HandleType} (hht : ht = .relay ∨ ht = .clpa)
    {seqID t : ℕ} (hle : seqID ≤ t) (ht63 : t < 2 ^ 63) :
    ht.enoughOldRequests (seqID + 1) t (t - seqID) = true := by
  have hcount : Int.bmod ((t : ℤ) - ((seqID + 1 : ℕ) : ℤ) + 1) (2 ^ 64) = ((t - seqID : ℕ) : ℤ) := by
    rw [Int.bmod_eq_of_le] <;> omega
  rcases hht with rfl | rfl
  · exact decide_eq_true hcount
  · exact decide_eq_true hcount

namespace PbftNode

/-- The pool holds the blocks, so they are what is sent. -/
theorem oldRequests_of_blocks {l : PbftNode H} {B : ℕ → Block H} {k count : ℕ}
    (hpool : ∀ j, k ≤ j → j < k + count →
      (l.oldRequestAt j).map Request.msg = some (.block (B j))) :
    (l.oldRequests count k).map Request.msg = ((List.range' k count).map B).map .block := by
  induction count generalizing k with
  | zero => rfl
  | succ count ih =>
    obtain ⟨r, hr, hmsg⟩ := Option.map_eq_some_iff.1 (hpool k le_rfl (by omega))
    rw [oldRequests, hr, List.range'_succ, List.map_cons, List.map_cons, List.map_cons, hmsg,
      ih fun j hj hj' => hpool j (by omega) (by omega)]

/-- The answer to the request for old requests that `m` makes the node send. -/
def oldAnswer (l f : PbftNode H) (m : Vote H) : SendOldMessage H where
  seqStartHeight := f.sequenceID + 1
  seqEndHeight := m.seqID
  oldRequest := l.oldRequests (m.seqID + 1 - (f.sequenceID + 1)) (f.sequenceID + 1)
  senderNode := l.nodeID

/-- The whole exchange: the node handles the commit message, the main node its request for old
    requests, and the node the answer. -/
def catchUp (f l : PbftNode H) (m : Vote H) : Option (PbftNode H) :=
  match f.handleCommit m with
  | some (f', [(_, .requestOld ask)]) =>
    match (l.handleRequestOldSeq ask).2 with
    | [(_, .sendOld answer)] => some (f'.handleSendOldSeq answer).1
    | _ => none
  | _ => none

/-- The commit message completes a quorum for a request that the node does not have. -/
structure Misses (f : PbftNode H) (m : Vote H) : Prop where
  unblocked : f.blocked = none
  stage : 3 ≤ f.pbftStage
  current : f.sequenceID ≤ m.seqID
  completes : f.completesCommit m = true
  missing : f.requestPool m.digest = none
  free : f.askForLock = false

theorem handleCommit_of_misses {f : PbftNode H} {m : Vote H} (h : f.Misses m) :
    f.handleCommit m = some
      ({ f.countCommit m with isReply := Function.update f.isReply m.digest true }.askForOld m) := by
  have hwait : ¬ (f.blocked.isSome || (f.pbftStage < 3 && f.sequenceID ≤ m.seqID)) = true := by
    have hstage := h.stage
    simp [h.unblocked]
    omega
  have hdone := h.completes
  rw [completesCommit] at hdone
  rw [handleCommit, if_neg hwait, if_neg (not_lt.2 h.current)]
  simp only
  rw [if_pos hdone]
  simp only [h.missing, h.free]
  rfl

/-- What the exchange comes to. -/
theorem catchUp_eq {f l : PbftNode H} {m : Vote H} (h : f.Misses m) (hl : l.isMain = true) :
    f.catchUp l m = some
      (({ f.countCommit m with
          isReply := Function.update f.isReply m.digest true }.askForOld m).1.handleSendOldSeq
        (l.oldAnswer f m)).1 := by
  rw [catchUp, handleCommit_of_misses h]
  simp only [askForOld, handleRequestOldSeq, hl]
  rfl

/-- The chain and the number after the answer has been replayed. -/
theorem handleSendOldSeq_of_replayed {n : PbftNode H} {m : SendOldMessage H} {bc : BlockChain H}
    (h : n.handleType.handleforSequentialRequest n.curChain m.seqStartHeight m.seqEndHeight
      m.oldRequest = (bc, true)) :
    (n.handleSendOldSeq m).1.curChain = bc ∧
      (n.handleSendOldSeq m).1.sequenceID = u64 (m.seqEndHeight + 1) := by
  constructor
  · rw [handleSendOldSeq_curChain, h]
  · obtain ⟨ask, alive, hreenter, -⟩ := reenter_frame ({ n with curChain := bc }.fileReply m)
    rw [handleSendOldSeq, h]
    simp only
    rw [hreenter]
    rfl

end PbftNode

/-! ## When the exchange levels the chains -/

/-- The two chains are the same up to height `t`. -/
def SameUpTo (t : ℕ) (bc bc' : BlockChain H) : Prop :=
  t ≤ bc.height ∧ t ≤ bc'.height ∧ ∀ k ≤ t, bc.blockAt k = bc'.blockAt k

namespace PbftNode

/-- The chain of the node after the exchange is its old one with the blocks of the answer. -/
theorem catchUp_curChain {f l : PbftNode H} {m : Vote H} {B : ℕ → Block H} (hmiss : f.Misses m)
    (hmain : l.isMain = true) (hht : f.handleType = .relay ∨ f.handleType = .clpa)
    (hbound : m.seqID < 2 ^ 63)
    (hpool : ∀ k, f.sequenceID ≤ k → k ≤ m.seqID →
      (l.oldRequestAt k).map Request.msg = some (.block (B k))) {bc : BlockChain H}
    (hreplay : f.curChain.addBlocks
      ((List.range' (f.sequenceID + 1) (m.seqID - f.sequenceID)).map B) = some bc) :
    ∃ f', f.catchUp l m = some f' ∧ f'.curChain = bc ∧ f'.sequenceID = m.seqID + 1 := by
  have hle := hmiss.current
  have hcount : m.seqID + 1 - (f.sequenceID + 1) = m.seqID - f.sequenceID := by omega
  have hmsgs : (l.oldAnswer f m).oldRequest.map Request.msg =
      ((List.range' (f.sequenceID + 1) (m.seqID - f.sequenceID)).map B).map .block := by
    rw [oldAnswer, hcount]
    exact oldRequests_of_blocks fun j hj hj' => hpool j (by omega) (by omega)
  have hlen : (l.oldAnswer f m).oldRequest.length = m.seqID - f.sequenceID := by
    simpa using congrArg List.length hmsgs
  have hseq : f.handleType.handleforSequentialRequest f.curChain (f.sequenceID + 1) m.seqID
      (l.oldAnswer f m).oldRequest = (bc, true) := by
    rw [HandleType.handleforSequentialRequest, hlen,
      if_pos (enoughOldRequests_of_length hht hle hbound),
      HandleType.replay_of_length _ (by omega) (by omega)
        (sequentialRequests_of_blocks _ hmsgs hreplay)]
    simp
  -- counting the vote and asking for old requests leave the chain alone
  obtain ⟨lock, alive, hask⟩ := endRound_frame
    { { f.countCommit m with
        isReply := Function.update f.isReply m.digest true } with askForLock := true }
  have hnext : u64 (m.seqID + 1) = m.seqID + 1 := Nat.mod_eq_of_lt (by omega)
  refine ⟨_, catchUp_eq hmiss hmain, ?_⟩
  rw [askForOld, hask, ← hnext]
  exact handleSendOldSeq_of_replayed hseq

/-- **Catching up.** The node ends at the sequence number after the commit messages. Its chain is then
    level with the leader's exactly if it held the block of the node's own round before. -/
theorem catchUp_level_iff {f l : PbftNode H} {m : Vote H} {B : ℕ → Block H} (hmiss : f.Misses m)
    (hmain : l.isMain = true) (hht : f.handleType = .relay ∨ f.handleType = .clpa)
    (hbound : m.seqID < 2 ^ 63) (hB : LinkedBlocks B l.curChain.height)
    (hl : l.curChain.Holds B) (hf : f.curChain.Holds B)
    (hle : f.curChain.height ≤ l.curChain.height) (htop : m.seqID ≤ l.curChain.height)
    (hpool : ∀ k, f.sequenceID ≤ k → k ≤ m.seqID →
      (l.oldRequestAt k).map Request.msg = some (.block (B k)))
    (hreplay : f.sequenceID ≤ f.curChain.height → f.curChain.addBlocks
      ((List.range' (f.sequenceID + 1) (m.seqID - f.sequenceID)).map B) ≠ none) :
    ∃ f', f.catchUp l m = some f' ∧ f'.sequenceID = m.seqID + 1 ∧
      (SameUpTo m.seqID f'.curChain l.curChain ↔ f.sequenceID ≤ f.curChain.height) := by
  have hcur := hmiss.current
  rcases Nat.lt_or_ge f.curChain.height f.sequenceID with hgap | hheld
  · have hsame : f.curChain.addBlocks
        ((List.range' (f.sequenceID + 1) (m.seqID - f.sequenceID)).map B) = some f.curChain :=
      BlockChain.addBlocks_of_gap hf hB (by omega) (by omega)
    obtain ⟨f', hf', hchain, hseq⟩ := catchUp_curChain hmiss hmain hht hbound hpool hsame
    refine ⟨f', hf', hseq, iff_of_false ?_ (by omega)⟩
    rintro ⟨hheight, -⟩
    rw [hchain] at hheight
    omega
  · obtain ⟨bc, hbc⟩ := Option.ne_none_iff_exists'.1 (hreplay hheld)
    obtain ⟨hholds, hheight⟩ := BlockChain.addBlocks_of_no_gap hf hB (by omega) (by omega) hbc
    obtain ⟨f', hf', rfl, hseq⟩ := catchUp_curChain hmiss hmain hht hbound hpool hbc
    refine ⟨f', hf', hseq, iff_of_true ⟨by omega, htop, ?_⟩ hheld⟩
    intro k hk
    rw [hholds.blockAt hB (by omega) (by omega), hl.blockAt hB le_rfl (by omega)]

section Sample

open BlockChain PbftWorld

set_option maxRecDepth 100000

/-- The genesis block of the sample chain and two blocks after it. -/
def sampleBlocks : List (Block SymHash) :=
  sampleGenesis.currentBlock :: sampleGenesis.blocksOf [[transfer 5], [transfer 1]]

def sampleBlock (k : ℕ) : Block SymHash := sampleBlocks.getD k sampleGenesis.currentBlock

/-- The chain over the first blocks. -/
def chainUpTo (k : ℕ) : BlockChain SymHash :=
  (sampleGenesis.addBlocks ((List.range' 1 k).map sampleBlock)).getD sampleGenesis

/-- The leader at height 2, with both blocks in its pool. -/
def sampleLeader : PbftNode SymHash :=
  ((newPbftNode 0 4 .relay (chainUpTo 2)).putRequest 1 ⟨.block (sampleBlock 1), 0⟩).putRequest 2
    ⟨.block (sampleBlock 2), 0⟩

/-- A node that has the first block and is in the first round again. -/
def sampleLaggard : PbftNode SymHash :=
  { newPbftNode 3 4 .relay (chainUpTo 1) with
    sequenceID := 1
    pbftStage := 3
    cntCommitConfirm := fun _ => [0, 1] }

/-- The commit message that node 3 is missing. -/
def sampleVote : Vote SymHash := ⟨Hashing.getDigest ⟨.block (sampleBlock 2), 0⟩, 2, 2⟩

/-- The node catches up with the leader. -/
theorem laggard_catches_up :
    ∃ f', sampleLaggard.catchUp sampleLeader sampleVote = some f' ∧ f'.sequenceID = 3 ∧
      SameUpTo 2 f'.curChain sampleLeader.curChain := by
  have hmiss : sampleLaggard.Misses sampleVote :=
    ⟨rfl, le_rfl, by decide, by decide, by decide, rfl⟩
  have htwo : sampleLeader.curChain.height = 2 := by decide +kernel
  have hone : sampleLaggard.curChain.height = 1 := by decide +kernel
  have hB : LinkedBlocks sampleBlock sampleLeader.curChain.height := by
    rw [htwo]
    exact ⟨by decide +kernel, by decide +kernel, by decide +kernel⟩
  have hl : sampleLeader.curChain.Holds sampleBlock := ⟨by decide +kernel, by decide +kernel⟩
  have hf : sampleLaggard.curChain.Holds sampleBlock := ⟨by decide +kernel, by decide +kernel⟩
  have hpool : ∀ k ≤ 2, 1 ≤ k → (sampleLeader.oldRequestAt k).map Request.msg =
      some (.block (sampleBlock k)) := by decide +kernel
  obtain ⟨f', hf', hseq, hlevel⟩ := catchUp_level_iff (B := sampleBlock) hmiss rfl (Or.inl rfl)
    (by decide) hB hl hf (by omega) htwo.ge (fun k hk hk' => hpool k hk' hk) (fun _ => by decide +kernel)
  exact ⟨f', hf', hseq, hlevel.2 hone.ge⟩

/-- After a second proposal nodes 0, 1 and 2 commit it; node 3, without the proposal, has got two of
    their commit messages. -/
def secondRoundUnseen : List (PbftAct 4) :=
  [36, 37, 38, 40, 44, 48, 41, 45, 49, 42, 46, 50, 52, 56, 60, 55, 59].map .deliver

/-- The vote of a commit message. -/
def commitVote : PbftMsg SymHash → Option (Vote SymHash)
  | .commit m => some m
  | _ => none

theorem eq_commit_of_commitVote {p : PbftMsg SymHash} {m : Vote SymHash}
    (h : commitVote p = some m) : p = .commit m := by
  cases p with
  | commit v => rw [Option.some.inj h]
  | _ => exact absurd h (by simp [commitVote])

/-- Node 3 is in its first round at height 0, and node 0 has executed two blocks that it still holds
    as requests. After the exchange node 3 is at sequence number 3, with the chain it had. -/
theorem laggard_left_behind :
    ∃ w : PbftWorld SymHash 4, Reaches PbftWorld.step (init 4 .relay sampleGenesis) w ∧
      (w.nodes 3).sequenceID = 1 ∧ w.height 3 = 0 ∧ w.height 0 = 2 ∧
      (∀ k ∈ [1, 2], ((w.nodes 0).oldRequestAt k).map Request.msg =
        ((w.nodes 0).curChain.blockAt k).map .block) ∧
      ∃ m f', (3, .commit m) ∈ w.net ∧ m.seqID = 2 ∧ (w.nodes 3).requestPool m.digest = none ∧
        (w.nodes 3).catchUp (w.nodes 0) m = some f' ∧ f'.sequenceID = 3 ∧
        f'.curChain.height = 0 := by
  have hrun : ∃ w ∈ runActions PbftWorld.step (init 4 .relay sampleGenesis)
      (laggingRound ++ proposalBy 0 ++ secondRoundUnseen),
      (w.nodes 3).sequenceID = 1 ∧ w.height 3 = 0 ∧ w.height 0 = 2 ∧
      (∀ k ∈ [1, 2], ((w.nodes 0).oldRequestAt k).map Request.msg =
        ((w.nodes 0).curChain.blockAt k).map .block) ∧
      ∃ p ∈ w.net[63]?, p.1 = 3 ∧ ∃ m ∈ commitVote p.2, m.seqID = 2 ∧
        (w.nodes 3).requestPool m.digest = none ∧
        ∃ f' ∈ (w.nodes 3).catchUp (w.nodes 0) m, f'.sequenceID = 3 ∧
          f'.curChain.height = 0 := by decide +kernel
  obtain ⟨w, hw, hseq, h3, h0, hpool, ⟨d, p⟩, hp, rfl, m, hm, hm2, hnone, f', hf', hf3, hfh⟩ := hrun
  obtain rfl := eq_commit_of_commitVote hm
  exact ⟨w, reaches_of_runActions hw, hseq, h3, h0, hpool, m, f', List.mem_of_getElem? hp, hm2, hnone,
    hf', hf3, hfh⟩

end Sample

end PbftNode

end BlockEmulator
