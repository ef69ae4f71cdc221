import BlockEmulator.Pbft.Modules

set_option autoImplicit false

/-! # A PBFT node and its message handlers

`PbftConsensusNode` and the handlers of `messageHandle.go` and `view_change.go`. A handler returns the
node and the messages it sends, or `none` where the Go routine waits on a lock or on the condition
variable. Maps that are only read and written by key are functions. The sets of confirming nodes in
`cntPrepareConfirm` and `cntCommitConfirm` have freshly decoded pointers as keys, so a repeated message
counts again; they are lists here. -/

namespace BlockEmulator

/-! ## Messages -/

structure PrePrepare (H : Type) where
  requestMsg : Request H
  digest : H
  seqID : ℕ

/-- `message.Prepare` and `message.Commit`. -/
structure Vote (H : Type) where
  digest : H
  seqID : ℕ
  senderNode : ℕ

structure RequestOldMessage where
  seqStartHeight : ℕ
  seqEndHeight : ℕ
  serverNode : ℕ
  senderNode : ℕ

structure SendOldMessage (H : Type) where
  seqStartHeight : ℕ
  seqEndHeight : ℕ
  oldRequest : List (Request H)
  senderNode : ℕ

/-- `message.ViewChangeMsg` and `message.NewViewMsg`. -/
structure ViewMsg where
  curView : ℕ
  nextView : ℕ
  seqID : ℕ
  fromNode : ℕ

inductive PbftMsg (H : Type) where
  | prePrepare (m : PrePrepare H)
  | prepare (m : Vote H)
  | commit (m : Vote H)
  | requestOld (m : RequestOldMessage)
  | sendOld (m : SendOldMessage H)
  | viewChange (m : ViewMsg)
  | newView (m : ViewMsg)

/-! ## The node -/

/-- `PbftConsensusNode`. `signalled`, `waiting`, `proposing` and `storing` count the Go routines of
    `Propose` at the channel, at the sequence lock, inside `HandleinPropose` and before their last
    line; `blocked` is a commit handler that waits for `askForLock` while it holds `pbftLock`. -/
structure PbftNode (H : Type) [DecidableEq H] [Hashing H] where
  nodeID : ℕ
  nodeNums : ℕ
  handleType : HandleType
  curChain : BlockChain H
  view : ℕ
  viewChangeMap : ℕ × ℕ → Finset ℕ
  newViewMap : ℕ × ℕ → Finset ℕ
  sequenceID : ℕ
  requestPool : H → Option (Request H)
  cntPrepareConfirm : H → List ℕ
  cntCommitConfirm : H → List ℕ
  isCommitBordcast : H → Bool
  isReply : H → Bool
  height2Digest : ℕ → Option H
  pbftStage : ℕ
  sequenceLock : Bool
  askForLock : Bool
  blocked : Option (Vote H)
  signalled : Bool
  waiting : ℕ
  proposing : ℕ
  storing : ℕ
  alive : Bool

namespace PbftNode

variable {H : Type} [DecidableEq H] [Hashing H]

/-- `NewPbftNode` over an opened chain. -/
def newPbftNode (nodeID nodeNums : ℕ) (ht : HandleType) (bc : BlockChain H) : PbftNode H where
  nodeID := nodeID
  nodeNums := nodeNums
  handleType := ht
  curChain := bc
  view := 0
  viewChangeMap := fun _ => ∅
  newViewMap := fun _ => ∅
  sequenceID := bc.height + 1
  requestPool := fun _ => none
  cntPrepareConfirm := fun _ => []
  cntCommitConfirm := fun _ => []
  isCommitBordcast := fun _ => false
  isReply := fun _ => false
  height2Digest := fun _ => none
  pbftStage := 1
  sequenceLock := false
  askForLock := false
  blocked := none
  signalled := false
  waiting := 0
  proposing := 0
  storing := 0
  alive := true

/-- `2*malicious_nums + 1`. -/
def quorum (n : PbftNode H) : ℕ := 2 * ((n.nodeNums - 1) / 3) + 1

def isMain (n : PbftNode H) : Bool := n.nodeID = n.view

def crash (n : PbftNode H) : PbftNode H := { n with alive := false }

/-- `networks.Broadcast` to the shard and `TcpDial` to the node itself. -/
def toAll (n : PbftNode H) (m : PbftMsg H) : List (ℕ × PbftMsg H) :=
  (List.range n.nodeNums).map fun i => (i, m)

/-- `networks.Broadcast` alone, which leaves out the sender. -/
def toOthers (n : PbftNode H) (m : PbftMsg H) : List (ℕ × PbftMsg H) :=
  (n.toAll m).filter fun p => p.1 ≠ n.nodeID

theorem snd_of_mem_toAll {n : PbftNode H} {m : PbftMsg H} {p : ℕ × PbftMsg H} (hp : p ∈ n.toAll m) :
    p.2 = m := by
  obtain ⟨i, -, rfl⟩ := List.mem_map.1 hp
  rfl

/-- Put a request into the pool and file its digest under a sequence number. -/
def putRequest (n : PbftNode H) (seqID : ℕ) (r : Request H) : PbftNode H :=
  { n with
    requestPool := Function.update n.requestPool (Hashing.getDigest r) (some r)
    height2Digest := Function.update n.height2Digest seqID (some (Hashing.getDigest r)) }

def vote (n : PbftNode H) (digest : H) (seqID : ℕ) : Vote H := ⟨digest, seqID, n.nodeID⟩

/-- Unlock the sequence lock; unlocking an unlocked mutex ends the process. -/
def unlockSequence (n : PbftNode H) : PbftNode H :=
  if n.sequenceLock then { n with sequenceLock := false } else n.crash

@[simp]
theorem crash_curChain (n : PbftNode H) : n.crash.curChain = n.curChain := rfl

@[simp]
theorem unlockSequence_curChain (n : PbftNode H) : n.unlockSequence.curChain = n.curChain := by
  unfold unlockSequence
  split <;> rfl

/-! ## Handlers -/

/-- `handlePrePrepare`. -/
def handlePrePrepare (n : PbftNode H) (m : PrePrepare H) :
    Option (PbftNode H × List (ℕ × PbftMsg H)) :=
  -- `pbftLock` is held by the blocked handler, or the stage is too early for this sequence number
  if n.blocked.isSome || (n.pbftStage < 1 && n.sequenceID ≤ m.seqID) then none
  else if m.seqID < n.sequenceID then some (n, [])
  else if Hashing.getDigest m.requestMsg ≠ m.digest then some (n, [])
  -- a request from the future is kept, but not voted for
  else if n.sequenceID < m.seqID then some (n.putRequest m.seqID m.requestMsg, [])
  else
    match n.handleType.handleinPrePrepare n.curChain m.requestMsg with
    | none => some (n.crash, [])
    | some false => some (n.putRequest m.seqID m.requestMsg, [])
    | some true =>
      some ({ n.putRequest m.seqID m.requestMsg with pbftStage := n.pbftStage + 1 },
        n.toAll (.prepare (n.vote m.digest m.seqID)))

/-- `handlePrepare`. -/
def handlePrepare (n : PbftNode H) (m : Vote H) : Option (PbftNode H × List (ℕ × PbftMsg H)) :=
  if n.blocked.isSome || (n.pbftStage < 2 && n.sequenceID ≤ m.seqID) then none
  else if m.seqID < n.sequenceID then some (n, [])
  -- without the request, or ahead of the node, the vote is dropped
  else if n.requestPool m.digest = none then some (n, [])
  else if n.sequenceID < m.seqID then some (n, [])
  else
    let confirms := m.senderNode :: n.cntPrepareConfirm m.digest
    let n' := { n with
      cntPrepareConfirm := Function.update n.cntPrepareConfirm m.digest confirms }
    if n.quorum ≤ confirms.length && !n.isCommitBordcast m.digest then
      some ({ n' with
        isCommitBordcast := Function.update n.isCommitBordcast m.digest true
        pbftStage := n.pbftStage + 1 }, n.toAll (.commit (n.vote m.digest m.seqID)))
    else some (n', [])

/-- The end of a round in `handleCommit`: back to stage 1, and the main node unlocks. -/
def endRound (n : PbftNode H) : PbftNode H :=
  let n' := { n with pbftStage := 1 }
  if n.isMain then n'.unlockSequence else n'

@[simp]
theorem endRound_curChain (n : PbftNode H) : n.endRound.curChain = n.curChain := by
  unfold endRound
  split
  · exact unlockSequence_curChain _
  · rfl

/-- The branch of `handleCommit` that asks the main node for the requests it has missed, once
    `askForLock` is free. -/
def askForOld (n : PbftNode H) (m : Vote H) : PbftNode H × List (ℕ × PbftMsg H) :=
  ({ n with askForLock := true }.endRound,
    [(n.view, .requestOld
      { seqStartHeight := n.sequenceID + 1
        seqEndHeight := m.seqID
        serverNode := n.view
        senderNode := n.nodeID })])

/-- The branch of `handleCommit` that executes the request. -/
def executeRequest (n : PbftNode H) (digest : H) (r : Request H) : PbftNode H :=
  match n.handleType.handleinCommit n.isMain n.curChain r with
  | (bc, true) =>
    { n with
      curChain := bc
      isReply := Function.update n.isReply digest true
      sequenceID := n.sequenceID + 1 }.endRound
  | (bc, false) => { n with curChain := bc }.crash

/-- `handleCommit`. -/
def handleCommit (n : PbftNode H) (m : Vote H) : Option (PbftNode H × List (ℕ × PbftMsg H)) :=
  if n.blocked.isSome || (n.pbftStage < 3 && n.sequenceID ≤ m.seqID) then none
  else if m.seqID < n.sequenceID then some (n, [])
  else
    let confirms := m.senderNode :: n.cntCommitConfirm m.digest
    let n' := { n with cntCommitConfirm := Function.update n.cntCommitConfirm m.digest confirms }
    if n.quorum ≤ confirms.length && !n.isReply m.digest then
      match n.requestPool m.digest with
      | none =>
        -- the digest counts as replied although nothing has been executed
        let n'' := { n' with isReply := Function.update n.isReply m.digest true }
        if n.askForLock then some ({ n'' with blocked := some m }, [])
        else some (n''.askForOld m)
      | some r => some (n'.executeRequest m.digest r, [])
    else some (n', [])

/-- The request that this commit message would make the node execute. -/
def committing (n : PbftNode H) (m : Vote H) : Option (Request H) :=
  if n.blocked.isSome || (n.pbftStage < 3 && n.sequenceID ≤ m.seqID) || m.seqID < n.sequenceID then
    none
  else if n.quorum ≤ (m.senderNode :: n.cntCommitConfirm m.digest).length && !n.isReply m.digest then
    n.requestPool m.digest
  else none

/-- The blocked commit handler goes on. -/
def resume (n : PbftNode H) : Option (PbftNode H × List (ℕ × PbftMsg H)) :=
  match n.blocked with
  | some m => if n.askForLock then none else some ({ n with blocked := none }.askForOld m)
  | none => none

/-- The request filed under a sequence number. -/
def oldRequestAt (n : PbftNode H) (height : ℕ) : Option (Request H) :=
  (n.height2Digest height).bind n.requestPool

/-- The loop of `handleRequestOldSeq`: `count` requests from `height` on, up to the first that is
    missing. -/
def oldRequests (n : PbftNode H) : ℕ → ℕ → List (Request H)
  | 0, _ => []
  | count + 1, height =>
    match n.oldRequestAt height with
    | none => []
    | some r => r :: n.oldRequests count (height + 1)

/-- `handleRequestOldSeq`. -/
def handleRequestOldSeq (n : PbftNode H) (m : RequestOldMessage) :
    PbftNode H × List (ℕ × PbftMsg H) :=
  if !n.isMain then (n, [])
  else
    (n, [(m.senderNode, .sendOld
      { seqStartHeight := m.seqStartHeight
        seqEndHeight := m.seqEndHeight
        oldRequest := n.oldRequests (m.seqEndHeight + 1 - m.seqStartHeight) m.seqStartHeight
        senderNode := n.nodeID })])

@[simp]
theorem handleRequestOldSeq_fst (n : PbftNode H) (m : RequestOldMessage) :
    (n.handleRequestOldSeq m).1 = n := by
  unfold handleRequestOldSeq
  split <;> rfl

/-- The second loop of `handleSendOldSeq`: the requests are filed as done from `height` on. -/
def fileOldRequests (n : PbftNode H) : ℕ → List (Request H) → PbftNode H
  | _, [] => n
  | height, r :: rs =>
    { n.putRequest height r with
      isReply := Function.update n.isReply (Hashing.getDigest r) true }.fileOldRequests
        (height + 1) rs

@[simp]
theorem fileOldRequests_curChain (n : PbftNode H) (height : ℕ) (rs : List (Request H)) :
    (n.fileOldRequests height rs).curChain = n.curChain := by
  induction rs generalizing n height with
  | nil => rfl
  | cons r rs ih => exact ih _ _

/-- The end of `handleSendOldSeq`: unlocking an unlocked mutex ends the process. -/
def unlockAskFor (n : PbftNode H) : PbftNode H :=
  if n.askForLock then { n with askForLock := false } else n.crash

/-- `handleSendOldSeq`, between the replay and its tail. -/
def fileReply (n : PbftNode H) (m : SendOldMessage H) : PbftNode H :=
  -- the sequence number jumps to the end of what was asked for, however much came
  { n.fileOldRequests m.seqStartHeight m.oldRequest with sequenceID := u64 (m.seqEndHeight + 1) }

/-- The tail of `handleSendOldSeq`: the node votes if it has the request of its new round. -/
def reenter (n : PbftNode H) : PbftNode H × List (ℕ × PbftMsg H) :=
  match n.oldRequestAt n.sequenceID with
  | none => (n.unlockAskFor, [])
  | some r =>
    match n.handleType.handleinPrePrepare n.curChain r with
    | none => (n.crash, [])
    | some false => (n.unlockAskFor, [])
    | some true =>
      (n.unlockAskFor, n.toOthers (.prepare (n.vote (Hashing.getDigest r) n.sequenceID)))

/-- `handleSendOldSeq`. -/
def handleSendOldSeq (n : PbftNode H) (m : SendOldMessage H) :
    PbftNode H × List (ℕ × PbftMsg H) :=
  match n.handleType.handleforSequentialRequest n.curChain m.seqStartHeight m.seqEndHeight
      m.oldRequest with
  | (bc, false) => ({ n with curChain := bc }.crash, [])
  | (bc, true) => ({ n with curChain := bc }.fileReply m).reenter

/-- `viewChangePropose`. -/
def viewChangePropose (n : PbftNode H) : PbftNode H × List (ℕ × PbftMsg H) :=
  ({ n with pbftStage := 5 },
    n.toAll (.viewChange ⟨n.view, (n.view + 1) % n.nodeNums, n.sequenceID, n.nodeID⟩))

/-- `handleViewChangeMsg`. -/
def handleViewChangeMsg (n : PbftNode H) (m : ViewMsg) : PbftNode H × List (ℕ × PbftMsg H) :=
  let from' := insert m.fromNode (n.viewChangeMap (m.nextView, m.seqID))
  ({ n with viewChangeMap := Function.update n.viewChangeMap (m.nextView, m.seqID) from' },
    -- the view announced is the node's own next one, not the one in the message
    if from'.card = n.quorum then
      n.toAll (.newView ⟨n.view, (n.view + 1) % n.nodeNums, n.sequenceID, n.nodeID⟩)
    else [])

/-- `handleNewViewMsg`. -/
def handleNewViewMsg (n : PbftNode H) (m : ViewMsg) : PbftNode H :=
  let from' := insert m.fromNode (n.newViewMap (m.nextView, m.seqID))
  let n' := { n with newViewMap := Function.update n.newViewMap (m.nextView, m.seqID) from' }
  if from'.card = n.quorum then
    { n' with view := m.nextView, sequenceID := m.seqID, pbftStage := 1 }
  else n'

@[simp]
theorem handleNewViewMsg_curChain (n : PbftNode H) (m : ViewMsg) :
    (n.handleNewViewMsg m).curChain = n.curChain := by
  unfold handleNewViewMsg
  simp only
  split <;> rfl

/-- `handleMessage`, for the messages of the shard itself. -/
def handleMessage (n : PbftNode H) : PbftMsg H → Option (PbftNode H × List (ℕ × PbftMsg H))
  | .prePrepare m => n.handlePrePrepare m
  | .prepare m => n.handlePrepare m
  | .commit m => n.handleCommit m
  | .requestOld m => some (n.handleRequestOldSeq m)
  | .sendOld m => some (n.handleSendOldSeq m)
  | .viewChange m => some (n.handleViewChangeMsg m)
  | .newView m => some (n.handleNewViewMsg m, [])

/-! ## What a delivery can do

One case lemma for each handler that waits; what follows argues from the cases. -/

theorem handlePrePrepare_cases {n n' : PbftNode H} {m : PrePrepare H} {msgs : List (ℕ × PbftMsg H)}
    (h : n.handlePrePrepare m = some (n', msgs)) :
    (n' = n ∧ msgs = []) ∨ (n' = n.crash ∧ msgs = []) ∨
      (Hashing.getDigest m.requestMsg = m.digest ∧ n' = n.putRequest m.seqID m.requestMsg ∧
        msgs = []) ∨
      (Hashing.getDigest m.requestMsg = m.digest ∧
        n' = { n.putRequest m.seqID m.requestMsg with pbftStage := n.pbftStage + 1 } ∧
        msgs = n.toAll (.prepare (n.vote m.digest m.seqID))) := by
  unfold handlePrePrepare at h
  split at h
  · exact absurd h (by simp)
  split at h
  · exact Or.inl (Prod.mk.inj (Option.some.inj h).symm)
  split at h
  · exact Or.inl (Prod.mk.inj (Option.some.inj h).symm)
  next hdigest =>
  rw [not_not] at hdigest
  split at h
  · exact Or.inr (Or.inr (Or.inl ⟨hdigest, Prod.mk.inj (Option.some.inj h).symm⟩))
  split at h
  · exact Or.inr (Or.inl (Prod.mk.inj (Option.some.inj h).symm))
  · exact Or.inr (Or.inr (Or.inl ⟨hdigest, Prod.mk.inj (Option.some.inj h).symm⟩))
  · exact Or.inr (Or.inr (Or.inr ⟨hdigest, Prod.mk.inj (Option.some.inj h).symm⟩))

/-- The vote is counted in `cntPrepareConfirm`. -/
def countPrepare (n : PbftNode H) (m : Vote H) : PbftNode H :=
  { n with
    cntPrepareConfirm := Function.update n.cntPrepareConfirm m.digest
      (m.senderNode :: n.cntPrepareConfirm m.digest) }

/-- The vote is counted in `cntCommitConfirm`. -/
def countCommit (n : PbftNode H) (m : Vote H) : PbftNode H :=
  { n with
    cntCommitConfirm := Function.update n.cntCommitConfirm m.digest
      (m.senderNode :: n.cntCommitConfirm m.digest) }

theorem countPrepare_self (n : PbftNode H) (m : Vote H) :
    (n.countPrepare m).cntPrepareConfirm m.digest =
      m.senderNode :: n.cntPrepareConfirm m.digest :=
  Function.update_self ..

theorem countCommit_self (n : PbftNode H) (m : Vote H) :
    (n.countCommit m).cntCommitConfirm m.digest = m.senderNode :: n.cntCommitConfirm m.digest :=
  Function.update_self ..

/-- With this prepare message the node has enough of them, and has not committed yet. -/
def completesPrepare (n : PbftNode H) (m : Vote H) : Bool :=
  n.quorum ≤ (m.senderNode :: n.cntPrepareConfirm m.digest).length && !n.isCommitBordcast m.digest

/-- With this commit message the node has enough of them, and has not replied yet. -/
def completesCommit (n : PbftNode H) (m : Vote H) : Bool :=
  n.quorum ≤ (m.senderNode :: n.cntCommitConfirm m.digest).length && !n.isReply m.digest

theorem committing_of_not_completes (n : PbftNode H) {m : Vote H}
    (h : n.completesCommit m = false) : n.committing m = none := by
  rw [completesCommit] at h
  rw [committing, h]
  split <;> rfl

/-- The request a commit message executes is an open one from the pool. -/
theorem committing_spec {n : PbftNode H} {m : Vote H} {r : Request H}
    (h : n.committing m = some r) :
    n.requestPool m.digest = some r ∧ n.isReply m.digest = false := by
  unfold committing at h
  split at h
  · exact absurd h (by simp)
  split at h
  · next hq => exact ⟨h, by simp_all⟩
  · exact absurd h (by simp)

/-- A commit message that makes the node execute is not out of date and completes the quorum. -/
theorem completes_of_committing {n : PbftNode H} {m : Vote H} {r : Request H}
    (h : n.committing m = some r) : n.sequenceID ≤ m.seqID ∧ n.completesCommit m = true := by
  unfold committing at h
  split at h
  · exact absurd h (by simp)
  next hwait =>
  split at h
  · next hdone =>
      refine ⟨?_, hdone⟩
      simp only [Bool.or_eq_true, not_or, decide_eq_true_eq, not_lt] at hwait
      exact hwait.2
  · exact absurd h (by simp)

/-- A prepare message is dropped, counted, or answered with a commit message. -/
inductive HandlesPrepare (n : PbftNode H) (m : Vote H) :
    PbftNode H → List (ℕ × PbftMsg H) → Prop
  | drop : m.seqID ≠ n.sequenceID ∨ n.requestPool m.digest = none → HandlesPrepare n m n []
  | count : m.seqID = n.sequenceID → 2 ≤ n.pbftStage → n.requestPool m.digest ≠ none →
      n.completesPrepare m = false → HandlesPrepare n m (n.countPrepare m) []
  | commit : m.seqID = n.sequenceID → 2 ≤ n.pbftStage → n.requestPool m.digest ≠ none →
      n.completesPrepare m = true → HandlesPrepare n m
        { n.countPrepare m with
          isCommitBordcast := Function.update n.isCommitBordcast m.digest true
          pbftStage := n.pbftStage + 1 }
        (n.toAll (.commit (n.vote m.digest m.seqID)))

theorem handlesPrepare_of_handlePrepare {n n' : PbftNode H} {m : Vote H}
    {msgs : List (ℕ × PbftMsg H)} (h : n.handlePrepare m = some (n', msgs)) :
    n.HandlesPrepare m n' msgs := by
  unfold handlePrepare at h
  split at h
  · exact absurd h (by simp)
  next hwait =>
  split at h
  · next hold =>
      obtain ⟨rfl, rfl⟩ := Prod.mk.inj (Option.some.inj h)
      exact .drop (Or.inl hold.ne)
  next hold =>
  split at h
  · next hnone =>
      obtain ⟨rfl, rfl⟩ := Prod.mk.inj (Option.some.inj h)
      exact .drop (Or.inr hnone)
  next hpool =>
  split at h
  · next hahead =>
      obtain ⟨rfl, rfl⟩ := Prod.mk.inj (Option.some.inj h)
      exact .drop (Or.inl hahead.ne')
  next hahead =>
  have hseq : m.seqID = n.sequenceID := by omega
  have hstage : 2 ≤ n.pbftStage := by
    rw [hseq] at hwait
    simp only [le_refl, decide_true, Bool.and_true, Bool.or_eq_true, not_or,
      decide_eq_true_eq, not_lt] at hwait
    exact hwait.2
  simp only at h
  split at h
  · next hdone =>
      obtain ⟨rfl, rfl⟩ := Prod.mk.inj (Option.some.inj h)
      exact .commit hseq hstage hpool hdone
  · next hdone =>
      obtain ⟨rfl, rfl⟩ := Prod.mk.inj (Option.some.inj h)
      exact .count hseq hstage hpool (Bool.not_eq_true _ ▸ hdone)

theorem handlePrepare_cases {n n' : PbftNode H} {m : Vote H} {msgs : List (ℕ × PbftMsg H)}
    (h : n.handlePrepare m = some (n', msgs)) :
    ∃ c b stage, n' = { n with cntPrepareConfirm := c, isCommitBordcast := b, pbftStage := stage } ∧
      (msgs = [] ∨ msgs = n.toAll (.commit (n.vote m.digest m.seqID))) := by
  cases handlesPrepare_of_handlePrepare h with
  | drop => exact ⟨_, _, _, rfl, Or.inl rfl⟩
  | count => exact ⟨_, _, _, rfl, Or.inl rfl⟩
  | commit => exact ⟨_, _, _, rfl, Or.inr rfl⟩

/-- A commit message is out of date, only counted, or completes a quorum: then the node waits for
    `askForLock`, asks for old requests, or executes the request. -/
inductive HandlesCommit (n : PbftNode H) (m : Vote H) :
    PbftNode H → List (ℕ × PbftMsg H) → Prop
  | drop : m.seqID < n.sequenceID → HandlesCommit n m n []
  | count : n.sequenceID ≤ m.seqID → 3 ≤ n.pbftStage → n.completesCommit m = false →
      HandlesCommit n m (n.countCommit m) []
  | wait : n.sequenceID ≤ m.seqID → 3 ≤ n.pbftStage → n.completesCommit m = true →
      n.requestPool m.digest = none →
      HandlesCommit n m
        { n.countCommit m with
          isReply := Function.update n.isReply m.digest true
          blocked := some m } []
  | ask : n.sequenceID ≤ m.seqID → 3 ≤ n.pbftStage → n.completesCommit m = true →
      n.requestPool m.digest = none →
      HandlesCommit n m
        ({ n.countCommit m with isReply := Function.update n.isReply m.digest true }.askForOld m).1
        ({ n.countCommit m with isReply := Function.update n.isReply m.digest true }.askForOld m).2
  | execute {r : Request H} : n.sequenceID ≤ m.seqID → 3 ≤ n.pbftStage →
      n.completesCommit m = true → n.committing m = some r →
      HandlesCommit n m ((n.countCommit m).executeRequest m.digest r) []

theorem handlesCommit_of_handleCommit {n n' : PbftNode H} {m : Vote H}
    {msgs : List (ℕ × PbftMsg H)} (h : n.handleCommit m = some (n', msgs)) :
    n.HandlesCommit m n' msgs := by
  unfold handleCommit at h
  split at h
  · exact absurd h (by simp)
  next hwait =>
  split at h
  · next hold =>
      obtain ⟨rfl, rfl⟩ := Prod.mk.inj (Option.some.inj h)
      exact .drop hold
  next hold =>
  have hseq : n.sequenceID ≤ m.seqID := not_lt.1 hold
  have hstage : 3 ≤ n.pbftStage := by
    simp only [hseq, decide_true, Bool.and_true, Bool.or_eq_true, not_or, decide_eq_true_eq,
      not_lt] at hwait
    exact hwait.2
  simp only at h
  split at h
  · next hdone =>
      split at h
      · next hnone =>
          split at h
          · obtain ⟨rfl, rfl⟩ := Prod.mk.inj (Option.some.inj h)
            exact .wait hseq hstage hdone hnone
          · obtain ⟨rfl, rfl⟩ := Prod.ext_iff.1 (Option.some.inj h)
            exact .ask hseq hstage hdone hnone
      · next r hr =>
          obtain ⟨rfl, rfl⟩ := Prod.mk.inj (Option.some.inj h)
          refine .execute hseq hstage hdone ?_
          rw [committing, if_neg (by simp_all), if_pos hdone, hr]
  · next hdone =>
      obtain ⟨rfl, rfl⟩ := Prod.mk.inj (Option.some.inj h)
      exact .count hseq hstage (Bool.not_eq_true _ ▸ hdone)

/-- A commit message is only counted, or it finds no request and the node waits or asks for old
    ones, or it makes the node execute a request. -/
theorem handleCommit_cases {n n' : PbftNode H} {m : Vote H} {msgs : List (ℕ × PbftMsg H)}
    (h : n.handleCommit m = some (n', msgs)) :
    ∃ c, (n' = { n with cntCommitConfirm := c } ∧ msgs = []) ∨
      (n.requestPool m.digest = none ∧
        n' = { n with
          cntCommitConfirm := c
          isReply := Function.update n.isReply m.digest true
          blocked := some m } ∧ msgs = []) ∨
      (n.requestPool m.digest = none ∧
        (n', msgs) = { n with
          cntCommitConfirm := c
          isReply := Function.update n.isReply m.digest true }.askForOld m) ∨
      ∃ r, n.committing m = some r ∧
        n' = { n with cntCommitConfirm := c }.executeRequest m.digest r ∧ msgs = [] := by
  cases handlesCommit_of_handleCommit h with
  | drop => exact ⟨_, Or.inl ⟨rfl, rfl⟩⟩
  | count => exact ⟨_, Or.inl ⟨rfl, rfl⟩⟩
  | wait _ _ _ hnone => exact ⟨_, Or.inr (Or.inl ⟨hnone, rfl, rfl⟩)⟩
  | ask _ _ _ hnone => exact ⟨_, Or.inr (Or.inr (Or.inl ⟨hnone, rfl⟩))⟩
  | execute _ _ _ hr => exact ⟨_, Or.inr (Or.inr (Or.inr ⟨_, hr, rfl, rfl⟩))⟩

/-! ## What the handlers leave alone -/

/-- What ending a round touches. -/
theorem endRound_frame (n : PbftNode H) : ∃ lock alive, n.endRound =
    { n with pbftStage := 1, sequenceLock := lock, alive := alive } := by
  unfold endRound unlockSequence
  simp only
  split
  · split
    · exact ⟨_, _, rfl⟩
    · exact ⟨_, _, rfl⟩
  · exact ⟨_, _, rfl⟩

/-- The leader ends the round it holds the lock for. -/
theorem endRound_of_isMain {n : PbftNode H} (hmain : n.isMain = true)
    (hlock : n.sequenceLock = true) :
    n.endRound = { n with pbftStage := 1, sequenceLock := false } := by
  rw [endRound, if_pos hmain, unlockSequence, if_pos hlock]

theorem executeRequest_frame (n : PbftNode H) (digest : H) (r : Request H) :
    ∃ bc replied seq stage lock alive, n.executeRequest digest r =
      { n with
        curChain := bc
        isReply := replied
        sequenceID := seq
        pbftStage := stage
        sequenceLock := lock
        alive := alive } := by
  unfold executeRequest
  split
  · obtain ⟨lock, alive, heq⟩ := endRound_frame (H := H) _
    rw [heq]
    exact ⟨_, _, _, _, _, _, rfl⟩
  · exact ⟨_, _, _, _, _, _, rfl⟩

theorem isReply_of_executeRequest {n : PbftNode H} {digest d : H} {r : Request H}
    (h : (n.executeRequest digest r).isReply d = true) : n.isReply d = true ∨ d = digest := by
  unfold executeRequest at h
  split at h
  · obtain ⟨lock, alive, heq⟩ := endRound_frame (H := H) _
    rw [heq] at h
    have hupd : Function.update n.isReply digest true d = true := h
    rw [Function.update_apply] at hupd
    split at hupd
    · next hd => exact Or.inr hd
    · exact Or.inl hupd
  · exact Or.inl h

theorem unlockAskFor_frame (n : PbftNode H) :
    ∃ ask alive, n.unlockAskFor = { n with askForLock := ask, alive := alive } := by
  unfold unlockAskFor
  split
  · exact ⟨_, _, rfl⟩
  · exact ⟨_, _, rfl⟩

/-- Filing old requests adds nothing but them to the pool. -/
theorem fileOldRequests_frame (n : PbftNode H) (height : ℕ) (rs : List (Request H)) :
    ∃ pool h2d replied, n.fileOldRequests height rs =
      { n with requestPool := pool, height2Digest := h2d, isReply := replied } ∧
      ∀ d r, pool d = some r → n.requestPool d = some r ∨ (r ∈ rs ∧ Hashing.getDigest r = d) := by
  induction rs generalizing n height with
  | nil => exact ⟨_, _, _, rfl, fun _ _ h => Or.inl h⟩
  | cons r₀ rs ih =>
    obtain ⟨pool, h2d, replied, heq, hpool⟩ := ih
      { n.putRequest height r₀ with
        isReply := Function.update n.isReply (Hashing.getDigest r₀) true } (height + 1)
    refine ⟨pool, h2d, replied, heq, ?_⟩
    intro d r hr
    rcases hpool d r hr with hold | ⟨hmem, hd⟩
    · have hupd : Function.update n.requestPool (Hashing.getDigest r₀) (some r₀) d = some r := hold
      rw [Function.update_apply] at hupd
      split at hupd
      · next hd =>
          obtain rfl := Option.some.inj hupd
          exact Or.inr ⟨List.mem_cons_self, hd.symm⟩
      · exact Or.inl hupd
    · exact Or.inr ⟨List.mem_cons_of_mem _ hmem, hd⟩

theorem mem_oldRequests {n : PbftNode H} {count height : ℕ} {r : Request H}
    (h : r ∈ n.oldRequests count height) : ∃ d, n.requestPool d = some r := by
  induction count generalizing height with
  | zero => exact absurd h (by simp [oldRequests])
  | succ count ih =>
    rw [oldRequests] at h
    split at h
    · exact absurd h (by simp)
    · next r₀ hr₀ =>
        rcases List.mem_cons.1 h with rfl | hmem
        · obtain ⟨d, -, hd⟩ := Option.bind_eq_some_iff.1 hr₀
          exact ⟨d, hd⟩
        · exact ih hmem

/-- What the tail of `handleSendOldSeq` touches, and what it can send. -/
theorem reenter_frame (n : PbftNode H) :
    ∃ ask alive, n.reenter.1 = { n with askForLock := ask, alive := alive } ∧
      (n.reenter.2 = [] ∨ ∃ d r, n.requestPool d = some r ∧ ∃ seqID,
        n.reenter.2 = n.toOthers (.prepare (n.vote (Hashing.getDigest r) seqID))) := by
  obtain ⟨ask, alive, hask⟩ := n.unlockAskFor_frame
  unfold reenter
  split
  · exact ⟨ask, alive, hask, Or.inl rfl⟩
  next r hr =>
  split
  · exact ⟨_, _, rfl, Or.inl rfl⟩
  · exact ⟨ask, alive, hask, Or.inl rfl⟩
  · obtain ⟨d, -, hd⟩ := Option.bind_eq_some_iff.1 hr
    exact ⟨ask, alive, hask, Or.inr ⟨d, r, hd, _, rfl⟩⟩

/-- What `handleSendOldSeq` touches, and what it can send. -/
theorem handleSendOldSeq_frame (n : PbftNode H) (m : SendOldMessage H) :
    ∃ bc pool h2d replied seq ask alive, (n.handleSendOldSeq m).1 =
      { n with
        curChain := bc
        requestPool := pool
        height2Digest := h2d
        isReply := replied
        sequenceID := seq
        askForLock := ask
        alive := alive } ∧
      (∀ d r, pool d = some r →
        n.requestPool d = some r ∨ (r ∈ m.oldRequest ∧ Hashing.getDigest r = d)) ∧
      ((n.handleSendOldSeq m).2 = [] ∨ ∃ d r, pool d = some r ∧ ∃ seqID,
        (n.handleSendOldSeq m).2 = n.toOthers (.prepare (n.vote (Hashing.getDigest r) seqID))) := by
  unfold handleSendOldSeq
  split
  · exact ⟨_, _, _, _, _, _, _, rfl, fun _ _ h => Or.inl h, Or.inl rfl⟩
  next bc _ =>
  obtain ⟨pool, h2d, replied, heq, hpool⟩ :=
    fileOldRequests_frame { n with curChain := bc } m.seqStartHeight m.oldRequest
  rw [fileReply, heq]
  obtain ⟨ask, alive, hreenter, hmsgs⟩ := reenter_frame (H := H) _
  rw [hreenter]
  exact ⟨_, _, _, _, _, _, _, rfl, hpool, hmsgs⟩

/-! ## The routines of `Propose` -/

/-- The round timer sends its signal once the node is in stage 1. -/
def roundSignal (n : PbftNode H) : Option (PbftNode H) :=
  if n.pbftStage = 1 then some { n with signalled := true } else none

/-- A signal starts a routine; a node that is not the leader does not propose. -/
def takeSignal (n : PbftNode H) : Option (PbftNode H) :=
  if n.signalled then
    some { n with signalled := false, waiting := if n.isMain then n.waiting + 1 else n.waiting }
  else none

/-- A waiting routine gets the sequence lock. -/
def lockSequence (n : PbftNode H) : Option (PbftNode H) :=
  if 0 < n.waiting && !n.sequenceLock then
    some { n with waiting := n.waiting - 1, proposing := n.proposing + 1, sequenceLock := true }
  else none

/-- `HandleinPropose`: a block, or in the CLPA modules a partition request, whose contents come from
    the other shards; `none` is a panic. -/
def handleinPropose (n : PbftNode H) (partition : Option AccountTransferMsg) (now reqTime : ℕ) :
    Option (BlockChain H × Request H) :=
  match partition with
  | some atm => some (n.curChain, ⟨.partition atm, reqTime⟩)
  | none => (n.curChain.generateBlock n.nodeID now).map fun p => (p.1, ⟨.block p.2, reqTime⟩)

/-- The routine that holds the lock proposes. -/
def propose (n : PbftNode H) (partition : Option AccountTransferMsg) (now reqTime : ℕ) :
    Option (PbftNode H × Option (Request H) × List (ℕ × PbftMsg H)) :=
  if n.proposing = 0 || (partition.isSome && !n.handleType.partitions) then none
  else
    match n.handleinPropose partition now reqTime with
    | none => some (n.crash, none, [])
    | some (bc, r) =>
      some ({ n.putRequest n.sequenceID r with
          curChain := bc
          proposing := n.proposing - 1
          storing := n.storing + 1 },
        some r, n.toAll (.prePrepare ⟨r, Hashing.getDigest r, n.sequenceID⟩))

/-- A proposal panics, or files its request and sends it to all nodes. -/
theorem propose_cases {n n' : PbftNode H} {partition : Option AccountTransferMsg} {now reqTime : ℕ}
    {r : Option (Request H)} {msgs : List (ℕ × PbftMsg H)}
    (h : n.propose partition now reqTime = some (n', r, msgs)) :
    0 < n.proposing ∧ (partition.isSome = true → n.handleType.partitions = true) ∧
      ((n' = n.crash ∧ r = none ∧ msgs = []) ∨
        ∃ bc req, n.handleinPropose partition now reqTime = some (bc, req) ∧
          n' = { n.putRequest n.sequenceID req with
            curChain := bc
            proposing := n.proposing - 1
            storing := n.storing + 1 } ∧
          r = some req ∧
          msgs = n.toAll (.prePrepare ⟨req, Hashing.getDigest req, n.sequenceID⟩)) := by
  unfold propose at h
  split at h
  · exact absurd h (by simp)
  next hmay =>
  refine ⟨Nat.pos_of_ne_zero fun h0 => hmay (by simp [h0]), ?_, ?_⟩
  · intro hp
    cases hht : n.handleType.partitions with
    | true => rfl
    | false => exact absurd (by simp [hp, hht]) hmay
  · split at h
    · simp only [Option.some.injEq, Prod.mk.injEq] at h
      exact Or.inl ⟨h.1.symm, h.2.1.symm, h.2.2.symm⟩
    · next bc req hreq =>
        simp only [Option.some.injEq, Prod.mk.injEq] at h
        exact Or.inr ⟨bc, req, hreq, h.1.symm, h.2.1.symm, h.2.2.symm⟩

/-- The last line of the routine. -/
def storeStage (n : PbftNode H) : Option (PbftNode H) :=
  if 0 < n.storing then some { n with storing := n.storing - 1, pbftStage := 2 } else none

end PbftNode

end BlockEmulator
