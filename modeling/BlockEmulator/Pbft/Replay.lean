import BlockEmulator.Pbft.CatchUp

set_option autoImplicit false

/-! # The answer to a request for old requests

`handleSendOldSeq` hands the answer to the module (`HandleforSequentialRequest`), which checks that as
many requests came as were asked for and executes them. Then, whatever the module has done, the
handler files the requests as done, moves to the sequence number after the last one asked for, and
votes in the new round if it has its request. Three comparisons:

* between the modules: the raw broker module computes the expected count with the subtraction the
  other way round, so that it never replays a complete answer (`modules_replay_alike_iff`);
* between an incomplete answer and none: the check is the module's, and the handler does not learn of
  its outcome (`incomplete_answer_changes_nothing_iff`);
* between the vote in the new round and that of `handlePrePrepare`: the node does not vote for itself
  and stays in the first stage (`reenter_never_agrees`). -/

namespace BlockEmulator

variable {H : Type} [DecidableEq H] [Hashing H]

/-! ## The modules -/

/-- What `HandleforSequentialRequest` leaves behind: whether it has taken the branch that replays, the
    chain, the sequence number, and how the loop has ended. -/
structure Replayed (H : Type) [DecidableEq H] [Hashing H] where
  replays : Bool
  chain : BlockChain H
  sequenceID : ℕ
  ended : HandleType.ReplayEnd

namespace HandleType

/-- `HandleforSequentialRequest`, with the sequence number it sets. -/
def replayed (ht : HandleType) (bc : BlockChain H) (sequenceID : ℕ) (m : SendOldMessage H) :
    Replayed H :=
  if ht.enoughOldRequests m.seqStartHeight m.seqEndHeight m.oldRequest.length then
    let r := ht.replay m.seqEndHeight bc m.seqStartHeight m.oldRequest
    { replays := true
      chain := r.1
      sequenceID := if r.2 = .finished then u64 (m.seqEndHeight + 1) else sequenceID
      ended := r.2 }
  else { replays := false, chain := bc, sequenceID := sequenceID, ended := .finished }

/-- Its chain and its outcome are those the handler of the node goes on with. -/
theorem handleforSequentialRequest_eq (ht : HandleType) (bc : BlockChain H) (sequenceID : ℕ)
    (m : SendOldMessage H) :
    ht.handleforSequentialRequest bc m.seqStartHeight m.seqEndHeight m.oldRequest =
      ((ht.replayed bc sequenceID m).chain,
        decide ((ht.replayed bc sequenceID m).ended = .finished)) := by
  unfold handleforSequentialRequest replayed
  split <;> rfl

theorem replayed_replays (ht : HandleType) (bc : BlockChain H) (sequenceID : ℕ)
    (m : SendOldMessage H) : (ht.replayed bc sequenceID m).replays =
      ht.enoughOldRequests m.seqStartHeight m.seqEndHeight m.oldRequest.length := by
  unfold replayed
  split
  · next h => exact h.symm
  · next h => exact (Bool.eq_false_iff.2 h).symm

theorem replayed_of_not_enough {ht : HandleType} {m : SendOldMessage H}
    (h : ht.enoughOldRequests m.seqStartHeight m.seqEndHeight m.oldRequest.length = false)
    (bc : BlockChain H) (sequenceID : ℕ) :
    ht.replayed bc sequenceID m = ⟨false, bc, sequenceID, .finished⟩ := by
  rw [replayed, if_neg (by simp [h])]

/-- The number of heights asked for. -/
def heights (seqStart seqEnd : ℕ) : ℕ := seqEnd + 1 - seqStart

/-- The check of three of the modules takes the complete answer, unless the count is not an `int`; and
    for all heights there are, the empty one. -/
theorem enoughOldRequests_iff {ht : HandleType} (hht : ht ≠ .broker) {seqStart seqEnd : ℕ}
    (hend : seqEnd < 2 ^ 64) (hle : seqStart ≤ seqEnd + 1) (count : ℕ) :
    ht.enoughOldRequests seqStart seqEnd count = true ↔
      (count = heights seqStart seqEnd ∧ heights seqStart seqEnd < 2 ^ 63) ∨
        (count = 0 ∧ heights seqStart seqEnd = 2 ^ 64) := by
  have hcheck : ht.enoughOldRequests seqStart seqEnd count =
      decide (Int.bmod ((seqEnd : ℤ) - seqStart + 1) (2 ^ 64) = count) := by
    cases ht with
    | broker => exact absurd rfl hht
    | _ => rfl
  rw [hcheck, decide_eq_true_eq, Int.bmod_def]
  unfold heights
  omega

/-- That of the raw broker module takes an answer of the count that makes up one with the number of
    heights, in the arithmetic of `uint64`. -/
theorem enoughOldRequests_broker_iff {seqStart seqEnd : ℕ} (hstart : seqStart < 2 ^ 64)
    (hend : seqEnd < 2 ^ 64) (hle : seqStart ≤ seqEnd + 1) (count : ℕ) :
    broker.enoughOldRequests seqStart seqEnd count = true ↔
      count + heights seqStart seqEnd = 1 ∨
        (2 ^ 63 + 1 < heights seqStart seqEnd ∧
          count + heights seqStart seqEnd = 2 ^ 64 + 1) := by
  rw [enoughOldRequests, decide_eq_true_eq, Int.bmod_def]
  unfold heights
  omega

end HandleType

/-- The modules end with the same chain and sequence number, replay exactly a complete answer, and
    never read beyond its requests. -/
structure ReplayAlike (bc : BlockChain H) (sequenceID : ℕ) (m : SendOldMessage H) : Prop where
  chain : ∀ ht ht' : HandleType,
    (ht.replayed bc sequenceID m).chain = (ht'.replayed bc sequenceID m).chain
  number : ∀ ht ht' : HandleType,
    (ht.replayed bc sequenceID m).sequenceID = (ht'.replayed bc sequenceID m).sequenceID
  complete : ∀ ht : HandleType, (ht.replayed bc sequenceID m).replays = true ↔
    m.oldRequest.length = HandleType.heights m.seqStartHeight m.seqEndHeight
  inRange : ∀ ht : HandleType, (ht.replayed bc sequenceID m).ended ≠ .outOfRange

/-- The answer is incomplete, and its length is none that a module takes for complete. -/
def NotTaken (seqStart seqEnd count : ℕ) : Prop :=
  count ≠ HandleType.heights seqStart seqEnd ∧
  count + HandleType.heights seqStart seqEnd ≠ 1 ∧
  ¬(2 ^ 63 + 1 < HandleType.heights seqStart seqEnd ∧
    count + HandleType.heights seqStart seqEnd = 2 ^ 64 + 1) ∧
  ¬(count = 0 ∧ HandleType.heights seqStart seqEnd = 2 ^ 64)

/-- **The modules replay alike** exactly where none of them replays: the answer is incomplete, and
    neither the swapped subtraction of the raw broker module nor a range of all `uint64` values makes
    a module take it for complete. -/
theorem modules_replay_alike_iff (bc : BlockChain H) (sequenceID : ℕ) {m : SendOldMessage H}
    (hstart : m.seqStartHeight < 2 ^ 64) (hend : m.seqEndHeight < 2 ^ 64)
    (hle : m.seqStartHeight ≤ m.seqEndHeight + 1) :
    ReplayAlike bc sequenceID m ↔
      NotTaken m.seqStartHeight m.seqEndHeight m.oldRequest.length := by
  have hbroker := HandleType.enoughOldRequests_broker_iff hstart hend hle m.oldRequest.length
  have hothers := fun (ht : HandleType) (hht : ht ≠ .broker) =>
    HandleType.enoughOldRequests_iff hht hend hle m.oldRequest.length
  constructor
  · intro h
    have hcomplete := h.complete
    simp only [HandleType.replayed_replays] at hcomplete
    have hb := hcomplete .broker
    have hr := hcomplete .relay
    rw [hbroker] at hb
    rw [hothers .relay (by simp)] at hr
    -- twice the number of heights is even, so the broker module takes no complete answer
    unfold NotTaken
    omega
  · rintro ⟨hincomplete, hone, hwrap, hall⟩
    have hnot : ∀ ht : HandleType,
        ht.enoughOldRequests m.seqStartHeight m.seqEndHeight m.oldRequest.length = false := by
      intro ht
      rw [Bool.eq_false_iff]
      intro henough
      by_cases hht : ht = .broker
      · subst hht
        rcases hbroker.1 henough with h | h
        · exact hone h
        · exact hwrap h
      · rcases (hothers ht hht).1 henough with h | h
        · exact hincomplete h.1
        · exact hall h
    have hsame := fun ht => HandleType.replayed_of_not_enough (hnot ht) bc sequenceID
    refine ⟨?_, ?_, ?_, ?_⟩
    · intro ht ht'
      rw [hsame, hsame]
    · intro ht ht'
      rw [hsame, hsame]
    · intro ht
      rw [hsame]
      exact iff_of_false (by simp) hincomplete
    · intro ht
      rw [hsame]
      simp

section Sample

open BlockChain PbftNode

/-- The answer with the first block of the sample chain, to a node that has asked for it. -/
def firstBlock : SendOldMessage SymHash := ⟨1, 1, [⟨.block (sampleBlock 1), 0⟩], 0⟩

/-- The relay module adds the block, the broker module does not; and for the same range the broker
    module takes the empty answer for complete and reads beyond it. -/
theorem modules_replay_differently :
    (HandleType.relay.replayed sampleGenesis 1 firstBlock).chain.height = 1 ∧
    (HandleType.relay.replayed sampleGenesis 1 firstBlock).sequenceID = 2 ∧
    (HandleType.broker.replayed sampleGenesis 1 firstBlock).chain.height = 0 ∧
    (HandleType.broker.replayed sampleGenesis 1 firstBlock).sequenceID = 1 ∧
    (HandleType.broker.replayed sampleGenesis 1 { firstBlock with oldRequest := [] }).ended =
      .outOfRange := by decide +kernel

/-- Half of an answer is left alone by all modules. -/
theorem modules_replay_alike_of_half :
    ReplayAlike sampleGenesis 1 { firstBlock with seqEndHeight := 2 } := by
  have hnot : NotTaken 1 2 1 := by
    unfold NotTaken HandleType.heights
    decide
  exact (modules_replay_alike_iff sampleGenesis 1 (m := { firstBlock with seqEndHeight := 2 })
    (by decide) (by decide) (by decide)).2 hnot

end Sample

/-! ## An incomplete answer -/

/-- Fewer requests came than were asked for. -/
def SendOldMessage.Incomplete (m : SendOldMessage H) : Prop :=
  m.oldRequest.length < HandleType.heights m.seqStartHeight m.seqEndHeight

namespace PbftNode

/-- The process has gone on, and the chain, with its partition map, the sequence number and the flags of
    the replied requests are what they were. A flag of an executed request is up already and is never
    taken down. -/
structure Untouched (n n' : PbftNode H) : Prop where
  alive : n'.alive = true
  curChain : n'.curChain = n.curChain
  sequenceID : n'.sequenceID = n.sequenceID
  isReply : ∀ d, n'.isReply d = n.isReply d

/-- The answer says nothing new: the module's check refuses it, the node is at the number after it, and
    all its requests count as replied. And the rest of the handler does not panic: the node has asked
    for old requests, and the module can read the request that is stored for the round, if there is
    one. -/
structure SaysNothing (n : PbftNode H) (m : SendOldMessage H) : Prop where
  refused : n.handleType.enoughOldRequests m.seqStartHeight m.seqEndHeight m.oldRequest.length = false
  sequenceID : n.sequenceID = u64 (m.seqEndHeight + 1)
  replied : ∀ r ∈ m.oldRequest, n.isReply (Hashing.getDigest r) = true
  asked : n.askForLock = true
  readable : ∀ r, (n.fileReply m).oldRequestAt (u64 (m.seqEndHeight + 1)) = some r →
    n.handleType.handleinPrePrepare n.curChain r ≠ none

theorem fileOldRequests_isReply (n : PbftNode H) (height : ℕ) (rs : List (Request H)) (d : H) :
    (n.fileOldRequests height rs).isReply d =
      (n.isReply d || rs.any fun r => Hashing.getDigest r = d) := by
  induction rs generalizing n height with
  | nil => simp [fileOldRequests]
  | cons r rs ih =>
    rw [fileOldRequests, ih, List.any_cons]
    by_cases hd : d = Hashing.getDigest r
    · subst hd
      simp
    · simp [Function.update_of_ne hd, Ne.symm hd]

/-- The flags stay as they are exactly if all requests of the answer count as replied before. -/
theorem fileReply_isReply_iff (n : PbftNode H) (m : SendOldMessage H) :
    (∀ d, (n.fileReply m).isReply d = n.isReply d) ↔
      ∀ r ∈ m.oldRequest, n.isReply (Hashing.getDigest r) = true := by
  constructor
  · intro h r hr
    rw [← h, fileReply, fileOldRequests_isReply, Bool.or_eq_true]
    exact .inr (List.any_eq_true.2 ⟨r, hr, by simp⟩)
  · intro h d
    rw [fileReply, fileOldRequests_isReply]
    cases hd : n.isReply d with
    | true => rfl
    | false =>
      rw [Bool.false_or, List.any_eq_false]
      intro r hr heq
      rw [← of_decide_eq_true heq, h r hr] at hd
      exact absurd hd (by simp)

/-- What the handler does when the module has survived. -/
theorem handleSendOldSeq_of_survives {n : PbftNode H} {m : SendOldMessage H} {bc : BlockChain H}
    (h : n.handleType.handleforSequentialRequest n.curChain m.seqStartHeight m.seqEndHeight
      m.oldRequest = (bc, true)) :
    n.handleSendOldSeq m = ({ n with curChain := bc }.fileReply m).reenter := by
  rw [handleSendOldSeq, h]

theorem unlockAskFor_alive (n : PbftNode H) :
    n.unlockAskFor.alive = (n.alive && n.askForLock) := by
  unfold unlockAskFor
  split
  · next h => simp [h]
  · next h => simp [h, crash]

/-- The tail survives if the lock is held and the stored request can be read. -/
theorem reenter_alive_iff {n : PbftNode H} (halive : n.alive = true) :
    n.reenter.1.alive = true ↔ n.askForLock = true ∧
      ∀ r, n.oldRequestAt n.sequenceID = some r →
        n.handleType.handleinPrePrepare n.curChain r ≠ none := by
  have hunlock : n.unlockAskFor.alive = n.askForLock := by
    rw [unlockAskFor_alive, halive, Bool.true_and]
  unfold reenter
  cases hstored : n.oldRequestAt n.sequenceID with
  | none => simp [hunlock]
  | some r =>
    cases hread : n.handleType.handleinPrePrepare n.curChain r with
    | none => simp [hread, crash]
    | some valid => cases valid <;> simp [hread, hunlock]

/-- Filing the requests leaves the rest of the node alone. -/
theorem fileReply_frame (n : PbftNode H) (m : SendOldMessage H) :
    (n.fileReply m).alive = n.alive ∧ (n.fileReply m).askForLock = n.askForLock ∧
      (n.fileReply m).handleType = n.handleType ∧ (n.fileReply m).curChain = n.curChain := by
  obtain ⟨pool, h2d, replied, hfiled, -⟩ := n.fileOldRequests_frame m.seqStartHeight m.oldRequest
  rw [fileReply, hfiled]
  exact ⟨rfl, rfl, rfl, rfl⟩

/-- **An incomplete answer changes nothing** exactly if it says nothing new. Otherwise the node panics,
    or goes to the sequence number after the answer, with the chain it had, and takes the requests that
    came for executed. -/
theorem incomplete_answer_changes_nothing_iff {n : PbftNode H} (halive : n.alive = true)
    {m : SendOldMessage H} (hinc : m.Incomplete) :
    n.Untouched (n.handleSendOldSeq m).1 ↔ n.SaysNothing m := by
  have hlt : m.oldRequest.length < m.seqEndHeight + 1 - m.seqStartHeight := hinc
  cases hcheck : n.handleType.enoughOldRequests m.seqStartHeight m.seqEndHeight
      m.oldRequest.length with
  | true =>
    -- the loop ends with a panic, and the handler with it
    have hpanics : n.handleType.handleforSequentialRequest n.curChain m.seqStartHeight m.seqEndHeight
        m.oldRequest = ((n.handleType.sequentialRequests n.curChain m.oldRequest).1, false) := by
      rw [HandleType.handleforSequentialRequest, if_pos hcheck]
      simp only [HandleType.replay_fst _ hlt.le, HandleType.replay_snd_ne_finished _ hlt,
        decide_false]
    refine iff_of_false ?_ fun h => by simp [h.refused] at hcheck
    intro h
    have hdead := h.alive
    rw [handleSendOldSeq, hpanics] at hdead
    exact absurd hdead (by simp [crash])
  | false =>
    have hsurvives : n.handleType.handleforSequentialRequest n.curChain m.seqStartHeight
        m.seqEndHeight m.oldRequest = (n.curChain, true) := by
      rw [HandleType.handleforSequentialRequest, if_neg (by simp [hcheck])]
    obtain ⟨hfalive, hfask, hftype, hfchain⟩ := n.fileReply_frame m
    have htail := reenter_alive_iff (hfalive.trans halive)
    rw [hfask, hftype, hfchain] at htail
    obtain ⟨ask, alive, hreenter, -⟩ := reenter_frame (n.fileReply m)
    rw [handleSendOldSeq_of_survives hsurvives]
    constructor
    · intro h
      obtain ⟨hasked, hreadable⟩ := htail.1 h.alive
      have hseq := h.sequenceID
      have hflags := h.isReply
      rw [hreenter] at hseq hflags
      exact ⟨hcheck, hseq.symm, (n.fileReply_isReply_iff m).1 hflags, hasked, hreadable⟩
    · intro h
      have halive' := htail.2 ⟨h.asked, h.readable⟩
      refine ⟨halive', ?_, ?_, ?_⟩
      · rw [hreenter]
        exact hfchain
      · rw [hreenter]
        exact h.sequenceID.symm
      · rw [hreenter]
        exact (n.fileReply_isReply_iff m).2 h.replied

section Sample

open BlockChain

/-- A leader that has proposed one block. -/
def halfLeader : PbftNode SymHash :=
  (newPbftNode 0 4 .relay sampleGenesis).putRequest 1 ⟨.block (sampleBlock 1), 0⟩

/-- A node that waits for old requests. -/
def asking : PbftNode SymHash := { newPbftNode 3 4 .relay sampleGenesis with askForLock := true }

/-- What the leader answers to a request for two. -/
def halfAnswer : SendOldMessage SymHash :=
  { seqStartHeight := 1
    seqEndHeight := 2
    oldRequest := halfLeader.oldRequests 2 1
    senderNode := 0 }

/-- Of two requests the leader has one. The node does not execute it, but takes it for executed, and
    goes on with the third round. -/
theorem incomplete_answer_skips_rounds :
    (halfLeader.handleRequestOldSeq ⟨1, 2, 0, 3⟩).2 = [(3, .sendOld halfAnswer)] ∧
      halfAnswer.oldRequest.length = 1 ∧ halfAnswer.Incomplete ∧ asking.sequenceID = 1 ∧
      asking.isReply (Hashing.getDigest ⟨.block (sampleBlock 1), 0⟩) = false ∧
      (asking.handleSendOldSeq halfAnswer).1.sequenceID = 3 ∧
      (asking.handleSendOldSeq halfAnswer).1.curChain.height = 0 ∧
      (asking.handleSendOldSeq halfAnswer).1.isReply
        (Hashing.getDigest ⟨.block (sampleBlock 1), 0⟩) = true := by
  refine ⟨rfl, by decide +kernel, ?_, by decide +kernel, by decide +kernel,
    by decide +kernel, by decide +kernel, by decide +kernel⟩
  unfold SendOldMessage.Incomplete HandleType.heights
  decide +kernel

/-- What a leader without any of them answers. -/
def emptyAnswer : SendOldMessage SymHash := ⟨1, 2, [], 0⟩

/-- A node that is past the answer is left as it was. -/
theorem late_answer_changes_nothing :
    ∃ n : PbftNode SymHash, n.sequenceID = 3 ∧
      n.Untouched (n.handleSendOldSeq emptyAnswer).1 := by
  refine ⟨{ asking with sequenceID := 3 }, rfl, ?_⟩
  have hinc : emptyAnswer.Incomplete := by
    unfold SendOldMessage.Incomplete HandleType.heights
    decide
  refine (incomplete_answer_changes_nothing_iff rfl hinc).2 ⟨by decide, rfl, ?_, rfl, ?_⟩
  · exact fun r hr => absurd hr List.not_mem_nil
  · exact fun r hr => absurd hr (by simp [asking, emptyAnswer, fileReply, fileOldRequests,
      oldRequestAt, newPbftNode])

end Sample

/-! ## Into the new round -/

/-- The proposal of the request that the node has for its round. -/
def prePrepareOf (n : PbftNode H) (r : Request H) : PrePrepare H :=
  ⟨r, Hashing.getDigest r, n.sequenceID⟩

/-- The tail of `handleSendOldSeq` when there is a valid request. -/
theorem reenter_of_valid {n : PbftNode H} {r : Request H}
    (hstored : n.oldRequestAt n.sequenceID = some r)
    (hvalid : n.handleType.handleinPrePrepare n.curChain r = some true) :
    n.reenter = (n.unlockAskFor,
      n.toOthers (.prepare (n.vote (Hashing.getDigest r) n.sequenceID))) := by
  rw [reenter, hstored]
  simp only [hvalid]

/-- `handlePrePrepare` on its proposal. -/
theorem handlePrePrepare_of_valid {n : PbftNode H} {r : Request H} (hfree : n.blocked = none)
    (hstage : n.pbftStage = 1)
    (hvalid : n.handleType.handleinPrePrepare n.curChain r = some true) :
    n.handlePrePrepare (n.prePrepareOf r) =
      some ({ n.putRequest n.sequenceID r with pbftStage := 2 },
        n.toAll (.prepare (n.vote (Hashing.getDigest r) n.sequenceID))) := by
  simp [handlePrePrepare, prePrepareOf, hfree, hstage, hvalid]

/-- The node's own vote. -/
theorem mem_toAll {n : PbftNode H} (hid : n.nodeID < n.nodeNums) (m : PbftMsg H) :
    (n.nodeID, m) ∈ n.toAll m :=
  List.mem_map.2 ⟨n.nodeID, List.mem_range.2 hid, rfl⟩

theorem not_mem_toOthers (n : PbftNode H) (m m' : PbftMsg H) : (n.nodeID, m) ∉ n.toOthers m' := by
  intro h
  exact absurd (List.mem_filter.1 h).2 (by simp)

/-- **Into the new round.** A node in the first stage has caught up, and has a valid request for its
    new round. Then `handleSendOldSeq` never does what `handlePrePrepare` would do on the proposal of
    that request: it leaves the node in the first stage, and does not send the vote to the node
    itself. -/
theorem reenter_never_agrees {n n' : PbftNode H} {m : SendOldMessage H} {bc : BlockChain H}
    {r : Request H}
    (hreplayed : n.handleType.handleforSequentialRequest n.curChain m.seqStartHeight m.seqEndHeight
      m.oldRequest = (bc, true)) (hn' : n' = { n with curChain := bc }.fileReply m)
    (hstage : n'.pbftStage = 1) (hstored : n'.oldRequestAt n'.sequenceID = some r)
    (hvalid : n'.handleType.handleinPrePrepare n'.curChain r = some true) :
    (¬∃ n'' msgs, n'.handlePrePrepare (n'.prePrepareOf r) = some (n'', msgs) ∧
      (n.handleSendOldSeq m).1.pbftStage = n''.pbftStage ∧ (n.handleSendOldSeq m).2 = msgs) ∧
    (n'.blocked = none → ∃ n'' msgs,
      n'.handlePrePrepare (n'.prePrepareOf r) = some (n'', msgs) ∧
      (n.handleSendOldSeq m).1.pbftStage = 1 ∧ n''.pbftStage = 2 ∧
      (n'.nodeID < n'.nodeNums → ∃ v,
        (n'.nodeID, .prepare v) ∈ msgs ∧ (n'.nodeID, .prepare v) ∉ (n.handleSendOldSeq m).2)) := by
  have htail : n.handleSendOldSeq m = n'.reenter := by
    rw [handleSendOldSeq_of_survives hreplayed, hn']
  have hone : n'.reenter.1.pbftStage = 1 := by
    obtain ⟨ask, alive, heq, -⟩ := n'.reenter_frame
    rw [heq]
    exact hstage
  rw [htail]
  constructor
  · rintro ⟨n'', msgs, hpre, heq, -⟩
    cases hblocked : n'.blocked with
    | some v => simp [handlePrePrepare, hblocked] at hpre
    | none =>
      rw [handlePrePrepare_of_valid hblocked hstage hvalid] at hpre
      obtain ⟨rfl, -⟩ := Prod.mk.inj (Option.some.inj hpre)
      rw [hone] at heq
      exact absurd heq (by simp)
  · intro hblocked
    refine ⟨_, _, handlePrePrepare_of_valid hblocked hstage hvalid, hone, rfl, ?_⟩
    intro hid
    refine ⟨_, mem_toAll hid _, ?_⟩
    rw [reenter_of_valid hstored hvalid]
    exact not_mem_toOthers _ _ _

section Sample

open BlockChain

/-- A node that has asked for the first block and has the proposal of the second. -/
def oneBehind : PbftNode SymHash := asking.putRequest 2 ⟨.block (sampleBlock 2), 0⟩

/-- Before the tail: at height 1, in the round of the block it has. -/
def oneCaughtUp : PbftNode SymHash := { oneBehind with curChain := chainUpTo 1 }.fileReply firstBlock

/-- The first block comes, and the node is in the second round with its proposal. It votes, but not to
    itself, and is in the first stage: prepare messages of the round make it wait. On the proposal it
    would have gone on. -/
theorem caught_up_node_waits :
    (oneBehind.handleSendOldSeq firstBlock).1.curChain.height = 1 ∧
      (oneBehind.handleSendOldSeq firstBlock).1.sequenceID = 2 ∧
      (oneBehind.handleSendOldSeq firstBlock).1.pbftStage = 1 ∧
      (oneBehind.handleSendOldSeq firstBlock).2.map Prod.fst = [0, 1, 2] ∧
      ∃ p ∈ oneCaughtUp.handlePrePrepare (oneCaughtUp.prePrepareOf ⟨.block (sampleBlock 2), 0⟩),
        p.1.pbftStage = 2 ∧ p.2.map Prod.fst = [0, 1, 2, 3] := by decide +kernel

/-- So the two differ. -/
theorem reenter_never_agrees_oneBehind :
    ¬∃ n'' msgs,
      oneCaughtUp.handlePrePrepare (oneCaughtUp.prePrepareOf ⟨.block (sampleBlock 2), 0⟩) =
        some (n'', msgs) ∧
      (oneBehind.handleSendOldSeq firstBlock).1.pbftStage = n''.pbftStage ∧
      (oneBehind.handleSendOldSeq firstBlock).2 = msgs := by
  have hadd : sampleGenesis.addBlocks [sampleBlock 1] = some (chainUpTo 1) := by
    have hsome : sampleGenesis.addBlocks ((List.range' 1 1).map sampleBlock) ≠ none := by
      decide +kernel
    obtain ⟨bc, hbc⟩ := Option.ne_none_iff_exists'.1 hsome
    rw [chainUpTo, hbc]
    exact hbc
  have hreplayed : HandleType.relay.handleforSequentialRequest sampleGenesis 1 1
      firstBlock.oldRequest = (chainUpTo 1, true) := by
    rw [HandleType.handleforSequentialRequest, if_pos (by decide),
      HandleType.replay_of_length _ (by decide) (by decide)
        (sequentialRequests_of_blocks _ rfl hadd)]
    simp
  exact (reenter_never_agrees (n := oneBehind) (m := firstBlock) hreplayed rfl rfl (by decide +kernel)
    (by decide +kernel)).1

end Sample

end PbftNode

end BlockEmulator
