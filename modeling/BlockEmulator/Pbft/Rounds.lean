import BlockEmulator.Pbft.Quorum
import Mathlib.Data.Multiset.Basic

set_option autoImplicit false

/-! # A follower and the messages of several rounds

All messages that the other nodes send a follower for its next rounds are in its inbox. A handler
that cannot run yet waits, and any one that can may run next. When messages are handled no earlier
than in their round, the follower executes all rounds in order and is left with handlers of old
messages only. A message that is handled earlier may be lost: an early `PrePrepare` is filed but never
answered, and an early `Prepare` is dropped. -/

namespace BlockEmulator

variable {H : Type} [DecidableEq H] [Hashing H]

/-! ## Rounds and their messages -/

/-- The request of a round and the nodes that send prepare and commit messages for it. -/
structure Round (H : Type) where
  request : Request H
  preparers : List ℕ
  committers : List ℕ

namespace Round

def digest (R : Round H) : H := Hashing.getDigest R.request

def prepares (R : Round H) (seqID : ℕ) (ids : List ℕ) : List (PbftMsg H) :=
  ids.map fun i => .prepare ⟨R.digest, seqID, i⟩

def commits (R : Round H) (seqID : ℕ) (ids : List ℕ) : List (PbftMsg H) :=
  ids.map fun i => .commit ⟨R.digest, seqID, i⟩

/-- All messages of the round. -/
def msgs (R : Round H) (seqID : ℕ) : List (PbftMsg H) :=
  .prePrepare ⟨R.request, R.digest, seqID⟩ ::
    (R.prepares seqID R.preparers ++ R.commits seqID R.committers)

end Round

/-- The messages of successive rounds. -/
def roundMsgs : ℕ → List (Round H) → List (PbftMsg H)
  | _, [] => []
  | seqID, R :: Rs => R.msgs seqID ++ roundMsgs (seqID + 1) Rs

/-- The sequence number of a message of the three phases. -/
def PbftMsg.seqID : PbftMsg H → Option ℕ
  | .prePrepare m => some m.seqID
  | .prepare m => some m.seqID
  | .commit m => some m.seqID
  | _ => none

omit [DecidableEq H] in
theorem seqID_of_mem_msgs {R : Round H} {seqID : ℕ} {m : PbftMsg H} (hm : m ∈ R.msgs seqID) :
    m.seqID = some seqID := by
  simp only [Round.msgs, Round.prepares, Round.commits, List.mem_cons, List.mem_append,
    List.mem_map] at hm
  rcases hm with rfl | ⟨i, -, rfl⟩ | ⟨i, -, rfl⟩ <;> rfl

omit [DecidableEq H] in
theorem seqID_of_mem_roundMsgs {Rs : List (Round H)} {seqID : ℕ} {m : PbftMsg H}
    (hm : m ∈ roundMsgs seqID Rs) : ∃ k, m.seqID = some k ∧ seqID ≤ k := by
  induction Rs generalizing seqID with
  | nil => exact absurd hm (by simp [roundMsgs])
  | cons R Rs ih =>
    rcases List.mem_append.1 hm with hR | hRs
    · exact ⟨seqID, seqID_of_mem_msgs hR, le_rfl⟩
    · obtain ⟨k, hk, hle⟩ := ih hRs
      exact ⟨k, hk, by omega⟩

/-! ## The follower and its inbox -/

/-- A node, the messages whose handlers have not finished, and the digests it has executed. -/
structure Inbox (H : Type) [DecidableEq H] [Hashing H] where
  node : PbftNode H
  pending : List (PbftMsg H)
  executed : List H := []

namespace Inbox

/-- One of the handlers runs. -/
def step (t : Inbox H) (k : ℕ) : Option (Inbox H) :=
  match t.pending[k]? with
  | none => none
  | some m =>
    if t.node.alive then
      (t.node.handleMessage m).map fun p =>
        ⟨p.1, t.pending.eraseIdx k, t.executed ++ (t.node.executing (.deliver m)).toList⟩
    else none

/-- The message is not of a round that the node has yet to come to. -/
def InRound (t : Inbox H) (k : ℕ) : Prop :=
  ∀ m ∈ t.pending[k]?, ∀ seqID ∈ m.seqID, seqID ≤ t.node.sequenceID

instance (t : Inbox H) (k : ℕ) : Decidable (t.InRound k) :=
  inferInstanceAs (Decidable (∀ m ∈ t.pending[k]?, ∀ seqID ∈ m.seqID, seqID ≤ t.node.sequenceID))

/-- No handler can run any further. -/
def Settled (t : Inbox H) : Prop := ∀ m ∈ t.pending, (t.node.handleMessage m).isNone = true

instance (t : Inbox H) : Decidable t.Settled :=
  inferInstanceAs (Decidable (∀ m ∈ t.pending, (t.node.handleMessage m).isNone = true))

theorem step_cases {t t' : Inbox H} {k : ℕ} (h : t.step k = some t') :
    ∃ m n msgs, t.pending[k]? = some m ∧ t.node.handleMessage m = some (n, msgs) ∧
      (t.pending : Multiset (PbftMsg H)) = m ::ₘ (t'.pending : Multiset (PbftMsg H)) ∧
      t'.node = n ∧ t'.executed = t.executed ++ (t.node.executing (.deliver m)).toList := by
  unfold step at h
  split at h
  · exact absurd h (by simp)
  next m hk =>
  obtain ⟨-, h⟩ := Option.ite_none_right_eq_some.1 h
  obtain ⟨⟨n, msgs⟩, hn, rfl⟩ := Option.map_eq_some_iff.1 h
  refine ⟨m, n, msgs, hk, hn, ?_, rfl, rfl⟩
  obtain ⟨hlt, rfl⟩ := List.getElem?_eq_some_iff.1 hk
  exact Multiset.coe_eq_coe.2 (List.getElem_cons_eraseIdx_perm hlt).symm

end Inbox

/-! ## What the follower expects -/

/-- The requests can be accepted and executed one after the other. -/
def Executable (ht : HandleType) : BlockChain H → List (Request H) → Prop
  | _, [] => True
  | bc, r :: rs => ht.handleinPrePrepare bc r = some true ∧ (ht.handleinCommit false bc r).2 = true ∧
      Executable ht (ht.handleinCommit false bc r).1 rs

instance decidableExecutable (ht : HandleType) :
    (bc : BlockChain H) → (rs : List (Request H)) → Decidable (Executable ht bc rs)
  | _, [] => .isTrue trivial
  | bc, r :: rs =>
    have := decidableExecutable ht (ht.handleinCommit false bc r).1 rs
    inferInstanceAs (Decidable (_ ∧ _ ∧ _))

namespace PbftNode

/-- The node has counted no vote for the digest and answered none. -/
structure Unseen (n : PbftNode H) (d : H) : Prop where
  prepares : n.cntPrepareConfirm d = []
  commits : n.cntCommitConfirm d = []
  committed : n.isCommitBordcast d = false
  replied : n.isReply d = false

/-- A follower in stage 1 that has yet to come to the rounds, whose requests it can execute and for
    which enough nodes vote. -/
structure Awaits (n : PbftNode H) (rounds : List (Round H)) : Prop where
  alive : n.alive = true
  follower : n.isMain = false
  unblocked : n.blocked = none
  stage : n.pbftStage = 1
  unseen : ∀ R ∈ rounds, n.Unseen R.digest
  distinct : (rounds.map Round.digest).Nodup
  enough : ∀ R ∈ rounds, n.quorum ≤ R.preparers.length ∧ n.quorum ≤ R.committers.length
  executable : Executable n.handleType n.curChain (rounds.map Round.request)

instance (n : PbftNode H) (d : H) : Decidable (n.Unseen d) :=
  decidable_of_iff (n.cntPrepareConfirm d = [] ∧ n.cntCommitConfirm d = [] ∧
      n.isCommitBordcast d = false ∧ n.isReply d = false)
    ⟨fun h => ⟨h.1, h.2.1, h.2.2.1, h.2.2.2⟩, fun h => ⟨h.1, h.2, h.3, h.4⟩⟩

instance (n : PbftNode H) (rounds : List (Round H)) : Decidable (n.Awaits rounds) :=
  decidable_of_iff (n.alive = true ∧ n.isMain = false ∧ n.blocked.isNone = true ∧ n.pbftStage = 1 ∧
      (∀ R ∈ rounds, n.Unseen R.digest) ∧ (rounds.map Round.digest).Nodup ∧
      (∀ R ∈ rounds, n.quorum ≤ R.preparers.length ∧ n.quorum ≤ R.committers.length) ∧
      Executable n.handleType n.curChain (rounds.map Round.request))
    ⟨fun ⟨h₁, h₂, h₃, h₄, h₅, h₆, h₇, h₈⟩ =>
        ⟨h₁, h₂, Option.isNone_iff_eq_none.1 h₃, h₄, h₅, h₆, h₇, h₈⟩,
      fun h => ⟨h.1, h.2, Option.isNone_iff_eq_none.2 h.3, h.4, h.5, h.6, h.7, h.8⟩⟩

end PbftNode

/-- How far the node has come in its round, and which messages of the round are left. -/
inductive Progress (n : PbftNode H) (R : Round H) : Multiset (PbftMsg H) → Prop
  | fresh : n.pbftStage = 1 → n.Unseen R.digest → Progress n R ↑(R.msgs n.sequenceID)
  | preparing {ps : List ℕ} : n.pbftStage = 2 → n.requestPool R.digest = some R.request →
      n.isCommitBordcast R.digest = false → n.isReply R.digest = false →
      n.cntCommitConfirm R.digest = [] →
      (n.cntPrepareConfirm R.digest).length < n.quorum →
      n.quorum ≤ ps.length + (n.cntPrepareConfirm R.digest).length →
      Progress n R
        (↑(R.prepares n.sequenceID ps) + ↑(R.commits n.sequenceID R.committers))
  | committing {ps cs : List ℕ} : n.pbftStage = 3 → n.requestPool R.digest = some R.request →
      n.isCommitBordcast R.digest = true → n.isReply R.digest = false →
      (n.cntCommitConfirm R.digest).length < n.quorum →
      n.quorum ≤ cs.length + (n.cntCommitConfirm R.digest).length →
      Progress n R (↑(R.prepares n.sequenceID ps) + ↑(R.commits n.sequenceID cs))

/-- The messages are of rounds that are over. -/
def Old (seqID : ℕ) (ms : Multiset (PbftMsg H)) : Prop :=
  ∀ m ∈ ms, ∃ k, m.seqID = some k ∧ k < seqID

/-- What is pending: old messages, what is left of the current round, and all of the later ones. -/
inductive Left (n : PbftNode H) : List (Round H) → Multiset (PbftMsg H) → Prop
  | nothing {old : Multiset (PbftMsg H)} : n.pbftStage = 1 → Old n.sequenceID old → Left n [] old
  | round {R : Round H} {Rs : List (Round H)} {old cur : Multiset (PbftMsg H)} :
      Old n.sequenceID old → Progress n R cur → (∀ R' ∈ Rs, n.Unseen R'.digest) →
      Left n (R :: Rs) (old + cur + ↑(roundMsgs (n.sequenceID + 1) Rs))

/-- The follower has executed the rounds `done` and is about to execute `todo`. -/
structure Keeping (start : ℕ) (done todo : List (Round H)) (t : Inbox H) : Prop where
  follower : t.node.isMain = false
  unblocked : t.node.blocked = none
  alive : t.node.alive = true
  sequenceID : t.node.sequenceID = start + done.length
  executed : t.executed = done.map Round.digest
  distinct : (todo.map Round.digest).Nodup
  enough : ∀ R ∈ todo, t.node.quorum ≤ R.preparers.length ∧ t.node.quorum ≤ R.committers.length
  executable : Executable t.node.handleType t.node.curChain (todo.map Round.request)
  left : Left t.node todo (t.pending : Multiset (PbftMsg H))

/-! ## Handlers that wait and handlers that run -/

namespace PbftNode

variable {n n' : PbftNode H}

theorem handlePrepare_waits {m : Vote H} (hstage : n.pbftStage < 2) (hle : n.sequenceID ≤ m.seqID) :
    n.handlePrepare m = none := by
  rw [handlePrepare, if_pos (by simp [hstage, hle])]

theorem handleCommit_waits {m : Vote H} (hstage : n.pbftStage < 3) (hle : n.sequenceID ≤ m.seqID) :
    n.handleCommit m = none := by
  rw [handleCommit, if_pos (by simp [hstage, hle])]

theorem handlePrePrepare_runs {m : PrePrepare H} (hb : n.blocked = none) (hstage : 1 ≤ n.pbftStage) :
    (n.handlePrePrepare m).isNone = false := by
  rw [handlePrePrepare, if_neg (by simp [hb]; omega)]
  split
  · rfl
  split
  · rfl
  split
  · rfl
  split <;> rfl

theorem handlePrepare_runs {m : Vote H} (hb : n.blocked = none) (hstage : 2 ≤ n.pbftStage) :
    (n.handlePrepare m).isNone = false := by
  rw [handlePrepare, if_neg (by simp [hb]; omega)]
  split
  · rfl
  split
  · rfl
  split
  · rfl
  simp only
  split <;> rfl

theorem handleCommit_runs {m : Vote H} (hb : n.blocked = none) (hstage : 3 ≤ n.pbftStage) :
    (n.handleCommit m).isNone = false := by
  rw [handleCommit, if_neg (by simp [hb]; omega)]
  split
  · rfl
  simp only
  split
  · split
    · split <;> rfl
    · rfl
  · rfl

/-- A message of a round that is over is dropped. -/
theorem handleMessage_old (hb : n.blocked = none) {m : PbftMsg H} {k : ℕ} (hm : m.seqID = some k)
    (hk : k < n.sequenceID) :
    n.handleMessage m = some (n, []) ∧ n.executing (.deliver m) = none := by
  cases m with
  | prePrepare m =>
    obtain rfl := Option.some.inj hm
    refine ⟨?_, rfl⟩
    rw [handleMessage, handlePrePrepare, if_neg (by simp [hb]; omega), if_pos hk]
  | prepare m =>
    obtain rfl := Option.some.inj hm
    refine ⟨?_, rfl⟩
    rw [handleMessage, handlePrepare, if_neg (by simp [hb]; omega), if_pos hk]
  | commit m =>
    obtain rfl := Option.some.inj hm
    constructor
    · rw [handleMessage, handleCommit, if_neg (by simp [hb]; omega), if_pos hk]
    · rw [executing, committing, if_pos (by simp [hk])]
      rfl
  | _ => exact absurd hm (by simp [PbftMsg.seqID])

/-- The step has to do with the digest only, and with the round it is decided in. -/
structure Touches (d : H) (n n' : PbftNode H) : Prop where
  isMain : n'.isMain = n.isMain
  blocked : n'.blocked = n.blocked
  alive : n'.alive = n.alive
  nodeNums : n'.nodeNums = n.nodeNums
  handleType : n'.handleType = n.handleType
  others : ∀ e ≠ d, n.Unseen e → n'.Unseen e

theorem touches_countPrepare (n : PbftNode H) (m : Vote H) :
    Touches m.digest n (n.countPrepare m) := by
  refine ⟨rfl, rfl, rfl, rfl, rfl, ?_⟩
  intro e he hunseen
  refine ⟨?_, hunseen.commits, hunseen.committed, hunseen.replied⟩
  exact (Function.update_of_ne he _ _).trans hunseen.prepares

theorem touches_countCommit (n : PbftNode H) (m : Vote H) :
    Touches m.digest n (n.countCommit m) := by
  refine ⟨rfl, rfl, rfl, rfl, rfl, ?_⟩
  intro e he hunseen
  refine ⟨hunseen.prepares, ?_, hunseen.committed, hunseen.replied⟩
  exact (Function.update_of_ne he _ _).trans hunseen.commits

theorem Touches.quorum {d : H} (h : Touches d n n') : n'.quorum = n.quorum := by
  rw [PbftNode.quorum, PbftNode.quorum, h.nodeNums]

/-- A follower executes a request that does not make it panic. -/
theorem executeRequest_of_follower (hmain : n.isMain = false) {r : Request H}
    (hok : (n.handleType.handleinCommit false n.curChain r).2 = true) (d : H) :
    n.executeRequest d r = { n with
      curChain := (n.handleType.handleinCommit false n.curChain r).1
      isReply := Function.update n.isReply d true
      sequenceID := n.sequenceID + 1
      pbftStage := 1 } := by
  rw [executeRequest, hmain]
  split
  · next bc heq =>
      rw [endRound, if_neg (by exact ne_true_of_eq_false hmain), heq]
  · next bc heq => exact absurd (hok.symm.trans (congrArg Prod.snd heq)) (by simp)

end PbftNode

/-! ## One handler of the current round -/

theorem exists_cons_of_mem_map {α β : Type} {f : α → β} {l : List α} {b : β} (h : b ∈ l.map f) :
    ∃ (a : α) (l' : List α), b = f a ∧ l.length = l'.length + 1 ∧
      (↑(l.map f) : Multiset β) = b ::ₘ ↑(l'.map f) := by
  obtain ⟨a, ha, rfl⟩ := List.mem_map.1 h
  obtain ⟨l₁, l₂, rfl⟩ := List.append_of_mem ha
  refine ⟨a, l₁ ++ l₂, rfl, by simp; omega, ?_⟩
  exact Multiset.coe_eq_coe.2 ((List.perm_middle.map f))

/-- What a handler of the current round leads to: the round goes on, or it has been executed. -/
inductive Handled (n : PbftNode H) (R : Round H) (m : PbftMsg H) (n' : PbftNode H)
    (cur' : Multiset (PbftMsg H)) : Prop
  | goesOn : n'.sequenceID = n.sequenceID → n'.curChain = n.curChain → Progress n' R cur' →
      n.executing (.deliver m) = none → Handled n R m n' cur'
  | finished : n'.sequenceID = n.sequenceID + 1 →
      n'.curChain = (n.handleType.handleinCommit false n.curChain R.request).1 →
      n'.pbftStage = 1 → Old n'.sequenceID cur' → n.executing (.deliver m) = some R.digest →
      Handled n R m n' cur'

section Round

variable {n n' : PbftNode H} {R : Round H} {msgs : List (ℕ × PbftMsg H)}

omit [DecidableEq H] in
theorem old_votes (R : Round H) {seqID seqID' : ℕ} (h : seqID < seqID') (ps cs : List ℕ) :
    Old seqID' (↑(R.prepares seqID ps) + ↑(R.commits seqID cs) : Multiset (PbftMsg H)) := by
  intro m hm
  simp only [Round.prepares, Round.commits, Multiset.mem_add, Multiset.mem_coe, List.mem_map] at hm
  rcases hm with ⟨i, -, rfl⟩ | ⟨i, -, rfl⟩ <;> exact ⟨seqID, rfl, h⟩

/-- The proposal of the current round is accepted. -/
theorem handled_prePrepare (hb : n.blocked = none) (hstage : n.pbftStage = 1)
    (hunseen : n.Unseen R.digest) (henough : n.quorum ≤ R.preparers.length)
    (hvalid : n.handleType.handleinPrePrepare n.curChain R.request = some true)
    (h : n.handlePrePrepare ⟨R.request, R.digest, n.sequenceID⟩ = some (n', msgs)) :
    PbftNode.Touches R.digest n n' ∧
      Handled n R (.prePrepare ⟨R.request, R.digest, n.sequenceID⟩) n'
        (↑(R.prepares n.sequenceID R.preparers) + ↑(R.commits n.sequenceID R.committers)) := by
  rw [PbftNode.handlePrePrepare, if_neg (by simp [hb, hstage])] at h
  simp only [lt_irrefl, Round.digest, ne_eq, not_true_eq_false, if_false, hvalid] at h
  obtain ⟨rfl, -⟩ := Prod.mk.inj (Option.some.inj h)
  refine ⟨⟨rfl, rfl, rfl, rfl, rfl, ?_⟩, ?_⟩
  · exact fun e _ he => ⟨he.prepares, he.commits, he.committed, he.replied⟩
  · have hpool : (n.putRequest n.sequenceID R.request).requestPool R.digest = some R.request :=
      Function.update_self ..
    refine .goesOn rfl rfl (.preparing (by simp [hstage]) hpool hunseen.committed hunseen.replied
      hunseen.commits ?_ ?_) rfl
    · show (n.cntPrepareConfirm R.digest).length < n.quorum
      rw [hunseen.prepares]
      exact Nat.succ_pos _
    · exact henough.trans (Nat.le_add_right _ _)

/-- A prepare message of the current round, before the node has committed. -/
theorem handled_prepare {i : ℕ} {ps : List ℕ} (hstage : n.pbftStage = 2)
    (hpool : n.requestPool R.digest = some R.request)
    (hopen : n.isCommitBordcast R.digest = false) (hreply : n.isReply R.digest = false)
    (hcommits : n.cntCommitConfirm R.digest = [])
    (henough : n.quorum ≤ ps.length + 1 + (n.cntPrepareConfirm R.digest).length)
    (hcommitters : n.quorum ≤ R.committers.length)
    (h : n.handlePrepare ⟨R.digest, n.sequenceID, i⟩ = some (n', msgs)) :
    PbftNode.Touches R.digest n n' ∧
      Handled n R (.prepare ⟨R.digest, n.sequenceID, i⟩) n'
        (↑(R.prepares n.sequenceID ps) + ↑(R.commits n.sequenceID R.committers)) := by
  have htouches := n.touches_countPrepare ⟨R.digest, n.sequenceID, i⟩
  have hcount : (n.countPrepare ⟨R.digest, n.sequenceID, i⟩).cntPrepareConfirm R.digest =
      i :: n.cntPrepareConfirm R.digest := n.countPrepare_self _
  cases PbftNode.handlesPrepare_of_handlePrepare h with
  | drop hdrop =>
    rcases hdrop with hne | hnone
    · exact absurd rfl hne
    · exact absurd (hpool.symm.trans hnone) (by simp)
  | count _ _ _ hmore =>
    refine ⟨htouches, .goesOn rfl rfl ?_ rfl⟩
    refine .preparing hstage hpool hopen hreply hcommits ?_ ?_
    · simp only [PbftNode.completesPrepare, hopen, Bool.not_false, Bool.and_true,
        decide_eq_false_iff_not, not_le] at hmore
      rw [hcount]
      exact hmore
    · rw [hcount, List.length_cons]
      show n.quorum ≤ _
      omega
  | commit =>
    refine ⟨⟨rfl, rfl, rfl, rfl, rfl, ?_⟩, .goesOn rfl rfl ?_ rfl⟩
    · intro e he hunseen
      obtain ⟨h₁, h₂, -, h₄⟩ := htouches.others e he hunseen
      exact ⟨h₁, h₂, (Function.update_of_ne he _ _).trans hunseen.committed, h₄⟩
    · refine .committing (by simp [hstage]) hpool (Function.update_self ..) hreply ?_ ?_
      · show (n.cntCommitConfirm R.digest).length < n.quorum
        rw [hcommits]
        exact Nat.succ_pos _
      · exact hcommitters.trans (Nat.le_add_right _ _)

/-- A prepare message of the current round that is not needed any more. -/
theorem handled_late_prepare {i : ℕ} {ps cs : List ℕ} (hstage : n.pbftStage = 3)
    (hpool : n.requestPool R.digest = some R.request)
    (hdone : n.isCommitBordcast R.digest = true) (hreply : n.isReply R.digest = false)
    (hless : (n.cntCommitConfirm R.digest).length < n.quorum)
    (henough : n.quorum ≤ cs.length + (n.cntCommitConfirm R.digest).length)
    (h : n.handlePrepare ⟨R.digest, n.sequenceID, i⟩ = some (n', msgs)) :
    PbftNode.Touches R.digest n n' ∧
      Handled n R (.prepare ⟨R.digest, n.sequenceID, i⟩) n'
        (↑(R.prepares n.sequenceID ps) + ↑(R.commits n.sequenceID cs)) := by
  cases PbftNode.handlesPrepare_of_handlePrepare h with
  | drop hdrop =>
    rcases hdrop with hne | hnone
    · exact absurd rfl hne
    · exact absurd (hpool.symm.trans hnone) (by simp)
  | count =>
    exact ⟨n.touches_countPrepare ⟨R.digest, n.sequenceID, i⟩,
      .goesOn rfl rfl (.committing hstage hpool hdone hreply hless henough) rfl⟩
  | commit _ _ _ hcomplete =>
    exact absurd hcomplete (by simp [PbftNode.completesPrepare, hdone])

/-- A commit message of the current round. -/
theorem handled_commit {i : ℕ} {ps cs : List ℕ} (hmain : n.isMain = false)
    (hstage : n.pbftStage = 3) (hpool : n.requestPool R.digest = some R.request)
    (hdone : n.isCommitBordcast R.digest = true) (hreply : n.isReply R.digest = false)
    (henough : n.quorum ≤ cs.length + 1 + (n.cntCommitConfirm R.digest).length)
    (hok : (n.handleType.handleinCommit false n.curChain R.request).2 = true)
    (h : n.handleCommit ⟨R.digest, n.sequenceID, i⟩ = some (n', msgs)) :
    PbftNode.Touches R.digest n n' ∧
      Handled n R (.commit ⟨R.digest, n.sequenceID, i⟩) n'
        (↑(R.prepares n.sequenceID ps) + ↑(R.commits n.sequenceID cs)) := by
  have htouches := n.touches_countCommit ⟨R.digest, n.sequenceID, i⟩
  have hcount : (n.countCommit ⟨R.digest, n.sequenceID, i⟩).cntCommitConfirm R.digest =
      i :: n.cntCommitConfirm R.digest := n.countCommit_self _
  cases PbftNode.handlesCommit_of_handleCommit h with
  | drop hold => exact absurd hold (lt_irrefl _)
  | count _ _ hmore =>
    refine ⟨htouches, .goesOn rfl rfl ?_ ?_⟩
    · refine .committing hstage hpool hdone hreply ?_ ?_
      · simp only [PbftNode.completesCommit, hreply, Bool.not_false, Bool.and_true,
          decide_eq_false_iff_not, not_le] at hmore
        rw [hcount]
        exact hmore
      · rw [hcount, List.length_cons]
        show n.quorum ≤ _
        omega
    · rw [PbftNode.executing, n.committing_of_not_completes hmore]
      rfl
  | wait _ _ _ hnone => exact absurd (hpool.symm.trans hnone) (by simp)
  | ask _ _ _ hnone => exact absurd (hpool.symm.trans hnone) (by simp)
  | @execute r _ _ _ hcommitting =>
    obtain rfl : r = R.request := Option.some.inj
      ((PbftNode.committing_spec hcommitting).1.symm.trans hpool)
    rw [PbftNode.executeRequest_of_follower (by exact hmain) (by exact hok)]
    refine ⟨⟨rfl, rfl, rfl, rfl, rfl, ?_⟩, .finished rfl rfl rfl ?_ ?_⟩
    · intro e he hunseen
      obtain ⟨h₁, h₂, h₃, -⟩ := htouches.others e he hunseen
      exact ⟨h₁, h₂, h₃, (Function.update_of_ne he _ _).trans hunseen.replied⟩
    · exact old_votes R (Nat.lt_succ_self _) ps cs
    · rw [PbftNode.executing, hcommitting]
      rfl

end Round

/-- **One handler of the current round** takes its message off what is left and the round further. -/
theorem Progress.handle {n n' : PbftNode H} {R : Round H} {cur : Multiset (PbftMsg H)}
    (hp : Progress n R cur) {m : PbftMsg H} (hm : m ∈ cur) (hb : n.blocked = none)
    (hmain : n.isMain = false)
    (henough : n.quorum ≤ R.preparers.length ∧ n.quorum ≤ R.committers.length)
    (hvalid : n.handleType.handleinPrePrepare n.curChain R.request = some true)
    (hok : (n.handleType.handleinCommit false n.curChain R.request).2 = true)
    {msgs : List (ℕ × PbftMsg H)} (h : n.handleMessage m = some (n', msgs)) :
    ∃ cur', cur = m ::ₘ cur' ∧ PbftNode.Touches R.digest n n' ∧ Handled n R m n' cur' := by
  cases hp with
  | fresh hstage hunseen =>
    simp only [Round.msgs, Round.prepares, Round.commits, Multiset.mem_coe, List.mem_cons,
      List.mem_append, List.mem_map] at hm
    rcases hm with rfl | ⟨i, -, rfl⟩ | ⟨i, -, rfl⟩
    · exact ⟨_, rfl, handled_prePrepare hb hstage hunseen henough.1 hvalid h⟩
    · exact absurd (h.symm.trans (n.handlePrepare_waits (by omega) le_rfl)) (by simp)
    · exact absurd (h.symm.trans (n.handleCommit_waits (by omega) le_rfl)) (by simp)
  | preparing hstage hpool hopen hreply hcommits _ hleft =>
    rcases Multiset.mem_add.1 hm with hm | hm
    · obtain ⟨i, ps', rfl, hlen, hcons⟩ := exists_cons_of_mem_map (Multiset.mem_coe.1 hm)
      refine ⟨_, (congrArg (· + _) hcons).trans (Multiset.cons_add ..), ?_⟩
      exact handled_prepare hstage hpool hopen hreply hcommits (hlen ▸ hleft) henough.2 h
    · obtain ⟨i, -, rfl⟩ := List.mem_map.1 (Multiset.mem_coe.1 hm)
      exact absurd (h.symm.trans (n.handleCommit_waits (by omega) le_rfl)) (by simp)
  | committing hstage hpool hdone hreply hless hleft =>
    rcases Multiset.mem_add.1 hm with hm | hm
    · obtain ⟨i, ps', rfl, -, hcons⟩ := exists_cons_of_mem_map (Multiset.mem_coe.1 hm)
      refine ⟨_, (congrArg (· + _) hcons).trans (Multiset.cons_add ..), ?_⟩
      exact handled_late_prepare hstage hpool hdone hreply hless hleft h
    · obtain ⟨i, cs', rfl, hlen, hcons⟩ := exists_cons_of_mem_map (Multiset.mem_coe.1 hm)
      refine ⟨_, (congrArg (_ + ·) hcons).trans (Multiset.add_cons ..), ?_⟩
      exact handled_commit hmain hstage hpool hdone hreply (hlen ▸ hleft) hok h

/-- While a round is left, some handler can run. -/
theorem Left.runs {n : PbftNode H} {R : Round H} {Rs : List (Round H)}
    {pending : Multiset (PbftMsg H)} (hl : Left n (R :: Rs) pending) (hb : n.blocked = none) :
    ∃ m ∈ pending, (n.handleMessage m).isNone = false := by
  obtain ⟨old, cur, hp, rfl⟩ : ∃ old cur, Progress n R cur ∧
      pending = old + cur + ↑(roundMsgs (n.sequenceID + 1) Rs) := by
    cases hl with
    | round _ hp _ => exact ⟨_, _, hp, rfl⟩
  have hcur : ∀ {m : PbftMsg H}, m ∈ cur →
      m ∈ old + cur + (roundMsgs (n.sequenceID + 1) Rs : Multiset (PbftMsg H)) := fun hm =>
    Multiset.mem_add.2 (Or.inl (Multiset.mem_add.2 (Or.inr hm)))
  cases hp with
  | fresh hstage _ =>
    exact ⟨_, hcur (Multiset.mem_coe.2 List.mem_cons_self), n.handlePrePrepare_runs hb hstage.ge⟩
  | @preparing ps hstage _ _ _ _ hless hleft =>
    obtain ⟨i, hi⟩ := List.exists_mem_of_length_pos (l := ps) (by omega)
    refine ⟨.prepare ⟨R.digest, n.sequenceID, i⟩, hcur (Multiset.mem_add.2 (Or.inl ?_)),
      n.handlePrepare_runs hb hstage.ge⟩
    exact Multiset.mem_coe.2 (List.mem_map_of_mem hi)
  | @committing ps cs hstage _ _ _ hless hleft =>
    obtain ⟨i, hi⟩ := List.exists_mem_of_length_pos (l := cs) (by omega)
    refine ⟨.commit ⟨R.digest, n.sequenceID, i⟩, hcur (Multiset.mem_add.2 (Or.inr ?_)),
      n.handleCommit_runs hb hstage.ge⟩
    exact Multiset.mem_coe.2 (List.mem_map_of_mem hi)

/-! ## Runs of the handlers -/

/-- After the current round, all messages of the next one are left. -/
theorem left_next {n : PbftNode H} (hstage : n.pbftStage = 1) {Rs : List (Round H)}
    (hunseen : ∀ R ∈ Rs, n.Unseen R.digest) {old : Multiset (PbftMsg H)}
    (hold : Old n.sequenceID old) : Left n Rs (old + ↑(roundMsgs n.sequenceID Rs)) := by
  cases Rs with
  | nil =>
    refine .nothing hstage ?_
    simpa [roundMsgs] using hold
  | cons R Rs =>
    obtain ⟨hR, hRs⟩ := List.forall_mem_cons.1 hunseen
    rw [roundMsgs, ← Multiset.coe_add, ← add_assoc]
    exact .round hold (.fresh hstage hR) hRs

omit [DecidableEq H] [Hashing H] in
theorem Old.of_cons {seqID : ℕ} {m : PbftMsg H} {ms : Multiset (PbftMsg H)}
    (h : Old seqID (m ::ₘ ms)) : Old seqID ms :=
  fun m' hm' => h m' (Multiset.mem_cons_of_mem hm')

omit [DecidableEq H] [Hashing H] in
theorem Old.add {seqID seqID' : ℕ} (hle : seqID ≤ seqID') {ms ms' : Multiset (PbftMsg H)}
    (h : Old seqID ms) (h' : Old seqID' ms') : Old seqID' (ms + ms') := by
  intro m hm
  rcases Multiset.mem_add.1 hm with hm | hm
  · obtain ⟨k, hk, hlt⟩ := h m hm
    exact ⟨k, hk, by omega⟩
  · exact h' m hm

namespace Inbox

variable {start : ℕ} {done todo : List (Round H)} {t t' : Inbox H}

/-- The follower's own round: it goes on, or the next one begins. -/
theorem keeping_of_handled {R : Round H} {Rs : List (Round H)} (hk : Keeping start done (R :: Rs) t)
    {old cur : Multiset (PbftMsg H)} (hold : Old t.node.sequenceID old)
    (hunseen : ∀ R' ∈ Rs, t.node.Unseen R'.digest) {m : PbftMsg H}
    (htouches : PbftNode.Touches R.digest t.node t'.node) (hh : Handled t.node R m t'.node cur)
    (hpending : (t'.pending : Multiset (PbftMsg H)) =
      old + cur + ↑(roundMsgs (t.node.sequenceID + 1) Rs))
    (hexec : t'.executed = t.executed ++ (t.node.executing (.deliver m)).toList) :
    ∃ done' todo', done' ++ todo' = done ++ R :: Rs ∧ Keeping start done' todo' t' := by
  obtain ⟨-, hexecutable⟩ := hk.executable
  have hdistinct := List.nodup_cons.1 hk.distinct
  have hunseen' : ∀ R' ∈ Rs, t'.node.Unseen R'.digest := by
    intro R' hR'
    refine htouches.others _ (fun heq => hdistinct.1 ?_) (hunseen R' hR')
    exact heq ▸ List.mem_map_of_mem hR'
  have hfollower := htouches.isMain.trans hk.follower
  have hunblocked := htouches.blocked.trans hk.unblocked
  have halive := htouches.alive.trans hk.alive
  cases hh with
  | goesOn hseq hchain hp hnone =>
    refine ⟨done, R :: Rs, rfl, hfollower, hunblocked, halive, hseq.trans hk.sequenceID, ?_,
      hk.distinct, ?_, ?_, ?_⟩
    · rw [hexec, hnone, Option.toList_none, List.append_nil, hk.executed]
    · rw [htouches.quorum]
      exact hk.enough
    · rw [htouches.handleType, hchain]
      exact hk.executable
    · rw [hpending, ← hseq]
      exact .round (hseq ▸ hold) hp hunseen'
  | finished hseq hchain hstage hcur hsome =>
    refine ⟨done ++ [R], Rs, by simp, hfollower, hunblocked, halive, ?_, ?_, hdistinct.2, ?_, ?_, ?_⟩
    · rw [hseq, hk.sequenceID, List.length_append]
      rfl
    · rw [hexec, hsome, hk.executed, List.map_append]
      rfl
    · rw [htouches.quorum]
      exact (List.forall_mem_cons.1 hk.enough).2
    · rw [htouches.handleType, hchain]
      exact hexecutable.2
    · rw [hpending, ← hseq]
      exact left_next hstage hunseen' (hold.add (by omega) hcur)

/-- An old message is dropped. -/
theorem keeping_of_old (hk : Keeping start done todo t) {m : PbftMsg H} {k : ℕ}
    (hm : m.seqID = some k) (hlt : k < t.node.sequenceID) {n : PbftNode H}
    {msgs : List (ℕ × PbftMsg H)} (hh : t.node.handleMessage m = some (n, msgs))
    (hnode : t'.node = n)
    (hexec : t'.executed = t.executed ++ (t.node.executing (.deliver m)).toList)
    (hleft : Left t.node todo (t'.pending : Multiset (PbftMsg H))) : Keeping start done todo t' := by
  obtain ⟨hdrop, hnone⟩ := PbftNode.handleMessage_old hk.unblocked hm hlt
  obtain ⟨rfl, -⟩ := Prod.mk.inj (Option.some.inj (hh.symm.trans hdrop))
  rw [hnone, Option.toList_none, List.append_nil] at hexec
  exact ⟨hnode ▸ hk.follower, hnode ▸ hk.unblocked, hnode ▸ hk.alive, hnode ▸ hk.sequenceID,
    hexec.trans hk.executed, hk.distinct, hnode ▸ hk.enough, hnode ▸ hk.executable, hnode ▸ hleft⟩

/-- **One handler** that runs no earlier than in its round. -/
theorem keeping_step (hk : Keeping start done todo t) {k : ℕ} (hround : t.InRound k)
    (h : t.step k = some t') :
    ∃ done' todo', done' ++ todo' = done ++ todo ∧ Keeping start done' todo' t' := by
  obtain ⟨m, n, msgs, hget, hhandle, hpending, hnode, hexec⟩ := step_cases h
  have hmem : m ∈ (t.pending : Multiset (PbftMsg H)) := hpending ▸ Multiset.mem_cons_self ..
  have hleft := hk.left
  generalize (t.pending : Multiset (PbftMsg H)) = pending at hleft hmem hpending
  cases hleft with
  | nothing hstage hold =>
    obtain ⟨k, hm, hlt⟩ := hold m hmem
    refine ⟨done, [], rfl, keeping_of_old hk hm hlt hhandle hnode hexec (.nothing hstage ?_)⟩
    rw [hpending] at hold
    exact hold.of_cons
  | @round R Rs old cur hold hp hunseen =>
    rcases Multiset.mem_add.1 hmem with hmem | hfuture
    · rcases Multiset.mem_add.1 hmem with hmold | hmcur
      · obtain ⟨k, hm, hlt⟩ := hold m hmold
        obtain ⟨old', rfl⟩ := Multiset.exists_cons_of_mem hmold
        rw [Multiset.cons_add, Multiset.cons_add, Multiset.cons_inj_right] at hpending
        refine ⟨done, R :: Rs, rfl, keeping_of_old hk hm hlt hhandle hnode hexec ?_⟩
        exact hpending ▸ .round hold.of_cons hp hunseen
      · obtain ⟨hvalid, hok, -⟩ := hk.executable
        obtain ⟨cur', rfl, htouches, hh⟩ := hp.handle hmcur hk.unblocked hk.follower
          (hk.enough R List.mem_cons_self) hvalid hok hhandle
        rw [Multiset.add_cons, Multiset.cons_add, Multiset.cons_inj_right] at hpending
        subst hnode
        exact keeping_of_handled hk hold hunseen htouches hh hpending.symm hexec
    · -- messages of later rounds are not handled yet
      obtain ⟨k, hm, hle⟩ := seqID_of_mem_roundMsgs (Multiset.mem_coe.1 hfuture)
      have hnow := hround m hget k hm
      omega

/-- **No message is lost** that is handled in its round. A follower in stage 1 whose inbox holds all
    messages of its next rounds, in any order: when no handler can run any further it has executed the
    rounds in order, each once, and is in stage 1 after the last. -/
theorem rounds_executed {n : PbftNode H} {rounds : List (Round H)} (hn : n.Awaits rounds)
    {pending : List (PbftMsg H)} (hall : pending.Perm (roundMsgs n.sequenceID rounds))
    (hrun : ReachesUnder step InRound ⟨n, pending, []⟩ t) (hsettled : t.Settled) :
    t.executed = rounds.map Round.digest ∧
      t.node.sequenceID = n.sequenceID + rounds.length ∧ t.node.pbftStage = 1 := by
  have hinit : Keeping n.sequenceID [] rounds ⟨n, pending, []⟩ := by
    refine ⟨hn.follower, hn.unblocked, hn.alive, rfl, rfl, hn.distinct, hn.enough,
      hn.executable, ?_⟩
    have hfirst : Left n rounds (0 + ↑(roundMsgs n.sequenceID rounds)) :=
      left_next hn.stage hn.unseen fun m hm => absurd hm (Multiset.notMem_zero m)
    rw [zero_add, ← Multiset.coe_eq_coe.2 hall] at hfirst
    exact hfirst
  have hinv : ∃ done todo, done ++ todo = rounds ∧ Keeping n.sequenceID done todo t :=
    hrun.invariant (I := fun t => ∃ done todo, done ++ todo = rounds ∧
      Keeping n.sequenceID done todo t) ⟨[], rounds, rfl, hinit⟩ fun t k t' hI hround hstep => by
        obtain ⟨done, todo, happ, hk⟩ := hI
        obtain ⟨done', todo', happ', hk'⟩ := keeping_step hk hround hstep
        exact ⟨done', todo', happ'.trans happ, hk'⟩
  obtain ⟨done, todo, happ, hk⟩ := hinv
  cases todo with
  | nil =>
    obtain rfl : done = rounds := by simpa using happ
    have hstage : t.node.pbftStage = 1 := by
      cases hk.left with
      | nothing hstage _ => exact hstage
    exact ⟨hk.executed, hk.sequenceID, hstage⟩
  | cons R Rs =>
    obtain ⟨m, hm, hruns⟩ := hk.left.runs hk.unblocked
    exact absurd (hsettled m (Multiset.mem_coe.1 hm)) (by simp [hruns])

section Sample

open BlockChain

set_option maxRecDepth 100000

/-- The first two blocks of the sample chain, and votes of all four nodes for both. -/
def twoRounds : Option (List (Round SymHash)) :=
  (sampleGenesis.generateBlock 0 0).bind fun p => (p.1.addBlock p.2).bind fun bc =>
    (bc.generateBlock 0 0).map fun q =>
      [⟨⟨.block p.2, 0⟩, [0, 1, 2, 3], [0, 1, 2, 3]⟩, ⟨⟨.block q.2, 0⟩, [0, 1, 2, 3], [0, 1, 2, 3]⟩]

/-- Node 3 of four handles the messages of two rounds as they come. -/
theorem two_rounds_executed :
    ∃ rounds t, (PbftNode.newPbftNode 3 4 .relay sampleGenesis).Awaits rounds ∧
      ReachesUnder step InRound
        ⟨.newPbftNode 3 4 .relay sampleGenesis, roundMsgs 1 rounds, []⟩ t ∧ t.Settled ∧
      t.executed = rounds.map Round.digest ∧ t.executed.length = 2 := by
  have hrun : ∃ rounds ∈ twoRounds, (PbftNode.newPbftNode 3 4 .relay sampleGenesis).Awaits rounds ∧
      rounds.length = 2 ∧
      ∃ t ∈ runChecked step (fun t k => decide (t.InRound k))
        ⟨.newPbftNode 3 4 .relay sampleGenesis, roundMsgs 1 rounds, []⟩ (List.replicate 18 0),
        t.Settled := by decide +kernel
  obtain ⟨rounds, -, hawaits, hlen, t, ht, hsettled⟩ := hrun
  have hreach := reachesUnder_of_runDecided ht
  obtain ⟨hexec, -, -⟩ := rounds_executed hawaits (.refl _) hreach hsettled
  exact ⟨rounds, t, hawaits, hreach, hsettled, hexec, by rw [hexec, List.length_map, hlen]⟩

/-- The second proposal is handled right after the first, and filed; node 3 never prepares it. The
    handlers of the other messages of the second round wait for ever. -/
theorem early_proposal_lost :
    ∃ rounds t, (PbftNode.newPbftNode 3 4 .relay sampleGenesis).Awaits rounds ∧
      Reaches step ⟨.newPbftNode 3 4 .relay sampleGenesis, roundMsgs 1 rounds, []⟩ t ∧ t.Settled ∧
      rounds.length = 2 ∧ t.executed.length = 1 ∧ t.node.sequenceID = 2 := by
  have hrun : ∃ rounds ∈ twoRounds, (PbftNode.newPbftNode 3 4 .relay sampleGenesis).Awaits rounds ∧
      ∃ t ∈ runActions step
        ⟨.newPbftNode 3 4 .relay sampleGenesis, roundMsgs 1 rounds, []⟩
        (0 :: 8 :: List.replicate 8 0),
        t.Settled ∧ rounds.length = 2 ∧ t.executed.length = 1 ∧ t.node.sequenceID = 2 := by
    decide +kernel
  obtain ⟨rounds, -, hawaits, t, ht, h⟩ := hrun
  exact ⟨rounds, t, hawaits, reaches_of_runActions ht, h⟩

end Sample

end Inbox

end BlockEmulator
