import BlockEmulator.Chain.Propose
import BlockEmulator.Pbft.Node
import BlockEmulator.Lib.Run

set_option autoImplicit false

/-! # Quorums

One node and whatever messages reach it, in any order and any number of times. `NodeTrace` records
beside the node which messages its handlers have processed, what it has sent and which digests it has
executed. A node counts messages, not senders: what it takes for a quorum is one of different nodes
as long as no sender's vote for a digest is delivered again after it has been counted. -/

namespace BlockEmulator

variable {H : Type} [DecidableEq H]

/-! ## Who has voted -/

/-- The node whose prepare message for the digest this is. -/
def PbftMsg.preparer (d : H) : PbftMsg H → Option ℕ
  | .prepare m => if m.digest = d then some m.senderNode else none
  | _ => none

/-- The node whose commit message for the digest this is. -/
def PbftMsg.committer (d : H) : PbftMsg H → Option ℕ
  | .commit m => if m.digest = d then some m.senderNode else none
  | _ => none

theorem PbftMsg.eq_commit_of_committer {d : H} {m : PbftMsg H} {i : ℕ} (h : m.committer d = some i) :
    ∃ v, m = .commit v ∧ v.digest = d := by
  cases m with
  | commit v => exact ⟨v, rfl, (Option.ite_none_right_eq_some.1 h).1⟩
  | _ => exact absurd h (by simp [committer])

/-- The nodes whose prepare messages for the digest are among the messages. -/
def preparers (d : H) (ms : List (PbftMsg H)) : Finset ℕ :=
  (ms.filterMap (PbftMsg.preparer d)).toFinset

/-- The nodes whose commit messages for the digest are among the messages. -/
def committers (d : H) (ms : List (PbftMsg H)) : Finset ℕ :=
  (ms.filterMap (PbftMsg.committer d)).toFinset

/-- A counter counts every sender once, and counts nobody who has not voted. -/
def Distinct (cnt : H → List ℕ) (voters : H → Finset ℕ) : Prop :=
  ∀ d, (cnt d).Nodup ∧ (cnt d).toFinset ⊆ voters d

omit [DecidableEq H] in
theorem Distinct.mono {cnt : H → List ℕ} {voters voters' : H → Finset ℕ} (h : Distinct cnt voters)
    (hgrow : ∀ d, voters d ⊆ voters' d) : Distinct cnt voters' :=
  fun d => ⟨(h d).1, (h d).2.trans (hgrow d)⟩

/-- Counting a new sender of a processed vote. -/
theorem Distinct.count {cnt : H → List ℕ} {voters voters' : H → Finset ℕ}
    (h : Distinct cnt voters) (hgrow : ∀ d, voters d ⊆ voters' d) {d : H} {sender : ℕ}
    (hnew : sender ∉ cnt d) (hvoted : sender ∈ voters' d) :
    Distinct (Function.update cnt d (sender :: cnt d)) voters' := by
  intro e
  rw [Function.update_apply]
  split
  · next he =>
      subst he
      refine ⟨List.nodup_cons.2 ⟨hnew, (h e).1⟩, ?_⟩
      rw [List.toFinset_cons]
      exact Finset.insert_subset hvoted ((h e).2.trans (hgrow e))
  · exact h.mono hgrow e

omit [DecidableEq H] in
theorem Distinct.length_le {cnt : H → List ℕ} {voters : H → Finset ℕ} (h : Distinct cnt voters)
    (d : H) : (cnt d).length ≤ (voters d).card := by
  rw [← List.toFinset_card_of_nodup (h d).1]
  exact Finset.card_le_card (h d).2

/-- Counting a vote keeps what has been counted. -/
theorem length_le_update_cons {cnt : H → List ℕ} {d : H} {sender q : ℕ} {e : H}
    (h : q ≤ (cnt e).length) : q ≤ (Function.update cnt d (sender :: cnt d) e).length := by
  rw [Function.update_apply]
  split
  · next he =>
      subst he
      rw [List.length_cons]
      omega
  · exact h

theorem preparers_subset_append (d : H) (ms ms' : List (PbftMsg H)) :
    preparers d ms ⊆ preparers d (ms ++ ms') := by
  rw [preparers, preparers, List.filterMap_append, List.toFinset_append]
  exact Finset.subset_union_left

theorem committers_subset_append (d : H) (ms ms' : List (PbftMsg H)) :
    committers d ms ⊆ committers d (ms ++ ms') := by
  rw [committers, committers, List.filterMap_append, List.toFinset_append]
  exact Finset.subset_union_left

theorem mem_preparers_append (m : Vote H) (ms : List (PbftMsg H)) :
    m.senderNode ∈ preparers m.digest (ms ++ [.prepare m]) := by
  simp [preparers, PbftMsg.preparer]

theorem mem_committers_append (m : Vote H) (ms : List (PbftMsg H)) :
    m.senderNode ∈ committers m.digest (ms ++ [.commit m]) := by
  simp [committers, PbftMsg.committer]

variable [Hashing H]

/-! ## Runs of one node -/

/-- What a node can do: handle a message, or go on with one of its own routines. -/
inductive NodeAct (H : Type) where
  | outside (pool : TxPool)
  | roundSignal
  | takeSignal
  | lockSequence
  | propose (partition : Option AccountTransferMsg) (now reqTime : ℕ)
  | storeStage
  | resume
  | timeout
  | deliver (m : PbftMsg H)

namespace PbftNode

/-- The node after the action, and the messages it sends. -/
def act (n : PbftNode H) : NodeAct H → Option (PbftNode H × List (ℕ × PbftMsg H))
  | .outside pool => some ({ n with curChain := { n.curChain with txpool := pool } }, [])
  | .roundSignal => n.roundSignal.map fun n => (n, [])
  | .takeSignal => n.takeSignal.map fun n => (n, [])
  | .lockSequence => n.lockSequence.map fun n => (n, [])
  | .propose partition now reqTime => (n.propose partition now reqTime).map fun p => (p.1, p.2.2)
  | .storeStage => n.storeStage.map fun n => (n, [])
  | .resume => n.resume
  | .timeout => some n.viewChangePropose
  | .deliver m => n.handleMessage m

/-- The digest that the action makes the node execute in `HandleinCommit`. -/
def executing (n : PbftNode H) : NodeAct H → Option H
  | .deliver (.commit m) => (n.committing m).map fun _ => m.digest
  | _ => none

/-- The two nodes have counted the same votes, in a shard of the same size. -/
structure SameCounts (n n' : PbftNode H) : Prop where
  nodeNums : n'.nodeNums = n.nodeNums
  prepares : n'.cntPrepareConfirm = n.cntPrepareConfirm
  commits : n'.cntCommitConfirm = n.cntCommitConfirm

theorem sameCounts_askForOld (n : PbftNode H) (m : Vote H) : SameCounts n (n.askForOld m).1 := by
  obtain ⟨lock, alive, heq⟩ := endRound_frame { n with askForLock := true }
  rw [askForOld, heq]
  exact ⟨rfl, rfl, rfl⟩

theorem sameCounts_executeRequest (n : PbftNode H) (digest : H) (r : Request H) :
    SameCounts n (n.executeRequest digest r) := by
  obtain ⟨bc, replied, seq, stage, lock, alive, heq⟩ := executeRequest_frame n digest r
  rw [heq]
  exact ⟨rfl, rfl, rfl⟩

/-- Deliveries other than of votes count nothing, and are not answered with commit messages. -/
theorem handleMessage_frame {n n' : PbftNode H} {m : PbftMsg H} {msgs : List (ℕ × PbftMsg H)}
    (h : n.handleMessage m = some (n', msgs)) (hprep : ∀ v, m ≠ .prepare v)
    (hcom : ∀ v, m ≠ .commit v) : SameCounts n n' ∧ ∀ p ∈ msgs, ∀ v, p.2 ≠ .commit v := by
  cases m with
  | prePrepare m =>
    rcases handlePrePrepare_cases h with
      ⟨rfl, rfl⟩ | ⟨rfl, rfl⟩ | ⟨-, rfl, rfl⟩ | ⟨-, rfl, rfl⟩
    · exact ⟨⟨rfl, rfl, rfl⟩, by simp⟩
    · exact ⟨⟨rfl, rfl, rfl⟩, by simp⟩
    · exact ⟨⟨rfl, rfl, rfl⟩, by simp⟩
    · exact ⟨⟨rfl, rfl, rfl⟩, fun p hp v => by simp [snd_of_mem_toAll hp]⟩
  | prepare v => exact absurd rfl (hprep v)
  | commit v => exact absurd rfl (hcom v)
  | requestOld m =>
    obtain ⟨rfl, rfl⟩ := Prod.ext_iff.1 (Option.some.inj h)
    rw [handleRequestOldSeq_fst, handleRequestOldSeq]
    exact ⟨⟨rfl, rfl, rfl⟩, by split <;> simp⟩
  | sendOld m =>
    obtain ⟨rfl, rfl⟩ := Prod.ext_iff.1 (Option.some.inj h)
    obtain ⟨bc, pool, h2d, replied, seq, ask, alive, heq, -, hmsgs⟩ := handleSendOldSeq_frame n m
    rw [heq]
    refine ⟨⟨rfl, rfl, rfl⟩, ?_⟩
    rcases hmsgs with hnil | ⟨d, r, -, seqID, hsend⟩
    · simp [hnil]
    · rw [hsend]
      intro p hp v
      simp [snd_of_mem_toAll (List.mem_filter.1 hp).1]
  | viewChange m =>
    obtain ⟨rfl, rfl⟩ := Prod.ext_iff.1 (Option.some.inj h)
    refine ⟨⟨rfl, rfl, rfl⟩, ?_⟩
    simp only [handleViewChangeMsg]
    split
    · exact fun p hp v => by simp [snd_of_mem_toAll hp]
    · simp
  | newView m =>
    obtain ⟨rfl, rfl⟩ := Prod.ext_iff.1 (Option.some.inj h)
    refine ⟨?_, by simp⟩
    simp only [handleNewViewMsg]
    split
    · exact ⟨rfl, rfl, rfl⟩
    · exact ⟨rfl, rfl, rfl⟩

/-- So do the node's own routines. -/
theorem act_frame {n n' : PbftNode H} {a : NodeAct H} {msgs : List (ℕ × PbftMsg H)}
    (h : n.act a = some (n', msgs)) (hprep : ∀ v, a ≠ .deliver (.prepare v))
    (hcom : ∀ v, a ≠ .deliver (.commit v)) : SameCounts n n' ∧ ∀ p ∈ msgs, ∀ v, p.2 ≠ .commit v := by
  cases a with
  | outside pool =>
    obtain ⟨rfl, rfl⟩ := Prod.mk.inj (Option.some.inj h)
    exact ⟨⟨rfl, rfl, rfl⟩, by simp⟩
  | roundSignal =>
    simp only [act, roundSignal, Option.map_eq_some_iff, Option.ite_none_right_eq_some,
      Option.some.injEq, Prod.mk.injEq] at h
    obtain ⟨n₀, ⟨-, rfl⟩, rfl, rfl⟩ := h
    exact ⟨⟨rfl, rfl, rfl⟩, by simp⟩
  | takeSignal =>
    simp only [act, takeSignal, Option.map_eq_some_iff, Option.ite_none_right_eq_some,
      Option.some.injEq, Prod.mk.injEq] at h
    obtain ⟨n₀, ⟨-, rfl⟩, rfl, rfl⟩ := h
    exact ⟨⟨rfl, rfl, rfl⟩, by simp⟩
  | lockSequence =>
    simp only [act, lockSequence, Option.map_eq_some_iff, Option.ite_none_right_eq_some,
      Option.some.injEq, Prod.mk.injEq] at h
    obtain ⟨n₀, ⟨-, rfl⟩, rfl, rfl⟩ := h
    exact ⟨⟨rfl, rfl, rfl⟩, by simp⟩
  | propose partition now reqTime =>
    obtain ⟨⟨n₀, r, ms⟩, hprop, heq⟩ := Option.map_eq_some_iff.1 h
    obtain ⟨rfl, rfl⟩ := Prod.mk.inj heq
    obtain ⟨-, -, ⟨rfl, -, rfl⟩ | ⟨bc, req, -, rfl, -, rfl⟩⟩ := propose_cases hprop
    · exact ⟨⟨rfl, rfl, rfl⟩, by simp⟩
    · exact ⟨⟨rfl, rfl, rfl⟩, fun p hp v => by simp [snd_of_mem_toAll hp]⟩
  | storeStage =>
    simp only [act, storeStage, Option.map_eq_some_iff, Option.ite_none_right_eq_some,
      Option.some.injEq, Prod.mk.injEq] at h
    obtain ⟨n₀, ⟨-, rfl⟩, rfl, rfl⟩ := h
    exact ⟨⟨rfl, rfl, rfl⟩, by simp⟩
  | resume =>
    simp only [act, resume] at h
    split at h
    · next m hm =>
        obtain ⟨-, hask⟩ := Option.ite_none_left_eq_some.1 h
        obtain ⟨rfl, rfl⟩ := Prod.ext_iff.1 (Option.some.inj hask)
        obtain ⟨h₁, h₂, h₃⟩ := sameCounts_askForOld { n with blocked := none } m
        exact ⟨⟨h₁, h₂, h₃⟩, by simp [askForOld]⟩
    · exact absurd h (by simp)
  | timeout =>
    obtain ⟨rfl, rfl⟩ := Prod.ext_iff.1 (Option.some.inj h)
    exact ⟨⟨rfl, rfl, rfl⟩, fun p hp v => by simp [snd_of_mem_toAll hp]⟩
  | deliver m =>
    exact handleMessage_frame h (fun v hv => hprep v (hv ▸ rfl)) fun v hv => hcom v (hv ▸ rfl)

end PbftNode

/-- A node and its history. -/
structure NodeTrace (H : Type) [DecidableEq H] [Hashing H] where
  node : PbftNode H
  processed : List (PbftMsg H) := []
  sent : List (ℕ × PbftMsg H) := []
  executed : List H := []

/-- The message that an action processes. -/
def NodeAct.msg : NodeAct H → Option (PbftMsg H)
  | .deliver m => some m
  | _ => none

namespace NodeTrace

/-- One action of a live node. -/
def step (t : NodeTrace H) (a : NodeAct H) : Option (NodeTrace H) :=
  if t.node.alive then
    (t.node.act a).map fun p =>
      { node := p.1
        processed := t.processed ++ a.msg.toList
        sent := t.sent ++ p.2
        executed := t.executed ++ (t.node.executing a).toList }
  else none

theorem step_cases {t t' : NodeTrace H} {a : NodeAct H} (h : t.step a = some t') :
    ∃ n msgs, t.node.act a = some (n, msgs) ∧
      t' = ⟨n, t.processed ++ a.msg.toList, t.sent ++ msgs,
        t.executed ++ (t.node.executing a).toList⟩ := by
  obtain ⟨-, h⟩ := Option.ite_none_right_eq_some.1 h
  obtain ⟨⟨n, msgs⟩, hact, rfl⟩ := Option.map_eq_some_iff.1 h
  exact ⟨n, msgs, hact, rfl⟩

end NodeTrace

/-! ## The invariant -/

namespace NodeTrace

/-- If the delivered vote is counted, it is not of a sender whose vote for the digest has been counted
    already. A prepare message of another round or without its request is not counted, nor is a commit
    message of an earlier round. -/
def CountsOnce (t : NodeTrace H) : NodeAct H → Prop
  | .deliver (.prepare m) => m.seqID = t.node.sequenceID → t.node.requestPool m.digest ≠ none →
      m.senderNode ∉ t.node.cntPrepareConfirm m.digest
  | .deliver (.commit m) => t.node.sequenceID ≤ m.seqID →
      m.senderNode ∉ t.node.cntCommitConfirm m.digest
  | _ => True

instance (t : NodeTrace H) : (a : NodeAct H) → Decidable (t.CountsOnce a)
  | .deliver (.prepare m) => inferInstanceAs (Decidable (m.seqID = t.node.sequenceID →
      t.node.requestPool m.digest ≠ none → m.senderNode ∉ t.node.cntPrepareConfirm m.digest))
  | .deliver (.commit m) => inferInstanceAs (Decidable (t.node.sequenceID ≤ m.seqID →
      m.senderNode ∉ t.node.cntCommitConfirm m.digest))
  | .deliver (.prePrepare _) | .deliver (.requestOld _) | .deliver (.sendOld _)
  | .deliver (.viewChange _) | .deliver (.newView _) | .outside _ | .roundSignal | .takeSignal
  | .lockSequence | .propose _ _ _ | .storeStage | .resume | .timeout => .isTrue trivial

/-- What the node has counted, in a shard of `N` nodes, and that it was enough for what it did. -/
structure Counted (N : ℕ) (t : NodeTrace H) : Prop where
  nodeNums : t.node.nodeNums = N
  prepares : Distinct t.node.cntPrepareConfirm (preparers · t.processed)
  commits : Distinct t.node.cntCommitConfirm (committers · t.processed)
  sent : ∀ i v, (i, .commit v) ∈ t.sent →
    2 * ((N - 1) / 3) + 1 ≤ (t.node.cntPrepareConfirm v.digest).length
  executed : ∀ d ∈ t.executed, 2 * ((N - 1) / 3) + 1 ≤ (t.node.cntCommitConfirm d).length

theorem counted_newPbftNode (id N : ℕ) (ht : HandleType) (bc : BlockChain H) :
    Counted N { node := .newPbftNode id N ht bc } where
  nodeNums := rfl
  prepares := fun _ => ⟨List.nodup_nil, Finset.empty_subset _⟩
  commits := fun _ => ⟨List.nodup_nil, Finset.empty_subset _⟩
  sent := fun _ _ h => absurd h (by simp)
  executed := fun _ h => absurd h (by simp)

variable {N : ℕ}

theorem Counted.quorum_eq {t : NodeTrace H} (h : Counted N t) :
    t.node.quorum = 2 * ((N - 1) / 3) + 1 := by
  rw [PbftNode.quorum, h.nodeNums]

/-- Messages that are no commits need no quorum. -/
theorem Counted.sent_append {t : NodeTrace H} (h : Counted N t) {msgs : List (ℕ × PbftMsg H)}
    (hmsgs : ∀ p ∈ msgs, ∀ v, p.2 ≠ .commit v) (i : ℕ) (v : Vote H)
    (hv : (i, .commit v) ∈ t.sent ++ msgs) :
    2 * ((N - 1) / 3) + 1 ≤ (t.node.cntPrepareConfirm v.digest).length := by
  rcases List.mem_append.1 hv with hold | hnew
  · exact h.sent i v hold
  · exact absurd rfl (hmsgs _ hnew v)

/-- Where nothing is counted nothing is sent or executed either. -/
theorem Counted.of_sameCounts {t : NodeTrace H} (h : Counted N t) {n : PbftNode H}
    (hsame : PbftNode.SameCounts t.node n) {msgs : List (ℕ × PbftMsg H)}
    (hmsgs : ∀ p ∈ msgs, ∀ v, p.2 ≠ .commit v) (ms : List (PbftMsg H)) :
    Counted N ⟨n, t.processed ++ ms, t.sent ++ msgs, t.executed ++ []⟩ where
  nodeNums := hsame.nodeNums.trans h.nodeNums
  prepares := by
    rw [hsame.prepares]
    exact h.prepares.mono fun d => preparers_subset_append d _ _
  commits := by
    rw [hsame.commits]
    exact h.commits.mono fun d => committers_subset_append d _ _
  sent := by
    rw [hsame.prepares]
    exact h.sent_append hmsgs
  executed := by
    rw [hsame.commits, List.append_nil]
    exact h.executed

/-- A prepare message is counted. -/
theorem Counted.countPrepare {t : NodeTrace H} (h : Counted N t) {m : Vote H}
    (hnew : m.senderNode ∉ t.node.cntPrepareConfirm m.digest) {n : PbftNode H}
    (hsame : PbftNode.SameCounts (t.node.countPrepare m) n) {msgs : List (ℕ × PbftMsg H)}
    (hmsgs : ∀ i v, (i, .commit v) ∈ msgs →
      2 * ((N - 1) / 3) + 1 ≤ (n.cntPrepareConfirm v.digest).length) :
    Counted N ⟨n, t.processed ++ [.prepare m], t.sent ++ msgs, t.executed ++ []⟩ where
  nodeNums := hsame.nodeNums.trans h.nodeNums
  prepares := by
    rw [hsame.prepares]
    exact h.prepares.count (fun d => preparers_subset_append d _ _) hnew
      (mem_preparers_append m _)
  commits := by
    rw [hsame.commits]
    exact h.commits.mono fun d => committers_subset_append d _ _
  sent := by
    intro i v hv
    rcases List.mem_append.1 hv with hold | hnew
    · rw [hsame.prepares]
      exact length_le_update_cons (h.sent i v hold)
    · exact hmsgs i v hnew
  executed := by
    rw [hsame.commits, List.append_nil]
    exact h.executed

/-- A commit message is counted. -/
theorem Counted.countCommit {t : NodeTrace H} (h : Counted N t) {m : Vote H}
    (hnew : m.senderNode ∉ t.node.cntCommitConfirm m.digest) {n : PbftNode H}
    (hsame : PbftNode.SameCounts (t.node.countCommit m) n) {msgs : List (ℕ × PbftMsg H)}
    (hmsgs : ∀ p ∈ msgs, ∀ v, p.2 ≠ .commit v) {ds : List H}
    (hds : ∀ d ∈ ds, 2 * ((N - 1) / 3) + 1 ≤ (n.cntCommitConfirm d).length) :
    Counted N ⟨n, t.processed ++ [.commit m], t.sent ++ msgs, t.executed ++ ds⟩ where
  nodeNums := hsame.nodeNums.trans h.nodeNums
  prepares := by
    rw [hsame.prepares]
    exact h.prepares.mono fun d => preparers_subset_append d _ _
  commits := by
    rw [hsame.commits]
    exact h.commits.count (fun d => committers_subset_append d _ _) hnew
      (mem_committers_append m _)
  sent := by
    rw [hsame.prepares]
    exact h.sent_append hmsgs
  executed := by
    intro d hd
    rcases List.mem_append.1 hd with hold | hnew
    · rw [hsame.commits]
      exact length_le_update_cons (h.executed d hold)
    · exact hds d hnew

theorem Counted.handlePrepare {t : NodeTrace H} (h : Counted N t) {m : Vote H}
    (hnew : m.seqID = t.node.sequenceID → t.node.requestPool m.digest ≠ none →
      m.senderNode ∉ t.node.cntPrepareConfirm m.digest) {n : PbftNode H}
    {msgs : List (ℕ × PbftMsg H)} (hh : t.node.HandlesPrepare m n msgs) :
    Counted N ⟨n, t.processed ++ [.prepare m], t.sent ++ msgs, t.executed ++ []⟩ := by
  cases hh with
  | drop => exact h.of_sameCounts ⟨rfl, rfl, rfl⟩ (by simp) _
  | count hseq _ hpool => exact h.countPrepare (hnew hseq hpool) ⟨rfl, rfl, rfl⟩ (by simp)
  | commit hseq _ hpool hdone =>
    have hsame : PbftNode.SameCounts (t.node.countPrepare m)
        { t.node.countPrepare m with
          isCommitBordcast := Function.update t.node.isCommitBordcast m.digest true
          pbftStage := t.node.pbftStage + 1 } := ⟨rfl, rfl, rfl⟩
    refine h.countPrepare (hnew hseq hpool) hsame ?_
    intro i v hv
    obtain rfl : v = t.node.vote m.digest m.seqID :=
      PbftMsg.commit.inj (PbftNode.snd_of_mem_toAll hv)
    rw [PbftNode.completesPrepare, Bool.and_eq_true, decide_eq_true_eq, h.quorum_eq] at hdone
    exact hdone.1.trans_eq (congrArg List.length (t.node.countPrepare_self m)).symm

theorem Counted.handleCommit {t : NodeTrace H} (h : Counted N t) {m : Vote H}
    (hnew : t.node.sequenceID ≤ m.seqID → m.senderNode ∉ t.node.cntCommitConfirm m.digest)
    {n : PbftNode H} {msgs : List (ℕ × PbftMsg H)} (hh : t.node.HandlesCommit m n msgs) :
    Counted N ⟨n, t.processed ++ [.commit m], t.sent ++ msgs,
      t.executed ++ ((t.node.committing m).map fun _ => m.digest).toList⟩ := by
  -- a request is executed only with a commit message that completes the quorum
  have hds : t.node.completesCommit m = true → ∀ n', PbftNode.SameCounts (t.node.countCommit m) n' →
      ∀ d ∈ ((t.node.committing m).map fun _ => m.digest).toList,
        2 * ((N - 1) / 3) + 1 ≤ (n'.cntCommitConfirm d).length := by
    intro hdone n' hsame d hd
    obtain ⟨-, -, rfl⟩ := Option.map_eq_some_iff.1 (Option.mem_toList.1 hd)
    rw [PbftNode.completesCommit, Bool.and_eq_true, decide_eq_true_eq, h.quorum_eq] at hdone
    rw [hsame.commits, PbftNode.countCommit_self]
    exact hdone.1
  cases hh with
  | drop hold =>
    rw [PbftNode.committing, if_pos (by simp [hold])]
    exact h.of_sameCounts ⟨rfl, rfl, rfl⟩ (by simp) _
  | count hseq _ hdone =>
    rw [t.node.committing_of_not_completes hdone]
    exact h.countCommit (hnew hseq) ⟨rfl, rfl, rfl⟩ (by simp) (by simp)
  | wait hseq _ hdone =>
    have hsame : PbftNode.SameCounts (t.node.countCommit m)
        { t.node.countCommit m with
          isReply := Function.update t.node.isReply m.digest true
          blocked := some m } := ⟨rfl, rfl, rfl⟩
    exact h.countCommit (hnew hseq) hsame (by simp) (hds hdone _ hsame)
  | ask hseq _ hdone =>
    have hask := PbftNode.sameCounts_askForOld
      { t.node.countCommit m with isReply := Function.update t.node.isReply m.digest true } m
    have hsame : PbftNode.SameCounts (t.node.countCommit m) _ :=
      ⟨hask.nodeNums, hask.prepares, hask.commits⟩
    refine h.countCommit (hnew hseq) hsame ?_ (hds hdone _ hsame)
    simp [PbftNode.askForOld]
  | execute hseq _ hdone =>
    have hsame := PbftNode.sameCounts_executeRequest (t.node.countCommit m) m.digest
    exact h.countCommit (hnew hseq) (hsame _) (by simp) (hds hdone _ (hsame _))

theorem Counted.step {t t' : NodeTrace H} (h : Counted N t) {a : NodeAct H} (ha : t.CountsOnce a)
    (hs : t.step a = some t') : Counted N t' := by
  obtain ⟨n, msgs, hact, rfl⟩ := step_cases hs
  cases a with
  | deliver m =>
    cases m with
    | prepare m => exact h.handlePrepare ha (PbftNode.handlesPrepare_of_handlePrepare hact)
    | commit m => exact h.handleCommit ha (PbftNode.handlesCommit_of_handleCommit hact)
    | _ =>
      obtain ⟨hsame, hmsgs⟩ := PbftNode.act_frame hact (by simp) (by simp)
      exact h.of_sameCounts hsame hmsgs _
  | _ =>
    obtain ⟨hsame, hmsgs⟩ := PbftNode.act_frame hact (by simp) (by simp)
    exact h.of_sameCounts hsame hmsgs _

/-- **Quorums consist of different nodes**, if no sender's vote for a digest is counted again: behind every commit message sent and every digest executed are votes of
    `2f + 1` different nodes among the messages processed. -/
theorem quorums_of_distinct_nodes (id : ℕ) (ht : HandleType) (bc : BlockChain H) {t : NodeTrace H}
    (hrun : ReachesUnder NodeTrace.step CountsOnce { node := .newPbftNode id N ht bc } t) :
    (∀ i v, (i, .commit v) ∈ t.sent →
      2 * ((N - 1) / 3) + 1 ≤ (preparers v.digest t.processed).card) ∧
      ∀ d ∈ t.executed, 2 * ((N - 1) / 3) + 1 ≤ (committers d t.processed).card := by
  have h := hrun.invariant (I := Counted N) (counted_newPbftNode id N ht bc)
    fun _ _ _ h hP hs => h.step hP hs
  exact ⟨fun i v hv => (h.sent i v hv).trans (h.prepares.length_le v.digest),
    fun d hd => (h.executed d hd).trans (h.commits.length_le d)⟩

/-! ## Repeated votes -/

section Sample

open BlockChain

/-- The proposal of a block in the first round, then prepare and commit messages for it from the
    nodes given. -/
def votes (r : Request SymHash) (preparing committing : List ℕ) : List (NodeAct SymHash) :=
  .deliver (.prePrepare ⟨r, Hashing.getDigest r, 1⟩) ::
    (preparing.map fun i => .deliver (.prepare ⟨Hashing.getDigest r, 1, i⟩)) ++
    committing.map fun i => .deliver (.commit ⟨Hashing.getDigest r, 1, i⟩)

/-- The request for the first block of the sample chain. -/
def firstRequest : Option (Request SymHash) :=
  (sampleGenesis.generateBlock 0 0).map fun p => ⟨.block p.2, 0⟩

/-- Node 1 of four hears from three nodes in each phase. -/
theorem quorums_of_three_nodes :
    ∃ t, ReachesUnder NodeTrace.step CountsOnce
        { node := .newPbftNode 1 4 .relay sampleGenesis } t ∧
      ∃ i v, (i, .commit v) ∈ t.sent ∧ 3 ≤ (preparers v.digest t.processed).card ∧
        v.digest ∈ t.executed ∧ 3 ≤ (committers v.digest t.processed).card := by
  have hrun : ∃ r ∈ firstRequest,
      ∃ t ∈ runChecked NodeTrace.step (fun t a => decide (t.CountsOnce a))
        { node := .newPbftNode 1 4 .relay sampleGenesis } (votes r [0, 1, 2] [0, 1, 3]),
      (∃ p ∈ t.sent, p.2.committer (Hashing.getDigest r) = some 1) ∧
        Hashing.getDigest r ∈ t.executed := by decide +kernel
  obtain ⟨r, -, t, ht, ⟨⟨i, m⟩, hsent, hm⟩, hexec⟩ := hrun
  obtain ⟨v, rfl, hd⟩ := PbftMsg.eq_commit_of_committer hm
  have hreach := reachesUnder_of_runDecided ht
  obtain ⟨hprep, hcom⟩ := quorums_of_distinct_nodes 1 .relay sampleGenesis hreach
  exact ⟨t, hreach, i, v, hsent, hprep i v hsent, hd ▸ hexec, hcom _ (hd ▸ hexec)⟩

/-- One prepare message delivered three times makes node 1 of four commit, and one commit message
    delivered three times makes it execute. -/
theorem repeated_votes_count :
    ∃ t, Reaches NodeTrace.step { node := .newPbftNode 1 4 .relay sampleGenesis } t ∧
      ∃ i v, (i, .commit v) ∈ t.sent ∧ (preparers v.digest t.processed).card = 1 ∧
        v.digest ∈ t.executed ∧ (committers v.digest t.processed).card = 1 := by
  have hrun : ∃ r ∈ firstRequest,
      ∃ t ∈ runActions NodeTrace.step { node := .newPbftNode 1 4 .relay sampleGenesis }
        (votes r [2, 2, 2] [2, 2, 2]),
      (∃ p ∈ t.sent, p.2.committer (Hashing.getDigest r) = some 1) ∧
        (preparers (Hashing.getDigest r) t.processed).card = 1 ∧
        Hashing.getDigest r ∈ t.executed ∧
        (committers (Hashing.getDigest r) t.processed).card = 1 := by decide +kernel
  obtain ⟨r, -, t, ht, ⟨⟨i, m⟩, hsent, hm⟩, hprep, hexec, hcom⟩ := hrun
  obtain ⟨v, rfl, hd⟩ := PbftMsg.eq_commit_of_committer hm
  exact ⟨t, reaches_of_runActions ht, i, v, hsent, hd ▸ hprep, hd ▸ hexec, hd ▸ hcom⟩

end Sample

end NodeTrace

end BlockEmulator
