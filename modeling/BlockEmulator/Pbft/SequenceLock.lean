import BlockEmulator.Pbft.Quorum
import BlockEmulator.Pbft.ViewChange

set_option autoImplicit false

/-! # The sequence lock

`Propose` takes `sequenceLock` in the routine of the round timer, and `handleCommit` gives it back in
a routine of its own, if the node is the main node of the view it is in by then. A view change in
between leaves the lock with a proposal that nobody will execute, or makes a node that never took the
lock give it back. `LockTrace` follows one node, whatever messages reach it, and its own proposals that
it has not executed yet. As long as a view change finds no proposal under way, and what a main node
commits is its own proposal, the lock is held exactly while there is one. -/

namespace BlockEmulator

/-- A proposal a node has sent, with the view and the sequence number it had then. -/
structure OwnProposal (H : Type) where
  view : ℕ
  seqID : ℕ
  digest : H

variable {H : Type} [DecidableEq H] [Hashing H]

namespace PbftNode

/-- The proposal that the action makes the node send. -/
def proposal (n : PbftNode H) : NodeAct H → Option (OwnProposal H)
  | .propose partition now reqTime =>
    (n.propose partition now reqTime).bind fun p =>
      p.2.1.map fun r => ⟨n.view, n.sequenceID, Hashing.getDigest r⟩
  | _ => none

/-- The commit message ends the round of the node: it is not out of date and completes a quorum. -/
def endsRound (n : PbftNode H) (m : Vote H) : Bool :=
  n.sequenceID ≤ m.seqID && n.completesCommit m

theorem endRound_of_not_isMain {n : PbftNode H} (h : n.isMain = false) :
    n.endRound = { n with pbftStage := 1 } := by
  rw [endRound, h]
  rfl

/-- The two nodes do not differ in what concerns the lock; requests may have been added. -/
structure SameHold (n n' : PbftNode H) : Prop where
  nodeID : n'.nodeID = n.nodeID
  view : n'.view = n.view
  sequenceID : n'.sequenceID = n.sequenceID
  sequenceLock : n'.sequenceLock = n.sequenceLock
  waiting : n'.waiting = n.waiting
  proposing : n'.proposing = n.proposing
  blocked : n'.blocked = n.blocked
  requestPool : ∀ d, n.requestPool d ≠ none → n'.requestPool d ≠ none

/-- A node that is the same in all of this, whatever else it has changed. -/
theorem SameHold.of_eq {n n' : PbftNode H}
    (h : (n'.nodeID, n'.view, n'.sequenceID, n'.sequenceLock, n'.waiting, n'.proposing, n'.blocked,
        n'.requestPool) =
      (n.nodeID, n.view, n.sequenceID, n.sequenceLock, n.waiting, n.proposing, n.blocked,
        n.requestPool)) : SameHold n n' := by
  simp only [Prod.mk.injEq] at h
  obtain ⟨hid, hview, hseq, hlock, hwait, hprop, hblocked, hpool⟩ := h
  exact ⟨hid, hview, hseq, hlock, hwait, hprop, hblocked, fun _ h => hpool ▸ h⟩

theorem SameHold.isMain {n n' : PbftNode H} (h : SameHold n n') : n'.isMain = n.isMain := by
  rw [PbftNode.isMain, PbftNode.isMain, h.nodeID, h.view]

theorem requestPool_putRequest {n : PbftNode H} (seqID : ℕ) (r : Request H) {d : H}
    (h : n.requestPool d ≠ none) : (n.putRequest seqID r).requestPool d ≠ none := by
  rw [putRequest]
  simp only [Function.update_apply]
  split
  · simp
  · exact h

theorem sameHold_handlePrePrepare {n n' : PbftNode H} {m : PrePrepare H}
    {msgs : List (ℕ × PbftMsg H)} (h : n.handlePrePrepare m = some (n', msgs)) : SameHold n n' := by
  rcases handlePrePrepare_cases h with ⟨rfl, -⟩ | ⟨rfl, -⟩ | ⟨-, rfl, -⟩ | ⟨-, rfl, -⟩
  · exact .of_eq rfl
  · exact .of_eq rfl
  · exact ⟨rfl, rfl, rfl, rfl, rfl, rfl, rfl, fun _ h => requestPool_putRequest m.seqID _ h⟩
  · exact ⟨rfl, rfl, rfl, rfl, rfl, rfl, rfl, fun _ h => requestPool_putRequest m.seqID _ h⟩

theorem sameHold_handlePrepare {n n' : PbftNode H} {m : Vote H} {msgs : List (ℕ × PbftMsg H)}
    (h : n.handlePrepare m = some (n', msgs)) : SameHold n n' := by
  obtain ⟨c, b, stage, rfl, -⟩ := handlePrepare_cases h
  exact .of_eq rfl

end PbftNode

/-! ## Runs of one node with its proposals -/

/-- A node and the proposals of its own that it has not executed. -/
structure LockTrace (H : Type) [DecidableEq H] [Hashing H] where
  node : PbftNode H
  unexecuted : List (OwnProposal H) := []

namespace LockTrace

/-- One action of a live node. -/
def step (t : LockTrace H) (a : NodeAct H) : Option (LockTrace H) :=
  if t.node.alive then
    (t.node.act a).map fun p =>
      { node := p.1
        unexecuted := (t.unexecuted.filter fun q => t.node.executing a ≠ some q.digest) ++
          (t.node.proposal a).toList }
  else none

theorem step_cases {t t' : LockTrace H} {a : NodeAct H} (h : t.step a = some t') :
    t.node.alive = true ∧ ∃ n msgs, t.node.act a = some (n, msgs) ∧
      t' = ⟨n, (t.unexecuted.filter fun q => t.node.executing a ≠ some q.digest) ++
        (t.node.proposal a).toList⟩ := by
  obtain ⟨halive, h⟩ := Option.ite_none_right_eq_some.1 h
  obtain ⟨⟨n, msgs⟩, hact, rfl⟩ := Option.map_eq_some_iff.1 h
  exact ⟨halive, n, msgs, hact, rfl⟩

/-- The node has a proposal of its own for its view and its sequence number that it has not
    executed. -/
def Live (t : LockTrace H) : Prop :=
  ∃ p ∈ t.unexecuted, p.view = t.node.view ∧ p.seqID = t.node.sequenceID

instance (t : LockTrace H) : Decidable t.Live :=
  inferInstanceAs (Decidable (∃ p ∈ t.unexecuted, _))

/-- A view is installed, or old requests are executed, only while no proposal of the node is under
    way, and a commit message that ends the round of a main node is for its own proposal. -/
def Undisturbed (t : LockTrace H) : NodeAct H → Prop
  | .deliver (.commit m) => t.node.isMain = true → t.node.endsRound m = true →
      ∃ p ∈ t.unexecuted, p.digest = m.digest
  | .deliver (.newView m) => t.node.installsView (.newView m) = true →
      t.node.waiting = 0 ∧ t.node.proposing = 0 ∧ ¬t.Live ∧ t.node.blocked.isNone = true
  | .deliver (.sendOld _) => ¬t.Live
  | _ => True

instance (t : LockTrace H) : (a : NodeAct H) → Decidable (t.Undisturbed a)
  | .deliver (.commit m) => inferInstanceAs (Decidable (t.node.isMain = true →
      t.node.endsRound m = true → ∃ p ∈ t.unexecuted, p.digest = m.digest))
  | .deliver (.newView m) => inferInstanceAs (Decidable (t.node.installsView (.newView m) = true →
      t.node.waiting = 0 ∧ t.node.proposing = 0 ∧ ¬t.Live ∧ t.node.blocked.isNone = true))
  | .deliver (.sendOld _) => inferInstanceAs (Decidable ¬t.Live)
  | .deliver (.prePrepare _) | .deliver (.prepare _) | .deliver (.requestOld _)
  | .deliver (.viewChange _) | .outside _ | .roundSignal | .takeSignal | .lockSequence
  | .propose _ _ _ | .storeStage | .resume | .timeout => .isTrue trivial

/-! ## Who holds the lock -/

/-- The lock is free; or a routine of `Propose` holds it that has yet to send its proposal; or it
    stands for one proposal that the node has not executed, whose request is in the pool. -/
inductive Holder (n : PbftNode H) (ps : List (OwnProposal H)) : Prop
  | free : n.sequenceLock = false → n.proposing = 0 → ps = [] → Holder n ps
  | proposing : n.sequenceLock = true → n.proposing = 1 → ps = [] → Holder n ps
  | outstanding (p : OwnProposal H) : n.sequenceLock = true → n.proposing = 0 → ps = [p] →
      p.view = n.view → p.seqID = n.sequenceID → n.requestPool p.digest ≠ none → Holder n ps

/-- Somebody holds the lock, and only at the main node, where no handler waits for old requests. -/
structure Guarded (n : PbftNode H) (ps : List (OwnProposal H)) : Prop where
  holder : Holder n ps
  follower : n.isMain = false → n.sequenceLock = false ∧ n.waiting = 0
  blocked : n.blocked.isSome = true → n.isMain = false

variable {n n' : PbftNode H} {ps : List (OwnProposal H)}

theorem guarded_newPbftNode (id N : ℕ) (ht : HandleType) (bc : BlockChain H) :
    Guarded (PbftNode.newPbftNode id N ht bc) [] where
  holder := .free rfl rfl rfl
  follower := fun _ => ⟨rfl, rfl⟩
  blocked := fun h => absurd h (by simp [PbftNode.newPbftNode])

/-- Nobody but the main node has taken the lock. -/
theorem Guarded.free_of_not_isMain (h : Guarded n ps) (hmain : n.isMain = false) :
    n.sequenceLock = false ∧ n.proposing = 0 ∧ ps = [] := by
  have hlock := (h.follower hmain).1
  cases h.holder with
  | free _ hprop hps => exact ⟨hlock, hprop, hps⟩
  | proposing htaken => exact absurd (hlock.symm.trans htaken) (by simp)
  | outstanding p htaken => exact absurd (hlock.symm.trans htaken) (by simp)

/-- A free lock stays free whatever else happens, if no routine is at it. -/
theorem Guarded.of_free (hlock : n'.sequenceLock = false) (hprop : n'.proposing = 0)
    (hwait : n'.isMain = false → n'.waiting = 0)
    (hblocked : n'.blocked.isSome = true → n'.isMain = false) : Guarded n' [] :=
  ⟨.free hlock hprop rfl, fun hmain => ⟨hlock, hwait hmain⟩, hblocked⟩

theorem Guarded.congr (h : Guarded n ps) (hsame : PbftNode.SameHold n n') : Guarded n' ps where
  holder := by
    cases h.holder with
    | free hlock hprop hps =>
      exact .free (hsame.sequenceLock.trans hlock) (hsame.proposing.trans hprop) hps
    | proposing hlock hprop hps =>
      exact .proposing (hsame.sequenceLock.trans hlock) (hsame.proposing.trans hprop) hps
    | outstanding p hlock hprop hps hview hseq hpool =>
      exact .outstanding p (hsame.sequenceLock.trans hlock) (hsame.proposing.trans hprop) hps
        (hview.trans hsame.view.symm) (hseq.trans hsame.sequenceID.symm)
        (hsame.requestPool _ hpool)
  follower := by
    intro hmain
    rw [hsame.sequenceLock, hsame.waiting]
    exact h.follower (hsame.isMain ▸ hmain)
  blocked := by
    intro hblocked
    rw [hsame.isMain]
    exact h.blocked (hsame.blocked ▸ hblocked)

/-! ## The routines of `Propose` -/

/-- Only the main node lets one more routine wait. -/
theorem Guarded.takeSignal (h : Guarded n ps) :
    Guarded { n with
      signalled := false
      waiting := if n.isMain then n.waiting + 1 else n.waiting } ps where
  holder := by
    cases h.holder with
    | free hlock hprop hps => exact .free hlock hprop hps
    | proposing hlock hprop hps => exact .proposing hlock hprop hps
    | outstanding p hlock hprop hps hview hseq hpool =>
      exact .outstanding p hlock hprop hps hview hseq hpool
  follower := by
    intro (hmain : n.isMain = false)
    obtain ⟨hlock, hwait⟩ := h.follower hmain
    refine ⟨hlock, ?_⟩
    simp [hmain, hwait]
  blocked := h.blocked

/-- The routine that gets the lock finds nothing under way. -/
theorem Guarded.lockSequence (h : Guarded n ps) (hs : n.lockSequence = some n') :
    Guarded n' ps := by
  simp only [PbftNode.lockSequence, Option.ite_none_right_eq_some, Bool.and_eq_true,
    decide_eq_true_eq, Bool.not_eq_true', Option.some.injEq] at hs
  obtain ⟨⟨hwait, hlock⟩, rfl⟩ := hs
  refine ⟨?_, ?_, h.blocked⟩
  · cases h.holder with
    | free _ hprop hps => exact .proposing rfl (congrArg (· + 1) hprop) hps
    | proposing htaken => exact absurd (hlock.symm.trans htaken) (by simp)
    | outstanding p htaken => exact absurd (hlock.symm.trans htaken) (by simp)
  · intro hmain
    exact absurd (h.follower hmain).2 hwait.ne'

/-- The proposal takes over the lock from the routine that sends it. -/
theorem Guarded.propose (h : Guarded n ps) {partition : Option AccountTransferMsg}
    {now reqTime : ℕ} {r : Option (Request H)} {msgs : List (ℕ × PbftMsg H)}
    (hp : n.propose partition now reqTime = some (n', r, msgs)) (halive : n'.alive = true) :
    Guarded n' (ps ++ (n.proposal (.propose partition now reqTime)).toList) := by
  rw [PbftNode.proposal, hp]
  obtain ⟨hpos, -, ⟨rfl, -, -⟩ | ⟨bc, req, -, rfl, rfl, -⟩⟩ := PbftNode.propose_cases hp
  · exact absurd halive (by simp [PbftNode.crash])
  · refine ⟨?_, h.follower, h.blocked⟩
    cases h.holder with
    | free _ hprop => omega
    | proposing hlock hprop hps =>
      subst hps
      refine .outstanding ⟨n.view, n.sequenceID, Hashing.getDigest req⟩ hlock ?_ rfl rfl rfl ?_
      · show n.proposing - 1 = 0
        omega
      · simp [PbftNode.putRequest]
    | outstanding p _ hprop => omega

/-! ## The handlers -/

/-- A handler of a follower ends the round without the lock. -/
theorem Guarded.askForOld (h : Guarded n ps) (hmain : n.isMain = false) (m : Vote H) :
    Guarded (n.askForOld m).1 ps := by
  obtain ⟨hlock, hprop, rfl⟩ := h.free_of_not_isMain hmain
  have hmain' : { n with askForLock := true }.isMain = false := hmain
  rw [PbftNode.askForOld, PbftNode.endRound_of_not_isMain hmain']
  exact .of_free hlock hprop (fun _ => (h.follower hmain).2) fun _ => hmain

/-- Only a handler of a follower has waited for old requests. -/
theorem Guarded.resume (h : Guarded n ps) {msgs : List (ℕ × PbftMsg H)}
    (hr : n.resume = some (n', msgs)) : Guarded n' ps := by
  unfold PbftNode.resume at hr
  split at hr
  · next m hm =>
      obtain ⟨-, hask⟩ := Option.ite_none_left_eq_some.1 hr
      obtain ⟨rfl, rfl⟩ := Prod.ext_iff.1 (Option.some.inj hask)
      have hmain : n.isMain = false := h.blocked (by simp [hm])
      obtain ⟨hlock, hprop, rfl⟩ := h.free_of_not_isMain hmain
      have hwoken : Guarded { n with blocked := none } [] :=
        .of_free hlock hprop (fun _ => (h.follower hmain).2) fun _ => hmain
      exact hwoken.askForOld hmain m
  · exact absurd hr (by simp)

/-- Executing a request at a follower. -/
theorem Guarded.execute_follower (h : Guarded n ps) (hmain : n.isMain = false) {digest : H}
    {r : Request H} (halive : (n.executeRequest digest r).alive = true) :
    Guarded (n.executeRequest digest r) [] := by
  obtain ⟨hlock, hprop, -⟩ := h.free_of_not_isMain hmain
  unfold PbftNode.executeRequest at halive ⊢
  split
  · next bc hbc =>
      rw [PbftNode.endRound_of_not_isMain (by exact hmain)]
      exact .of_free hlock hprop (fun _ => (h.follower hmain).2) fun _ => hmain
  · next hbc =>
      rw [hbc] at halive
      exact absurd halive (by simp [PbftNode.crash])

/-- Executing its own proposal, the main node gives the lock back. -/
theorem Guarded.execute_main (h : Guarded n ps) (hmain : n.isMain = true)
    (hlock : n.sequenceLock = true) (hprop : n.proposing = 0) {digest : H} {r : Request H}
    (halive : (n.executeRequest digest r).alive = true) :
    Guarded (n.executeRequest digest r) [] := by
  unfold PbftNode.executeRequest at halive ⊢
  split
  · next bc hbc =>
      rw [PbftNode.endRound_of_isMain (by exact hmain) (by exact hlock)]
      refine .of_free rfl hprop ?_ h.blocked
      intro (hmain' : n.isMain = false)
      exact absurd (hmain.symm.trans hmain') (by simp)
  · next hbc =>
      rw [hbc] at halive
      exact absurd halive (by simp [PbftNode.crash])

/-- The proposals left after a delivery that executes nothing. -/
theorem filter_executing_none {a : NodeAct H} (h : n.executing a = none)
    (ps : List (OwnProposal H)) :
    (ps.filter fun q => n.executing a ≠ some q.digest) = ps := by
  rw [h]
  simp

/-- A proposal of its own stands for the lock, and its request is in the pool. -/
theorem Guarded.of_mem (h : Guarded n ps) {p : OwnProposal H} (hp : p ∈ ps) :
    ps = [p] ∧ n.sequenceLock = true ∧ n.proposing = 0 ∧ n.requestPool p.digest ≠ none := by
  cases h.holder with
  | free _ _ hps => exact absurd hp (by simp [hps])
  | proposing _ _ hps => exact absurd hp (by simp [hps])
  | outstanding q hlock hprop hps _ _ hpool =>
    rw [hps, List.mem_singleton] at hp
    subst hp
    exact ⟨hps, hlock, hprop, hpool⟩

/-- Only a follower ends its round without the request: a main node ends it with its own proposal. -/
theorem Guarded.not_isMain_of_endsRound (h : Guarded n ps) {m : Vote H}
    (hown : n.isMain = true → n.endsRound m = true → ∃ p ∈ ps, p.digest = m.digest)
    (hends : n.endsRound m = true) (hnone : n.requestPool m.digest = none) : n.isMain = false := by
  rw [← Bool.not_eq_true]
  intro hmain
  obtain ⟨p, hp, hd⟩ := hown hmain hends
  exact (h.of_mem hp).2.2.2 (hd ▸ hnone)

/-- **One commit message**: it unlocks a lock that is held, or none. -/
theorem Guarded.handleCommit (h : Guarded n ps) {m : Vote H} {msgs : List (ℕ × PbftMsg H)}
    (hown : n.isMain = true → n.endsRound m = true → ∃ p ∈ ps, p.digest = m.digest)
    (hh : n.HandlesCommit m n' msgs) (halive : n'.alive = true) :
    Guarded n' (ps.filter fun q => n.executing (.deliver (.commit m)) ≠ some q.digest) := by
  have hends : n.sequenceID ≤ m.seqID → n.completesCommit m = true → n.endsRound m = true :=
    fun hseq hdone => by simp [PbftNode.endsRound, hseq, hdone]
  have hnothing : n.committing m = none →
      (ps.filter fun q => n.executing (.deliver (.commit m)) ≠ some q.digest) = ps := fun hc =>
    filter_executing_none (by rw [PbftNode.executing, hc]; rfl) ps
  cases hh with
  | drop hold =>
    rw [hnothing (by rw [PbftNode.committing, if_pos (by simp [hold])])]
    exact h
  | count _ _ hdone =>
    rw [hnothing (n.committing_of_not_completes hdone)]
    exact h.congr (.of_eq rfl)
  | wait hseq _ hdone hnone =>
    have hmain := h.not_isMain_of_endsRound hown (hends hseq hdone) hnone
    obtain ⟨hlock, hprop, rfl⟩ := h.free_of_not_isMain hmain
    exact .of_free hlock hprop (fun _ => (h.follower hmain).2) fun _ => hmain
  | ask hseq _ hdone hnone =>
    have hmain := h.not_isMain_of_endsRound hown (hends hseq hdone) hnone
    obtain ⟨-, -, rfl⟩ := h.free_of_not_isMain hmain
    have hsame : Guarded { n.countCommit m with
        isReply := Function.update n.isReply m.digest true } [] :=
      h.congr (.of_eq rfl)
    exact hsame.askForOld hmain m
  | execute hseq _ hdone hr =>
    have hsame : Guarded (n.countCommit m) ps :=
      h.congr (.of_eq rfl)
    have hexec : n.executing (.deliver (.commit m)) = some m.digest := by
      rw [PbftNode.executing, hr]
      rfl
    rw [hexec]
    cases hmain : n.isMain with
    | true =>
      obtain ⟨p, hp, hd⟩ := hown hmain (hends hseq hdone)
      obtain ⟨rfl, hlock, hprop, -⟩ := h.of_mem hp
      have hnone : ([p].filter fun q => some m.digest ≠ some q.digest) = [] := by simp [hd]
      rw [hnone]
      exact hsame.execute_main hmain hlock hprop halive
    | false =>
      obtain ⟨-, -, rfl⟩ := h.free_of_not_isMain hmain
      exact hsame.execute_follower hmain halive

/-- Without a live proposal the lock is free or with a routine that has not proposed yet, whatever
    the sequence number becomes. -/
theorem Guarded.handleSendOldSeq (h : Guarded n ps)
    (hlive : ¬∃ p ∈ ps, p.view = n.view ∧ p.seqID = n.sequenceID) (m : SendOldMessage H) :
    Guarded (n.handleSendOldSeq m).1 ps := by
  obtain ⟨bc, pool, h2d, replied, seq, ask, alive, heq, -, -⟩ := n.handleSendOldSeq_frame m
  rw [heq]
  refine ⟨?_, h.follower, h.blocked⟩
  cases h.holder with
  | free hlock hprop hps => exact .free hlock hprop hps
  | proposing hlock hprop hps => exact .proposing hlock hprop hps
  | outstanding p _ _ hps hview hseq =>
    exact absurd ⟨p, by simp [hps], hview, hseq⟩ hlive

theorem Guarded.handleNewViewMsg (h : Guarded n ps) {m : ViewMsg}
    (hidle : n.installsView (.newView m) = true → n.waiting = 0 ∧ n.proposing = 0 ∧
      (¬∃ p ∈ ps, p.view = n.view ∧ p.seqID = n.sequenceID) ∧ n.blocked.isNone = true) :
    Guarded (n.handleNewViewMsg m) ps := by
  cases hinst : n.installsView (.newView m) with
  | false =>
    rw [PbftNode.handleNewViewMsg_of_not_installs hinst]
    exact h.congr (.of_eq rfl)
  | true =>
    obtain ⟨hwait, hprop, hlive, hblocked⟩ := hidle hinst
    rw [PbftNode.handleNewViewMsg_of_installs hinst]
    have hnone : n.blocked = none := Option.isNone_iff_eq_none.1 hblocked
    have hfree : n.sequenceLock = false ∧ ps = [] := by
      cases h.holder with
      | free hlock _ hps => exact ⟨hlock, hps⟩
      | proposing _ hone => omega
      | outstanding p _ _ hps hview hseq =>
        exact absurd ⟨p, by simp [hps], hview, hseq⟩ hlive
    obtain ⟨hlock, rfl⟩ := hfree
    refine .of_free hlock hprop (fun _ => hwait) ?_
    intro (hsome : n.blocked.isSome = true)
    exact absurd hsome (by simp [hnone])

/-- **One action** of an undisturbed node. -/
theorem Guarded.step {t t' : LockTrace H} (h : Guarded t.node t.unexecuted) {a : NodeAct H}
    (ha : t.Undisturbed a) (hs : t.step a = some t') (halive : t'.node.alive = true) :
    Guarded t'.node t'.unexecuted := by
  obtain ⟨-, n', msgs, hact, rfl⟩ := step_cases hs
  -- all but commit messages execute nothing, and all but `Propose` propose nothing
  have hidle : t.node.executing a = none → t.node.proposal a = none →
      Guarded n' t.unexecuted →
      Guarded n' ((t.unexecuted.filter fun q => t.node.executing a ≠ some q.digest) ++
        (t.node.proposal a).toList) := by
    intro hexec hprop hg
    rw [filter_executing_none hexec, hprop, Option.toList_none, List.append_nil]
    exact hg
  cases a with
  | outside pool =>
    obtain ⟨rfl, rfl⟩ := Prod.mk.inj (Option.some.inj hact)
    exact hidle rfl rfl (h.congr (.of_eq rfl))
  | roundSignal =>
    simp only [PbftNode.act, PbftNode.roundSignal, Option.map_eq_some_iff,
      Option.ite_none_right_eq_some, Option.some.injEq, Prod.mk.injEq] at hact
    obtain ⟨n₀, ⟨-, rfl⟩, rfl, rfl⟩ := hact
    exact hidle rfl rfl (h.congr (.of_eq rfl))
  | takeSignal =>
    simp only [PbftNode.act, PbftNode.takeSignal, Option.map_eq_some_iff,
      Option.ite_none_right_eq_some, Option.some.injEq, Prod.mk.injEq] at hact
    obtain ⟨n₀, ⟨-, rfl⟩, rfl, rfl⟩ := hact
    exact hidle rfl rfl h.takeSignal
  | lockSequence =>
    obtain ⟨n₀, hlock, heq⟩ := Option.map_eq_some_iff.1 hact
    obtain ⟨rfl, rfl⟩ := Prod.mk.inj heq
    exact hidle rfl rfl (h.lockSequence hlock)
  | propose partition now reqTime =>
    obtain ⟨⟨n₀, r, ms⟩, hprop, heq⟩ := Option.map_eq_some_iff.1 hact
    obtain ⟨rfl, rfl⟩ := Prod.mk.inj heq
    rw [filter_executing_none rfl]
    exact h.propose hprop halive
  | storeStage =>
    simp only [PbftNode.act, PbftNode.storeStage, Option.map_eq_some_iff,
      Option.ite_none_right_eq_some, Option.some.injEq, Prod.mk.injEq] at hact
    obtain ⟨n₀, ⟨-, rfl⟩, rfl, rfl⟩ := hact
    exact hidle rfl rfl (h.congr (.of_eq rfl))
  | resume =>
    exact hidle rfl rfl (h.resume hact)
  | timeout =>
    obtain ⟨rfl, rfl⟩ := Prod.ext_iff.1 (Option.some.inj hact)
    exact hidle rfl rfl (h.congr (.of_eq rfl))
  | deliver m =>
    cases m with
    | prePrepare m => exact hidle rfl rfl (h.congr (PbftNode.sameHold_handlePrePrepare hact))
    | prepare m => exact hidle rfl rfl (h.congr (PbftNode.sameHold_handlePrepare hact))
    | commit m =>
      have hnone : t.node.proposal (.deliver (.commit m)) = none := rfl
      rw [hnone, Option.toList_none, List.append_nil]
      exact h.handleCommit ha (PbftNode.handlesCommit_of_handleCommit hact) halive
    | requestOld m =>
      obtain ⟨rfl, rfl⟩ := Prod.ext_iff.1 (Option.some.inj hact)
      rw [PbftNode.handleRequestOldSeq_fst] at hidle ⊢
      exact hidle rfl rfl h
    | sendOld m =>
      obtain ⟨rfl, rfl⟩ := Prod.ext_iff.1 (Option.some.inj hact)
      exact hidle rfl rfl (h.handleSendOldSeq ha m)
    | viewChange m =>
      obtain ⟨rfl, rfl⟩ := Prod.ext_iff.1 (Option.some.inj hact)
      exact hidle rfl rfl (h.congr (.of_eq rfl))
    | newView m =>
      obtain ⟨rfl, rfl⟩ := Prod.ext_iff.1 (Option.some.inj hact)
      exact hidle rfl rfl (h.handleNewViewMsg ha)

/-- **Runs** of an undisturbed node, up to its death. -/
theorem guarded_of_run (id N : ℕ) (ht : HandleType) (bc : BlockChain H) {t : LockTrace H}
    (hrun : ReachesUnder step Undisturbed { node := .newPbftNode id N ht bc } t)
    (halive : t.node.alive = true) : Guarded t.node t.unexecuted := by
  refine hrun.invariant (I := fun t => t.node.alive = true → Guarded t.node t.unexecuted) ?_ ?_
    halive
  · exact fun _ => guarded_newPbftNode id N ht bc
  · intro t a t' h ha hs halive'
    exact (h (step_cases hs).1).step ha hs halive'

/-- The lock is held by a routine that is about to propose, or for a live proposal. -/
theorem Guarded.lock_iff {t : LockTrace H} (h : Guarded t.node t.unexecuted) :
    t.node.sequenceLock = true ↔ t.node.proposing = 1 ∨ t.Live := by
  cases h.holder with
  | free hlock hprop hps => simp [hlock, hprop, Live, hps]
  | proposing hlock hprop => simp [hlock, hprop]
  | outstanding p hlock _ hps hview hseq => simp [hlock, Live, hps, hview, hseq]

/-- **The lock and the proposals.** In every run of a node in which views are installed and old
    requests executed only while no proposal of its own is under way, and a main node commits its own
    proposals: the lock is held exactly while a routine makes a proposal or a proposal for the node's
    view and sequence number is not executed; it is held whenever a main node ends its round; and it
    is free when the node has installed a view. -/
theorem sequenceLock_tracks_proposals (id N : ℕ) (ht : HandleType) (bc : BlockChain H)
    {t : LockTrace H}
    (hrun : ReachesUnder step Undisturbed { node := .newPbftNode id N ht bc } t)
    (halive : t.node.alive = true) :
    (t.node.sequenceLock = true ↔ t.node.proposing = 1 ∨ t.Live) ∧
      (∀ m, t.Undisturbed (.deliver (.commit m)) → t.node.isMain = true →
        t.node.endsRound m = true → t.node.sequenceLock = true) ∧
      ∀ m, t.Undisturbed (.deliver (.newView m)) → t.node.installsView (.newView m) = true →
        (t.node.handleNewViewMsg m).sequenceLock = false := by
  have h := guarded_of_run id N ht bc hrun halive
  refine ⟨h.lock_iff, ?_, ?_⟩
  · intro m hown hmain hends
    obtain ⟨p, hp, -⟩ := hown hmain hends
    exact (h.of_mem hp).2.1
  · intro m hidle hinst
    obtain ⟨-, hprop, hlive, -⟩ := hidle hinst
    rw [PbftNode.handleNewViewMsg_of_installs hinst]
    have hfree : ¬(t.node.proposing = 1 ∨ t.Live) := by simp [hprop, hlive]
    rw [← h.lock_iff, Bool.not_eq_true] at hfree
    exact hfree

/-! ## View changes in between -/

section Sample

open BlockChain

set_option maxRecDepth 100000

/-- Node 0 takes the lock and proposes the first block. -/
def ownProposal : List (NodeAct SymHash) :=
  [.outside ⟨[transfer 5], ∅⟩, .roundSignal, .takeSignal, .lockSequence, .propose none 0 0,
    .storeStage]

/-- Nodes 1, 2 and 3 announce a view for the first round. -/
def announcements (view : ℕ) : List (NodeAct SymHash) :=
  [1, 2, 3].map fun i => .deliver (.newView ⟨0, view, 1, i⟩)

/-- Node 0 holds the lock for its first proposal; a later main node that has installed its view
    without one finds it free. -/
theorem lock_held_for_first_proposal :
    (∃ t, ReachesUnder step Undisturbed { node := .newPbftNode 0 4 .relay sampleGenesis } t ∧
      t.node.sequenceLock = true ∧ t.Live) ∧
    ∃ t, ReachesUnder step Undisturbed { node := .newPbftNode 1 4 .relay sampleGenesis } t ∧
      t.node.isMain = true ∧ t.node.view = 1 ∧ t.node.sequenceLock = false := by
  have hfirst : ∃ t ∈ runChecked step (fun t a => decide (t.Undisturbed a))
      { node := .newPbftNode 0 4 .relay sampleGenesis } ownProposal,
      t.node.alive = true ∧ t.node.proposing = 0 ∧ t.node.sequenceLock = true := by decide +kernel
  have hlater : ∃ t ∈ runChecked step (fun t a => decide (t.Undisturbed a))
      { node := .newPbftNode 1 4 .relay sampleGenesis } (announcements 1),
      t.node.alive = true ∧ t.node.isMain = true ∧ t.node.view = 1 ∧ t.node.proposing = 0 ∧
        ¬t.Live := by decide +kernel
  obtain ⟨t, ht, halive, hprop, hlock⟩ := hfirst
  obtain ⟨t', ht', halive', hmain', hview', hprop', hlive'⟩ := hlater
  have hreach := reachesUnder_of_runDecided ht
  have hreach' := reachesUnder_of_runDecided ht'
  have hiff := (sequenceLock_tracks_proposals 0 4 .relay sampleGenesis hreach halive).1
  have hiff' := (sequenceLock_tracks_proposals 1 4 .relay sampleGenesis hreach' halive').1
  refine ⟨⟨t, hreach, hlock, ?_⟩, t', hreach', hmain', hview', ?_⟩
  · rcases hiff.1 hlock with hone | hlive
    · omega
    · exact hlive
  · rw [← Bool.not_eq_true, hiff']
    simp [hprop', hlive']

/-- After its view has been given up node 0 still holds the lock, with no proposal for the view it is
    in. And in a shard of four nodes that run this code, node 1, which has become the main node of view
    1, executes the block of view 0 with the commit messages that were on their way, gives back a
    lock it has not taken, and dies. -/
theorem lock_without_proposal :
    (∃ t, Reaches step { node := .newPbftNode 0 4 .relay sampleGenesis } t ∧
      t.node.alive = true ∧ t.node.view = 1 ∧ t.node.sequenceLock = true ∧ t.node.proposing = 0 ∧
      ¬t.Live) ∧
    ∃ w w', Reaches PbftWorld.step (.init 4 .relay sampleGenesis) w ∧
      (w.nodes 1).alive = true ∧ (w.nodes 1).view = 1 ∧ (w.nodes 1).sequenceLock = false ∧
      w.step (.deliver 29) = some w' ∧ w'.height 1 = 1 ∧ (w'.nodes 1).alive = false := by
  have habandoned : ∃ t ∈ runActions step { node := .newPbftNode 0 4 .relay sampleGenesis }
      (ownProposal ++ announcements 1),
      t.node.alive = true ∧ t.node.view = 1 ∧ t.node.sequenceLock = true ∧ t.node.proposing = 0 ∧
        ¬t.Live := by decide +kernel
  have hlate : ∃ w ∈ runActions PbftWorld.step (.init 4 .relay sampleGenesis)
      (PbftWorld.firstRound ++ PbftWorld.viewChange ++
        (ViewTrace.timeouts [1] ++ [21, 25].map .deliver)),
      (w.nodes 1).alive = true ∧ (w.nodes 1).view = 1 ∧ (w.nodes 1).sequenceLock = false ∧
        ∃ w' ∈ w.step (.deliver 29), w'.height 1 = 1 ∧ (w'.nodes 1).alive = false := by
    decide +kernel
  obtain ⟨t, ht, habandoned⟩ := habandoned
  obtain ⟨w, hw, halive, hview, hlock, w', hw', hdead⟩ := hlate
  exact ⟨⟨t, reaches_of_runActions ht, habandoned⟩, w, w', reaches_of_runActions hw, halive, hview,
    hlock, hw', hdead⟩

end Sample

end LockTrace

end BlockEmulator
