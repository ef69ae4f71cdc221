import BlockEmulator.Pbft.Lockstep
import BlockEmulator.Pbft.ViewChange

set_option autoImplicit false

/-! # The stage of the leader

The handlers advance `pbftStage` one by one; the routine of `Propose` sets it to 2, and does so without
the lock of the handlers, after its proposal is on the wire. The leader's own handlers may be faster. If
they have come to the commit phase when the routine stores its 2, the stage falls back and the commit
messages of the round wait for ever; if they have finished the round, the next one starts in stage 2.

Within one view these stores are the only way the stage can fall behind. What the leader handles is
about its own proposals: it files each under the number of its round, and every vote and every old
request in the network has the digest filed under its number (`Backed`), because a node takes what it
votes for from the leader's messages. Between rounds, messages are therefore out of date and the stage
stays at 1; in a round only a prepare message for its proposal leads to the commit message, and then the
stage is at least 3. -/

namespace BlockEmulator

variable {H : Type} [DecidableEq H] [Hashing H] {N : ℕ}

/-! ## The leader and its round -/

namespace PbftNode

/-- The node has broadcast its commit message for the proposal of its round, and has not executed
    it. -/
def CommitPending (n : PbftNode H) : Prop :=
  ∃ d, n.height2Digest n.sequenceID = some d ∧ n.isCommitBordcast d = true ∧ n.isReply d = false

/-- There is a proposal for the round of the node. -/
def Outstanding (n : PbftNode H) : Prop := n.height2Digest n.sequenceID ≠ none

instance (n : PbftNode H) : Decidable n.CommitPending :=
  decidable_of_iff
    (∃ d ∈ n.height2Digest n.sequenceID, n.isCommitBordcast d = true ∧ n.isReply d = false) Iff.rfl

instance (n : PbftNode H) : Decidable n.Outstanding :=
  decidable_of_iff ((n.height2Digest n.sequenceID).isSome = true) Option.isSome_iff_ne_none

/-- The stage has come as far as the round: commit messages get through while one is pending, and
    without a proposal the round has not begun. -/
structure StageKeepsUp (n : PbftNode H) : Prop where
  pending : n.CommitPending → 3 ≤ n.pbftStage
  idle : ¬n.Outstanding → n.pbftStage = 1

/-- No proposal, and the lock is free or with the routine that makes the next one; or one proposal that
    the lock is held for. -/
inductive Round (n : PbftNode H) : Prop
  | idle : n.height2Digest n.sequenceID = none → n.pbftStage = 1 →
      (n.proposing = if n.sequenceLock then 1 else 0) → Round n
  | started (d : H) : n.height2Digest n.sequenceID = some d → n.sequenceLock = true →
      n.proposing = 0 →
      (n.isCommitBordcast d = true → n.isReply d = false → 3 ≤ n.pbftStage) → Round n

/-- The leader of the first view. -/
structure Leads (n : PbftNode H) : Prop where
  nodeID : n.nodeID = 0
  view : n.view = 0
  unblocked : n.blocked = none
  pool : ∀ d r, n.requestPool d = some r → Hashing.getDigest r = d
  filed : ∀ s d, n.height2Digest s = some d → s ≤ n.sequenceID ∧ n.requestPool d ≠ none
  committed : ∀ d, n.isCommitBordcast d = true →
    n.isReply d = true ∨ n.height2Digest n.sequenceID = some d
  round : Round n

variable {n n' : PbftNode H}

theorem Leads.isMain (h : Leads n) : n.isMain = true := by
  rw [PbftNode.isMain, h.nodeID, h.view]
  rfl

theorem Leads.stageKeepsUp (h : Leads n) : n.StageKeepsUp := by
  cases h.round with
  | idle hnone hstage _ =>
    refine ⟨?_, fun _ => hstage⟩
    rintro ⟨d, hd, -⟩
    exact absurd (hnone.symm.trans hd) (by simp)
  | started d hd _ _ hcommit =>
    refine ⟨?_, fun hout => absurd (by rw [Outstanding, hd]; simp) hout⟩
    rintro ⟨d', hd', hb, hr⟩
    obtain rfl := Option.some.inj (hd.symm.trans hd')
    exact hcommit hb hr

/-- Nothing that concerns the round has changed. -/
theorem Leads.congr (h : Leads n)
    (heq : (n'.nodeID, n'.view, n'.blocked, n'.requestPool, n'.height2Digest, n'.sequenceID,
        n'.isCommitBordcast, n'.isReply, n'.pbftStage, n'.sequenceLock, n'.proposing) =
      (n.nodeID, n.view, n.blocked, n.requestPool, n.height2Digest, n.sequenceID,
        n.isCommitBordcast, n.isReply, n.pbftStage, n.sequenceLock, n.proposing)) : Leads n' := by
  simp only [Prod.mk.injEq] at heq
  obtain ⟨hid, hview, hblocked, hpool, hh2d, hseq, hcommit, hreply, hstage, hlock, hprop⟩ := heq
  refine ⟨hid.trans h.nodeID, hview.trans h.view, hblocked.trans h.unblocked, ?_, ?_, ?_, ?_⟩
  · rw [hpool]
    exact h.pool
  · rw [hh2d, hseq, hpool]
    exact h.filed
  · rw [hcommit, hreply, hh2d, hseq]
    exact h.committed
  · cases h.round with
    | idle hnone hone hfree =>
      refine .idle ?_ (hstage.trans hone) (by rw [hprop, hlock, hfree])
      rw [hh2d, hseq, hnone]
    | started d hd hheld hzero hthree =>
      refine .started d ?_ (hlock.trans hheld) (hprop.trans hzero) ?_
      · rw [hh2d, hseq, hd]
      · rw [hcommit, hreply, hstage]
        exact hthree

/-! ### The routine of `Propose` -/

theorem Leads.lockSequence (h : Leads n) (hfree : n.sequenceLock = false) :
    Leads { n with
      waiting := n.waiting - 1
      proposing := n.proposing + 1
      sequenceLock := true } := by
  refine ⟨h.nodeID, h.view, h.unblocked, h.pool, h.filed, h.committed, ?_⟩
  cases h.round with
  | idle hnone hone hprop =>
    rw [hfree] at hprop
    exact .idle hnone hone (congrArg (· + 1) hprop)
  | started d _ hheld => exact absurd hheld (by simp [hfree])

/-- A new proposal: its digest has not been committed before, or has been executed as well. -/
theorem Leads.propose (h : Leads n) (hprop : 0 < n.proposing) (bc : BlockChain H) (r : Request H) :
    Leads { n.putRequest n.sequenceID r with
      curChain := bc
      proposing := n.proposing - 1
      storing := n.storing + 1 } ∧
    n.height2Digest n.sequenceID = none := by
  cases h.round with
  | started d _ _ hzero => omega
  | idle hnone hone hlock =>
    have hheld : n.sequenceLock = true := by
      cases hl : n.sequenceLock with
      | true => rfl
      | false =>
        rw [hl] at hlock
        exact absurd hlock hprop.ne'
    rw [hheld] at hlock
    have hpool : ∀ d, Function.update n.requestPool (Hashing.getDigest r) (some r) d =
        if d = Hashing.getDigest r then some r else n.requestPool d :=
      fun d => Function.update_apply ..
    have hh2d : ∀ s, Function.update n.height2Digest n.sequenceID (some (Hashing.getDigest r)) s =
        if s = n.sequenceID then some (Hashing.getDigest r) else n.height2Digest s :=
      fun s => Function.update_apply ..
    refine ⟨⟨h.nodeID, h.view, h.unblocked, ?_, ?_, ?_, ?_⟩, hnone⟩
    · intro d r' hr'
      have hr'' := (hpool d).symm.trans hr'
      split at hr''
      · next hd => exact Option.some.inj hr'' ▸ hd.symm
      · exact h.pool d r' hr''
    · intro s d hd
      have hd' := (hh2d s).symm.trans hd
      show s ≤ n.sequenceID ∧ Function.update n.requestPool _ _ d ≠ none
      rw [hpool]
      split at hd'
      · next hs => exact ⟨hs.le, by simp [(Option.some.inj hd').symm]⟩
      · obtain ⟨hle, hsome⟩ := h.filed s d hd'
        refine ⟨hle, ?_⟩
        split
        · simp
        · exact hsome
    · intro d hd
      rcases h.committed d hd with hreplied | hcur
      · exact .inl hreplied
      · exact absurd (hnone.symm.trans hcur) (by simp)
    · refine .started (Hashing.getDigest r) (Function.update_self ..) hheld ?_ ?_
      · show n.proposing - 1 = 0
        rw [hlock]
        rfl
      · -- a digest that has been committed in an earlier round has been executed there
        intro hb hr
        rcases h.committed _ hb with hreplied | hcur
        · exact absurd (hreplied.symm.trans hr) (by simp)
        · exact absurd (hnone.symm.trans hcur) (by simp)

/-- The last line of the routine, if it comes in time. -/
theorem Leads.storeStage (h : Leads n) (hout : n.Outstanding) (hpending : ¬n.CommitPending) :
    Leads { n with storing := n.storing - 1, pbftStage := 2 } := by
  refine ⟨h.nodeID, h.view, h.unblocked, h.pool, h.filed, h.committed, ?_⟩
  cases h.round with
  | idle hnone => exact absurd hnone hout
  | started d hd hheld hzero =>
    exact .started d hd hheld hzero fun hb hr => absurd ⟨d, hd, hb, hr⟩ hpending

/-! ### The handlers -/

/-- A proposal that the leader has filed is for its round or an earlier one. -/
theorem Leads.started_of_le (h : Leads n) {s : ℕ} {d : H} (hd : n.height2Digest s = some d)
    (hle : n.sequenceID ≤ s) : n.height2Digest n.sequenceID = some d := by
  obtain rfl : s = n.sequenceID := le_antisymm (h.filed s d hd).1 hle
  exact hd

/-- Putting a request where it is already changes nothing. -/
theorem Leads.putRequest_eq_self (h : Leads n) {s : ℕ} {r : Request H}
    (hd : n.height2Digest s = some (Hashing.getDigest r)) : n.putRequest s r = n := by
  obtain ⟨r', hr'⟩ := Option.ne_none_iff_exists'.1 (h.filed s _ hd).2
  obtain rfl := Hashing.getDigest_injective (h.pool _ _ hr')
  rw [putRequest, ← hr', Function.update_eq_self, ← hd, Function.update_eq_self]

theorem handlePrePrepare_of_lt {m : PrePrepare H} {msgs : List (ℕ × PbftMsg H)}
    (hlt : m.seqID < n.sequenceID) (h : n.handlePrePrepare m = some (n', msgs)) : n' = n := by
  unfold handlePrePrepare at h
  split at h
  · exact absurd h (by simp)
  · exact (Prod.mk.inj (Option.some.inj h)).1.symm

/-- The stage goes up in a round. -/
theorem Leads.raise (h : Leads n) (hout : n.Outstanding) {stage : ℕ} (hle : n.pbftStage ≤ stage) :
    Leads { n with pbftStage := stage } := by
  refine ⟨h.nodeID, h.view, h.unblocked, h.pool, h.filed, h.committed, ?_⟩
  cases h.round with
  | idle hnone => exact absurd hnone hout
  | started d hd hheld hzero hthree =>
    exact .started d hd hheld hzero fun hb hr => (hthree hb hr).trans hle

/-- **The leader's own proposal** comes back to it. -/
theorem Leads.handlePrePrepare (h : Leads n) {m : PrePrepare H} {msgs : List (ℕ × PbftMsg H)}
    (hm : n.height2Digest m.seqID = some m.digest)
    (hn : n.handlePrePrepare m = some (n', msgs)) :
    Leads n' ∧ n'.height2Digest = n.height2Digest := by
  rcases Nat.lt_or_ge m.seqID n.sequenceID with hlt | hge
  · rw [handlePrePrepare_of_lt hlt hn]
    exact ⟨h, rfl⟩
  have hcur := h.started_of_le hm hge
  rcases handlePrePrepare_cases hn with ⟨rfl, -⟩ | ⟨rfl, -⟩ | ⟨hd, rfl, -⟩ | ⟨hd, rfl, -⟩
  · exact ⟨h, rfl⟩
  · exact ⟨h.congr rfl, rfl⟩
  · rw [h.putRequest_eq_self (hm.trans (congrArg some hd.symm))]
    exact ⟨h, rfl⟩
  · rw [h.putRequest_eq_self (hm.trans (congrArg some hd.symm))]
    exact ⟨h.raise (by rw [Outstanding, hcur]; simp) (Nat.le_succ _), rfl⟩

/-- **A prepare message**: the one that completes the quorum makes the leader send its commit message
    and go on to the third stage. -/
theorem Leads.handlePrepare (h : Leads n) {m : Vote H} {msgs : List (ℕ × PbftMsg H)}
    (hm : n.height2Digest m.seqID = some m.digest) (hn : n.HandlesPrepare m n' msgs) :
    Leads n' ∧ n'.height2Digest = n.height2Digest := by
  cases hn with
  | drop => exact ⟨h, rfl⟩
  | count => exact ⟨h.congr rfl, rfl⟩
  | commit hseq hstage =>
    have hcur := h.started_of_le hm hseq.ge
    refine ⟨⟨h.nodeID, h.view, h.unblocked, h.pool, h.filed, ?_, ?_⟩, rfl⟩
    · intro d hd
      have hd' : Function.update n.isCommitBordcast m.digest true d = true := hd
      rw [Function.update_apply] at hd'
      split at hd'
      · next heq => exact .inr (heq ▸ hcur)
      · exact h.committed d hd'
    · cases h.round with
      | idle hnone => exact absurd (hnone.symm.trans hcur) (by simp)
      | started d hd hheld hzero =>
        exact .started d hd hheld hzero fun _ _ => Nat.succ_le_succ hstage

/-- The leader executes the proposal of its round. -/
theorem Leads.executeRequest (h : Leads n) {d : H} (hd : n.height2Digest n.sequenceID = some d)
    (r : Request H) :
    Leads (n.executeRequest d r) ∧ (n.executeRequest d r).height2Digest = n.height2Digest := by
  unfold PbftNode.executeRequest
  split
  · next bc hbc =>
      cases h.round with
      | idle hnone => exact absurd (hnone.symm.trans hd) (by simp)
      | started d' _ hheld hzero =>
        rw [endRound_of_isMain (by exact h.isMain) (by exact hheld)]
        refine ⟨⟨h.nodeID, h.view, h.unblocked, h.pool, ?_, ?_, ?_⟩, rfl⟩
        · intro s d' hd'
          exact ⟨(h.filed s d' hd').1.trans (Nat.le_succ _), (h.filed s d' hd').2⟩
        · intro d' hd'
          left
          show Function.update n.isReply d true d' = true
          rw [Function.update_apply]
          split
          · rfl
          · next hne =>
              rcases h.committed d' hd' with hreplied | hcur
              · exact hreplied
              · exact absurd (Option.some.inj (hcur.symm.trans hd)) hne
        · -- nothing is filed yet for the next round
          refine .idle ?_ rfl hzero
          show n.height2Digest (n.sequenceID + 1) = none
          rw [Option.eq_none_iff_forall_ne_some]
          intro d' hd'
          exact absurd (h.filed _ _ hd').1 (by simp)
  · exact ⟨h.congr rfl, rfl⟩

/-- **A commit message**: the leader has every request it can be about. -/
theorem Leads.handleCommit (h : Leads n) {m : Vote H} {msgs : List (ℕ × PbftMsg H)}
    (hm : n.height2Digest m.seqID = some m.digest) (hn : n.HandlesCommit m n' msgs) :
    Leads n' ∧ n'.height2Digest = n.height2Digest := by
  have hpool := (h.filed _ _ hm).2
  cases hn with
  | drop => exact ⟨h, rfl⟩
  | count => exact ⟨h.congr rfl, rfl⟩
  | wait _ _ _ hnone => exact absurd hnone hpool
  | ask _ _ _ hnone => exact absurd hnone hpool
  | execute hseq =>
    have hcounted : Leads (n.countCommit m) := h.congr rfl
    exact hcounted.executeRequest (h.started_of_le hm hseq) _

end PbftNode

/-! ## What the network says -/

/-- The message is about a proposal as the leader has filed it; only other nodes ask for old requests
    and get them. -/
def Backed (filed : ℕ → Option H) (dst : ℕ) : PbftMsg H → Prop
  | .prePrepare m => filed m.seqID = some m.digest
  | .prepare m => filed m.seqID = some m.digest
  | .commit m => filed m.seqID = some m.digest
  | .requestOld m => m.senderNode ≠ 0
  | .sendOld m => dst ≠ 0 ∧ ∀ k r, m.oldRequest[k]? = some r →
      filed (m.seqStartHeight + k) = some (Hashing.getDigest r)
  | .viewChange _ => True
  | .newView _ => True

/-- Proposals are added. -/
def FiledUnder (filed filed' : ℕ → Option H) : Prop := ∀ s d, filed s = some d → filed' s = some d

omit [DecidableEq H] in
theorem Backed.mono {filed filed' : ℕ → Option H} (h : FiledUnder filed filed') {dst : ℕ}
    {m : PbftMsg H} (hm : Backed filed dst m) : Backed filed' dst m := by
  cases m with
  | prePrepare m => exact h _ _ hm
  | prepare m => exact h _ _ hm
  | commit m => exact h _ _ hm
  | requestOld m => exact hm
  | sendOld m => exact ⟨hm.1, fun k r hr => h _ _ (hm.2 k r hr)⟩
  | viewChange m => trivial
  | newView m => trivial

namespace PbftNode

/-- A node of the first view that has filed proposals as the leader has. -/
structure Files (filed : ℕ → Option H) (i : ℕ) (n : PbftNode H) : Prop where
  nodeID : n.nodeID = i
  view : n.view = 0
  pool : ∀ d r, n.requestPool d = some r → Hashing.getDigest r = d
  digests : FiledUnder n.height2Digest filed

variable {filed filed' : ℕ → Option H} {i : ℕ} {n n' : PbftNode H}

theorem Files.mono (h : Files filed i n) (hf : FiledUnder filed filed') : Files filed' i n :=
  { h with digests := fun s d hd => hf s d (h.digests s d hd) }

theorem Leads.files (h : Leads n) : Files n.height2Digest 0 n :=
  ⟨h.nodeID, h.view, h.pool, fun _ _ hd => hd⟩

theorem Files.congr (h : Files filed i n)
    (heq : (n'.nodeID, n'.view, n'.requestPool, n'.height2Digest) =
      (n.nodeID, n.view, n.requestPool, n.height2Digest)) : Files filed i n' := by
  simp only [Prod.mk.injEq] at heq
  obtain ⟨hid, hview, hpool, hh2d⟩ := heq
  refine ⟨hid.trans h.nodeID, hview.trans h.view, ?_, ?_⟩
  · rw [hpool]
    exact h.pool
  · rw [hh2d]
    exact h.digests

theorem Files.putRequest (h : Files filed i n) {s : ℕ} {r : Request H}
    (hr : filed s = some (Hashing.getDigest r)) : Files filed i (n.putRequest s r) := by
  refine ⟨h.nodeID, h.view, ?_, ?_⟩
  · intro d r' hr'
    have hupd : Function.update n.requestPool (Hashing.getDigest r) (some r) d = some r' := hr'
    rw [Function.update_apply] at hupd
    split at hupd
    · next hd => exact Option.some.inj hupd ▸ hd.symm
    · exact h.pool d r' hupd
  · intro s' d hd
    have hupd : Function.update n.height2Digest s (some (Hashing.getDigest r)) s' = some d := hd
    rw [Function.update_apply] at hupd
    split at hupd
    · next hs => exact hs ▸ Option.some.inj hupd ▸ hr
    · exact h.digests s' d hupd

theorem Files.fileOldRequests (h : Files filed i n) {s : ℕ} {rs : List (Request H)}
    (hrs : ∀ k r, rs[k]? = some r → filed (s + k) = some (Hashing.getDigest r)) :
    Files filed i (n.fileOldRequests s rs) := by
  induction rs generalizing n s with
  | nil => exact h
  | cons r rs ih =>
    have hput : Files filed i { n.putRequest s r with
        isReply := Function.update n.isReply (Hashing.getDigest r) true } :=
      (h.putRequest (hrs 0 r rfl)).congr rfl
    refine ih hput fun k r' hr' => ?_
    rw [Nat.add_assoc, Nat.add_comm 1 k]
    exact hrs (k + 1) r' hr'

/-- The request filed under a number has the digest filed there. -/
theorem Files.oldRequestAt (h : Files filed i n) {s : ℕ} {r : Request H}
    (hr : n.oldRequestAt s = some r) : filed s = some (Hashing.getDigest r) := by
  obtain ⟨d, hd, hpool⟩ := Option.bind_eq_some_iff.1 hr
  rw [h.pool d r hpool]
  exact h.digests s d hd

theorem Files.oldRequests (h : Files filed i n) {count s k : ℕ} {r : Request H}
    (hr : (n.oldRequests count s)[k]? = some r) : filed (s + k) = some (Hashing.getDigest r) := by
  induction count generalizing s k with
  | zero => exact absurd hr (by simp [PbftNode.oldRequests])
  | succ count ih =>
    rw [PbftNode.oldRequests] at hr
    split at hr
    · exact absurd hr (by simp)
    · next r₀ hr₀ =>
        cases k with
        | zero =>
          obtain rfl := Option.some.inj hr
          exact h.oldRequestAt hr₀
        | succ k =>
          rw [← Nat.add_assoc, Nat.add_right_comm]
          exact ih hr

theorem Files.reenter (h : Files filed i n) :
    Files filed i n.reenter.1 ∧ ∀ p ∈ n.reenter.2, Backed filed p.1 p.2 := by
  obtain ⟨ask, alive, heq, -⟩ := n.reenter_frame
  refine ⟨by rw [heq]; exact h.congr rfl, ?_⟩
  unfold PbftNode.reenter
  split
  · simp
  next r hr =>
  split
  · simp
  · simp
  · intro p hp
    rw [snd_of_mem_toAll (List.mem_filter.1 hp).1]
    exact h.oldRequestAt hr

theorem Files.handleSendOldSeq (h : Files filed i n) {m : SendOldMessage H}
    (hm : ∀ k r, m.oldRequest[k]? = some r →
      filed (m.seqStartHeight + k) = some (Hashing.getDigest r)) :
    Files filed i (n.handleSendOldSeq m).1 ∧
      ∀ p ∈ (n.handleSendOldSeq m).2, Backed filed p.1 p.2 := by
  unfold PbftNode.handleSendOldSeq
  split
  · exact ⟨h.congr rfl, by simp⟩
  · next bc _ =>
      have hchain : Files filed i { n with curChain := bc } := h.congr rfl
      have hfiled : Files filed i ({ n with curChain := bc }.fileReply m) :=
        (hchain.fileOldRequests hm).congr rfl
      exact hfiled.reenter

/-- A node that asks for old requests is not the leader. -/
theorem Files.askForOld (h : Files filed i n) (hi : i ≠ 0) (m : Vote H) :
    Files filed i (n.askForOld m).1 ∧ ∀ p ∈ (n.askForOld m).2, Backed filed p.1 p.2 := by
  obtain ⟨lock, alive, heq⟩ := endRound_frame { n with askForLock := true }
  rw [PbftNode.askForOld, heq]
  refine ⟨h.congr rfl, ?_⟩
  intro p hp
  rw [List.mem_singleton.1 hp]
  exact h.nodeID.trans_ne hi

/-- **One delivery.** A node files what the leader has filed, and its messages say the same. -/
theorem Files.handleMessage (h : Files filed i n) {m : PbftMsg H} {msgs : List (ℕ × PbftMsg H)}
    (hlead : i = 0 → ∀ s d, filed s = some d → n.requestPool d ≠ none) (hm : Backed filed i m)
    (hview : n.installsView m = false) (hn : n.handleMessage m = some (n', msgs)) :
    Files filed i n' ∧ ∀ p ∈ msgs, Backed filed p.1 p.2 := by
  cases m with
  | prePrepare m =>
    have hm : filed m.seqID = some m.digest := hm
    rcases handlePrePrepare_cases hn with ⟨rfl, rfl⟩ | ⟨rfl, rfl⟩ | ⟨hd, rfl, rfl⟩ | ⟨hd, rfl, rfl⟩
    · exact ⟨h, by simp⟩
    · exact ⟨h.congr rfl, by simp⟩
    · exact ⟨h.putRequest (hm.trans (congrArg some hd.symm)), by simp⟩
    · refine ⟨(h.putRequest (hm.trans (congrArg some hd.symm))).congr rfl, ?_⟩
      intro p hp
      rw [snd_of_mem_toAll hp]
      exact hm
  | prepare m =>
    obtain ⟨c, b, stage, rfl, rfl | rfl⟩ := handlePrepare_cases hn
    · exact ⟨h.congr rfl, by simp⟩
    · refine ⟨h.congr rfl, ?_⟩
      intro p hp
      rw [snd_of_mem_toAll hp]
      exact hm
  | commit m =>
    have hnot : n.requestPool m.digest = none → i ≠ 0 := fun hnone hi => hlead hi _ _ hm hnone
    cases handlesCommit_of_handleCommit hn with
    | drop => exact ⟨h, by simp⟩
    | count => exact ⟨h.congr rfl, by simp⟩
    | wait => exact ⟨h.congr rfl, by simp⟩
    | ask _ _ _ hnone =>
      have hcounted : Files filed i { n.countCommit m with
          isReply := Function.update n.isReply m.digest true } := h.congr rfl
      exact hcounted.askForOld (hnot hnone) m
    | execute =>
      obtain ⟨bc, replied, seq, stage, lock, alive, heq⟩ :=
        executeRequest_frame (n.countCommit m) m.digest _
      rw [heq]
      exact ⟨h.congr rfl, by simp⟩
  | requestOld m =>
    obtain ⟨rfl, rfl⟩ := Prod.ext_iff.1 (Option.some.inj hn)
    rw [handleRequestOldSeq_fst]
    refine ⟨h, ?_⟩
    unfold handleRequestOldSeq
    split
    · simp
    · intro p hp
      rw [List.mem_singleton.1 hp]
      exact ⟨hm, fun k r hr => h.oldRequests hr⟩
  | sendOld m =>
    obtain ⟨rfl, rfl⟩ := Prod.ext_iff.1 (Option.some.inj hn)
    exact h.handleSendOldSeq hm.2
  | viewChange m =>
    obtain ⟨rfl, rfl⟩ := Prod.ext_iff.1 (Option.some.inj hn)
    refine ⟨h.congr rfl, ?_⟩
    unfold handleViewChangeMsg
    simp only
    split
    · intro p hp
      rw [snd_of_mem_toAll hp]
      trivial
    · simp
  | newView m =>
    obtain ⟨rfl, rfl⟩ := Prod.ext_iff.1 (Option.some.inj hn)
    rw [handleNewViewMsg_of_not_installs hview]
    exact ⟨h.congr rfl, by simp⟩

/-- No handler is a routine of `Propose`. -/
theorem routines_of_handleMessage {m : PbftMsg H} {msgs : List (ℕ × PbftMsg H)}
    (hn : n.handleMessage m = some (n', msgs)) :
    n'.waiting = n.waiting ∧ n'.proposing = n.proposing := by
  cases m with
  | prePrepare m =>
    rcases handlePrePrepare_cases hn with ⟨rfl, -⟩ | ⟨rfl, -⟩ | ⟨-, rfl, -⟩ | ⟨-, rfl, -⟩ <;>
      exact ⟨rfl, rfl⟩
  | prepare m =>
    obtain ⟨c, b, stage, rfl, -⟩ := handlePrepare_cases hn
    exact ⟨rfl, rfl⟩
  | commit m =>
    cases handlesCommit_of_handleCommit hn with
    | drop => exact ⟨rfl, rfl⟩
    | count => exact ⟨rfl, rfl⟩
    | wait => exact ⟨rfl, rfl⟩
    | ask =>
      obtain ⟨lock, alive, heq⟩ := endRound_frame { { n.countCommit m with
        isReply := Function.update n.isReply m.digest true } with askForLock := true }
      rw [askForOld, heq]
      exact ⟨rfl, rfl⟩
    | execute =>
      obtain ⟨bc, replied, seq, stage, lock, alive, heq⟩ :=
        executeRequest_frame (n.countCommit m) m.digest _
      rw [heq]
      exact ⟨rfl, rfl⟩
  | requestOld m =>
    obtain ⟨rfl, -⟩ := Prod.ext_iff.1 (Option.some.inj hn)
    rw [handleRequestOldSeq_fst]
    exact ⟨rfl, rfl⟩
  | sendOld m =>
    obtain ⟨rfl, -⟩ := Prod.ext_iff.1 (Option.some.inj hn)
    obtain ⟨bc, pool, h2d, replied, seq, ask, alive, heq, -, -⟩ := n.handleSendOldSeq_frame m
    rw [heq]
    exact ⟨rfl, rfl⟩
  | viewChange m =>
    obtain ⟨rfl, -⟩ := Prod.ext_iff.1 (Option.some.inj hn)
    exact ⟨rfl, rfl⟩
  | newView m =>
    obtain ⟨rfl, -⟩ := Prod.ext_iff.1 (Option.some.inj hn)
    unfold handleNewViewMsg
    simp only
    split <;> exact ⟨rfl, rfl⟩

/-- **One delivery** to the leader. -/
theorem Leads.handleMessage (h : Leads n) {m : PbftMsg H} {msgs : List (ℕ × PbftMsg H)}
    (hm : Backed n.height2Digest 0 m) (hview : n.installsView m = false)
    (hn : n.handleMessage m = some (n', msgs)) :
    Leads n' ∧ n'.height2Digest = n.height2Digest := by
  cases m with
  | prePrepare m => exact h.handlePrePrepare hm hn
  | prepare m => exact h.handlePrepare hm (handlesPrepare_of_handlePrepare hn)
  | commit m => exact h.handleCommit hm (handlesCommit_of_handleCommit hn)
  | requestOld m =>
    obtain ⟨rfl, -⟩ := Prod.ext_iff.1 (Option.some.inj hn)
    rw [handleRequestOldSeq_fst]
    exact ⟨h, rfl⟩
  | sendOld m => exact absurd rfl hm.1
  | viewChange m =>
    obtain ⟨rfl, -⟩ := Prod.ext_iff.1 (Option.some.inj hn)
    exact ⟨h.congr rfl, rfl⟩
  | newView m =>
    obtain ⟨rfl, -⟩ := Prod.ext_iff.1 (Option.some.inj hn)
    rw [handleNewViewMsg_of_not_installs hview]
    exact ⟨h.congr rfl, rfl⟩

end PbftNode

/-! ## Runs -/

namespace PbftWorld

/-- The step belongs to one view: no view is installed, and the main node does not give its view up. -/
def WithinView (w : PbftWorld H N) : PbftAct N → Prop
  | .deliver k => w.StaysInView (.deliver k)
  | .timeout i => (w.nodes i).isMain = false
  | _ => True

/-- The main node stores the second stage while its proposal is outstanding and its commit message not
    sent. -/
def StoresInTime (w : PbftWorld H N) : PbftAct N → Prop
  | .storeStage i => (w.nodes i).isMain = true →
      (w.nodes i).Outstanding ∧ ¬(w.nodes i).CommitPending
  | _ => True

instance (w : PbftWorld H N) : (a : PbftAct N) → Decidable (w.WithinView a)
  | .deliver k => inferInstanceAs (Decidable (w.StaysInView (.deliver k)))
  | .timeout i => inferInstanceAs (Decidable ((w.nodes i).isMain = false))
  | .outside _ _ | .roundSignal _ | .takeSignal _ | .lockSequence _ | .propose _ _ _ _
  | .storeStage _ | .resume _ => .isTrue trivial

instance (w : PbftWorld H N) : (a : PbftAct N) → Decidable (w.StoresInTime a)
  | .storeStage i => inferInstanceAs (Decidable ((w.nodes i).isMain = true →
      (w.nodes i).Outstanding ∧ ¬(w.nodes i).CommitPending))
  | .outside _ _ | .roundSignal _ | .takeSignal _ | .lockSequence _ | .propose _ _ _ _
  | .resume _ | .timeout _ | .deliver _ => .isTrue trivial

/-- Node 0 leads, all nodes file what it has filed, and nobody else is about to propose. -/
structure Led (filed : ℕ → Option H) (w : PbftWorld H N) : Prop where
  leader : ∀ i : Fin N, i.val = 0 → (w.nodes i).Leads ∧ (w.nodes i).height2Digest = filed
  files : ∀ i : Fin N, (w.nodes i).Files filed i
  follower : ∀ i : Fin N, i.val ≠ 0 → (w.nodes i).waiting = 0 ∧ (w.nodes i).proposing = 0
  net : ∀ p ∈ w.net, Backed filed p.1 p.2

variable {filed : ℕ → Option H} {w w' : PbftWorld H N} {i : Fin N} {a : PbftAct N} {n : PbftNode H}
  {r : Option (Request H)} {msgs : List (ℕ × PbftMsg H)}

theorem led_init (ht : HandleType) (bc : BlockChain H) : Led (fun _ => none) (init N ht bc) where
  leader := by
    intro i hi
    refine ⟨⟨hi, rfl, rfl, ?_, ?_, ?_, .idle rfl rfl rfl⟩, rfl⟩
    · exact fun d r hr => absurd hr (by simp [init, PbftNode.newPbftNode])
    · exact fun s d hd => absurd hd (by simp [init, PbftNode.newPbftNode])
    · exact fun d hd => absurd hd (by simp [init, PbftNode.newPbftNode])
  files := by
    intro i
    refine ⟨rfl, rfl, ?_, ?_⟩
    · exact fun d r hr => absurd hr (by simp [init, PbftNode.newPbftNode])
    · exact fun s d hd => hd
  follower := fun _ _ => ⟨rfl, rfl⟩
  net := by simp [init]

theorem Led.isMain_iff (hw : Led filed w) : (w.nodes i).isMain = true ↔ i.val = 0 := by
  rw [PbftNode.isMain, (hw.files i).nodeID, (hw.files i).view]
  exact decide_eq_true_iff

/-- What a delivered message says, and that the node stays in its view. -/
theorem Led.backed_of_deliver (hw : Led filed w) {k : ℕ} {m : PbftMsg H}
    (hk : w.net[k]? = some (i.val, m)) : Backed filed i m :=
  hw.net (i.val, m) (List.mem_of_getElem? hk)

/-- **A step of another node** files nothing new. -/
theorem Led.follower_acts (hw : Led filed w) (hin : w.WithinView a) (hi : i.val ≠ 0)
    (hact : w.Acts i a n r msgs) :
    n.Files filed i ∧ (n.waiting = 0 ∧ n.proposing = 0) ∧ ∀ p ∈ msgs, Backed filed p.1 p.2 := by
  have hn := hw.files i
  have hidle := hw.follower i hi
  have hmain : (w.nodes i).isMain = false := by
    rw [← Bool.not_eq_true, hw.isMain_iff]
    exact hi
  cases hact with
  | outside => exact ⟨hn.congr rfl, hidle, by simp⟩
  | roundSignal => exact ⟨hn.congr rfl, hidle, by simp⟩
  | takeSignal => exact ⟨hn.congr rfl, by simpa [hmain] using hidle, by simp⟩
  | lockSequence hwait => exact absurd hidle.1 hwait.ne'
  | proposePanics hprop => exact absurd hidle.2 hprop.ne'
  | propose hprop => exact absurd hidle.2 hprop.ne'
  | storeStage => exact ⟨hn.congr rfl, hidle, by simp⟩
  | @resume m hm =>
    have hwoken : PbftNode.Files filed i { w.nodes i with blocked := none } := hn.congr rfl
    obtain ⟨lock, alive, heq⟩ := PbftNode.endRound_frame
      { { w.nodes i with blocked := none } with askForLock := true }
    refine ⟨(hwoken.askForOld hi m).1, ?_, (hwoken.askForOld hi m).2⟩
    rw [PbftNode.askForOld, heq]
    exact hidle
  | timeout =>
    refine ⟨hn.congr rfl, hidle, ?_⟩
    intro p hp
    rw [PbftNode.snd_of_mem_toAll hp]
    trivial
  | deliver hk hm =>
    have hview := hin _ hk i.isLt
    obtain ⟨hfiles, hmsgs⟩ :=
      hn.handleMessage (fun h0 => absurd h0 hi) (hw.backed_of_deliver hk) hview hm
    obtain ⟨hwait, hprop⟩ := PbftNode.routines_of_handleMessage hm
    exact ⟨hfiles, ⟨hwait.trans hidle.1, hprop.trans hidle.2⟩, hmsgs⟩

/-- **A step of the leader** files at most its new proposal. -/
theorem Led.leader_acts (hw : Led filed w) (hin : w.WithinView a) (htime : w.StoresInTime a)
    (hi : i.val = 0) (hact : w.Acts i a n r msgs) :
    n.Leads ∧ FiledUnder filed n.height2Digest ∧ ∀ p ∈ msgs, Backed n.height2Digest p.1 p.2 := by
  obtain ⟨hn, rfl⟩ := hw.leader i hi
  have hmain : (w.nodes i).isMain = true := hw.isMain_iff.2 hi
  have hkeep : FiledUnder (w.nodes i).height2Digest (w.nodes i).height2Digest := fun _ _ hd => hd
  cases hact with
  | outside => exact ⟨hn.congr rfl, hkeep, by simp⟩
  | roundSignal => exact ⟨hn.congr rfl, hkeep, by simp⟩
  | takeSignal => exact ⟨hn.congr rfl, hkeep, by simp⟩
  | lockSequence _ hfree => exact ⟨hn.lockSequence hfree, hkeep, by simp⟩
  | proposePanics => exact ⟨hn.congr rfl, hkeep, by simp⟩
  | @propose partition now reqTime bc r hprop _ _ =>
    obtain ⟨hleads, hnone⟩ := hn.propose hprop bc r
    refine ⟨hleads, ?_, ?_⟩
    · intro s d hd
      have hne : s ≠ (w.nodes i).sequenceID := by
        rintro rfl
        exact absurd (hnone.symm.trans hd) (by simp)
      exact (Function.update_of_ne hne _ _).trans hd
    · intro p hp
      rw [PbftNode.snd_of_mem_toAll hp]
      exact Function.update_self ..
  | storeStage =>
    obtain ⟨hout, hpending⟩ := htime hmain
    exact ⟨hn.storeStage hout hpending, hkeep, by simp⟩
  | resume hm => exact absurd (hn.unblocked.symm.trans hm) (by simp)
  | timeout =>
    have hnot : (w.nodes i).isMain = false := hin
    exact absurd (hmain.symm.trans hnot) (by simp)
  | @deliver k m n msgs hk hm =>
    have hview := hin _ hk i.isLt
    have hbacked : Backed (w.nodes i).height2Digest 0 m := hi ▸ hw.backed_of_deliver hk
    obtain ⟨hleads, hsame⟩ := hn.handleMessage hbacked hview hm
    obtain ⟨-, hmsgs⟩ :=
      hn.files.handleMessage (fun _ s d hd => (hn.filed s d hd).2) hbacked hview hm
    rw [hsame]
    exact ⟨hleads, hkeep, hmsgs⟩

/-- **One step.** -/
theorem Led.step (hw : Led filed w) (hin : w.WithinView a) (htime : w.StoresInTime a)
    (hs : w.step a = some w') : ∃ filed', Led filed' w' := by
  obtain ⟨i, n, r, msgs, hact, -, rfl⟩ := step_cases hs
  by_cases hi : i.val = 0
  · obtain ⟨hleads, hmore, hmsgs⟩ := hw.leader_acts hin htime hi hact
    have honly : ∀ j : Fin N, j ≠ i → j.val ≠ 0 := fun j hj h0 => hj (Fin.ext (h0.trans hi.symm))
    refine ⟨n.height2Digest, ?_, ?_, ?_, ?_⟩
    · refine (forall_nodes_after (p := fun j m => j.val = 0 → m.Leads ∧ _ = _)).2 ⟨?_, ?_⟩
      · exact fun _ => ⟨hleads, rfl⟩
      · exact fun j hj h0 => absurd h0 (honly j hj)
    · refine (forall_nodes_after (p := fun j m => m.Files n.height2Digest j)).2 ⟨?_, ?_⟩
      · exact hi ▸ hleads.files
      · exact fun j _ => (hw.files j).mono hmore
    · refine (forall_nodes_after (p := fun j m => j.val ≠ 0 → m.waiting = 0 ∧ m.proposing = 0)).2
        ⟨fun h0 => absurd hi h0, fun j _ => hw.follower j⟩
    · intro p hp
      rcases List.mem_append.1 hp with hold | hnew
      · exact (hw.net p hold).mono hmore
      · exact hmsgs p hnew
  · obtain ⟨hfiles, hidle, hmsgs⟩ := hw.follower_acts hin hi hact
    refine ⟨filed, ?_, ?_, ?_, ?_⟩
    · refine (forall_nodes_after (p := fun j m => j.val = 0 → m.Leads ∧ m.height2Digest = filed)).2
        ⟨fun h0 => absurd h0 hi, fun j _ => hw.leader j⟩
    · exact (forall_nodes_after (p := fun j m => m.Files filed j)).2
        ⟨hfiles, fun j _ => hw.files j⟩
    · exact (forall_nodes_after (p := fun j m => j.val ≠ 0 → m.waiting = 0 ∧ m.proposing = 0)).2
        ⟨fun _ => hidle, fun j _ => hw.follower j⟩
    · intro p hp
      rcases List.mem_append.1 hp with hold | hnew
      · exact hw.net p hold
      · exact hmsgs p hnew

/-- **The stage keeps up** in every run of one view in which the leader stores the second stage only
    while its proposal is outstanding and its commit message not sent: while its commit message for the
    round is out and the proposal not executed, commit messages get through, and without a proposal the
    stage is 1. A store at any other time makes this fail at once. -/
theorem leader_stage_keeps_up (N : ℕ) (ht : HandleType) (bc : BlockChain H) {w : PbftWorld H N}
    (hrun : ReachesUnder step (fun w a => w.WithinView a ∧ w.StoresInTime a) (init N ht bc) w)
    {i : Fin N} (hmain : (w.nodes i).isMain = true) :
    (w.nodes i).StageKeepsUp ∧
      ∀ w', w.step (.storeStage i) = some w' →
        ((w'.nodes i).StageKeepsUp ↔ w.StoresInTime (.storeStage i)) := by
  obtain ⟨filed, hw⟩ := hrun.invariant (I := fun w => ∃ filed, Led filed w)
    ⟨_, led_init ht bc⟩ fun t a u ⟨filed, ht⟩ ha hs => ht.step ha.1 ha.2 hs
  obtain ⟨hleads, -⟩ := hw.leader i (hw.isMain_iff.1 hmain)
  refine ⟨hleads.stageKeepsUp, ?_⟩
  intro w' hs
  obtain ⟨j, n, r, msgs, hact, -, rfl⟩ := step_cases hs
  cases hact with
  | storeStage =>
    have hnode : (w.after i { w.nodes i with storing := (w.nodes i).storing - 1, pbftStage := 2 } none
        []).nodes i = { w.nodes i with storing := (w.nodes i).storing - 1, pbftStage := 2 } :=
      Function.update_self ..
    rw [hnode]
    constructor
    · rintro ⟨hpending, hidle⟩ -
      constructor
      · by_contra hout
        exact absurd (hidle hout) (by simp)
      · intro hcommit
        exact absurd (hpending hcommit) (by simp)
    · intro hin
      obtain ⟨hout, hpending⟩ := hin hmain
      exact ⟨fun hcommit => absurd hcommit hpending, fun hidle => absurd hout hidle⟩

/-! ## A store that comes late -/

section Sample

open BlockChain

/-- Node `i` proposes a block with a transfer, and its routine stops before its last line. -/
def unstoredProposal {N : ℕ} (i : Fin N) : List (PbftAct N) :=
  [.outside i ⟨[transfer 5], ∅⟩, .roundSignal i, .takeSignal i, .lockSequence i,
    .propose i none 0 0]

/-- All nodes vote, and node 0 has a quorum of prepare messages. -/
def leaderCommits : List (PbftAct 4) := [0, 1, 2, 3, 4, 8, 12].map .deliver

/-- Nodes 1 and 2 send their commit messages too, and node 0 gets a quorum of them. -/
def leaderExecutes : List (PbftAct 4) := [5, 9, 13, 6, 10, 14, 20, 24, 28].map .deliver

/-- The leader has sent its commit message when the stage is set to 2: commit messages of the round
    wait. And when its round is over, so that the next one begins in stage 2. -/
theorem late_store_sets_stage_back :
    (∃ w, ReachesUnder step WithinView (init 4 .relay sampleGenesis) w ∧
      (w.nodes 0).isMain = true ∧ (w.nodes 0).CommitPending ∧ (w.nodes 0).pbftStage = 2 ∧
      (w.nodes 0).alive = true ∧ w.step (.deliver 20) = none) ∧
    ∃ w, ReachesUnder step WithinView (init 4 .relay sampleGenesis) w ∧
      (w.nodes 0).isMain = true ∧ ¬(w.nodes 0).Outstanding ∧ (w.nodes 0).sequenceID = 2 ∧
      (w.nodes 0).pbftStage = 2 := by
  have hcommit : ∃ w ∈ runChecked step (fun w a => decide (w.WithinView a))
      (init 4 .relay sampleGenesis) (unstoredProposal 0 ++ leaderCommits ++ [.storeStage 0]),
      (w.nodes 0).isMain = true ∧ (w.nodes 0).CommitPending ∧ (w.nodes 0).pbftStage = 2 ∧
        (w.nodes 0).alive = true ∧ (w.step (.deliver 20)).isNone = true := by decide +kernel
  have hover : ∃ w ∈ runChecked step (fun w a => decide (w.WithinView a))
      (init 4 .relay sampleGenesis)
      (unstoredProposal 0 ++ leaderCommits ++ leaderExecutes ++ [.storeStage 0]),
      (w.nodes 0).isMain = true ∧ ¬(w.nodes 0).Outstanding ∧ (w.nodes 0).sequenceID = 2 ∧
        (w.nodes 0).pbftStage = 2 := by decide +kernel
  obtain ⟨w, hw, hmain, hpending, hstage, halive, hwaits⟩ := hcommit
  obtain ⟨w', hw', hover⟩ := hover
  exact ⟨⟨w, reachesUnder_of_runDecided hw, hmain, hpending, hstage, halive,
    Option.isNone_iff_eq_none.1 hwaits⟩, w', reachesUnder_of_runDecided hw', hover⟩

/-- With the store in time, commit messages get through once the leader has sent its own. -/
theorem stage_keeps_up_in_first_round :
    ∃ w, ReachesUnder step (fun w a => w.WithinView a ∧ w.StoresInTime a)
        (init 4 .relay sampleGenesis) w ∧
      (w.nodes 0).CommitPending ∧ 3 ≤ (w.nodes 0).pbftStage := by
  have hrun : ∃ w ∈ runChecked step (fun w a => decide (w.WithinView a ∧ w.StoresInTime a))
      (init 4 .relay sampleGenesis) (unstoredProposal 0 ++ [.storeStage 0] ++ leaderCommits),
      (w.nodes 0).isMain = true ∧ (w.nodes 0).CommitPending := by decide +kernel
  obtain ⟨w, hw, hmain, hpending⟩ := hrun
  have hreach := reachesUnder_of_runDecided hw
  exact ⟨w, hreach, hpending,
    (leader_stage_keeps_up 4 .relay sampleGenesis hreach hmain).1.pending hpending⟩

end Sample

end PbftWorld

end BlockEmulator
