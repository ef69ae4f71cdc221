import BlockEmulator.Pbft.SingleView

set_option autoImplicit false

/-! # Sequence number and height

A node numbers its rounds with `sequenceID` and its blocks with the height of its chain. `NewPbftNode`
sets the one to the other plus one; after that they move separately: `handleCommit` raises the number
whether or not the block was appended, accepts commit messages of later rounds, and jumps when it
fetches old requests. While no view is installed, only blocks are proposed, and the commit message that
completes a quorum is always one of the node's own round, with a request that the node holds, the two
stay in step in every module. The proof carries the tip that the nodes have at each height: what has
been proposed for a height is a block on the tip below, so a node that executes it in its turn grows by
it. -/

namespace BlockEmulator

variable {H : Type} [DecidableEq H] [Hashing H] {N : ℕ}

/-! ## Proposals that build on one another -/

/-- The request is a block for the height after the tip, numbered and linked accordingly. -/
def BuildsOn (t : Tip H) (h : ℕ) (r : Request H) : Prop :=
  ∃ b, r.msg = .block b ∧ b.header.number = h + 1 ∧ b.header.parentBlockHash = t.block.hash

/-- From `base` to `top`, the request proposed for each height led from tip to tip; the proposals
    build on these. -/
structure Track (cc : ChainConfig) (log : List (ℕ × Request H)) (C : ℕ → Tip H) (base top : ℕ) :
    Prop where
  sorted : log.Pairwise fun p q => q.1 < p.1
  builds : ∀ h r, (h + 1, r) ∈ log → h ≤ top ∧ BuildsOn (C h) h r
  executed : ∀ h, base ≤ h → h < top → ∃ r, (h + 1, r) ∈ log ∧ NextTip cc (C h) r (C (h + 1))

/-- A chain at its place on the track. -/
structure OnTrack (cc : ChainConfig) (C : ℕ → Tip H) (base top : ℕ) (bc : BlockChain H) : Prop where
  config : bc.chainConfig = cc
  above : base ≤ bc.height
  below : bc.height ≤ top
  tip : bc.tip = C bc.height

/-- The second track continues the first. -/
structure Continues (C : ℕ → Tip H) (top : ℕ) (C' : ℕ → Tip H) (top' : ℕ) : Prop where
  le : top ≤ top'
  same : ∀ h ≤ top, C' h = C h

omit [DecidableEq H] [Hashing H] in
theorem Continues.refl (C : ℕ → Tip H) (top : ℕ) : Continues C top C top := ⟨le_rfl, fun _ _ => rfl⟩

section Track

variable {cc : ChainConfig} {log : List (ℕ × Request H)} {C C' : ℕ → Tip H} {base top top' : ℕ}
  {bc bc' : BlockChain H}

theorem OnTrack.sameFiles (hbc : OnTrack cc C base top bc) (hs : BlockChain.SameFiles bc bc') :
    OnTrack cc C base top bc' where
  config := hs.config.trans hbc.config
  above := hs.height ▸ hbc.above
  below := hs.height ▸ hbc.below
  tip := by
    rw [hs.height, ← hbc.tip, BlockChain.tip, BlockChain.tip, hs.block, hs.partition]

theorem OnTrack.continues (hbc : OnTrack cc C base top bc) (h : Continues C top C' top') :
    OnTrack cc C' base top' bc where
  config := hbc.config
  above := hbc.above
  below := hbc.below.trans h.le
  tip := by rw [hbc.tip, h.same _ hbc.below]

theorem OnTrack.extends (hbc : OnTrack cc C base top bc) {r : Request H}
    (hr : BuildsOn (C bc.height) bc.height r) : ∃ b, r.msg = .block b ∧ bc.Extends b := by
  obtain ⟨b, hb, hnum, hpar⟩ := hr
  rw [← hbc.tip] at hpar
  exact ⟨b, hb, hnum, hpar⟩

/-- The track is extended at its top. -/
theorem Track.extend (hT : Track cc log C base top) {r : Request H} (hr : (top + 1, r) ∈ log)
    {t : Tip H} (hn : NextTip cc (C top) r t) :
    Track cc log (Function.update C (top + 1) t) base (top + 1) := by
  have hold : ∀ h ≤ top, Function.update C (top + 1) t h = C h := fun h hh =>
    Function.update_of_ne (by omega) _ _
  refine ⟨hT.sorted, ?_, ?_⟩
  · intro h r' hr'
    obtain ⟨hle, hbuilds⟩ := hT.builds h r' hr'
    rw [hold h hle]
    exact ⟨by omega, hbuilds⟩
  · intro h hbase hh
    rcases Nat.lt_or_ge h top with hlt | hge
    · rw [hold h hlt.le, hold (h + 1) hlt]
      exact hT.executed h hbase hlt
    · obtain rfl : h = top := by omega
      rw [hold h le_rfl, Function.update_self]
      exact ⟨r, hr, hn⟩

/-- **A request executed in its turn** makes the chain one block longer and keeps it on the track,
    which it may be the first to extend. -/
theorem Track.execute (hT : Track cc log C base top) (hbc : OnTrack cc C base top bc)
    {r : Request H} (hr : (bc.height + 1, r) ∈ log) {ht : HandleType} {isMain : Bool}
    (h : ht.handleinCommit isMain bc r = (bc', true)) :
    bc'.height = bc.height + 1 ∧
      ∃ C' top', Continues C top C' top' ∧ Track cc log C' base top' ∧
        OnTrack cc C' base top' bc' := by
  obtain ⟨-, hbuilds⟩ := hT.builds _ r hr
  obtain ⟨b, hb, hext⟩ := hbc.extends hbuilds
  have hfits : ∀ b', r.msg = .block b' → bc.Extends b' := fun b' hb' => by
    obtain rfl : b = b' := RequestMsg.block.inj (hb.symm.trans hb')
    exact hext
  obtain ⟨hg, hn⟩ := grown_of_handleinCommit hfits h
  rw [hbc.config, hbc.tip] at hn
  have habove : base ≤ bc'.height := hg.number ▸ hbc.above.trans (Nat.le_succ _)
  have hcc : bc'.chainConfig = cc := hg.config.trans hbc.config
  refine ⟨hg.number, ?_⟩
  rcases Nat.lt_or_ge bc.height top with hlt | hge
  · -- another node was here before, with the same request
    obtain ⟨r', hr', hn'⟩ := hT.executed _ hbc.above hlt
    obtain rfl : r = r' := Option.some.inj
      ((Stacked.latest hT.sorted hr).symm.trans (Stacked.latest hT.sorted hr'))
    refine ⟨C, top, .refl C top, hT, hcc, habove, hg.number ▸ hlt, ?_⟩
    rw [hg.number]
    exact hn.unique hb hn'
  · obtain rfl : bc.height = top := Nat.le_antisymm hbc.below hge
    refine ⟨_, _, ⟨Nat.le_succ _, ?_⟩, hT.extend hr hn, hcc, habove, hg.number.le, ?_⟩
    · intro h hh
      exact Function.update_of_ne (by omega) _ _
    · rw [hg.number, Function.update_self]

/-- A proposal for the height after the end of the track. -/
theorem Track.propose (hT : Track cc log C base top) (hbc : OnTrack cc C base top bc)
    (hlog : ∀ p ∈ log, p.1 ≤ bc.height) {r : Request H} {b : Block H} (hb : r.msg = .block b)
    (hext : bc.Extends b) : Track cc ((bc.height + 1, r) :: log) C base top := by
  refine ⟨?_, ?_, ?_⟩
  · exact List.pairwise_cons.2 ⟨fun p hp => Nat.lt_succ_of_le (hlog p hp), hT.sorted⟩
  · intro h r' hr'
    rcases List.mem_cons.1 hr' with heq | hmem
    · obtain ⟨hh, rfl⟩ := Prod.mk.inj heq
      obtain rfl : h = bc.height := Nat.succ.inj hh
      refine ⟨hbc.below, b, hb, ?_⟩
      rw [← hbc.tip]
      exact hext
    · exact hT.builds h r' hmem
  · intro h hbase hh
    obtain ⟨r', hr', hn⟩ := hT.executed h hbase hh
    exact ⟨r', List.mem_cons_of_mem _ hr', hn⟩

end Track

/-! ## Messages and nodes -/

/-- The message speaks of a proposal under the number of its round; there is none about old
    requests. -/
def Numbered (log : List (ℕ × Request H)) : PbftMsg H → Prop
  | .prePrepare m => (m.seqID, m.requestMsg) ∈ log
  | .prepare m => ∃ r, (m.seqID, r) ∈ log ∧ Hashing.getDigest r = m.digest
  | .commit m => ∃ r, (m.seqID, r) ∈ log ∧ Hashing.getDigest r = m.digest
  | .requestOld _ => False
  | .sendOld _ => False
  | .viewChange _ => True
  | .newView _ => True

omit [DecidableEq H] in
theorem Numbered.cons {log : List (ℕ × Request H)} {m : PbftMsg H} (hm : Numbered log m)
    (p : ℕ × Request H) : Numbered (p :: log) m := by
  have hvote : ∀ {v : Vote H}, (∃ r, (v.seqID, r) ∈ log ∧ Hashing.getDigest r = v.digest) →
      ∃ r, (v.seqID, r) ∈ p :: log ∧ Hashing.getDigest r = v.digest :=
    fun ⟨r, hr, hd⟩ => ⟨r, List.mem_cons_of_mem _ hr, hd⟩
  cases m with
  | prePrepare m => exact List.mem_cons_of_mem _ hm
  | prepare m => exact hvote hm
  | commit m => exact hvote hm
  | requestOld m => exact hm
  | sendOld m => exact hm
  | viewChange m => trivial
  | newView m => trivial

/-- The leader has executed all its proposals, or all but one, for which it holds the lock. -/
inductive Turn (log : List (ℕ × Request H)) (n : PbftNode H) : Prop
  | idle : (∀ p ∈ log, p.1 ≤ n.curChain.height) →
      (n.proposing = if n.sequenceLock then 1 else 0) → Turn log n
  | outstanding : (∀ p ∈ log, p.1 ≤ n.curChain.height + 1) → n.sequenceLock = true →
      n.proposing = 0 → Turn log n

/-- A node in step. -/
structure InStep (cc : ChainConfig) (log : List (ℕ × Request H)) (C : ℕ → Tip H) (base top i : ℕ)
    (n : PbftNode H) : Prop where
  nodeID : n.nodeID = i
  view : n.view = 0
  unblocked : n.blocked = none
  pool : ∀ d r, n.requestPool d = some r → Hashing.getDigest r = d
  chain : OnTrack cc C base top n.curChain
  sequenceID : n.sequenceID = n.curChain.height + 1
  leader : i = 0 → Turn log n
  follower : i ≠ 0 → n.waiting = 0 ∧ n.proposing = 0

namespace PbftNode

/-- The message makes the node install a view. -/
def installsView (n : PbftNode H) : PbftMsg H → Bool
  | .newView m => (insert m.fromNode (n.newViewMap (m.nextView, m.seqID))).card = n.quorum
  | _ => false

/-- If the commit message completes a quorum, it is one of the node's own round and the node holds
    the request. -/
def InTurn (n : PbftNode H) : PbftMsg H → Prop
  | .commit m => n.sequenceID ≤ m.seqID → n.completesCommit m = true →
      m.seqID = n.sequenceID ∧ n.requestPool m.digest ≠ none
  | _ => True

instance (n : PbftNode H) : (m : PbftMsg H) → Decidable (n.InTurn m)
  | .commit m => inferInstanceAs (Decidable (n.sequenceID ≤ m.seqID →
      n.completesCommit m = true → m.seqID = n.sequenceID ∧ n.requestPool m.digest ≠ none))
  | .prePrepare _ | .prepare _ | .requestOld _ | .sendOld _ | .viewChange _ | .newView _ =>
    .isTrue trivial

end PbftNode

section Node

variable {cc : ChainConfig} {log : List (ℕ × Request H)} {C C' : ℕ → Tip H} {base top top' i : ℕ}
  {n n' : PbftNode H}

theorem InStep.isMain_iff (hn : InStep cc log C base top i n) : n.isMain = true ↔ i = 0 := by
  rw [PbftNode.isMain, decide_eq_true_iff, hn.nodeID, hn.view]

theorem InStep.continues (hn : InStep cc log C base top i n) (h : Continues C top C' top') :
    InStep cc log C' base top' i n :=
  { hn with chain := hn.chain.continues h }

theorem Turn.congr (ht : Turn log n) (hfiles : n'.curChain.height = n.curChain.height)
    (hlock : n'.sequenceLock = n.sequenceLock) (hprop : n'.proposing = n.proposing) :
    Turn log n' := by
  cases ht with
  | idle hlog hfree => exact .idle (hfiles ▸ hlog) (by rw [hprop, hlock, hfree])
  | outstanding hlog hheld hzero =>
    exact .outstanding (hfiles ▸ hlog) (hlock.trans hheld) (hprop.trans hzero)

/-- A node that keeps its role, its number and its files stays in step. -/
theorem InStep.congr (hn : InStep cc log C base top i n) (h : SameRole n n')
    (hseq : n'.sequenceID = n.sequenceID) (hfiles : BlockChain.SameFiles n.curChain n'.curChain) :
    InStep cc log C base top i n' where
  nodeID := h.nodeID.trans hn.nodeID
  view := h.view.trans hn.view
  unblocked := h.blocked.trans hn.unblocked
  pool := by
    rw [h.requestPool]
    exact hn.pool
  chain := hn.chain.sameFiles hfiles
  sequenceID := by rw [hseq, hn.sequenceID, hfiles.height]
  leader := fun hi => (hn.leader hi).congr hfiles.height h.sequenceLock h.proposing
  follower := fun hi => h.follower hn.isMain_iff hi (hn.follower hi)

theorem InStep.putRequest (hn : InStep cc log C base top i n) (seqID : ℕ) (r : Request H) :
    InStep cc log C base top i (n.putRequest seqID r) := by
  obtain ⟨hid, hview, hblocked, hpool, hchain, hseq, hleader, hfollower⟩ := hn
  refine ⟨hid, hview, hblocked, ?_, hchain, hseq,
    fun hi => (hleader hi).congr rfl rfl rfl, hfollower⟩
  intro d r' hr'
  have hupd : Function.update n.requestPool (Hashing.getDigest r) (some r) d = some r' := hr'
  rw [Function.update_apply] at hupd
  split at hupd
  · next hd =>
      obtain rfl := Option.some.inj hupd
      exact hd.symm
  · exact hpool d r' hupd

/-- Whoever proposes is the leader, and has executed all that was proposed before. -/
theorem InStep.idle_of_proposing (hn : InStep cc log C base top i n) (hprop : 0 < n.proposing) :
    i = 0 ∧ (∀ p ∈ log, p.1 ≤ n.curChain.height) ∧ n.sequenceLock = true ∧ n.proposing = 1 := by
  have hi : i = 0 := by
    by_contra hi
    have h0 := (hn.follower hi).2
    omega
  cases hn.leader hi with
  | idle hlog hlock =>
    split at hlock
    · next hheld => exact ⟨hi, hlog, hheld, hlock⟩
    · omega
  | outstanding _ _ h0 => omega

/-- The lock is taken by the leader, and only when all proposals are executed. -/
theorem InStep.lockSequence (hn : InStep cc log C base top i n) (hwait : 0 < n.waiting)
    (hfree : n.sequenceLock = false) :
    InStep cc log C base top i
      { n with waiting := n.waiting - 1, proposing := n.proposing + 1, sequenceLock := true } := by
  have hi : i = 0 := by
    by_contra hi
    have h0 := (hn.follower hi).1
    omega
  refine { hn with leader := fun _ => ?_, follower := fun h0 => absurd hi h0 }
  cases hn.leader hi with
  | idle hlog hlock =>
    rw [hfree] at hlock
    exact .idle hlog (congrArg (· + 1) hlock)
  | outstanding _ hheld _ => exact absurd hheld (by simp [hfree])

/-- The leader after its proposal holds the lock for it. -/
theorem InStep.propose (hn : InStep cc log C base top i n) (hprop : 0 < n.proposing)
    {bc : BlockChain H} (hfiles : BlockChain.SameFiles n.curChain bc) (r : Request H) :
    InStep cc ((n.curChain.height + 1, r) :: log) C base top i
      { n.putRequest n.sequenceID r with
        curChain := bc
        proposing := n.proposing - 1
        storing := n.storing + 1 } := by
  obtain ⟨hi, hlog, hheld, hone⟩ := hn.idle_of_proposing hprop
  refine ⟨hn.nodeID, hn.view, hn.unblocked, (hn.putRequest n.sequenceID r).pool,
    hn.chain.sameFiles hfiles, hn.sequenceID.trans (by rw [hfiles.height]), fun _ => ?_,
    fun h0 => absurd hi h0⟩
  refine .outstanding ?_ hheld (by show n.proposing - 1 = 0; omega)
  show ∀ p ∈ (n.curChain.height + 1, r) :: log, p.1 ≤ bc.height + 1
  rw [hfiles.height]
  exact List.forall_mem_cons.2 ⟨le_rfl, fun p hp => (hlog p hp).trans (Nat.le_succ _)⟩

theorem InStep.cons_follower (hn : InStep cc log C base top i n) (hi : i ≠ 0)
    (p : ℕ × Request H) : InStep cc (p :: log) C base top i n :=
  { hn with leader := fun h0 => absurd h0 hi }

/-! ## One delivery -/

/-- What a delivery leads to: the track may go on, the node is in step if it survives, and its
    messages are numbered. -/
def Delivered (cc : ChainConfig) (log : List (ℕ × Request H)) (C : ℕ → Tip H) (base top i : ℕ)
    (n' : PbftNode H) (msgs : List (ℕ × PbftMsg H)) : Prop :=
  (∀ p ∈ msgs, Numbered log p.2) ∧ ∃ C' top', Continues C top C' top' ∧
    Track cc log C' base top' ∧ (n'.alive = true → InStep cc log C' base top' i n')

theorem Delivered.stay {msgs : List (ℕ × PbftMsg H)} (hT : Track cc log C base top)
    (hn' : n'.alive = true → InStep cc log C base top i n')
    (hmsgs : ∀ p ∈ msgs, Numbered log p.2) : Delivered cc log C base top i n' msgs :=
  ⟨hmsgs, C, top, .refl C top, hT, hn'⟩

theorem numbered_toAll {m : PbftMsg H} (hm : Numbered log m) (n : PbftNode H) :
    ∀ p ∈ n.toAll m, Numbered log p.2 := by
  intro p hp
  rw [PbftNode.snd_of_mem_toAll hp]
  exact hm

theorem InStep.handlePrePrepare (hT : Track cc log C base top)
    (hn : InStep cc log C base top i n) {m : PrePrepare H} {msgs : List (ℕ × PbftMsg H)}
    (hm : (m.seqID, m.requestMsg) ∈ log) (h : n.handlePrePrepare m = some (n', msgs)) :
    Delivered cc log C base top i n' msgs := by
  have hput := hn.putRequest m.seqID m.requestMsg
  rcases PbftNode.handlePrePrepare_cases h with
    ⟨rfl, rfl⟩ | ⟨rfl, rfl⟩ | ⟨-, rfl, rfl⟩ | ⟨hdigest, rfl, rfl⟩
  · exact .stay hT (fun _ => hn) (by simp)
  · exact .stay hT (fun halive => absurd halive (by simp [PbftNode.crash])) (by simp)
  · exact .stay hT (fun _ => hput) (by simp)
  · exact .stay hT (fun _ => hput.congr (.of_eq rfl) rfl (.refl _))
      (numbered_toAll (m := .prepare (n.vote m.digest m.seqID)) ⟨m.requestMsg, hm, hdigest⟩ n)

theorem InStep.handlePrepare (hT : Track cc log C base top) (hn : InStep cc log C base top i n)
    {m : Vote H} {msgs : List (ℕ × PbftMsg H)} (hm : Numbered log (.prepare m))
    (h : n.handlePrepare m = some (n', msgs)) : Delivered cc log C base top i n' msgs := by
  obtain ⟨-, -, -, rfl, hmsgs⟩ := PbftNode.handlePrepare_cases h
  refine .stay hT (fun _ => hn.congr (.of_eq rfl) rfl (.refl _)) ?_
  rcases hmsgs with rfl | rfl
  · simp
  · exact numbered_toAll (m := .commit (n.vote m.digest m.seqID)) hm n

/-- The leader executes the proposal it holds the lock for. -/
theorem Turn.executed (ht : Turn log n) {r : Request H} (hr : (n.curChain.height + 1, r) ∈ log)
    {n' : PbftNode H} (hheight : n'.curChain.height = n.curChain.height + 1)
    (hlock : n.sequenceLock = true → n'.sequenceLock = false)
    (hprop : n'.proposing = n.proposing) : Turn log n' := by
  cases ht with
  | idle hlog _ =>
    have hle := hlog _ hr
    omega
  | outstanding hlog hheld hzero =>
    refine .idle (hheight ▸ hlog) ?_
    rw [hlock hheld, hprop, hzero]
    rfl

/-- The request of the node's own round is executed. -/
theorem InStep.executeRequest (hT : Track cc log C base top) (hn : InStep cc log C base top i n)
    {r : Request H} (hr : (n.sequenceID, r) ∈ log) (d : H) :
    Delivered cc log C base top i (n.executeRequest d r) [] := by
  rw [hn.sequenceID] at hr
  unfold PbftNode.executeRequest
  split
  · next bc' hcommit =>
      obtain ⟨hheight, C', top', hcont, hT', hbc'⟩ := hT.execute hn.chain hr hcommit
      refine ⟨by simp, C', top', hcont, hT', fun _ => ?_⟩
      by_cases hi : i = 0
      · have hmain := hn.isMain_iff.2 hi
        have hheld : n.sequenceLock = true := by
          cases hn.leader hi with
          | idle hlog _ =>
            have hle := hlog _ hr
            omega
          | outstanding _ hheld _ => exact hheld
        rw [PbftNode.endRound_of_isMain (by exact hmain) (by exact hheld)]
        exact ⟨hn.nodeID, hn.view, hn.unblocked, hn.pool, hbc',
          congrArg (· + 1) (hn.sequenceID.trans hheight.symm),
          fun hi => (hn.leader hi).executed hr hheight (fun _ => rfl) rfl, hn.follower⟩
      · obtain ⟨lock, alive, heq⟩ := PbftNode.endRound_frame
          { n with
            curChain := bc'
            isReply := Function.update n.isReply d true
            sequenceID := n.sequenceID + 1 }
        rw [heq]
        exact ⟨hn.nodeID, hn.view, hn.unblocked, hn.pool, hbc',
          congrArg (· + 1) (hn.sequenceID.trans hheight.symm), fun h0 => absurd h0 hi, hn.follower⟩
  · exact .stay hT (fun halive => absurd halive (by simp [PbftNode.crash])) (by simp)

theorem InStep.handleCommit (hT : Track cc log C base top) (hn : InStep cc log C base top i n)
    {m : Vote H} {msgs : List (ℕ × PbftMsg H)} (hm : Numbered log (.commit m))
    (hturn : n.InTurn (.commit m)) (h : n.handleCommit m = some (n', msgs)) :
    Delivered cc log C base top i n' msgs := by
  cases PbftNode.handlesCommit_of_handleCommit h with
  | drop => exact .stay hT (fun _ => hn) (by simp)
  | count => exact .stay hT (fun _ => hn.congr (.of_eq rfl) rfl (.refl _)) (by simp)
  | wait hle _ hdone hnone => exact absurd hnone (hturn hle hdone).2
  | ask hle _ hdone hnone => exact absurd hnone (hturn hle hdone).2
  | execute hle _ hdone hcommitting =>
    -- the request in the pool is the one proposed under this number
    obtain ⟨r', hr', hd⟩ := hm
    obtain ⟨hpool, -⟩ := PbftNode.committing_spec hcommitting
    obtain rfl := Hashing.getDigest_injective ((hn.pool _ _ hpool).trans hd.symm)
    rw [(hturn hle hdone).1] at hr'
    have hcount : InStep cc log C base top i (n.countCommit m) :=
      hn.congr (.of_eq rfl) rfl (.refl _)
    exact hcount.executeRequest hT hr' m.digest

/-- **One delivery** in a node's turn. -/
theorem InStep.handleMessage (hT : Track cc log C base top) (hn : InStep cc log C base top i n)
    {m : PbftMsg H} {msgs : List (ℕ × PbftMsg H)} (hm : Numbered log m)
    (hview : n.installsView m = false) (hturn : n.InTurn m)
    (h : n.handleMessage m = some (n', msgs)) : Delivered cc log C base top i n' msgs := by
  cases m with
  | prePrepare m => exact hn.handlePrePrepare hT hm h
  | prepare m => exact hn.handlePrepare hT hm h
  | commit m => exact hn.handleCommit hT hm hturn h
  | requestOld m => exact hm.elim
  | sendOld m => exact hm.elim
  | viewChange m =>
    obtain ⟨rfl, rfl⟩ := Prod.ext_iff.1 (Option.some.inj h)
    refine .stay hT (fun _ => hn.congr (.of_eq rfl) rfl (.refl _)) ?_
    simp only [PbftNode.handleViewChangeMsg]
    split
    · exact numbered_toAll (m := .newView _) trivial n
    · simp
  | newView m =>
    rw [PbftNode.handleMessage, PbftNode.handleNewViewMsg] at h
    simp only at h
    rw [if_neg (by simpa [PbftNode.installsView] using hview)] at h
    obtain ⟨rfl, rfl⟩ := Prod.mk.inj (Option.some.inj h)
    exact .stay hT (fun _ => hn.congr (.of_eq rfl) rfl (.refl _)) (by simp)

end Node

/-! ## Runs in step -/

namespace PbftWorld

/-- The step installs no view. -/
def StaysInView (w : PbftWorld H N) : PbftAct N → Prop
  | .deliver k => ∀ p ∈ w.net[k]?, ∀ hd : p.1 < N, (w.nodes ⟨p.1, hd⟩).installsView p.2 = false
  | _ => True

/-- A commit message that completes a quorum at a node is of the node's own round, and the node holds
    its request. -/
def InTurn (w : PbftWorld H N) : PbftAct N → Prop
  | .deliver k => ∀ p ∈ w.net[k]?, ∀ hd : p.1 < N, (w.nodes ⟨p.1, hd⟩).InTurn p.2
  | _ => True

instance (w : PbftWorld H N) : (a : PbftAct N) → Decidable (w.StaysInView a)
  | .deliver k => inferInstanceAs (Decidable (∀ p ∈ w.net[k]?, ∀ hd : p.1 < N,
      (w.nodes ⟨p.1, hd⟩).installsView p.2 = false))
  | .outside _ _ | .roundSignal _ | .takeSignal _ | .lockSequence _ | .propose _ _ _ _
  | .storeStage _ | .resume _ | .timeout _ => .isTrue trivial

instance (w : PbftWorld H N) : (a : PbftAct N) → Decidable (w.InTurn a)
  | .deliver k => inferInstanceAs (Decidable (∀ p ∈ w.net[k]?, ∀ hd : p.1 < N,
      (w.nodes ⟨p.1, hd⟩).InTurn p.2))
  | .outside _ _ | .roundSignal _ | .takeSignal _ | .lockSequence _ | .propose _ _ _ _
  | .storeStage _ | .resume _ | .timeout _ => .isTrue trivial

/-- The proposals form a track, and all nodes that live are in step on it. -/
structure Lockstep (cc : ChainConfig) (base : ℕ) (w : PbftWorld H N) (C : ℕ → Tip H) (top : ℕ) :
    Prop where
  track : Track cc w.proposed C base top
  net : ∀ p ∈ w.net, Numbered w.proposed p.2
  nodes : ∀ i : Fin N, (w.nodes i).alive = true →
    InStep cc w.proposed C base top i (w.nodes i)

theorem lockstep_init (ht : HandleType) (bc : BlockChain H) :
    Lockstep bc.chainConfig bc.height (init N ht bc) (fun _ => bc.tip) bc.height where
  track := ⟨.nil, by simp [init], fun h hb hh => absurd hh (by omega)⟩
  net := by simp [init]
  nodes := fun i _ => by
    refine ⟨rfl, rfl, rfl, by simp [init, PbftNode.newPbftNode], ⟨rfl, le_rfl, le_rfl, rfl⟩, rfl,
      fun _ => ?_, fun _ => ⟨rfl, rfl⟩⟩
    exact .idle (by simp [init]) rfl

variable {cc : ChainConfig} {base top : ℕ} {C : ℕ → Tip H} {w w' : PbftWorld H N}

theorem Lockstep.after_none (hw : Lockstep cc base w C top) {i : Fin N} {n : PbftNode H}
    {msgs : List (ℕ × PbftMsg H)} (h : Delivered cc w.proposed C base top i n msgs) :
    ∃ C' top', Lockstep cc base (w.after i n none msgs) C' top' := by
  obtain ⟨hmsgs, C', top', hcont, hT', hn⟩ := h
  refine ⟨C', top', hT', ?_, ?_⟩
  · exact fun p hp => (List.mem_append.1 hp).elim (hw.net p) (hmsgs p)
  · exact (forall_nodes_after (p := fun j m => m.alive = true →
      InStep cc w.proposed C' base top' j m)).2
      ⟨hn, fun j _ halive => (hw.nodes j halive).continues hcont⟩

/-- The leader proposes. -/
theorem Lockstep.propose (hw : Lockstep cc base w C top) {i : Fin N}
    (halive : (w.nodes i).alive = true) (hprop : 0 < (w.nodes i).proposing) {bc : BlockChain H}
    {r : Request H} (hfiles : BlockChain.SameFiles (w.nodes i).curChain bc) {b : Block H}
    (hb : r.msg = .block b) (hext : (w.nodes i).curChain.Extends b) :
    Lockstep cc base (w.after i
      { (w.nodes i).putRequest (w.nodes i).sequenceID r with
        curChain := bc
        proposing := (w.nodes i).proposing - 1
        storing := (w.nodes i).storing + 1 } (some r)
      ((w.nodes i).toAll (.prePrepare ⟨r, Hashing.getDigest r, (w.nodes i).sequenceID⟩))) C top := by
  have hn := hw.nodes i halive
  obtain ⟨hi, hlog, -, -⟩ := hn.idle_of_proposing hprop
  refine ⟨hw.track.propose hn.chain hlog hb hext, ?_, ?_⟩
  · intro p hp
    rcases List.mem_append.1 hp with hold | hnew
    · exact (hw.net p hold).cons _
    · refine numbered_toAll ?_ _ p hnew
      show ((w.nodes i).sequenceID, r) ∈ _
      rw [hn.sequenceID]
      exact List.mem_cons_self
  · refine (forall_nodes_after (p := fun j m => m.alive = true →
      InStep cc ((w.height i + 1, r) :: w.proposed) C base top j m)).2 ⟨?_, ?_⟩
    · exact fun _ => hn.propose hprop hfiles r
    · intro j hj hjalive
      refine (hw.nodes j hjalive).cons_follower ?_ _
      exact fun h0 => hj (Fin.ext (h0.trans hi.symm))

theorem Lockstep.step (hw : Lockstep cc base w C top) {a : PbftAct N} (hview : w.StaysInView a)
    (hturn : w.InTurn a) (hblocks : ProposesBlock a) (h : w.step a = some w') :
    ∃ C' top', Lockstep cc base w' C' top' := by
  obtain ⟨i, n, r, msgs, hact, halive, rfl⟩ := step_cases h
  have hn := hw.nodes i halive
  -- a node that keeps its role, its number and its files and is silent
  have hquiet : ∀ {n'}, SameRole (w.nodes i) n' → n'.sequenceID = (w.nodes i).sequenceID →
      BlockChain.SameFiles (w.nodes i).curChain n'.curChain →
      ∃ C' top', Lockstep cc base (w.after i n' none []) C' top' :=
    fun hrole hseq hfiles => hw.after_none
      (.stay hw.track (fun _ => hn.congr hrole hseq hfiles) (by simp))
  cases hact with
  | outside => exact hquiet (.of_eq rfl) rfl ⟨rfl, rfl, rfl, rfl⟩
  | roundSignal => exact hquiet (.of_eq rfl) rfl (.refl _)
  | takeSignal =>
    refine hquiet ⟨rfl, rfl, rfl, rfl, rfl, rfl, rfl, rfl, fun hmain => ?_, rfl, id⟩ rfl (.refl _)
    simp [hmain]
  | lockSequence hwait hfree =>
    exact hw.after_none (.stay hw.track (fun _ => hn.lockSequence hwait hfree) (by simp))
  | proposePanics =>
    exact hw.after_none (.stay hw.track (fun hdead => absurd hdead (by simp [PbftNode.crash]))
      (by simp))
  | @propose partition _ _ _ _ hprop _ hreq =>
    obtain rfl : partition = none := hblocks
    obtain ⟨b, hb, hext, -⟩ := PbftNode.handleinPropose_block hreq
    exact ⟨C, top, hw.propose halive hprop (PbftNode.handleinPropose_spec hreq).1 hb hext⟩
  | storeStage => exact hquiet (.of_eq rfl) rfl (.refl _)
  | resume hblocked => exact absurd (hn.unblocked.symm.trans hblocked) (by simp)
  | timeout =>
    exact hw.after_none (.stay hw.track (fun _ => hn.congr (.of_eq rfl) rfl (.refl _))
      (numbered_toAll (m := .viewChange _) trivial _))
  | deliver hk hmsg =>
    exact hw.after_none (hn.handleMessage hw.track (hw.net _ (List.mem_of_getElem? hk))
      (hview _ hk i.isLt) (hturn _ hk i.isLt) hmsg)

/-- **Lockstep.** In every run that installs no view, proposes only blocks, and in which quorums are
    completed in turn, the sequence number of a live node is the height of its chain plus one, and the
    request that a commit message makes it execute is the one proposed for the next height. -/
theorem sequenceID_eq_height (ht : HandleType) (bc : BlockChain H)
    (hrun : ReachesUnder step (fun w a => w.StaysInView a ∧ w.InTurn a ∧ ProposesBlock a)
      (init N ht bc) w)
    (i : Fin N) (halive : (w.nodes i).alive = true) :
    (w.nodes i).sequenceID = w.height i + 1 ∧
      ∀ k m r, w.net[k]? = some (i.val, .commit m) → w.InTurn (.deliver k) →
        (w.nodes i).committing m = some r → (w.height i + 1, r) ∈ w.proposed := by
  have hinv : ∃ C top, Lockstep bc.chainConfig bc.height w C top :=
    hrun.invariant (I := fun w => ∃ C top, Lockstep bc.chainConfig bc.height w C top)
      ⟨_, _, lockstep_init ht bc⟩ fun _ _ _ ⟨_, _, hw⟩ hP hstep => hw.step hP.1 hP.2.1 hP.2.2 hstep
  obtain ⟨C, top, hw⟩ := hinv
  have hn := hw.nodes i halive
  refine ⟨hn.sequenceID, ?_⟩
  intro k m r hk hturn hr
  obtain ⟨hpool, -⟩ := PbftNode.committing_spec hr
  obtain ⟨r', hr', hd⟩ := hw.net _ (List.mem_of_getElem? hk)
  obtain rfl := Hashing.getDigest_injective ((hn.pool _ _ hpool).trans hd.symm)
  obtain ⟨hle, hdone⟩ := PbftNode.completes_of_committing hr
  obtain ⟨hseq, -⟩ := hturn _ hk i.isLt hle hdone
  rw [hseq, hn.sequenceID] at hr'
  exact hr'

section Sample

open BlockChain

set_option maxRecDepth 100000

/-- The first round at nodes 0, 1 and 2; node 3 has sent its commit message and got none. -/
def laggingRound : List (PbftAct 4) :=
  firstRound ++ [7, 11, 15, 20, 24, 28, 21, 25, 29, 22, 26, 30].map .deliver

/-- A node goes through its proposing routine once. -/
def proposalBy (i : Fin 4) : List (PbftAct 4) :=
  [.roundSignal i, .takeSignal i, .lockSequence i, .propose i none 0 0, .storeStage i]

/-- After a second proposal nodes 0, 1 and 2 commit it. The proposal and their commit messages reach
    node 3. -/
def overtakingRound : List (PbftAct 4) :=
  [36, 37, 38, 39, 40, 44, 48, 41, 45, 49, 42, 46, 50, 55, 59, 63].map .deliver

/-- After the first round nodes 0, 1 and 2 are at sequence number 2 and height 1. -/
theorem first_round_in_step :
    ∃ w, ReachesUnder step (fun w a => w.StaysInView a ∧ w.InTurn a ∧ ProposesBlock a)
        (init 4 .relay sampleGenesis) w ∧
      w.height 0 = 1 ∧ (w.nodes 0).alive = true ∧ (w.nodes 0).sequenceID = w.height 0 + 1 := by
  have hrun : ∃ w ∈ runChecked step
      (fun w a => decide (w.StaysInView a ∧ w.InTurn a ∧ ProposesBlock a))
      (init 4 .relay sampleGenesis) laggingRound,
      w.height 0 = 1 ∧ (w.nodes 0).alive = true := by decide +kernel
  obtain ⟨w, hw, hheight, halive⟩ := hrun
  have hreach := reachesUnder_of_runDecided hw
  exact ⟨w, hreach, hheight, halive, (sequenceID_eq_height .relay sampleGenesis hreach 0 halive).1⟩

/-- Node 3, still in its first round, gets the proposal and the commit messages of the second: its
    chain ignores the block, and its sequence number moves on. -/
theorem overtaken_out_of_step :
    ∃ w, ReachesUnder step StaysInView (init 4 .relay sampleGenesis) w ∧
      (w.nodes 3).alive = true ∧ (w.nodes 3).sequenceID = 2 ∧ w.height 3 = 0 := by
  have hrun : ∃ w ∈ runChecked step (fun w a => decide (w.StaysInView a))
      (init 4 .relay sampleGenesis) (laggingRound ++ proposalBy 0 ++ overtakingRound),
      (w.nodes 3).alive = true ∧ (w.nodes 3).sequenceID = 2 ∧ w.height 3 = 0 := by decide +kernel
  obtain ⟨w, hw, h⟩ := hrun
  exact ⟨w, reachesUnder_of_runDecided hw, h⟩

end Sample

end PbftWorld

end BlockEmulator
