import BlockEmulator.Pbft.Agreement

set_option autoImplicit false

/-! # Agreement within one view

While no node changes its view, node 0 leads. Its sequence lock admits one proposal at a time: it is
taken before a block is generated and given back when the leader has executed that block. So the
proposals are one block for each height, every request that a node ever holds is one of them, and
every run is orderly. -/

namespace BlockEmulator

variable {H : Type} [DecidableEq H] [Hashing H] {N : ℕ}

/-! ## The proposals of one leader -/

/-- The request has been proposed. -/
def Known (log : List (ℕ × Request H)) (r : Request H) : Prop := ∃ h, (h, r) ∈ log

/-- The log holds one block for each height, newest first. -/
structure Stacked (log : List (ℕ × Request H)) : Prop where
  block : ∀ p ∈ log, ∃ b, p.2.msg = .block b ∧ b.header.number = p.1
  sorted : log.Pairwise fun p q => q.1 < p.1

omit [DecidableEq H] [Hashing H] in
theorem Stacked.latest {log : List (ℕ × Request H)} (hs : log.Pairwise fun p q => q.1 < p.1)
    {h : ℕ} {r : Request H} (hr : (h, r) ∈ log) : latest log h = some r := by
  induction log with
  | nil => exact absurd hr (by simp)
  | cons p log ih =>
    obtain ⟨hhead, htail⟩ := List.pairwise_cons.1 hs
    rcases List.mem_cons.1 hr with rfl | hmem
    · rw [BlockEmulator.latest, List.find?_cons_of_pos (by simp)]
      rfl
    · have hne : ¬ p.1 = h := (hhead _ hmem).ne'
      rw [BlockEmulator.latest, List.find?_cons_of_neg (by simpa using hne)]
      exact ih htail hmem

/-- A block can only be executed at its own height. -/
theorem Stacked.isLatest {log : List (ℕ × Request H)} (hs : Stacked log) {r : Request H}
    (hr : Known log r) (ht : HandleType) (bc : BlockChain H) : IsLatest log ht bc r := by
  intro happ
  obtain ⟨h, hmem⟩ := hr
  obtain ⟨b, hb, hnum⟩ := hs.block _ hmem
  rw [HandleType.Appends, hb] at happ
  obtain rfl : h = bc.height + 1 := hnum.symm.trans happ.1
  exact Stacked.latest hs.sorted hmem

theorem Stacked.allLatest {log : List (ℕ × Request H)} (hs : Stacked log) (ht : HandleType)
    {rs : List (Request H)} (hrs : ∀ r ∈ rs, Known log r) (bc : BlockChain H) :
    AllLatest log ht bc rs := by
  induction rs generalizing bc with
  | nil => trivial
  | cons r rs ih =>
    obtain ⟨hr, hrest⟩ := List.forall_mem_cons.1 hrs
    exact ⟨hs.isLatest hr ht bc, fun bc' _ => ih hrest bc'⟩

/-! ## What holds of messages and nodes -/

/-- Messages speak about proposals only, and node 0 never asks for old ones. -/
def Sound (log : List (ℕ × Request H)) (dst : ℕ) : PbftMsg H → Prop
  | .prePrepare m => Known log m.requestMsg
  | .prepare m => ∃ r, Known log r ∧ Hashing.getDigest r = m.digest
  | .commit m => ∃ r, Known log r ∧ Hashing.getDigest r = m.digest
  | .requestOld m => m.senderNode ≠ 0
  | .sendOld m => dst ≠ 0 ∧ ∀ r ∈ m.oldRequest, Known log r
  | .viewChange _ => True
  | .newView _ => True

/-- The leader has executed all proposals, or all but the newest, for which it holds the lock. -/
inductive Phase (log : List (ℕ × Request H)) (n : PbftNode H) : Prop
  | idle : (∀ p ∈ log, n.isReply (Hashing.getDigest p.2) = true) →
      (∀ p ∈ log, p.1 ≤ n.curChain.height) →
      (n.proposing = if n.sequenceLock then 1 else 0) → Phase log n
  | outstanding {r : Request H} {b : Block H} {log' : List (ℕ × Request H)} :
      log = (n.curChain.height + 1, r) :: log' →
      (∀ p ∈ log', n.isReply (Hashing.getDigest p.2) = true) →
      n.isReply (Hashing.getDigest r) = false → r.msg = .block b → n.curChain.Extends b →
      n.sequenceLock = true → n.proposing = 0 → Phase log n

structure LeaderOk (log : List (ℕ × Request H)) (n : PbftNode H) : Prop where
  pool : ∀ r, Known log r → n.requestPool (Hashing.getDigest r) = some r
  replied : ∀ d, n.isReply d = true → ∃ r, Known log r ∧ Hashing.getDigest r = d
  unblocked : n.blocked = none
  phase : n.alive = true → Phase log n

structure NodeOk (log : List (ℕ × Request H)) (i : ℕ) (n : PbftNode H) : Prop where
  nodeID : n.nodeID = i
  partitions : n.handleType.partitions = false
  view : n.view = 0
  pool : ∀ d r, n.requestPool d = some r → Hashing.getDigest r = d ∧ Known log r
  leader : i = 0 → LeaderOk log n
  follower : i ≠ 0 → n.waiting = 0 ∧ n.proposing = 0

theorem NodeOk.isMain_iff {log : List (ℕ × Request H)} {i : ℕ} {n : PbftNode H}
    (hn : NodeOk log i n) : n.isMain = true ↔ i = 0 := by
  rw [PbftNode.isMain, decide_eq_true_iff, hn.nodeID, hn.view]

/-! ## Frames -/

/-- The two nodes differ in nothing that matters for who proposes and what is proposed. -/
structure SameRole (n n' : PbftNode H) : Prop where
  nodeID : n'.nodeID = n.nodeID
  handleType : n'.handleType = n.handleType
  view : n'.view = n.view
  requestPool : n'.requestPool = n.requestPool
  isReply : n'.isReply = n.isReply
  blocked : n'.blocked = n.blocked
  sequenceLock : n'.sequenceLock = n.sequenceLock
  proposing : n'.proposing = n.proposing
  waiting : n.isMain = false → n'.waiting = n.waiting
  block : n'.curChain.currentBlock = n.curChain.currentBlock
  alive : n'.alive = true → n.alive = true

/-- A node that is the same in all of this, whatever else it has changed. -/
theorem SameRole.of_eq {n n' : PbftNode H}
    (h : (n'.nodeID, n'.handleType, n'.view, n'.requestPool, n'.isReply, n'.blocked, n'.sequenceLock,
        n'.proposing, n'.waiting, n'.curChain.currentBlock, n'.alive) =
      (n.nodeID, n.handleType, n.view, n.requestPool, n.isReply, n.blocked, n.sequenceLock,
        n.proposing, n.waiting, n.curChain.currentBlock, n.alive)) : SameRole n n' := by
  simp only [Prod.mk.injEq] at h
  obtain ⟨h₁, h₂, h₃, h₄, h₅, h₆, h₇, h₈, hwait, hblock, halive⟩ := h
  exact ⟨h₁, h₂, h₃, h₄, h₅, h₆, h₇, h₈, fun _ => hwait, hblock, fun h => halive ▸ h⟩

theorem SameRole.crash (n : PbftNode H) : SameRole n n.crash :=
  ⟨rfl, rfl, rfl, rfl, rfl, rfl, rfl, rfl, fun _ => rfl, rfl, by simp [PbftNode.crash]⟩

theorem Phase.congr {log : List (ℕ × Request H)} {n n' : PbftNode H} (hp : Phase log n)
    (h : SameRole n n') : Phase log n' := by
  have hheight : n'.curChain.height = n.curChain.height := by
    rw [BlockChain.height, BlockChain.height, h.block]
  cases hp with
  | idle hreply hbelow hlock =>
    refine .idle ?_ ?_ ?_
    · intro p hp
      rw [h.isReply]
      exact hreply p hp
    · intro p hp
      rw [hheight]
      exact hbelow p hp
    · rw [h.proposing, h.sequenceLock]
      exact hlock
  | outstanding hlog hreply hopen hmsg hext hlock hprop =>
    refine .outstanding (by rw [hheight]; exact hlog) ?_ ?_ hmsg ?_ ?_ ?_
    · intro p hp
      rw [h.isReply]
      exact hreply p hp
    · rw [h.isReply]
      exact hopen
    · rw [BlockChain.Extends, hheight, h.block]
      exact hext
    · rw [h.sequenceLock, hlock]
    · rw [h.proposing, hprop]

/-- A node that is not the leader, and has nothing to propose, still has nothing to propose. -/
theorem SameRole.follower {n n' : PbftNode H} (h : SameRole n n') {i : ℕ}
    (hmain : n.isMain = true ↔ i = 0) (hi : i ≠ 0) (hn : n.waiting = 0 ∧ n.proposing = 0) :
    n'.waiting = 0 ∧ n'.proposing = 0 := by
  have hfollower : n.isMain = false := Bool.eq_false_iff.2 (mt hmain.1 hi)
  rw [h.waiting hfollower, h.proposing]
  exact hn

theorem NodeOk.congr {log : List (ℕ × Request H)} {i : ℕ} {n n' : PbftNode H} (hn : NodeOk log i n)
    (h : SameRole n n') : NodeOk log i n' where
  nodeID := h.nodeID.trans hn.nodeID
  partitions := by rw [h.handleType, hn.partitions]
  view := h.view.trans hn.view
  pool := by
    rw [h.requestPool]
    exact hn.pool
  leader := fun hi => by
    obtain ⟨hpool, hreplied, hblocked, hphase⟩ := hn.leader hi
    refine ⟨?_, ?_, ?_, fun halive => (hphase (h.alive halive)).congr h⟩
    · rw [h.requestPool]
      exact hpool
    · rw [h.isReply]
      exact hreplied
    · rw [h.blocked, hblocked]
  follower := fun hi => h.follower hn.isMain_iff hi (hn.follower hi)

/-- A node other than the leader may change in anything but its identity; what it adds to its pool
    must have been proposed. -/
theorem NodeOk.congr_follower {log : List (ℕ × Request H)} {i : ℕ} {n n' : PbftNode H}
    (hn : NodeOk log i n) (hi : i ≠ 0) (hid : n'.nodeID = n.nodeID)
    (hht : n'.handleType = n.handleType) (hview : n'.view = n.view)
    (hpool : ∀ d r, n'.requestPool d = some r → Hashing.getDigest r = d ∧ Known log r)
    (hwait : n'.waiting = n.waiting) (hprop : n'.proposing = n.proposing) : NodeOk log i n' where
  nodeID := hid.trans hn.nodeID
  partitions := by rw [hht, hn.partitions]
  view := hview.trans hn.view
  pool := hpool
  leader := fun h0 => absurd h0 hi
  follower := fun _ => by
    rw [hwait, hprop]
    exact hn.follower hi

/-! ## The leader executes a request -/

/-- **The leader's lock.** What the leader executes is its newest proposal; afterwards it has
    executed them all and the lock is free. -/
theorem Phase.executeRequest {log : List (ℕ × Request H)} (hs : Stacked log) {n : PbftNode H}
    (hphase : Phase log n) (hmain : n.isMain = true) {r : Request H} (hr : Known log r)
    (hopen : n.isReply (Hashing.getDigest r) = false)
    (halive : (n.executeRequest (Hashing.getDigest r) r).alive = true) :
    Phase log (n.executeRequest (Hashing.getDigest r) r) := by
  obtain ⟨h, hmem⟩ := hr
  cases hphase with
  | idle hreply _ _ => exact absurd (hreply _ hmem) (by simp [hopen])
  | outstanding hlog hreply _ hmsg hext hlock hprop =>
    subst hlog
    obtain ⟨hhead, -⟩ := List.pairwise_cons.1 hs.sorted
    -- everything older has been replied to, so an open request is the newest proposal
    rcases List.mem_cons.1 hmem with heq | hmem
    · obtain ⟨-, rfl⟩ := Prod.mk.inj heq
      unfold PbftNode.executeRequest at halive ⊢
      split at halive
      · next bc' hcommit =>
          have hheight := height_of_handleinCommit
            (fun b' hb' => RequestMsg.block.inj (hmsg.symm.trans hb') ▸ hext) hcommit
          rw [PbftNode.endRound_of_isMain]
          · refine .idle ?_ ?_ hprop
            · intro p hp
              show Function.update n.isReply _ true _ = true
              rw [Function.update_apply]
              split
              · rfl
              · next hne =>
                  rcases List.mem_cons.1 hp with rfl | hp
                  · exact absurd rfl hne
                  · exact hreply p hp
            · intro p hp
              show p.1 ≤ bc'.height
              rw [hheight]
              rcases List.mem_cons.1 hp with rfl | hp
              · exact le_rfl
              · exact (hhead p hp).le
          · exact hmain
          · exact hlock
      · exact absurd halive (by simp [PbftNode.crash])
    · exact absurd (hreply _ hmem) (by simp [hopen])

/-! ## One delivery -/

theorem sound_toAll {log : List (ℕ × Request H)} {m : PbftMsg H} (hm : ∀ dst, Sound log dst m)
    (n : PbftNode H) : ∀ p ∈ n.toAll m, Sound log p.1 p.2 := by
  intro p hp
  obtain ⟨j, -, rfl⟩ := List.mem_map.1 hp
  exact hm j

theorem NodeOk.putRequest {log : List (ℕ × Request H)} {i : ℕ} {n : PbftNode H}
    (hn : NodeOk log i n) {r : Request H} (hr : Known log r) (seqID : ℕ) :
    NodeOk log i (n.putRequest seqID r) := by
  obtain ⟨hid, hpart, hview, hpool, hleader, hfollower⟩ := hn
  refine ⟨hid, hpart, hview, ?_, ?_, hfollower⟩
  · intro d r' hr'
    have hupd : Function.update n.requestPool (Hashing.getDigest r) (some r) d = some r' := hr'
    rw [Function.update_apply] at hupd
    split at hupd
    · next hd =>
        obtain rfl := Option.some.inj hupd
        exact ⟨hd.symm, hr⟩
    · exact hpool d r' hupd
  · intro hi
    obtain ⟨hall, hreplied, hblocked, hphase⟩ := hleader hi
    refine ⟨?_, hreplied, hblocked, ?_⟩
    · intro r' hr'
      show Function.update n.requestPool _ _ _ = some r'
      rw [Function.update_apply]
      split
      · next hd => rw [Hashing.getDigest_injective hd]
      · exact hall r' hr'
    · intro halive
      cases hphase halive with
      | idle h₁ h₂ h₃ => exact .idle h₁ h₂ h₃
      | outstanding h₁ h₂ h₃ h₄ h₅ h₆ h₇ => exact .outstanding h₁ h₂ h₃ h₄ h₅ h₆ h₇

theorem NodeOk.handlePrePrepare {log : List (ℕ × Request H)} {i : ℕ} {n n' : PbftNode H}
    (hn : NodeOk log i n) {m : PrePrepare H} {msgs : List (ℕ × PbftMsg H)}
    (hm : Known log m.requestMsg) (h : n.handlePrePrepare m = some (n', msgs)) :
    NodeOk log i n' ∧ ∀ p ∈ msgs, Sound log p.1 p.2 := by
  have hput := hn.putRequest hm m.seqID
  rcases PbftNode.handlePrePrepare_cases h with
    ⟨rfl, rfl⟩ | ⟨rfl, rfl⟩ | ⟨-, rfl, rfl⟩ | ⟨hdigest, rfl, rfl⟩
  · exact ⟨hn, by simp⟩
  · exact ⟨hn.congr (.crash n), by simp⟩
  · exact ⟨hput, by simp⟩
  · refine ⟨hput.congr (.of_eq rfl), ?_⟩
    refine sound_toAll ?_ n
    intro _
    exact ⟨m.requestMsg, hm, hdigest⟩

theorem NodeOk.handlePrepare {log : List (ℕ × Request H)} {i : ℕ} {n n' : PbftNode H}
    (hn : NodeOk log i n) {m : Vote H} {msgs : List (ℕ × PbftMsg H)}
    (hm : ∃ r, Known log r ∧ Hashing.getDigest r = m.digest)
    (h : n.handlePrepare m = some (n', msgs)) :
    NodeOk log i n' ∧ ∀ p ∈ msgs, Sound log p.1 p.2 := by
  obtain ⟨-, -, -, rfl, hmsgs⟩ := PbftNode.handlePrepare_cases h
  refine ⟨hn.congr (.of_eq rfl), ?_⟩
  rcases hmsgs with rfl | rfl
  · simp
  · refine sound_toAll ?_ n
    intro _
    exact hm

/-- A commit message of a proposal never makes the leader ask for old requests. -/
theorem NodeOk.follower_of_missing {log : List (ℕ × Request H)} {i : ℕ} {n : PbftNode H}
    (hn : NodeOk log i n) {d : H} (hd : ∃ r, Known log r ∧ Hashing.getDigest r = d)
    (hnone : n.requestPool d = none) : i ≠ 0 := by
  rintro rfl
  obtain ⟨r, hr, rfl⟩ := hd
  rw [(hn.leader rfl).pool r hr] at hnone
  exact absurd hnone (by simp)

theorem NodeOk.askForOld {log : List (ℕ × Request H)} {i : ℕ} {n : PbftNode H}
    (hn : NodeOk log i n) (hi : i ≠ 0) (m : Vote H) :
    NodeOk log i (n.askForOld m).1 ∧ ∀ p ∈ (n.askForOld m).2, Sound log p.1 p.2 := by
  constructor
  · obtain ⟨lock, alive, heq⟩ := PbftNode.endRound_frame { n with askForLock := true }
    rw [PbftNode.askForOld, heq]
    exact hn.congr_follower hi rfl rfl rfl hn.pool rfl rfl
  · intro p hp
    rw [List.mem_singleton.1 hp]
    exact hn.nodeID.trans_ne hi

theorem NodeOk.executeRequest {log : List (ℕ × Request H)} (hs : Stacked log) {i : ℕ}
    {n : PbftNode H} (hn : NodeOk log i n) (halive : n.alive = true) {d : H} {r : Request H}
    (hpool : n.requestPool d = some r) (hopen : n.isReply d = false) :
    NodeOk log i (n.executeRequest d r) := by
  obtain ⟨rfl, hr⟩ := hn.pool d r hpool
  by_cases hi : i = 0
  · obtain ⟨hall, hreplied, hblocked, hphase⟩ := hn.leader hi
    have hphase' := (hphase halive).executeRequest hs (hn.isMain_iff.2 hi) hr hopen
    obtain ⟨bc, replied, seq, stage, lock, alive, heq⟩ :=
      PbftNode.executeRequest_frame n (Hashing.getDigest r) r
    have hreplied' : ∀ d, (n.executeRequest (Hashing.getDigest r) r).isReply d = true →
        n.isReply d = true ∨ d = Hashing.getDigest r := fun _ => PbftNode.isReply_of_executeRequest
    rw [heq] at hphase' hreplied' ⊢
    refine ⟨hn.nodeID, hn.partitions, hn.view, hn.pool, fun _ => ⟨hall, ?_, hblocked, hphase'⟩,
      fun h0 => absurd hi h0⟩
    intro d hd
    rcases hreplied' d hd with hd | rfl
    · exact hreplied d hd
    · exact ⟨r, hr, rfl⟩
  · obtain ⟨bc, replied, seq, stage, lock, alive, heq⟩ :=
      PbftNode.executeRequest_frame n (Hashing.getDigest r) r
    rw [heq]
    exact hn.congr_follower hi rfl rfl rfl hn.pool rfl rfl

theorem NodeOk.handleCommit {log : List (ℕ × Request H)} (hs : Stacked log) {i : ℕ}
    {n n' : PbftNode H} (hn : NodeOk log i n) (halive : n.alive = true) {m : Vote H}
    {msgs : List (ℕ × PbftMsg H)} (hm : ∃ r, Known log r ∧ Hashing.getDigest r = m.digest)
    (h : n.handleCommit m = some (n', msgs)) :
    NodeOk log i n' ∧ ∀ p ∈ msgs, Sound log p.1 p.2 := by
  obtain ⟨c, ⟨rfl, rfl⟩ | ⟨hnone, rfl, rfl⟩ | ⟨hnone, hask⟩ | ⟨r, hr, rfl, rfl⟩⟩ :=
    PbftNode.handleCommit_cases h
  · exact ⟨hn.congr (.of_eq rfl), by simp⟩
  · have hi := hn.follower_of_missing hm hnone
    exact ⟨hn.congr_follower hi rfl rfl rfl hn.pool rfl rfl, by simp⟩
  · -- the leader has every proposal in its pool, so it is a follower that asks
    have hi := hn.follower_of_missing hm hnone
    obtain ⟨rfl, rfl⟩ := Prod.mk.inj hask
    refine NodeOk.askForOld ?_ hi m
    exact hn.congr_follower hi rfl rfl rfl hn.pool rfl rfl
  · obtain ⟨hpool, hopen⟩ := PbftNode.committing_spec hr
    have hcount : NodeOk log i { n with cntCommitConfirm := c } :=
      hn.congr (.of_eq rfl)
    exact ⟨hcount.executeRequest hs halive hpool hopen, by simp⟩

theorem NodeOk.handleRequestOldSeq {log : List (ℕ × Request H)} {i : ℕ} {n : PbftNode H}
    (hn : NodeOk log i n) {m : RequestOldMessage} (hm : m.senderNode ≠ 0) :
    ∀ p ∈ (n.handleRequestOldSeq m).2, Sound log p.1 p.2 := by
  unfold PbftNode.handleRequestOldSeq
  split
  · simp
  · intro p hp
    rw [List.mem_singleton.1 hp]
    refine ⟨hm, ?_⟩
    intro r hr
    obtain ⟨d, hd⟩ := PbftNode.mem_oldRequests hr
    exact (hn.pool d r hd).2

theorem NodeOk.handleSendOldSeq {log : List (ℕ × Request H)} {i : ℕ} {n : PbftNode H}
    (hn : NodeOk log i n) {m : SendOldMessage H} (hi : i ≠ 0)
    (hm : ∀ r ∈ m.oldRequest, Known log r) :
    NodeOk log i (n.handleSendOldSeq m).1 ∧ ∀ p ∈ (n.handleSendOldSeq m).2, Sound log p.1 p.2 := by
  obtain ⟨bc, pool, h2d, replied, seq, ask, alive, heq, hpool, hmsgs⟩ :=
    PbftNode.handleSendOldSeq_frame n m
  have hknown : ∀ d r, pool d = some r → Hashing.getDigest r = d ∧ Known log r := by
    intro d r hr
    rcases hpool d r hr with hold | ⟨hmem, hd⟩
    · exact hn.pool d r hold
    · exact ⟨hd, hm r hmem⟩
  constructor
  · rw [heq]
    exact hn.congr_follower hi rfl rfl rfl hknown rfl rfl
  · rcases hmsgs with hnil | ⟨d, r, hr, seqID, hsend⟩
    · rw [hnil]
      simp
    · rw [hsend]
      intro p hp
      refine sound_toAll ?_ n p (List.mem_filter.1 hp).1
      intro _
      exact ⟨r, (hknown d r hr).2, rfl⟩

/-- **Every delivery keeps the node in order** and makes it send messages about proposals only. -/
theorem NodeOk.handleMessage {log : List (ℕ × Request H)} (hs : Stacked log) {i : ℕ}
    {n n' : PbftNode H} (hn : NodeOk log i n) (halive : n.alive = true) {m : PbftMsg H}
    {msgs : List (ℕ × PbftMsg H)} (hm : Sound log i m) (h : n.handleMessage m = some (n', msgs))
    (hview : n'.view = n.view) : NodeOk log i n' ∧ ∀ p ∈ msgs, Sound log p.1 p.2 := by
  cases m with
  | prePrepare m => exact hn.handlePrePrepare hm h
  | prepare m => exact hn.handlePrepare hm h
  | commit m => exact hn.handleCommit hs halive hm h
  | requestOld m =>
    obtain ⟨rfl, rfl⟩ := Prod.ext_iff.1 (Option.some.inj h)
    rw [PbftNode.handleRequestOldSeq_fst]
    exact ⟨hn, hn.handleRequestOldSeq hm⟩
  | sendOld m =>
    obtain ⟨rfl, rfl⟩ := Prod.ext_iff.1 (Option.some.inj h)
    exact hn.handleSendOldSeq hm.1 hm.2
  | viewChange m =>
    obtain ⟨rfl, rfl⟩ := Prod.ext_iff.1 (Option.some.inj h)
    refine ⟨hn.congr (.of_eq rfl), ?_⟩
    simp only [PbftNode.handleViewChangeMsg]
    split
    · refine sound_toAll ?_ n
      intro _
      trivial
    · simp
  | newView m =>
    obtain ⟨rfl, rfl⟩ := Prod.ext_iff.1 (Option.some.inj h)
    refine ⟨hn.congr ?_, by simp⟩
    -- a quorum of these installs the view, which the hypothesis on the view then makes the old one
    revert hview
    simp only [PbftNode.handleNewViewMsg]
    split
    · exact fun hview => ⟨rfl, rfl, hview, rfl, rfl, rfl, rfl, rfl, fun _ => rfl, rfl, id⟩
    · exact fun _ => (.of_eq rfl)

/-! ## The leader's own steps -/

/-- The lock is taken by the leader, and only when all proposals are executed. -/
theorem NodeOk.lockSequence {log : List (ℕ × Request H)} {i : ℕ} {n : PbftNode H}
    (hn : NodeOk log i n) (hwait : 0 < n.waiting) (hfree : n.sequenceLock = false) :
    NodeOk log i
      { n with waiting := n.waiting - 1, proposing := n.proposing + 1, sequenceLock := true } := by
  have hi : i = 0 := by
    by_contra hi
    have h0 := (hn.follower hi).1
    omega
  obtain ⟨hall, hreplied, hblocked, hphase⟩ := hn.leader hi
  refine ⟨hn.nodeID, hn.partitions, hn.view, hn.pool,
    fun _ => ⟨hall, hreplied, hblocked, fun halive => ?_⟩, fun h0 => absurd hi h0⟩
  cases hphase halive with
  | idle hreply hbelow hlock =>
    rw [hfree] at hlock
    exact .idle hreply hbelow (congrArg (· + 1) hlock)
  | outstanding _ _ _ _ _ hlock _ => exact absurd hlock (by simp [hfree])

/-- Whoever proposes is the leader, and has executed all that was proposed before. -/
theorem NodeOk.idle_of_proposing {log : List (ℕ × Request H)} {i : ℕ} {n : PbftNode H}
    (hn : NodeOk log i n) (halive : n.alive = true) (hprop : 0 < n.proposing) :
    i = 0 ∧ (∀ p ∈ log, n.isReply (Hashing.getDigest p.2) = true) ∧
      (∀ p ∈ log, p.1 ≤ n.curChain.height) ∧ n.sequenceLock = true ∧ n.proposing = 1 := by
  have hi : i = 0 := by
    by_contra hi
    have h0 := (hn.follower hi).2
    omega
  cases (hn.leader hi).phase halive with
  | idle hreply hbelow hlock =>
    split at hlock
    · next hl => exact ⟨hi, hreply, hbelow, hl, hlock⟩
    · omega
  | outstanding _ _ _ _ _ _ h0 => omega

/-- A node without partition requests proposes a block on top of its chain. -/
theorem NodeOk.proposes_block {log : List (ℕ × Request H)} {i : ℕ} {n : PbftNode H}
    (hn : NodeOk log i n) {partition : Option AccountTransferMsg} {now reqTime : ℕ}
    {bc : BlockChain H} {r : Request H}
    (hpart : partition.isSome = true → n.handleType.partitions = true)
    (hreq : n.handleinPropose partition now reqTime = some (bc, r)) :
    ∃ b, r.msg = .block b ∧ n.curChain.Extends b := by
  have hnone : partition = none := by
    cases partition with
    | none => rfl
    | some atm => exact absurd (hpart rfl) (by simp [hn.partitions])
  subst hnone
  obtain ⟨b, hb, hext, -⟩ := PbftNode.handleinPropose_block hreq
  exact ⟨b, hb, hext⟩

theorem NodeOk.generates_block {log : List (ℕ × Request H)} {i : ℕ} {n : PbftNode H}
    (hn : NodeOk log i n) {partition : Option AccountTransferMsg} {now reqTime : ℕ}
    {bc : BlockChain H} {r : Request H}
    (hpart : partition.isSome = true → n.handleType.partitions = true)
    (hreq : n.handleinPropose partition now reqTime = some (bc, r)) :
    ∃ b, r = ⟨.block b, reqTime⟩ ∧ n.curChain.generateBlock n.nodeID now = some (bc, b) := by
  cases partition with
  | some atm => exact absurd (hpart rfl) (by simp [hn.partitions])
  | none =>
    obtain ⟨⟨bc', b⟩, hgen, heq⟩ := Option.map_eq_some_iff.1 hreq
    obtain ⟨rfl, rfl⟩ := Prod.mk.inj heq
    exact ⟨b, rfl, hgen⟩

omit [DecidableEq H] [Hashing H] in
theorem Known.cons {log : List (ℕ × Request H)} {r : Request H} (hr : Known log r)
    (p : ℕ × Request H) : Known (p :: log) r := by
  obtain ⟨h, hmem⟩ := hr
  exact ⟨h, List.mem_cons_of_mem _ hmem⟩

theorem NodeOk.cons_follower {log : List (ℕ × Request H)} {i : ℕ} {n : PbftNode H}
    (hn : NodeOk log i n) (hi : i ≠ 0) (p : ℕ × Request H) : NodeOk (p :: log) i n where
  nodeID := hn.nodeID
  partitions := hn.partitions
  view := hn.view
  pool := fun d r hr => ⟨(hn.pool d r hr).1, (hn.pool d r hr).2.cons p⟩
  leader := fun h0 => absurd h0 hi
  follower := hn.follower

omit [DecidableEq H] in
theorem Sound.cons {log : List (ℕ × Request H)} {dst : ℕ} {m : PbftMsg H} (hm : Sound log dst m)
    (p : ℕ × Request H) : Sound (p :: log) dst m := by
  cases m with
  | prePrepare m => exact Known.cons hm p
  | prepare m =>
    obtain ⟨r, hr, hd⟩ := hm
    exact ⟨r, hr.cons p, hd⟩
  | commit m =>
    obtain ⟨r, hr, hd⟩ := hm
    exact ⟨r, hr.cons p, hd⟩
  | requestOld m => exact hm
  | sendOld m => exact ⟨hm.1, fun r hr => (hm.2 r hr).cons p⟩
  | viewChange m => trivial
  | newView m => trivial

theorem Stacked.cons {log : List (ℕ × Request H)} (hs : Stacked log) {bc : BlockChain H}
    {r : Request H} {b : Block H} (hr : r.msg = .block b) (hext : bc.Extends b)
    (hbelow : ∀ p ∈ log, p.1 ≤ bc.height) : Stacked ((bc.height + 1, r) :: log) where
  block := List.forall_mem_cons.2 ⟨⟨b, hr, hext.1⟩, hs.block⟩
  sorted := List.pairwise_cons.2 ⟨fun p hp => Nat.lt_succ_of_le (hbelow p hp), hs.sorted⟩

/-- The leader after its proposal: the newest one is open, and the lock is held for it. -/
theorem NodeOk.propose {log : List (ℕ × Request H)} (hs : Stacked log) {i : ℕ} {n : PbftNode H}
    (hn : NodeOk log i n) (halive : n.alive = true) (hprop : 0 < n.proposing) {bc : BlockChain H}
    {r : Request H} {b : Block H} (hr : r.msg = .block b) (hext : n.curChain.Extends b)
    (hfiles : BlockChain.SameFiles n.curChain bc) :
    NodeOk ((n.curChain.height + 1, r) :: log) i
      { n.putRequest n.sequenceID r with
        curChain := bc
        proposing := n.proposing - 1
        storing := n.storing + 1 } := by
  obtain ⟨hi, hreply, hbelow, hlock, hone⟩ := hn.idle_of_proposing halive hprop
  obtain ⟨hall, hreplied, hblocked, -⟩ := hn.leader hi
  have hnew : ¬ Known log r := by
    rintro ⟨h, hmem⟩
    obtain ⟨b', hb', hnum⟩ := hs.block _ hmem
    obtain rfl := RequestMsg.block.inj (hr.symm.trans hb')
    have hle := hbelow _ hmem
    have hext1 := hext.1
    omega
  have hopen : n.isReply (Hashing.getDigest r) = false := by
    rw [← Bool.not_eq_true]
    intro htrue
    obtain ⟨r', hr', hd⟩ := hreplied _ htrue
    exact hnew (Hashing.getDigest_injective hd ▸ hr')
  have hpool : ∀ d, Function.update n.requestPool (Hashing.getDigest r) (some r) d =
      if d = Hashing.getDigest r then some r else n.requestPool d :=
    fun d => Function.update_apply ..
  refine ⟨hn.nodeID, hn.partitions, hn.view, fun d r' hr' => ?_,
    fun _ => ⟨fun r' hr' => ?_, fun d hd => ?_, hblocked, fun _ => ?_⟩, fun h0 => absurd hi h0⟩
  · rw [show (n.putRequest n.sequenceID r).requestPool d = _ from hpool d] at hr'
    split at hr'
    · next hd =>
        obtain rfl := Option.some.inj hr'
        exact ⟨hd.symm, _, List.mem_cons_self⟩
    · obtain ⟨hd, hk⟩ := hn.pool d r' hr'
      exact ⟨hd, hk.cons _⟩
  · refine (hpool _).trans ?_
    obtain ⟨h, hmem⟩ := hr'
    split
    · next hd => rw [Hashing.getDigest_injective hd]
    · next hne =>
        rcases List.mem_cons.1 hmem with heq | hmem
        · exact absurd (congrArg Hashing.getDigest (Prod.mk.inj heq).2) hne
        · exact hall r' ⟨h, hmem⟩
  · obtain ⟨r', hr', rfl⟩ := hreplied d hd
    exact ⟨r', hr'.cons _, rfl⟩
  · refine .outstanding (by rw [hfiles.height]) hreply hopen hr ?_ hlock ?_
    · rw [BlockChain.Extends, hfiles.height, hfiles.block]
      exact hext
    · show n.proposing - 1 = 0
      omega

/-! ## Runs within one view -/

namespace PbftWorld

/-- The step changes no node's view. -/
def KeepsViews (w : PbftWorld H N) (a : PbftAct N) : Prop :=
  ∀ w' ∈ w.step a, ∀ i, (w'.nodes i).view = (w.nodes i).view

instance (w : PbftWorld H N) (a : PbftAct N) : Decidable (w.KeepsViews a) :=
  inferInstanceAs (Decidable (∀ w' ∈ w.step a, ∀ i, (w'.nodes i).view = (w.nodes i).view))

structure SingleView (w : PbftWorld H N) : Prop where
  stacked : Stacked w.proposed
  nodes : ∀ i : Fin N, NodeOk w.proposed i (w.nodes i)
  net : ∀ p ∈ w.net, Sound w.proposed p.1 p.2

theorem singleView_init {ht : HandleType} (hht : ht.partitions = false) (bc : BlockChain H) :
    SingleView (init N ht bc) where
  stacked := ⟨by simp [init], by simp [init]⟩
  nodes := fun i => by
    refine ⟨rfl, hht, rfl, by simp [init, PbftNode.newPbftNode], ?_, fun _ => ⟨rfl, rfl⟩⟩
    intro _
    refine ⟨?_, by simp [init, PbftNode.newPbftNode], rfl, ?_⟩
    · intro r hr
      obtain ⟨h, hmem⟩ := hr
      exact absurd hmem (by simp [init])
    · intro _
      exact .idle (by simp [init]) (by simp [init]) rfl
  net := by simp [init]

/-- The leader proposes when its chain has reached every proposal, so no node is ahead of it. -/
theorem Agreeing.le_of_idle {cc : ChainConfig} {w : PbftWorld H N} {C : ℕ → Tip H} {top : ℕ}
    (hw : Agreeing cc w C top) {i : Fin N} (hbelow : ∀ p ∈ w.proposed, p.1 ≤ w.height i)
    (j : Fin N) : w.height j ≤ w.height i := by
  refine (hw.onHistory j).below.trans (Nat.le_of_not_lt ?_)
  intro hlt
  obtain ⟨r, hr, -⟩ := hw.canonical.executed _ hlt
  obtain ⟨p, hp, -⟩ := Option.map_eq_some_iff.1 hr
  have hle := hbelow p (List.mem_of_find?_eq_some hp)
  have hp1 : p.1 = w.height i + 1 := by simpa using List.find?_some hp
  omega

/-- **Steps within one view are orderly.** -/
theorem SingleView.orderly {cc : ChainConfig} {w w' : PbftWorld H N} {C : ℕ → Tip H} {top : ℕ}
    (hsv : SingleView w) (hw : Agreeing cc w C top) {a : PbftAct N} (h : w.step a = some w') :
    w.Orderly a := by
  obtain ⟨i, n, r, msgs, hact, halive, -⟩ := step_cases h
  cases hact with
  | proposePanics hprop =>
    obtain ⟨-, -, hbelow, -⟩ := (hsv.nodes i).idle_of_proposing halive hprop
    exact hw.le_of_idle hbelow
  | propose hprop _ _ =>
    obtain ⟨-, -, hbelow, -⟩ := (hsv.nodes i).idle_of_proposing halive hprop
    exact hw.le_of_idle hbelow
  | deliver hk _ =>
    intro p hp hd
    have hsound := hsv.net p (List.mem_of_getElem? hp)
    obtain ⟨d, m⟩ := p
    cases m with
    | commit m =>
      intro r hr
      obtain ⟨hpool, -⟩ := PbftNode.committing_spec hr
      exact hsv.stacked.isLatest ((hsv.nodes ⟨d, hd⟩).pool _ _ hpool).2 _ _
    | sendOld m =>
      exact fun _ => hsv.stacked.allLatest _ (fun r hr => hsound.2 r (List.mem_of_mem_take hr)) _
    | _ => trivial
  | _ => trivial

/-- The modules without partition requests propose blocks. -/
theorem SingleView.proposesBlock {w w' : PbftWorld H N} (hsv : SingleView w) {a : PbftAct N}
    (h : w.step a = some w') : ProposesBlock a := by
  have hnone : ∀ {i : Fin N} {partition : Option AccountTransferMsg},
      (partition.isSome = true → (w.nodes i).handleType.partitions = true) → partition = none := by
    intro i partition hpart
    cases partition with
    | none => rfl
    | some atm => exact absurd (hpart rfl) (by simp [(hsv.nodes i).partitions])
  obtain ⟨i, n, r, msgs, hact, -, -⟩ := step_cases h
  cases hact with
  | proposePanics _ hpart => exact hnone hpart
  | propose _ hpart _ => exact hnone hpart
  | _ => trivial

/-- What an acting node that proposes nothing leaves in order. -/
theorem SingleView.after_none {w : PbftWorld H N} (hsv : SingleView w) {i : Fin N} {n : PbftNode H}
    {msgs : List (ℕ × PbftMsg H)} (hn : NodeOk w.proposed i n)
    (hmsgs : ∀ p ∈ msgs, Sound w.proposed p.1 p.2) : SingleView (w.after i n none msgs) where
  stacked := hsv.stacked
  nodes := (forall_nodes_after (p := fun j m => NodeOk w.proposed j m)).2
    ⟨hn, fun j _ => hsv.nodes j⟩
  net := fun p hp => (List.mem_append.1 hp).elim (hsv.net p) (hmsgs p)

/-- A step that keeps the views keeps the shard in order. -/
theorem SingleView.step {w w' : PbftWorld H N} (hsv : SingleView w) {a : PbftAct N}
    (hkeep : w.KeepsViews a) (h : w.step a = some w') : SingleView w' := by
  have hview := hkeep w' h
  obtain ⟨i, n, r, msgs, hact, halive, rfl⟩ := step_cases h
  have hn := hsv.nodes i
  -- a node that stays in its role and is silent
  have hquiet : ∀ {n'}, SameRole (w.nodes i) n' → SingleView (w.after i n' none []) :=
    fun hrole => hsv.after_none (hn.congr hrole) (by simp)
  cases hact with
  | outside => exact hquiet (.of_eq rfl)
  | roundSignal => exact hquiet (.of_eq rfl)
  | takeSignal =>
    exact hquiet ⟨rfl, rfl, rfl, rfl, rfl, rfl, rfl, rfl, fun hmain => by simp [hmain], rfl, id⟩
  | lockSequence hwait hfree => exact hsv.after_none (hn.lockSequence hwait hfree) (by simp)
  | proposePanics =>
    exact hquiet ⟨rfl, rfl, rfl, rfl, rfl, rfl, rfl, rfl, fun _ => rfl, rfl, fun _ => halive⟩
  | propose hprop hpart hreq =>
    next partition now reqTime bc r =>
    obtain ⟨b, hb, hext⟩ := hn.proposes_block hpart hreq
    obtain ⟨hi, -, hbelow, -⟩ := hn.idle_of_proposing halive hprop
    have hfiles := (PbftNode.handleinPropose_spec hreq).1
    refine ⟨hsv.stacked.cons hb hext hbelow, ?_, ?_⟩
    · refine (forall_nodes_after (p := fun j m => NodeOk (_ :: w.proposed) j m)).2
        ⟨hn.propose hsv.stacked halive hprop hb hext hfiles, fun j hj => ?_⟩
      -- the others are not the leader
      have hj0 : j.val ≠ 0 := fun h0 => hj (Fin.ext (h0.trans hi.symm))
      refine (hsv.nodes j).cons_follower hj0 _
    · intro p hp
      rcases List.mem_append.1 hp with hp | hp
      · exact (hsv.net p hp).cons _
      · refine sound_toAll ?_ (w.nodes i) p hp
        intro _
        exact ⟨_, List.mem_cons_self⟩
  | storeStage => exact hquiet (.of_eq rfl)
  | resume hblocked =>
    have hi : i.val ≠ 0 := fun hi => by
      rw [(hn.leader hi).unblocked] at hblocked
      exact absurd hblocked (by simp)
    have hfree : NodeOk w.proposed i { w.nodes i with blocked := none } :=
      hn.congr_follower hi rfl rfl rfl hn.pool rfl rfl
    obtain ⟨hn', hmsgs⟩ := hfree.askForOld hi _
    exact hsv.after_none hn' hmsgs
  | timeout =>
    refine hsv.after_none
      (hn.congr (.of_eq rfl)) ?_
    refine sound_toAll ?_ (w.nodes i)
    intro _
    trivial
  | deliver hk hm =>
    have hsound := hsv.net _ (List.mem_of_getElem? hk)
    have hview' := (forall_nodes_after (p := fun j m => m.view = (w.nodes j).view)).1 hview
    obtain ⟨hn', hmsgs⟩ := hn.handleMessage hsv.stacked halive hsound hm hview'.1
    exact hsv.after_none hn' hmsgs

/-- **Agreement within a view.** With the raw relay or raw broker module, in every run in which no
    node changes its view two nodes hold the same block at every height both have reached. -/
theorem same_block_within_view {cc : ChainConfig} {db : TrieDB H} {bc : BlockChain H}
    (hnew : BlockChain.newBlockChain cc Storage.empty db = some bc) {ht : HandleType}
    (hht : ht = .relay ∨ ht = .broker) {w : PbftWorld H N}
    (hrun : ReachesUnder step KeepsViews (init N ht bc) w) (i j : Fin N) {h : ℕ}
    (hi : h ≤ w.height i) (hj : h ≤ w.height j) :
    ∃ b, (w.nodes i).curChain.blockAt h = some b ∧ (w.nodes j).curChain.blockAt h = some b ∧
      b.header.number = h := by
  have hpart : ht.partitions = false := by rcases hht with rfl | rfl <;> rfl
  have hinv : SingleView w ∧ ∃ C top, Agreeing cc w C top := by
    refine hrun.invariant (I := fun w => SingleView w ∧ ∃ C top, Agreeing cc w C top)
      ⟨singleView_init hpart bc, _, _, agreeing_init hnew ht i⟩ ?_
    rintro w a w' ⟨hsv, C, top, hw⟩ hkeep hstep
    exact ⟨hsv.step hkeep hstep, hw.step (hsv.orderly hw hstep) (hsv.proposesBlock hstep) hstep⟩
  obtain ⟨-, C, top, hw⟩ := hinv
  exact hw.same_block hi hj

section Sample

open BlockChain

set_option maxRecDepth 100000

/-- The first round, executed by nodes 0 and 1, leaves all nodes in view 0. -/
theorem first_round_within_view :
    ∃ w, ReachesUnder step KeepsViews (init 4 .relay sampleGenesis) w ∧
      w.height 0 = 1 ∧ w.height 1 = 1 ∧ ∃ b, (w.nodes 0).curChain.blockAt 1 = some b ∧
        (w.nodes 1).curChain.blockAt 1 = some b ∧ b.header.number = 1 := by
  have hrun : ∃ w ∈ runChecked step (fun w a => decide (w.KeepsViews a))
      (init 4 .relay sampleGenesis) (firstRound ++ [20, 24, 28, 21, 25, 29].map .deliver),
      w.height 0 = 1 ∧ w.height 1 = 1 := by decide +kernel
  obtain ⟨w, hw, h0, h1⟩ := hrun
  have hreach := reachesUnder_of_runDecided hw
  exact ⟨w, hreach, h0, h1, same_block_within_view newBlockChain_sample (Or.inl rfl) hreach 0 1
    h0.ge h1.ge⟩

end Sample

end PbftWorld

end BlockEmulator
