import BlockEmulator.Pbft.Lockstep
import BlockEmulator.Pbft.SingleView
import BlockEmulator.Shard.Ledger

set_option autoImplicit false

/-! # Shards of PBFT nodes

Elsewhere a shard is seen through its leader, and consensus is one step: a request is proposed and
later committed. Here each of the `S` shards is a PBFT world of `N` nodes. The supervisor and the
other shards write to node 0 of a shard, and a main node that executes a block sends its relay
messages.

While no view is installed, the coarse world is right about the fine one. Node 0 of a shard goes
through the phases of the coarse leader: the proposal it holds the sequence lock for is the block the
leader waits for, and the commit message that completes a quorum at node 0 is the leader's commit. All
other steps inside a shard, at node 0 or elsewhere, are invisible. So what holds in every run of the
coarse world holds of node 0 in every such run of the fine one. -/

namespace BlockEmulator

variable {H : Type} [DecidableEq H] [Hashing H] {S N : ℕ}

/-! ## The effect of an action on the node that acts -/

namespace PbftNode

theorem committing_of_old {n : PbftNode H} {m : Vote H} (h : m.seqID < n.sequenceID) :
    n.committing m = none := by
  simp [committing, h]

theorem committing_of_missing {n : PbftNode H} {m : Vote H} (h : n.requestPool m.digest = none) :
    n.committing m = none := by
  refine Option.eq_none_iff_forall_ne_some.2 fun r hr => ?_
  exact absurd ((committing_spec hr).1.symm.trans h) (by simp)

/-- The two nodes have the same module, view, chain and sequence number. -/
structure SameStage (n n' : PbftNode H) : Prop where
  handleType : n'.handleType = n.handleType
  view : n'.view = n.view
  curChain : n'.curChain = n.curChain
  sequenceID : n'.sequenceID = n.sequenceID

/-- What a message can do to module, view, chain and sequence number: nothing, unless it makes the
    node execute requests. -/
inductive Receives (n : PbftNode H) : PbftMsg H → PbftNode H → Prop
  | quiet {m : PbftMsg H} {n' : PbftNode H} : SameStage n n' →
      (∀ v, m = .commit v → n.committing v = none) → Receives n m n'
  | execute {v : Vote H} {r : Request H} : n.committing v = some r →
      Receives n (.commit v) ((n.countCommit v).executeRequest v.digest r)
  | replay (m : SendOldMessage H) : Receives n (.sendOld m) (n.handleSendOldSeq m).1

theorem receives_of_handleMessage {n n' : PbftNode H} {m : PbftMsg H} {msgs : List (ℕ × PbftMsg H)}
    (hview : n.installsView m = false) (h : n.handleMessage m = some (n', msgs)) :
    n.Receives m n' := by
  cases m with
  | prePrepare m =>
    rcases handlePrePrepare_cases h with ⟨rfl, -⟩ | ⟨rfl, -⟩ | ⟨-, rfl, -⟩ | ⟨-, rfl, -⟩ <;>
      exact .quiet ⟨rfl, rfl, rfl, rfl⟩ (by simp)
  | prepare m =>
    obtain ⟨-, -, -, rfl, -⟩ := handlePrepare_cases h
    exact .quiet ⟨rfl, rfl, rfl, rfl⟩ (by simp)
  | commit m =>
    have hnone : n.committing m = none → ∀ v, PbftMsg.commit m = .commit v → n.committing v = none :=
      fun hnone v hv => PbftMsg.commit.inj hv ▸ hnone
    cases handlesCommit_of_handleCommit h with
    | drop hold => exact .quiet ⟨rfl, rfl, rfl, rfl⟩ (hnone (committing_of_old hold))
    | count _ _ hcount =>
      exact .quiet ⟨rfl, rfl, rfl, rfl⟩ (hnone (n.committing_of_not_completes hcount))
    | wait _ _ _ hmissing =>
      exact .quiet ⟨rfl, rfl, rfl, rfl⟩ (hnone (committing_of_missing hmissing))
    | ask _ _ _ hmissing =>
      refine .quiet ?_ (hnone (committing_of_missing hmissing))
      rw [askForOld]
      obtain ⟨lock, alive, heq⟩ := endRound_frame (H := H) _
      rw [heq]
      exact ⟨rfl, rfl, rfl, rfl⟩
    | execute _ _ _ hr => exact .execute hr
  | requestOld m =>
    obtain rfl : (n.handleRequestOldSeq m).1 = n' := congrArg Prod.fst (Option.some.inj h)
    rw [handleRequestOldSeq_fst]
    exact .quiet ⟨rfl, rfl, rfl, rfl⟩ (by simp)
  | sendOld m =>
    obtain rfl : (n.handleSendOldSeq m).1 = n' := congrArg Prod.fst (Option.some.inj h)
    exact .replay m
  | viewChange m =>
    obtain rfl : (n.handleViewChangeMsg m).1 = n' := congrArg Prod.fst (Option.some.inj h)
    exact .quiet ⟨rfl, rfl, rfl, rfl⟩ (by simp)
  | newView m =>
    obtain rfl : n.handleNewViewMsg m = n' := congrArg Prod.fst (Option.some.inj h)
    rw [handleNewViewMsg, if_neg (by simpa [installsView] using hview)]
    exact .quiet ⟨rfl, rfl, rfl, rfl⟩ (by simp)

theorem Receives.view {n n' : PbftNode H} {m : PbftMsg H} (h : n.Receives m n') :
    n'.view = n.view := by
  cases h with
  | quiet hsame _ => exact hsame.view
  | execute _ =>
    obtain ⟨bc, replied, seq, stage, lock, alive, heq⟩ := executeRequest_frame (H := H) _ _ _
    rw [heq]
    rfl
  | replay m =>
    obtain ⟨bc, pool, h2d, replied, seq, ask, alive, heq, -⟩ := n.handleSendOldSeq_frame m
    rw [heq]

end PbftNode

namespace PbftWorld

/-- What an action can do to the node that acts, and what it adds to the proposals. -/
inductive Effect (w : PbftWorld H N) (i : Fin N) :
    PbftAct N → PbftNode H → Option (Request H) → Prop
  | outside (pool : TxPool) :
      Effect w i (.outside i pool)
        { w.nodes i with curChain := { (w.nodes i).curChain with txpool := pool } } none
  | quiet {a : PbftAct N} {n : PbftNode H} : (w.nodes i).SameStage n →
      (∀ k m, a = .deliver k → w.net[k]? = some (i.val, .commit m) →
        (w.nodes i).committing m = none) → Effect w i a n none
  | propose {partition : Option AccountTransferMsg} {now reqTime : ℕ} {n : PbftNode H}
      {bc : BlockChain H} {r : Request H} : 0 < (w.nodes i).proposing →
      (partition.isSome = true → (w.nodes i).handleType.partitions = true) →
      (w.nodes i).handleinPropose partition now reqTime = some (bc, r) →
      PbftNode.SameStage { w.nodes i with curChain := bc } n →
      Effect w i (.propose i partition now reqTime) n (some r)
  | execute {k : ℕ} {m : Vote H} {r : Request H} : w.net[k]? = some (i.val, .commit m) →
      (w.nodes i).committing m = some r →
      Effect w i (.deliver k) (((w.nodes i).countCommit m).executeRequest m.digest r) none
  | replay {k : ℕ} {m : SendOldMessage H} : w.net[k]? = some (i.val, .sendOld m) →
      Effect w i (.deliver k) ((w.nodes i).handleSendOldSeq m).1 none

theorem Acts.effect {w : PbftWorld H N} {a : PbftAct N} {i : Fin N} {n : PbftNode H}
    {r : Option (Request H)} {msgs : List (ℕ × PbftMsg H)} (h : w.Acts i a n r msgs)
    (hview : w.StaysInView a) : w.Effect i a n r := by
  have hquiet : ∀ {a n}, (w.nodes i).SameStage n → (∀ k, a ≠ .deliver k) → w.Effect i a n none :=
    fun hsame ha => .quiet hsame fun k _ hk _ => absurd hk (ha k)
  cases h with
  | outside pool => exact .outside pool
  | roundSignal => exact hquiet ⟨rfl, rfl, rfl, rfl⟩ (by simp)
  | takeSignal => exact hquiet ⟨rfl, rfl, rfl, rfl⟩ (by simp)
  | lockSequence => exact hquiet ⟨rfl, rfl, rfl, rfl⟩ (by simp)
  | proposePanics => exact hquiet ⟨rfl, rfl, rfl, rfl⟩ (by simp)
  | propose hprop hpart hreq => exact .propose hprop hpart hreq ⟨rfl, rfl, rfl, rfl⟩
  | storeStage => exact hquiet ⟨rfl, rfl, rfl, rfl⟩ (by simp)
  | resume =>
    refine hquiet ?_ (by simp)
    rw [PbftNode.askForOld]
    obtain ⟨lock, alive, heq⟩ := PbftNode.endRound_frame (H := H) _
    rw [heq]
    exact ⟨rfl, rfl, rfl, rfl⟩
  | timeout => exact hquiet ⟨rfl, rfl, rfl, rfl⟩ (by simp)
  | deliver hk hn =>
    next k m msgs =>
    cases PbftNode.receives_of_handleMessage (hview _ hk i.isLt) hn with
    | quiet hsame hnone =>
      refine .quiet hsame fun k' v hk' hv => hnone v ?_
      obtain rfl := PbftAct.deliver.inj hk'
      exact (Prod.mk.inj (Option.some.inj (hk.symm.trans hv))).2
    | execute hr => exact .execute hk hr
    | replay m => exact .replay hk

/-- A step that installs no view changes none. -/
theorem StaysInView.keepsViews {w : PbftWorld H N} {a : PbftAct N} (hview : w.StaysInView a) :
    w.KeepsViews a := by
  intro w' h
  obtain ⟨i, n, r, msgs, hact, -, rfl⟩ := step_cases h
  refine (forall_nodes_after (p := fun j m => m.view = (w.nodes j).view)).2 ⟨?_, fun _ _ => rfl⟩
  cases hact.effect hview with
  | outside => rfl
  | quiet hsame _ => exact hsame.view
  | propose _ _ _ hsame => exact hsame.view
  | execute _ hr => exact (PbftNode.Receives.execute hr).view
  | replay _ => exact (PbftNode.Receives.replay _).view

theorem after_nodes_self (w : PbftWorld H N) (i : Fin N) (n : PbftNode H) (r : Option (Request H))
    (msgs : List (ℕ × PbftMsg H)) : (w.after i n r msgs).nodes i = n := by
  show Function.update w.nodes i n i = n
  rw [Function.update_self]

theorem after_nodes_of_ne {w : PbftWorld H N} {i j : Fin N} (hj : j ≠ i) {n : PbftNode H}
    {r : Option (Request H)} {msgs : List (ℕ × PbftMsg H)} :
    (w.after i n r msgs).nodes j = w.nodes j := by
  show Function.update w.nodes i n j = w.nodes j
  rw [Function.update_of_ne hj]

/-- The main node that executes a block in this action, and the block. -/
def mainCommit (w : PbftWorld H N) : PbftAct N → Option (PbftNode H × Block H)
  | .deliver k =>
    match w.net[k]? with
    | some (d, .commit m) =>
      if hd : d < N then
        match (w.nodes ⟨d, hd⟩).committing m with
        | some ⟨.block b, _⟩ =>
          if (w.nodes ⟨d, hd⟩).isMain then some (w.nodes ⟨d, hd⟩, b) else none
        | _ => none
      else none
    | _ => none
  | _ => none

theorem mainCommit_eq_some {w : PbftWorld H N} {a : PbftAct N} {n : PbftNode H} {b : Block H}
    (h : w.mainCommit a = some (n, b)) :
    ∃ k i m reqTime, a = .deliver k ∧ w.net[k]? = some (Fin.val i, .commit m) ∧ n = w.nodes i ∧
      n.isMain = true ∧ n.committing m = some ⟨.block b, reqTime⟩ := by
  unfold mainCommit at h
  split at h
  · next k =>
      split at h
      · next d m hk =>
          split at h
          · next hd =>
              split at h
              · next b' reqTime hr =>
                  obtain ⟨hmain, heq⟩ := Option.ite_none_right_eq_some.1 h
                  obtain ⟨rfl, rfl⟩ := Prod.mk.inj (Option.some.inj heq)
                  exact ⟨k, ⟨d, hd⟩, m, reqTime, rfl, hk, rfl, hmain, hr⟩
              · exact absurd h (by simp)
          · exact absurd h (by simp)
      · exact absurd h (by simp)
  · exact absurd h (by simp)

theorem mainCommit_of_committing {w : PbftWorld H N} {k reqTime : ℕ} {i : Fin N} {m : Vote H}
    {b : Block H} (hk : w.net[k]? = some (i.val, .commit m))
    (hr : (w.nodes i).committing m = some ⟨.block b, reqTime⟩)
    (hmain : (w.nodes i).isMain = true) : w.mainCommit (.deliver k) = some (w.nodes i, b) := by
  simp only [mainCommit, hk, dif_pos i.isLt, Fin.eta, hr, if_pos hmain]

end PbftWorld

/-! ## The cluster -/

/-- What the modules see of a node. -/
def PbftNode.toLeader (n : PbftNode H) : Leader H where
  curChain := n.curChain
  sequenceID := n.sequenceID
  alive := n.alive

/-- `S` shards of `N` nodes in relay mode, the messages between them, and the supervisor. The log is
    what the main nodes' commits have done. -/
structure Cluster (H : Type) [DecidableEq H] [Hashing H] (S N : ℕ) where
  shards : Fin S → PbftWorld H N
  net : List (ℕ × ShardMsg)
  remaining : List Transaction
  log : Fin S → ShardLog

inductive ClusterAct (S N : ℕ) where
  | txSending (count : ℕ)
  | deliver (k : ℕ)
  | inside (i : Fin S) (a : PbftAct N)

namespace Cluster

/-- New nodes over the given chains, one chain for each shard. -/
def init (N : ℕ) (bc : Fin S → BlockChain H) (dataset : List Transaction) : Cluster H S N where
  shards := fun i => .init N .relay (bc i)
  net := []
  remaining := dataset
  log := fun _ => {}

/-- One batch of `txSending`. -/
def txSending (c : Cluster H S N) (count : ℕ) : Cluster H S N :=
  { c with
    net := c.net ++ (List.range S).map fun sid =>
      (sid, .injectTxs ((c.remaining.take count).filter fun tx => addr2Shard S tx.sender = sid))
    remaining := c.remaining.drop count }

variable [NeZero N]

/-- The node that the supervisor and the other shards write to. -/
def node0 (c : Cluster H S N) (i : Fin S) : PbftNode H := (c.shards i).nodes 0

/-- Message `k` reaches node 0 of shard `i`, which changes its pool. -/
def receive (c : Cluster H S N) (k : ℕ) (i : Fin S) (m : ShardMsg) : Option (Cluster H S N) :=
  let n := (c.node0 i).toLeader.handleMessageOutsidePBFT .relay m
  ((c.shards i).step (.outside 0 n.curChain.txpool)).map fun p =>
    { c with shards := Function.update c.shards i p, net := c.net.eraseIdx k }

/-- A node of shard `i` acts; a main node that executes a block relays transactions. -/
def inside (c : Cluster H S N) (i : Fin S) (a : PbftAct N) : Option (Cluster H S N) :=
  ((c.shards i).step a).map fun p =>
    match (c.shards i).mainCommit a with
    | none => { c with shards := Function.update c.shards i p }
    | some (n, b) =>
      let r := n.toLeader.commitBlock b
      { c with
        shards := Function.update c.shards i p
        net := c.net ++ r.2
        log := Function.update c.log i
          (if n.curChain.addBlock b = none then c.log i else (c.log i).add n.curChain b r.1.alive) }

/-- One step. A pool changes only by a message that is delivered. -/
def step (c : Cluster H S N) : ClusterAct S N → Option (Cluster H S N)
  | .txSending count => some (c.txSending count)
  | .deliver k =>
    match c.net[k]? with
    | none => none
    | some (d, m) => if hd : d < S then c.receive k ⟨d, hd⟩ m else none
  | .inside _ (.outside _ _) => none
  | .inside i a => c.inside i a

/-- The step installs no view in any shard. -/
def StaysInView (c : Cluster H S N) : ClusterAct S N → Prop
  | .inside i a => (c.shards i).StaysInView a
  | _ => True

instance (c : Cluster H S N) : (a : ClusterAct S N) → Decidable (c.StaysInView a)
  | .inside i a => inferInstanceAs (Decidable ((c.shards i).StaysInView a))
  | .txSending _ | .deliver _ => .isTrue trivial

end Cluster

/-! ## Node 0 and the coarse leader -/

/-- The leader is what the coarse world shows of node 0. Of a node that has ended it shows the chain
    only. -/
structure Leads (n : PbftNode H) (log : List (ℕ × Request H)) (l : Leader H) : Prop where
  handleType : n.handleType = .relay
  curChain : l.curChain = n.curChain
  partitionOn : l.cdm.partitionOn = false
  alive : n.alive = true → l.alive = true
  sequenceID : n.alive = true → l.sequenceID = n.sequenceID
  phase : n.alive = true →
    (l.phase = .idle ∧ ∀ p ∈ log, p.1 ≤ n.curChain.height) ∨
      ∃ r b, (n.curChain.height + 1, r) ∈ log ∧ r.msg = .block b ∧ l.phase = .proposed (.block b)

namespace Leader

theorem commitBlock_cdm (n : Leader H) (b : Block H) : (n.commitBlock b).1.cdm = n.cdm := by
  unfold commitBlock
  split
  · rfl
  · split <;> rfl

/-- A leader that survives the commit of a block is in its next round. -/
theorem nextRound_of_commitBlock {n : Leader H} {b : Block H}
    (h : (n.commitBlock b).1.alive = true) :
    (n.commitBlock b).1.sequenceID = n.sequenceID + 1 ∧ (n.commitBlock b).1.phase = .idle := by
  unfold commitBlock at h ⊢
  split at h
  · exact absurd h (by simp [crash])
  · split at h
    · exact absurd h (by simp [crash])
    · exact ⟨rfl, rfl⟩

/-- What a commit sends, and whether the leader survives it, depends on the chain and the sequence
    number alone. -/
theorem commitBlock_congr {l n : Leader H} (hchain : l.curChain = n.curChain)
    (hseq : l.sequenceID = n.sequenceID) (halive : l.alive = n.alive) (b : Block H) :
    (l.commitBlock b).2 = (n.commitBlock b).2 ∧
      (l.commitBlock b).1.alive = (n.commitBlock b).1.alive := by
  have hmsgs : ∀ pool, l.relayMsgSend pool = n.relayMsgSend pool := fun pool => by
    unfold relayMsgSend toOtherShards shardNums shardID
    rw [hchain, hseq]
  unfold commitBlock
  rw [hchain]
  split
  · exact ⟨rfl, rfl⟩
  · split
    · exact ⟨rfl, rfl⟩
    · exact ⟨hmsgs _, halive⟩

end Leader

namespace Leads

variable {n n' : PbftNode H} {log : List (ℕ × Request H)} {l : Leader H}

/-- Steps that leave chain and sequence number alone are invisible. -/
theorem congr (h : Leads n log l) (hn : n.alive = true) (hsame : n.SameStage n') :
    Leads n' log l where
  handleType := hsame.handleType.trans h.handleType
  curChain := h.curChain.trans hsame.curChain.symm
  partitionOn := h.partitionOn
  alive := fun _ => h.alive hn
  sequenceID := fun _ => (h.sequenceID hn).trans hsame.sequenceID.symm
  phase := fun _ => by
    rw [hsame.curChain]
    exact h.phase hn

/-- A message from outside changes the pool on both sides. -/
theorem receive (h : Leads n log l) (m : ShardMsg) :
    Leads { n with curChain := { n.curChain with
        txpool := (n.toLeader.handleMessageOutsidePBFT .relay m).curChain.txpool } } log
      (l.handleMessageOutsidePBFT .relay m) := by
  obtain ⟨hht, hchain, hpart, halive, hseq, hphase⟩ := h
  have hpool : ∀ txs, (l.addTxs2Pool txs).curChain = (n.toLeader.addTxs2Pool txs).curChain := by
    intro txs
    rw [Leader.addTxs2Pool, hchain]
    rfl
  cases m with
  | injectTxs txs => exact ⟨hht, hpool txs, hpart, halive, hseq, hphase⟩
  | relay txs sid seq => exact ⟨hht, hpool txs, hpart, halive, hseq, hphase⟩
  | _ => exact ⟨hht, hchain, hpart, halive, hseq, hphase⟩

/-- The leader and node 0 propose the same block. -/
theorem propose (h : Leads n log l) (hn : n.alive = true) (hid : n.nodeID = 0)
    (hidle : ∀ p ∈ log, p.1 ≤ n.curChain.height) {now : ℕ} {bc : BlockChain H} {r : Request H}
    {b : Block H} (hgen : n.curChain.generateBlock n.nodeID now = some (bc, b))
    (hr : r.msg = .block b) (hsame : PbftNode.SameStage { n with curChain := bc } n') :
    l.phase = .idle ∧ Leads n' ((n.curChain.height + 1, r) :: log) (l.proposeBlock now) := by
  have hphase : l.phase = .idle := by
    rcases h.phase hn with ⟨hphase, -⟩ | ⟨r', b', hmem, -, -⟩
    · exact hphase
    · exact absurd (hidle _ hmem) (by simp)
  have hheight : bc.height = n.curChain.height := by
    obtain ⟨rt, hexec, -⟩ := BlockChain.generateBlockOf_cases hgen
    exact (BlockChain.sameFiles_getUpdateStatusTrie hexec).height
  rw [hid, ← h.curChain] at hgen
  rw [Leader.proposeBlock, show l.curChain.generateBlock 0 now = _ from hgen]
  refine ⟨hphase, ?_⟩
  exact
    { handleType := hsame.handleType.trans h.handleType
      curChain := hsame.curChain.symm
      partitionOn := h.partitionOn
      alive := fun _ => h.alive hn
      sequenceID := fun _ => (h.sequenceID hn).trans hsame.sequenceID.symm
      phase := fun _ => by
        rw [hsame.curChain, hheight]
        exact Or.inr ⟨r, b, List.mem_cons_self, hr, rfl⟩ }

/-- Both append the block, or end at it. -/
theorem executed (h : Leads n log l) (hn : n.alive = true) (hmain : n.isMain = true)
    (hlock : n.sequenceLock = true) {b : Block H} (hext : n.curChain.Extends b)
    (hlog : ∀ p ∈ log, p.1 ≤ n.curChain.height + 1) {m : Vote H} {reqTime : ℕ} :
    Leads ((n.countCommit m).executeRequest m.digest ⟨.block b, reqTime⟩) log (l.commitBlock b).1 := by
  have hrelay : HandleType.relay = .relay ∨ HandleType.relay = .clpa := Or.inl rfl
  have hboth := Leader.commitBlock_curChain hrelay l b reqTime
  rw [h.curChain, h.alive hn, Bool.true_and] at hboth
  have hpart : (l.commitBlock b).1.cdm.partitionOn = false := by
    rw [Leader.commitBlock_cdm, h.partitionOn]
  cases hcommit : HandleType.relay.handleinCommit true n.curChain ⟨.block b, reqTime⟩ with
  | mk bc survives =>
    have hown : (n.countCommit m).handleType.handleinCommit (n.countCommit m).isMain
        (n.countCommit m).curChain ⟨.block b, reqTime⟩ = (bc, survives) := by
      show n.handleType.handleinCommit n.isMain n.curChain _ = _
      rw [h.handleType, hmain, hcommit]
    rw [hcommit] at hboth
    obtain ⟨hchain, halive⟩ := Prod.mk.inj hboth
    cases survives with
    | false =>
      rw [PbftNode.executeRequest, hown]
      have hdead : ∀ {q : Prop}, false = true → q := fun h => absurd h (by simp)
      exact ⟨h.handleType, hchain, hpart, hdead, hdead, hdead⟩
    | true =>
      have hheight : bc.height = n.curChain.height + 1 := by
        refine height_of_handleinCommit ?_ hcommit
        intro b' hb'
        exact RequestMsg.block.inj hb' ▸ hext
      obtain ⟨hseq, hphase⟩ := Leader.nextRound_of_commitBlock halive
      rw [PbftNode.executeRequest, hown]
      simp only
      rw [PbftNode.endRound_of_isMain]
      · refine ⟨h.handleType, hchain, hpart, fun _ => halive, fun _ => ?_, fun _ => Or.inl ⟨hphase, ?_⟩⟩
        · rw [hseq, h.sequenceID hn]
          rfl
        · show ∀ p ∈ log, p.1 ≤ bc.height
          rw [hheight]
          exact hlog
      · exact hmain
      · exact hlock

/-- **The commit.** The request that a commit message makes node 0 execute is the block the leader
    waits for, and both do the same to their chains. -/
theorem commit (h : Leads n log l) (hs : Stacked log) (hok : NodeOk log 0 n) (hn : n.alive = true)
    {m : Vote H} {b : Block H} {reqTime : ℕ} (hr : n.committing m = some ⟨.block b, reqTime⟩) :
    l.phase = .proposed (.block b) ∧
      Leads ((n.countCommit m).executeRequest m.digest ⟨.block b, reqTime⟩) log
        (l.commitBlock b).1 := by
  obtain ⟨hpool, hopen⟩ := PbftNode.committing_spec hr
  obtain ⟨hdigest, k, hknown⟩ := hok.pool _ _ hpool
  have hmain : n.isMain = true := hok.isMain_iff.2 rfl
  cases (hok.leader rfl).phase hn with
  | idle hreply _ _ => exact absurd (hreply _ hknown) (by simp [hdigest, hopen])
  | @outstanding r₀ b₀ log' hlog hreply _ hmsg hext hlock _ =>
    subst hlog
    -- everything older has been replied to
    have hnewest : (k, (⟨.block b, reqTime⟩ : Request H)) = (n.curChain.height + 1, r₀) := by
      rcases List.mem_cons.1 hknown with heq | hmem
      · exact heq
      · exact absurd (hreply _ hmem) (by simp [hdigest, hopen])
    obtain ⟨rfl, rfl⟩ := Prod.mk.inj hnewest
    obtain rfl := RequestMsg.block.inj hmsg
    refine ⟨?_, ?_⟩
    · rcases h.phase hn with ⟨-, hbelow⟩ | ⟨r', b', hmem, hmsg', hphase⟩
      · exact absurd (hbelow _ List.mem_cons_self) (by simp)
      · have hlatest := Stacked.latest hs.sorted hmem
        rw [Stacked.latest hs.sorted List.mem_cons_self, Option.some.injEq] at hlatest
        subst hlatest
        rw [hphase, RequestMsg.block.inj hmsg']
    · refine h.executed hn hmain hlock hext ?_
      obtain ⟨hhead, -⟩ := List.pairwise_cons.1 hs.sorted
      exact List.forall_mem_cons.2 ⟨le_rfl, fun p hp => (hhead p hp).le⟩

end Leads

/-! ## One step inside a shard -/

section Inside

variable [NeZero N] {p p' : PbftWorld H N} {a : PbftAct N} {l : Leader H}

/-- The commit at a main node is the leader's commit. -/
theorem leads_of_mainCommit (hsv : p.SingleView) (hview : p.StaysInView a)
    (hstep : p.step a = some p') (hl : Leads (p.nodes 0) p.proposed l) {n : PbftNode H}
    {b : Block H} (hcommit : p.mainCommit a = some (n, b)) :
    n = p.nodes 0 ∧ n.alive = true ∧ l.phase = .proposed (.block b) ∧
      Leads (p'.nodes 0) p'.proposed (l.commitBlock b).1 := by
  obtain ⟨k, i, m, reqTime, rfl, hk, rfl, hmain, hr⟩ := PbftWorld.mainCommit_eq_some hcommit
  obtain rfl : i = 0 := Fin.ext ((hsv.nodes i).isMain_iff.1 hmain)
  obtain ⟨j, n', r, msgs, hact, halive, rfl⟩ := PbftWorld.step_cases hstep
  cases hact with
  | deliver hk' hn' =>
    obtain ⟨hj, rfl⟩ := Prod.mk.inj (Option.some.inj (hk.symm.trans hk'))
    obtain rfl : (0 : Fin N) = j := Fin.ext hj
    obtain ⟨hphase, hnext⟩ := hl.commit hsv.stacked (hsv.nodes 0) halive hr
    refine ⟨rfl, halive, hphase, ?_⟩
    cases PbftNode.receives_of_handleMessage (hview _ hk (Fin.isLt 0)) hn' with
    | quiet _ hnone => exact absurd ((hnone m rfl).symm.trans hr) (by simp)
    | execute hr' =>
      obtain rfl := Option.some.inj (hr.symm.trans hr')
      rw [PbftWorld.after_nodes_self]
      exact hnext

/-- Any other step inside the shard is invisible, or it is the leader's proposal. -/
theorem leads_of_step (hsv : p.SingleView) (hview : p.StaysInView a)
    (hout : ∀ i pool, a ≠ .outside i pool) (hstep : p.step a = some p')
    (hl : Leads (p.nodes 0) p.proposed l) (hcommit : p.mainCommit a = none) :
    Leads (p'.nodes 0) p'.proposed l ∨
      ∃ now, l.alive = true ∧ l.phase = .idle ∧
        Leads (p'.nodes 0) p'.proposed (l.proposeBlock now) := by
  obtain ⟨i, n, r, msgs, hact, halive, rfl⟩ := PbftWorld.step_cases hstep
  have hi := hsv.nodes i
  by_cases h0 : i = 0
  · subst h0
    rw [PbftWorld.after_nodes_self]
    cases hact.effect hview with
    | outside pool => exact absurd rfl (hout 0 pool)
    | quiet hsame _ => exact Or.inl (hl.congr halive hsame)
    | propose hprop hpart hreq hsame =>
      obtain ⟨-, -, hbelow, -⟩ := hi.idle_of_proposing halive hprop
      obtain ⟨b, rfl, hgen⟩ := hi.generates_block hpart hreq
      obtain ⟨hphase, hnext⟩ := hl.propose (r := ⟨.block b, _⟩) halive hi.nodeID hbelow hgen rfl hsame
      exact Or.inr ⟨_, hl.alive halive, hphase, hnext⟩
    | @execute _ _ r hk hr =>
      -- node 0 is the main node, and all that is proposed are blocks
      obtain ⟨-, h, hmem⟩ := hi.pool _ _ (PbftNode.committing_spec hr).1
      obtain ⟨b, hmsg, -⟩ := hsv.stacked.block _ hmem
      obtain ⟨msg, reqTime⟩ := r
      obtain rfl : msg = .block b := hmsg
      rw [PbftWorld.mainCommit_of_committing hk hr (hi.isMain_iff.2 rfl)] at hcommit
      exact absurd hcommit (by simp)
    | replay hk => exact absurd rfl (hsv.net _ (List.mem_of_getElem? hk)).1
  · -- the others propose nothing
    rw [PbftWorld.after_nodes_of_ne (Ne.symm h0)]
    have hr : r = none := by
      cases hact with
      | propose hprop _ _ =>
        exact absurd (Fin.ext (hi.idle_of_proposing halive hprop).1) h0
      | _ => rfl
    subst hr
    exact Or.inl hl

end Inside

/-! ## The refinement -/

namespace Cluster

variable [NeZero N]

/-- The coarse world that a cluster shows. -/
structure Shows (c : Cluster H S N) (w : ShardWorld H S) : Prop where
  net : w.net = c.net
  remaining : w.remaining = c.remaining
  modifiedMap : w.modifiedMap = ∅
  log : w.log = c.log
  leaders : ∀ i, Leads (c.node0 i) (c.shards i).proposed (w.leaders i)

theorem shows_init (bc : Fin S → BlockChain H) (dataset : List Transaction) :
    Shows (init N bc dataset) (ShardWorld.init bc dataset) where
  net := rfl
  remaining := rfl
  modifiedMap := rfl
  log := rfl
  leaders := fun i => ⟨rfl, rfl, rfl, fun _ => rfl, fun _ => rfl, fun _ =>
    Or.inl ⟨rfl, fun p hp => absurd hp (by simp [init, PbftWorld.init])⟩⟩

/-- One shard and its leader have moved. -/
theorem Shows.update {c : Cluster H S N} {w : ShardWorld H S} (h : c.Shows w) {i : Fin S}
    {p : PbftWorld H N} {l : Leader H} (hl : Leads (p.nodes 0) p.proposed l) (j : Fin S) :
    Leads ((Function.update c.shards i p j).nodes 0) (Function.update c.shards i p j).proposed
      (Function.update w.leaders i l j) := by
  by_cases hj : j = i
  · subst hj
    rw [Function.update_self, Function.update_self]
    exact hl
  · rw [Function.update_of_ne hj, Function.update_of_ne hj]
    exact h.leaders j

theorem Shows.txSending {c : Cluster H S N} {w : ShardWorld H S} (h : c.Shows w) (count : ℕ) :
    (c.txSending count).Shows (w.txSending count) where
  net := by
    have hhome : ∀ a, w.fetchModifiedMap a = addr2Shard S a := fun a => by
      rw [ShardWorld.fetchModifiedMap, h.modifiedMap, Finmap.lookup_empty, Option.getD_none]
    simp only [ShardWorld.txSending, Cluster.txSending, h.net, h.remaining, hhome]
  remaining := by rw [ShardWorld.txSending, Cluster.txSending, h.remaining]
  modifiedMap := h.modifiedMap
  log := h.log
  leaders := h.leaders

theorem Shows.receive {c c' : Cluster H S N} {w : ShardWorld H S} (h : c.Shows w) {k : ℕ}
    {i : Fin S} {m : ShardMsg} (hk : c.net[k]? = some (i.val, m))
    (hc' : c.receive k i m = some c') :
    ∃ w', w.step .relay (.deliver k) = some w' ∧ c'.Shows w' := by
  obtain ⟨p, hstep, rfl⟩ := Option.map_eq_some_iff.1 hc'
  obtain ⟨j, n, r, msgs, hact, halive, rfl⟩ := PbftWorld.step_cases hstep
  cases hact with
  | outside pool =>
    have hl := h.leaders i
    refine ⟨w.receive .relay k i m, ?_, ?_⟩
    · simp only [ShardWorld.step, h.net, hk, dif_pos i.isLt, Fin.eta, hl.alive halive, if_true]
    · refine ⟨?_, h.remaining, h.modifiedMap, h.log, h.update ?_⟩
      · rw [ShardWorld.receive, h.net]
      · rw [PbftWorld.after_nodes_self]
        exact hl.receive m

theorem Shows.inside {c c' : Cluster H S N} {w : ShardWorld H S} (h : c.Shows w) {i : Fin S}
    {a : PbftAct N} (hsv : (c.shards i).SingleView) (hview : (c.shards i).StaysInView a)
    (hout : ∀ j pool, a ≠ .outside j pool) (hc' : c.inside i a = some c') :
    c'.Shows w ∨ ∃ b w', w.step .relay b = some w' ∧ c'.Shows w' := by
  have hl := h.leaders i
  obtain ⟨p, hstep, hc'⟩ := Option.map_eq_some_iff.1 hc'
  cases hcommit : (c.shards i).mainCommit a with
  | none =>
    simp only [hcommit] at hc'
    subst hc'
    rcases leads_of_step hsv hview hout hstep hl hcommit with hsame | ⟨now, halive, hphase, hnext⟩
    · left
      have hupd := h.update (i := i) hsame
      rw [Function.update_eq_self] at hupd
      exact ⟨h.net, h.remaining, h.modifiedMap, h.log, hupd⟩
    · refine Or.inr ⟨.proposeBlock i now, w.after i ((w.leaders i).proposeBlock now) [], ?_, ?_⟩
      · simp [ShardWorld.step, ShardWorld.act, halive, hphase, hl.partitionOn]
      · refine ⟨?_, h.remaining, h.modifiedMap, h.log, h.update hnext⟩
        rw [ShardWorld.after, List.append_nil, h.net]
  | some q =>
    obtain ⟨n, b⟩ := q
    simp only [hcommit] at hc'
    subst hc'
    obtain ⟨rfl, halive, hphase, hnext⟩ := leads_of_mainCommit hsv hview hstep hl hcommit
    refine Or.inr ⟨.commit i, w.commitBlock i b, ?_, ?_⟩
    · simp only [ShardWorld.step, hl.alive halive, if_true, ShardWorld.act, hphase]
    · obtain ⟨hmsgs, hsurvives⟩ := Leader.commitBlock_congr (n := (c.node0 i).toLeader) hl.curChain
        (hl.sequenceID halive) ((hl.alive halive).trans halive.symm) b
      refine ⟨?_, h.remaining, h.modifiedMap, ?_, h.update hnext⟩
      · show w.net ++ _ = c.net ++ _
        rw [h.net, hmsgs]
        rfl
      · show Function.update w.log i _ = Function.update c.log i _
        rw [h.log, hl.curChain, hsurvives]
        rfl

/-- What a step of the cluster is a step of. -/
theorem step_cases {c c' : Cluster H S N} {a : ClusterAct S N} (h : c.step a = some c') :
    (∃ count, a = .txSending count ∧ c' = c.txSending count) ∨
      (∃ k i m, a = .deliver k ∧ c.net[k]? = some (Fin.val i, m) ∧ c.receive k i m = some c') ∨
      ∃ i b, a = .inside i b ∧ (∀ j pool, b ≠ .outside j pool) ∧ c.inside i b = some c' := by
  cases a with
  | txSending count => exact Or.inl ⟨count, rfl, (Option.some.inj h).symm⟩
  | deliver k =>
    simp only [step] at h
    split at h
    · exact absurd h (by simp)
    next d m hk =>
    split at h
    · next hd => exact Or.inr (Or.inl ⟨k, ⟨d, hd⟩, m, rfl, hk, h⟩)
    · exact absurd h (by simp)
  | inside i b =>
    cases b with
    | outside j pool => exact absurd h (by simp [step])
    | _ => exact Or.inr (Or.inr ⟨i, _, rfl, by simp, h⟩)

/-- No view has been installed in any shard. -/
def InView (c : Cluster H S N) : Prop := ∀ i, (c.shards i).SingleView

theorem InView.step {c c' : Cluster H S N} {a : ClusterAct S N} (hc : c.InView)
    (hview : c.StaysInView a) (h : c.step a = some c') : c'.InView := by
  have hupdate : ∀ {i b p}, (c.shards i).StaysInView b → (c.shards i).step b = some p →
      ∀ j, (Function.update c.shards i p j).SingleView := by
    intro i b p hb hp
    exact (Function.forall_update_iff c.shards fun _ q => q.SingleView).2
      ⟨(hc i).step hb.keepsViews hp, fun j _ => hc j⟩
  rcases step_cases h with ⟨count, rfl, rfl⟩ | ⟨k, i, m, rfl, -, h⟩ | ⟨i, b, rfl, -, h⟩
  · exact hc
  · obtain ⟨p, hp, rfl⟩ := Option.map_eq_some_iff.1 h
    exact hupdate (b := .outside 0 _) trivial hp
  · obtain ⟨p, hp, rfl⟩ := Option.map_eq_some_iff.1 h
    intro j
    split <;> exact hupdate hview hp j

/-- Every step that installs no view is matched by one step of the coarse world, or by none. -/
theorem Shows.step {c c' : Cluster H S N} {w : ShardWorld H S} {a : ClusterAct S N}
    (h : c.Shows w) (hc : c.InView) (hview : c.StaysInView a) (hc' : c.step a = some c') :
    c'.Shows w ∨ ∃ b w', w.step .relay b = some w' ∧ c'.Shows w' := by
  rcases step_cases hc' with ⟨count, rfl, rfl⟩ | ⟨k, i, m, rfl, hk, hc'⟩ | ⟨i, b, rfl, hout, hc'⟩
  · exact Or.inr ⟨.txSending count, _, rfl, h.txSending count⟩
  · exact Or.inr ⟨_, h.receive hk hc'⟩
  · exact h.inside (hc i) hview hout hc'

/-- **The cluster refines the coarse world.** In relay mode, every run of a cluster in which no view
    is installed shows a run of the shards that are seen through their leaders: the same messages
    between the shards, the same log, and for each shard a leader with the chain of node 0. -/
theorem refines_shardWorld {bc : Fin S → BlockChain H} {dataset : List Transaction}
    {c : Cluster H S N} (hrun : ReachesUnder step StaysInView (init N bc dataset) c) :
    ∃ w, Reaches (ShardWorld.step .relay) (ShardWorld.init bc dataset) w ∧ c.Shows w := by
  have hsim : ∃ w, Reaches (ShardWorld.step .relay) (ShardWorld.init bc dataset) w ∧
      c.InView ∧ c.Shows w := by
    refine hrun.simulation (R := fun c w => c.InView ∧ c.Shows w)
      ⟨fun i => PbftWorld.singleView_init rfl (bc i), shows_init bc dataset⟩ ?_
    rintro c a c' w ⟨hc, hw⟩ hview h
    rcases hw.step hc hview h with hsame | ⟨b, w', hstep, hw'⟩
    · exact Or.inl ⟨hc.step hview h, hsame⟩
    · exact Or.inr ⟨b, w', hstep, hc.step hview h, hw'⟩
  obtain ⟨w, hreach, -, hshows⟩ := hsim
  exact ⟨w, hreach, hshows⟩

section Sample

open BlockChain

set_option maxRecDepth 100000

/-- A round of shard `i` under its leader in which nodes 0, 1 and 2 take part and execute; its
    messages stand in the shard's network from `base` on. -/
def round {S : ℕ} (i : Fin S) (leader : Fin 4) (base : ℕ) : List (ClusterAct S 4) :=
  (PbftWorld.proposalBy leader ++
    [0, 1, 2, 4, 8, 12, 5, 9, 13, 6, 10, 14, 16, 20, 24, 17, 21, 25, 18, 22, 26].map
      fun k => PbftAct.deliver (base + k)).map (.inside i)

/-- Two shards of four nodes exchange payments: one round each for the first halves, and one for the
    second halves of the other's. -/
def exchanging {S : ℕ} (i j : Fin S) (leader : Fin 4) : List (ClusterAct S 4) :=
  [.txSending 2, .deliver 0, .deliver 0] ++ round i leader 0 ++ round j leader 0 ++
    [.deliver 0, .deliver 0] ++ round i leader 28 ++ round j leader 28 ++ [.deliver 0, .deliver 0]

theorem exchange_shown :
    ∃ c, ReachesUnder step StaysInView (init 4 ShardWorld.twoShards ShardWorld.exchange) c ∧
      (c.node0 0).curChain.height = 2 ∧ ((c.shards 1).nodes 2).curChain.height = 2 ∧
      ∃ w, Reaches (ShardWorld.step .relay) (ShardWorld.init ShardWorld.twoShards ShardWorld.exchange) w ∧
        c.Shows w := by
  have hrun : ∃ c ∈ runChecked step (fun c a => decide (c.StaysInView a))
      (init 4 ShardWorld.twoShards ShardWorld.exchange) (exchanging 0 1 0),
      (c.node0 0).curChain.height = 2 ∧ ((c.shards 1).nodes 2).curChain.height = 2 := by
    decide +kernel
  obtain ⟨c, hc, h0, h2⟩ := hrun
  have hreach := reachesUnder_of_runDecided hc
  exact ⟨c, hreach, h0, h2, refines_shardWorld hreach⟩

end Sample

end Cluster

end BlockEmulator
