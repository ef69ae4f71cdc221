import BlockEmulator.Pbft.Rounds
import BlockEmulator.Pbft.Stage
import Mathlib.Data.Fintype.Card

set_option autoImplicit false

/-! # Rounds that are given time

A round can go wrong in this code when the next one starts too early: messages from the future are
dropped or filed without an answer, and the leader's late store sets its stage back. Here the leader
waits. The network delivers every message once, in any order; a proposal is only made when the shard
has settled, which means that no handler can run any further and the store of the last proposal is
done; and that store comes in time. Then no round gets stuck: whenever the shard settles with all its
processes running, every node has executed every proposal.

The invariant counts. `S` are the nodes that have sent their prepare messages and `T` those that have
sent their commit messages. A node that has not executed the block has counted, or has still to count,
one prepare message from each of `S` and one commit message from each of `T`. In a settled shard
nothing is left to count. If some node were without the block, then none would have it: a quorum of
commit messages would otherwise have reached that node too. So everyone would be in `S`, and, having
counted all prepare messages, in `T`, and would have counted all commit messages. -/

namespace BlockEmulator

variable {H : Type} [DecidableEq H] [Hashing H] {N : ℕ}

/-! ## A network that delivers once -/

namespace PbftWorld

/-- The shard after node `i` has handled message `k`, which leaves the network. -/
def afterOnce (w : PbftWorld H N) (k : ℕ) (i : Fin N) (n : PbftNode H)
    (msgs : List (ℕ × PbftMsg H)) : PbftWorld H N where
  nodes := Function.update w.nodes i n
  net := w.net.eraseIdx k ++ msgs
  proposed := w.proposed

theorem forall_nodes_once {w : PbftWorld H N} {k : ℕ} {i : Fin N} {n : PbftNode H}
    {msgs : List (ℕ × PbftMsg H)} {p : Fin N → PbftNode H → Prop} :
    (∀ j, p j ((w.afterOnce k i n msgs).nodes j)) ↔ p i n ∧ ∀ j, j ≠ i → p j (w.nodes j) :=
  Function.forall_update_iff w.nodes p

/-- A step in which the delivered message leaves the network. -/
def stepOnce (w : PbftWorld H N) : PbftAct N → Option (PbftWorld H N)
  | .deliver k => (w.step (.deliver k)).map fun w' => { w' with net := w'.net.eraseIdx k }
  | a => w.step a

/-- A delivery takes a message from the network and adds the answers; any other action is a step as
    before. -/
theorem stepOnce_cases {w w' : PbftWorld H N} {a : PbftAct N} (h : w.stepOnce a = some w') :
    (∃ (i : Fin N) (k : ℕ) (m : PbftMsg H) (n : PbftNode H) (msgs : List (ℕ × PbftMsg H)),
      a = .deliver k ∧ w.net[k]? = some (i.val, m) ∧ (w.nodes i).handleMessage m = some (n, msgs) ∧
      (w.nodes i).alive = true ∧ w.step (.deliver k) = some (w.after i n none msgs) ∧
      w' = w.afterOnce k i n msgs) ∨
    ((∀ k, a ≠ .deliver k) ∧ w.step a = some w') := by
  cases a with
  | deliver k =>
    left
    obtain ⟨w₁, hstep, rfl⟩ := Option.map_eq_some_iff.1 h
    obtain ⟨i, n, r, msgs, hact, halive, rfl⟩ := step_cases hstep
    cases hact with
    | deliver hk hm =>
      obtain ⟨hlt, -⟩ := List.getElem?_eq_some_iff.1 hk
      refine ⟨i, k, _, n, msgs, rfl, hk, hm, halive, hstep, ?_⟩
      rw [show (w.after i n none msgs).net = w.net ++ msgs from rfl,
        List.eraseIdx_append_of_lt_length hlt]
      rfl
  | _ => exact Or.inr ⟨by simp, h⟩

/-- A step is possible as well when more messages are in the network. -/
theorem step_of_subset {w w' : PbftWorld H N} {a : PbftAct N} (h : w.step a = some w')
    {net : List (ℕ × PbftMsg H)} (hnet : w.net ⊆ net) :
    ∃ a' msgs, w'.net = w.net ++ msgs ∧
      ({ w with net := net } : PbftWorld H N).step a' = some { w' with net := net ++ msgs } := by
  by_cases hdel : ∃ k, a = .deliver k
  · obtain ⟨k, rfl⟩ := hdel
    obtain ⟨i, n, r, msgs, hact, halive, rfl⟩ := step_cases h
    cases hact with
    | deliver hk hm =>
      obtain ⟨k', hk'⟩ := List.mem_iff_getElem?.1 (hnet (List.mem_of_getElem? hk))
      refine ⟨.deliver k', msgs, rfl, ?_⟩
      have hact : ({ w with net := net } : PbftWorld H N).act (.deliver k') =
          some (i, n, none, msgs) := by
        simp only [act, hk', i.isLt, ↓reduceDIte, Fin.eta, hm, Option.map_some]
      simp only [step, hact, halive, ↓reduceIte]
      rfl
  · -- no other action looks at the network
    have hsame : ({ w with net := net } : PbftWorld H N).act a = w.act a := by
      cases a with
      | deliver k => exact absurd ⟨k, rfl⟩ hdel
      | _ => rfl
    rw [step] at h
    split at h
    · exact absurd h (by simp)
    next i n r msgs hact =>
    split at h
    · next halive =>
        obtain rfl := Option.some.inj h
        refine ⟨a, msgs, rfl, ?_⟩
        rw [step, hsame, hact]
        exact if_pos halive
    · exact absurd h (by simp)

omit [DecidableEq H] [Hashing H] in
theorem append_subset_append {l net : List (ℕ × PbftMsg H)} (h : l ⊆ net)
    (msgs : List (ℕ × PbftMsg H)) : l ++ msgs ⊆ net ++ msgs := fun _ hp =>
  List.mem_append.2 ((List.mem_append.1 hp).imp_left fun hl => h hl)

/-- What can happen with a network that delivers once can happen with one that keeps its messages. -/
theorem reaches_of_once {P : PbftWorld H N → PbftAct N → Prop} {w₀ w : PbftWorld H N}
    (hrun : ReachesUnder stepOnce P w₀ w) :
    ∃ net, Reaches step w₀ { w with net := net } ∧ w.net ⊆ net := by
  induction hrun with
  | refl => exact ⟨w₀.net, .refl, fun _ h => h⟩
  | tail _ _ hs ih =>
    obtain ⟨net, hreach, hsub⟩ := ih
    rcases stepOnce_cases hs with ⟨i, k, m, n, msgs, rfl, -, -, -, hstep, rfl⟩ | ⟨-, hstep⟩
    · obtain ⟨a', msgs', hmsgs, hstep'⟩ := step_of_subset hstep hsub
      obtain rfl := List.append_cancel_left hmsgs
      refine ⟨net ++ msgs, hreach.tail trivial hstep', ?_⟩
      exact append_subset_append (fun _ hp => hsub (List.eraseIdx_subset hp)) msgs
    · obtain ⟨a', msgs', hmsgs, hstep'⟩ := step_of_subset hstep hsub
      refine ⟨net ++ msgs', hreach.tail trivial hstep', ?_⟩
      rw [hmsgs]
      exact append_subset_append hsub msgs'

/-- No handler can run any further, and no proposal is waiting for its stage to be stored. -/
def Settled (w : PbftWorld H N) : Prop :=
  (∀ p ∈ w.net, ∀ hd : p.1 < N, ((w.nodes ⟨p.1, hd⟩).handleMessage p.2).isNone = true) ∧
    ∀ i, (w.nodes i).storing = 0

instance (w : PbftWorld H N) : Decidable w.Settled :=
  inferInstanceAs (Decidable ((∀ p ∈ w.net, ∀ hd : p.1 < N,
    ((w.nodes ⟨p.1, hd⟩).handleMessage p.2).isNone = true) ∧ ∀ i, (w.nodes i).storing = 0))

/-- Proposals wait until the shard has settled, no node gives up its view, and the leader stores its
    stage in time. -/
def Patient (w : PbftWorld H N) : PbftAct N → Prop
  | .propose _ _ _ _ => w.Settled
  | .timeout _ => False
  | .storeStage i => w.StoresInTime (.storeStage i)
  | _ => True

instance (w : PbftWorld H N) : (a : PbftAct N) → Decidable (w.Patient a)
  | .propose _ _ _ _ => inferInstanceAs (Decidable w.Settled)
  | .timeout _ => .isFalse id
  | .storeStage i => inferInstanceAs (Decidable (w.StoresInTime (.storeStage i)))
  | .outside _ _ | .roundSignal _ | .takeSignal _ | .lockSequence _ | .resume _
  | .deliver _ => .isTrue trivial

end PbftWorld

/-! ## Messages in flight -/

/-- The three kinds of messages of a round. -/
inductive Wave where
  | prePrepare
  | prepare
  | commit
deriving DecidableEq

def PbftMsg.wave : PbftMsg H → Option (Wave × ℕ)
  | .prePrepare m => some (.prePrepare, m.seqID)
  | .prepare m => some (.prepare, m.seqID)
  | .commit m => some (.commit, m.seqID)
  | _ => none

/-- How many messages of a kind are on their way to node `i` for a round. -/
def inFlight (net : List (ℕ × PbftMsg H)) (i : ℕ) (c : Wave) (s : ℕ) : ℕ :=
  net.countP fun p => p.1 = i ∧ p.2.wave = some (c, s)

section InFlight

omit [DecidableEq H] [Hashing H]

theorem inFlight_append (net msgs : List (ℕ × PbftMsg H)) (i : ℕ) (c : Wave) (s : ℕ) :
    inFlight (net ++ msgs) i c s = inFlight net i c s + inFlight msgs i c s :=
  List.countP_append

/-- A message that leaves the network is missing in the count it belonged to. -/
theorem inFlight_eraseIdx {net : List (ℕ × PbftMsg H)} {k : ℕ} {p : ℕ × PbftMsg H}
    (hk : net[k]? = some p) (i : ℕ) (c : Wave) (s : ℕ) :
    inFlight net i c s = inFlight (net.eraseIdx k) i c s +
      if p.1 = i ∧ p.2.wave = some (c, s) then 1 else 0 := by
  obtain ⟨hlt, rfl⟩ := List.getElem?_eq_some_iff.1 hk
  rw [inFlight, ← (List.getElem_cons_eraseIdx_perm hlt).countP_eq, List.countP_cons]
  simp only [decide_eq_true_eq, inFlight]

end InFlight

/-- Each node gets one message of a broadcast. -/
theorem inFlight_toAll {n : PbftNode H} {i : ℕ} (hi : i < n.nodeNums) (m : PbftMsg H) (c : Wave)
    (s : ℕ) : inFlight (n.toAll m) i c s = if m.wave = some (c, s) then 1 else 0 := by
  rw [inFlight, PbftNode.toAll, List.countP_map]
  split
  · next hm =>
      have hone : List.countP (fun j => j == i) (List.range n.nodeNums) = 1 :=
        List.count_eq_one_of_mem List.nodup_range (List.mem_range.2 hi)
      rw [← hone]
      refine List.countP_congr fun j _ => ?_
      simp [hm]
  · next hm => exact List.countP_eq_zero.2 fun j _ => by simp [hm]

theorem inFlight_broadcast {n : PbftNode H} (hN : n.nodeNums = N) {m : PbftMsg H} {c₀ : Wave} {s : ℕ}
    (hm : m.wave = some (c₀, s)) (j : Fin N) (c : Wave) :
    inFlight (n.toAll m) j c s = if c = c₀ then 1 else 0 := by
  rw [inFlight_toAll (by rw [hN]; exact j.isLt), hm]
  simp [eq_comm]

/-! ## A node in a round -/

/-- `2*malicious_nums + 1` for a shard of `N` nodes. -/
def quorumOf (N : ℕ) : ℕ := 2 * ((N - 1) / 3) + 1

theorem quorumOf_le (i : Fin N) : quorumOf N ≤ N := by
  have := i.isLt
  rw [quorumOf]
  omega

/-- The node has not executed the block of round `s`. `S` and `T` are the nodes that have sent their
    prepare and commit messages; `pre`, `prep` and `com` are the numbers of messages on their way to
    the node. -/
structure Works (s : ℕ) (r : Request H) (b : Block H) (S T : Finset (Fin N)) (pre prep com : ℕ)
    (i : Fin N) (n : PbftNode H) : Prop where
  sequenceID : n.sequenceID = s
  extends_ : n.curChain.Extends b
  valid : n.curChain.isValidBlock b = true
  unreplied : n.isReply (Hashing.getDigest r) = false
  stage : 1 ≤ n.pbftStage
  prePrepares : pre = if i ∈ S then 0 else 1
  prepared : i ∈ S → 2 ≤ n.pbftStage
  pool : 2 ≤ n.pbftStage → n.requestPool (Hashing.getDigest r) = some r
  committed : i ∈ T ↔ n.isCommitBordcast (Hashing.getDigest r) = true
  committing : i ∈ T → 3 ≤ n.pbftStage
  preparing : i ∉ T → (n.cntPrepareConfirm (Hashing.getDigest r)).length < quorumOf N
  waiting : (n.cntCommitConfirm (Hashing.getDigest r)).length < quorumOf N
  prepares : prep + (n.cntPrepareConfirm (Hashing.getDigest r)).length = S.card
  commits : com + (n.cntCommitConfirm (Hashing.getDigest r)).length = T.card

/-- The node has executed the block of round `s`. -/
structure Done (s : ℕ) (b : Block H) (T : Finset (Fin N)) (n : PbftNode H) : Prop where
  sequenceID : n.sequenceID = s + 1
  stage : n.pbftStage = 1
  block : n.curChain.currentBlock = b
  enough : quorumOf N ≤ T.card

/-- The handler of a message of round `s` leaves the rest of the node alone. -/
structure RoundFrame (s : ℕ) (d : H) (n n' : PbftNode H) : Prop where
  nodeNums : n'.nodeNums = n.nodeNums
  blocked : n'.blocked = n.blocked
  storing : n'.storing = n.storing
  filed : ∀ k, n'.height2Digest k = n.height2Digest k ∨ k = s ∧ n'.height2Digest k = some d
  others : ∀ e ≠ d, n.Unseen e → n'.Unseen e

section Handlers

variable {s : ℕ} {r : Request H} {b : Block H} {S T : Finset (Fin N)} {pre prep com : ℕ} {i : Fin N}
  {n n' : PbftNode H} {msgs : List (ℕ × PbftMsg H)}

/-- A change of what the round does not look at. -/
theorem Works.congr (h : Works s r b S T pre prep com i n)
    (heq : (n'.sequenceID, n'.curChain.currentBlock, n'.isReply, n'.pbftStage, n'.requestPool,
        n'.isCommitBordcast, n'.cntPrepareConfirm, n'.cntCommitConfirm) =
      (n.sequenceID, n.curChain.currentBlock, n.isReply, n.pbftStage, n.requestPool,
        n.isCommitBordcast, n.cntPrepareConfirm, n.cntCommitConfirm)) :
    Works s r b S T pre prep com i n' := by
  simp only [Prod.mk.injEq] at heq
  obtain ⟨hseq, hblock, hreply, hstage, hpool, hcommit, hprep, hcom⟩ := heq
  refine ⟨hseq.trans h.sequenceID, ?_, ?_, ?_, ?_, h.prePrepares, ?_, ?_, ?_, ?_, ?_, ?_, ?_, ?_⟩
  · rw [BlockChain.Extends, BlockChain.height, hblock]
    exact h.extends_
  · rw [BlockChain.isValidBlock, hblock]
    exact h.valid
  · rw [hreply, h.unreplied]
  · rw [hstage]
    exact h.stage
  · rw [hstage]
    exact h.prepared
  · rw [hstage, hpool]
    exact h.pool
  · rw [hcommit]
    exact h.committed
  · rw [hstage]
    exact h.committing
  · rw [hprep]
    exact h.preparing
  · rw [hcom]
    exact h.waiting
  · rw [hprep]
    exact h.prepares
  · rw [hcom]
    exact h.commits

/-- The proposal makes the node send its prepare messages. -/
theorem Works.handlePrePrepare (h : Works s r b S T pre prep com i n) (hb : n.blocked = none)
    (hmsg : r.msg = .block b)
    (hn : n.handlePrePrepare ⟨r, Hashing.getDigest r, s⟩ = some (n', msgs)) :
    n' = { n.putRequest s r with pbftStage := n.pbftStage + 1 } ∧
      msgs = n.toAll (.prepare (n.vote (Hashing.getDigest r) s)) := by
  have hstage := h.stage
  have hvalid : n.handleType.handleinPrePrepare n.curChain r = some true := by
    rw [HandleType.handleinPrePrepare, hmsg]
    exact congrArg some h.valid
  rw [PbftNode.handlePrePrepare, if_neg (by simp [hb]; omega), if_neg (by simp [h.sequenceID]),
    if_neg (by simp), if_neg (by simp [h.sequenceID]), hvalid] at hn
  obtain ⟨rfl, rfl⟩ := Prod.mk.inj (Option.some.inj hn)
  exact ⟨rfl, rfl⟩

theorem Works.prePrepared (h : Works s r b S T pre prep com i n) (hi : i ∉ S) :
    Works s r b (insert i S) T 0 (prep + 1) com i
      { n.putRequest s r with pbftStage := n.pbftStage + 1 } where
  sequenceID := h.sequenceID
  extends_ := h.extends_
  valid := h.valid
  unreplied := h.unreplied
  stage := Nat.le_add_left _ _
  prePrepares := (if_pos (Finset.mem_insert_self _ _)).symm
  prepared := fun _ => Nat.succ_le_succ h.stage
  pool := fun _ => Function.update_self ..
  committed := h.committed
  committing := fun hT => (h.committing hT).trans (Nat.le_succ _)
  preparing := h.preparing
  waiting := h.waiting
  prepares := by
    rw [Finset.card_insert_of_notMem hi, ← h.prepares]
    show prep + 1 + (n.cntPrepareConfirm (Hashing.getDigest r)).length = _
    omega
  commits := h.commits

theorem roundFrame_prePrepared (s : ℕ) (r : Request H) (n : PbftNode H) :
    RoundFrame s (Hashing.getDigest r) n { n.putRequest s r with pbftStage := n.pbftStage + 1 } where
  nodeNums := rfl
  blocked := rfl
  storing := rfl
  filed := fun k => by
    by_cases hk : k = s
    · exact Or.inr ⟨hk, hk ▸ Function.update_self ..⟩
    · exact Or.inl (Function.update_of_ne hk _ _)
  others := fun _ _ h => ⟨h.prepares, h.commits, h.committed, h.replied⟩

/-- A prepare message is counted; the one that makes a quorum is answered with commit messages. -/
theorem Works.handlePrepare (h : Works s r b S T pre (prep + 1) com i n) (hN : n.nodeNums = N)
    {j : ℕ} (hn : n.handlePrepare ⟨Hashing.getDigest r, s, j⟩ = some (n', msgs)) :
    RoundFrame s (Hashing.getDigest r) n n' ∧
      ((msgs = [] ∧ Works s r b S T pre prep com i n') ∨
        (i ∉ T ∧ msgs = n.toAll (.commit (n.vote (Hashing.getDigest r) s)) ∧
          quorumOf N ≤ S.card ∧ Works s r b S (insert i T) pre prep (com + 1) i n')) := by
  have hq : n.quorum = quorumOf N := by rw [PbftNode.quorum, hN, quorumOf]
  have hstage : 2 ≤ n.pbftStage := by
    by_contra hlt
    rw [PbftNode.handlePrepare_waits (by omega) h.sequenceID.le] at hn
    exact absurd hn (by simp)
  have hcnt : (n.countPrepare ⟨Hashing.getDigest r, s, j⟩).cntPrepareConfirm (Hashing.getDigest r) =
      j :: n.cntPrepareConfirm (Hashing.getDigest r) := Function.update_self ..
  have hprep := h.prepares
  have hframe : ∀ e ≠ Hashing.getDigest r, n.Unseen e →
      (n.countPrepare ⟨Hashing.getDigest r, s, j⟩).Unseen e :=
    (PbftNode.touches_countPrepare n ⟨Hashing.getDigest r, s, j⟩).others
  cases PbftNode.handlesPrepare_of_handlePrepare hn with
  | drop hdrop =>
    rcases hdrop with hne | hnone
    · exact absurd h.sequenceID.symm hne
    · rw [h.pool hstage] at hnone
      exact absurd hnone (by simp)
  | count _ _ _ hcomp =>
    refine ⟨⟨rfl, rfl, rfl, fun _ => Or.inl rfl, hframe⟩, Or.inl ⟨rfl, ?_⟩⟩
    refine ⟨h.sequenceID, h.extends_, h.valid, h.unreplied, h.stage, h.prePrepares, h.prepared,
      h.pool, h.committed, h.committing, ?_, h.waiting, ?_, h.commits⟩
    · intro hT
      have hopen : n.isCommitBordcast (Hashing.getDigest r) = false :=
        Bool.not_eq_true _ ▸ mt h.committed.2 hT
      rw [hcnt, List.length_cons]
      rw [PbftNode.completesPrepare, hopen, hq] at hcomp
      simpa using hcomp
    · rw [hcnt, List.length_cons, ← hprep]
      omega
  | commit _ _ _ hcomp =>
    rw [PbftNode.completesPrepare, hq, Bool.and_eq_true, decide_eq_true_iff,
      Bool.not_eq_true'] at hcomp
    have hT : i ∉ T := fun hT => by
      rw [h.committed.1 hT] at hcomp
      exact absurd hcomp.2 (by simp)
    have hlen : quorumOf N ≤ (n.cntPrepareConfirm (Hashing.getDigest r)).length + 1 := hcomp.1
    refine ⟨⟨rfl, rfl, rfl, fun _ => Or.inl rfl, ?_⟩, Or.inr ⟨hT, rfl, by omega, ?_⟩⟩
    · intro e he hunseen
      obtain ⟨hp, hc, -, hr⟩ := hframe e he hunseen
      exact ⟨hp, hc, (Function.update_of_ne he _ _).trans hunseen.committed, hr⟩
    refine ⟨h.sequenceID, h.extends_, h.valid, h.unreplied, Nat.le_add_left _ _, h.prePrepares,
      fun _ => hstage.trans (Nat.le_succ _), fun _ => h.pool hstage, ?_, ?_, ?_, h.waiting, ?_, ?_⟩
    · exact iff_of_true (Finset.mem_insert_self _ _) (Function.update_self ..)
    · intro _
      show 3 ≤ n.pbftStage + 1
      omega
    · exact fun hT' => absurd (Finset.mem_insert_self _ _) hT'
    · show prep + ((n.countPrepare _).cntPrepareConfirm _).length = _
      rw [hcnt, List.length_cons, ← hprep]
      omega
    · rw [Finset.card_insert_of_notMem hT, ← h.commits]
      show com + 1 + (n.cntCommitConfirm (Hashing.getDigest r)).length = _
      omega

/-- What is left of a node that executes a request and lives on. -/
theorem executeRequest_of_alive {d : H} (h : (n.executeRequest d r).alive = true) :
    ∃ bc lock, n.handleType.handleinCommit n.isMain n.curChain r = (bc, true) ∧
      n.executeRequest d r = { n with
        curChain := bc
        isReply := Function.update n.isReply d true
        sequenceID := n.sequenceID + 1
        pbftStage := 1
        sequenceLock := lock } := by
  unfold PbftNode.executeRequest at h ⊢
  split at h
  · next bc heq =>
      rw [heq]
      unfold PbftNode.endRound PbftNode.unlockSequence at h ⊢
      simp only at h ⊢
      split
      · next hmain =>
          rw [if_pos hmain] at h
          split
          · exact ⟨bc, false, rfl, rfl⟩
          · next hlock =>
              rw [if_neg hlock] at h
              exact absurd h (by simp [PbftNode.crash])
      · exact ⟨bc, n.sequenceLock, rfl, rfl⟩
  · exact absurd h (by simp [PbftNode.crash])

/-- A commit message is counted; the one that makes a quorum has the block executed. -/
theorem Works.handleCommit (h : Works s r b S T pre prep (com + 1) i n) (hN : n.nodeNums = N)
    (hmsg : r.msg = .block b) {j : ℕ}
    (hn : n.handleCommit ⟨Hashing.getDigest r, s, j⟩ = some (n', msgs)) (halive : n'.alive = true) :
    RoundFrame s (Hashing.getDigest r) n n' ∧ msgs = [] ∧
      (Works s r b S T pre prep com i n' ∨ Done s b T n') := by
  have hq : n.quorum = quorumOf N := by rw [PbftNode.quorum, hN, quorumOf]
  have hcnt : (n.countCommit ⟨Hashing.getDigest r, s, j⟩).cntCommitConfirm (Hashing.getDigest r) =
      j :: n.cntCommitConfirm (Hashing.getDigest r) := Function.update_self ..
  have hcom := h.commits
  have hframe : ∀ e ≠ Hashing.getDigest r, n.Unseen e →
      (n.countCommit ⟨Hashing.getDigest r, s, j⟩).Unseen e :=
    (PbftNode.touches_countCommit n ⟨Hashing.getDigest r, s, j⟩).others
  cases PbftNode.handlesCommit_of_handleCommit hn with
  | drop hlt => exact absurd (h.sequenceID ▸ hlt) (lt_irrefl s)
  | count _ _ hcomp =>
    refine ⟨⟨rfl, rfl, rfl, fun _ => Or.inl rfl, hframe⟩, rfl, Or.inl ?_⟩
    refine ⟨h.sequenceID, h.extends_, h.valid, h.unreplied, h.stage, h.prePrepares, h.prepared,
      h.pool, h.committed, h.committing, h.preparing, ?_, h.prepares, ?_⟩
    · rw [hcnt, List.length_cons]
      rw [PbftNode.completesCommit, h.unreplied, hq] at hcomp
      simpa using hcomp
    · rw [hcnt, List.length_cons, ← hcom]
      omega
  | wait _ hstage _ hnone =>
    rw [h.pool (by omega)] at hnone
    exact absurd hnone (by simp)
  | ask _ hstage _ hnone =>
    rw [h.pool (by omega)] at hnone
    exact absurd hnone (by simp)
  | @execute r' _ hstage hcomp hr' =>
    obtain rfl : r = r' := by
      have hpool := (PbftNode.committing_spec hr').1
      rw [h.pool (by omega)] at hpool
      exact Option.some.inj hpool
    obtain ⟨bc, lock, hcommit, heq⟩ := executeRequest_of_alive halive
    have hlen : quorumOf N ≤ (n.cntCommitConfirm (Hashing.getDigest r)).length + 1 := by
      rw [PbftNode.completesCommit, hq, Bool.and_eq_true, decide_eq_true_iff] at hcomp
      exact hcomp.1
    rw [heq]
    refine ⟨⟨rfl, rfl, rfl, fun _ => Or.inl rfl, ?_⟩, rfl, Or.inr ⟨?_, rfl, ?_, by omega⟩⟩
    · intro e he hunseen
      obtain ⟨hp, hc, hb, -⟩ := hframe e he hunseen
      exact ⟨hp, hc, hb, (Function.update_of_ne he _ _).trans hunseen.replied⟩
    · exact congrArg (· + 1) h.sequenceID
    · have hgrown := grown_of_handleinCommit
        (fun b' hb' => RequestMsg.block.inj (hmsg.symm.trans hb') ▸ h.extends_) hcommit
      have hnext := hgrown.2
      rw [NextTip, hmsg] at hnext
      exact congrArg Tip.block hnext

end Handlers

/-! ## The shard in a round -/

/-- The message belongs to round `s`, whose request is `r`. -/
def OfRound (s : ℕ) (r : Request H) : PbftMsg H → Prop
  | .prePrepare m => m = ⟨r, Hashing.getDigest r, s⟩
  | .prepare m => m.digest = Hashing.getDigest r ∧ m.seqID = s
  | .commit m => m.digest = Hashing.getDigest r ∧ m.seqID = s
  | _ => False

omit [DecidableEq H] in
theorem OfRound.seqID {s : ℕ} {r : Request H} {m : PbftMsg H} (h : OfRound s r m) :
    m.seqID = some s := by
  cases m with
  | prePrepare m =>
    obtain rfl : m = ⟨r, Hashing.getDigest r, s⟩ := h
    rfl
  | prepare m => exact congrArg some h.2
  | commit m => exact congrArg some h.2
  | _ => exact absurd h (by simp [OfRound])

theorem ofRound_toAll {n : PbftNode H} (hN : n.nodeNums = N) {s : ℕ} {r : Request H} {m : PbftMsg H}
    (hm : OfRound s r m) : ∀ p ∈ n.toAll m, p.1 < N ∧ OfRound s r p.2 := by
  intro p hp
  obtain ⟨j, hj, rfl⟩ := List.mem_map.1 hp
  exact ⟨hN ▸ List.mem_range.1 hj, hm⟩

/-- The other nodes see the sets grow with the messages on their way. -/
theorem Works.others {s : ℕ} {r : Request H} {b : Block H} {S T S' T' : Finset (Fin N)}
    {pre prep com prep' com' : ℕ} {j : Fin N} {n : PbftNode H}
    (h : Works s r b S T pre prep com j n) (hS : j ∈ S' ↔ j ∈ S) (hT : j ∈ T' ↔ j ∈ T)
    (hprep : S.card + prep' = S'.card) (hcom : T.card + com' = T'.card) :
    Works s r b S' T' pre (prep + prep') (com + com') j n where
  sequenceID := h.sequenceID
  extends_ := h.extends_
  valid := h.valid
  unreplied := h.unreplied
  stage := h.stage
  prePrepares := by simp only [hS, h.prePrepares]
  prepared := fun hj => h.prepared (hS.1 hj)
  pool := h.pool
  committed := hT.trans h.committed
  committing := fun hj => h.committing (hT.1 hj)
  preparing := fun hj => h.preparing (mt hT.2 hj)
  waiting := h.waiting
  prepares := by
    have := h.prepares
    omega
  commits := by
    have := h.commits
    omega

namespace PbftWorld

/-- What holds in and between the rounds. -/
structure Steady (w : PbftWorld H N) : Prop where
  nodeNums : ∀ i, (w.nodes i).nodeNums = N
  unblocked : ∀ i, (w.nodes i).blocked = none
  storing : ∀ i : Fin N, i.val ≠ 0 → (w.nodes i).storing = 0
  unfiled : ∀ i : Fin N, i.val = 0 → ∀ k, w.proposed.length < k → (w.nodes i).height2Digest k = none
  unseen : ∀ i d, (∀ q ∈ w.proposed, Hashing.getDigest q.2 ≠ d) → (w.nodes i).Unseen d
  below : ∀ q ∈ w.proposed, q.1 ≤ w.proposed.length

/-- The newest proposal is `r`, with block `b`; `S` and `T` are the nodes that have sent their prepare
    and commit messages for it. -/
structure InRound (w : PbftWorld H N) (r : Request H) (b : Block H) (S T : Finset (Fin N)) :
    Prop where
  steady : w.Steady
  newest : Known w.proposed r
  msg : r.msg = .block b
  number : b.header.number = w.proposed.length
  filed : ∀ i : Fin N, i.val = 0 →
    (w.nodes i).height2Digest w.proposed.length = some (Hashing.getDigest r)
  nodes : ∀ i : Fin N,
    Works w.proposed.length r b S T (inFlight w.net i .prePrepare w.proposed.length)
      (inFlight w.net i .prepare w.proposed.length) (inFlight w.net i .commit w.proposed.length) i
      (w.nodes i) ∨ Done w.proposed.length b T (w.nodes i)
  enough : T.Nonempty → quorumOf N ≤ S.card
  net : ∀ p ∈ w.net, p.1 < N ∧ OfRound w.proposed.length r p.2
  few : w.net.length ≤ N + N * S.card + N * T.card

section Deliver

variable {w : PbftWorld H N} {r : Request H} {b : Block H} {S T S' T' : Finset (Fin N)} {i : Fin N}
  {k : ℕ} {m : PbftMsg H} {n : PbftNode H} {msgs : List (ℕ × PbftMsg H)}

theorem Steady.deliver (hw : w.Steady) (hr : Known w.proposed r)
    (hframe : RoundFrame w.proposed.length (Hashing.getDigest r) (w.nodes i) n) (k : ℕ)
    (msgs : List (ℕ × PbftMsg H)) : (w.afterOnce k i n msgs).Steady where
  nodeNums := (forall_nodes_once (p := fun _ m => m.nodeNums = N)).2
    ⟨hframe.nodeNums.trans (hw.nodeNums i), fun j _ => hw.nodeNums j⟩
  unblocked := (forall_nodes_once (p := fun _ m => m.blocked = none)).2
    ⟨hframe.blocked.trans (hw.unblocked i), fun j _ => hw.unblocked j⟩
  storing := (forall_nodes_once (p := fun j m => j.val ≠ 0 → m.storing = 0)).2
    ⟨fun hi => hframe.storing.trans (hw.storing i hi), fun j _ => hw.storing j⟩
  unfiled := by
    refine (forall_nodes_once (p := fun j m => j.val = 0 → ∀ k, w.proposed.length < k →
      m.height2Digest k = none)).2 ⟨fun hi k hk => ?_, fun j _ => hw.unfiled j⟩
    rcases hframe.filed k with hsame | ⟨rfl, -⟩
    · rw [hsame]
      exact hw.unfiled i hi k hk
    · exact absurd hk (lt_irrefl _)
  unseen := by
    refine (forall_nodes_once (p := fun _ m => ∀ d, (∀ q ∈ w.proposed,
      Hashing.getDigest q.2 ≠ d) → m.Unseen d)).2 ⟨fun d hd => ?_, fun j _ => hw.unseen j⟩
    obtain ⟨h, hmem⟩ := hr
    exact hframe.others d (fun he => hd _ hmem he.symm) (hw.unseen i d hd)
  below := hw.below

/-- A delivery keeps the counts, uses up its message, and pays for a broadcast with a place outside
    `S` or `T`. -/
def Proceeds (w w' : PbftWorld H N) (r : Request H) (b : Block H) (S T S' T' : Finset (Fin N)) :
    Prop :=
  w'.InRound r b S' T' ∧ w'.net.length + 1 + N * S.card + N * T.card ≤
    w.net.length + N * S'.card + N * T'.card

/-- **One delivery**, given what it does to the node and to the two sets. -/
theorem InRound.replace (hw : w.InRound r b S T) (hk : w.net[k]? = some (i.val, m))
    (hframe : RoundFrame w.proposed.length (Hashing.getDigest r) (w.nodes i) n)
    (hnode : Works w.proposed.length r b S' T'
        (inFlight (w.net.eraseIdx k ++ msgs) i .prePrepare w.proposed.length)
        (inFlight (w.net.eraseIdx k ++ msgs) i .prepare w.proposed.length)
        (inFlight (w.net.eraseIdx k ++ msgs) i .commit w.proposed.length) i n ∨
      Done w.proposed.length b T' n)
    (hothers : ∀ j ≠ i, (j ∈ S' ↔ j ∈ S) ∧ (j ∈ T' ↔ j ∈ T))
    (hpre : ∀ j : Fin N, inFlight msgs j .prePrepare w.proposed.length = 0)
    (hprep : ∀ j : Fin N, S.card + inFlight msgs j .prepare w.proposed.length = S'.card)
    (hcom : ∀ j : Fin N, T.card + inFlight msgs j .commit w.proposed.length = T'.card)
    (henough : T'.Nonempty → quorumOf N ≤ S'.card)
    (hnet : ∀ p ∈ msgs, p.1 < N ∧ OfRound w.proposed.length r p.2)
    (hlen : msgs.length + N * S.card + N * T.card ≤ N * S'.card + N * T'.card) :
    Proceeds w (w.afterOnce k i n msgs) r b S T S' T' := by
  have hlt : k < w.net.length := (List.getElem?_eq_some_iff.1 hk).1
  have hlen' : (w.afterOnce k i n msgs).net.length + 1 + N * S.card + N * T.card ≤
      w.net.length + N * S'.card + N * T'.card := by
    rw [afterOnce, List.length_append, List.length_eraseIdx_of_lt hlt]
    omega
  have hfew := hw.few
  refine ⟨⟨hw.steady.deliver hw.newest hframe k msgs, hw.newest, hw.msg, hw.number, ?_, ?_, henough,
    ?_, by omega⟩, hlen'⟩
  · refine (forall_nodes_once (p := fun j m => j.val = 0 → m.height2Digest w.proposed.length =
      some (Hashing.getDigest r))).2 ⟨fun hi => ?_, fun j _ => hw.filed j⟩
    rcases hframe.filed w.proposed.length with hsame | ⟨-, hnew⟩
    · rw [hsame]
      exact hw.filed i hi
    · exact hnew
  · refine (forall_nodes_once (p := fun j m => Works w.proposed.length r b S' T'
        (inFlight (w.net.eraseIdx k ++ msgs) j .prePrepare w.proposed.length)
        (inFlight (w.net.eraseIdx k ++ msgs) j .prepare w.proposed.length)
        (inFlight (w.net.eraseIdx k ++ msgs) j .commit w.proposed.length) j m ∨
      Done w.proposed.length b T' m)).2 ⟨hnode, fun j hj => ?_⟩
    -- the message was not for `j`
    have hcount : ∀ c, inFlight (w.net.eraseIdx k ++ msgs) j c w.proposed.length =
        inFlight w.net j c w.proposed.length + inFlight msgs j c w.proposed.length := by
      intro c
      have hne : ¬ (i.val = j.val ∧ m.wave = some (c, w.proposed.length)) := fun h =>
        hj (Fin.ext h.1.symm)
      rw [inFlight_append, inFlight_eraseIdx hk, if_neg hne, Nat.add_zero]
    rcases hw.nodes j with hworks | hdone
    · left
      rw [hcount, hcount, hcount, hpre, Nat.add_zero]
      exact hworks.others (hothers j hj).1 (hothers j hj).2 (hprep j) (hcom j)
    · exact Or.inr ⟨hdone.sequenceID, hdone.stage, hdone.block,
        hdone.enough.trans (hcom j ▸ Nat.le_add_right _ _)⟩
  · intro p hp
    rcases List.mem_append.1 hp with hp | hp
    · exact hw.net p (List.mem_of_mem_eraseIdx hp)
    · exact hnet p hp

/-- A delivery that sends nothing and leaves the sets alone. -/
theorem InRound.replace_silent (hw : w.InRound r b S T) (hk : w.net[k]? = some (i.val, m))
    (hframe : RoundFrame w.proposed.length (Hashing.getDigest r) (w.nodes i) n)
    (hnode : Works w.proposed.length r b S T
        (inFlight (w.net.eraseIdx k) i .prePrepare w.proposed.length)
        (inFlight (w.net.eraseIdx k) i .prepare w.proposed.length)
        (inFlight (w.net.eraseIdx k) i .commit w.proposed.length) i n ∨
      Done w.proposed.length b T n) :
    Proceeds w (w.afterOnce k i n []) r b S T S T := by
  refine hw.replace hk hframe ?_ (fun _ _ => ⟨Iff.rfl, Iff.rfl⟩) (fun _ => rfl) (fun _ => rfl)
    (fun _ => rfl) hw.enough (by simp) (by simp)
  rw [List.append_nil]
  exact hnode

theorem length_toAll {n : PbftNode H} (hN : n.nodeNums = N) (m : PbftMsg H) :
    (n.toAll m).length = N := by
  rw [PbftNode.toAll, List.length_map, List.length_range, hN]

/-- The proposal arrives: the node joins `S`. -/
theorem InRound.deliver_prePrepare (hw : w.InRound r b S T)
    (hk : w.net[k]? = some (i.val, .prePrepare ⟨r, Hashing.getDigest r, w.proposed.length⟩))
    (hworks : Works w.proposed.length r b S T (inFlight w.net i .prePrepare w.proposed.length)
      (inFlight w.net i .prepare w.proposed.length) (inFlight w.net i .commit w.proposed.length) i
      (w.nodes i))
    (hn : (w.nodes i).handlePrePrepare ⟨r, Hashing.getDigest r, w.proposed.length⟩ =
      some (n, msgs)) : ∃ S', Proceeds w (w.afterOnce k i n msgs) r b S T S' T := by
  have hN := hw.steady.nodeNums i
  obtain ⟨rfl, rfl⟩ := hworks.handlePrePrepare (hw.steady.unblocked i) hw.msg hn
  have hpre := inFlight_eraseIdx hk i .prePrepare w.proposed.length
  have hprep := inFlight_eraseIdx hk i .prepare w.proposed.length
  have hcom := inFlight_eraseIdx hk i .commit w.proposed.length
  rw [if_neg (by simp [PbftMsg.wave]), Nat.add_zero] at hprep hcom
  rw [if_pos ⟨rfl, rfl⟩, hworks.prePrepares] at hpre
  -- there was one such message on the way to a node outside `S`
  have hi : i ∉ S := fun hi => by
    rw [if_pos hi] at hpre
    omega
  rw [if_neg hi] at hpre
  have hmsgs := @inFlight_broadcast H _ _ N _ hN
    (.prepare ((w.nodes i).vote (Hashing.getDigest r) w.proposed.length)) .prepare
    w.proposed.length rfl
  refine ⟨insert i S, hw.replace hk (roundFrame_prePrepared _ r _) (Or.inl ?_) ?_
    (fun j => hmsgs j .prePrepare) ?_ (fun j => by rw [hmsgs]; rfl) ?_
    (ofRound_toAll hN ⟨rfl, rfl⟩) ?_⟩
  · have hzero : inFlight (w.net.eraseIdx k) i .prePrepare w.proposed.length = 0 := by omega
    have hstep := hworks.prePrepared hi
    rw [hprep, hcom] at hstep
    rw [inFlight_append, inFlight_append, inFlight_append, hmsgs, hmsgs, hmsgs, hzero]
    exact hstep
  · exact fun j hj => ⟨by simp [hj], Iff.rfl⟩
  · intro j
    rw [hmsgs, Finset.card_insert_of_notMem hi]
    rfl
  · exact fun hT => (hw.enough hT).trans (Finset.card_le_card (Finset.subset_insert _ _))
  · rw [length_toAll hN, Finset.card_insert_of_notMem hi, Nat.mul_add]
    omega

/-- A prepare message arrives: it is counted, or the node joins `T`. -/
theorem InRound.deliver_prepare (hw : w.InRound r b S T) {j₀ : ℕ}
    (hk : w.net[k]? = some (i.val, .prepare ⟨Hashing.getDigest r, w.proposed.length, j₀⟩))
    (hworks : Works w.proposed.length r b S T (inFlight w.net i .prePrepare w.proposed.length)
      (inFlight w.net i .prepare w.proposed.length) (inFlight w.net i .commit w.proposed.length) i
      (w.nodes i))
    (hn : (w.nodes i).handlePrepare ⟨Hashing.getDigest r, w.proposed.length, j₀⟩ = some (n, msgs)) :
    ∃ T', Proceeds w (w.afterOnce k i n msgs) r b S T S T' := by
  have hN := hw.steady.nodeNums i
  have hpre := inFlight_eraseIdx hk i .prePrepare w.proposed.length
  have hprep := inFlight_eraseIdx hk i .prepare w.proposed.length
  have hcom := inFlight_eraseIdx hk i .commit w.proposed.length
  rw [if_neg (by simp [PbftMsg.wave]), Nat.add_zero] at hpre hcom
  rw [if_pos ⟨rfl, rfl⟩] at hprep
  rw [hprep, hpre, hcom] at hworks
  obtain ⟨hframe, ⟨rfl, hworks'⟩ | ⟨hi, rfl, hquorum, hworks'⟩⟩ := hworks.handlePrepare hN hn
  · exact ⟨T, hw.replace_silent hk hframe (Or.inl hworks')⟩
  · have hmsgs := @inFlight_broadcast H _ _ N _ hN
      (.commit ((w.nodes i).vote (Hashing.getDigest r) w.proposed.length)) .commit
      w.proposed.length rfl
    refine ⟨insert i T, hw.replace hk hframe (Or.inl ?_) ?_ (fun j => hmsgs j .prePrepare)
      (fun j => by rw [hmsgs]; rfl) ?_ (fun _ => hquorum) (ofRound_toAll hN ⟨rfl, rfl⟩) ?_⟩
    · rw [inFlight_append, inFlight_append, inFlight_append, hmsgs, hmsgs, hmsgs]
      exact hworks'
    · exact fun j hj => ⟨Iff.rfl, by simp [hj]⟩
    · intro j
      rw [hmsgs, Finset.card_insert_of_notMem hi]
      rfl
    · rw [length_toAll hN, Finset.card_insert_of_notMem hi, Nat.mul_add]
      omega

/-- **A delivery in a round.** -/
theorem InRound.deliver (hw : w.InRound r b S T) (hk : w.net[k]? = some (i.val, m))
    (hn : (w.nodes i).handleMessage m = some (n, msgs)) (halive : n.alive = true) :
    ∃ S' T', Proceeds w (w.afterOnce k i n msgs) r b S T S' T' := by
  have hround := (hw.net _ (List.mem_of_getElem? hk)).2
  rcases hw.nodes i with hworks | hdone
  · cases m with
    | prePrepare m =>
      obtain rfl : m = ⟨r, Hashing.getDigest r, w.proposed.length⟩ := hround
      obtain ⟨S', h⟩ := hw.deliver_prePrepare hk hworks hn
      exact ⟨S', T, h⟩
    | prepare m =>
      obtain ⟨d, seqID, j₀⟩ := m
      obtain ⟨rfl, rfl⟩ : d = Hashing.getDigest r ∧ seqID = w.proposed.length := hround
      obtain ⟨T', h⟩ := hw.deliver_prepare hk hworks hn
      exact ⟨S, T', h⟩
    | commit m =>
      obtain ⟨d, seqID, j₀⟩ := m
      obtain ⟨rfl, rfl⟩ : d = Hashing.getDigest r ∧ seqID = w.proposed.length := hround
      have hpre := inFlight_eraseIdx hk i .prePrepare w.proposed.length
      have hprep := inFlight_eraseIdx hk i .prepare w.proposed.length
      have hcom := inFlight_eraseIdx hk i .commit w.proposed.length
      rw [if_neg (by simp [PbftMsg.wave]), Nat.add_zero] at hpre hprep
      rw [if_pos ⟨rfl, rfl⟩] at hcom
      rw [hprep, hpre, hcom] at hworks
      obtain ⟨hframe, rfl, hnode⟩ := hworks.handleCommit (hw.steady.nodeNums i) hw.msg hn halive
      exact ⟨S, T, hw.replace_silent hk hframe hnode⟩
    | _ => exact absurd hround (by simp [OfRound])
  · -- what the node has executed is over for it
    obtain ⟨hold, -⟩ := PbftNode.handleMessage_old (hw.steady.unblocked i) hround.seqID
      (by rw [hdone.sequenceID]; omega)
    rw [hold] at hn
    obtain ⟨rfl, rfl⟩ := Prod.mk.inj (Option.some.inj hn)
    refine ⟨S, T, hw.replace_silent hk ?_ (Or.inr hdone)⟩
    exact ⟨rfl, rfl, rfl, fun _ => Or.inl rfl, fun _ _ h => h⟩

end Deliver

/-! ## A settled shard -/

/-- Between two rounds: nothing is in flight and all nodes are in the same place. -/
structure Level (w : PbftWorld H N) (c : Block H) : Prop where
  steady : w.Steady
  net : w.net = []
  stored : ∀ i, (w.nodes i).storing = 0
  number : c.header.number = w.proposed.length
  sequenceID : ∀ i, (w.nodes i).sequenceID = w.proposed.length + 1
  stage : ∀ i, (w.nodes i).pbftStage = 1
  block : ∀ i, (w.nodes i).curChain.currentBlock = c

section Settle

variable {w : PbftWorld H N} {r : Request H} {b : Block H} {S T : Finset (Fin N)} {i : Fin N}

/-- No message of a kind is in flight to a node whose handlers for it can run. -/
theorem Settled.inFlight_eq_zero (hset : w.Settled) {c : Wave} {s : ℕ}
    (hruns : ∀ m : PbftMsg H, m.wave = some (c, s) → ((w.nodes i).handleMessage m).isNone = false) :
    inFlight w.net i c s = 0 := by
  refine List.countP_eq_zero.2 fun p hp hm => ?_
  obtain ⟨hi, hwave⟩ := of_decide_eq_true hm
  obtain ⟨d, m⟩ := p
  obtain rfl : i.val = d := hi.symm
  have hnone := hset.1 _ hp i.isLt
  rw [hruns m hwave] at hnone
  exact absurd hnone (by simp)

/-- A node without the block has handled all there is to handle: it has sent its prepare messages and
    counted everybody's; and if it has sent its commit messages, it has counted everybody's. -/
theorem InRound.counted (hw : w.InRound r b S T) (hset : w.Settled)
    (hworks : Works w.proposed.length r b S T (inFlight w.net i .prePrepare w.proposed.length)
      (inFlight w.net i .prepare w.proposed.length) (inFlight w.net i .commit w.proposed.length) i
      (w.nodes i)) :
    i ∈ S ∧ (i ∉ T → S.card < quorumOf N) ∧ (i ∈ T → T.card < quorumOf N) := by
  have hb := hw.steady.unblocked i
  have hpre : inFlight w.net i .prePrepare w.proposed.length = 0 := by
    refine hset.inFlight_eq_zero fun m hm => ?_
    cases m with
    | prePrepare m => exact PbftNode.handlePrePrepare_runs hb hworks.stage
    | _ => exact absurd hm (by simp [PbftMsg.wave])
  have hi : i ∈ S := by
    by_contra hi
    have hone := hworks.prePrepares
    rw [hpre, if_neg hi] at hone
    exact absurd hone (by simp)
  refine ⟨hi, fun hT => ?_, fun hT => ?_⟩
  · have hprep : inFlight w.net i .prepare w.proposed.length = 0 := by
      refine hset.inFlight_eq_zero fun m hm => ?_
      cases m with
      | prepare m => exact PbftNode.handlePrepare_runs hb (hworks.prepared hi)
      | _ => exact absurd hm (by simp [PbftMsg.wave])
    have hcount := hworks.prepares
    rw [hprep, Nat.zero_add] at hcount
    exact hcount ▸ hworks.preparing hT
  · have hcom : inFlight w.net i .commit w.proposed.length = 0 := by
      refine hset.inFlight_eq_zero fun m hm => ?_
      cases m with
      | commit m => exact PbftNode.handleCommit_runs hb (hworks.committing hT)
      | _ => exact absurd hm (by simp [PbftMsg.wave])
    have hcount := hworks.commits
    rw [hcom, Nat.zero_add] at hcount
    exact hcount ▸ hworks.waiting

/-- **A settled shard has executed its round.** -/
theorem InRound.done (hw : w.InRound r b S T) (hset : w.Settled) (i : Fin N) :
    Done w.proposed.length b T (w.nodes i) := by
  refine (hw.nodes i).resolve_left fun hworks => ?_
  have hquorum := quorumOf_le i
  -- too few commit messages for anyone leave everyone without the block
  have hnobody : T.card < quorumOf N → ∀ j, j ∈ S ∧ (j ∉ T → S.card < quorumOf N) := by
    intro hfew j
    rcases hw.nodes j with hj | hj
    · obtain ⟨hS, hprep, -⟩ := hw.counted hset hj
      exact ⟨hS, hprep⟩
    · exact absurd hj.enough (by omega)
  have hfew : T.card < quorumOf N := by
    obtain ⟨-, hprep, hcom⟩ := hw.counted hset hworks
    by_cases hi : i ∈ T
    · exact hcom hi
    · have hnone : ¬ T.Nonempty := fun hne => absurd (hw.enough hne) (by have := hprep hi; omega)
      rw [Finset.not_nonempty_iff_eq_empty.1 hnone, Finset.card_empty, quorumOf]
      omega
  have hS : S = Finset.univ := Finset.eq_univ_of_forall fun j => (hnobody hfew j).1
  have hT : T = Finset.univ := by
    refine Finset.eq_univ_of_forall fun j => ?_
    by_contra hj
    have hlt := (hnobody hfew j).2 hj
    rw [hS, Finset.card_univ, Fintype.card_fin] at hlt
    omega
  rw [hT, Finset.card_univ, Fintype.card_fin] at hfew
  omega

theorem InRound.level (hw : w.InRound r b S T) (hset : w.Settled) : w.Level b where
  steady := hw.steady
  net := by
    refine List.eq_nil_iff_forall_not_mem.2 fun p hp => ?_
    obtain ⟨d, m⟩ := p
    obtain ⟨hd, hround⟩ := hw.net _ hp
    have hdone := hw.done hset ⟨d, hd⟩
    obtain ⟨hold, -⟩ := PbftNode.handleMessage_old (hw.steady.unblocked ⟨d, hd⟩) hround.seqID
      (by rw [hdone.sequenceID]; omega)
    have hnone := hset.1 _ hp hd
    rw [hold] at hnone
    exact absurd hnone (by simp)
  stored := hset.2
  number := hw.number
  sequenceID := fun i => (hw.done hset i).sequenceID
  stage := fun i => (hw.done hset i).stage
  block := fun i => (hw.done hset i).block

end Settle

/-! ## The other actions -/

/-- The step has nothing to do with the round. -/
structure Aside (n n' : PbftNode H) : Prop where
  round : (n'.sequenceID, n'.curChain.currentBlock, n'.isReply, n'.pbftStage, n'.requestPool,
      n'.isCommitBordcast, n'.cntPrepareConfirm, n'.cntCommitConfirm) =
    (n.sequenceID, n.curChain.currentBlock, n.isReply, n.pbftStage, n.requestPool,
      n.isCommitBordcast, n.cntPrepareConfirm, n.cntCommitConfirm)
  rest : (n'.nodeNums, n'.blocked, n'.storing, n'.height2Digest) =
    (n.nodeNums, n.blocked, n.storing, n.height2Digest)

section Other

variable {w : PbftWorld H N} {r : Request H} {b c : Block H} {S T : Finset (Fin N)} {i : Fin N}
  {n : PbftNode H}

theorem Steady.update (hw : w.Steady)
    (hrest : (n.nodeNums, n.blocked, n.height2Digest) =
      ((w.nodes i).nodeNums, (w.nodes i).blocked, (w.nodes i).height2Digest))
    (hcounts : (n.isReply, n.isCommitBordcast, n.cntPrepareConfirm, n.cntCommitConfirm) =
      ((w.nodes i).isReply, (w.nodes i).isCommitBordcast, (w.nodes i).cntPrepareConfirm,
        (w.nodes i).cntCommitConfirm))
    (hstoring : i.val ≠ 0 → n.storing = 0) : (w.after i n none []).Steady := by
  simp only [Prod.mk.injEq] at hrest hcounts
  obtain ⟨hN, hb, hfiled⟩ := hrest
  obtain ⟨hreply, hcommit, hprep, hcom⟩ := hcounts
  refine ⟨?_, ?_, ?_, ?_, ?_, hw.below⟩
  · exact (forall_nodes_after (p := fun _ m => m.nodeNums = N)).2
      ⟨hN.trans (hw.nodeNums i), fun j _ => hw.nodeNums j⟩
  · exact (forall_nodes_after (p := fun _ m => m.blocked = none)).2
      ⟨hb.trans (hw.unblocked i), fun j _ => hw.unblocked j⟩
  · exact (forall_nodes_after (p := fun j m => j.val ≠ 0 → m.storing = 0)).2
      ⟨hstoring, fun j _ => hw.storing j⟩
  · refine (forall_nodes_after (p := fun j m => j.val = 0 → ∀ k, w.proposed.length < k →
      m.height2Digest k = none)).2 ⟨?_, fun j _ => hw.unfiled j⟩
    rw [hfiled]
    exact hw.unfiled i
  · refine (forall_nodes_after (p := fun _ m => ∀ d, (∀ q ∈ w.proposed,
      Hashing.getDigest q.2 ≠ d) → m.Unseen d)).2 ⟨fun d hd => ?_, fun j _ => hw.unseen j⟩
    obtain ⟨h₁, h₂, h₃, h₄⟩ := hw.unseen i d hd
    exact ⟨by rw [hprep, h₁], by rw [hcom, h₂], by rw [hcommit, h₃], by rw [hreply, h₄]⟩

theorem Steady.aside (hw : w.Steady) (h : Aside (w.nodes i) n) : (w.after i n none []).Steady := by
  obtain ⟨hround, hrest⟩ := h
  simp only [Prod.mk.injEq] at hround hrest
  obtain ⟨-, -, hreply, -, -, hcommit, hprep, hcom⟩ := hround
  obtain ⟨hN, hb, hstoring, hfiled⟩ := hrest
  refine hw.update ?_ ?_ fun hi => hstoring.trans (hw.storing i hi)
  · rw [hN, hb, hfiled]
  · rw [hreply, hcommit, hprep, hcom]

/-- A step beside the round, or one that only touches the stage. -/
theorem InRound.update (hw : w.InRound r b S T) (hsteady : (w.after i n none []).Steady)
    (hfiled : n.height2Digest = (w.nodes i).height2Digest)
    (hworks : ∀ {pre prep com : ℕ}, Works w.proposed.length r b S T pre prep com i (w.nodes i) →
      Works w.proposed.length r b S T pre prep com i n)
    (hdone : Done w.proposed.length b T (w.nodes i) → Done w.proposed.length b T n) :
    (w.after i n none []).InRound r b S T := by
  have hnet : (w.after i n none []).net = w.net := List.append_nil _
  refine ⟨hsteady, hw.newest, hw.msg, hw.number, ?_, ?_, hw.enough, hnet ▸ hw.net, ?_⟩
  · refine (forall_nodes_after (p := fun j m => j.val = 0 → m.height2Digest w.proposed.length =
      some (Hashing.getDigest r))).2 ⟨?_, fun j _ => hw.filed j⟩
    rw [hfiled]
    exact hw.filed i
  · rw [hnet]
    exact (forall_nodes_after (p := fun j m => Works w.proposed.length r b S T
        (inFlight w.net j .prePrepare w.proposed.length)
        (inFlight w.net j .prepare w.proposed.length) (inFlight w.net j .commit w.proposed.length)
        j m ∨ Done w.proposed.length b T m)).2
      ⟨(hw.nodes i).imp hworks hdone, fun j _ => hw.nodes j⟩
  · rw [hnet]
    exact hw.few

theorem InRound.aside (hw : w.InRound r b S T) (h : Aside (w.nodes i) n) :
    (w.after i n none []).InRound r b S T := by
  have hround := h.round
  have hrest := h.rest
  simp only [Prod.mk.injEq] at hround hrest
  refine hw.update (hw.steady.aside h) hrest.2.2.2 (fun hworks => hworks.congr h.round) ?_
  intro hdone
  exact ⟨hround.1.trans hdone.sequenceID, hround.2.2.2.1.trans hdone.stage,
    hround.2.1.trans hdone.block, hdone.enough⟩

theorem Level.aside (hw : w.Level c) (h : Aside (w.nodes i) n) :
    (w.after i n none []).Level c := by
  have hround := h.round
  have hrest := h.rest
  simp only [Prod.mk.injEq] at hround hrest
  refine ⟨hw.steady.aside h, ?_, ?_, hw.number, ?_, ?_, ?_⟩
  · exact (List.append_nil _).trans hw.net
  · exact (forall_nodes_after (p := fun _ m => m.storing = 0)).2
      ⟨hrest.2.2.1.trans (hw.stored i), fun j _ => hw.stored j⟩
  · exact (forall_nodes_after (p := fun _ m => m.sequenceID = w.proposed.length + 1)).2
      ⟨hround.1.trans (hw.sequenceID i), fun j _ => hw.sequenceID j⟩
  · exact (forall_nodes_after (p := fun _ m => m.pbftStage = 1)).2
      ⟨hround.2.2.2.1.trans (hw.stage i), fun j _ => hw.stage j⟩
  · exact (forall_nodes_after (p := fun _ m => m.curChain.currentBlock = c)).2
      ⟨hround.2.1.trans (hw.block i), fun j _ => hw.block j⟩

/-- The leader's store, in time: its proposal is not executed and its commit message not sent. -/
theorem InRound.storeStage (hw : w.InRound r b S T) (hstoring : 0 < (w.nodes i).storing)
    (hmain : (w.nodes i).isMain = true ↔ i.val = 0)
    (hpool : i.val = 0 → (w.nodes i).requestPool (Hashing.getDigest r) = some r)
    (htime : w.StoresInTime (.storeStage i)) :
    (w.after i { w.nodes i with storing := (w.nodes i).storing - 1, pbftStage := 2 } none
      []).InRound r b S T := by
  have hi : i.val = 0 := by
    by_contra hi
    exact absurd (hw.steady.storing i hi) (by omega)
  obtain ⟨hout, hpending⟩ := htime (hmain.2 hi)
  refine hw.update (hw.steady.update rfl rfl fun hne => absurd hi hne) rfl ?_ ?_
  · intro pre prep com h
    have hT : i ∉ T := fun hT => hpending ⟨_, h.sequenceID ▸ hw.filed i hi, h.committed.1 hT,
      h.unreplied⟩
    exact ⟨h.sequenceID, h.extends_, h.valid, h.unreplied, (by decide : 1 ≤ 2), h.prePrepares,
      fun _ => le_rfl, fun _ => hpool hi, h.committed, fun hT' => absurd hT' hT, h.preparing,
      h.waiting, h.prepares, h.commits⟩
  · intro hdone
    -- nothing is proposed for the round after
    rw [PbftNode.Outstanding, hdone.sequenceID] at hout
    exact absurd (hw.steady.unfiled i hi _ (Nat.lt_succ_self _)) hout

/-- A node at the start of a round, with the proposal on its way. -/
theorem works_at_start {s : ℕ} {n : PbftNode H} (hseq : n.sequenceID = s) (hstage : n.pbftStage = 1)
    (hext : n.curChain.Extends b) (hvalid : n.curChain.isValidBlock b = true)
    (hunseen : n.Unseen (Hashing.getDigest r)) (i : Fin N) : Works s r b ∅ ∅ 1 0 0 i n where
  sequenceID := hseq
  extends_ := hext
  valid := hvalid
  unreplied := hunseen.replied
  stage := hstage.ge
  prePrepares := rfl
  prepared := fun hi => absurd hi (Finset.notMem_empty i)
  pool := fun h => absurd h (by omega)
  committed := iff_of_false (Finset.notMem_empty i) (by simp [hunseen.committed])
  committing := fun hi => absurd hi (Finset.notMem_empty i)
  preparing := fun _ => by
    rw [hunseen.prepares, quorumOf]
    exact Nat.succ_pos _
  waiting := by
    rw [hunseen.commits, quorumOf]
    exact Nat.succ_pos _
  prepares := by rw [hunseen.prepares]; rfl
  commits := by rw [hunseen.commits]; rfl

/-- The leader's proposal opens the next round. -/
theorem Level.propose (hw : w.Level c) {bc : BlockChain H} {now reqTime : ℕ}
    (hi : i.val = 0)
    (hgen : (w.nodes i).curChain.generateBlock (w.nodes i).nodeID now = some (bc, b))
    (hr : r = ⟨.block b, reqTime⟩)
    (hnew : ∀ q ∈ w.proposed, Hashing.getDigest q.2 ≠ Hashing.getDigest r)
    (hn : n = { (w.nodes i).putRequest (w.nodes i).sequenceID r with
      curChain := bc
      proposing := (w.nodes i).proposing - 1
      storing := (w.nodes i).storing + 1 }) :
    (w.after i n (some r) ((w.nodes i).toAll
      (.prePrepare ⟨r, Hashing.getDigest r, (w.nodes i).sequenceID⟩))).InRound r b ∅ ∅ := by
  obtain ⟨rt, hexec, hb⟩ := BlockChain.generateBlockOf_cases hgen
  have hblock : bc.currentBlock = c :=
    (BlockChain.sameFiles_getUpdateStatusTrie hexec).block.trans (hw.block i)
  have hheight : (w.nodes i).curChain.height = w.proposed.length := by
    rw [BlockChain.height, hw.block i, hw.number]
  have hnumber : b.header.number = w.proposed.length + 1 := by
    rw [hb, ← hheight]
    rfl
  have hparent : b.header.parentBlockHash = c.hash := by
    rw [hb, ← hw.block i]
    rfl
  -- every node is at the block that the proposal builds on
  have hext : ∀ bc' : BlockChain H, bc'.currentBlock = c → bc'.Extends b := fun bc' hbc' => by
    rw [BlockChain.Extends, BlockChain.height, hbc', hw.number]
    exact ⟨hnumber, hparent⟩
  have hvalid : ∀ bc' : BlockChain H, bc'.currentBlock = c → bc'.isValidBlock b = true :=
    fun bc' hbc' => by
      rw [BlockChain.isValidBlock, hbc', hparent, hb]
      simp [BlockChain.sealBlock]
  have hseq := hw.sequenceID i
  subst hn
  rw [hseq]
  have hnet := @inFlight_broadcast H _ _ N _ (hw.steady.nodeNums i)
    (.prePrepare ⟨r, Hashing.getDigest r, w.proposed.length + 1⟩) .prePrepare
    (w.proposed.length + 1) rfl
  refine ⟨⟨?_, ?_, ?_, ?_, ?_, ?_⟩, ⟨_, List.mem_cons_self⟩, by rw [hr], hnumber, ?_, ?_,
    fun h => absurd h (by simp), ?_, ?_⟩
  · exact (forall_nodes_after (p := fun _ m => m.nodeNums = N)).2
      ⟨hw.steady.nodeNums i, fun j _ => hw.steady.nodeNums j⟩
  · exact (forall_nodes_after (p := fun _ m => m.blocked = none)).2
      ⟨hw.steady.unblocked i, fun j _ => hw.steady.unblocked j⟩
  · exact (forall_nodes_after (p := fun j m => j.val ≠ 0 → m.storing = 0)).2
      ⟨fun hne => absurd hi hne, fun j _ => hw.steady.storing j⟩
  · refine (forall_nodes_after (p := fun j m => j.val = 0 → ∀ k, w.proposed.length + 1 < k →
      m.height2Digest k = none)).2 ⟨fun _ k hk => ?_, fun j _ hj k hk => ?_⟩
    · exact (Function.update_of_ne hk.ne' _ _).trans (hw.steady.unfiled i hi k (by omega))
    · exact hw.steady.unfiled j hj k (by omega)
  · refine (forall_nodes_after (p := fun _ m => ∀ d, (∀ q ∈ (w.height i + 1, r) :: w.proposed,
      Hashing.getDigest q.2 ≠ d) → m.Unseen d)).2 ⟨fun d hd => ?_, fun j _ d hd => ?_⟩
    · obtain ⟨h₁, h₂, h₃, h₄⟩ := hw.steady.unseen i d (List.forall_mem_cons.1 hd).2
      exact ⟨h₁, h₂, h₃, h₄⟩
    · exact hw.steady.unseen j d (List.forall_mem_cons.1 hd).2
  · refine List.forall_mem_cons.2 ⟨?_, fun q hq => (hw.steady.below q hq).trans (Nat.le_succ _)⟩
    exact (congrArg (· + 1) hheight).le
  · refine (forall_nodes_after (p := fun j m => j.val = 0 → m.height2Digest (w.proposed.length + 1) =
      some (Hashing.getDigest r))).2 ⟨fun _ => Function.update_self .., fun j hj hj0 => ?_⟩
    exact absurd (Fin.ext (hj0.trans hi.symm)) hj
  · show ∀ j : Fin N, Works (w.proposed.length + 1) r b ∅ ∅
        (inFlight (w.net ++ _) j .prePrepare (w.proposed.length + 1))
        (inFlight (w.net ++ _) j .prepare (w.proposed.length + 1))
        (inFlight (w.net ++ _) j .commit (w.proposed.length + 1)) j _ ∨ Done _ b ∅ _
    rw [hw.net, List.nil_append]
    simp only [hnet]
    refine (forall_nodes_after (p := fun j m => Works (w.proposed.length + 1) r b ∅ ∅ 1 0 0 j m ∨
      Done (w.proposed.length + 1) b ∅ m)).2 ⟨Or.inl ?_, fun j _ => Or.inl ?_⟩
    · obtain ⟨h₁, h₂, h₃, h₄⟩ := hw.steady.unseen i _ hnew
      refine works_at_start ?_ ?_ ?_ ?_ ?_ i
      · exact hseq
      · exact hw.stage i
      · exact hext bc hblock
      · exact hvalid bc hblock
      · exact ⟨h₁, h₂, h₃, h₄⟩
    · exact works_at_start (hw.sequenceID j) (hw.stage j) (hext _ (hw.block j))
        (hvalid _ (hw.block j)) (hw.steady.unseen j _ hnew) j
  · show ∀ p ∈ w.net ++ _, p.1 < N ∧ OfRound (w.proposed.length + 1) r p.2
    rw [hw.net, List.nil_append]
    exact ofRound_toAll (hw.steady.nodeNums i) rfl
  · show (w.net ++ _).length ≤ _
    rw [hw.net, List.nil_append, length_toAll (hw.steady.nodeNums i)]
    simp

end Other

/-! ## Patient runs -/

theorem handleMessage_view {n n' : PbftNode H} {m : PbftMsg H} {msgs : List (ℕ × PbftMsg H)}
    (h : n.handleMessage m = some (n', msgs)) {s : ℕ} {r : Request H} (hm : OfRound s r m) :
    n'.view = n.view := by
  cases m with
  | prePrepare m =>
    rcases PbftNode.handlePrePrepare_cases h with
      ⟨rfl, -⟩ | ⟨rfl, -⟩ | ⟨-, rfl, -⟩ | ⟨-, rfl, -⟩ <;> rfl
  | prepare m =>
    obtain ⟨_, _, _, rfl, -⟩ := PbftNode.handlePrepare_cases h
    rfl
  | commit m =>
    obtain ⟨c, ⟨rfl, -⟩ | ⟨-, rfl, -⟩ | ⟨-, hask⟩ | ⟨r, -, rfl, -⟩⟩ := PbftNode.handleCommit_cases h
    · rfl
    · rfl
    · obtain ⟨rfl, -⟩ := Prod.mk.inj hask
      obtain ⟨_, _, heq⟩ := PbftNode.endRound_frame { n with
        cntCommitConfirm := c
        isReply := Function.update n.isReply m.digest true
        askForLock := true }
      have hview := congrArg PbftNode.view heq
      exact hview
    · obtain ⟨_, _, _, _, _, _, heq⟩ :=
        PbftNode.executeRequest_frame { n with cntCommitConfirm := c } m.digest r
      rw [heq]
  | _ => exact absurd hm (by simp [OfRound])

/-- Handlers of a round's messages install no view. -/
theorem keepsViews_of_round {w : PbftWorld H N} (hb : ∀ i, (w.nodes i).blocked = none)
    (hnet : ∀ p ∈ w.net, ∃ s r, OfRound s r p.2) (a : PbftAct N) : w.KeepsViews a := by
  intro w' hstep
  obtain ⟨i, n, r, msgs, hact, -, rfl⟩ := step_cases hstep
  refine (forall_nodes_after (p := fun j m => m.view = (w.nodes j).view)).2 ⟨?_, fun _ _ => rfl⟩
  cases hact with
  | resume hblocked =>
    rw [hb i] at hblocked
    exact absurd hblocked (by simp)
  | deliver hk hm =>
    obtain ⟨_, _, hround⟩ := hnet _ (List.mem_of_getElem? hk)
    exact handleMessage_view hm hround
  | _ => rfl

theorem SingleView.stepOnce {w w' : PbftWorld H N} {a : PbftAct N} (hsv : SingleView w)
    (hkeep : ∀ a, w.KeepsViews a) (h : w.stepOnce a = some w') : SingleView w' := by
  rcases stepOnce_cases h with ⟨i, k, m, n, msgs, rfl, -, -, -, hstep, rfl⟩ | ⟨-, hstep⟩
  · obtain ⟨hstacked, hnodes, hnet⟩ := hsv.step (hkeep _) hstep
    refine ⟨hstacked, hnodes, fun p hp => hnet p ?_⟩
    exact append_subset_append List.eraseIdx_subset msgs hp
  · exact hsv.step (hkeep _) hstep

/-- A process that has ended stays so. -/
theorem dead_of_stepOnce {w w' : PbftWorld H N} {a : PbftAct N} (h : w.stepOnce a = some w')
    {j : Fin N} (hj : (w.nodes j).alive = false) : (w'.nodes j).alive = false := by
  have hne : ∀ {i : Fin N}, (w.nodes i).alive = true → j ≠ i := by
    rintro i hi rfl
    rw [hj] at hi
    exact absurd hi (by simp)
  rcases stepOnce_cases h with ⟨i, k, m, n, msgs, -, -, -, halive, -, rfl⟩ | ⟨-, hstep⟩
  · show (Function.update w.nodes i n j).alive = false
    rw [Function.update_of_ne (hne halive)]
    exact hj
  · obtain ⟨i, n, r, msgs, -, halive, rfl⟩ := step_cases hstep
    show (Function.update w.nodes i n j).alive = false
    rw [Function.update_of_ne (hne halive)]
    exact hj

/-- The shard is in view 0, and between two rounds or in one. -/
inductive Patiently (w : PbftWorld H N) : Prop
  | level {c : Block H} : SingleView w → w.Level c → Patiently w
  | inRound {r : Request H} {b : Block H} {S T : Finset (Fin N)} : SingleView w → w.InRound r b S T →
      Patiently w

section Step

variable {w w' : PbftWorld H N} {r : Request H} {b c : Block H} {S T : Finset (Fin N)} {a : PbftAct N}

/-- The steps of the routines beside a round. -/
theorem aside_of_acts {i : Fin N} {n : PbftNode H} {req : Option (Request H)}
    {msgs : List (ℕ × PbftMsg H)} (hact : w.Acts i a n req msgs) (hpat : w.Patient a)
    (hb : (w.nodes i).blocked = none) (hdeliver : ∀ k, a ≠ .deliver k)
    (hpropose : ∀ j partition now reqTime, a ≠ .propose j partition now reqTime) :
    req = none ∧ msgs = [] ∧ (Aside (w.nodes i) n ∨ a = .storeStage i ∧
      n = { w.nodes i with storing := (w.nodes i).storing - 1, pbftStage := 2 }) := by
  cases hact with
  | outside => exact ⟨rfl, rfl, Or.inl ⟨rfl, rfl⟩⟩
  | roundSignal => exact ⟨rfl, rfl, Or.inl ⟨rfl, rfl⟩⟩
  | takeSignal => exact ⟨rfl, rfl, Or.inl ⟨rfl, rfl⟩⟩
  | lockSequence => exact ⟨rfl, rfl, Or.inl ⟨rfl, rfl⟩⟩
  | storeStage => exact ⟨rfl, rfl, Or.inr ⟨rfl, rfl⟩⟩
  | proposePanics => exact absurd rfl (hpropose _ _ _ _)
  | propose => exact absurd rfl (hpropose _ _ _ _)
  | resume hblocked =>
    rw [hb] at hblocked
    exact absurd hblocked (by simp)
  | timeout => exact absurd hpat (by simp [Patient])
  | deliver => exact absurd rfl (hdeliver _)

theorem storing_of_step {i : Fin N} (h : w.step (.storeStage i) = some w') :
    0 < (w.nodes i).storing := by
  by_contra hzero
  have hnone : w.step (.storeStage i) = none := by
    simp only [PbftWorld.step, act, PbftNode.storeStage, if_neg hzero, Option.map_none]
  exact absurd (h.symm.trans hnone) (by simp)

theorem InRound.keepsViews (hw : w.InRound r b S T) (a : PbftAct N) : w.KeepsViews a :=
  keepsViews_of_round hw.steady.unblocked (fun p hp => ⟨_, _, (hw.net p hp).2⟩) a

theorem Level.keepsViews (hw : w.Level c) (a : PbftAct N) : w.KeepsViews a :=
  keepsViews_of_round hw.steady.unblocked (by simp [hw.net]) a

/-- **A step within a round**, other than a proposal: a delivery proceeds, the rest stays. -/
theorem InRound.step (hsv : SingleView w) (hw : w.InRound r b S T) (hpat : w.Patient a)
    (hpropose : ∀ j partition now reqTime, a ≠ .propose j partition now reqTime)
    (h : w.stepOnce a = some w') (halive : ∀ i, (w'.nodes i).alive = true) :
    ∃ S' T', Proceeds w w' r b S T S' T' ∨
      (∀ k, a ≠ .deliver k) ∧ w'.net = w.net ∧ w'.InRound r b S T := by
  rcases stepOnce_cases h with ⟨i, k, m, n, msgs, rfl, hk, hn, -, -, rfl⟩ | ⟨hdeliver, hstep⟩
  · have hlive : n.alive = true := by
      have hi := halive i
      rw [show (w.afterOnce k i n msgs).nodes i = n from Function.update_self ..] at hi
      exact hi
    obtain ⟨S', T', hproceeds⟩ := hw.deliver hk hn hlive
    exact ⟨S', T', Or.inl hproceeds⟩
  · obtain ⟨i, n, req, msgs, hact, -, rfl⟩ := step_cases hstep
    obtain ⟨rfl, rfl, haside⟩ := aside_of_acts hact hpat (hw.steady.unblocked i) hdeliver hpropose
    refine ⟨S, T, Or.inr ⟨hdeliver, List.append_nil _, ?_⟩⟩
    rcases haside with haside | ⟨rfl, rfl⟩
    · exact hw.aside haside
    · have hok := hsv.nodes i
      exact hw.storeStage (storing_of_step hstep) hok.isMain_iff
        (fun hi => (hok.leader hi).pool r hw.newest) hpat

/-- Between two rounds only the routines beside them can step, until the next proposal. -/
theorem Level.step (hw : w.Level c) (hpat : w.Patient a)
    (hpropose : ∀ j partition now reqTime, a ≠ .propose j partition now reqTime)
    (h : w.stepOnce a = some w') : (∀ k, a ≠ .deliver k) ∧ w'.Level c := by
  rcases stepOnce_cases h with ⟨i, k, m, n, msgs, rfl, hk, -⟩ | ⟨hdeliver, hstep⟩
  · rw [hw.net] at hk
    exact absurd hk (by simp)
  · obtain ⟨i, n, req, msgs, hact, -, rfl⟩ := step_cases hstep
    obtain ⟨rfl, rfl, haside⟩ := aside_of_acts hact hpat (hw.steady.unblocked i) hdeliver hpropose
    refine ⟨hdeliver, ?_⟩
    rcases haside with haside | ⟨rfl, rfl⟩
    · exact hw.aside haside
    · exact absurd (hw.stored i) (storing_of_step hstep).ne'

/-- A proposal that does not end the process opens a round. -/
theorem Level.step_propose (hsv : SingleView w) (hw : w.Level c) {j : Fin N}
    {partition : Option AccountTransferMsg} {now reqTime : ℕ}
    (h : w.stepOnce (.propose j partition now reqTime) = some w')
    (halive : ∀ i, (w'.nodes i).alive = true) : ∃ r b, w'.InRound r b ∅ ∅ := by
  obtain ⟨i, n, req, msgs, hact, hlive, rfl⟩ := step_cases h
  have hok := hsv.nodes i
  cases hact with
  | proposePanics =>
    have hj := halive j
    rw [show (w.after j _ none []).nodes j = (w.nodes j).crash from Function.update_self ..] at hj
    exact absurd hj (by simp [PbftNode.crash])
  | propose hprop hpart hreq =>
    obtain ⟨hj, -, hbelow, -⟩ := hok.idle_of_proposing hlive hprop
    obtain ⟨b, rfl, hgen⟩ := hok.generates_block hpart hreq
    refine ⟨_, b, hw.propose hj hgen rfl ?_ rfl⟩
    -- a request of the same digest would be the same block, above all that was proposed
    intro q hq hdigest
    have hsame : q.2 = ⟨.block b, reqTime⟩ := Hashing.getDigest_injective hdigest
    obtain ⟨b₁, hb₁, hnum⟩ := hsv.stacked.block q hq
    rw [hsame] at hb₁
    obtain rfl := RequestMsg.block.inj hb₁
    have hle := hbelow q hq
    have hnext := ((PbftNode.handleinPropose_spec hreq).2 b rfl).1.1
    omega

/-- **A patient step** leaves the shard in a round or between two, unless it ends a process. -/
theorem Patiently.step (hw : Patiently w) (hpat : w.Patient a) (h : w.stepOnce a = some w')
    (halive : ∀ i, (w'.nodes i).alive = true) : Patiently w' := by
  by_cases hpropose : ∀ j partition now reqTime, a ≠ .propose j partition now reqTime
  · cases hw with
    | level hsv hlevel =>
      exact .level (hsv.stepOnce hlevel.keepsViews h) (hlevel.step hpat hpropose h).2
    | inRound hsv hround =>
      have hsv' := hsv.stepOnce hround.keepsViews h
      obtain ⟨S', T', hproceeds | ⟨-, -, hround'⟩⟩ := hround.step hsv hpat hpropose h halive
      · exact .inRound hsv' hproceeds.1
      · exact .inRound hsv' hround'
  · simp only [not_forall, not_not] at hpropose
    obtain ⟨j, partition, now, reqTime, rfl⟩ := hpropose
    -- the shard has settled, so it is between two rounds
    obtain ⟨c, hsv, hlevel⟩ : ∃ c, SingleView w ∧ w.Level c := by
      cases hw with
      | level hsv hlevel => exact ⟨_, hsv, hlevel⟩
      | inRound hsv hround => exact ⟨_, hsv, hround.level hpat⟩
    obtain ⟨r, b, hround⟩ := hlevel.step_propose hsv h halive
    exact .inRound (hsv.stepOnce hlevel.keepsViews h) hround

end Step

theorem patiently_init {cc : ChainConfig} {db : TrieDB H} {bc : BlockChain H}
    (hnew : BlockChain.newBlockChain cc Storage.empty db = some bc) {ht : HandleType}
    (hht : ht.partitions = false) : Patiently (init N ht bc) := by
  obtain rfl := Option.some.inj hnew
  refine .level (c := BlockChain.newGenisisBlock) (singleView_init hht _) ⟨⟨?_, ?_, ?_, ?_, ?_, ?_⟩,
    rfl, fun _ => rfl, rfl, fun _ => rfl, fun _ => rfl, fun _ => rfl⟩
  · exact fun _ => rfl
  · exact fun _ => rfl
  · exact fun _ _ => rfl
  · exact fun _ _ _ _ => rfl
  · exact fun _ _ _ => ⟨rfl, rfl, rfl, rfl⟩
  · exact fun _ hq => absurd hq (by simp [init])

/-- The state of every patient run whose processes are all running. -/
theorem patiently_of_run {cc : ChainConfig} {db : TrieDB H} {bc : BlockChain H}
    (hnew : BlockChain.newBlockChain cc Storage.empty db = some bc) {ht : HandleType}
    (hht : ht = .relay ∨ ht = .broker) {w : PbftWorld H N}
    (hrun : ReachesUnder stepOnce Patient (init N ht bc) w)
    (halive : ∀ i, (w.nodes i).alive = true) : Patiently w := by
  have hpart : ht.partitions = false := by rcases hht with rfl | rfl <;> rfl
  have hinv : (∃ i, (w.nodes i).alive = false) ∨ Patiently w := by
    refine hrun.invariant (I := fun w => (∃ i, (w.nodes i).alive = false) ∨ Patiently w)
      (Or.inr (patiently_init hnew hpart)) ?_
    rintro w a w' hw hpat hstep
    by_cases hlive : ∀ i, (w'.nodes i).alive = true
    · rcases hw with ⟨i, hi⟩ | hw
      · exact absurd (hlive i) (by simp [dead_of_stepOnce hstep hi])
      · exact Or.inr (hw.step hpat hstep hlive)
    · obtain ⟨i, hi⟩ := not_forall.1 hlive
      exact Or.inl ⟨i, Bool.eq_false_iff.2 hi⟩
  refine hinv.resolve_left ?_
  rintro ⟨i, hi⟩
  exact absurd (halive i) (by simp [hi])

/-- **No round gets stuck.** With the raw relay or raw broker module, in every patient run, whenever
    the shard has settled with all its processes running, no message is left and every node has
    executed every proposal: all are at the same block, one for each proposal, in stage 1 of the next
    round, and the leader may propose again. -/
theorem settled_rounds_complete {cc : ChainConfig} {db : TrieDB H} {bc : BlockChain H}
    (hnew : BlockChain.newBlockChain cc Storage.empty db = some bc) {ht : HandleType}
    (hht : ht = .relay ∨ ht = .broker) {w : PbftWorld H N}
    (hrun : ReachesUnder stepOnce Patient (init N ht bc) w)
    (halive : ∀ i, (w.nodes i).alive = true) (hset : w.Settled) :
    w.net = [] ∧ ∃ c : Block H, ∀ i, (w.nodes i).curChain.currentBlock = c ∧
      w.height i = w.proposed.length ∧ (w.nodes i).sequenceID = w.proposed.length + 1 ∧
      (w.nodes i).pbftStage = 1 ∧
      ((w.nodes i).isMain = true → (w.nodes i).proposing = 0 →
        (w.nodes i).sequenceLock = false) := by
  obtain ⟨c, hsv, hlevel⟩ : ∃ c, SingleView w ∧ w.Level c := by
    cases patiently_of_run hnew hht hrun halive with
    | level hsv hlevel => exact ⟨_, hsv, hlevel⟩
    | inRound hsv hround => exact ⟨_, hsv, hround.level hset⟩
  refine ⟨hlevel.net, c, fun i => ?_⟩
  have hheight : w.height i = w.proposed.length := by
    rw [height, BlockChain.height, hlevel.block i, hlevel.number]
  refine ⟨hlevel.block i, hheight, hlevel.sequenceID i, hlevel.stage i, fun hmain hzero => ?_⟩
  have hok := hsv.nodes i
  cases (hok.leader (hok.isMain_iff.1 hmain)).phase (halive i) with
  | idle _ _ hlock =>
    rw [hzero] at hlock
    by_contra hheld
    rw [if_pos (by simpa using hheld)] at hlock
    exact absurd hlock (by simp)
  | outstanding hlog _ _ _ _ _ _ =>
    -- the newest proposal has the height of the chain
    have hle := hlevel.steady.below _ (hlog ▸ List.mem_cons_self)
    have hcur : (w.nodes i).curChain.height = w.proposed.length := hheight
    omega

/-! ## How long a round can take -/

def isDeliver : PbftAct N → Bool
  | .deliver _ => true
  | _ => false

def isPropose : PbftAct N → Bool
  | .propose _ _ _ _ => true
  | _ => false

theorem isDeliver_eq_false {a : PbftAct N} (h : ∀ k, a ≠ .deliver k) : isDeliver a = false := by
  cases a with
  | deliver k => exact absurd rfl (h k)
  | _ => rfl

theorem ne_propose {a : PbftAct N} (h : isPropose a = false) (j : Fin N)
    (partition : Option AccountTransferMsg) (now reqTime : ℕ) : a ≠ .propose j partition now reqTime := by
  rintro rfl
  exact absurd h (by simp [isPropose])

theorem dead_of_run {w w' : PbftWorld H N} {as : List (PbftAct N)}
    {p : PbftWorld H N → PbftAct N → Bool} (h : runChecked stepOnce p w as = some w') {j : Fin N}
    (hj : (w.nodes j).alive = false) : (w'.nodes j).alive = false := by
  induction as generalizing w with
  | nil =>
    obtain rfl := Option.some.inj h
    exact hj
  | cons a as ih =>
    rw [runChecked] at h
    split at h
    · obtain ⟨w₁, hstep, hrest⟩ := Option.bind_eq_some_iff.1 h
      exact ih hrest (dead_of_stepOnce hstep hj)
    · exact absurd h (by simp)

theorem alive_of_run {w w' : PbftWorld H N} {as : List (PbftAct N)}
    {p : PbftWorld H N → PbftAct N → Bool} (h : runChecked stepOnce p w as = some w')
    (halive : ∀ i, (w'.nodes i).alive = true) (i : Fin N) : (w.nodes i).alive = true := by
  by_contra hdead
  have hend := dead_of_run h (Bool.eq_false_iff.2 hdead)
  exact absurd (halive i) (by simp [hend])

/-- Each delivery uses up a message, and the messages that are yet to be sent are those of the nodes
    outside `S` and `T`. -/
theorem InRound.deliveries_le {as : List (PbftAct N)} {w w' : PbftWorld H N} {r : Request H}
    {b : Block H} {S T : Finset (Fin N)} (hsv : SingleView w) (hw : w.InRound r b S T)
    (h : runChecked stepOnce (fun w a => decide (w.Patient a)) w as = some w')
    (has : ∀ a ∈ as, isPropose a = false) (halive : ∀ i, (w'.nodes i).alive = true) :
    as.countP isDeliver + N * S.card + N * T.card ≤ w.net.length + 2 * N * N := by
  induction as generalizing w S T with
  | nil =>
    have hS : N * S.card ≤ N * N := Nat.mul_le_mul_left N (card_finset_fin_le S)
    have hT : N * T.card ≤ N * N := Nat.mul_le_mul_left N (card_finset_fin_le T)
    rw [List.countP_nil, Nat.mul_assoc]
    omega
  | cons a as ih =>
    rw [runChecked] at h
    split at h
    · next hpat =>
        obtain ⟨w₁, hstep, hrest⟩ := Option.bind_eq_some_iff.1 h
        obtain ⟨ha, has'⟩ := List.forall_mem_cons.1 has
        have hlive := alive_of_run hrest halive
        have hsv₁ := hsv.stepOnce hw.keepsViews hstep
        rw [List.countP_cons]
        obtain ⟨S', T', ⟨hw₁, hlen⟩ | ⟨hdeliver, hnet, hw₁⟩⟩ :=
          hw.step hsv (of_decide_eq_true hpat) (ne_propose ha) hstep hlive
        · have hrec := ih hsv₁ hw₁ hrest has'
          have hone : (if isDeliver a = true then 1 else 0) ≤ 1 := by split <;> simp
          omega
        · have hrec := ih hsv₁ hw₁ hrest has'
          rw [hnet] at hrec
          rw [isDeliver_eq_false hdeliver, if_neg (by simp)]
          omega
    · exact absurd h (by simp)

/-- Between two rounds nothing is delivered. -/
theorem Level.deliveries_eq_zero {as : List (PbftAct N)} {w w' : PbftWorld H N} {c : Block H}
    (hw : w.Level c) (h : runChecked stepOnce (fun w a => decide (w.Patient a)) w as = some w')
    (has : ∀ a ∈ as, isPropose a = false) : as.countP isDeliver = 0 := by
  induction as generalizing w with
  | nil => rfl
  | cons a as ih =>
    rw [runChecked] at h
    split at h
    · next hpat =>
        obtain ⟨w₁, hstep, hrest⟩ := Option.bind_eq_some_iff.1 h
        obtain ⟨ha, has'⟩ := List.forall_mem_cons.1 has
        obtain ⟨hdeliver, hw₁⟩ := hw.step (of_decide_eq_true hpat) (ne_propose ha) hstep
        rw [List.countP_cons, ih hw₁ hrest has', if_neg (by simp [isDeliver_eq_false hdeliver])]
    · exact absurd h (by simp)

/-- **A round is short.** From every state of a patient run, at most `2 * N * N + N` messages are
    handled before the next proposal: each node gets one proposal, and one prepare and one commit
    message from each node. -/
theorem deliveries_between_proposals {cc : ChainConfig} {db : TrieDB H} {bc : BlockChain H}
    (hnew : BlockChain.newBlockChain cc Storage.empty db = some bc) {ht : HandleType}
    (hht : ht = .relay ∨ ht = .broker) {w w' : PbftWorld H N}
    (hrun : ReachesUnder stepOnce Patient (init N ht bc) w) {as : List (PbftAct N)}
    (has : ∀ a ∈ as, isPropose a = false)
    (hcont : runChecked stepOnce (fun w a => decide (w.Patient a)) w as = some w')
    (halive : ∀ i, (w'.nodes i).alive = true) : as.countP isDeliver ≤ 2 * N * N + N := by
  cases patiently_of_run hnew hht hrun (alive_of_run hcont halive) with
  | level _ hlevel =>
    rw [hlevel.deliveries_eq_zero hcont has]
    exact Nat.zero_le _
  | inRound hsv hround =>
    have hle := hround.deliveries_le hsv hcont has halive
    have hfew := hround.few
    omega

section Sample

open BlockChain

set_option maxRecDepth 100000

/-- The leader of four nodes proposes a block with a transfer and stores its stage. -/
def openRound : List (PbftAct 4) :=
  let leader : Fin 4 := ⟨0, by decide⟩
  [.outside leader ⟨[transfer 5], ∅⟩, .roundSignal leader, .takeSignal leader, .lockSequence leader,
    .propose leader none 0 0, .storeStage leader]

/-- All messages are delivered in the order they were sent in. -/
theorem first_round_settles :
    ∃ w, ReachesUnder stepOnce Patient (init 4 .relay sampleGenesis) w ∧ w.proposed.length = 1 ∧
      w.net = [] ∧ ∃ c : Block SymHash, ∀ i, (w.nodes i).curChain.currentBlock = c ∧
        w.height i = w.proposed.length ∧ (w.nodes i).sequenceID = w.proposed.length + 1 ∧
        (w.nodes i).pbftStage = 1 ∧
        ((w.nodes i).isMain = true → (w.nodes i).proposing = 0 →
          (w.nodes i).sequenceLock = false) := by
  have hrun : ∃ w ∈ runChecked stepOnce (fun w a => decide (w.Patient a))
      (init 4 .relay sampleGenesis) (openRound ++ List.replicate 36 (.deliver 0)),
      w.proposed.length = 1 ∧ (∀ i, (w.nodes i).alive = true) ∧ w.Settled := by decide +kernel
  obtain ⟨w, hw, hone, halive, hset⟩ := hrun
  have hreach := reachesUnder_of_runDecided hw
  exact ⟨w, hreach, hone,
    settled_rounds_complete newBlockChain_sample (Or.inl rfl) hreach halive hset⟩

/-- With four nodes all 36 messages that a round can have are handled. -/
theorem first_round_deliveries :
    ∃ w w', ReachesUnder stepOnce Patient (init 4 .relay sampleGenesis) w ∧
      runChecked stepOnce (fun w a => decide (w.Patient a)) w (List.replicate 36 (.deliver 0)) =
        some w' ∧
      (List.replicate 36 (.deliver 0) : List (PbftAct 4)).countP isDeliver ≤ 2 * 4 * 4 + 4 := by
  have hopen : ∃ w ∈ runChecked stepOnce (fun w a => decide (w.Patient a))
      (init 4 .relay sampleGenesis) openRound,
      ∃ w' ∈ runChecked stepOnce (fun w a => decide (w.Patient a)) w
        (List.replicate 36 (.deliver 0)), ∀ i, (w'.nodes i).alive = true := by decide +kernel
  obtain ⟨w, hw, w', hw', halive⟩ := hopen
  have hreach := reachesUnder_of_runDecided hw
  exact ⟨w, w', hreach, hw', deliveries_between_proposals newBlockChain_sample (Or.inl rfl) hreach
    (by decide) hw' halive⟩

end Sample

end PbftWorld

end BlockEmulator
