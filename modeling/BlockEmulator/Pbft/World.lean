import BlockEmulator.Pbft.Node
import BlockEmulator.Lib.Run

set_option autoImplicit false

/-! # A shard of PBFT nodes

`N` nodes and a network that keeps every message ever sent: a delivery may happen at any time, in any
order and more than once. A handler runs as one step. Between its steps a node's routines may signal,
take the lock, propose and time out, and messages from outside the shard may change its pool in any
way. -/

namespace BlockEmulator

variable {H : Type} [DecidableEq H] [Hashing H] {N : ℕ}

/-- The state of a shard. `proposed` is the history of proposals, newest first, each with the height
    after the proposer's chain. -/
structure PbftWorld (H : Type) [DecidableEq H] [Hashing H] (N : ℕ) where
  nodes : Fin N → PbftNode H
  net : List (ℕ × PbftMsg H)
  proposed : List (ℕ × Request H)

inductive PbftAct (N : ℕ) where
  | outside (i : Fin N) (pool : TxPool)
  | roundSignal (i : Fin N)
  | takeSignal (i : Fin N)
  | lockSequence (i : Fin N)
  | propose (i : Fin N) (partition : Option AccountTransferMsg) (now reqTime : ℕ)
  | storeStage (i : Fin N)
  | resume (i : Fin N)
  | timeout (i : Fin N)
  | deliver (k : ℕ)

namespace PbftWorld

/-- `N` new nodes over the same chain. -/
def init (N : ℕ) (ht : HandleType) (bc : BlockChain H) : PbftWorld H N where
  nodes := fun i => .newPbftNode i N ht bc
  net := []
  proposed := []

def height (w : PbftWorld H N) (i : Fin N) : ℕ := (w.nodes i).curChain.height

/-- What one action does: which node acts, its new state, what it proposes and what it sends. -/
def act (w : PbftWorld H N) :
    PbftAct N → Option (Fin N × PbftNode H × Option (Request H) × List (ℕ × PbftMsg H))
  | .outside i pool =>
    some (i, { w.nodes i with curChain := { (w.nodes i).curChain with txpool := pool } }, none, [])
  | .roundSignal i => (w.nodes i).roundSignal.map fun n => (i, n, none, [])
  | .takeSignal i => (w.nodes i).takeSignal.map fun n => (i, n, none, [])
  | .lockSequence i => (w.nodes i).lockSequence.map fun n => (i, n, none, [])
  | .propose i partition now reqTime =>
    ((w.nodes i).propose partition now reqTime).map fun p => (i, p)
  | .storeStage i => (w.nodes i).storeStage.map fun n => (i, n, none, [])
  | .resume i => (w.nodes i).resume.map fun p => (i, p.1, none, p.2)
  | .timeout i => some (i, (w.nodes i).viewChangePropose.1, none, (w.nodes i).viewChangePropose.2)
  | .deliver k =>
    match w.net[k]? with
    | none => none
    | some (d, m) =>
      if hd : d < N then ((w.nodes ⟨d, hd⟩).handleMessage m).map fun p => (⟨d, hd⟩, p.1, none, p.2)
      else none

/-- What node `i` can do in one action, and under which condition. -/
inductive Acts (w : PbftWorld H N) (i : Fin N) :
    PbftAct N → PbftNode H → Option (Request H) → List (ℕ × PbftMsg H) → Prop
  | outside (pool : TxPool) :
      Acts w i (.outside i pool)
        { w.nodes i with curChain := { (w.nodes i).curChain with txpool := pool } } none []
  | roundSignal : Acts w i (.roundSignal i) { w.nodes i with signalled := true } none []
  | takeSignal :
      Acts w i (.takeSignal i)
        { w.nodes i with
          signalled := false
          waiting := if (w.nodes i).isMain then (w.nodes i).waiting + 1 else (w.nodes i).waiting }
        none []
  | lockSequence : 0 < (w.nodes i).waiting → (w.nodes i).sequenceLock = false →
      Acts w i (.lockSequence i)
        { w.nodes i with
          waiting := (w.nodes i).waiting - 1
          proposing := (w.nodes i).proposing + 1
          sequenceLock := true } none []
  | proposePanics {partition : Option AccountTransferMsg} {now reqTime : ℕ} :
      0 < (w.nodes i).proposing →
      (partition.isSome = true → (w.nodes i).handleType.partitions = true) →
      Acts w i (.propose i partition now reqTime) (w.nodes i).crash none []
  | propose {partition : Option AccountTransferMsg} {now reqTime : ℕ} {bc : BlockChain H}
      {r : Request H} : 0 < (w.nodes i).proposing →
      (partition.isSome = true → (w.nodes i).handleType.partitions = true) →
      (w.nodes i).handleinPropose partition now reqTime = some (bc, r) →
      Acts w i (.propose i partition now reqTime)
        { (w.nodes i).putRequest (w.nodes i).sequenceID r with
          curChain := bc
          proposing := (w.nodes i).proposing - 1
          storing := (w.nodes i).storing + 1 }
        (some r)
        ((w.nodes i).toAll (.prePrepare ⟨r, Hashing.getDigest r, (w.nodes i).sequenceID⟩))
  | storeStage :
      Acts w i (.storeStage i)
        { w.nodes i with storing := (w.nodes i).storing - 1, pbftStage := 2 } none []
  | resume {m : Vote H} : (w.nodes i).blocked = some m →
      Acts w i (.resume i) ({ w.nodes i with blocked := none }.askForOld m).1 none
        ({ w.nodes i with blocked := none }.askForOld m).2
  | timeout :
      Acts w i (.timeout i) (w.nodes i).viewChangePropose.1 none (w.nodes i).viewChangePropose.2
  | deliver {k : ℕ} {m : PbftMsg H} {n : PbftNode H} {msgs : List (ℕ × PbftMsg H)} :
      w.net[k]? = some (i.val, m) → (w.nodes i).handleMessage m = some (n, msgs) →
      Acts w i (.deliver k) n none msgs

/-- An action is one of these. -/
theorem acts_of_act {w : PbftWorld H N} {a : PbftAct N} {i : Fin N} {n : PbftNode H}
    {r : Option (Request H)} {msgs : List (ℕ × PbftMsg H)} (h : w.act a = some (i, n, r, msgs)) :
    w.Acts i a n r msgs := by
  cases a with
  | outside j pool =>
    simp only [act, Option.some.injEq, Prod.mk.injEq] at h
    obtain ⟨rfl, rfl, rfl, rfl⟩ := h
    exact .outside pool
  | roundSignal j =>
    simp only [act, PbftNode.roundSignal, Option.map_eq_some_iff, Option.ite_none_right_eq_some,
      Option.some.injEq, Prod.mk.injEq] at h
    obtain ⟨n₀, ⟨-, rfl⟩, rfl, rfl, rfl, rfl⟩ := h
    exact .roundSignal
  | takeSignal j =>
    simp only [act, PbftNode.takeSignal, Option.map_eq_some_iff, Option.ite_none_right_eq_some,
      Option.some.injEq, Prod.mk.injEq] at h
    obtain ⟨n₀, ⟨-, rfl⟩, rfl, rfl, rfl, rfl⟩ := h
    exact .takeSignal
  | lockSequence j =>
    simp only [act, PbftNode.lockSequence, Option.map_eq_some_iff, Option.ite_none_right_eq_some,
      Option.some.injEq, Prod.mk.injEq, Bool.and_eq_true, decide_eq_true_eq,
      Bool.not_eq_true'] at h
    obtain ⟨n₀, ⟨⟨hw, hl⟩, rfl⟩, rfl, rfl, rfl, rfl⟩ := h
    exact .lockSequence hw hl
  | propose j partition now reqTime =>
    obtain ⟨⟨n₀, r₀, ms⟩, hn, heq⟩ := Option.map_eq_some_iff.1 h
    simp only [Prod.mk.injEq] at heq
    obtain ⟨rfl, rfl, rfl, rfl⟩ := heq
    obtain ⟨hp, hpart, ⟨rfl, rfl, rfl⟩ | ⟨bc, req, hreq, rfl, rfl, rfl⟩⟩ :=
      PbftNode.propose_cases hn
    · exact .proposePanics hp hpart
    · exact .propose hp hpart hreq
  | storeStage j =>
    simp only [act, PbftNode.storeStage, Option.map_eq_some_iff, Option.ite_none_right_eq_some,
      Option.some.injEq, Prod.mk.injEq] at h
    obtain ⟨n₀, ⟨-, rfl⟩, rfl, rfl, rfl, rfl⟩ := h
    exact .storeStage
  | resume j =>
    obtain ⟨⟨n₀, ms⟩, hn, heq⟩ := Option.map_eq_some_iff.1 h
    simp only [Prod.mk.injEq] at heq
    obtain ⟨rfl, rfl, rfl, rfl⟩ := heq
    unfold PbftNode.resume at hn
    split at hn
    · next m hm =>
        simp only [Option.ite_none_left_eq_some, Option.some.injEq] at hn
        obtain ⟨-, hask⟩ := hn
        obtain ⟨rfl, rfl⟩ := Prod.mk.inj hask
        exact .resume hm
    · exact absurd hn (by simp)
  | timeout j =>
    simp only [act, Option.some.injEq, Prod.mk.injEq] at h
    obtain ⟨rfl, rfl, rfl, rfl⟩ := h
    exact .timeout
  | deliver k =>
    simp only [act] at h
    split at h
    · exact absurd h (by simp)
    next d m hk =>
    split at h
    · obtain ⟨⟨n₀, ms⟩, hn, heq⟩ := Option.map_eq_some_iff.1 h
      simp only [Prod.mk.injEq] at heq
      obtain ⟨rfl, rfl, rfl, rfl⟩ := heq
      exact .deliver hk hn
    · exact absurd h (by simp)

/-- The shard after node `i` has acted. -/
def after (w : PbftWorld H N) (i : Fin N) (n : PbftNode H) (r : Option (Request H))
    (msgs : List (ℕ × PbftMsg H)) : PbftWorld H N where
  nodes := Function.update w.nodes i n
  net := w.net ++ msgs
  proposed := (r.map fun r => (w.height i + 1, r)).toList ++ w.proposed

theorem forall_nodes_after {w : PbftWorld H N} {i : Fin N} {n : PbftNode H} {r : Option (Request H)}
    {msgs : List (ℕ × PbftMsg H)} {p : Fin N → PbftNode H → Prop} :
    (∀ j, p j ((w.after i n r msgs).nodes j)) ↔ p i n ∧ ∀ j, j ≠ i → p j (w.nodes j) :=
  Function.forall_update_iff w.nodes p

/-- One step; a node whose process has ended takes none. -/
def step (w : PbftWorld H N) (a : PbftAct N) : Option (PbftWorld H N) :=
  match w.act a with
  | none => none
  | some (i, n, r, msgs) =>
    if (w.nodes i).alive then some (w.after i n r msgs) else none

theorem step_cases {w w' : PbftWorld H N} {a : PbftAct N} (h : w.step a = some w') :
    ∃ i n r msgs, w.Acts i a n r msgs ∧ (w.nodes i).alive = true ∧ w' = w.after i n r msgs := by
  unfold step at h
  split at h
  · exact absurd h (by simp)
  · next i n r msgs hact =>
      split at h
      · next halive => exact ⟨i, n, r, msgs, acts_of_act hact, halive, (Option.some.inj h).symm⟩
      · exact absurd h (by simp)

end PbftWorld

end BlockEmulator
