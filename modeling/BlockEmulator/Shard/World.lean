import BlockEmulator.Shard.Leader
import BlockEmulator.Lib.Run

set_option autoImplicit false

/-! # Shards and their supervisor

`S` shards, each seen through its leader, and the supervisor that injects a dataset and, with the
CLPA module, sends new partition maps. A message in flight is delivered once, at any time and in any
order. Inside a shard the committed requests are those the leader proposes, one after the other; that
all its nodes then hold the same blocks is the subject of the PBFT modules.

The world also keeps what each shard's committed blocks have done: the transactions that were debited,
credited, recorded as bets and relayed. -/

namespace BlockEmulator

variable {H : Type} [DecidableEq H] [Hashing H] {S : ℕ}

/-- What the committed blocks of a shard have done, transaction by transaction. -/
structure ShardLog where
  debited : List Transaction := []
  credited : List Transaction := []
  recorded : List Transaction := []
  relayed : List Transaction := []

structure ShardWorld (H : Type) [DecidableEq H] [Hashing H] (S : ℕ) where
  leaders : Fin S → Leader H
  net : List (ℕ × ShardMsg)
  /-- The dataset as far as the supervisor has not sent it. -/
  remaining : List Transaction
  /-- The supervisor's own map of the accounts that were moved. -/
  modifiedMap : ShardMap
  log : Fin S → ShardLog

inductive ShardAct (S : ℕ) where
  | txSending (count : ℕ)
  | clpaMapSend (m : ShardMap)
  | deliver (k : ℕ)
  | proposeBlock (i : Fin S) (now : ℕ)
  | sendPartitionReady (i : Fin S)
  | sendAccountsAndTxs (i : Fin S) (order : List Address)
  | proposePartition (i : Fin S) (shards : List ℕ) (addrs : List Address)
  | commit (i : Fin S)

/-! ## What a block does -/

namespace BlockChain

/-- The transactions of a block for which `p` holds at their turn, on the current accounts. -/
def atTurnOf (bc : BlockChain H) (p : ExecCtx → Accounts → Transaction → Bool) (b : Block H) :
    List Transaction :=
  match bc.accounts with
  | none => []
  | some st => if bc.Extends b then atTurn p bc.ctx 0 b.body ⟨st, bc.g2eBook, 0⟩ else []

/-- The transactions a main node relays after adding a block. -/
def relayedTxs (bc : BlockChain H) (body : List Transaction) : List Transaction :=
  (body.filter fun tx => bc.getPartitionMap tx.recipient ≠ bc.chainConfig.shardID).map fun tx =>
    { tx with relayed := true }

end BlockChain

/-- The log after the chain `bc` has got a block; the relaying happens only if the process survives
    its checks. -/
def ShardLog.add (log : ShardLog) (bc : BlockChain H) (b : Block H) (survives : Bool) :
    ShardLog where
  debited := log.debited ++ bc.atTurnOf debits b
  credited := log.credited ++ bc.atTurnOf credits b
  recorded := log.recorded ++ bc.atTurnOf accepts b
  relayed := log.relayed ++ if survives then bc.relayedTxs b.body else []

namespace ShardWorld

/-- New leaders, one for each shard, and a supervisor that has sent nothing. -/
def init (bc : Fin S → BlockChain H) (dataset : List Transaction) : ShardWorld H S where
  leaders := fun i => .new (bc i)
  net := []
  remaining := dataset
  modifiedMap := ∅
  log := fun _ => {}

/-- `fetchModifiedMap`; without partitions this is `Addr2Shard`. -/
def fetchModifiedMap (w : ShardWorld H S) (key : Address) : ℕ :=
  (w.modifiedMap.lookup key).getD (addr2Shard S key)

/-- One batch of `txSending`: an `InjectTxs` message to every shard. -/
def txSending (w : ShardWorld H S) (count : ℕ) : ShardWorld H S :=
  let batch := w.remaining.take count
  { w with
    net := w.net ++ (List.range S).map fun sid =>
      (sid, .injectTxs (batch.filter fun tx => w.fetchModifiedMap tx.sender = sid))
    remaining := w.remaining.drop count }

/-- `clpaMapSend`, and the update of the supervisor's map. -/
def clpaMapSend (w : ShardWorld H S) (m : ShardMap) : ShardWorld H S :=
  { w with
    net := w.net ++ (List.range S).map fun sid => (sid, .partitionModifiedMap m)
    modifiedMap := m ∪ w.modifiedMap }

/-- Leader `i` has acted. -/
def after (w : ShardWorld H S) (i : Fin S) (n : Leader H) (msgs : List (ℕ × ShardMsg)) :
    ShardWorld H S :=
  { w with leaders := Function.update w.leaders i n, net := w.net ++ msgs }

/-- Message `k` has reached leader `i`. -/
def receive (ht : HandleType) (w : ShardWorld H S) (k : ℕ) (i : Fin S) (m : ShardMsg) :
    ShardWorld H S :=
  { w with
    leaders := Function.update w.leaders i ((w.leaders i).handleMessageOutsidePBFT ht m)
    net := w.net.eraseIdx k }

/-- The block proposed by leader `i` is committed. -/
def commitBlock (w : ShardWorld H S) (i : Fin S) (b : Block H) : ShardWorld H S :=
  let n := w.leaders i
  let r := n.commitBlock b
  { w.after i r.1 r.2 with
    log := Function.update w.log i
      (if n.curChain.addBlock b = none then w.log i else (w.log i).add n.curChain b r.1.alive) }

theorem commitBlock_log (w : ShardWorld H S) (i j : Fin S) (b : Block H) :
    (w.commitBlock i b).log j =
      if j = i ∧ (w.leaders i).curChain.addBlock b ≠ none then
        (w.log i).add (w.leaders i).curChain b ((w.leaders i).commitBlock b).1.alive
      else w.log j := by
  simp only [commitBlock, Function.update_apply]
  by_cases hj : j = i
  · subst hj
    by_cases hadd : (w.leaders j).curChain.addBlock b = none <;> simp [hadd]
  · simp [hj]

/-- What leader `i` does when it is scheduled. -/
def act (ht : HandleType) (w : ShardWorld H S) (i : Fin S) : ShardAct S → Option (ShardWorld H S)
  | .proposeBlock _ now =>
    match (w.leaders i).phase with
    -- a pending partition goes first
    | .idle =>
      if (w.leaders i).cdm.partitionOn then none
      else some (w.after i ((w.leaders i).proposeBlock now) [])
    | _ => none
  | .sendPartitionReady _ =>
    match (w.leaders i).phase with
    | .idle =>
      if ht.partitions && (w.leaders i).cdm.partitionOn then
        some (w.after i (w.leaders i).sendPartitionReady.1 (w.leaders i).sendPartitionReady.2)
      else none
    | _ => none
  | .sendAccountsAndTxs _ order =>
    match (w.leaders i).phase with
    | .waitReady =>
      if (w.leaders i).getPartitionReady then
        ((w.leaders i).sendAccountsAndTxs order).map fun r => w.after i r.1 r.2
      else none
    | _ => none
  | .proposePartition _ shards addrs =>
    match (w.leaders i).phase with
    | .waitCollect =>
      if (w.leaders i).cdm.collectOver then
        ((w.leaders i).proposePartition shards addrs).map fun n => w.after i n []
      else none
    | _ => none
  | .commit _ =>
    match (w.leaders i).phase with
    -- the shard's nodes have agreed on the request
    | .proposed (.block b) => some (w.commitBlock i b)
    | .proposed (.partition atm) => some (w.after i ((w.leaders i).commitPartition atm) [])
    | _ => none
  | _ => none

/-- One step; a leader whose process has ended takes none. -/
def step (ht : HandleType) (w : ShardWorld H S) (a : ShardAct S) : Option (ShardWorld H S) :=
  match a with
  | .txSending count => some (w.txSending count)
  | .clpaMapSend m => if ht.partitions then some (w.clpaMapSend m) else none
  | .deliver k =>
    match w.net[k]? with
    | none => none
    | some (d, m) =>
      if hd : d < S then
        if (w.leaders ⟨d, hd⟩).alive then some (w.receive ht k ⟨d, hd⟩ m) else none
      else none
  | .proposeBlock i _ => if (w.leaders i).alive then w.act ht i a else none
  | .sendPartitionReady i => if (w.leaders i).alive then w.act ht i a else none
  | .sendAccountsAndTxs i _ => if (w.leaders i).alive then w.act ht i a else none
  | .proposePartition i _ _ => if (w.leaders i).alive then w.act ht i a else none
  | .commit i => if (w.leaders i).alive then w.act ht i a else none

/-! ## What a step can do -/

/-- The steps of the world, each with its condition. -/
inductive Steps (ht : HandleType) (w : ShardWorld H S) : ShardAct S → ShardWorld H S → Prop
  | txSending (count : ℕ) : Steps ht w (.txSending count) (w.txSending count)
  | clpaMapSend (m : ShardMap) : ht.partitions = true →
      Steps ht w (.clpaMapSend m) (w.clpaMapSend m)
  | deliver {k : ℕ} {i : Fin S} {m : ShardMsg} : w.net[k]? = some (i.val, m) →
      (w.leaders i).alive = true → Steps ht w (.deliver k) (w.receive ht k i m)
  | proposePanics {i : Fin S} {now : ℕ} :
      (w.leaders i).curChain.generateBlock 0 now = none →
      Steps ht w (.proposeBlock i now) (w.after i (w.leaders i).crash [])
  | proposeBlock {i : Fin S} {now : ℕ} {bc : BlockChain H} {b : Block H} :
      (w.leaders i).alive = true → (w.leaders i).phase = .idle →
      (w.leaders i).curChain.generateBlock 0 now = some (bc, b) →
      Steps ht w (.proposeBlock i now)
        (w.after i { w.leaders i with curChain := bc, phase := .proposed (.block b) } [])
  | sendPartitionReady {i : Fin S} : ht.partitions = true → (w.leaders i).phase = .idle →
      (w.leaders i).cdm.partitionOn = true →
      Steps ht w (.sendPartitionReady i)
        (w.after i (w.leaders i).sendPartitionReady.1 (w.leaders i).sendPartitionReady.2)
  | sendAccountsAndTxs {i : Fin S} {order : List Address} {n : Leader H}
      {msgs : List (ℕ × ShardMsg)} : (w.leaders i).phase = .waitReady →
      (w.leaders i).sendAccountsAndTxs order = some (n, msgs) →
      Steps ht w (.sendAccountsAndTxs i order) (w.after i n msgs)
  | proposePartition {i : Fin S} {shards : List ℕ} {addrs : List Address} {n : Leader H} :
      (w.leaders i).phase = .waitCollect → (w.leaders i).cdm.collectOver = true →
      (w.leaders i).proposePartition shards addrs = some n →
      Steps ht w (.proposePartition i shards addrs) (w.after i n [])
  | commitBlock {i : Fin S} {b : Block H} : (w.leaders i).alive = true →
      (w.leaders i).phase = .proposed (.block b) → Steps ht w (.commit i) (w.commitBlock i b)
  | commitPartition {i : Fin S} {atm : AccountTransferMsg} :
      (w.leaders i).phase = .proposed (.partition atm) →
      Steps ht w (.commit i) (w.after i ((w.leaders i).commitPartition atm) [])

theorem steps_of_step {ht : HandleType} {w w' : ShardWorld H S} {a : ShardAct S}
    (h : w.step ht a = some w') : w.Steps ht a w' := by
  cases a with
  | txSending count => exact Option.some.inj h ▸ .txSending count
  | clpaMapSend m =>
    obtain ⟨hht, ⟨⟩⟩ := Option.ite_none_right_eq_some.1 h
    exact .clpaMapSend m hht
  | deliver k =>
    simp only [step] at h
    split at h
    · exact absurd h (by simp)
    next d m hk =>
    split at h
    · next hd =>
        obtain ⟨halive, ⟨⟩⟩ := Option.ite_none_right_eq_some.1 h
        exact .deliver hk halive
    · exact absurd h (by simp)
  | proposeBlock i now =>
    obtain ⟨halive, h⟩ := Option.ite_none_right_eq_some.1 h
    simp only [act] at h
    split at h
    · next hphase =>
        obtain ⟨-, ⟨⟩⟩ := Option.ite_none_left_eq_some.1 h
        rw [Leader.proposeBlock]
        split
        · next hgen => exact .proposePanics hgen
        · next bc b hgen => exact .proposeBlock halive hphase hgen
    · exact absurd h (by simp)
  | sendPartitionReady i =>
    obtain ⟨-, h⟩ := Option.ite_none_right_eq_some.1 h
    simp only [act] at h
    split at h
    · next hphase =>
        obtain ⟨hht, ⟨⟩⟩ := Option.ite_none_right_eq_some.1 h
        rw [Bool.and_eq_true] at hht
        exact .sendPartitionReady hht.1 hphase hht.2
    · exact absurd h (by simp)
  | sendAccountsAndTxs i order =>
    obtain ⟨-, h⟩ := Option.ite_none_right_eq_some.1 h
    simp only [act] at h
    split at h
    · next hphase =>
        obtain ⟨-, h⟩ := Option.ite_none_right_eq_some.1 h
        obtain ⟨⟨n, msgs⟩, hsend, rfl⟩ := Option.map_eq_some_iff.1 h
        exact .sendAccountsAndTxs hphase hsend
    · exact absurd h (by simp)
  | proposePartition i shards addrs =>
    obtain ⟨-, h⟩ := Option.ite_none_right_eq_some.1 h
    simp only [act] at h
    split at h
    · next hphase =>
        obtain ⟨hover, h⟩ := Option.ite_none_right_eq_some.1 h
        obtain ⟨n, hprop, rfl⟩ := Option.map_eq_some_iff.1 h
        exact .proposePartition hphase hover hprop
    · exact absurd h (by simp)
  | commit i =>
    obtain ⟨halive, h⟩ := Option.ite_none_right_eq_some.1 h
    simp only [act] at h
    split at h
    · next b hphase => exact Option.some.inj h ▸ .commitBlock halive hphase
    · next atm hphase => exact Option.some.inj h ▸ .commitPartition hphase
    · exact absurd h (by simp)

end ShardWorld

end BlockEmulator
