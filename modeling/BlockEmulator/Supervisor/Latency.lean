import BlockEmulator.Chain.Propose
import BlockEmulator.Lib.FiniteMap
import BlockEmulator.Lib.Tally
import Mathlib.Algebra.Group.Prod
import Mathlib.Algebra.Order.Field.Rat
import Mathlib.Data.BitVec
import Mathlib.Tactic.Abel

set_option autoImplicit false

/-! # Measuring latencies

`TestModule_TCL_Relay` and `TestModule_TCL_Broker` (`supervisor/measure/measure_TCL_relay.go`,
`measure_TCL_Broker.go`) add up the latencies of the reported transactions, for each epoch. Sums do not
depend on the order of the reports. But the latency of a transaction between two shards is taken from
both of its halves, which different shards report: the first half leaves a time in a map, and the second
half looks it up. A second half that is reported before its first finds nothing, and is left out of the
sum for good; and where there are several reports of the first half, the last one so far counts.

So the records of an epoch are a sum that any order of the reports gives, and a sum over what the second
halves found. Two orders give the same records if every second half finds the same time in both
(`latencies_agree_of_findings`). Conversely the records agree only if in every epoch the times found
add up to the same (`latencies_agree_iff`): two second halves may find each other's times. -/

namespace BlockEmulator

/-! ## Times -/

/-- `Time.Sub`, in nanoseconds, which saturates. -/
def timeSub (t u : ℤ) : ℤ := max (-2 ^ 63) (min (2 ^ 63 - 1) (t - u))

/-- `Duration.Milliseconds`, an `int64`. -/
def milliseconds (d : ℤ) : BitVec 64 := BitVec.ofInt 64 (d.tdiv 1000000)

/-- `float64`, as far as the measurements compute with it. -/
class LatencyArith (F : Type) where
  ofInt : ℤ → F
  add : F → F → F
  div : F → F → F

instance : LatencyArith Float where
  ofInt := Float.ofInt
  add := (· + ·)
  div := (· / ·)

/-- Exact arithmetic. -/
instance : LatencyArith ℚ where
  ofInt := fun n => n
  add := (· + ·)
  div := (· / ·)

open LatencyArith

/-- `Duration.Seconds`. -/
def seconds {F : Type} [LatencyArith F] (d : ℤ) : F :=
  add (ofInt (d.tdiv 1000000000)) (div (ofInt (d.tmod 1000000000)) (ofInt 1000000000))

/-- A transaction with the `Time` of its proposal. -/
structure TimedTx extends Transaction where
  time : ℤ

/-- `string(tx.RawTxHash)`. -/
def TimedTx.rawKey (tx : TimedTx) : List UInt8 := tx.rawTxHash.getD []

/-- `message.BlockInfoMsg`, with the times that are measured. -/
structure TimedBlockInfo where
  blockBodyLength : ℕ
  innerShardTxs : List TimedTx := []
  epoch : ℤ := 0
  commitTime : ℤ
  relay1Txs : List TimedTx := []
  relay2Txs : List TimedTx := []
  broker1Txs : List TimedTx := []
  broker2Txs : List TimedTx := []

/-! ## The records -/

/-- The integer records of an epoch. The first halves are the `relay1` transactions of
    `TestModule_TCL_Relay` and the `broker1` transactions of `TestModule_TCL_Broker`, and the second
    halves the `relay2` and `broker2` transactions. -/
@[ext]
structure LatencyRecord where
  normalTxNum : ℕ := 0
  firstTxNum : ℕ := 0
  secondTxNum : ℕ := 0
  firstCommitLatency : BitVec 64 := 0
  secondCommitLatency : BitVec 64 := 0
  ctxCommitLatency : BitVec 64 := 0
  normalTxCommitLatency : BitVec 64 := 0
deriving DecidableEq

namespace LatencyRecord

instance : Zero LatencyRecord := ⟨{}⟩

instance : Add LatencyRecord where
  add x y :=
    { normalTxNum := x.normalTxNum + y.normalTxNum
      firstTxNum := x.firstTxNum + y.firstTxNum
      secondTxNum := x.secondTxNum + y.secondTxNum
      firstCommitLatency := x.firstCommitLatency + y.firstCommitLatency
      secondCommitLatency := x.secondCommitLatency + y.secondCommitLatency
      ctxCommitLatency := x.ctxCommitLatency + y.ctxCommitLatency
      normalTxCommitLatency := x.normalTxCommitLatency + y.normalTxCommitLatency }

instance : AddCancelCommMonoid LatencyRecord where
  add_assoc x y z := by apply LatencyRecord.ext <;> exact add_assoc _ _ _
  zero_add x := by apply LatencyRecord.ext <;> exact zero_add _
  add_zero x := by apply LatencyRecord.ext <;> exact add_zero _
  add_comm x y := by apply LatencyRecord.ext <;> exact add_comm _ _
  add_left_cancel x y z h := by
    obtain ⟨h₁, h₂, h₃, h₄, h₅, h₆, h₇⟩ := LatencyRecord.ext_iff.1 h
    exact LatencyRecord.ext (add_left_cancel h₁) (add_left_cancel h₂) (add_left_cancel h₃)
      (add_left_cancel h₄) (add_left_cancel h₅) (add_left_cancel h₆) (add_left_cancel h₇)
  nsmul := nsmulRec

end LatencyRecord

/-- All records of an epoch; the `float64` ones are the number of transactions and their latencies in
    seconds. -/
structure EpochLatency (F : Type) extends LatencyRecord where
  txNum : F
  totTxLatencyEpoch : F

/-- The times that the first halves have left, under their hashes. -/
abbrev Stamps := Finmap fun _ : List UInt8 => ℤ

/-- `TestModule_TCL_Relay` and `TestModule_TCL_Broker`. Their nine slices always have the same length,
    and are one list here; `firstTS` is `relay1CommitTS` or `brokerTxMap`. -/
structure TestModuleTCL (F : Type) where
  epochID : ℤ
  epochs : List (EpochLatency F)
  firstTS : Stamps
  /-- There is one entry for each epoch up to the last one. -/
  sizes : (epochs.length : ℤ) = epochID + 1

namespace TestModuleTCL

variable {F : Type}

/-- `NewTestModule_TCL_Relay` and `NewTestModule_TCL_Broker`. -/
def new : TestModuleTCL F := ⟨-1, [], ∅, rfl⟩

/-- The entries of epoch `e` are changed. -/
def update (t : TestModuleTCL F) (e : ℕ) (f : EpochLatency F → EpochLatency F) : TestModuleTCL F where
  epochID := t.epochID
  epochs := t.epochs.modify e f
  firstTS := t.firstTS
  sizes := by simpa using t.sizes

/-- A first half leaves a time. -/
def stamp (t : TestModuleTCL F) (hash : List UInt8) (time : ℤ) : TestModuleTCL F :=
  { t with firstTS := Finmap.insert hash time t.firstTS }

variable [LatencyArith F]

/-- One turn of the loop that extends the slices. -/
def extend (t : TestModuleTCL F) : TestModuleTCL F where
  epochID := t.epochID + 1
  epochs := t.epochs ++ [{ txNum := ofInt 0, totTxLatencyEpoch := ofInt 0 }]
  firstTS := t.firstTS
  sizes := by simpa using t.sizes

/-- The loop itself, for `k` turns. -/
def extendBy (t : TestModuleTCL F) : ℕ → TestModuleTCL F
  | 0 => t
  | k + 1 => t.extend.extendBy k

/-- The transactions are counted, those between shards by halves. -/
def count (t : TestModuleTCL F) (e normal first second : ℕ) : TestModuleTCL F :=
  t.update e fun r => { r with
    normalTxNum := r.normalTxNum + normal
    firstTxNum := r.firstTxNum + first
    secondTxNum := r.secondTxNum + second
    txNum := add r.txNum
      (add (ofInt normal) (div (ofInt (first + second : ℕ)) (ofInt 2))) }

/-- The loop over the transactions inside a shard. -/
def normalTxs (t : TestModuleTCL F) (e : ℕ) (b : TimedBlockInfo) : TestModuleTCL F :=
  b.innerShardTxs.foldl (fun t tx => t.update e fun r => { r with
    totTxLatencyEpoch := add r.totTxLatencyEpoch (seconds (timeSub b.commitTime tx.time))
    normalTxCommitLatency :=
      r.normalTxCommitLatency + milliseconds (timeSub b.commitTime tx.time) }) t

/-- What the two modules share: an empty block is skipped, and the slices are extended up to the epoch
    of the block; `none` is an index out of range. -/
def updateBy (measure : TimedBlockInfo → TestModuleTCL F → ℕ → TestModuleTCL F)
    (t : TestModuleTCL F) (b : TimedBlockInfo) : Option (TestModuleTCL F) :=
  if b.blockBodyLength = 0 then some t
  else if b.epoch < 0 then none
  else some (measure b (t.extendBy (b.epoch - t.epochID).toNat) b.epoch.toNat)

end TestModuleTCL

namespace TestModuleTCLRelay

variable {F : Type} [LatencyArith F]

/-- The loop over the `relay1` transactions. -/
def relay1Txs (t : TestModuleTCL F) (e : ℕ) (b : TimedBlockInfo) : TestModuleTCL F :=
  b.relay1Txs.foldl (fun t r1tx => (t.stamp r1tx.txHash b.commitTime).update e fun r => { r with
    firstCommitLatency :=
      r.firstCommitLatency + milliseconds (timeSub b.commitTime r1tx.time) }) t

/-- The loop over the `relay2` transactions. -/
def relay2Txs (t : TestModuleTCL F) (e : ℕ) (b : TimedBlockInfo) : TestModuleTCL F :=
  b.relay2Txs.foldl (fun t r2tx =>
    let t := t.update e fun r => { r with
      totTxLatencyEpoch := add r.totTxLatencyEpoch (seconds (timeSub b.commitTime r2tx.time)) }
    match t.firstTS.lookup r2tx.txHash with
    | some r1CommitTime => t.update e fun r => { r with
        secondCommitLatency :=
          r.secondCommitLatency + milliseconds (timeSub b.commitTime r1CommitTime)
        ctxCommitLatency := r.ctxCommitLatency + milliseconds (timeSub b.commitTime r2tx.time) }
    | none => t) t

/-- What is done once the slices are long enough. -/
def measure (b : TimedBlockInfo) (t : TestModuleTCL F) (e : ℕ) : TestModuleTCL F :=
  let t := t.count e b.innerShardTxs.length b.relay1Txs.length b.relay2Txs.length
  (relay2Txs (relay1Txs t e b) e b).normalTxs e b

/-- `UpdateMeasureRecord` of `TestModule_TCL_Relay`. -/
def updateMeasureRecord : TestModuleTCL F → TimedBlockInfo → Option (TestModuleTCL F) :=
  TestModuleTCL.updateBy measure

end TestModuleTCLRelay

namespace TestModuleTCLBroker

variable {F : Type} [LatencyArith F]

/-- The loop over the `broker1` transactions. -/
def broker1Txs (t : TestModuleTCL F) (e : ℕ) (b : TimedBlockInfo) : TestModuleTCL F :=
  b.broker1Txs.foldl (fun t b1tx => (t.stamp b1tx.rawKey b1tx.time).update e fun r => { r with
    firstCommitLatency :=
      r.firstCommitLatency + milliseconds (timeSub b.commitTime b1tx.time) }) t

/-- The loop over the `broker2` transactions. -/
def broker2Txs (t : TestModuleTCL F) (e : ℕ) (b : TimedBlockInfo) : TestModuleTCL F :=
  b.broker2Txs.foldl (fun t b2tx =>
    let t :=
      match t.firstTS.lookup b2tx.rawKey with
      | some b1txProposeTime => t.update e fun r => { r with
          totTxLatencyEpoch :=
            add r.totTxLatencyEpoch (seconds (timeSub b.commitTime b1txProposeTime))
          ctxCommitLatency :=
            r.ctxCommitLatency + milliseconds (timeSub b.commitTime b1txProposeTime) }
      | none => t
    t.update e fun r => { r with
      secondCommitLatency :=
        r.secondCommitLatency + milliseconds (timeSub b.commitTime b2tx.time) }) t

/-- What is done once the slices are long enough. -/
def measure (b : TimedBlockInfo) (t : TestModuleTCL F) (e : ℕ) : TestModuleTCL F :=
  let t := t.count e b.innerShardTxs.length b.broker1Txs.length b.broker2Txs.length
  broker2Txs (broker1Txs (t.normalTxs e b) e b) e b

/-- `UpdateMeasureRecord` of `TestModule_TCL_Broker`. -/
def updateMeasureRecord : TestModuleTCL F → TimedBlockInfo → Option (TestModuleTCL F) :=
  TestModuleTCL.updateBy measure

end TestModuleTCLBroker

namespace TestModuleTCL

variable {F : Type}

/-- The integer records, epoch by epoch. -/
def records (t : TestModuleTCL F) : List LatencyRecord := t.epochs.map EpochLatency.toLatencyRecord

/-- The reports come in one after the other. -/
def updateAll (update : TestModuleTCL F → TimedBlockInfo → Option (TestModuleTCL F)) :
    TestModuleTCL F → List TimedBlockInfo → Option (TestModuleTCL F)
  | t, [] => some t
  | t, b :: l => (update t b).bind fun t => t.updateAll update l

/-- The integer records after some reports. -/
def finalRecords (update : TestModuleTCL F → TimedBlockInfo → Option (TestModuleTCL F))
    (l : List TimedBlockInfo) : Option (List LatencyRecord) :=
  (new.updateAll update l).map records

end TestModuleTCL

/-! ## What a report adds -/

/-- What the transactions inside a shard add. -/
def TimedBlockInfo.normals (b : TimedBlockInfo) : LatencyRecord :=
  (b.innerShardTxs.map fun tx => ({
    normalTxCommitLatency := milliseconds (timeSub b.commitTime tx.time) } : LatencyRecord)).sum

/-- What a module makes of the halves of the transactions between shards: where they are in a report,
    the time that a first half leaves and under which hash, and what a second half adds if it finds
    such a time, and in any case. -/
structure Halves where
  first : TimedBlockInfo → List TimedTx
  second : TimedBlockInfo → List TimedTx
  key : TimedTx → List UInt8
  stamp : TimedBlockInfo → TimedTx → ℤ
  found : TimedBlockInfo → TimedTx → ℤ → LatencyRecord
  always : TimedBlockInfo → TimedTx → LatencyRecord

/-- Those of `TestModule_TCL_Relay`. -/
def relayHalves : Halves where
  first := TimedBlockInfo.relay1Txs
  second := TimedBlockInfo.relay2Txs
  key tx := tx.txHash
  stamp b _ := b.commitTime
  found b tx r1CommitTime :=
    { secondCommitLatency := milliseconds (timeSub b.commitTime r1CommitTime)
      ctxCommitLatency := milliseconds (timeSub b.commitTime tx.time) }
  always _ _ := 0

/-- Those of `TestModule_TCL_Broker`. -/
def brokerHalves : Halves where
  first := TimedBlockInfo.broker1Txs
  second := TimedBlockInfo.broker2Txs
  key := TimedTx.rawKey
  stamp _ tx := tx.time
  found b _ b1txProposeTime :=
    { ctxCommitLatency := milliseconds (timeSub b.commitTime b1txProposeTime) }
  always b tx := { secondCommitLatency := milliseconds (timeSub b.commitTime tx.time) }

namespace Halves

variable (m : Halves)

def counts (b : TimedBlockInfo) : LatencyRecord :=
  { normalTxNum := b.innerShardTxs.length
    firstTxNum := (m.first b).length
    secondTxNum := (m.second b).length }

def firsts (b : TimedBlockInfo) : LatencyRecord :=
  ((m.first b).map fun tx => ({
    firstCommitLatency := milliseconds (timeSub b.commitTime tx.time) } : LatencyRecord)).sum

/-- What a report adds in any order. -/
def fixed (b : TimedBlockInfo) : LatencyRecord :=
  m.counts b + b.normals + m.firsts b + ((m.second b).map (m.always b)).sum

/-- What the second halves of a report add besides, if they find these times. -/
def late (finds : List UInt8 → Option ℤ) (b : TimedBlockInfo) : LatencyRecord :=
  ((m.second b).map fun tx => (finds (m.key tx)).elim 0 (m.found b tx)).sum

/-- The times that the first halves of a report leave. -/
def stamped (b : TimedBlockInfo) (ts : Stamps) : Stamps :=
  (m.first b).foldl (fun ts tx => Finmap.insert (m.key tx) (m.stamp b tx) ts) ts

/-- The time that the last first half with this hash has left in these reports, if there is one. -/
def lastFirst (l : List TimedBlockInfo) (hash : List UInt8) : Option ℤ :=
  l.reverse.findSome? fun b =>
    if b.blockBodyLength = 0 then none
    else (m.first b).reverse.findSome? fun tx =>
      if m.key tx = hash then some (m.stamp b tx) else none

/-- What the second halves in the reports of an epoch have found, with the reports before. -/
def foundFrom : List TimedBlockInfo → List TimedBlockInfo → ℤ → LatencyRecord
  | _, [], _ => 0
  | before, b :: l, e =>
    (if b.blockBodyLength ≠ 0 ∧ b.epoch = e then m.late (m.lastFirst (before ++ [b])) b else 0) +
      foundFrom (before ++ [b]) l e

/-- What the second halves in the reports of an epoch add, each by the last first half that was
    reported before it or with it. -/
def foundSum (l : List TimedBlockInfo) (e : ℤ) : LatencyRecord := m.foundFrom [] l e

end Halves

/-! ### The loops -/

namespace TestModuleTCL

variable {F : Type} {t t₁ t₂ : TestModuleTCL F} {e : ℕ}

/-- The records of epoch `e` gain `d`, and the map becomes `ts`. -/
def Adds (e : ℕ) (d : LatencyRecord) (ts : Stamps) (t t₁ : TestModuleTCL F) : Prop :=
  t₁.firstTS = ts ∧ t₁.records = t.records.modify e (· + d)

theorem Adds.trans {d d₁ : LatencyRecord} {ts ts₁ : Stamps} (h : Adds e d ts t t₁)
    (h₁ : Adds e d₁ ts₁ t₁ t₂) : Adds e (d + d₁) ts₁ t t₂ := by
  refine ⟨h₁.1, ?_⟩
  rw [h₁.2, h.2, List.modify_modify_eq]
  congr 1
  funext x
  exact add_assoc x d d₁

/-- One addition. -/
theorem adds_update {f : EpochLatency F → EpochLatency F} {d : LatencyRecord}
    (h : ∀ r, (f r).toLatencyRecord = r.toLatencyRecord + d) :
    Adds e d t.firstTS t (t.update e f) := by
  refine ⟨rfl, List.ext_getElem? fun k => ?_⟩
  simp only [records, update, List.getElem?_map, List.getElem?_modify]
  cases t.epochs[k]? with
  | none => rfl
  | some r =>
    by_cases hk : e = k
    · simp [hk, h]
    · simp [hk]

theorem adds_refl (t : TestModuleTCL F) (e : ℕ) : Adds e 0 t.firstTS t t := by
  refine ⟨rfl, ?_⟩
  simp only [add_zero]
  exact (List.modify_id e t.records).symm

/-- **A loop**, where the map keeps an invariant. -/
theorem adds_foldl {α : Type} {f : TestModuleTCL F → α → TestModuleTCL F} {d : α → LatencyRecord}
    {g : Stamps → α → Stamps} {I : Stamps → Prop} (hg : ∀ ts x, I ts → I (g ts x))
    (hf : ∀ t x, I t.firstTS → Adds e (d x) (g t.firstTS x) t (f t x)) (l : List α)
    (ht : I t.firstTS) : Adds e (l.map d).sum (l.foldl g t.firstTS) t (l.foldl f t) := by
  induction l generalizing t with
  | nil => exact adds_refl t e
  | cons x l ih =>
    have hx := hf t x ht
    have hrest := ih (hx.1 ▸ hg t.firstTS x ht)
    rw [hx.1] at hrest
    rw [List.map_cons, List.sum_cons]
    exact hx.trans hrest

/-- A loop that leaves the map alone. -/
theorem adds_foldl_of_fixed {α : Type} {f : TestModuleTCL F → α → TestModuleTCL F}
    {d : Stamps → α → LatencyRecord}
    (hf : ∀ t x, Adds e (d t.firstTS x) t.firstTS t (f t x)) (l : List α) :
    Adds e (l.map (d t.firstTS)).sum t.firstTS t (l.foldl f t) := by
  have hloop := adds_foldl (d := d t.firstTS) (g := fun ts _ => ts) (I := fun ts => ts = t.firstTS)
    (fun _ _ hts => hts) (fun t' x hts => by rw [← hts]; exact hf t' x) l rfl
  rwa [List.foldl_fixed] at hloop

variable [LatencyArith F]

theorem adds_count (t : TestModuleTCL F) (e normal first second : ℕ) :
    Adds e { normalTxNum := normal, firstTxNum := first, secondTxNum := second } t.firstTS t
      (t.count e normal first second) := by
  refine adds_update fun r => ?_
  apply LatencyRecord.ext
  case normalTxNum | firstTxNum | secondTxNum => rfl
  all_goals exact (add_zero _).symm

theorem adds_normalTxs (t : TestModuleTCL F) (e : ℕ) (b : TimedBlockInfo) :
    Adds e b.normals t.firstTS t (t.normalTxs e b) := by
  unfold normalTxs TimedBlockInfo.normals
  refine adds_foldl_of_fixed (d := fun _ (tx : TimedTx) => {
    normalTxCommitLatency := milliseconds (timeSub b.commitTime tx.time) }) ?_ b.innerShardTxs
  intro t tx
  refine adds_update fun r => ?_
  apply LatencyRecord.ext
  case normalTxCommitLatency => rfl
  all_goals exact (add_zero _).symm

end TestModuleTCL

open TestModuleTCL

section Loops

variable {F : Type}

/-- The loop over the first halves. -/
theorem Halves.adds_first (m : Halves) (b : TimedBlockInfo) (t : TestModuleTCL F) (e : ℕ) :
    Adds e (m.firsts b) (m.stamped b t.firstTS) t ((m.first b).foldl (fun t tx =>
      (t.stamp (m.key tx) (m.stamp b tx)).update e fun r => { r with
        firstCommitLatency :=
          r.firstCommitLatency + milliseconds (timeSub b.commitTime tx.time) }) t) := by
  refine adds_foldl (I := fun _ => True) (fun _ _ h => h) (fun t tx _ => ?_) (m.first b) trivial
  refine (adds_update (t := t.stamp (m.key tx) (m.stamp b tx)) fun r => ?_)
  apply LatencyRecord.ext
  case firstCommitLatency => rfl
  all_goals exact (add_zero _).symm

/-- The loop over the second halves. -/
theorem Halves.adds_second (m : Halves) (b : TimedBlockInfo) (t : TestModuleTCL F) (e : ℕ)
    {f : TestModuleTCL F → TimedTx → TestModuleTCL F}
    (hf : ∀ t tx, Adds e (m.always b tx + (t.firstTS.lookup (m.key tx)).elim 0 (m.found b tx))
      t.firstTS t (f t tx)) :
    Adds e (((m.second b).map (m.always b)).sum + m.late t.firstTS.lookup b) t.firstTS t
      ((m.second b).foldl f t) := by
  rw [Halves.late, ← List.sum_map_add]
  exact adds_foldl_of_fixed
    (d := fun ts tx => m.always b tx + (ts.lookup (m.key tx)).elim 0 (m.found b tx)) hf (m.second b)

/-- A module that measures in this way. -/
def Halves.MeasuredBy (m : Halves)
    (measure : TimedBlockInfo → TestModuleTCL F → ℕ → TestModuleTCL F) : Prop :=
  ∀ b t e, Adds e (m.fixed b + m.late (m.stamped b t.firstTS).lookup b) (m.stamped b t.firstTS) t
    (measure b t e)

variable [LatencyArith F]

theorem adds_relay2Txs (t : TestModuleTCL F) (e : ℕ) (b : TimedBlockInfo) :
    Adds e (((relayHalves.second b).map (relayHalves.always b)).sum +
      relayHalves.late t.firstTS.lookup b) t.firstTS t (TestModuleTCLRelay.relay2Txs t e b) := by
  refine relayHalves.adds_second b t e fun t r2tx => ?_
  let t₁ := t.update e fun r => { r with
    totTxLatencyEpoch := add r.totTxLatencyEpoch (seconds (timeSub b.commitTime r2tx.time)) }
  have htotal : Adds e 0 t.firstTS t t₁ := adds_update fun r => (add_zero r.toLatencyRecord).symm
  have hfirst : t₁.firstTS.lookup r2tx.txHash = t.firstTS.lookup (relayHalves.key r2tx) := rfl
  refine htotal.trans ?_
  rw [← hfirst]
  dsimp only
  cases t₁.firstTS.lookup r2tx.txHash with
  | none => exact adds_refl t₁ e
  | some r1CommitTime =>
    refine adds_update fun r => ?_
    apply LatencyRecord.ext
    case secondCommitLatency | ctxCommitLatency => rfl
    all_goals exact (add_zero _).symm

theorem adds_broker2Txs (t : TestModuleTCL F) (e : ℕ) (b : TimedBlockInfo) :
    Adds e (((brokerHalves.second b).map (brokerHalves.always b)).sum +
      brokerHalves.late t.firstTS.lookup b) t.firstTS t (TestModuleTCLBroker.broker2Txs t e b) := by
  refine brokerHalves.adds_second b t e fun t b2tx => ?_
  -- added last in the source, whether the look-up has found something or not
  have hlatency : ∀ t : TestModuleTCL F, Adds e (brokerHalves.always b b2tx) t.firstTS t
      (t.update e fun r => { r with
        secondCommitLatency :=
          r.secondCommitLatency + milliseconds (timeSub b.commitTime b2tx.time) }) := by
    intro t
    refine adds_update fun r => ?_
    apply LatencyRecord.ext
    case secondCommitLatency => rfl
    all_goals exact (add_zero _).symm
  rw [add_comm]
  dsimp only [brokerHalves]
  cases t.firstTS.lookup b2tx.rawKey with
  | none => exact (adds_refl t e).trans (hlatency t)
  | some b1txProposeTime =>
    refine Adds.trans (adds_update fun r => ?_) (hlatency _)
    apply LatencyRecord.ext
    case ctxCommitLatency => rfl
    all_goals exact (add_zero _).symm

theorem relayHalves_measuredBy : relayHalves.MeasuredBy (TestModuleTCLRelay.measure (F := F)) := by
  intro b t e
  let t₁ := t.count e b.innerShardTxs.length b.relay1Txs.length b.relay2Txs.length
  let t₂ := TestModuleTCLRelay.relay1Txs t₁ e b
  have hcount : Adds e (relayHalves.counts b) t.firstTS t t₁ := adds_count t e _ _ _
  have hfirst : Adds e (relayHalves.firsts b) (relayHalves.stamped b t.firstTS) t₁ t₂ :=
    relayHalves.adds_first b t₁ e
  have hsecond := adds_relay2Txs t₂ e b
  have hnormal := adds_normalTxs (TestModuleTCLRelay.relay2Txs t₂ e b) e b
  rw [hsecond.1, hfirst.1] at hnormal
  rw [hfirst.1] at hsecond
  -- this module takes the transactions inside the shard last; only the `float64` sums could tell
  have hsum : relayHalves.fixed b + relayHalves.late (relayHalves.stamped b t.firstTS).lookup b =
      relayHalves.counts b + relayHalves.firsts b +
        (((relayHalves.second b).map (relayHalves.always b)).sum +
          relayHalves.late (relayHalves.stamped b t.firstTS).lookup b) + b.normals := by
    rw [Halves.fixed]
    abel
  rw [hsum]
  exact ((hcount.trans hfirst).trans hsecond).trans hnormal

theorem brokerHalves_measuredBy : brokerHalves.MeasuredBy (TestModuleTCLBroker.measure (F := F)) := by
  intro b t e
  let t₁ := t.count e b.innerShardTxs.length b.broker1Txs.length b.broker2Txs.length
  let t₂ := TestModuleTCLBroker.broker1Txs (t₁.normalTxs e b) e b
  have hcount : Adds e (brokerHalves.counts b) t.firstTS t t₁ := adds_count t e _ _ _
  have hnormal : Adds e b.normals t.firstTS t₁ (t₁.normalTxs e b) := adds_normalTxs t₁ e b
  have hfirst := brokerHalves.adds_first b (t₁.normalTxs e b) e
  have hsecond := adds_broker2Txs t₂ e b
  rw [hnormal.1] at hfirst
  have hts : t₂.firstTS = brokerHalves.stamped b t.firstTS := hfirst.1
  rw [hts] at hsecond
  rw [Halves.fixed, add_assoc _ _ (brokerHalves.late _ b)]
  exact ((hcount.trans hnormal).trans hfirst).trans hsecond

end Loops

/-! ## What all reports add -/

namespace Halves

variable (m : Halves)

theorem lastFirst_concat (l : List TimedBlockInfo) (b : TimedBlockInfo) (hash : List UInt8) :
    m.lastFirst (l ++ [b]) hash =
      (if b.blockBodyLength = 0 then none
        else (m.first b).reverse.findSome? fun tx =>
          if m.key tx = hash then some (m.stamp b tx) else none).or (m.lastFirst l hash) := by
  rw [lastFirst, List.reverse_concat, List.findSome?_cons]
  split
  · next time htime => rw [htime, Option.some_or]
  · next hnone => rw [hnone, Option.none_or, lastFirst]

/-- What the reports add, each to its epoch, with the reports before. -/
def entries : List TimedBlockInfo → List TimedBlockInfo → List (ℕ × LatencyRecord)
  | _, [] => []
  | before, b :: l =>
    if b.blockBodyLength = 0 then entries (before ++ [b]) l
    else (b.epoch.toNat, m.fixed b + m.late (m.lastFirst (before ++ [b])) b) ::
      entries (before ++ [b]) l

theorem map_fst_entries (before l : List TimedBlockInfo) :
    (m.entries before l).map Prod.fst =
      (l.filter fun b => b.blockBodyLength ≠ 0).map fun b => b.epoch.toNat := by
  induction l generalizing before with
  | nil => rfl
  | cons b l ih =>
    rw [entries]
    by_cases hempty : b.blockBodyLength = 0
    · simp [hempty, ih]
    · simp [hempty, ih]

/-- What the reports of an epoch add in any order. -/
def fixedSum (l : List TimedBlockInfo) (e : ℤ) : LatencyRecord :=
  (l.map fun b => if b.blockBodyLength ≠ 0 ∧ b.epoch = e then m.fixed b else 0).sum

theorem fixedSum_perm {l l' : List TimedBlockInfo} (h : l.Perm l') (e : ℤ) :
    m.fixedSum l e = m.fixedSum l' e := (h.map _).sum_eq

/-- **The sum of an epoch**: what is added in any order, and what the second halves have found. -/
theorem sumAt_entries (before : List TimedBlockInfo) {l : List TimedBlockInfo}
    (h : ∀ b ∈ l, b.blockBodyLength ≠ 0 → 0 ≤ b.epoch) (k : ℕ) :
    sumAt (m.entries before l) k = m.fixedSum l k + m.foundFrom before l k := by
  induction l generalizing before with
  | nil => simp [entries, sumAt, fixedSum, foundFrom]
  | cons b l ih =>
    obtain ⟨hb, hl⟩ := List.forall_mem_cons.1 h
    rw [entries, foundFrom, fixedSum, List.map_cons, List.sum_cons, ← fixedSum]
    by_cases hempty : b.blockBodyLength = 0
    · rw [if_pos hempty, ih _ hl]
      simp [hempty]
    have hepoch : b.epoch.toNat = k ↔ b.epoch = k := by
      have := hb hempty
      omega
    rw [if_neg hempty, sumAt, List.map_cons, List.sum_cons, ← sumAt, ih _ hl]
    by_cases hk : b.epoch = k
    · simp only [hk, Int.toNat_natCast, hempty, ne_eq, not_false_eq_true, and_self, if_true]
      abel
    · simp [mt hepoch.1 hk, hk]

/-- Each report with the times that its second halves find, one after the other, with the reports
    before. -/
def findingsFrom :
    List TimedBlockInfo → List TimedBlockInfo → List (TimedBlockInfo × List (Option ℤ))
  | _, [] => []
  | before, b :: l =>
    (b, if b.blockBodyLength = 0 then []
      else (m.second b).map fun tx => m.lastFirst (before ++ [b]) (m.key tx)) ::
      findingsFrom (before ++ [b]) l

/-- What all second halves find. -/
def findings (l : List TimedBlockInfo) : List (TimedBlockInfo × List (Option ℤ)) :=
  m.findingsFrom [] l

/-- What the second halves of a report add, if they find these times. -/
def gained (b : TimedBlockInfo) (times : List (Option ℤ)) : LatencyRecord :=
  (List.zipWith (fun tx time => time.elim 0 (m.found b tx)) (m.second b) times).sum

/-- What is added depends on the times found, and not on the reports they were found in. -/
theorem foundFrom_eq_sum (before l : List TimedBlockInfo) (e : ℤ) :
    m.foundFrom before l e = ((m.findingsFrom before l).map fun p =>
      if p.1.blockBodyLength ≠ 0 ∧ p.1.epoch = e then m.gained p.1 p.2 else 0).sum := by
  induction l generalizing before with
  | nil => rfl
  | cons b l ih =>
    rw [foundFrom, findingsFrom, ih, List.map_cons, List.sum_cons]
    congr 1
    split
    · next hcounted =>
        rw [if_neg hcounted.1, gained, late, List.zipWith_map_right, List.zipWith_self]
    · rfl

end Halves

namespace TestModuleTCL

variable {F : Type} {m : Halves} {t : TestModuleTCL F} {l l' : List TimedBlockInfo}
  {measure : TimedBlockInfo → TestModuleTCL F → ℕ → TestModuleTCL F}

theorem length_records (t : TestModuleTCL F) : (t.records.length : ℤ) = t.epochID + 1 := by
  rw [records, List.length_map, t.sizes]

variable [LatencyArith F]

theorem records_extendBy (t : TestModuleTCL F) (k : ℕ) :
    (t.extendBy k).firstTS = t.firstTS ∧ (t.extendBy k).records = t.records ++ List.replicate k 0 := by
  induction k generalizing t with
  | zero => exact ⟨rfl, (List.append_nil _).symm⟩
  | succ k ih =>
    obtain ⟨hts, hrec⟩ := ih t.extend
    refine ⟨hts, ?_⟩
    rw [extendBy, hrec, records, extend, List.map_append, List.append_assoc]
    rfl

/-- **One report.** -/
theorem updateBy_eq (hm : m.MeasuredBy measure) {b : TimedBlockInfo} (hb : b.blockBodyLength ≠ 0)
    (hepoch : 0 ≤ b.epoch) :
    ∃ t₁, updateBy measure t b = some t₁ ∧ t₁.firstTS = m.stamped b t.firstTS ∧
      t₁.records = credit t.records
        (b.epoch.toNat, m.fixed b + m.late (m.stamped b t.firstTS).lookup b) := by
  -- the slices are extended just as far as a contribution extends the table
  have hlong : (b.epoch - t.epochID).toNat = b.epoch.toNat + 1 - t.records.length := by
    have := t.length_records
    omega
  obtain ⟨hts, hrec⟩ := t.records_extendBy (b.epoch - t.epochID).toNat
  obtain ⟨hts₁, hrec₁⟩ := hm b (t.extendBy (b.epoch - t.epochID).toNat) b.epoch.toNat
  rw [hts] at hts₁ hrec₁
  refine ⟨_, ?_, hts₁, ?_⟩
  · rw [updateBy, if_neg hb, if_neg (not_lt.2 hepoch)]
  · rw [hrec₁, hrec, hlong, credit]

/-- After a report the map holds the last first halves. -/
theorem lookup_stamped {before : List TimedBlockInfo} {b : TimedBlockInfo}
    (hb : b.blockBodyLength ≠ 0) {ts : Stamps}
    (hts : ∀ hash, ts.lookup hash = m.lastFirst before hash) (hash : List UInt8) :
    (m.stamped b ts).lookup hash = m.lastFirst (before ++ [b]) hash := by
  rw [Halves.stamped, Finmap.lookup_foldl_insert, hts, m.lastFirst_concat, if_neg hb]

/-- **All reports.** -/
theorem updateAll_eq (hm : m.MeasuredBy measure) {before : List TimedBlockInfo}
    (hts : ∀ hash, t.firstTS.lookup hash = m.lastFirst before hash)
    (hl : ∀ b ∈ l, b.blockBodyLength ≠ 0 → 0 ≤ b.epoch) :
    (t.updateAll (updateBy measure) l).map records =
      some ((m.entries before l).foldl credit t.records) := by
  induction l generalizing before t with
  | nil => rfl
  | cons b l ih =>
    obtain ⟨hb, hl⟩ := List.forall_mem_cons.1 hl
    rw [updateAll, Halves.entries]
    by_cases hempty : b.blockBodyLength = 0
    · rw [if_pos hempty, updateBy, if_pos hempty, Option.bind_some]
      refine ih (fun hash => ?_) hl
      rw [hts, m.lastFirst_concat, if_pos hempty, Option.none_or]
    · obtain ⟨t₁, ht₁, hts₁, hrec₁⟩ := updateBy_eq (t := t) hm hempty (hb hempty)
      have hfinds : ∀ hash, (m.stamped b t.firstTS).lookup hash = m.lastFirst (before ++ [b]) hash :=
        lookup_stamped hempty hts
      rw [if_neg hempty, ht₁, Option.bind_some, List.foldl_cons, ← funext hfinds, ← hrec₁]
      exact ih (fun hash => hts₁ ▸ hfinds hash) hl

theorem updateAll_none (h : ∃ b ∈ l, b.blockBodyLength ≠ 0 ∧ b.epoch < 0) :
    t.updateAll (updateBy measure) l = none := by
  induction l generalizing t with
  | nil => exact absurd h (by simp)
  | cons b l ih =>
    rw [updateAll]
    cases hb : updateBy measure t b with
    | none => rfl
    | some t₁ =>
      rw [Option.bind_some]
      refine ih ?_
      obtain ⟨b', hmem, hbody, hepoch⟩ := h
      rcases List.mem_cons.1 hmem with rfl | hmem
      · rw [updateBy, if_neg hbody, if_pos hepoch] at hb
        exact absurd hb (by simp)
      · exact ⟨b', hmem, hbody, hepoch⟩

/-- **Two orders** of the same reports. -/
theorem finalRecords_eq_iff (hm : m.MeasuredBy measure) (h : l.Perm l') :
    finalRecords (updateBy measure) l = finalRecords (updateBy measure) l' ↔
      (∃ b ∈ l, b.blockBodyLength ≠ 0 ∧ b.epoch < 0) ∨
        ∀ b ∈ l, b.blockBodyLength ≠ 0 → m.foundSum l b.epoch = m.foundSum l' b.epoch := by
  by_cases hneg : ∃ b ∈ l, b.blockBodyLength ≠ 0 ∧ b.epoch < 0
  · have hneg' : ∃ b ∈ l', b.blockBodyLength ≠ 0 ∧ b.epoch < 0 := by
      simpa only [h.mem_iff] using hneg
    simp only [finalRecords, updateAll_none hneg, updateAll_none hneg', hneg, true_or]
  have hl : ∀ b ∈ l, b.blockBodyLength ≠ 0 → 0 ≤ b.epoch := fun b hb hbody =>
    not_lt.1 fun hlt => hneg ⟨b, hb, hbody, hlt⟩
  have hl' : ∀ b ∈ l', b.blockBodyLength ≠ 0 → 0 ≤ b.epoch := fun b hb => hl b (h.mem_iff.2 hb)
  have hfinal : ∀ l : List TimedBlockInfo, (∀ b ∈ l, b.blockBodyLength ≠ 0 → 0 ≤ b.epoch) →
      finalRecords (updateBy measure) l = some (tally (m.entries [] l)) := fun l hl =>
    updateAll_eq hm (fun hash => rfl) hl
  have hfst : ((m.entries [] l).map Prod.fst).Perm ((m.entries [] l').map Prod.fst) := by
    rw [m.map_fst_entries, m.map_fst_entries]
    exact (h.filter _).map _
  rw [hfinal l hl, hfinal l' hl', Option.some_inj, tally_eq_iff hfst, m.map_fst_entries,
    List.forall_mem_map, or_iff_right hneg]
  -- the sums of an epoch differ by what the second halves have found
  have hentry : ∀ b ∈ l, b.blockBodyLength ≠ 0 →
      (sumAt (m.entries [] l) b.epoch.toNat = sumAt (m.entries [] l') b.epoch.toNat ↔
        m.foundSum l b.epoch = m.foundSum l' b.epoch) := by
    intro b hb hbody
    rw [m.sumAt_entries [] hl, m.sumAt_entries [] hl', Int.toNat_of_nonneg (hl b hb hbody),
      m.fixedSum_perm h, add_right_inj]
    rfl
  constructor
  · intro hsums b hb hbody
    exact (hentry b hb hbody).1 (hsums b (List.mem_filter.2 ⟨hb, by simpa using hbody⟩))
  · intro hsums b hb
    obtain ⟨hb, hbody⟩ := List.mem_filter.1 hb
    have hbody : b.blockBodyLength ≠ 0 := by simpa using hbody
    exact (hentry b hb hbody).2 (hsums b hb hbody)

/-- Every second half finds the same time in both orders. -/
theorem finalRecords_eq_of_findings (hm : m.MeasuredBy measure) (h : l.Perm l')
    (hfinds : (∃ b ∈ l, b.blockBodyLength ≠ 0 ∧ b.epoch < 0) ∨ (m.findings l).Perm (m.findings l')) :
    finalRecords (updateBy measure) l = finalRecords (updateBy measure) l' := by
  refine (finalRecords_eq_iff hm h).2 (hfinds.imp_right fun hperm b _ _ => ?_)
  rw [Halves.foundSum, Halves.foundSum, m.foundFrom_eq_sum, m.foundFrom_eq_sum]
  exact (hperm.map _).sum_eq

end TestModuleTCL

/-- **Two orders of the reports.** Each of the modules makes the same integer records of some reports
    and of a permutation of them if every second half, in whichever of the reports it stands, finds the
    same time in both orders; or if a report makes the module fail. -/
theorem latencies_agree_of_findings {F : Type} [LatencyArith F] {l l' : List TimedBlockInfo}
    (h : l.Perm l') :
    ((∃ b ∈ l, b.blockBodyLength ≠ 0 ∧ b.epoch < 0) ∨
        (relayHalves.findings l).Perm (relayHalves.findings l') →
      finalRecords (F := F) TestModuleTCLRelay.updateMeasureRecord l =
        finalRecords (F := F) TestModuleTCLRelay.updateMeasureRecord l') ∧
    ((∃ b ∈ l, b.blockBodyLength ≠ 0 ∧ b.epoch < 0) ∨
        (brokerHalves.findings l).Perm (brokerHalves.findings l') →
      finalRecords (F := F) TestModuleTCLBroker.updateMeasureRecord l =
        finalRecords (F := F) TestModuleTCLBroker.updateMeasureRecord l') :=
  ⟨finalRecords_eq_of_findings relayHalves_measuredBy h,
    finalRecords_eq_of_findings brokerHalves_measuredBy h⟩

/-- What is left to the converse: the records are the same exactly if the module fails on a report, or
    if in the epoch of every report what the second halves find adds up to the same in both orders. -/
theorem latencies_agree_iff {F : Type} [LatencyArith F] {l l' : List TimedBlockInfo}
    (h : l.Perm l') :
    (finalRecords (F := F) TestModuleTCLRelay.updateMeasureRecord l =
        finalRecords (F := F) TestModuleTCLRelay.updateMeasureRecord l' ↔
      (∃ b ∈ l, b.blockBodyLength ≠ 0 ∧ b.epoch < 0) ∨
        ∀ b ∈ l, b.blockBodyLength ≠ 0 →
          relayHalves.foundSum l b.epoch = relayHalves.foundSum l' b.epoch) ∧
    (finalRecords (F := F) TestModuleTCLBroker.updateMeasureRecord l =
        finalRecords (F := F) TestModuleTCLBroker.updateMeasureRecord l' ↔
      (∃ b ∈ l, b.blockBodyLength ≠ 0 ∧ b.epoch < 0) ∨
        ∀ b ∈ l, b.blockBodyLength ≠ 0 →
          brokerHalves.foundSum l b.epoch = brokerHalves.foundSum l' b.epoch) :=
  ⟨finalRecords_eq_iff relayHalves_measuredBy h, finalRecords_eq_iff brokerHalves_measuredBy h⟩

/-! ### One transfer between shards -/

section Sample

/-- Alice's transfer, proposed at time zero. -/
def aliceTransfer : TimedTx :=
  { BlockChain.transfer 2 with rawTxHash := some [7], time := 0 }

def relay1Report : TimedBlockInfo :=
  { blockBodyLength := 1, commitTime := 2000000000, relay1Txs := [aliceTransfer] }

def relay2Report : TimedBlockInfo :=
  { blockBodyLength := 1, commitTime := 5000000000, relay2Txs := [aliceTransfer] }

def broker1Report : TimedBlockInfo :=
  { blockBodyLength := 1, commitTime := 2000000000, broker1Txs := [aliceTransfer] }

def broker2Report : TimedBlockInfo :=
  { blockBodyLength := 1, commitTime := 5000000000, broker2Txs := [aliceTransfer] }

def innerReport : TimedBlockInfo :=
  { blockBodyLength := 1, commitTime := 3000000000, innerShardTxs := [aliceTransfer] }

/-- The report of the second half overtakes that of the first: the five seconds that the transfer has
    taken are not in the records. -/
theorem overtaken_transfer_not_measured :
    [relay1Report, relay2Report].Perm [relay2Report, relay1Report] ∧
    (finalRecords (F := ℚ) TestModuleTCLRelay.updateMeasureRecord
      [relay1Report, relay2Report]).map (List.map LatencyRecord.ctxCommitLatency) = some [5000] ∧
    (finalRecords (F := ℚ) TestModuleTCLRelay.updateMeasureRecord
      [relay2Report, relay1Report]).map (List.map LatencyRecord.ctxCommitLatency) = some [0] ∧
    [broker1Report, broker2Report].Perm [broker2Report, broker1Report] ∧
    (finalRecords (F := ℚ) TestModuleTCLBroker.updateMeasureRecord
      [broker1Report, broker2Report]).map (List.map LatencyRecord.ctxCommitLatency) = some [5000] ∧
    (finalRecords (F := ℚ) TestModuleTCLBroker.updateMeasureRecord
      [broker2Report, broker1Report]).map (List.map LatencyRecord.ctxCommitLatency) = some [0] := by
  refine ⟨List.Perm.swap .., ?_, ?_, List.Perm.swap .., ?_, ?_⟩
  all_goals decide +kernel

/-- A report about another transaction may come at any time. -/
theorem latencies_agree_of_inner_first :
    finalRecords (F := ℚ) TestModuleTCLRelay.updateMeasureRecord
        [relay1Report, innerReport, relay2Report] =
      finalRecords (F := ℚ) TestModuleTCLRelay.updateMeasureRecord
        [innerReport, relay1Report, relay2Report] :=
  (latencies_agree_of_findings (List.Perm.swap ..)).1 (.inr (List.Perm.swap ..))

end Sample

end BlockEmulator
