import BlockEmulator.Lib.Counting
import BlockEmulator.Lib.FiniteMap
import BlockEmulator.Supervisor.BrokerCommittee

set_option autoImplicit false

/-! # The broker module

`supervisor/committee/committee_broker.go` and `broker/broker.go`: what the supervisor does with a batch
of transactions (`dealTxByBroker`) and with the report of a block (`HandleBlockInfo`). A transfer between
two shards without a broker at either end is taken out of the batch; its first half is injected at once,
and its second half when the first is reported. Four maps keep track of it, each under another hash: the
raw messages under their digests, the two confirmation pools under the hashes of the halves, and the list
of confirmed halves under the hash of the transfer. The CLPA committee with brokers has the same code. -/

namespace BlockEmulator

/-- `message.BlockInfoMsg`, without the times. -/
structure BlockInfoMsg where
  blockBodyLength : ℕ
  innerShardTxs : List Transaction := []
  epoch : ℤ := 0
  senderShardID : ℕ := 0
  relay1Txs : List Transaction := []
  relay2Txs : List Transaction := []
  broker1Txs : List Transaction := []
  broker2Txs : List Transaction := []

/-- `broker.Broker`. -/
structure Broker where
  brokerRawMegs : Finmap (fun _ : List UInt8 => BrokerRawMeg) := ∅
  brokerAddress : List Address
  rawTx2BrokerTx : Finmap (fun _ : List UInt8 => List (List UInt8)) := ∅

namespace Broker

/-- `IsBroker`. -/
def isBroker (b : Broker) (a : Address) : Bool := b.brokerAddress.contains a

/-- `b.RawTx2BrokerTx[raw]`. -/
def brokerTxs (b : Broker) (raw : List UInt8) : List (List UInt8) :=
  (b.rawTx2BrokerTx.lookup raw).getD []

/-- The hash of a confirmed half is appended to the list of its transfer. -/
def record (b : Broker) (m : MagConfirm) : Broker :=
  { b with
    rawTx2BrokerTx := Finmap.insert m.rawMeg.tx.txHash
      (b.brokerTxs m.rawMeg.tx.txHash ++ [m.txHash]) b.rawTx2BrokerTx }

end Broker

/-- What `BrokerCommitteeMod` keeps about brokers. -/
structure BrokerModule extends BrokerCommittee where
  broker : Broker

/-- Messages with the times they are handled at. -/
def stamped {α : Type} (now : ℕ → ℕ) : List α → List (ℕ × α)
  | [] => []
  | meg :: megs => (now 0, meg) :: stamped (fun i => now (i + 1)) megs

namespace BrokerModule

/-! ## A batch of transactions -/

section Deal

variable (home : Address → ℕ)

/-- The transaction is between two shards and has no broker at either end. `home` is
    `fetchModifiedMap`. -/
def crosses (b : BrokerModule) (tx : Transaction) : Bool :=
  home tx.recipient ≠ home tx.sender && !b.broker.isBroker tx.recipient &&
    !b.broker.isBroker tx.sender

/-- A transaction that stays in the batch is marked if one of its ends is a broker. -/
def mark (b : BrokerModule) (tx : Transaction) : Transaction :=
  if b.broker.isBroker tx.recipient || b.broker.isBroker tx.sender then
    { tx with hasBroker := true, senderIsBroker := b.broker.isBroker tx.sender }
  else tx

/-- The loop of `dealTxByBroker`: the raw messages, and the transactions that stay. Without a broker,
    `BrokerAddress[0]` panics. -/
def dealLoop (b : BrokerModule) : List Transaction → Option (List BrokerRawMeg × List Transaction)
  | [] => some ([], [])
  | tx :: txs =>
    if b.crosses home tx then
      b.broker.brokerAddress.head?.bind fun broker =>
        (b.dealLoop txs).map fun r => (⟨tx, broker⟩ :: r.1, r.2)
    else (b.dealLoop txs).map fun r => (r.1, b.mark tx :: r.2)

end Deal

variable (digest : TxDigest) (rawDigest : BrokerRawMeg → List UInt8)

/-- `handleBrokerRawMag`: the committee, and the first halves given to `txSending`. -/
def handleBrokerRawMag (now : ℕ → ℕ) (b : BrokerModule) (megs : List BrokerRawMeg) :
    BrokerModule × List Transaction :=
  let r := b.toBrokerCommittee.handleBrokerType1Mes digest
    (stamped now (megs.map fun meg => ⟨meg, meg.broker⟩))
  ({ toBrokerCommittee := r.1
     broker := { b.broker with
       brokerRawMegs := megs.foldl (fun raws meg => Finmap.insert (rawDigest meg) meg raws)
         b.broker.brokerRawMegs } },
   r.2)

/-- `dealTxByBroker`: the committee, the first halves given to `txSending`, and the transactions
    returned. Without raw messages `handleBrokerRawMag` does nothing. -/
def dealTxByBroker (home : Address → ℕ) (now : ℕ → ℕ) (b : BrokerModule) (txs : List Transaction) :
    Option (BrokerModule × List Transaction × List Transaction) :=
  (b.dealLoop home txs).map fun d =>
    let r := b.handleBrokerRawMag digest rawDigest now d.1
    (r.1, r.2, d.2)

/-! ## The report of a block -/

/-- The loop of `handleTx1ConfirmMag`: the broker, and the messages for the second halves. -/
def confirmLoop (b : Broker) : List MagConfirm → Option (Broker × List BrokerTypeMeg)
  | [] => some (b, [])
  | m :: ms =>
    if rawDigest m.rawMeg ∈ b.brokerRawMegs then
      b.brokerAddress.head?.bind fun broker =>
        (confirmLoop (b.record m) ms).map fun r => (r.1, ⟨m.rawMeg, broker⟩ :: r.2)
    else confirmLoop b ms

/-- `handleTx1ConfirmMag`: the committee, and the second halves given to `txSending`. -/
def handleTx1ConfirmMag (now : ℕ → ℕ) (b : BrokerModule) (confirms : List MagConfirm) :
    Option (BrokerModule × List Transaction) :=
  (confirmLoop rawDigest b.broker confirms).map fun c =>
    let r := b.toBrokerCommittee.handleBrokerType2Mes digest (stamped now c.2)
    ({ toBrokerCommittee := r.1, broker := c.1 }, r.2)

/-- `handleTx2ConfirmMag`. -/
def handleTx2ConfirmMag (b : BrokerModule) (confirms : List MagConfirm) : BrokerModule :=
  { b with broker := confirms.foldl Broker.record b.broker }

/-- The halves of a pool that a report confirms. -/
def confirmed (pool : Finmap fun _ : List UInt8 => MagConfirm) (txs : List Transaction) :
    List MagConfirm :=
  (txs.map Transaction.txHash).filterMap fun hash => pool.lookup hash

/-- `createConfirm`: both pools are read first. Without confirmations the handlers do nothing. -/
def createConfirm (now : ℕ → ℕ) (b : BrokerModule) (txs : List Transaction) :
    Option (BrokerModule × List Transaction) :=
  (b.handleTx1ConfirmMag digest rawDigest now (confirmed b.brokerConfirm1Pool txs)).map fun r =>
    (r.1.handleTx2ConfirmMag (confirmed b.brokerConfirm2Pool txs), r.2)

/-- `HandleBlockInfo` of the broker committee. -/
def handleBlockInfo (now : ℕ → ℕ) (b : BrokerModule) (info : BlockInfoMsg) :
    Option (BrokerModule × List Transaction) :=
  if info.blockBodyLength = 0 then some (b, [])
  else b.createConfirm digest rawDigest now (info.broker1Txs ++ info.broker2Txs)

end BrokerModule

/-! ## Registered halves -/

section Register

open BrokerCommittee

variable {half : ℕ → BrokerTypeMeg → Transaction} {pool : Finmap fun _ : List UInt8 => MagConfirm}

theorem map_snd_stamped {α : Type} (now : ℕ → ℕ) (megs : List α) :
    (stamped now megs).map Prod.snd = megs := by
  induction megs generalizing now with
  | nil => rfl
  | cons meg megs ih => rw [stamped, List.map_cons, ih]

theorem mem_of_mem_stamped {α : Type} {now : ℕ → ℕ} {megs : List α} {p : ℕ × α}
    (h : p ∈ stamped now megs) : p.2 ∈ megs := by
  rw [← map_snd_stamped now megs]
  exact List.mem_map_of_mem h

/-- The halves handed on. -/
theorem register_snd (half : ℕ → BrokerTypeMeg → Transaction)
    (pool : Finmap fun _ : List UInt8 => MagConfirm) (megs : List (ℕ × BrokerTypeMeg)) :
    (register half pool megs).2 = megs.map fun p => half p.1 p.2 := by
  induction megs generalizing pool with
  | nil => rfl
  | cons p megs ih => rw [register, List.map_cons, ih]

theorem register_fst (half : ℕ → BrokerTypeMeg → Transaction)
    (pool : Finmap fun _ : List UInt8 => MagConfirm) (megs : List (ℕ × BrokerTypeMeg)) :
    (register half pool megs).1 = megs.foldl (fun pool p =>
      Finmap.insert (half p.1 p.2).txHash ⟨(half p.1 p.2).txHash, p.2.rawMeg⟩ pool) pool := by
  induction megs generalizing pool with
  | nil => rfl
  | cons p megs ih => rw [register, List.foldl_cons, ih]

/-- Every half is registered, and what was registered stays so. -/
theorem mem_register {megs : List (ℕ × BrokerTypeMeg)} {h : List UInt8} :
    h ∈ (register half pool megs).1 ↔
      h ∈ pool ∨ ∃ p ∈ megs, (half p.1 p.2).txHash = h := by
  rw [register_fst, Finmap.mem_foldl_insert]

/-- An entry was there, or is that of a new half. -/
theorem lookup_register {megs : List (ℕ × BrokerTypeMeg)} {h : List UInt8} {m : MagConfirm}
    (hm : (register half pool megs).1.lookup h = some m) :
    pool.lookup h = some m ∨ ∃ p ∈ megs, (half p.1 p.2).txHash = h ∧ m = ⟨h, p.2.rawMeg⟩ := by
  rw [register_fst] at hm
  rcases Finmap.lookup_foldl_insert_cases hm with hm | ⟨p, hp, rfl, rfl⟩
  · exact .inl hm
  · exact .inr ⟨p, hp, rfl, rfl⟩

/-- The pool has an entry for each of the halves, and no other. -/
structure Registers (pool : Finmap fun _ : List UInt8 => MagConfirm) (txs : List Transaction) :
    Prop where
  mem : ∀ tx ∈ txs, tx.txHash ∈ pool
  of_lookup : ∀ h m, pool.lookup h = some m →
    ∃ tx ∈ txs, tx.txHash = h ∧ m.txHash = h ∧ tx.rawTxHash = some m.rawMeg.tx.txHash

theorem Registers.register {txs : List Transaction} (hreg : Registers pool txs)
    (hhalf : ∀ now meg, (half now meg).rawTxHash = some meg.rawMeg.tx.txHash)
    (megs : List (ℕ × BrokerTypeMeg)) :
    Registers (register half pool megs).1 (txs ++ (register half pool megs).2) := by
  rw [register_snd]
  constructor
  · intro tx htx
    rw [mem_register]
    rcases List.mem_append.1 htx with htx | htx
    · exact .inl (hreg.mem tx htx)
    · obtain ⟨p, hp, rfl⟩ := List.mem_map.1 htx
      exact .inr ⟨p, hp, rfl⟩
  · intro h m hm
    rcases lookup_register hm with hm | ⟨p, hp, hhash, rfl⟩
    · obtain ⟨tx, htx, hrest⟩ := hreg.of_lookup h m hm
      exact ⟨tx, List.mem_append_left _ htx, hrest⟩
    · exact ⟨_, List.mem_append_right _ (List.mem_map_of_mem hp), hhash, rfl, hhalf p.1 p.2⟩

/-! ## The halves of one transfer -/

/-- The halves, among some transactions, of the transfer with a given hash. -/
def halvesOf (txs : List Transaction) (raw : List UInt8) : List Transaction :=
  txs.filter fun tx => tx.rawTxHash = some raw

/-- The confirmations, among some, that are about the transfer with a given hash. -/
def confirmsOf (ms : List MagConfirm) (raw : List UInt8) : List MagConfirm :=
  ms.filter fun m => m.rawMeg.tx.txHash = raw

theorem mem_halvesOf {txs : List Transaction} {raw : List UInt8} {tx : Transaction} :
    tx ∈ halvesOf txs raw ↔ tx ∈ txs ∧ tx.rawTxHash = some raw := by
  simp [halvesOf]

theorem halvesOf_append (txs txs' : List Transaction) (raw : List UInt8) :
    halvesOf (txs ++ txs') raw = halvesOf txs raw ++ halvesOf txs' raw :=
  List.filter_append txs txs'

/-- A report confirms a registered half as often as its hash is reported. -/
theorem Registers.confirmsOf_eq {txs : List Transaction} (hreg : Registers pool txs)
    (hnodup : (txs.map Transaction.txHash).Nodup) {raw : List UInt8} {tx : Transaction}
    (htx : halvesOf txs raw = [tx]) (hs : List (List UInt8)) :
    (confirmsOf (hs.filterMap fun h => pool.lookup h) raw).map MagConfirm.txHash =
      List.replicate (hs.count tx.txHash) tx.txHash := by
  obtain ⟨hmem, hraw⟩ := mem_halvesOf.1 (htx ▸ List.mem_singleton_self tx)
  obtain ⟨m, hm⟩ := Finmap.mem_iff.1 (hreg.mem tx hmem)
  have hmine : ∀ {h : List UInt8} {m : MagConfirm}, pool.lookup h = some m →
      (m.rawMeg.tx.txHash = raw ↔ h = tx.txHash) := by
    intro h m hm
    obtain ⟨tx', htx', hhash, -, hraw'⟩ := hreg.of_lookup h m hm
    constructor
    · rintro rfl
      have : tx' ∈ halvesOf txs m.rawMeg.tx.txHash := mem_halvesOf.2 ⟨htx', hraw'⟩
      rw [htx, List.mem_singleton] at this
      rw [← hhash, this]
    · rintro rfl
      obtain rfl := List.inj_on_of_nodup_map hnodup htx' hmem hhash
      exact Option.some.inj (hraw'.symm.trans hraw)
  obtain ⟨-, -, -, hmhash, -⟩ := hreg.of_lookup _ m hm
  rw [confirmsOf, filter_filterMap_eq_replicate (f := fun h => pool.lookup h) hm,
    List.map_replicate, hmhash]
  intro h m' hm'
  rw [decide_eq_true_iff]
  exact hmine hm'

/-- Nothing is confirmed of a transfer that has no registered half. -/
theorem Registers.confirmsOf_nil {txs : List Transaction} (hreg : Registers pool txs)
    {raw : List UInt8} (htx : halvesOf txs raw = []) (hs : List (List UInt8)) :
    confirmsOf (hs.filterMap fun h => pool.lookup h) raw = [] := by
  rw [confirmsOf, List.filter_eq_nil_iff]
  intro m hm hraw
  obtain ⟨h, -, hlookup⟩ := List.mem_filterMap.1 hm
  obtain ⟨tx, htx', -, -, hraw'⟩ := hreg.of_lookup h m hlookup
  have : tx ∈ halvesOf txs raw :=
    mem_halvesOf.2 ⟨htx', by rw [hraw', of_decide_eq_true hraw]⟩
  rw [htx] at this
  exact List.not_mem_nil this

end Register

/-! ## What the handlers do -/

namespace Broker

theorem brokerTxs_record (b : Broker) (m : MagConfirm) (raw : List UInt8) :
    (b.record m).brokerTxs raw =
      b.brokerTxs raw ++ (confirmsOf [m] raw).map MagConfirm.txHash := by
  rw [brokerTxs, record, confirmsOf]
  by_cases h : m.rawMeg.tx.txHash = raw
  · subst h
    simp
  · rw [Finmap.lookup_insert_of_ne _ (Ne.symm h)]
    simp [h, brokerTxs]

/-- Confirmed halves are appended to the list of their transfer. -/
theorem brokerTxs_foldl_record (b : Broker) (ms : List MagConfirm) (raw : List UInt8) :
    (ms.foldl record b).brokerTxs raw =
      b.brokerTxs raw ++ (confirmsOf ms raw).map MagConfirm.txHash := by
  induction ms generalizing b with
  | nil => exact (List.append_nil _).symm
  | cons m ms ih =>
    rw [List.foldl_cons, ih, brokerTxs_record, List.append_assoc, ← List.map_append]
    exact congrArg (fun l => _ ++ List.map _ l) (List.filter_append [m] ms).symm

theorem foldl_record_frame (b : Broker) (ms : List MagConfirm) :
    (ms.foldl record b).brokerRawMegs = b.brokerRawMegs ∧
      (ms.foldl record b).brokerAddress = b.brokerAddress := by
  induction ms generalizing b with
  | nil => exact ⟨rfl, rfl⟩
  | cons m ms ih => exact ih (b.record m)

end Broker

namespace BrokerModule

/-- The batch is divided: the messages have the transfers between shards, in order. -/
theorem dealLoop_spec {home : Address → ℕ} {b : BrokerModule} {txs : List Transaction}
    {d : List BrokerRawMeg × List Transaction} (h : b.dealLoop home txs = some d) :
    d.1.map BrokerRawMeg.tx = txs.filter (b.crosses home) ∧
      d.2 = (txs.filter fun tx => !b.crosses home tx).map b.mark ∧
      ∀ meg ∈ d.1, b.broker.brokerAddress.head? = some meg.broker := by
  induction txs generalizing d with
  | nil =>
    obtain rfl := Option.some.inj h
    exact ⟨rfl, rfl, by simp⟩
  | cons tx txs ih =>
    rw [dealLoop] at h
    split at h
    next hcross =>
      obtain ⟨broker, hbroker, h⟩ := Option.bind_eq_some_iff.1 h
      obtain ⟨d', hd', rfl⟩ := Option.map_eq_some_iff.1 h
      obtain ⟨hraw, hrest, hall⟩ := ih hd'
      refine ⟨by simp [hcross, hraw], by simp [hcross, hrest], ?_⟩
      intro meg hmeg
      rcases List.mem_cons.1 hmeg with rfl | hmeg
      · exact hbroker
      · exact hall meg hmeg
    next hcross =>
      obtain ⟨d', hd', rfl⟩ := Option.map_eq_some_iff.1 h
      obtain ⟨hraw, hrest, hall⟩ := ih hd'
      exact ⟨by simp [hcross, hraw], by simp [hcross, hrest], hall⟩

/-- The confirmations whose raw messages the broker has. -/
def knownConfirms (rawDigest : BrokerRawMeg → List UInt8) (b : Broker) (ms : List MagConfirm) :
    List MagConfirm :=
  ms.filter fun m => rawDigest m.rawMeg ∈ b.brokerRawMegs

/-- The known confirmations are recorded and answered. -/
theorem confirmLoop_spec {rawDigest : BrokerRawMeg → List UInt8} {b : Broker}
    {ms : List MagConfirm} {c : Broker × List BrokerTypeMeg}
    (h : confirmLoop rawDigest b ms = some c) :
    c.1 = (knownConfirms rawDigest b ms).foldl Broker.record b ∧
      c.2.map BrokerTypeMeg.rawMeg = (knownConfirms rawDigest b ms).map MagConfirm.rawMeg ∧
      ∀ meg ∈ c.2, b.brokerAddress.head? = some meg.broker := by
  induction ms generalizing b c with
  | nil =>
    obtain rfl := Option.some.inj h
    exact ⟨rfl, rfl, by simp⟩
  | cons m ms ih =>
    rw [confirmLoop] at h
    split at h
    next hknown =>
      obtain ⟨broker, hbroker, h⟩ := Option.bind_eq_some_iff.1 h
      obtain ⟨c', hc', rfl⟩ := Option.map_eq_some_iff.1 h
      obtain ⟨hfold, hmegs, hall⟩ := ih hc'
      have hcons : knownConfirms rawDigest b (m :: ms) = m :: knownConfirms rawDigest b ms :=
        List.filter_cons_of_pos (decide_eq_true hknown)
      rw [hcons]
      refine ⟨hfold, congrArg (m.rawMeg :: ·) hmegs, ?_⟩
      intro meg hmeg
      rcases List.mem_cons.1 hmeg with rfl | hmeg
      · exact hbroker
      · exact hall meg hmeg
    next hknown =>
      have hcons : knownConfirms rawDigest b (m :: ms) = knownConfirms rawDigest b ms :=
        List.filter_cons_of_neg fun h => hknown (of_decide_eq_true h)
      rw [hcons]
      exact ih h

end BrokerModule

end BlockEmulator
