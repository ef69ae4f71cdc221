import BlockEmulator.Lib.Run
import BlockEmulator.Supervisor.BrokerModule

set_option autoImplicit false

/-! # The broker protocol

Runs of the broker module: batches of transactions and reports of blocks, in any order. Read at the hash
of one transfer, the four maps of the module are a machine of three stages (`Stage`): the first half is
out, the second half is out, both are confirmed. The proof follows one transfer through the reports; that
each report finds what it should in the maps is `Consistent`. -/

namespace BlockEmulator

/-! ## Runs of the committee -/

/-- The committee, with what has happened so far: the transactions dealt with, the transfers among them
    that went to the broker, the halves that were created, and the reported hashes. -/
structure BrokerTrace where
  bcm : BrokerModule
  dealt : List Transaction := []
  raws : List Transaction := []
  tx1s : List Transaction := []
  tx2s : List Transaction := []
  reported : List (List UInt8) := []

/-- `NewBrokerCommitteeMod`, with the broker addresses of the file. -/
def BrokerTrace.init (brokers : List Address) : BrokerTrace :=
  { bcm := { broker := { brokerAddress := brokers } } }

/-- The calls of the committee, with the time of each new transaction. `home` is what
    `fetchModifiedMap` answers during the call: `Addr2Shard` in the broker committee. -/
inductive BrokerAct where
  | dealTxByBroker (home : Address → ℕ) (now : ℕ → ℕ) (txs : List Transaction)
  | handleBlockInfo (now : ℕ → ℕ) (info : BlockInfoMsg)

/-- The hashes that `HandleBlockInfo` looks up. -/
def BlockInfoMsg.reportedHashes (info : BlockInfoMsg) : List (List UInt8) :=
  if info.blockBodyLength = 0 then []
  else (info.broker1Txs ++ info.broker2Txs).map Transaction.txHash

namespace BrokerTrace

variable (digest : TxDigest) (rawDigest : BrokerRawMeg → List UInt8)

def step (t : BrokerTrace) : BrokerAct → Option BrokerTrace
  | .dealTxByBroker home now txs =>
    (t.bcm.dealTxByBroker digest rawDigest home now txs).map fun r =>
      { t with
        bcm := r.1
        dealt := t.dealt ++ txs
        raws := t.raws ++ txs.filter (t.bcm.crosses home)
        tx1s := t.tx1s ++ r.2.1 }
  | .handleBlockInfo now info =>
    (t.bcm.handleBlockInfo digest rawDigest now info).map fun r =>
      { t with
        bcm := r.1
        tx2s := t.tx2s ++ r.2
        reported := t.reported ++ info.reportedHashes }

/-- The hashes of all transactions are distinct, and no half is reported twice. -/
structure Distinct (t : BrokerTrace) : Prop where
  hashes : ((t.dealt ++ t.tx1s ++ t.tx2s).map Transaction.txHash).Nodup
  reported : ∀ tx ∈ t.tx1s ++ t.tx2s, t.reported.count tx.txHash ≤ 1

/-- A first half: from the sender of the transfer to the first broker. -/
structure IsFirstHalf (brokers : List Address) (c tx : Transaction) : Prop where
  rawTxHash : tx.rawTxHash = some c.txHash
  sender : tx.sender = c.sender
  recipient : brokers.head? = some tx.recipient
  value : tx.value = c.value

/-- A second half: from the first broker to the recipient of the transfer. -/
structure IsSecondHalf (brokers : List Address) (c tx : Transaction) : Prop where
  rawTxHash : tx.rawTxHash = some c.txHash
  sender : brokers.head? = some tx.sender
  recipient : tx.recipient = c.recipient
  value : tx.value = c.value

/-- How far the transfer with the hash `raw` and the first half `tx1` has come. -/
inductive Stage (t : BrokerTrace) (raw : List UInt8) (tx1 : Transaction) : Prop
  | first (hlist : t.bcm.broker.brokerTxs raw = []) (hnone : halvesOf t.tx2s raw = [])
  | second (tx2 : Transaction) (hlist : t.bcm.broker.brokerTxs raw = [tx1.txHash])
      (htx2 : halvesOf t.tx2s raw = [tx2]) (hreported : tx1.txHash ∈ t.reported)
  | done (tx2 : Transaction) (hlist : t.bcm.broker.brokerTxs raw = [tx1.txHash, tx2.txHash])
      (htx2 : halvesOf t.tx2s raw = [tx2]) (hreported : tx1.txHash ∈ t.reported)
      (hreported₂ : tx2.txHash ∈ t.reported)

/-- The maps of the committee fit what has happened. -/
structure Consistent (brokers : List Address) (t : BrokerTrace) : Prop where
  address : t.bcm.broker.brokerAddress = brokers
  raws_sublist : t.raws.Sublist t.dealt
  pool1 : Registers t.bcm.brokerConfirm1Pool t.tx1s
  pool2 : Registers t.bcm.brokerConfirm2Pool t.tx2s
  known : ∀ h m, t.bcm.brokerConfirm1Pool.lookup h = some m →
    m.rawMeg.tx ∈ t.raws ∧ rawDigest m.rawMeg ∈ t.bcm.broker.brokerRawMegs
  tx1s_raws : t.tx1s.map Transaction.rawTxHash = t.raws.map fun c => some c.txHash
  first : ∀ tx ∈ t.tx1s, ∃ c ∈ t.raws, IsFirstHalf brokers c tx
  second : ∀ tx ∈ t.tx2s, ∃ c ∈ t.raws, IsSecondHalf brokers c tx
  unknown : ∀ raw, (∀ c ∈ t.raws, c.txHash ≠ raw) → t.bcm.broker.brokerTxs raw = []

variable {digest : TxDigest} {rawDigest : BrokerRawMeg → List UInt8} {brokers : List Address}
  {t t' : BrokerTrace}

/-! ### One batch -/

/-- What a batch changes. -/
theorem step_deal {home : Address → ℕ} {now : ℕ → ℕ} {txs : List Transaction}
    (h : t.step digest rawDigest (.dealTxByBroker home now txs) = some t') :
    ∃ megs : List BrokerRawMeg, megs.map BrokerRawMeg.tx = txs.filter (t.bcm.crosses home) ∧
      (∀ meg ∈ megs, t.bcm.broker.brokerAddress.head? = some meg.broker) ∧
      t' = { t with
        bcm := (t.bcm.handleBrokerRawMag digest rawDigest now megs).1
        dealt := t.dealt ++ txs
        raws := t.raws ++ megs.map BrokerRawMeg.tx
        tx1s := t.tx1s ++ (t.bcm.handleBrokerRawMag digest rawDigest now megs).2 } := by
  obtain ⟨r, hr, rfl⟩ := Option.map_eq_some_iff.1 h
  obtain ⟨d, hd, rfl⟩ := Option.map_eq_some_iff.1 hr
  obtain ⟨hraw, -, hall⟩ := BrokerModule.dealLoop_spec hd
  exact ⟨d.1, hraw, hall, by rw [hraw]⟩

theorem rawTxHash_tx1s (now : ℕ → ℕ) (b : BrokerModule) (megs : List BrokerRawMeg) :
    (b.handleBrokerRawMag digest rawDigest now megs).2.map Transaction.rawTxHash =
      megs.map fun meg => some meg.tx.txHash := by
  have hmegs := map_snd_stamped now (megs.map fun meg => BrokerTypeMeg.mk meg meg.broker)
  have := congrArg (List.map fun meg => some meg.rawMeg.tx.txHash) hmegs
  rw [List.map_map, List.map_map] at this
  refine Eq.trans ?_ this
  exact (congrArg _ (register_snd _ _ _)).trans (List.map_map ..)

theorem Consistent.deal (hc : Consistent rawDigest brokers t) {home : Address → ℕ} {now : ℕ → ℕ}
    {txs : List Transaction}
    (h : t.step digest rawDigest (.dealTxByBroker home now txs) = some t') :
    Consistent rawDigest brokers t' := by
  obtain ⟨megs, hmegs, hbroker, rfl⟩ := step_deal h
  constructor
  · exact hc.address
  · exact hc.raws_sublist.append (hmegs ▸ List.filter_sublist)
  · exact hc.pool1.register (fun _ _ => rfl) _
  · exact hc.pool2
  · intro hash m hm
    rcases lookup_register hm with hm | ⟨p, hp, -, rfl⟩
    · obtain ⟨hraw, hknown⟩ := hc.known hash m hm
      exact ⟨List.mem_append_left _ hraw, Finmap.mem_foldl_insert.2 (.inl hknown)⟩
    · obtain ⟨meg, hmeg, hp⟩ := List.mem_map.1 (mem_of_mem_stamped hp)
      rw [← hp]
      exact ⟨List.mem_append_right _ (List.mem_map_of_mem hmeg),
        Finmap.mem_foldl_insert.2 (.inr ⟨meg, hmeg, rfl⟩)⟩
  · rw [List.map_append, List.map_append, hc.tx1s_raws, rawTxHash_tx1s, List.map_map]
    rfl
  · intro tx htx
    rcases List.mem_append.1 htx with htx | htx
    · obtain ⟨c, hmem, hhalf⟩ := hc.first tx htx
      exact ⟨c, List.mem_append_left _ hmem, hhalf⟩
    · rw [BrokerModule.handleBrokerRawMag, BrokerCommittee.handleBrokerType1Mes,
        register_snd] at htx
      obtain ⟨p, hp, rfl⟩ := List.mem_map.1 htx
      obtain ⟨meg, hmeg, hp⟩ := List.mem_map.1 (mem_of_mem_stamped hp)
      refine ⟨meg.tx, List.mem_append_right _ (List.mem_map_of_mem hmeg), ?_⟩
      rw [← hp]
      exact ⟨rfl, rfl, hc.address ▸ hbroker meg hmeg, rfl⟩
  · intro tx htx
    obtain ⟨c, hmem, hhalf⟩ := hc.second tx htx
    exact ⟨c, List.mem_append_left _ hmem, hhalf⟩
  · intro raw hraw
    exact hc.unknown raw fun c hmem => hraw c (List.mem_append_left _ hmem)

/-! ### One report -/

/-- The confirmations that reported hashes find in the first pool, and in the second. -/
def confirms1 (t : BrokerTrace) (hs : List (List UInt8)) : List MagConfirm :=
  hs.filterMap fun hash => t.bcm.brokerConfirm1Pool.lookup hash

def confirms2 (t : BrokerTrace) (hs : List (List UInt8)) : List MagConfirm :=
  hs.filterMap fun hash => t.bcm.brokerConfirm2Pool.lookup hash

/-- The state after a report of the hashes `hs` that is answered with the messages `megs`. -/
def report (digest : TxDigest) (now : ℕ → ℕ) (hs : List (List UInt8)) (megs : List BrokerTypeMeg)
    (t : BrokerTrace) : BrokerTrace :=
  let r := t.bcm.toBrokerCommittee.handleBrokerType2Mes digest (stamped now megs)
  { t with
    bcm := { toBrokerCommittee := r.1
             broker := (t.confirms2 hs).foldl Broker.record
               ((t.confirms1 hs).foldl Broker.record t.bcm.broker) }
    tx2s := t.tx2s ++ r.2
    reported := t.reported ++ hs }

/-- The raw messages of all confirmed first halves are known. -/
theorem Consistent.knownConfirms_eq (hc : Consistent rawDigest brokers t)
    (hs : List (List UInt8)) :
    BrokerModule.knownConfirms rawDigest t.bcm.broker (t.confirms1 hs) = t.confirms1 hs := by
  rw [BrokerModule.knownConfirms, List.filter_eq_self]
  intro m hm
  obtain ⟨hash, -, hlookup⟩ := List.mem_filterMap.1 hm
  exact decide_eq_true (hc.known hash m hlookup).2

/-- What a report changes: every confirmation of a first half is answered. -/
theorem step_report (hc : Consistent rawDigest brokers t) {now : ℕ → ℕ} {info : BlockInfoMsg}
    (h : t.step digest rawDigest (.handleBlockInfo now info) = some t') :
    ∃ megs : List BrokerTypeMeg, megs.map BrokerTypeMeg.rawMeg =
        (t.confirms1 info.reportedHashes).map MagConfirm.rawMeg ∧
      (∀ meg ∈ megs, brokers.head? = some meg.broker) ∧
      t' = t.report digest now info.reportedHashes megs := by
  obtain ⟨r, hr, rfl⟩ := Option.map_eq_some_iff.1 h
  rw [BrokerModule.handleBlockInfo] at hr
  by_cases hlength : info.blockBodyLength = 0
  · rw [if_pos hlength] at hr
    obtain rfl := Option.some.inj hr
    have hhashes : info.reportedHashes = [] := if_pos hlength
    rw [hhashes]
    exact ⟨[], rfl, by simp, rfl⟩
  · rw [if_neg hlength] at hr
    have hhashes : info.reportedHashes =
        (info.broker1Txs ++ info.broker2Txs).map Transaction.txHash := if_neg hlength
    rw [hhashes]
    obtain ⟨r₁, hr₁, rfl⟩ := Option.map_eq_some_iff.1 hr
    obtain ⟨c, hloop, rfl⟩ := Option.map_eq_some_iff.1 hr₁
    have hconfirmed : BrokerModule.confirmed t.bcm.brokerConfirm1Pool
        (info.broker1Txs ++ info.broker2Txs) = t.confirms1 _ := rfl
    rw [hconfirmed] at hloop
    obtain ⟨hfold, hmegs, hall⟩ := BrokerModule.confirmLoop_spec hloop
    rw [hc.knownConfirms_eq] at hfold hmegs
    refine ⟨c.2, hmegs, fun meg hmeg => hc.address ▸ hall meg hmeg, ?_⟩
    rw [hfold]
    rfl

theorem brokerTxs_report (t : BrokerTrace) (digest : TxDigest) (now : ℕ → ℕ) (hs : List (List UInt8))
    (megs : List BrokerTypeMeg) (raw : List UInt8) :
    (t.report digest now hs megs).bcm.broker.brokerTxs raw = t.bcm.broker.brokerTxs raw ++
      (confirmsOf (t.confirms1 hs) raw).map MagConfirm.txHash ++
      (confirmsOf (t.confirms2 hs) raw).map MagConfirm.txHash := by
  rw [report, Broker.brokerTxs_foldl_record, Broker.brokerTxs_foldl_record]

/-- As many second halves of a transfer are created as first halves of it are confirmed. -/
theorem length_halvesOf_report (digest : TxDigest) (now : ℕ → ℕ) {hs : List (List UInt8)}
    {megs : List BrokerTypeMeg}
    (hmegs : megs.map BrokerTypeMeg.rawMeg = (t.confirms1 hs).map MagConfirm.rawMeg)
    (raw : List UInt8) :
    ∃ new : List Transaction, (t.report digest now hs megs).tx2s = t.tx2s ++ new ∧
      (halvesOf new raw).length = (confirmsOf (t.confirms1 hs) raw).length := by
  refine ⟨_, rfl, ?_⟩
  rw [halvesOf, confirmsOf, ← List.countP_eq_length_filter, ← List.countP_eq_length_filter,
    BrokerCommittee.handleBrokerType2Mes, register_snd, List.countP_map]
  have hraws : ((stamped now megs).map Prod.snd).map BrokerTypeMeg.rawMeg =
      (t.confirms1 hs).map MagConfirm.rawMeg := by rw [map_snd_stamped, hmegs]
  have := congrArg (List.countP fun meg => decide (meg.tx.txHash = raw)) hraws
  rw [List.countP_map, List.countP_map, List.countP_map] at this
  refine Eq.trans (List.countP_congr fun p _ => ?_) this
  simp [BrokerCommittee.tx2Of, BrokerCommittee.halfOf]

/-- Nothing has been created for a hash that no transfer has. -/
theorem Consistent.halvesOf_unknown (hc : Consistent rawDigest brokers t) {raw : List UInt8}
    (hraw : ∀ c ∈ t.raws, c.txHash ≠ raw) :
    halvesOf t.tx1s raw = [] ∧ halvesOf t.tx2s raw = [] := by
  constructor
  · refine List.filter_eq_nil_iff.2 fun tx htx heq => ?_
    obtain ⟨c, hmem, hhalf⟩ := hc.first tx htx
    exact hraw c hmem (Option.some.inj (hhalf.rawTxHash.symm.trans (of_decide_eq_true heq)))
  · refine List.filter_eq_nil_iff.2 fun tx htx heq => ?_
    obtain ⟨c, hmem, hhalf⟩ := hc.second tx htx
    exact hraw c hmem (Option.some.inj (hhalf.rawTxHash.symm.trans (of_decide_eq_true heq)))

theorem Consistent.report (hc : Consistent rawDigest brokers t) {now : ℕ → ℕ}
    {info : BlockInfoMsg} (h : t.step digest rawDigest (.handleBlockInfo now info) = some t') :
    Consistent rawDigest brokers t' := by
  obtain ⟨megs, hmegs, hbroker, rfl⟩ := step_report hc h
  obtain ⟨hraws₁, haddress₁⟩ := Broker.foldl_record_frame t.bcm.broker
    (t.confirms1 info.reportedHashes)
  obtain ⟨hraws₂, haddress₂⟩ := Broker.foldl_record_frame
    ((t.confirms1 info.reportedHashes).foldl Broker.record t.bcm.broker)
    (t.confirms2 info.reportedHashes)
  constructor
  · exact haddress₂.trans (haddress₁.trans hc.address)
  · exact hc.raws_sublist
  · exact hc.pool1
  · exact hc.pool2.register (fun _ _ => rfl) _
  · intro hash m hm
    obtain ⟨hraw, hknown⟩ := hc.known hash m hm
    exact ⟨hraw, (hraws₂.trans hraws₁).symm ▸ hknown⟩
  · exact hc.tx1s_raws
  · exact hc.first
  · intro tx htx
    rcases List.mem_append.1 htx with htx | htx
    · exact hc.second tx htx
    · rw [BrokerCommittee.handleBrokerType2Mes, register_snd] at htx
      obtain ⟨p, hp, rfl⟩ := List.mem_map.1 htx
      have hp := mem_of_mem_stamped hp
      have hraw : p.2.rawMeg ∈ (t.confirms1 info.reportedHashes).map MagConfirm.rawMeg :=
        hmegs ▸ List.mem_map_of_mem hp
      obtain ⟨m, hm, heq⟩ := List.mem_map.1 hraw
      obtain ⟨hash, -, hlookup⟩ := List.mem_filterMap.1 hm
      exact ⟨p.2.rawMeg.tx, heq ▸ (hc.known hash m hlookup).1, rfl, hbroker p.2 hp, rfl, rfl⟩
  · intro raw hraw
    obtain ⟨hnone₁, hnone₂⟩ := hc.halvesOf_unknown hraw
    rw [brokerTxs_report, hc.unknown raw hraw, confirms1, confirms2,
      hc.pool1.confirmsOf_nil hnone₁, hc.pool2.confirmsOf_nil hnone₂]
    rfl

/-! ### The stages of a transfer -/

theorem Consistent.nodup_raws (hc : Consistent rawDigest brokers t) (hd : t.Distinct) :
    (t.raws.map Transaction.txHash).Nodup := by
  have hdealt := hd.hashes
  rw [List.append_assoc, List.map_append] at hdealt
  exact (hc.raws_sublist.map _).nodup (List.nodup_append.1 hdealt).1

/-- A transfer has one first half. -/
theorem Consistent.halvesOf_tx1s (hc : Consistent rawDigest brokers t) (hd : t.Distinct)
    {c : Transaction} (hmem : c ∈ t.raws) : ∃ tx1, halvesOf t.tx1s c.txHash = [tx1] := by
  have hraws := hc.nodup_raws hd
  have hhashes : t.tx1s.map Transaction.rawTxHash =
      (t.raws.map Transaction.txHash).map some := by
    rw [hc.tx1s_raws, List.map_map]
    rfl
  have hnodup : (t.tx1s.map Transaction.rawTxHash).Nodup :=
    hhashes ▸ hraws.map (Option.some_injective _)
  have hhash : some c.txHash ∈ t.tx1s.map Transaction.rawTxHash :=
    hhashes ▸ List.mem_map_of_mem (List.mem_map_of_mem hmem)
  obtain ⟨tx1, htx1, heq⟩ := List.mem_map.1 hhash
  exact ⟨tx1, by rw [halvesOf, ← heq]; exact filter_eq_singleton hnodup htx1⟩

/-- A half that was there before a report is reported once at most, now or earlier. -/
theorem Distinct.count_report {now : ℕ → ℕ} {hs : List (List UInt8)} {megs : List BrokerTypeMeg}
    (hd : (t.report digest now hs megs).Distinct) {tx : Transaction} (htx : tx ∈ t.tx1s ++ t.tx2s) :
    hs.count tx.txHash = 0 ∨
      hs.count tx.txHash = 1 ∧ tx.txHash ∉ t.reported ∧ tx.txHash ∈ hs := by
  have hmem : tx ∈ (t.report digest now hs megs).tx1s ++ (t.report digest now hs megs).tx2s :=
    ((List.Sublist.refl _).append (List.sublist_append_left _ _)).subset htx
  have hle : (t.reported ++ hs).count tx.txHash ≤ 1 := hd.reported tx hmem
  rw [List.count_append] at hle
  rcases Nat.eq_zero_or_pos (hs.count tx.txHash) with hzero | hpos
  · exact .inl hzero
  · have hzero : t.reported.count tx.txHash = 0 := by omega
    exact .inr ⟨by omega, List.count_eq_zero.1 hzero, List.count_pos_iff.1 hpos⟩

/-- A half that was reported earlier is not reported now. -/
theorem Distinct.count_report_eq_zero {now : ℕ → ℕ} {hs : List (List UInt8)}
    {megs : List BrokerTypeMeg} (hd : (t.report digest now hs megs).Distinct) {tx : Transaction}
    (htx : tx ∈ t.tx1s ++ t.tx2s) (hreported : tx.txHash ∈ t.reported) :
    hs.count tx.txHash = 0 :=
  (hd.count_report htx).resolve_right fun h => h.2.1 hreported

/-- **One report** moves a transfer on by at most one stage. -/
theorem Stage.report (hc : Consistent rawDigest brokers t) (hd : t.Distinct) {now : ℕ → ℕ}
    {hs : List (List UInt8)} {megs : List BrokerTypeMeg}
    (hmegs : megs.map BrokerTypeMeg.rawMeg = (t.confirms1 hs).map MagConfirm.rawMeg)
    (hd' : (t.report digest now hs megs).Distinct) {raw : List UInt8} {tx1 : Transaction}
    (htx1 : halvesOf t.tx1s raw = [tx1]) (hstage : Stage t raw tx1) :
    Stage (t.report digest now hs megs) raw tx1 := by
  have hmem₁ : tx1 ∈ t.tx1s ++ t.tx2s :=
    List.mem_append_left _ (mem_halvesOf.1 (htx1 ▸ List.mem_singleton_self tx1)).1
  have hmem₂ : ∀ {tx2}, halvesOf t.tx2s raw = [tx2] → tx2 ∈ t.tx1s ++ t.tx2s := fun htx2 =>
    List.mem_append_right _ (mem_halvesOf.1 (htx2 ▸ List.mem_singleton_self _)).1
  obtain ⟨hnodup, hnodup₂, -⟩ := List.nodup_append.1 ((List.map_append ..) ▸ hd.hashes)
  obtain ⟨-, hnodup₁, -⟩ := List.nodup_append.1 ((List.map_append ..) ▸ hnodup)
  -- the list grows by the confirmed halves, the second halves by as many as first halves are confirmed
  have hconfirms₁ := hc.pool1.confirmsOf_eq hnodup₁ htx1 hs
  have hlist := t.brokerTxs_report digest now hs megs raw
  obtain ⟨new, htx2s, hnew⟩ := length_halvesOf_report digest now hmegs raw
  have hlen := congrArg List.length hconfirms₁
  rw [List.length_map, List.length_replicate] at hlen
  rw [confirms1, hlen] at hnew
  rw [confirms1, hconfirms₁] at hlist
  have hhalves : halvesOf (t.report digest now hs megs).tx2s raw =
      halvesOf t.tx2s raw ++ halvesOf new raw := by rw [htx2s, halvesOf_append]
  cases hstage with
  | first hempty hnone =>
    rw [hempty, confirms2, hc.pool2.confirmsOf_nil hnone, List.map_nil, List.append_nil,
      List.nil_append] at hlist
    rw [hnone, List.nil_append] at hhalves
    rcases hd'.count_report hmem₁ with hzero | ⟨hone, -, hin⟩
    · rw [hzero] at hlist hnew
      exact .first hlist (hhalves.trans (List.length_eq_zero_iff.1 hnew))
    · rw [hone] at hlist hnew
      obtain ⟨tx2, htx2⟩ := List.length_eq_one_iff.1 hnew
      exact .second tx2 hlist (hhalves.trans htx2) (List.mem_append_right _ hin)
  | second tx2 hsecond htx2 hreported =>
    rw [hd'.count_report_eq_zero hmem₁ hreported] at hlist hnew
    rw [hsecond, confirms2, hc.pool2.confirmsOf_eq hnodup₂ htx2 hs] at hlist
    rw [htx2, List.length_eq_zero_iff.1 hnew] at hhalves
    rcases hd'.count_report (hmem₂ htx2) with hzero₂ | ⟨hone, -, hin⟩
    · rw [hzero₂] at hlist
      exact .second tx2 hlist hhalves (List.mem_append_left _ hreported)
    · rw [hone] at hlist
      exact .done tx2 hlist hhalves (List.mem_append_left _ hreported)
        (List.mem_append_right _ hin)
  | done tx2 hboth htx2 hreported hreported₂ =>
    rw [hd'.count_report_eq_zero hmem₁ hreported] at hlist hnew
    rw [hboth, confirms2, hc.pool2.confirmsOf_eq hnodup₂ htx2 hs,
      hd'.count_report_eq_zero (hmem₂ htx2) hreported₂] at hlist
    rw [htx2, List.length_eq_zero_iff.1 hnew] at hhalves
    exact .done tx2 hlist hhalves (List.mem_append_left _ hreported)
      (List.mem_append_left _ hreported₂)

/-- Every transfer is at one of the stages. -/
def Staged (t : BrokerTrace) : Prop :=
  ∀ c ∈ t.raws, ∀ tx1, halvesOf t.tx1s c.txHash = [tx1] → Stage t c.txHash tx1

/-- **One batch** starts new transfers and leaves the others where they are. -/
theorem Staged.deal (hc : Consistent rawDigest brokers t) (hd : t.Distinct) {home : Address → ℕ}
    {now : ℕ → ℕ} {txs : List Transaction}
    (h : t.step digest rawDigest (.dealTxByBroker home now txs) = some t') (hd' : t'.Distinct)
    (hs : Staged t) : Staged t' := by
  have hnodup := (hc.deal h).nodup_raws hd'
  obtain ⟨megs, -, -, rfl⟩ := step_deal h
  intro c hmem tx1 htx1
  rcases List.mem_append.1 hmem with hold | hnew
  · obtain ⟨tx1', htx1'⟩ := hc.halvesOf_tx1s hd hold
    obtain rfl : tx1' = tx1 := by
      rw [halvesOf_append, htx1', List.singleton_append] at htx1
      exact (List.cons.inj htx1).1
    cases hs c hold tx1' htx1' with
    | first hlist hnone => exact .first hlist hnone
    | second tx2 hlist htx2 hreported => exact .second tx2 hlist htx2 hreported
    | done tx2 hlist htx2 hreported hreported₂ =>
      exact .done tx2 hlist htx2 hreported hreported₂
  · -- the hash of a new transfer is not that of an earlier one
    rw [List.map_append] at hnodup
    have hfresh : ∀ c' ∈ t.raws, c'.txHash ≠ c.txHash := fun c' hc' =>
      (List.nodup_append.1 hnodup).2.2 _ (List.mem_map_of_mem hc') _ (List.mem_map_of_mem hnew)
    exact .first (hc.unknown _ hfresh) (hc.halvesOf_unknown hfresh).2

/-- The record of what has happened only grows. -/
theorem Distinct.of_step {a : BrokerAct} (h : t.step digest rawDigest a = some t')
    (hd : t'.Distinct) : t.Distinct := by
  have hgrow : t.dealt.Sublist t'.dealt ∧ t.tx1s.Sublist t'.tx1s ∧ t.tx2s.Sublist t'.tx2s ∧
      t.reported.Sublist t'.reported := by
    cases a with
    | dealTxByBroker home now txs =>
      obtain ⟨r, -, rfl⟩ := Option.map_eq_some_iff.1 h
      exact ⟨List.sublist_append_left .., List.sublist_append_left .., .refl _, .refl _⟩
    | handleBlockInfo now info =>
      obtain ⟨r, -, rfl⟩ := Option.map_eq_some_iff.1 h
      exact ⟨.refl _, .refl _, List.sublist_append_left .., List.sublist_append_left ..⟩
  obtain ⟨hdealt, htx1s, htx2s, hreported⟩ := hgrow
  constructor
  · exact (((hdealt.append htx1s).append htx2s).map _).nodup hd.hashes
  · intro tx htx
    exact (hreported.count_le _).trans (hd.reported tx ((htx1s.append htx2s).subset htx))

theorem consistent_init : Consistent rawDigest brokers (init brokers) where
  address := rfl
  raws_sublist := .refl _
  pool1 := ⟨by simp [init], fun _ _ hm => absurd hm (by simp [init])⟩
  pool2 := ⟨by simp [init], fun _ _ hm => absurd hm (by simp [init])⟩
  known := fun _ _ hm => absurd hm (by simp [init])
  tx1s_raws := rfl
  first := by simp [init]
  second := by simp [init]
  unknown := fun _ _ => rfl

/-- The invariant of a run whose hashes are distinct. -/
theorem consistent_of_reaches
    (hrun : Reaches (step digest rawDigest) (init brokers) t) (hd : t.Distinct) :
    Consistent rawDigest brokers t ∧ Staged t := by
  refine hrun.invariant (I := fun t => t.Distinct → Consistent rawDigest brokers t ∧ Staged t)
    ?_ ?_ hd
  · intro _
    exact ⟨consistent_init, by simp [Staged, init]⟩
  · intro t a t' ih _ hstep hd'
    have hd := Distinct.of_step hstep hd'
    obtain ⟨hc, hs⟩ := ih hd
    cases a with
    | dealTxByBroker home now txs => exact ⟨hc.deal hstep, hs.deal hc hd hstep hd'⟩
    | handleBlockInfo now info =>
      refine ⟨hc.report hstep, ?_⟩
      obtain ⟨megs, hmegs, -, rfl⟩ := step_report hc hstep
      intro c hmem tx1 htx1
      exact (hs c hmem tx1 htx1).report hc hd hmegs hd' htx1

/-- **The second half comes after the first, and both come once.** In every state of a run in which the
    hashes of all transactions are distinct and no half is reported twice: every half that was created
    is one of a transfer, and a transfer that was given to the broker has one first half, from its
    sender to the broker, and at most one second half, from the broker to its recipient, both with its
    value. If there is a second half, the first has been reported; and the list of confirmed halves is
    an initial part of the first and the second. -/
theorem second_half_after_first
    (hrun : Reaches (step digest rawDigest) (init brokers) t) (hd : t.Distinct) :
    (∀ tx ∈ t.tx1s ++ t.tx2s, ∃ c ∈ t.raws, tx.rawTxHash = some c.txHash) ∧
    ∀ c ∈ t.raws, ∃ tx1, halvesOf t.tx1s c.txHash = [tx1] ∧ IsFirstHalf brokers c tx1 ∧
      (halvesOf t.tx2s c.txHash).length ≤ 1 ∧
      (∀ tx2 ∈ halvesOf t.tx2s c.txHash,
        IsSecondHalf brokers c tx2 ∧ tx1.txHash ∈ t.reported) ∧
      t.bcm.broker.brokerTxs c.txHash <+:
        tx1.txHash :: (halvesOf t.tx2s c.txHash).map Transaction.txHash := by
  obtain ⟨hc, hs⟩ := consistent_of_reaches hrun hd
  refine ⟨?_, ?_⟩
  · intro tx htx
    rcases List.mem_append.1 htx with htx | htx
    · obtain ⟨c, hmem, hhalf⟩ := hc.first tx htx
      exact ⟨c, hmem, hhalf.rawTxHash⟩
    · obtain ⟨c, hmem, hhalf⟩ := hc.second tx htx
      exact ⟨c, hmem, hhalf.rawTxHash⟩
  intro c hmem
  have hsame : ∀ {c' tx : Transaction}, c' ∈ t.raws → tx.rawTxHash = some c'.txHash →
      tx.rawTxHash = some c.txHash → c' = c := fun hc' h h' =>
    List.inj_on_of_nodup_map (hc.nodup_raws hd) hc' hmem (Option.some.inj (h.symm.trans h'))
  obtain ⟨tx1, htx1⟩ := hc.halvesOf_tx1s hd hmem
  obtain ⟨hmem₁, hraw₁⟩ := mem_halvesOf.1 (htx1 ▸ List.mem_singleton_self tx1)
  obtain ⟨c', hc', hfirst⟩ := hc.first tx1 hmem₁
  obtain rfl := hsame hc' hfirst.rawTxHash hraw₁
  have hsecond : ∀ tx2 ∈ halvesOf t.tx2s c'.txHash, IsSecondHalf brokers c' tx2 := by
    intro tx2 htx2
    obtain ⟨hmem₂, hraw₂⟩ := mem_halvesOf.1 htx2
    obtain ⟨c'', hc'', hhalf⟩ := hc.second tx2 hmem₂
    exact hsame hc'' hhalf.rawTxHash hraw₂ ▸ hhalf
  refine ⟨tx1, htx1, hfirst, ?_⟩
  cases hs c' hmem tx1 htx1 with
  | first hlist hnone =>
    rw [hlist, hnone]
    exact ⟨Nat.zero_le _, by simp, List.nil_prefix⟩
  | second tx2 hlist htx2 hreported =>
    rw [hlist]
    refine ⟨(congrArg List.length htx2).le, fun tx htx => ⟨hsecond tx htx, hreported⟩, ?_⟩
    exact ⟨_, rfl⟩
  | done tx2 hlist htx2 hreported hreported₂ =>
    rw [hlist]
    refine ⟨(congrArg List.length htx2).le, fun tx htx => ⟨hsecond tx htx, hreported⟩, ?_⟩
    rw [htx2]
    exact List.prefix_rfl

/-! ### Alice pays bob -/

section Sample

open BlockChain ShardWorld

/-- The transfer is dealt with, and then its halves are reported. -/
def dealAndReport : List BrokerAct :=
  [.dealTxByBroker (addr2Shard 2) (fun _ => 1) [toBob],
   .handleBlockInfo (fun _ => 2)
     { blockBodyLength := 1
       broker1Txs := [BrokerCommittee.tx1Of sampleDigest 1 ⟨⟨toBob, carol⟩, carol⟩] },
   .handleBlockInfo (fun _ => 3)
     { blockBodyLength := 1
       broker2Txs := [BrokerCommittee.tx2Of sampleDigest 2 ⟨⟨toBob, carol⟩, carol⟩] }]

/-- Alice's transfer to bob is made in two halves through the broker carol. -/
theorem transfer_through_broker :
    ∃ t, Reaches (step sampleDigest fun _ => []) (init [carol]) t ∧
      t.bcm.broker.brokerTxs toBob.txHash = [[1], [2]] ∧
      ∃ tx1 tx2, halvesOf t.tx1s toBob.txHash = [tx1] ∧ halvesOf t.tx2s toBob.txHash = [tx2] ∧
        IsFirstHalf [carol] toBob tx1 ∧ IsSecondHalf [carol] toBob tx2 := by
  have hrun : ∃ t ∈ runActions (step sampleDigest fun _ => []) (init [carol]) dealAndReport,
      ((t.dealt ++ t.tx1s ++ t.tx2s).map Transaction.txHash).Nodup ∧
      (∀ tx ∈ t.tx1s ++ t.tx2s, t.reported.count tx.txHash ≤ 1) ∧ toBob ∈ t.raws ∧
      (halvesOf t.tx2s toBob.txHash).length = 1 ∧
      t.bcm.broker.brokerTxs toBob.txHash = [[1], [2]] := by decide +kernel
  obtain ⟨t, ht, hhashes, hreported, hmem, hone, hlist⟩ := hrun
  have hreach := reaches_of_runActions ht
  obtain ⟨tx1, htx1, hfirst, -, hsecond, -⟩ :=
    (second_half_after_first hreach ⟨hhashes, hreported⟩).2 toBob hmem
  obtain ⟨tx2, htx2⟩ := List.length_eq_one_iff.1 hone
  exact ⟨t, hreach, hlist, tx1, tx2, htx1, htx2, hfirst,
    (hsecond tx2 (htx2 ▸ List.mem_singleton_self tx2)).1⟩

end Sample

end BrokerTrace

end BlockEmulator
