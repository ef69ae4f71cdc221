import BlockEmulator.Supervisor.RawBroker

set_option autoImplicit false

/-! # Runs of the plain broker mode

The committee alone is the subject of `BrokerTrace`, where reports are arbitrary. Here they are what the
shards send. Every transaction that was created is in one place (`Located`): in a message, with a leader,
or in one report that is in flight or has been handled. So no half is reported twice, a report names
halves only that the committee has registered, and each reported first half is answered with one second
half (`Answered`). Counted in halves, what was dealt with is what was counted and what is still under
way; when all has drained, every transfer has both its halves confirmed, in order. -/

namespace BlockEmulator

variable {H : Type} [DecidableEq H] [Hashing H] {S : ℕ}

/-! ## Where transactions are -/

namespace RawBrokerWorld

/-- The transactions in messages, pools and proposed blocks. -/
def travelling (w : RawBrokerWorld H S) : Multiset Transaction :=
  (w.net.map fun p => (p.2.txs : Multiset Transaction)).sum +
    ∑ i, ((w.leaders i).held : Multiset Transaction)

/-- The transactions that the supervisor has sent. -/
def created (w : RawBrokerWorld H S) : List Transaction :=
  w.kept ++ w.trace.tx1s ++ w.trace.tx2s

/-- The reports in flight and those handled. -/
def reports (w : RawBrokerWorld H S) : List BlockInfoMsg := w.inbox ++ w.handled

/-- **Every transaction is in one place**, and in the list it belongs to. -/
structure Located (digest : TxDigest) (rawDigest : BrokerRawMeg → List UInt8)
    (brokers : List Address) (w : RawBrokerWorld H S) : Prop where
  /-- The committee has run as on its own. -/
  reach : Reaches (BrokerTrace.step digest rawDigest) (.init brokers) w.trace
  places : (w.created : Multiset Transaction) =
    w.travelling + (w.reports.flatMap BlockInfoMsg.brokerTxs : List Transaction)
  kept : ∀ tx ∈ w.kept, tx.part = .inner
  tx1s : ∀ tx ∈ w.trace.tx1s, tx.part = .first
  tx2s : ∀ tx ∈ w.trace.tx2s, tx.part = .second
  reports : ∀ b ∈ w.reports, b.OfBroker
  reported : w.trace.reported = w.handled.flatMap BlockInfoMsg.reportedHashes
  raws : w.trace.raws =
    w.trace.dealt.filter ((BrokerTrace.init brokers).bcm.crosses (addr2Shard S))
  kept_eq : w.kept = (w.trace.dealt.filter fun tx =>
    !(BrokerTrace.init brokers).bcm.crosses (addr2Shard S) tx).map (BrokerTrace.init brokers).bcm.mark
  counted : w.txNumCount.counts.halves = (w.handled.map BlockInfoMsg.brokerHalves).sum

variable {digest : TxDigest} {rawDigest : BrokerRawMeg → List UInt8} {injectSpeed : ℕ}
  {brokers : List Address} {w w' : RawBrokerWorld H S}

theorem Located.consistent (hw : Located digest rawDigest brokers w) :
    BrokerTrace.Consistent rawDigest brokers w.trace :=
  hw.reach.invariant BrokerTrace.consistent_init fun _ a _ hc _ hstep => by
    cases a with
    | dealTxByBroker home now txs => exact hc.deal hstep
    | handleBlockInfo now info => exact hc.report hstep

theorem Located.address (hw : Located digest rawDigest brokers w) :
    w.trace.bcm.broker.brokerAddress = brokers :=
  hw.consistent.address

theorem sum_sentTxs (msgs : List InjectTxs) :
    ((sentTxs msgs).map fun p => (p.2.txs : Multiset Transaction)).sum =
      (msgs.flatMap InjectTxs.txs : List Transaction) := by
  induction msgs with
  | nil => rfl
  | cons it msgs ih =>
    rw [List.flatMap_cons, ← Multiset.coe_add, ← ih]
    rfl

/-- New messages of `txSending` bring what is sent. -/
theorem travelling_send (hS : 0 < S) {b : BrokerModule} {txs : List Transaction}
    {msgs : List InjectTxs} (hsend : b.txSending injectSpeed S txs = some msgs)
    (net : List (ℕ × RawBrokerMsg)) :
    ((net ++ sentTxs msgs).map fun p => (p.2.txs : Multiset Transaction)).sum =
      (net.map fun p => (p.2.txs : Multiset Transaction)).sum + txs := by
  rw [List.map_append, List.sum_append, sum_sentTxs,
    Multiset.coe_eq_coe.2 (BrokerModule.txSending_perm hS hsend)]

/-- A batch: its first halves and the rest are created, and on their way. -/
theorem Located.dealBatch (hw : Located digest rawDigest brokers w) (hS : 0 < S) {now : ℕ → ℕ}
    {txlist : List Transaction} (hraw : ∀ tx ∈ txlist, tx.rawTxHash = none)
    (h : w.dealBatch digest rawDigest injectSpeed now txlist = some w') :
    Located digest rawDigest brokers w' := by
  have htrace := trace_dealBatch h
  obtain ⟨r, hr, h⟩ := Option.bind_eq_some_iff.1 h
  obtain ⟨tx1Msgs, htx1, h⟩ := Option.bind_eq_some_iff.1 h
  obtain ⟨itxMsgs, hitx, rfl⟩ := Option.map_eq_some_iff.1 h
  obtain ⟨hfirst, hinner, hitxs⟩ := BrokerModule.dealTxByBroker_parts hr hraw
  have haddress := hw.address
  refine ⟨?_, ?_, ?_, ?_, hw.tx2s, hw.reports, hw.reported, ?_, ?_, hw.counted⟩
  · exact hw.reach.tail trivial htrace
  · have hplaces := hw.places
    simp only [created, travelling, RawBrokerWorld.reports, ← Multiset.coe_add] at hplaces ⊢
    rw [← List.append_assoc, travelling_send hS hitx, travelling_send hS htx1]
    calc ((w.kept : Multiset Transaction) + r.2.2 + (w.trace.tx1s + r.2.1) + w.trace.tx2s)
        = (w.kept + w.trace.tx1s + w.trace.tx2s) + (r.2.1 + r.2.2) := by abel
      _ = _ := by rw [hplaces]; abel
  · exact fun tx htx => (List.mem_append.1 htx).elim (hw.kept tx) (hinner tx)
  · exact fun tx htx => (List.mem_append.1 htx).elim (hw.tx1s tx) (hfirst tx)
  · rw [hw.raws, BrokerModule.crosses_eq haddress, ← List.filter_append]
  · rw [hitxs, hw.kept_eq, BrokerModule.crosses_eq haddress, BrokerModule.mark_eq haddress,
      ← List.map_append, ← List.filter_append]

/-- A report is handled: it stays a report, and its second halves are created and on their way. -/
theorem Located.handleBlockInfos (hw : Located digest rawDigest brokers w) (hS : 0 < S)
    {now : ℕ → ℕ} {k : ℕ} {bim : BlockInfoMsg} (hk : w.inbox[k]? = some bim)
    (h : w.handleBlockInfos digest rawDigest injectSpeed now k bim = some w') :
    Located digest rawDigest brokers w' := by
  have htrace := trace_handleBlockInfos h
  obtain ⟨r, hr, h⟩ := Option.bind_eq_some_iff.1 h
  obtain ⟨tx2Msgs, htx2, h⟩ := Option.bind_eq_some_iff.1 h
  obtain ⟨t, ht, rfl⟩ := Option.map_eq_some_iff.1 h
  have hperm : (w.inbox.eraseIdx k ++ (w.handled ++ [bim])).Perm w.reports := by
    obtain ⟨hlt, rfl⟩ := List.getElem?_eq_some_iff.1 hk
    rw [← List.append_assoc]
    refine (List.perm_append_singleton _ _).trans ?_
    rw [← List.cons_append]
    exact (List.getElem_cons_eraseIdx_perm hlt).append_right _
  have hof : bim.OfBroker := hw.reports bim (List.mem_append_left _ (List.mem_of_getElem? hk))
  refine ⟨?_, ?_, hw.kept, hw.tx1s, ?_, ?_, ?_, hw.raws, hw.kept_eq, ?_⟩
  · exact hw.reach.tail trivial htrace
  · have hplaces := hw.places
    simp only [created, travelling, RawBrokerWorld.reports, ← Multiset.coe_add] at hplaces ⊢
    rw [travelling_send hS htx2, Multiset.coe_eq_coe.2 (hperm.flatMap_right BlockInfoMsg.brokerTxs),
      RawBrokerWorld.reports, ← add_assoc, hplaces]
    abel
  · exact fun tx htx => (List.mem_append.1 htx).elim (hw.tx2s tx)
      (BrokerModule.handleBlockInfo_parts hr tx)
  · exact fun b hb => hw.reports b (hperm.subset hb)
  · simp only [List.flatMap_append, hw.reported, List.flatMap_cons, List.flatMap_nil,
      List.append_nil]
  · obtain ⟨t', ht', hhalves⟩ := w.txNumCount.updateMeasureRecord_of_broker hof
    obtain rfl := Option.some.inj (ht.symm.trans ht')
    simp [hhalves, hw.counted]

/-- What is under way after one leader has changed and messages have come and gone. -/
theorem travelling_update (w w' : RawBrokerWorld H S) {i : Fin S} {n : Leader H}
    (hleaders : w'.leaders = Function.update w.leaders i n) :
    w'.travelling + (w.net.map fun p => (p.2.txs : Multiset Transaction)).sum + (w.leaders i).held =
      w.travelling + (w'.net.map fun p => (p.2.txs : Multiset Transaction)).sum + n.held := by
  have hsum := sum_update_add w.leaders (fun m => (m.held : Multiset Transaction)) i n
  rw [travelling, travelling, hleaders]
  calc _ = (w'.net.map fun p => (p.2.txs : Multiset Transaction)).sum +
        (w.net.map fun p => (p.2.txs : Multiset Transaction)).sum +
        (∑ j, ((Function.update w.leaders i n j).held : Multiset Transaction) +
          (w.leaders i).held) := by abel
    _ = _ := by rw [hsum]; abel

/-- A leader that acts passes on what it no longer holds: to other leaders, or in a report. -/
theorem Located.after (hw : Located digest rawDigest brokers w) {i : Fin S}
    {r : Leader H × List (ℕ × RawBrokerMsg) × List BlockInfoMsg}
    (hnet : ∀ p ∈ r.2.1, p.2.txs = []) (hreports : ∀ b ∈ r.2.2, b.OfBroker)
    (hheld : ((w.leaders i).held : Multiset Transaction) =
      r.1.held + (r.2.2.flatMap BlockInfoMsg.brokerTxs : List Transaction)) :
    Located digest rawDigest brokers (w.after i r) := by
  have hsilent : (r.2.1.map fun p => (p.2.txs : Multiset Transaction)).sum = 0 :=
    List.sum_eq_zero fun x hx => by
      obtain ⟨p, hp, rfl⟩ := List.mem_map.1 hx
      rw [hnet p hp]
      rfl
  refine ⟨hw.reach, ?_, hw.kept, hw.tx1s, hw.tx2s, ?_, hw.reported, hw.raws, hw.kept_eq, hw.counted⟩
  · have hmoved : w.travelling = (w.after i r).travelling +
        (r.2.2.flatMap BlockInfoMsg.brokerTxs : List Transaction) := by
      have hupdate := travelling_update w (w.after i r) (i := i) rfl
      have hnets : ((w.after i r).net.map fun p => (p.2.txs : Multiset Transaction)).sum =
          (w.net.map fun p => (p.2.txs : Multiset Transaction)).sum := by
        show ((w.net ++ r.2.1).map _).sum = _
        rw [List.map_append, List.sum_append, hsilent, add_zero]
      rw [hnets, hheld] at hupdate
      refine add_right_cancel (b := (w.net.map fun p => (p.2.txs : Multiset Transaction)).sum +
        (r.1.held : Multiset Transaction)) ?_
      rw [← add_assoc, ← hupdate]
      abel
    have hplaces := hw.places
    rw [hmoved] at hplaces
    show (w.created : Multiset Transaction) = (w.after i r).travelling +
      ((w.inbox ++ r.2.2 ++ w.handled).flatMap BlockInfoMsg.brokerTxs : List Transaction)
    simp only [RawBrokerWorld.reports, List.flatMap_append, ← Multiset.coe_add] at hplaces ⊢
    rw [hplaces]
    abel
  · intro b hb
    rcases List.mem_append.1 hb with hb | hb
    · rcases List.mem_append.1 hb with hb | hb
      · exact hw.reports b (List.mem_append_left _ hb)
      · exact hreports b hb
    · exact hw.reports b (List.mem_append_right _ hb)

theorem Located.proposeBlock (hw : Located digest rawDigest brokers w) {i : Fin S} {now : ℕ}
    (hidle : (w.leaders i).phase = .idle) :
    Located digest rawDigest brokers (w.after i ((w.leaders i).proposeBlock now, [], [])) := by
  refine hw.after (by simp) (by simp) ?_
  rw [List.flatMap_nil, Multiset.coe_nil, add_zero]
  show _ = (((w.leaders i).proposeBlock now).held : Multiset Transaction)
  unfold Leader.proposeBlock
  split
  · rfl
  · next bc b hgen =>
    refine Multiset.coe_eq_coe.2 (List.perm_iff_count.2 fun t => ?_)
    exact (ShardWorld.count_held_proposeBlock hidle hgen t).symm

theorem Located.commit (hw : Located digest rawDigest brokers w) {i : Fin S} {b : Block H}
    (hphase : (w.leaders i).phase = .proposed (.block b)) :
    Located digest rawDigest brokers (w.after i ((w.leaders i).commitRawBlock b)) := by
  unfold Leader.commitRawBlock
  split
  · refine hw.after (by simp) (by simp) ?_
    rw [List.flatMap_nil, Multiset.coe_nil, add_zero]
    rfl
  · next bc hadd =>
    refine hw.after ?_ ?_ ?_
    · intro p hp
      obtain ⟨sid, -, rfl⟩ := List.mem_map.1 hp
      rfl
    · intro b' hb'
      obtain rfl := List.mem_singleton.1 hb'
      exact Leader.rawBlockInfo_ofBroker _ _
    · have hheld : (w.leaders i).held = (w.leaders i).curChain.txpool.txQueue ++ b.body := by
        rw [Leader.held, Leader.proposedBlock, hphase]
        rfl
      have hnew : Leader.held (Leader.nextRound { w.leaders i with curChain := bc }) =
          (w.leaders i).curChain.txpool.txQueue := by
        show bc.txpool.txQueue ++ [] = _
        rw [List.append_nil, (BlockChain.addBlock_frame hadd).1]
      rw [hheld, hnew, ← Multiset.coe_add, List.flatMap_singleton,
        Multiset.coe_eq_coe.2 ((w.leaders i).perm_rawBlockInfo b)]

theorem Located.receive (hw : Located digest rawDigest brokers w) {k : ℕ} {i : Fin S}
    {m : RawBrokerMsg} (hk : w.net[k]? = some (i.val, m)) :
    Located digest rawDigest brokers (w.receive k i m) := by
  refine ⟨hw.reach, ?_, hw.kept, hw.tx1s, hw.tx2s, hw.reports, hw.reported, hw.raws, hw.kept_eq,
    hw.counted⟩
  have hheld : (((w.leaders i).handleRawBrokerMessage m).held : Multiset Transaction) =
      (w.leaders i).held + m.txs := by
    cases m with
    | injectTxs txs =>
      show (((w.leaders i).curChain.txpool.txQueue ++ txs ++ _ : List Transaction) :
        Multiset Transaction) = _
      rw [Leader.held, RawBrokerMsg.txs, ← Multiset.coe_add, ← Multiset.coe_add,
        ← Multiset.coe_add]
      abel
    | seqIDinfo sid seq => exact (add_zero _).symm
  have hnet : (w.net.map fun p => (p.2.txs : Multiset Transaction)).sum =
      m.txs + ((w.net.eraseIdx k).map fun p => (p.2.txs : Multiset Transaction)).sum := by
    obtain ⟨hlt, heq⟩ := List.getElem?_eq_some_iff.1 hk
    rw [← ((List.getElem_cons_eraseIdx_perm hlt).map _).sum_eq, heq, List.map_cons, List.sum_cons]
  have hupdate := travelling_update w (w.receive k i m) (i := i) rfl
  rw [hheld, hnet] at hupdate
  have hsame : (w.receive k i m).travelling = w.travelling := by
    refine add_right_cancel (b := (m.txs : Multiset Transaction) +
      ((w.net.eraseIdx k).map fun p => (p.2.txs : Multiset Transaction)).sum +
      (w.leaders i).held) ?_
    rw [← add_assoc, hupdate]
    show _ + ((w.net.eraseIdx k).map _).sum + _ = _
    abel
  show (w.created : Multiset Transaction) = (w.receive k i m).travelling + _
  rw [hsame]
  exact hw.places

theorem Located.step (hw : Located digest rawDigest brokers w) (hS : 0 < S)
    (h : w.Steps digest rawDigest injectSpeed w') : Located digest rawDigest brokers w' := by
  cases h with
  | dealBatch hraw h => exact hw.dealBatch hS hraw h
  | handleBlockInfos hk h => exact hw.handleBlockInfos hS hk h
  | receive hk => exact hw.receive hk
  | proposeBlock hidle => exact hw.proposeBlock hidle
  | commit hphase => exact hw.commit hphase

theorem located_init {bc : Fin S → BlockChain H} (hempty : ∀ i, (bc i).txpool.txQueue = []) :
    Located digest rawDigest brokers (init bc brokers) := by
  refine ⟨.refl, ?_, ?_, ?_, ?_, ?_, rfl, rfl, rfl, rfl⟩
  · have hheld : ∀ i, (((init bc brokers).leaders i).held : Multiset Transaction) = 0 := fun i => by
      simp [init, Leader.held, Leader.new, Leader.proposedBlock, hempty]
    rw [travelling, Finset.sum_eq_zero fun i _ => hheld i]
    rfl
  all_goals simp [init, BrokerTrace.init, RawBrokerWorld.reports]

/-! ### Part by part -/

/-- What was created, part by part. -/
def createdOf (w : RawBrokerWorld H S) : BrokerPart → List Transaction
  | .inner => w.kept
  | .first => w.trace.tx1s
  | .second => w.trace.tx2s

theorem Located.partOf_created (hw : Located digest rawDigest brokers w) (p : BrokerPart) :
    partOf p w.created = w.createdOf p := by
  obtain ⟨hinner, hfirst, hsecond⟩ := partOf_concat hw.kept hw.tx1s hw.tx2s
  cases p with
  | inner => exact hinner
  | first => exact hfirst
  | second => exact hsecond

theorem Located.partOf_reports (hw : Located digest rawDigest brokers w) (p : BrokerPart)
    {bs : List BlockInfoMsg} (hbs : ∀ b ∈ bs, b ∈ w.reports) :
    partOf p (bs.flatMap BlockInfoMsg.brokerTxs) = bs.flatMap fun b => b.listOf p := by
  rw [partOf, List.filter_flatMap]
  exact List.flatMap_congr fun b hb => (hw.reports b (hbs b hb)).partOf_eq p

/-- Where the transactions of one part are. -/
theorem Located.places_of (hw : Located digest rawDigest brokers w) (p : BrokerPart) :
    (w.createdOf p : Multiset Transaction) = w.travelling.filter (fun tx => tx.part = p) +
      (w.reports.flatMap fun b => b.listOf p : List Transaction) := by
  have hplaces := congrArg (Multiset.filter fun tx => tx.part = p) hw.places
  rw [Multiset.filter_add, Multiset.filter_coe, Multiset.filter_coe] at hplaces
  rw [← hw.partOf_created, ← hw.partOf_reports p fun _ hb => hb]
  exact hplaces

/-- A transaction that is reported was created. -/
theorem Located.mem_createdOf (hw : Located digest rawDigest brokers w) {p : BrokerPart}
    {b : BlockInfoMsg} (hb : b ∈ w.reports) {tx : Transaction} (htx : tx ∈ b.listOf p) :
    tx ∈ w.createdOf p := by
  rw [← Multiset.mem_coe, hw.places_of p, Multiset.mem_add]
  exact .inr (Multiset.mem_coe.2 (List.mem_flatMap.2 ⟨b, hb, htx⟩))

/-- What was handled is among what was created. -/
theorem Located.handled_le (hw : Located digest rawDigest brokers w) (p : BrokerPart) :
    ((w.handled.flatMap fun b => b.listOf p : List Transaction) : Multiset Transaction) ≤
      w.createdOf p := by
  rw [hw.places_of p, RawBrokerWorld.reports, List.flatMap_append, ← Multiset.coe_add]
  exact (Multiset.le_add_left _ _).trans (Multiset.le_add_left _ _)

/-- **No half is reported twice**, if the hashes of all transactions are distinct. -/
theorem Located.distinct (hw : Located digest rawDigest brokers w)
    (hhashes : ((w.trace.dealt ++ w.trace.tx1s ++ w.trace.tx2s).map Transaction.txHash).Nodup) :
    w.trace.Distinct := by
  refine ⟨hhashes, fun tx _ => ?_⟩
  have hreported : w.trace.reported =
      (w.handled.flatMap fun b => b.broker1Txs ++ b.broker2Txs).map Transaction.txHash := by
    rw [hw.reported, List.map_flatMap]
    exact List.flatMap_congr fun b hb =>
      (hw.reports b (List.mem_append_right _ hb)).reportedHashes_eq
  have hle : ((w.handled.flatMap fun b => b.broker1Txs ++ b.broker2Txs : List Transaction) :
      Multiset Transaction) ≤ (w.trace.tx1s ++ w.trace.tx2s : List Transaction) := by
    rw [← Multiset.coe_eq_coe.2 (List.flatMap_append_perm w.handled _ _), ← Multiset.coe_add,
      ← Multiset.coe_add]
    exact add_le_add (hw.handled_le .first) (hw.handled_le .second)
  have hnodup : (w.trace.reported).Nodup := by
    rw [hreported, ← Multiset.coe_nodup, ← Multiset.map_coe]
    refine Multiset.nodup_of_le (Multiset.map_le_map hle) ?_
    rw [Multiset.map_coe, Multiset.coe_nodup]
    rw [List.append_assoc, List.map_append] at hhashes
    exact (List.nodup_append.1 hhashes).2.1
  exact List.nodup_iff_count_le_one.1 hnodup tx.txHash

/-! ## Every first half is answered -/

/-- What the committee has made of the handled reports: each first half has got one second half, and
    the list of a transfer has its halves in the order they were reported in. -/
structure Answered (w : RawBrokerWorld H S) : Prop where
  seconds : w.trace.tx2s.map Transaction.rawTxHash =
    (w.handled.flatMap BlockInfoMsg.broker1Txs).map Transaction.rawTxHash
  confirmed : ∀ raw, w.trace.bcm.broker.brokerTxs raw = w.handled.flatMap fun b =>
    (halvesOf b.broker1Txs raw ++ halvesOf b.broker2Txs raw).map Transaction.txHash

theorem Answered.handleBlockInfos (ha : Answered w) (hw : Located digest rawDigest brokers w)
    (hd : w.trace.Distinct) {now : ℕ → ℕ} {k : ℕ} {bim : BlockInfoMsg}
    (hk : w.inbox[k]? = some bim)
    (h : w.handleBlockInfos digest rawDigest injectSpeed now k bim = some w') : Answered w' := by
  have hmem : bim ∈ w.reports := List.mem_append_left _ (List.mem_of_getElem? hk)
  have hc := hw.consistent
  have hstep := trace_handleBlockInfos h
  obtain ⟨r, -, h⟩ := Option.bind_eq_some_iff.1 h
  obtain ⟨tx2Msgs, -, h⟩ := Option.bind_eq_some_iff.1 h
  obtain ⟨t, -, rfl⟩ := Option.map_eq_some_iff.1 h
  -- the hashes of first and second halves are distinct, so each pool knows its own halves only
  have hhashes := hd.hashes
  rw [List.append_assoc, List.map_append, List.map_append] at hhashes
  obtain ⟨hnodup₁, hnodup₂, hdisjoint⟩ := List.nodup_append.1 (List.nodup_append.1 hhashes).2.1
  have hfirst : ∀ tx ∈ bim.broker1Txs, tx ∈ w.trace.tx1s := fun tx htx =>
    hw.mem_createdOf (p := .first) hmem htx
  have hsecond : ∀ tx ∈ bim.broker2Txs, tx ∈ w.trace.tx2s := fun tx htx =>
    hw.mem_createdOf (p := .second) hmem htx
  have hconfirms₁ : (w.trace.confirms1 bim.reportedHashes).map MagConfirm.ids =
      bim.broker1Txs.map Transaction.ids := by
    rw [(hw.reports bim hmem).reportedHashes_eq, BrokerTrace.confirms1, List.map_append,
      List.filterMap_append, hc.pool1.confirmed_of_ne fun tx htx tx' htx' =>
        hdisjoint _ (List.mem_map_of_mem htx') _ (List.mem_map_of_mem (hsecond tx htx)),
      List.append_nil, hc.pool1.confirmed_of_mem hnodup₁ hfirst]
  have hconfirms₂ : (w.trace.confirms2 bim.reportedHashes).map MagConfirm.ids =
      bim.broker2Txs.map Transaction.ids := by
    rw [(hw.reports bim hmem).reportedHashes_eq, BrokerTrace.confirms2, List.map_append,
      List.filterMap_append, hc.pool2.confirmed_of_ne fun tx htx tx' htx' =>
        (hdisjoint _ (List.mem_map_of_mem (hfirst tx htx)) _ (List.mem_map_of_mem htx')).symm,
      List.nil_append, hc.pool2.confirmed_of_mem hnodup₂ hsecond]
  obtain ⟨megs, hmegs, -, htrace⟩ := BrokerTrace.step_report hc hstep
  constructor
  · have hraws : r.2.map Transaction.rawTxHash =
        (megs.map BrokerTypeMeg.rawMeg).map fun meg => some meg.tx.txHash := by
      have htx2s := congrArg BrokerTrace.tx2s htrace
      have hr2 : r.2 = (stamped now megs).map fun q => BrokerCommittee.tx2Of digest q.1 q.2 :=
        (List.append_cancel_left htx2s).trans (register_snd _ _ _)
      rw [hr2, List.map_map]
      nth_rewrite 2 [← map_snd_stamped now megs]
      rw [List.map_map, List.map_map]
      rfl
    rw [hmegs, List.map_map] at hraws
    have hids := congrArg (List.map Prod.snd) hconfirms₁
    rw [List.map_map, List.map_map] at hids
    simp only [List.map_append, List.flatMap_append, List.flatMap_cons, List.flatMap_nil,
      List.append_nil, ha.seconds]
    rw [hraws]
    exact congrArg _ hids
  · intro raw
    have hbroker : r.1.broker.brokerTxs raw =
        (w.trace.report digest now bim.reportedHashes megs).bcm.broker.brokerTxs raw :=
      congrArg (fun t => t.bcm.broker.brokerTxs raw) htrace
    simp only [List.flatMap_append, List.flatMap_cons, List.flatMap_nil, List.append_nil]
    rw [hbroker, BrokerTrace.brokerTxs_report, ha.confirmed, List.append_assoc, List.map_append,
      confirmsOf_of_ids hconfirms₁, confirmsOf_of_ids hconfirms₂]

theorem Answered.step (ha : Answered w) (hw : Located digest rawDigest brokers w)
    (hd : w.trace.Distinct) (h : w.Steps digest rawDigest injectSpeed w') : Answered w' := by
  cases h with
  | dealBatch _ h =>
    -- a batch creates first halves only
    obtain ⟨r, hr, h⟩ := Option.bind_eq_some_iff.1 h
    obtain ⟨tx1Msgs, -, h⟩ := Option.bind_eq_some_iff.1 h
    obtain ⟨itxMsgs, -, rfl⟩ := Option.map_eq_some_iff.1 h
    obtain ⟨d, -, rfl⟩ := Option.map_eq_some_iff.1 hr
    exact ⟨ha.seconds, ha.confirmed⟩
  | handleBlockInfos hk h => exact ha.handleBlockInfos hw hd hk h
  | receive | proposeBlock | commit => exact ⟨ha.seconds, ha.confirmed⟩

/-- What was created stays on record. -/
theorem Steps.distinct (h : w.Steps digest rawDigest injectSpeed w') (hd : w'.trace.Distinct) :
    w.trace.Distinct := by
  cases h with
  | dealBatch _ h => exact .of_step (trace_dealBatch h) hd
  | handleBlockInfos _ h => exact .of_step (trace_handleBlockInfos h) hd
  | receive | proposeBlock | commit => exact hd

/-! ## Whole runs -/

/-- The transactions of a part that the supervisor has not heard of: they travel, or the report on them
    does. -/
def underway (w : RawBrokerWorld H S) (p : BrokerPart) : ℕ :=
  (w.travelling.filter fun tx => tx.part = p).card + (w.inbox.flatMap fun b => b.listOf p).length

/-- Every report is handled, and no message, pool or proposed block holds a transaction. -/
structure Drained (w : RawBrokerWorld H S) : Prop where
  inbox : w.inbox = []
  net : ∀ p ∈ w.net, p.2.txs = []
  held : ∀ i, (w.leaders i).held = []

instance (w : RawBrokerWorld H S) : Decidable w.Drained :=
  decidable_of_iff (w.inbox.length = 0 ∧ (∀ p ∈ w.net, p.2.txs = []) ∧
    ∀ i, (w.leaders i).held = [])
    ⟨fun h => ⟨List.eq_nil_of_length_eq_zero h.1, h.2.1, h.2.2⟩,
      fun h => ⟨by rw [h.inbox]; rfl, h.net, h.held⟩⟩

theorem Drained.travelling (hdrained : w.Drained) : w.travelling = 0 := by
  have hnet : (w.net.map fun p => (p.2.txs : Multiset Transaction)).sum = 0 :=
    List.sum_eq_zero fun x hx => by
      obtain ⟨p, hp, rfl⟩ := List.mem_map.1 hx
      rw [hdrained.net p hp]
      rfl
  have hheld : ∀ i ∈ Finset.univ, ((w.leaders i).held : Multiset Transaction) = 0 := fun i _ => by
    rw [hdrained.held i]
    rfl
  rw [RawBrokerWorld.travelling, hnet, Finset.sum_eq_zero hheld, add_zero]

theorem Drained.underway (hdrained : w.Drained) (p : BrokerPart) : w.underway p = 0 := by
  rw [RawBrokerWorld.underway, hdrained.travelling, hdrained.inbox]
  rfl

/-- What was created has been reported and handled. -/
theorem Drained.handled (hdrained : w.Drained) (hw : Located digest rawDigest brokers w)
    (p : BrokerPart) : (w.handled.flatMap fun b => b.listOf p).Perm (w.createdOf p) := by
  have hplaces := hw.places_of p
  rw [hdrained.travelling, Multiset.filter_zero, zero_add, RawBrokerWorld.reports,
    hdrained.inbox] at hplaces
  exact (Multiset.coe_eq_coe.1 hplaces).symm

section Runs

variable {cc : Fin S → ChainConfig} {db : Fin S → TrieDB H} {bc : Fin S → BlockChain H}

theorem located_of_run (hS : 0 < S)
    (hnew : ∀ i, BlockChain.newBlockChain (cc i) Storage.empty (db i) = some (bc i))
    (hrun : Reaches (step digest rawDigest injectSpeed) (init bc brokers) w) :
    Located digest rawDigest brokers w ∧ (w.trace.Distinct → Answered w) := by
  refine hrun.invariant (I := fun w => Located digest rawDigest brokers w ∧
    (w.trace.Distinct → Answered w)) ⟨?_, fun _ => ⟨rfl, fun _ => rfl⟩⟩ ?_
  · exact located_init fun i => BlockChain.newBlockChain_txQueue (hnew i)
  · rintro w a w' ⟨hw, ha⟩ _ hstep
    have hsteps := steps_of_step hstep
    refine ⟨hw.step hS hsteps, fun hd => ?_⟩
    exact (ha (hsteps.distinct hd)).step hw (hsteps.distinct hd) hsteps

/-- The law in halves: a first half that is not yet reported stands for its second half too. -/
theorem Answered.halves (ha : Answered w) (hw : Located digest rawDigest brokers w) :
    2 * w.trace.dealt.length = w.txNumCount.counts.halves +
      (2 * w.underway .inner + 2 * w.underway .first + w.underway .second) := by
  have hdealt : w.trace.dealt.length = w.trace.raws.length + w.kept.length := by
    rw [hw.raws, hw.kept_eq, List.length_map]
    exact List.length_eq_length_filter_add _
  have hraws : w.trace.raws.length = w.trace.tx1s.length := by
    have := congrArg List.length hw.consistent.tx1s_raws
    simpa using this.symm
  -- each part is under way or handled
  have hparts : ∀ p, (w.createdOf p).length =
      w.underway p + (w.handled.flatMap fun b => b.listOf p).length := by
    intro p
    have hcard := congrArg Multiset.card (hw.places_of p)
    rw [Multiset.card_add, Multiset.coe_card, Multiset.coe_card, RawBrokerWorld.reports,
      List.flatMap_append, List.length_append] at hcard
    rw [RawBrokerWorld.underway]
    omega
  have hinner : w.kept.length =
      w.underway .inner + (w.handled.flatMap BlockInfoMsg.innerShardTxs).length := hparts .inner
  have hfirst : w.trace.tx1s.length =
      w.underway .first + (w.handled.flatMap BlockInfoMsg.broker1Txs).length := hparts .first
  have hsecond : w.trace.tx2s.length =
      w.underway .second + (w.handled.flatMap BlockInfoMsg.broker2Txs).length := hparts .second
  have hanswers : w.trace.tx2s.length = (w.handled.flatMap BlockInfoMsg.broker1Txs).length := by
    have := congrArg List.length ha.seconds
    simpa only [List.length_map] using this
  have hcounted : w.txNumCount.counts.halves =
      2 * (w.handled.flatMap BlockInfoMsg.innerShardTxs).length +
        (w.handled.flatMap BlockInfoMsg.broker1Txs).length +
        (w.handled.flatMap BlockInfoMsg.broker2Txs).length := by
    rw [hw.counted]
    induction w.handled with
    | nil => rfl
    | cons b bs ih =>
      simp only [List.map_cons, List.sum_cons, List.flatMap_cons, List.length_append, ih,
        BlockInfoMsg.brokerHalves]
      omega
  omega

/-- **In broker mode the count misses nothing and counts nothing twice.** In every state of every run
    in which the hashes of all transactions are distinct, twice the number of transactions dealt with is
    what the measurement has counted, in halves, and two for every transaction inside a shard and every
    first half, and one for every second half, that the supervisor has not heard of. When all has
    drained, the total that is put out is the number of transactions dealt with. -/
theorem brokered_txs_counted (hS : 0 < S)
    (hnew : ∀ i, BlockChain.newBlockChain (cc i) Storage.empty (db i) = some (bc i))
    (hrun : Reaches (step digest rawDigest injectSpeed) (init bc brokers) w)
    (hhashes : ((w.trace.dealt ++ w.trace.tx1s ++ w.trace.tx2s).map Transaction.txHash).Nodup) :
    2 * w.trace.dealt.length = 2 * w.txNumCount.normalTxNum.sum + w.txNumCount.broker1TxNum.sum +
      w.txNumCount.broker2TxNum.sum +
      (2 * w.underway .inner + 2 * w.underway .first + w.underway .second) ∧
    (w.Drained → w.txNumCount.outputRecord.2 = w.trace.dealt.length) := by
  obtain ⟨hw, ha⟩ := located_of_run hS hnew hrun
  have hlaw := (ha (hw.distinct hhashes)).halves hw
  refine ⟨hlaw, fun hdrained => ?_⟩
  rw [hdrained.underway, hdrained.underway, hdrained.underway] at hlaw
  have htotal := w.txNumCount.counts.total
  rw [← TestTxNumCountRelay.halves, ← Nat.add_zero w.txNumCount.counts.halves, ← hlaw] at htotal
  push_cast at htotal
  exact mul_left_cancel₀ two_ne_zero htotal

/-- How many halves of a transfer there are. -/
theorem length_halvesOf (txs : List Transaction) (raw : List UInt8) :
    (halvesOf txs raw).length = (txs.map Transaction.rawTxHash).count (some raw) := by
  rw [halvesOf, ← List.countP_eq_length_filter, List.count, List.countP_map]
  exact List.countP_congr fun tx _ => by simp

/-- **When all has drained, every transfer is complete.** In every run in which the hashes of all
    transactions are distinct: once every report is handled and nothing is under way, each transfer
    between two shards without a broker at its ends has been executed as one first half, from its
    sender to the broker, and one second half, from the broker to its recipient, and the committee has
    confirmed the first and then the second. Every other transaction has been executed once. -/
theorem drained_transfers_confirmed (hS : 0 < S)
    (hnew : ∀ i, BlockChain.newBlockChain (cc i) Storage.empty (db i) = some (bc i))
    (hrun : Reaches (step digest rawDigest injectSpeed) (init bc brokers) w)
    (hhashes : ((w.trace.dealt ++ w.trace.tx1s ++ w.trace.tx2s).map Transaction.txHash).Nodup)
    (hdrained : w.Drained) :
    (∀ c ∈ w.trace.dealt, w.trace.bcm.crosses (addr2Shard S) c = true →
      ∃ tx1 tx2, halvesOf (w.handled.flatMap BlockInfoMsg.broker1Txs) c.txHash = [tx1] ∧
        halvesOf (w.handled.flatMap BlockInfoMsg.broker2Txs) c.txHash = [tx2] ∧
        BrokerTrace.IsFirstHalf brokers c tx1 ∧ BrokerTrace.IsSecondHalf brokers c tx2 ∧
        w.trace.bcm.broker.brokerTxs c.txHash = [tx1.txHash, tx2.txHash]) ∧
    (w.handled.flatMap BlockInfoMsg.innerShardTxs).Perm
      ((w.trace.dealt.filter fun tx => !w.trace.bcm.crosses (addr2Shard S) tx).map
        w.trace.bcm.mark) := by
  obtain ⟨hw, ha⟩ := located_of_run hS hnew hrun
  have hd := hw.distinct hhashes
  have ha := ha hd
  obtain ⟨hc, hstaged⟩ := BrokerTrace.consistent_of_reaches hw.reach hd
  rw [BrokerModule.crosses_eq hw.address, BrokerModule.mark_eq hw.address, ← hw.kept_eq]
  refine ⟨fun c hdealt hcross => ?_, hdrained.handled hw .inner⟩
  have hmem : c ∈ w.trace.raws := hw.raws ▸ List.mem_filter.2 ⟨hdealt, hcross⟩
  have hfirsts : (w.handled.flatMap BlockInfoMsg.broker1Txs).Perm w.trace.tx1s :=
    hdrained.handled hw .first
  have hseconds : (w.handled.flatMap BlockInfoMsg.broker2Txs).Perm w.trace.tx2s :=
    hdrained.handled hw .second
  -- one first half, and so one second half
  obtain ⟨tx1, htx1⟩ := hc.halvesOf_tx1s hd hmem
  have hlen : (halvesOf w.trace.tx2s c.txHash).length = 1 := by
    rw [length_halvesOf, ha.seconds, (hfirsts.map _).count_eq, ← length_halvesOf, htx1]
    rfl
  obtain ⟨tx2, htx2⟩ := List.length_eq_one_iff.1 hlen
  have hhandled₁ : halvesOf (w.handled.flatMap BlockInfoMsg.broker1Txs) c.txHash = [tx1] :=
    List.perm_singleton.1 (htx1 ▸ hfirsts.filter _)
  have hhandled₂ : halvesOf (w.handled.flatMap BlockInfoMsg.broker2Txs) c.txHash = [tx2] :=
    List.perm_singleton.1 (htx2 ▸ hseconds.filter _)
  have hsame : ∀ {c' tx : Transaction}, c' ∈ w.trace.raws → tx.rawTxHash = some c'.txHash →
      tx.rawTxHash = some c.txHash → c' = c := fun hc' h h' =>
    List.inj_on_of_nodup_map (hc.nodup_raws hd) hc' hmem (Option.some.inj (h.symm.trans h'))
  refine ⟨tx1, tx2, hhandled₁, hhandled₂, ?_, ?_, ?_⟩
  · obtain ⟨hmem₁, hraw₁⟩ := mem_halvesOf.1 (htx1 ▸ List.mem_singleton_self tx1)
    obtain ⟨c', hc', hhalf⟩ := hc.first tx1 hmem₁
    exact hsame hc' hhalf.rawTxHash hraw₁ ▸ hhalf
  · obtain ⟨hmem₂, hraw₂⟩ := mem_halvesOf.1 (htx2 ▸ List.mem_singleton_self tx2)
    obtain ⟨c', hc', hhalf⟩ := hc.second tx2 hmem₂
    exact hsame hc' hhalf.rawTxHash hraw₂ ▸ hhalf
  · -- two halves are confirmed, and that is the last stage
    have htwo : (w.trace.bcm.broker.brokerTxs c.txHash).length = 2 := by
      have hperm := List.flatMap_append_perm w.handled
        (fun b => (halvesOf b.broker1Txs c.txHash).map Transaction.txHash)
        fun b => (halvesOf b.broker2Txs c.txHash).map Transaction.txHash
      simp only [ha.confirmed, List.map_append]
      rw [← hperm.length_eq, ← List.map_flatMap, ← List.map_flatMap, List.length_append,
        List.length_map, List.length_map]
      have hflat : ∀ f : BlockInfoMsg → List Transaction,
          w.handled.flatMap (fun b => halvesOf (f b) c.txHash) =
            halvesOf (w.handled.flatMap f) c.txHash := fun f => (List.filter_flatMap ..).symm
      rw [hflat, hflat, hhandled₁, hhandled₂]
      rfl
    cases hstaged c hmem tx1 htx1 with
    | first hlist hnone => exact absurd htwo (by rw [hlist]; simp)
    | second tx2' hlist htx2' hreported => exact absurd htwo (by rw [hlist]; simp)
    | done tx2' hlist htx2' hreported hreported₂ =>
      rw [hlist, List.singleton_inj.1 (htx2'.symm.trans htx2)]

end Runs

section Sample

open BlockChain ShardWorld

set_option maxRecDepth 100000

/-- Alice pays bob, who lives in the other shard. -/
def toBobRow : DataRow :=
  { sender := alice, recipient := bob, value := 5, nonce := 0, proposeTime := 0, height := 3,
    pairI := 1, pairJ := 0 }

/-- The batch, the round of the first half and its report, and the round of the second half. -/
def brokerRound : List (RawBrokerAct 2) :=
  [.dealBatch (fun _ => 1) [toBobRow], .deliver 0, .proposeBlock ⟨0, by decide⟩ 1,
   .commit ⟨0, by decide⟩, .handleBlockInfos (fun _ => 2) 0, .deliver 3,
   .proposeBlock ⟨1, by decide⟩ 2, .commit ⟨1, by decide⟩, .handleBlockInfos (fun _ => 3) 0]

/-- Alice's transfer counts as one: a half for each of its halves. -/
theorem brokered_transfer_counts_once :
    ∃ w, Reaches (step sampleDigest (fun _ => []) 1) (init twoShards [carol]) w ∧ w.Drained ∧
      w.txNumCount.outputRecord.2 = 1 := by
  have hrun : ∃ w ∈ runActions (step sampleDigest (fun _ => []) 1) (init twoShards [carol])
      brokerRound, ((w.trace.dealt ++ w.trace.tx1s ++ w.trace.tx2s).map Transaction.txHash).Nodup ∧
        w.Drained ∧ w.trace.dealt.length = 1 := by decide +kernel
  obtain ⟨w, hw, hhashes, hdrained, hone⟩ := hrun
  have hreach := reaches_of_runActions hw
  refine ⟨w, hreach, hdrained, ?_⟩
  rw [(brokered_txs_counted (by decide) newBlockChain_twoShards hreach hhashes).2 hdrained, hone]
  rfl

/-- Both halves of alice's transfer are executed and confirmed. -/
theorem brokered_transfer_complete :
    ∃ w, Reaches (step sampleDigest (fun _ => []) 1) (init twoShards [carol]) w ∧
      ∃ tx1 tx2, BrokerTrace.IsFirstHalf [carol] toBob tx1 ∧
        BrokerTrace.IsSecondHalf [carol] toBob tx2 ∧
        w.trace.bcm.broker.brokerTxs toBob.txHash = [tx1.txHash, tx2.txHash] := by
  have hrun : ∃ w ∈ runActions (step sampleDigest (fun _ => []) 1) (init twoShards [carol])
      brokerRound, ((w.trace.dealt ++ w.trace.tx1s ++ w.trace.tx2s).map Transaction.txHash).Nodup ∧
        w.Drained ∧ toBob ∈ w.trace.dealt ∧
        w.trace.bcm.crosses (addr2Shard 2) toBob = true := by decide +kernel
  obtain ⟨w, hw, hhashes, hdrained, hdealt, hcross⟩ := hrun
  have hreach := reaches_of_runActions hw
  obtain ⟨tx1, tx2, -, -, hfirst, hsecond, hlist⟩ := (drained_transfers_confirmed (by decide)
    newBlockChain_twoShards hreach hhashes hdrained).1 toBob hdealt hcross
  exact ⟨w, hreach, tx1, tx2, hfirst, hsecond, hlist⟩

end Sample

end RawBrokerWorld

end BlockEmulator
