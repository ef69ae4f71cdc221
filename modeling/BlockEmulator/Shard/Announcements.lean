import BlockEmulator.Shard.PartitionMaps

set_option autoImplicit false

/-! # Announcements

What one leader says and hears in the rounds of a repartitioning. A round of a leader starts with its
announcement to every other leader (`partitionReady`), goes on when it sends the leaving accounts, and
ends with the commit of its partition request. `Announces` and `Hears` tie what a leader has sent and
received so far to its state and the number of its rounds; every action (`TakesPart`) and every received
message (`Hears.handleMessage`) keeps them. -/

namespace BlockEmulator

/-! ## Messages between two leaders -/

namespace ShardMsg

/-- The shard a message between leaders comes from. -/
def sender : ShardMsg → Option ℕ
  | .relay _ senderShardID _ => some senderShardID
  | .partitionReady fromShard _ => some fromShard
  | .accountStateAndTx at' => some at'.fromShard
  | _ => none

/-- The number of a relay message. -/
def relaySeq : ShardMsg → Option ℕ
  | .relay _ _ senderSeq => some senderSeq
  | _ => none

/-- The number of an announcement. -/
def readySeq : ShardMsg → Option ℕ
  | .partitionReady _ nowSeqID => some nowSeqID
  | _ => none

/-- The accounts of a repartitioning. -/
def accountStates : ShardMsg → Option AccountStateAndTx
  | .accountStateAndTx at' => some at'
  | _ => none

/-- Relay messages and announcements in the order of their numbers; an announcement comes before the
    relay message with the same number. -/
def stamp : ShardMsg → Option ℕ
  | .relay _ _ senderSeq => some (2 * senderSeq + 1)
  | .partitionReady _ nowSeqID => some (2 * nowSeqID)
  | _ => none

/-- What `f` says of a message from leader `j` to leader `i`. -/
def onLink {β : Type} (f : ShardMsg → Option β) (j i : ℕ) (p : ℕ × ShardMsg) : Option β :=
  if p.1 = i ∧ p.2.sender = some j then f p.2 else none

section Link

variable {β : Type} {f : ShardMsg → Option β} {j i : ℕ} {p : ℕ × ShardMsg}

theorem onLink_of_dest (h : p.1 ≠ i) : onLink f j i p = none := if_neg fun h' => h h'.1

theorem onLink_of_sender (h : p.2.sender ≠ some j) : onLink f j i p = none := if_neg fun h' => h h'.2

theorem onLink_eq_some {b : β} :
    onLink f j i p = some b ↔ (p.1 = i ∧ p.2.sender = some j) ∧ f p.2 = some b :=
  Option.ite_none_right_eq_some

theorem onLink_of_none (h : f p.2 = none) : onLink f j i p = none := by
  rw [onLink, h]
  split <;> rfl

/-- The time stamps of the two kinds of messages. -/
theorem stamp_of_relaySeq {q : ℕ} (h : onLink relaySeq j i p = some q) :
    onLink stamp j i p = some (2 * q + 1) := by
  obtain ⟨hlink, hq⟩ := onLink_eq_some.1 h
  refine onLink_eq_some.2 ⟨hlink, ?_⟩
  cases hm : p.2 with
  | relay txs sid seq => simp_all [relaySeq, stamp]
  | _ => simp [hm, relaySeq] at hq

theorem stamp_of_readySeq {r : ℕ} (h : onLink readySeq j i p = some r) :
    onLink stamp j i p = some (2 * r) := by
  obtain ⟨hlink, hr⟩ := onLink_eq_some.1 h
  refine onLink_eq_some.2 ⟨hlink, ?_⟩
  cases hm : p.2 with
  | partitionReady sid seq => simp_all [readySeq, stamp]
  | _ => simp [hm, readySeq] at hr

end Link

end ShardMsg

open ShardMsg

/-- A message to each other leader. -/
structure ToOthers (S i : ℕ) (ms : List (ℕ × ShardMsg)) : Prop where
  dests : ms.map Prod.fst = ShardWorld.others S i
  sender : ∀ p ∈ ms, p.2.sender = some i

namespace ToOthers

variable {S i : ℕ} {ms : List (ℕ × ShardMsg)}

theorem dest (h : ToOthers S i ms) {p : ℕ × ShardMsg} (hp : p ∈ ms) : p.1 < S ∧ p.1 ≠ i := by
  have hmem : p.1 ∈ ms.map Prod.fst := List.mem_map.2 ⟨p, hp, rfl⟩
  rw [h.dests] at hmem
  simpa [ShardWorld.others] using hmem

theorem nodup (h : ToOthers S i ms) : (ms.map Prod.fst).Nodup := by
  rw [h.dests]
  exact List.nodup_range.filter _

/-- No two of them go the same way. -/
theorem pairwise (h : ToOthers S i ms) {β : Type} (f : ShardMsg → Option β) (j d : ℕ)
    {R : β → β → Prop} :
    ms.Pairwise fun x y => ∀ s ∈ onLink f j d x, ∀ s' ∈ onLink f j d y, R s s' := by
  have hne : ms.Pairwise fun x y => x.1 ≠ y.1 := List.pairwise_map.1 h.nodup
  refine hne.imp ?_
  intro x y hxy s hs s' hs'
  have hx := (onLink_eq_some.1 hs).1.1
  have hy := (onLink_eq_some.1 hs').1.1
  exact absurd (hx.trans hy.symm) hxy

/-- Each other leader gets one. -/
theorem countP_eq_one (h : ToOthers S i ms) {β : Type} {f : ShardMsg → Option β}
    (hf : ∀ p ∈ ms, (f p.2).isSome = true) {d : ℕ} (hd : d < S) (hdi : d ≠ i) :
    ms.countP (fun p => (onLink f i d p).isSome) = 1 := by
  have hcount : ms.countP (fun p => (onLink f i d p).isSome) = (ms.map Prod.fst).count d := by
    rw [List.count, List.countP_map]
    refine List.countP_congr fun p hp => ?_
    simp only [onLink, h.sender p hp, and_true, Function.comp_apply, beq_iff_eq]
    split
    · next heq => simp [heq, hf p hp]
    · next hne => simp [hne]
  rw [hcount]
  refine List.count_eq_one_of_mem h.nodup ?_
  rw [h.dests]
  simp [ShardWorld.others, hd, hdi]

end ToOthers

theorem countP_onLink_eq_zero {ms : List (ℕ × ShardMsg)} {β : Type} {f : ShardMsg → Option β}
    (hf : ∀ p ∈ ms, f p.2 = none) (j d : ℕ) :
    ms.countP (fun p => (onLink f j d p).isSome) = 0 :=
  List.countP_eq_zero.2 fun p hp => by simp [onLink_of_none (hf p hp)]

variable {H : Type} [DecidableEq H] [Hashing H] {S : ℕ}

namespace Leader

theorem toOthers_toOtherShards {n : Leader H} {msg : ℕ → ShardMsg}
    (hmsg : ∀ sid, (msg sid).sender = some n.shardID) :
    ToOthers n.shardNums n.shardID (n.toOtherShards msg) where
  dests := by
    rw [toOtherShards, List.map_map]
    exact List.map_id _
  sender := by
    intro p hp
    obtain ⟨sid, -, rfl⟩ := List.mem_map.1 hp
    exact hmsg sid

theorem toOthers_sendAccountsLoop (shardID : ℕ) (m : ShardMap)
    (fetched : List (Address × AccountState)) (queue : List Transaction) :
    ToOthers S shardID (sendAccountsLoop shardID m fetched (List.range S) queue).2 ∧
      ∀ p ∈ (sendAccountsLoop shardID m fetched (List.range S) queue).2,
        (p.2.accountStates).isSome = true ∧ p.2.readySeq = none ∧ p.2.stamp = none := by
  rw [sendAccountsLoop_eq]
  refine ⟨⟨?_, ?_⟩, ?_⟩
  · simp only [List.map_map]
    exact scatter_map_fst ..
  · intro p hp
    obtain ⟨q, -, rfl⟩ := List.mem_map.1 hp
    rfl
  · intro p hp
    obtain ⟨q, -, rfl⟩ := List.mem_map.1 hp
    exact ⟨rfl, rfl, rfl⟩

/-! ## The part of a leader in a round -/

/-- How far a repartitioning is: not begun, announced, accounts sent, proposed. -/
def stage (n : Leader H) : ℕ :=
  match n.phase with
  | .idle => 0
  | .proposed (.block _) => 0
  | .waitReady => 1
  | .waitCollect => 2
  | .proposed (.partition _) => 3

theorem stage_eq_one_iff {n : Leader H} : n.stage = 1 ↔ n.phase = .waitReady := by
  unfold stage
  split <;> simp_all

/-- The time stamp that no message of the leader has reached. -/
def clock (n : Leader H) : ℕ := 2 * n.sequenceID + if 1 ≤ n.stage then 1 else 0

/-- What leader `i` has sent in `rounds` repartitionings and the one that is going on. -/
structure Announces (S i rounds : ℕ) (sent : List (ℕ × ShardMsg)) (n : Leader H) : Prop where
  shardID : n.shardID = i
  shardNums : n.shardNums = S
  readies : ∀ d < S, d ≠ i → sent.countP (fun p => (onLink readySeq i d p).isSome) =
    rounds + if 1 ≤ n.stage then 1 else 0
  states : ∀ d < S, d ≠ i → sent.countP (fun p => (onLink accountStates i d p).isSome) =
    rounds + if 2 ≤ n.stage then 1 else 0

/-- What leader `i` has received in `rounds` repartitionings and the one that is going on, and what
    it remembers of it. -/
structure Hears (S i rounds : ℕ) (got : List (ℕ × ShardMsg)) (n : Leader H) : Prop where
  seqIDMap : ∀ j, n.seqIDMap.lookup j = (got.filterMap (onLink relaySeq j i)).getLast?
  readySeq : ∀ j, n.cdm.readySeq.lookup j = (got.filterMap (onLink readySeq j i)).getLast?
  heard : ∀ j < S, j ≠ i → rounds + (if j ∈ n.cdm.partitionReady then 1 else 0) ≤
    got.countP (fun p => (onLink ShardMsg.readySeq j i p).isSome)
  within : n.cdm.partitionReady ⊆ Finset.range S
  allReady : 2 ≤ n.stage → Finset.range S ⊆ n.cdm.partitionReady
  collected : ∀ j < S, j ≠ i → rounds + (if j ∈ n.cdm.accountStateTx then 1 else 0) ≤
    got.countP (fun p => (onLink accountStates j i p).isSome)
  others : n.cdm.accountStateTx.keys ⊆ (Finset.range S).erase i
  collectOver : n.cdm.collectOver = true → (Finset.range S).erase i ⊆ n.cdm.accountStateTx.keys
  allStates : 3 ≤ n.stage → (Finset.range S).erase i ⊆ n.cdm.accountStateTx.keys

section Rounds

variable {i rounds : ℕ} {sent got ms : List (ℕ × ShardMsg)} {n n' : Leader H}

theorem Announces.congr (h : Announces S i rounds sent n) (hid : n'.shardID = n.shardID)
    (hnums : n'.shardNums = n.shardNums) (hstage : n'.stage = n.stage) :
    Announces S i rounds sent n' where
  shardID := hid.trans h.shardID
  shardNums := hnums.trans h.shardNums
  readies := hstage ▸ h.readies
  states := hstage ▸ h.states

/-- What a leader remembers of the others. -/
def memory (n : Leader H) :
    Finmap (fun _ : ℕ => ℕ) × Finmap (fun _ : ℕ => ℕ) × Finset ℕ ×
      Finmap (fun _ : ℕ => AccountStateAndTx) × Bool :=
  (n.seqIDMap, n.cdm.readySeq, n.cdm.partitionReady, n.cdm.accountStateTx, n.cdm.collectOver)

/-- A leader that forgets nothing, and has heard of all if it has sent its accounts, and has the
    accounts of all if it has proposed. -/
theorem Hears.congr (h : Hears S i rounds got n) (hmem : n'.memory = n.memory)
    (hready : 2 ≤ n'.stage → Finset.range S ⊆ n.cdm.partitionReady)
    (hstates : 3 ≤ n'.stage → (Finset.range S).erase i ⊆ n.cdm.accountStateTx.keys) :
    Hears S i rounds got n' := by
  simp only [memory, Prod.mk.injEq] at hmem
  obtain ⟨h₁, h₂, h₃, h₄, h₅⟩ := hmem
  exact ⟨h₁ ▸ h.seqIDMap, h₂ ▸ h.readySeq, h₃ ▸ h.heard, h₃ ▸ h.within, h₃ ▸ hready, h₄ ▸ h.collected,
    h₄ ▸ h.others, h₄ ▸ h₅ ▸ h.collectOver, h₄ ▸ hstates⟩

theorem Hears.crash (h : Hears S i rounds got n) : Hears S i rounds got n.crash :=
  h.congr rfl h.allReady h.allStates

theorem Announces.crash (h : Announces S i rounds sent n) : Announces S i rounds sent n.crash :=
  h.congr rfl rfl rfl

/-! ## What a leader does -/

/-- One action of leader `i`, with the messages it sends. -/
structure TakesPart (S i rounds : ℕ) (sent got ms : List (ℕ × ShardMsg)) (n n' : Leader H) :
    Prop where
  announces : Announces S i rounds (sent ++ ms) n'
  hears : Hears S i rounds got n'
  msgs : ms = [] ∨ ToOthers S i ms
  clock : n.clock ≤ n'.clock
  stamps : ∀ p ∈ ms, ∀ s ∈ p.2.stamp, n.clock ≤ s ∧ s < n'.clock

/-- An action without messages that stays in its part of the round. -/
theorem takesPart_silent (ha : Announces S i rounds sent n) (hh : Hears S i rounds got n)
    (hid : n'.shardID = n.shardID) (hnums : n'.shardNums = n.shardNums)
    (hseq : n'.sequenceID = n.sequenceID) (hstage : n'.stage = n.stage)
    (hmem : n'.memory = n.memory) : TakesPart S i rounds sent got [] n n' where
  announces := by
    rw [List.append_nil]
    exact ha.congr hid hnums hstage
  hears := hh.congr hmem (hstage ▸ hh.allReady) (hstage ▸ hh.allStates)
  msgs := .inl rfl
  clock := by rw [clock, clock, hseq, hstage]
  stamps := by simp

theorem takesPart_crash (ha : Announces S i rounds sent n) (hh : Hears S i rounds got n) :
    TakesPart S i rounds sent got [] n n.crash :=
  takesPart_silent ha hh rfl rfl rfl rfl rfl

theorem takesPart_proposeBlock (ha : Announces S i rounds sent n) (hh : Hears S i rounds got n)
    (hphase : n.phase = .idle) {now : ℕ} {bc : BlockChain H} {b : Block H}
    (hgen : n.curChain.generateBlock 0 now = some (bc, b)) :
    TakesPart S i rounds sent got [] n
      { n with curChain := bc, phase := .proposed (.block b) } := by
  have hcc : bc.chainConfig = n.curChain.chainConfig :=
    (BlockChain.generateBlock_spec hgen).1.config
  refine takesPart_silent ha hh ?_ ?_ rfl ?_ rfl
  · exact congrArg ChainConfig.shardID hcc
  · exact congrArg ChainConfig.shardNums hcc
  · simp [stage, hphase]

/-- The announcement opens the leader's part of the round. -/
theorem takesPart_sendPartitionReady (hi : i < S) (ha : Announces S i rounds sent n)
    (hh : Hears S i rounds got n) (hphase : n.phase = .idle) :
    TakesPart S i rounds sent got n.sendPartitionReady.2 n n.sendPartitionReady.1 := by
  have hstage : n.stage = 0 := by simp [stage, hphase]
  have hstage' : n.sendPartitionReady.1.stage = 1 := rfl
  have hto : ToOthers S i n.sendPartitionReady.2 := by
    rw [← ha.shardNums, ← ha.shardID]
    exact toOthers_toOtherShards fun _ => rfl
  have hmsg : ∀ p ∈ n.sendPartitionReady.2, p.2 = .partitionReady n.shardID n.sequenceID := by
    intro p hp
    obtain ⟨sid, -, rfl⟩ := List.mem_map.1 hp
    rfl
  refine ⟨⟨ha.shardID, ha.shardNums, ?_, ?_⟩, ⟨hh.seqIDMap, hh.readySeq, ?_, ?_, ?_, hh.collected,
    hh.others, hh.collectOver, ?_⟩, .inr hto, ?_, ?_⟩
  · intro d hd hdi
    have hone := hto.countP_eq_one (f := ShardMsg.readySeq) (fun p hp => by rw [hmsg p hp]; rfl) hd hdi
    rw [List.countP_append, ha.readies d hd hdi, hone, hstage, hstage']
    rfl
  · intro d hd hdi
    rw [List.countP_append, ha.states d hd hdi, hstage, hstage', countP_onLink_eq_zero]
    · rfl
    · intro p hp
      rw [hmsg p hp]
      rfl
  · intro j hjS hj
    have hold := hh.heard j hjS hj
    simp only [sendPartitionReady, Finset.mem_insert, ha.shardID, hj, false_or]
    exact hold
  · simp only [sendPartitionReady, ha.shardID]
    exact Finset.insert_subset (Finset.mem_range.2 hi) hh.within
  · intro h
    omega
  · intro h
    omega
  · rw [clock, clock, hstage, hstage']
    exact Nat.le_add_right _ _
  · intro p hp s hs
    rw [hmsg p hp] at hs
    obtain rfl : 2 * n.sequenceID = s := Option.some.inj hs
    rw [clock, clock, hstage, hstage']
    exact ⟨le_rfl, Nat.lt_succ_self _⟩

/-- A ready leader has heard from everybody. -/
theorem Hears.partitionReady_eq (ha : Announces S i rounds sent n) (hh : Hears S i rounds got n)
    (hready : n.getPartitionReady = true) : n.cdm.partitionReady = Finset.range S := by
  refine Finset.eq_of_subset_of_card_le hh.within ?_
  rw [Finset.card_range, ← ha.shardNums]
  exact (of_decide_eq_true hready).1.ge

/-- Sending the accounts away, with everybody's announcement at hand. -/
theorem takesPart_sendAccountsAndTxs (ha : Announces S i rounds sent n) (hh : Hears S i rounds got n)
    (hphase : n.phase = .waitReady) (hready : n.getPartitionReady = true) {order : List Address}
    (h : n.sendAccountsAndTxs order = some (n', ms)) : TakesPart S i rounds sent got ms n n' := by
  have hstage := stage_eq_one_iff.2 hphase
  have hall := hh.partitionReady_eq ha hready
  rcases sendAccountsAndTxs_cases h with ⟨-, rfl, rfl⟩ | ⟨m, asFetched, r, -, -, -, rfl, rfl, rfl⟩
  · exact takesPart_crash ha hh
  rw [ha.shardID, ha.shardNums]
  obtain ⟨hto, hkind⟩ := toOthers_sendAccountsLoop (S := S) i m (order.zip asFetched)
    n.curChain.txpool.txQueue
  refine ⟨⟨ha.shardID, ha.shardNums, ?_, ?_⟩, hh.congr rfl (fun _ => hall.ge) ?_, .inr hto, ?_, ?_⟩
  · intro d hd hdi
    rw [List.countP_append, ha.readies d hd hdi, countP_onLink_eq_zero fun p hp => (hkind p hp).2.1,
      hstage]
    rfl
  · intro d hd hdi
    rw [List.countP_append, ha.states d hd hdi,
      hto.countP_eq_one (fun p hp => (hkind p hp).1) hd hdi, hstage]
    rfl
  · intro (hthree : 3 ≤ 2)
    omega
  · rw [clock, hstage]
    exact le_rfl
  · intro p hp s hs
    rw [(hkind p hp).2.2] at hs
    exact absurd hs (by simp)

/-- Proposing the transfer, with everybody's accounts at hand. -/
theorem takesPart_proposePartition (ha : Announces S i rounds sent n) (hh : Hears S i rounds got n)
    (hphase : n.phase = .waitCollect) (hover : n.cdm.collectOver = true) {shards : List ℕ}
    {addrs : List Address} (h : n.proposePartition shards addrs = some n') :
    TakesPart S i rounds sent got [] n n' := by
  have hstage : n.stage = 2 := by simp [stage, hphase]
  obtain ⟨r, -, -, -, -, ⟨rfl, -⟩ | ⟨m, -, rfl⟩⟩ := proposePartition_cases h
  · exact takesPart_crash ha hh
  refine ⟨⟨ha.shardID, ha.shardNums, ?_, ?_⟩, hh.congr rfl ?_ fun _ => hh.collectOver hover, .inl rfl,
    ?_, by simp⟩
  · intro d hd hdi
    rw [List.append_nil, ha.readies d hd hdi, hstage]
    rfl
  · intro d hd hdi
    rw [List.append_nil, ha.states d hd hdi, hstage]
    rfl
  · exact fun _ => hh.allReady hstage.ge
  · rw [clock, hstage]
    exact le_rfl

/-- Committing a block sends relay messages, and the next number comes. -/
theorem takesPart_commitBlock (ha : Announces S i rounds sent n) (hh : Hears S i rounds got n)
    {b : Block H} (hphase : n.phase = .proposed (.block b)) :
    TakesPart S i rounds sent got (n.commitBlock b).2 n (n.commitBlock b).1 := by
  have hstage : n.stage = 0 := by simp [stage, hphase]
  rw [commitBlock]
  split
  · exact takesPart_crash ha hh
  next bc hadd =>
  have hcc : bc.chainConfig = n.curChain.chainConfig := (BlockChain.addBlock_frame hadd).2.2
  split
  · refine takesPart_silent ha hh ?_ ?_ rfl rfl rfl
    · exact congrArg ChainConfig.shardID hcc
    · exact congrArg ChainConfig.shardNums hcc
  next pool hrelay =>
  have hto : ToOthers S i (n.relayMsgSend pool) := by
    rw [← ha.shardNums, ← ha.shardID]
    exact toOthers_toOtherShards fun _ => rfl
  have hmsg : ∀ p ∈ n.relayMsgSend pool, ∃ txs, p.2 = .relay txs n.shardID n.sequenceID := by
    intro p hp
    obtain ⟨sid, -, rfl⟩ := List.mem_map.1 hp
    exact ⟨_, rfl⟩
  refine ⟨⟨?_, ?_, ?_, ?_⟩, hh.congr rfl ?_ ?_, .inr hto, ?_, ?_⟩
  · exact (congrArg ChainConfig.shardID hcc).trans ha.shardID
  · exact (congrArg ChainConfig.shardNums hcc).trans ha.shardNums
  · intro d hd hdi
    rw [List.countP_append, ha.readies d hd hdi, hstage, countP_onLink_eq_zero]
    · rfl
    · intro p hp
      obtain ⟨txs, heq⟩ := hmsg p hp
      rw [heq]
      rfl
  · intro d hd hdi
    rw [List.countP_append, ha.states d hd hdi, hstage, countP_onLink_eq_zero]
    · rfl
    · intro p hp
      obtain ⟨txs, heq⟩ := hmsg p hp
      rw [heq]
      rfl
  · intro (htwo : 2 ≤ 0)
    omega
  · intro (hthree : 3 ≤ 0)
    omega
  · rw [clock, hstage]
    show 2 * n.sequenceID + 0 ≤ 2 * (n.sequenceID + 1) + 0
    omega
  · intro p hp s hs
    obtain ⟨txs, heq⟩ := hmsg p hp
    rw [heq] at hs
    obtain rfl : 2 * n.sequenceID + 1 = s := Option.some.inj hs
    rw [clock, hstage]
    show 2 * n.sequenceID + 0 ≤ _ ∧ _ < 2 * (n.sequenceID + 1) + 0
    omega

/-- Committing the transfer ends the round: what it has taken is forgotten. -/
theorem takesPart_commitPartition (ha : Announces S i rounds sent n)
    (hh : Hears S i rounds got n) {atm : AccountTransferMsg}
    (hphase : n.phase = .proposed (.partition atm)) :
    ∃ rounds', TakesPart S i rounds' sent got [] n (n.commitPartition atm) := by
  have hstage : n.stage = 3 := by simp [stage, hphase]
  rw [commitPartition]
  split
  · exact ⟨rounds, takesPart_crash ha hh⟩
  next bc hdo =>
  have hcc : bc.chainConfig = n.curChain.chainConfig :=
    (BlockChain.addAccounts_grows hdo).1.config
  refine ⟨rounds + 1, ⟨?_, ?_, ?_, ?_⟩, ⟨hh.seqIDMap, hh.readySeq, ?_, ?_, ?_, ?_, ?_, ?_, ?_⟩, .inl rfl,
    ?_, by simp⟩
  · exact (congrArg ChainConfig.shardID hcc).trans ha.shardID
  · exact (congrArg ChainConfig.shardNums hcc).trans ha.shardNums
  · intro d hd hdi
    rw [List.append_nil, ha.readies d hd hdi, hstage]
    rfl
  · intro d hd hdi
    rw [List.append_nil, ha.states d hd hdi, hstage]
    rfl
  · intro j hjS hj
    have hold := hh.heard j hjS hj
    rw [if_pos (hh.allReady (by omega) (Finset.mem_range.2 hjS))] at hold
    simpa [nextRound, afterTransfer] using hold
  · simp [nextRound, afterTransfer]
  · intro (htwo : 2 ≤ 0)
    omega
  · intro j hjS hj
    have hold := hh.collected j hjS hj
    have hmem : j ∈ n.cdm.accountStateTx :=
      Finmap.mem_keys.1 (hh.allStates hstage.ge (by simp [hjS, hj]))
    rw [if_pos hmem] at hold
    simpa [nextRound, afterTransfer, Finmap.notMem_empty] using hold
  · simp [nextRound, afterTransfer]
  · simp [nextRound, afterTransfer]
  · intro (hthree : 3 ≤ 0)
    omega
  · rw [clock, hstage]
    show 2 * n.sequenceID + 1 ≤ 2 * (n.sequenceID + 1) + 0
    omega

/-! ## What a leader hears -/

/-- One more of the messages on a link, if `c'` is new with it. -/
theorem le_countP_append {β : Type} {f : ShardMsg → Option β} {j : ℕ} {p : ℕ × ShardMsg}
    {c c' : Prop} [Decidable c] [Decidable c']
    (h : rounds + (if c then 1 else 0) ≤ got.countP (fun p => (onLink f j i p).isSome))
    (hnew : c' → c ∨ (onLink f j i p).isSome = true) :
    rounds + (if c' then 1 else 0) ≤ (got ++ [p]).countP (fun p => (onLink f j i p).isSome) := by
  rw [List.countP_append, List.countP_singleton]
  by_cases hc' : c'
  · rcases hnew hc' with hc | hp
    · rw [if_pos hc] at h
      rw [if_pos hc']
      omega
    · rw [if_pos hc', if_pos hp]
      omega
  · rw [if_neg hc']
    omega

/-- A message that says nothing about the other leaders' progress. -/
theorem Hears.receive_other (h : Hears S i rounds got n) {p : ℕ × ShardMsg}
    (hmem : n'.memory = n.memory) (hstage : n'.stage = n.stage) (hsender : p.2.sender = none) :
    Hears S i rounds (got ++ [p]) n' := by
  have hnone : ∀ {β : Type} (f : ShardMsg → Option β) (j : ℕ), onLink f j i p = none := fun f j =>
    onLink_of_sender (by simp [hsender])
  have h' : Hears S i rounds (got ++ [p]) n := by
    refine ⟨?_, ?_, ?_, h.within, h.allReady, ?_, h.others, h.collectOver, h.allStates⟩
    · intro j
      rw [List.filterMap_append, List.filterMap_cons_none (hnone _ j), List.filterMap_nil,
        List.append_nil]
      exact h.seqIDMap j
    · intro j
      rw [List.filterMap_append, List.filterMap_cons_none (hnone _ j), List.filterMap_nil,
        List.append_nil]
      exact h.readySeq j
    · exact fun j hjS hj => le_countP_append (h.heard j hjS hj) .inl
    · exact fun j hjS hj => le_countP_append (h.collected j hjS hj) .inl
  exact h'.congr hmem (hstage ▸ h.allReady) (hstage ▸ h.allStates)

/-- The last number seen on a link, after one more message. -/
theorem lookup_insert_getLast? {f : ShardMsg → Option ℕ} {m : Finmap fun _ : ℕ => ℕ}
    (h : ∀ j, m.lookup j = (got.filterMap (onLink f j i)).getLast?) {p : ℕ × ShardMsg} (hp : p.1 = i)
    {s q : ℕ} (hs : p.2.sender = some s) (hq : f p.2 = some q) (j : ℕ) :
    (Finmap.insert s q m).lookup j = ((got ++ [p]).filterMap (onLink f j i)).getLast? := by
  rw [List.filterMap_append]
  by_cases hj : j = s
  · subst hj
    rw [Finmap.lookup_insert, List.filterMap_cons_some (onLink_eq_some.2 ⟨⟨hp, hs⟩, hq⟩)]
    simp
  · have hnone : onLink f j i p = none := onLink_of_sender fun hs' => hj (by simp_all)
    rw [Finmap.lookup_insert_of_ne _ hj, h, List.filterMap_cons_none hnone, List.filterMap_nil,
      List.append_nil]

/-- The last number seen on a link, after a message of another kind. -/
theorem getLast?_append_other {f : ShardMsg → Option ℕ} {p : ℕ × ShardMsg} (hp : f p.2 = none)
    (j : ℕ) : ((got ++ [p]).filterMap (onLink f j i)).getLast? =
      (got.filterMap (onLink f j i)).getLast? := by
  rw [List.filterMap_append, List.filterMap_cons_none (onLink_of_none hp), List.filterMap_nil,
    List.append_nil]

theorem Hears.handleRelay (h : Hears S i rounds got n) (txs : List Transaction) (s q : ℕ) :
    Hears S i rounds (got ++ [(i, .relay txs s q)]) (n.handleRelay txs s q) where
  seqIDMap := lookup_insert_getLast? h.seqIDMap rfl rfl rfl
  readySeq := fun j => (h.readySeq j).trans (getLast?_append_other rfl j).symm
  heard := fun j hjS hj => le_countP_append (h.heard j hjS hj) .inl
  within := h.within
  allReady := h.allReady
  collected := fun j hjS hj => le_countP_append (h.collected j hjS hj) .inl
  others := h.others
  collectOver := h.collectOver
  allStates := h.allStates

theorem Hears.handlePartitionReady (h : Hears S i rounds got n) {s : ℕ} (hs : s < S) (r : ℕ) :
    Hears S i rounds (got ++ [(i, .partitionReady s r)]) (n.handlePartitionReady s r) where
  seqIDMap := fun j => (h.seqIDMap j).trans (getLast?_append_other rfl j).symm
  readySeq := lookup_insert_getLast? h.readySeq rfl rfl rfl
  heard := by
    intro j hjS hj
    refine le_countP_append (h.heard j hjS hj) ?_
    intro hmem
    rcases Finset.mem_insert.1 hmem with rfl | hold
    · exact .inr (by simp [onLink, sender, ShardMsg.readySeq])
    · exact .inl hold
  within := Finset.insert_subset (Finset.mem_range.2 hs) h.within
  allReady := fun hstage => (h.allReady hstage).trans (Finset.subset_insert _ _)
  collected := fun j hjS hj => le_countP_append (h.collected j hjS hj) .inl
  others := h.others
  collectOver := h.collectOver
  allStates := h.allStates

theorem Hears.handleAccountStateAndTxMsg (h : Hears S i rounds got n) (hi : i < S)
    (hnums : n.shardNums = S) {at' : AccountStateAndTx} (hs : at'.fromShard < S)
    (hsi : at'.fromShard ≠ i) :
    Hears S i rounds (got ++ [(i, .accountStateAndTx at')]) (n.handleAccountStateAndTxMsg at') := by
  have hkeys : (n.handleAccountStateAndTxMsg at').cdm.accountStateTx.keys =
      insert at'.fromShard n.cdm.accountStateTx.keys := by
    ext j
    simp [Leader.handleAccountStateAndTxMsg, Finmap.mem_keys, Finmap.mem_insert]
  have hgrow : n.cdm.accountStateTx.keys ⊆
      (n.handleAccountStateAndTxMsg at').cdm.accountStateTx.keys := by
    rw [hkeys]
    exact Finset.subset_insert _ _
  have hothers : (n.handleAccountStateAndTxMsg at').cdm.accountStateTx.keys ⊆
      (Finset.range S).erase i := by
    rw [hkeys]
    refine Finset.insert_subset ?_ h.others
    simp [hs, hsi]
  refine ⟨fun j => (h.seqIDMap j).trans (getLast?_append_other rfl j).symm,
    fun j => (h.readySeq j).trans (getLast?_append_other rfl j).symm, ?_, h.within, h.allReady, ?_,
    hothers, ?_, fun hstage => (h.allStates hstage).trans hgrow⟩
  · exact fun j hjS hj => le_countP_append (h.heard j hjS hj) .inl
  · intro j hjS hj
    refine le_countP_append (h.collected j hjS hj) ?_
    intro hmem
    rcases (Finmap.mem_insert ..).1 hmem with rfl | hold
    · exact .inr (by simp [onLink, sender, accountStates])
    · exact .inl hold
  · intro hover
    have hcases : n.cdm.collectOver = true ∨
        (n.handleAccountStateAndTxMsg at').cdm.accountStateTx.keys.card + 1 = S := by
      simpa [Leader.handleAccountStateAndTxMsg, hnums] using hover
    rcases hcases with hold | hcard
    · exact (h.collectOver hold).trans hgrow
    · -- as many shards as there are others have sent theirs
      refine (Finset.eq_of_subset_of_card_le hothers ?_).ge
      rw [Finset.card_erase_of_mem (Finset.mem_range.2 hi), Finset.card_range]
      omega

/-- One message, whatever it is. -/
theorem Hears.handleMessage (h : Hears S i rounds got n) (hi : i < S) (hnums : n.shardNums = S)
    {m : ShardMsg} (hm : ∀ j ∈ m.sender, j < S ∧ j ≠ i) :
    Hears S i rounds (got ++ [(i, m)]) (n.handleMessageOutsidePBFT .clpa m) := by
  cases m with
  | injectTxs txs => exact h.receive_other rfl rfl rfl
  | relay txs s q => exact h.handleRelay txs s q
  | partitionModifiedMap p => exact h.receive_other rfl rfl rfl
  | partitionReady s r => exact h.handlePartitionReady (hm s rfl).1 r
  | accountStateAndTx at' =>
    obtain ⟨hs, hsi⟩ := hm _ rfl
    exact h.handleAccountStateAndTxMsg hi hnums hs hsi

/-- A message changes neither the leader's part in the round nor its number. -/
theorem handleMessage_frame (n : Leader H) (m : ShardMsg) :
    (n.handleMessageOutsidePBFT .clpa m).shardID = n.shardID ∧
      (n.handleMessageOutsidePBFT .clpa m).shardNums = n.shardNums ∧
      (n.handleMessageOutsidePBFT .clpa m).stage = n.stage ∧
      (n.handleMessageOutsidePBFT .clpa m).clock = n.clock := by
  cases m <;> exact ⟨rfl, rfl, rfl, rfl⟩

end Rounds

end Leader

end BlockEmulator
