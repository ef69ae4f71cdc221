import BlockEmulator.Shard.PartitionMaps
import BlockEmulator.Shard.Readiness

set_option autoImplicit false

/-! # The barrier of a repartitioning

The leaders of the CLPA module pass the rounds of a repartitioning together, whatever the network does.
A leader sends its accounts only after it has heard the announcements of all others, and it proposes the
transfer only after it has collected the accounts of all others. Counting both kinds of messages on a
link gives the barrier: nobody sends the accounts of a round before everybody has announced it, and
nobody ends a round before it has the accounts of everybody.

So accounts that arrive belong to the round the receiver is in. `accountStateTx`, a map with one entry
for each sender that is emptied at the end of a round, never loses an entry to a later message, and no
entry is added between the proposal and the commit that empties the map. No order of delivery is needed
for this, unlike for the relay messages (`ReadyTrace.relays_arrived_when_ready`). -/

namespace BlockEmulator

open ShardMsg

variable {H : Type} [DecidableEq H] [Hashing H] {S : ℕ}

/-- Every leader is in its round, and what was announced and sent between two leaders has arrived or is
    on its way. -/
structure InRounds (rounds : Fin S → ℕ) (leaders : Fin S → Leader H) (net : List (ℕ × ShardMsg))
    (sent got : Fin S → List (ℕ × ShardMsg)) : Prop where
  announces : ∀ i : Fin S, (leaders i).Announces S i (rounds i) (sent i)
  hears : ∀ i : Fin S, (leaders i).Hears S i (rounds i) (got i)
  senders : ∀ p ∈ net, ∀ j ∈ p.2.sender, j < S ∧ j ≠ p.1
  readies : ∀ j i : Fin S, j ≠ i →
    Accounted (fun p => (onLink readySeq j i p).isSome) (sent j) (got i) net
  states : ∀ j i : Fin S, j ≠ i →
    Accounted (fun p => (onLink accountStates j i p).isSome) (sent j) (got i) net

namespace InRounds

theorem init {bc : Fin S → BlockChain H} (hid : ∀ i, (bc i).chainConfig.shardID = i)
    (hnums : ∀ i, (bc i).chainConfig.shardNums = S) :
    InRounds (fun _ => 0) (fun i => Leader.new (bc i)) [] (fun _ => []) (fun _ => []) where
  announces := fun i => ⟨hid i, hnums i, fun _ _ _ => rfl, fun _ _ _ => rfl⟩
  hears := fun i => by
    refine ⟨fun _ => rfl, fun _ => rfl, ?_, ?_, ?_, ?_, ?_, ?_, ?_⟩ <;>
      simp [Leader.new, Leader.stage, Finmap.notMem_empty]
  senders := by simp
  readies := fun _ _ _ => rfl
  states := fun _ _ _ => rfl

variable {rounds : Fin S → ℕ} {leaders : Fin S → Leader H} {net : List (ℕ × ShardMsg)}
  {sent got : Fin S → List (ℕ × ShardMsg)}

/-- The supervisor's messages concern no link. -/
theorem supervisor (h : InRounds rounds leaders net sent got) {ms : List (ℕ × ShardMsg)}
    (hms : ∀ p ∈ ms, p.2.sender = none) : InRounds rounds leaders (net ++ ms) sent got := by
  have hnone : ∀ {β : Type} (f : ShardMsg → Option β) (j i : ℕ), ∀ p ∈ ms,
      (onLink f j i p).isSome = false := fun f j i p hp => by
    rw [onLink_of_sender (by simp [hms p hp])]
    rfl
  refine ⟨h.announces, h.hears, ?_, ?_, ?_⟩
  · intro p hp j hj
    rcases List.mem_append.1 hp with hold | hnew
    · exact h.senders p hold j hj
    · exact absurd hj (by simp [hms p hnew])
  · exact fun j i hji => (h.readies j i hji).send_other (hnone _ _ _)
  · exact fun j i hji => (h.states j i hji).send_other (hnone _ _ _)

/-- **One action of a leader.** -/
theorem act (h : InRounds rounds leaders net sent got) {i : Fin S} {n : Leader H}
    {ms : List (ℕ × ShardMsg)} {round : ℕ}
    (hn : Leader.TakesPart S i round (sent i) (got i) ms (leaders i) n) :
    InRounds (Function.update rounds i round) (Function.update leaders i n) (net ++ ms)
      (Function.update sent i (sent i ++ ms)) got := by
  have hsender : ∀ p ∈ ms, p.2.sender = some i.val ∧ i.val ≠ p.1 := by
    intro p hp
    rcases hn.msgs with rfl | hto
    · exact absurd hp (by simp)
    · exact ⟨hto.sender p hp, (hto.dest hp).2.symm⟩
  have hother : ∀ {β : Type} (f : ShardMsg → Option β) {j : Fin S} (d : ℕ), j ≠ i → ∀ p ∈ ms,
      (onLink f j d p).isSome = false := by
    intro β f j d hj p hp
    rw [onLink_of_sender fun hs => hj (Fin.ext
      (Option.some.inj ((hsender p hp).1.symm.trans hs)).symm)]
    rfl
  refine ⟨?_, ?_, ?_, ?_, ?_⟩
  · intro l
    by_cases hl : l = i
    · subst hl
      simpa using hn.announces
    · simpa [hl] using h.announces l
  · intro l
    by_cases hl : l = i
    · subst hl
      simpa using hn.hears
    · simpa [hl] using h.hears l
  · intro p hp j hj
    rcases List.mem_append.1 hp with hold | hnew
    · exact h.senders p hold j hj
    · obtain ⟨hs, hne⟩ := hsender p hnew
      obtain rfl : i.val = j := Option.some.inj (hs.symm.trans hj)
      exact ⟨i.isLt, hne⟩
  · exact fun j l hjl => (h.readies j l hjl).send_update (hother _ _)
  · exact fun j l hjl => (h.states j l hjl).send_update (hother _ _)

/-- **One delivery**, of any message on its way. -/
theorem deliver (h : InRounds rounds leaders net sent got) {k : ℕ} {i : Fin S} {m : ShardMsg}
    (hk : net[k]? = some (i.val, m)) :
    InRounds rounds (Function.update leaders i ((leaders i).handleMessageOutsidePBFT .clpa m))
      (net.eraseIdx k) sent (Function.update got i (got i ++ [(i.val, m)])) := by
  obtain ⟨hid, hnums, hstage, -⟩ := (leaders i).handleMessage_frame m
  have hother : ∀ {β : Type} (f : ShardMsg → Option β) (j : ℕ) {l : Fin S}, l ≠ i →
      (onLink f j l (i.val, m)).isSome = false := fun f j l hl => by
    rw [onLink_of_dest fun he => hl (Fin.ext he.symm)]
    rfl
  refine ⟨?_, ?_, fun p hp => h.senders p (List.mem_of_mem_eraseIdx hp), ?_, ?_⟩
  · intro l
    by_cases hl : l = i
    · subst hl
      simpa using (h.announces l).congr hid hnums hstage
    · simpa [hl] using h.announces l
  · intro l
    by_cases hl : l = i
    · subst hl
      simpa using (h.hears l).handleMessage l.isLt (h.announces l).shardNums
        (h.senders _ (List.mem_of_getElem? hk))
    · simpa [hl] using h.hears l
  · exact fun j l hjl => (h.readies j l hjl).receive_update hk (hother _ _)
  · exact fun j l hjl => (h.states j l hjl).receive_update hk (hother _ _)

/-- Nobody is ahead of the accounts another has sent it. -/
theorem round_le (h : InRounds rounds leaders net sent got) {j i : Fin S} (hji : j ≠ i) :
    net.countP (fun p => (onLink accountStates j i p).isSome) + rounds i +
        (if j.val ∈ (leaders i).cdm.accountStateTx then 1 else 0) ≤
      rounds j + if 2 ≤ (leaders j).stage then 1 else 0 := by
  have hne : (j : ℕ) ≠ i := fun he => hji (Fin.ext he)
  have hsent := (h.announces j).states i i.isLt hne.symm
  have hlink := h.states j i hji
  have hcollected := (h.hears i).collected j j.isLt hne
  rw [Accounted] at hlink
  omega

/-- Nobody has heard more announcements of another than there were. -/
theorem heard_le (h : InRounds rounds leaders net sent got) {j i : Fin S} (hji : j ≠ i) :
    rounds i + (if j.val ∈ (leaders i).cdm.partitionReady then 1 else 0) ≤
      rounds j + if 1 ≤ (leaders j).stage then 1 else 0 := by
  have hne : (j : ℕ) ≠ i := fun he => hji (Fin.ext he)
  have hsent := (h.announces j).readies i i.isLt hne.symm
  have hlink := h.readies j i hji
  have hheard := (h.hears i).heard j j.isLt hne
  rw [Accounted] at hlink
  omega

/-- A leader sends its accounts only when all others have announced themselves. -/
theorem round_succ_le (h : InRounds rounds leaders net sent got) {j i : Fin S} (hji : j ≠ i)
    (hstage : 2 ≤ (leaders i).stage) :
    rounds i + 1 ≤ rounds j + if 1 ≤ (leaders j).stage then 1 else 0 := by
  have hheard := h.heard_le hji
  rwa [if_pos ((h.hears i).allReady hstage (Finset.mem_range.2 j.isLt))] at hheard

/-- **The barrier.** Accounts are on their way from one leader to another only while the other is in the
    round they belong to, and then it does not have them yet. -/
theorem states_on_way (h : InRounds rounds leaders net sent got) {j i : Fin S} (hji : j ≠ i) :
    net.countP (fun p => (onLink accountStates j i p).isSome) +
        (if j.val ∈ (leaders i).cdm.accountStateTx then 1 else 0) ≤
      if 1 ≤ (leaders i).stage then 1 else 0 := by
  have hle := h.round_le hji
  by_cases hstage : 2 ≤ (leaders j).stage
  · -- leader `j` has heard the announcement of leader `i` for the round it has sent accounts in
    have hannounced := h.round_succ_le hji.symm hstage
    rw [if_pos hstage] at hle
    omega
  · have hheard := h.heard_le hji.symm
    rw [if_neg hstage] at hle
    omega

end InRounds

/-- A leader that has just ended its part of a round has taken part in one more. -/
theorem Leader.TakesPart.round_succ {i rounds rounds' : ℕ} {sent got : List (ℕ × ShardMsg)}
    {n n' : Leader H} (h : TakesPart S i rounds' sent got [] n n') (ha : n.Announces S i rounds sent)
    (hstage : n.stage = 3) (hstage' : n'.stage = 0) :
    TakesPart S i (rounds + 1) sent got [] n n' := by
  by_cases hother : ∃ d < S, d ≠ i
  · obtain ⟨d, hd, hdi⟩ := hother
    have hold := ha.readies d hd hdi
    have hnew := h.announces.readies d hd hdi
    rw [List.append_nil, hstage', if_neg (by omega)] at hnew
    rw [hstage, if_pos (by omega)] at hold
    rwa [← hold, hnew]
  · -- with one shard there is nobody to count
    have hnone : ∀ d < S, d ≠ i → False := fun d hd hdi => hother ⟨d, hd, hdi⟩
    obtain ⟨⟨hid, hnums, -, -⟩, hh, hmsgs, hclock, hstamps⟩ := h
    exact ⟨⟨hid, hnums, fun d hd hdi => (hnone d hd hdi).elim, fun d hd hdi => (hnone d hd hdi).elim⟩,
      ⟨hh.seqIDMap, hh.readySeq, fun j hj hji => (hnone j hj hji).elim, hh.within, hh.allReady,
        fun j hj hji => (hnone j hj hji).elim, hh.others, hh.collectOver, hh.allStates⟩,
      hmsgs, hclock, hstamps⟩

namespace ShardWorld

section Applied

variable {w : ShardWorld H S} {i : Fin S}

/-- The commit of a block carries out no map. -/
theorem mapApplied_of_block {b : Block H} (hphase : (w.leaders i).phase = .proposed (.block b))
    (j : Fin S) : w.mapApplied j (.commit i) = [] := by
  by_cases hj : i = j
  · subst hj
    simp only [mapApplied, hphase]
  · exact mapApplied_of_ne hj

variable {atm : AccountTransferMsg}

/-- Nor does a transfer that fails. -/
theorem mapApplied_of_failed (hphase : (w.leaders i).phase = .proposed (.partition atm))
    (hdo : (w.leaders i).curChain.accountTransferDo atm = none) (j : Fin S) :
    w.mapApplied j (.commit i) = [] := by
  by_cases hj : i = j
  · subst hj
    simp only [mapApplied, hphase, hdo, ne_eq, not_true_eq_false, and_false, if_false]
  · exact mapApplied_of_ne hj

theorem length_mapApplied (hphase : (w.leaders i).phase = .proposed (.partition atm))
    (hdo : (w.leaders i).curChain.accountTransferDo atm ≠ none) (j : Fin S) :
    (w.mapApplied j (.commit i)).length = if j = i then 1 else 0 := by
  by_cases hj : j = i
  · subst hj
    simp [mapApplied, hphase, hdo]
  · rw [mapApplied_of_ne (Ne.symm hj), if_neg hj]
    rfl

end Applied

/-- **One step.** The leader that carries out a map has passed one more round. -/
theorem inRounds_step {rounds : Fin S → ℕ} {sent got : Fin S → List (ℕ × ShardMsg)}
    {w w' : ShardWorld H S} {a : ShardAct S} (hw : InRounds rounds w.leaders w.net sent got)
    (h : w.step .clpa a = some w') :
    ∃ sent' got', InRounds (fun i => rounds i + (w.mapApplied i a).length) w'.leaders w'.net sent' got' := by
  have hact : ∀ {i : Fin S} {n : Leader H} {ms : List (ℕ × ShardMsg)},
      Leader.TakesPart S i (rounds i) (sent i) (got i) ms (w.leaders i) n →
        ∃ sent' got', InRounds rounds (Function.update w.leaders i n) (w.net ++ ms) sent' got' := by
    intro i n ms hn
    have hnew := hw.act hn
    rw [Function.update_eq_self] at hnew
    exact ⟨_, _, hnew⟩
  cases steps_of_step h with
  | txSending count =>
    refine ⟨_, _, hw.supervisor fun p hp => ?_⟩
    obtain ⟨sid, -, rfl⟩ := List.mem_map.1 hp
    rfl
  | clpaMapSend m =>
    refine ⟨_, _, hw.supervisor fun p hp => ?_⟩
    obtain ⟨sid, -, rfl⟩ := List.mem_map.1 hp
    rfl
  | deliver hk => exact ⟨_, _, hw.deliver hk⟩
  | @proposePanics i => exact hact (Leader.takesPart_crash (hw.announces i) (hw.hears i))
  | @proposeBlock i _ _ _ _ hphase hgen =>
    exact hact (Leader.takesPart_proposeBlock (hw.announces i) (hw.hears i) hphase hgen)
  | @sendPartitionReady i _ hphase =>
    exact hact (Leader.takesPart_sendPartitionReady i.isLt (hw.announces i) (hw.hears i) hphase)
  | @sendAccountsAndTxs i _ _ _ hphase hsend =>
    exact hact (Leader.takesPart_sendAccountsAndTxs (hw.announces i) (hw.hears i) hphase
      (ReadyTrace.ready_of_step h) hsend)
  | @proposePartition i _ _ _ hphase hover hprop =>
    exact hact (Leader.takesPart_proposePartition (hw.announces i) (hw.hears i) hphase hover hprop)
  | @commitBlock i _ _ hphase =>
    simp only [mapApplied_of_block hphase, List.length_nil, Nat.add_zero]
    exact hact (Leader.takesPart_commitBlock (hw.announces i) (hw.hears i) hphase)
  | @commitPartition i atm hphase =>
    cases hdo : (w.leaders i).curChain.accountTransferDo atm with
    | none =>
      have hcrash : (w.leaders i).commitPartition atm = (w.leaders i).crash := by
        rw [Leader.commitPartition, hdo]
      simp only [mapApplied_of_failed hphase hdo, List.length_nil, Nat.add_zero, hcrash]
      exact hact (Leader.takesPart_crash (hw.announces i) (hw.hears i))
    | some bc =>
      obtain ⟨round, hn⟩ := Leader.takesPart_commitPartition (hw.announces i) (hw.hears i) hphase
      have hstage' : ((w.leaders i).commitPartition atm).stage = 0 := by
        simp [Leader.commitPartition, hdo, Leader.nextRound, Leader.stage]
      have hnew := hw.act (hn.round_succ (hw.announces i) (by simp [Leader.stage, hphase]) hstage')
      have hrounds : (fun l => rounds l + (w.mapApplied l (.commit i)).length) =
          Function.update rounds i (rounds i + 1) := by
        funext l
        rw [length_mapApplied hphase (by simp [hdo]), Function.update_apply]
        split
        · next hl => rw [hl]
        · rfl
      rw [hrounds]
      exact ⟨_, _, hnew⟩

/-- The world is in its rounds, for some record of what was sent and received. -/
def AtBarrier (w : ShardWorld H S) : Prop :=
  ∃ rounds sent got, InRounds rounds w.leaders w.net sent got

theorem atBarrier_init {bc : Fin S → BlockChain H} {dataset : List Transaction}
    (hid : ∀ i, (bc i).chainConfig.shardID = i) (hnums : ∀ i, (bc i).chainConfig.shardNums = S) :
    (init bc dataset).AtBarrier :=
  ⟨_, _, _, InRounds.init hid hnums⟩

theorem AtBarrier.step {w w' : ShardWorld H S} {a : ShardAct S} (hw : w.AtBarrier)
    (h : w.step .clpa a = some w') : w'.AtBarrier := by
  obtain ⟨rounds, sent, got, hw⟩ := hw
  exact ⟨_, inRounds_step hw h⟩

/-- What accounts on their way will find: a leader that waits, without an entry of their sender. -/
theorem AtBarrier.accounts_awaited {w : ShardWorld H S} (hw : w.AtBarrier) {i : Fin S}
    {at' : AccountStateAndTx} (hmem : (i.val, ShardMsg.accountStateAndTx at') ∈ w.net) :
    at'.fromShard ∉ (w.leaders i).cdm.accountStateTx ∧
      ((w.leaders i).phase = .waitReady ∨ (w.leaders i).phase = .waitCollect) ∧
      w.net.countP (fun p => (onLink accountStates at'.fromShard i p).isSome) = 1 := by
  obtain ⟨rounds, sent, got, hw⟩ := hw
  obtain ⟨hlt, hne⟩ := hw.senders _ hmem at'.fromShard rfl
  have hle : w.net.countP (fun p => (onLink accountStates at'.fromShard i p).isSome) +
        (if at'.fromShard ∈ (w.leaders i).cdm.accountStateTx then 1 else 0) ≤
      if 1 ≤ (w.leaders i).stage then 1 else 0 :=
    hw.states_on_way (j := ⟨at'.fromShard, hlt⟩) fun he => hne (congrArg Fin.val he)
  have hpos : 0 < w.net.countP (fun p => (onLink accountStates at'.fromShard i p).isSome) :=
    List.countP_pos_iff.2 ⟨_, hmem, by simp [onLink, ShardMsg.sender, accountStates]⟩
  have hnot : at'.fromShard ∉ (w.leaders i).cdm.accountStateTx := by
    intro hin
    rw [if_pos hin] at hle
    split at hle <;> omega
  rw [if_neg hnot] at hle
  have hstage : 1 ≤ (w.leaders i).stage := by
    by_contra hno
    rw [if_neg hno] at hle
    omega
  rw [if_pos hstage] at hle
  refine ⟨hnot, ?_, by omega⟩
  -- a leader that has proposed has the accounts of everybody
  have hproposed : ¬ 3 ≤ (w.leaders i).stage := by
    intro h3
    have hall := (hw.hears i).allStates h3 (Finset.mem_erase.2 ⟨hne, Finset.mem_range.2 hlt⟩)
    exact hnot (Finmap.mem_keys.1 hall)
  unfold Leader.stage at hstage hproposed
  split at hstage <;> simp_all

/-- **Accounts arrive in the round they belong to.** In every run of the CLPA module, with messages
    delivered in any order: accounts that are on their way to a leader will find it waiting, for the
    others to be ready or for accounts, and without an entry of their sender; and nothing else of the
    kind is on its way from the sender to the leader. So no entry is overwritten, and none is thrown
    away by the commit that empties the map. -/
theorem accounts_arrive_in_their_round {bc : Fin S → BlockChain H} {dataset : List Transaction}
    (hid : ∀ i, (bc i).chainConfig.shardID = i) (hnums : ∀ i, (bc i).chainConfig.shardNums = S)
    {w : ShardWorld H S} (hrun : Reaches (step .clpa) (init bc dataset) w) {i : Fin S}
    {at' : AccountStateAndTx} (hmem : (i.val, ShardMsg.accountStateAndTx at') ∈ w.net) :
    at'.fromShard ∉ (w.leaders i).cdm.accountStateTx ∧
      ((w.leaders i).phase = .waitReady ∨ (w.leaders i).phase = .waitCollect) ∧
      w.net.countP (fun p => (onLink accountStates at'.fromShard i p).isSome) = 1 :=
  AtBarrier.accounts_awaited
    (hrun.invariant (atBarrier_init hid hnums) fun _ _ _ hw _ hstep => hw.step hstep) hmem

section Sample

open BlockChain

/-- Alice and bob change places, and both leaders have sent their accounts. -/
theorem swapped_accounts_awaited :
    ∃ w, Reaches (step .clpa) (init twoShards [transfer 5]) w ∧
      ∃ at', (1, ShardMsg.accountStateAndTx at') ∈ w.net ∧ at'.addrs = [alice] ∧
        at'.fromShard ∉ (w.leaders 1).cdm.accountStateTx ∧
        ((w.leaders 1).phase = .waitReady ∨ (w.leaders 1).phase = .waitCollect) := by
  have hrun : ∃ w ∈ runActions (step .clpa) (init twoShards [transfer 5])
      (mapArrives 0 (swap 0 1) ++ (migrating 0 1 [alice] [bob]).take 6),
      ∃ p ∈ w.net, p.1 = 1 ∧ ∃ at' ∈ p.2.accountStates, at'.addrs = [alice] := by decide +kernel
  obtain ⟨w, hw, p, hp, hdest, at', hat, haddrs⟩ := hrun
  have hreach := reaches_of_runActions hw
  have hmem : (1, ShardMsg.accountStateAndTx at') ∈ w.net := by
    obtain ⟨d, m⟩ := p
    cases m with
    | accountStateAndTx at₁ =>
      obtain rfl : at₁ = at' := Option.some.inj hat
      exact hdest ▸ hp
    | _ => exact absurd hat (by simp [accountStates])
  have hid : ∀ i, (twoShards i).chainConfig.shardID = i := fun _ => rfl
  have hnums : ∀ i, (twoShards i).chainConfig.shardNums = 2 := fun _ => rfl
  have hawaited := accounts_arrive_in_their_round hid hnums hreach
    (show (((1 : Fin 2) : ℕ), ShardMsg.accountStateAndTx at') ∈ w.net from hmem)
  exact ⟨w, hreach, at', hmem, haddrs, hawaited.1, hawaited.2.1⟩

end Sample

end ShardWorld

end BlockEmulator
