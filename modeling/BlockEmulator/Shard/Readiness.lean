import BlockEmulator.Lib.Channel
import BlockEmulator.Shard.Announcements

set_option autoImplicit false

/-! # Readiness

Before a leader sends accounts away it waits until every shard has announced that it takes part in the
repartitioning, and until the number of the last relay message it knows of each shard is the one before
the announced number. `ReadyTrace` records what each leader has sent and received. That all relay
messages sent before an announcement have arrived follows if the relay messages of a shard arrive in the
order they were sent, and if the announcement of a shard that no relay message has come from does not
overtake its relay messages; the network guarantees neither.

The leaders take part in the same rounds: a leader that starts its next one has the accounts of all
others from the last one, and they had its announcement. So no more than one announcement is on its way
between two leaders, and a leader that waits and has heard from another has heard its last. -/

namespace BlockEmulator

open ShardMsg

variable {H : Type} [DecidableEq H] [Hashing H] {S : ℕ}

namespace Leader

/-- The message may reach the leader before those that were sent earlier and are on their way: a relay
    message if none of its sender is among them, an announcement if none is or one has come before. -/
def MayReceive (n : Leader H) (earlier : List (ℕ × ShardMsg)) (d : ℕ) : ShardMsg → Prop
  | .relay _ j _ => ∀ q ∈ earlier, onLink relaySeq j d q = none
  | .partitionReady j r =>
    r < 2 ^ 64 ∧ (j ∈ n.seqIDMap.keys ∨ ∀ q ∈ earlier, onLink relaySeq j d q = none)
  | _ => True

instance (n : Leader H) (earlier : List (ℕ × ShardMsg)) (d : ℕ) :
    (m : ShardMsg) → Decidable (n.MayReceive earlier d m)
  | .relay _ j _ => inferInstanceAs (Decidable (∀ q ∈ earlier, onLink relaySeq j d q = none))
  | .partitionReady j r => inferInstanceAs (Decidable
      (r < 2 ^ 64 ∧ (j ∈ n.seqIDMap.keys ∨ ∀ q ∈ earlier, onLink relaySeq j d q = none)))
  | .injectTxs _ | .partitionModifiedMap _ | .accountStateAndTx _ => .isTrue trivial

end Leader

/-! ## Runs with what was sent and received -/

/-- The leader that acts. -/
def ShardAct.actor : ShardAct S → Option (Fin S)
  | .proposeBlock i _ => some i
  | .sendPartitionReady i => some i
  | .sendAccountsAndTxs i _ => some i
  | .proposePartition i _ _ => some i
  | .commit i => some i
  | _ => none

/-- The message that a step delivers to leader `i`. -/
def ShardWorld.delivered (w : ShardWorld H S) (i : Fin S) : ShardAct S → List (ℕ × ShardMsg)
  | .deliver k => w.net[k]?.toList.filter fun p => p.1 = i
  | _ => []

/-- The world, what each leader has sent and what each has received. -/
structure ReadyTrace (H : Type) [DecidableEq H] [Hashing H] (S : ℕ) where
  world : ShardWorld H S
  sent : Fin S → List (ℕ × ShardMsg)
  got : Fin S → List (ℕ × ShardMsg)

namespace ReadyTrace

def init (bc : Fin S → BlockChain H) (dataset : List Transaction) : ReadyTrace H S where
  world := .init bc dataset
  sent := fun _ => []
  got := fun _ => []

/-- One step with the CLPA module. -/
def step (t : ReadyTrace H S) (a : ShardAct S) : Option (ReadyTrace H S) :=
  (t.world.step .clpa a).map fun w =>
    { world := w
      sent := fun i =>
        if a.actor = some i then t.sent i ++ w.net.drop t.world.net.length else t.sent i
      got := fun i => t.got i ++ t.world.delivered i a }

/-- Relay messages of a shard arrive in order, and its announcement does not overtake the first. -/
def RelaysFirst (t : ReadyTrace H S) : ShardAct S → Prop
  | .deliver k => ∀ p ∈ t.world.net[k]?, ∀ hd : p.1 < S,
      (t.world.leaders ⟨p.1, hd⟩).MayReceive (t.world.net.take k) p.1 p.2
  | _ => True

instance (t : ReadyTrace H S) : (a : ShardAct S) → Decidable (t.RelaysFirst a)
  | .deliver k => inferInstanceAs (Decidable (∀ p ∈ t.world.net[k]?, ∀ hd : p.1 < S,
      (t.world.leaders ⟨p.1, hd⟩).MayReceive (t.world.net.take k) p.1 p.2))
  | .txSending _ | .clpaMapSend _ | .proposeBlock _ _ | .sendPartitionReady _
  | .sendAccountsAndTxs _ _ | .proposePartition _ _ _ | .commit _ => .isTrue trivial

/-! ## The invariant -/

/-- Every leader is in its round, the numbers follow the order of sending, and nothing gets lost
    between two leaders; what is on its way from a shard that no relay message has come from was sent
    after the announcements that have come. -/
structure Drains (rounds : Fin S → ℕ) (leaders : Fin S → Leader H) (net : List (ℕ × ShardMsg))
    (sent got : Fin S → List (ℕ × ShardMsg)) : Prop where
  announces : ∀ i : Fin S, (leaders i).Announces S i (rounds i) (sent i)
  hears : ∀ i : Fin S, (leaders i).Hears S i (rounds i) (got i)
  sentTimed : ∀ (j : Fin S) (d : ℕ), Timed (onLink stamp j d) (leaders j).clock (sent j)
  netTimed : ∀ (j : Fin S) (d : ℕ), Timed (onLink stamp j d) (leaders j).clock net
  senders : ∀ p ∈ net, ∀ j ∈ p.2.sender, j < S ∧ j ≠ p.1
  relays : ∀ j i : Fin S, j ≠ i →
    InOrder (fun p => (onLink relaySeq j i p).isSome) (sent j) (got i) net
  readies : ∀ j i : Fin S, j ≠ i →
    InOrder (fun p => (onLink readySeq j i p).isSome) (sent j) (got i) net
  states : ∀ j i : Fin S, j ≠ i →
    Accounted (fun p => (onLink accountStates j i p).isSome) (sent j) (got i) net
  unheard : ∀ j i : Fin S, j ≠ i → (got i).filterMap (onLink relaySeq j i) = [] →
    ∀ r ∈ (got i).filterMap (onLink readySeq j i), ∀ p ∈ net, ∀ q ∈ onLink relaySeq j i p, r ≤ q
  small : ∀ (j : ℕ) (i : Fin S), ∀ r ∈ (got i).filterMap (onLink readySeq j i), r < 2 ^ 64

theorem drains_init {bc : Fin S → BlockChain H} (hid : ∀ i, (bc i).chainConfig.shardID = i)
    (hnums : ∀ i, (bc i).chainConfig.shardNums = S) :
    Drains (fun _ => 0) (fun i => Leader.new (bc i)) [] (fun _ => []) (fun _ => []) where
  announces := fun i => ⟨hid i, hnums i, fun _ _ _ => rfl, fun _ _ _ => rfl⟩
  hears := fun i => by
    refine ⟨fun _ => rfl, fun _ => rfl, ?_, ?_, ?_, ?_, ?_, ?_, ?_⟩ <;>
      simp [Leader.new, Leader.stage, Finmap.notMem_empty]
  sentTimed := fun _ _ => timed_nil _ _
  netTimed := fun _ _ => timed_nil _ _
  senders := by simp
  relays := fun _ _ _ => rfl
  readies := fun _ _ _ => rfl
  states := fun _ _ _ => rfl
  unheard := by simp
  small := by simp

section Step

variable {rounds : Fin S → ℕ} {leaders : Fin S → Leader H} {net : List (ℕ × ShardMsg)}
  {sent got : Fin S → List (ℕ × ShardMsg)}

/-- The announcements between two leaders, by the rounds they are in. -/
theorem Drains.readies_le (h : Drains rounds leaders net sent got) {j i : Fin S} (hji : j ≠ i) :
    (sent j).countP (fun p => (onLink readySeq j i p).isSome) ≤
      rounds i + (if 2 ≤ (leaders i).stage then 1 else 0) + 1 := by
  have hne : (j : ℕ) ≠ i := fun he => hji (Fin.ext he)
  -- leader `j` has the accounts of leader `i` from each of its rounds
  have hsent := (h.announces j).readies i i.isLt hne.symm
  have hcollected := (h.hears j).collected i i.isLt hne.symm
  have hstates := (h.announces i).states j j.isLt hne
  have hlink := h.states i j hji.symm
  rw [Accounted] at hlink
  split at hsent <;> split at hcollected <;> omega

/-- At most one announcement is on its way between two leaders. -/
theorem Drains.readies_on_way (h : Drains rounds leaders net sent got) {j i : Fin S} (hji : j ≠ i) :
    net.countP (fun p => (onLink readySeq j i p).isSome) ≤ 1 := by
  have hle := h.readies_le hji
  have hlink := (h.readies j i hji).accounted
  have hheard := (h.hears i).heard j j.isLt fun he => hji (Fin.ext he)
  rw [Accounted] at hlink
  by_cases hstage : 2 ≤ (leaders i).stage
  · rw [if_pos hstage] at hle
    rw [if_pos ((h.hears i).allReady hstage (Finset.mem_range.2 j.isLt))] at hheard
    omega
  · rw [if_neg hstage] at hle
    omega

/-- A leader that has not sent its accounts yet and has heard from another has all its
    announcements. -/
theorem Drains.readies_arrived (h : Drains rounds leaders net sent got) {j i : Fin S} (hji : j ≠ i)
    (hstage : (leaders i).stage = 1) (hmem : j.val ∈ (leaders i).cdm.partitionReady) :
    net.countP (fun p => (onLink readySeq j i p).isSome) = 0 := by
  have hle := h.readies_le hji
  have hlink := (h.readies j i hji).accounted
  have hheard := (h.hears i).heard j j.isLt fun he => hji (Fin.ext he)
  rw [Accounted] at hlink
  rw [hstage] at hle
  rw [if_pos hmem] at hheard
  simp only [Nat.reduceLeDiff, if_false] at hle
  omega

/-- The supervisor's messages concern no link. -/
theorem Drains.supervisor (h : Drains rounds leaders net sent got) {ms : List (ℕ × ShardMsg)}
    (hms : ∀ p ∈ ms, p.2.sender = none) : Drains rounds leaders (net ++ ms) sent got := by
  have hnone : ∀ {β : Type} (f : ShardMsg → Option β) (j i : ℕ), ∀ p ∈ ms, onLink f j i p = none :=
    fun f j i p hp => onLink_of_sender (by simp [hms p hp])
  refine ⟨h.announces, h.hears, h.sentTimed, fun j d => (h.netTimed j d).append_other (hnone _ j d),
    ?_, ?_, ?_, ?_, ?_, h.small⟩
  · intro p hp j hj
    rcases List.mem_append.1 hp with hold | hnew
    · exact h.senders p hold j hj
    · exact absurd hj (by simp [hms p hnew])
  · exact fun j i hji => (h.relays j i hji).send_other fun p hp => by simp [hnone _ _ _ p hp]
  · exact fun j i hji => (h.readies j i hji).send_other fun p hp => by simp [hnone _ _ _ p hp]
  · exact fun j i hji => (h.states j i hji).send_other fun p hp => by simp [hnone _ _ _ p hp]
  · intro j i hji hno r hr p hp q hq
    rcases List.mem_append.1 hp with hold | hnew
    · exact h.unheard j i hji hno r hr p hold q hq
    · exact absurd hq (by simp [hnone _ _ _ p hnew])

/-- **One action of a leader.** -/
theorem Drains.act (h : Drains rounds leaders net sent got) {i : Fin S} {n : Leader H}
    {ms : List (ℕ × ShardMsg)} {round : ℕ}
    (hn : Leader.TakesPart S i round (sent i) (got i) ms (leaders i) n) :
    Drains (Function.update rounds i round) (Function.update leaders i n) (net ++ ms)
      (Function.update sent i (sent i ++ ms)) got := by
  have hsender : ∀ p ∈ ms, p.2.sender = some i.val ∧ i.val ≠ p.1 := by
    intro p hp
    rcases hn.msgs with rfl | hto
    · exact absurd hp (by simp)
    · exact ⟨hto.sender p hp, (hto.dest hp).2.symm⟩
  have hother : ∀ {β : Type} (f : ShardMsg → Option β) {j : Fin S}, j ≠ i → ∀ d, ∀ p ∈ ms,
      onLink f j d p = none := by
    intro β f j hj d p hp
    refine onLink_of_sender fun hs => hj (Fin.ext ?_)
    exact (Option.some.inj ((hsender p hp).1.symm.trans hs)).symm
  have hstamps : ∀ d, ∀ p ∈ ms, ∀ s ∈ onLink stamp i d p, (leaders i).clock ≤ s ∧ s < n.clock :=
    fun d p hp s hs => hn.stamps p hp s (onLink_eq_some.1 hs).2
  have htimed : ∀ {l : List (ℕ × ShardMsg)} (d : ℕ), Timed (onLink stamp i d) (leaders i).clock l →
      Timed (onLink stamp i d) n.clock (l ++ ms) := by
    intro l d hl
    refine hl.append ?_ (hstamps d) hn.clock
    rcases hn.msgs with rfl | hto
    · exact List.Pairwise.nil
    · exact hto.pairwise stamp i d
  refine ⟨?_, ?_, ?_, ?_, ?_, ?_, ?_, ?_, ?_, h.small⟩
  · intro l
    by_cases hl : l = i
    · subst hl
      simpa using hn.announces
    · simpa [hl] using h.announces l
  · intro l
    by_cases hl : l = i
    · subst hl
      simpa using hn.hears
    · simpa [hl] using h.hears l
  · intro l d
    by_cases hl : l = i
    · subst hl
      simpa using htimed d (h.sentTimed l d)
    · simpa [hl] using h.sentTimed l d
  · intro l d
    by_cases hl : l = i
    · subst hl
      simpa using htimed d (h.netTimed l d)
    · simpa [hl] using (h.netTimed l d).append_other (hother _ hl d)
  · intro p hp j hj
    rcases List.mem_append.1 hp with hold | hnew
    · exact h.senders p hold j hj
    · obtain ⟨hs, hne⟩ := hsender p hnew
      obtain rfl : i.val = j := Option.some.inj (hs.symm.trans hj)
      exact ⟨i.isLt, hne⟩
  · exact fun j l hjl => (h.relays j l hjl).send_update fun hj p hp => by simp [hother _ hj _ p hp]
  · exact fun j l hjl => (h.readies j l hjl).send_update fun hj p hp => by simp [hother _ hj _ p hp]
  · exact fun j l hjl => (h.states j l hjl).send_update fun hj p hp => by simp [hother _ hj _ p hp]
  · intro j l hjl hno r hr p hp q hq
    rcases List.mem_append.1 hp with hold | hnew
    · exact h.unheard j l hjl hno r hr p hold q hq
    · by_cases hj : j = i
      · -- what is sent now has a later stamp than the announcement, which was sent before
        subst hj
        obtain ⟨y, hy, hyr⟩ := List.mem_filterMap.1 hr
        have hsent : y ∈ sent j := ((h.readies j l hjl).mem_iff (by simp [hyr])).2 (.inl hy)
        have hbelow := (h.sentTimed j l).below y hsent _ (stamp_of_readySeq hyr)
        have hlater := (hstamps l p hnew _ (stamp_of_relaySeq hq)).1
        omega
      · exact absurd hq (by simp [hother _ hj _ p hnew])

/-- The relay messages that may be overtaken by a message. -/
theorem relays_of_mayReceive {n : Leader H} {earlier : List (ℕ × ShardMsg)} {d j : ℕ} {m : ShardMsg}
    (hmay : n.MayReceive earlier d m) (hrelay : (onLink relaySeq j d (d, m)).isSome = true) :
    ∀ q ∈ earlier, onLink relaySeq j d q = none := by
  obtain ⟨s, hs⟩ := Option.isSome_iff_exists.1 hrelay
  obtain ⟨⟨-, hsender⟩, hseq⟩ := onLink_eq_some.1 hs
  cases m with
  | relay txs j' q =>
    obtain rfl : j' = j := Option.some.inj hsender
    exact hmay
  | _ => exact absurd hseq (by simp [relaySeq])

/-- An announcement that is received has a small number. -/
theorem lt_of_mayReceive {n : Leader H} {earlier : List (ℕ × ShardMsg)} {d j r : ℕ} {m : ShardMsg}
    (hmay : n.MayReceive earlier d m) (hr : onLink readySeq j d (d, m) = some r) : r < 2 ^ 64 := by
  obtain ⟨-, hseq⟩ := onLink_eq_some.1 hr
  cases m with
  | partitionReady j' r' =>
    obtain rfl : r' = r := Option.some.inj hseq
    exact hmay.1
  | _ => exact absurd hseq (by simp [ShardMsg.readySeq])

/-- The relay messages that an announcement may overtake, where none has come before. -/
theorem Drains.none_of_mayReceive (h : Drains rounds leaders net sent got) {i : Fin S} {j r : ℕ}
    {earlier : List (ℕ × ShardMsg)} {m : ShardMsg} (hmay : (leaders i).MayReceive earlier i m)
    (hno : (got i).filterMap (onLink relaySeq j i) = [])
    (hr : onLink readySeq j i (i.val, m) = some r) :
    ∀ y ∈ earlier, onLink relaySeq j i y = none := by
  obtain ⟨⟨-, hsender⟩, hseq⟩ := onLink_eq_some.1 hr
  cases m with
  | partitionReady j' r' =>
    obtain rfl : j' = j := Option.some.inj hsender
    refine hmay.2.resolve_left fun hmem => ?_
    have hnone := (h.hears i).seqIDMap j'
    rw [hno, List.getLast?_nil, Finmap.lookup_eq_none] at hnone
    exact hnone (Finmap.mem_keys.1 hmem)
  | _ => exact absurd hseq (by simp [ShardMsg.readySeq])

/-- What stays on its way when a first announcement is received was sent after it. -/
theorem Drains.le_of_announcement (h : Drains rounds leaders net sent got) {k : ℕ} {i j : Fin S}
    {m : ShardMsg} (hk : net[k]? = some (i.val, m))
    (hmay : (leaders i).MayReceive (net.take k) i m)
    (hno : (got i).filterMap (onLink relaySeq j i) = []) {r q : ℕ}
    (hr : onLink readySeq j i (i.val, m) = some r) {p : ℕ × ShardMsg} (hp : p ∈ net.eraseIdx k)
    (hq : onLink relaySeq j i p = some q) : r ≤ q := by
  obtain ⟨hnet, herase⟩ := eq_take_append_of_getElem? hk
  rw [herase, List.mem_append] at hp
  rcases hp with hbefore | hafter
  · exact absurd hq (by simp [h.none_of_mayReceive hmay hno hr p hbefore])
  · have hincr := (h.netTimed j i).increasing
    rw [hnet] at hincr
    have hrest := (List.pairwise_cons.1 (List.pairwise_append.1 hincr).2.1).1 p hafter
    have hlt := hrest _ (stamp_of_readySeq hr) _ (stamp_of_relaySeq hq)
    omega

/-- **One delivery.** -/
theorem Drains.deliver (h : Drains rounds leaders net sent got) {k : ℕ} {i : Fin S} {m : ShardMsg}
    (hk : net[k]? = some (i.val, m)) (hmay : (leaders i).MayReceive (net.take k) i m) :
    Drains rounds (Function.update leaders i ((leaders i).handleMessageOutsidePBFT .clpa m))
      (net.eraseIdx k) sent (Function.update got i (got i ++ [(i.val, m)])) := by
  obtain ⟨hid, hnums, hstage, hclock⟩ := (leaders i).handleMessage_frame m
  have hsub : (net.eraseIdx k).Sublist net := List.eraseIdx_sublist ..
  have hclocks : ∀ j, (Function.update leaders i
      ((leaders i).handleMessageOutsidePBFT .clpa m) j).clock = (leaders j).clock := by
    intro j
    by_cases hj : j = i
    · subst hj
      simpa using hclock
    · simp [hj]
  have hother : ∀ {β : Type} (f : ShardMsg → Option β) (j : ℕ) {l : Fin S}, l ≠ i →
      (onLink f j l (i.val, m)).isSome = false := fun f j l hl => by
    rw [onLink_of_dest fun he => hl (Fin.ext he.symm)]
    rfl
  refine ⟨?_, ?_, ?_, ?_, fun p hp => h.senders p (hsub.mem hp), ?_, ?_, ?_, ?_, ?_⟩
  · intro l
    by_cases hl : l = i
    · subst hl
      simpa using (h.announces l).congr hid hnums hstage
    · simpa [hl] using h.announces l
  · intro l
    by_cases hl : l = i
    · subst hl
      simpa using (h.hears l).handleMessage l.isLt (h.announces l).shardNums
        (h.senders _ (List.mem_of_getElem? hk))
    · simpa [hl] using h.hears l
  · intro j d
    rw [hclocks]
    exact h.sentTimed j d
  · intro j d
    rw [hclocks]
    exact (h.netTimed j d).sublist hsub
  · intro j l hjl
    refine (h.relays j l hjl).receive_update hk (hother _ _) ?_
    rintro rfl hrelay q hq
    rw [relays_of_mayReceive hmay hrelay q hq]
    rfl
  · intro j l hjl
    refine (h.readies j l hjl).receive_update hk (hother _ _) ?_
    rintro rfl hready
    exact first_of_countP_le_one hk hready (h.readies_on_way hjl)
  · exact fun j l hjl => (h.states j l hjl).receive_update hk (hother _ _)
  · intro j l hjl hno r hr p hp q hq
    by_cases hl : l = i
    · subst hl
      simp only [Function.update_self, List.filterMap_append, List.append_eq_nil_iff] at hno hr
      rcases List.mem_append.1 hr with hold | hnew
      · exact h.unheard j l hjl hno.1 r hold p (hsub.mem hp) q hq
      · obtain ⟨x, hx, hxr⟩ := List.mem_filterMap.1 hnew
        obtain rfl := List.mem_singleton.1 hx
        exact h.le_of_announcement hk hmay hno.1 hxr hp hq
    · simp only [Function.update_of_ne hl] at hno hr
      exact h.unheard j l hjl hno r hr p (hsub.mem hp) q hq
  · intro j l r hr
    by_cases hl : l = i
    · subst hl
      simp only [Function.update_self, List.filterMap_append] at hr
      rcases List.mem_append.1 hr with hold | hnew
      · exact h.small j l r hold
      · obtain ⟨x, hx, hxr⟩ := List.mem_filterMap.1 hnew
        obtain rfl := List.mem_singleton.1 hx
        exact lt_of_mayReceive hmay hxr
    · simp only [Function.update_of_ne hl] at hr
      exact h.small j l r hr

/-- What is on its way to a ready leader was sent after every announcement that has come. -/
theorem Drains.le_of_ready (h : Drains rounds leaders net sent got) {j i : Fin S} (hji : j ≠ i)
    (hready : (leaders i).getPartitionReady = true) {p : ℕ × ShardMsg} (hp : p ∈ net) {q r : ℕ}
    (hq : onLink relaySeq j i p = some q) (hr : r ∈ (got i).filterMap (onLink readySeq j i)) :
    r ≤ q := by
  cases hlast : ((got i).filterMap (onLink relaySeq j i)).getLast? with
  | none => exact h.unheard j i hji (List.getLast?_eq_none_iff.1 hlast) r hr p hp q hq
  | some q₀ =>
    -- the last relay message that has come has the number before the last announced one
    have hlookup := ((h.hears i).seqIDMap j).trans hlast
    obtain ⟨x, hx, hxq⟩ := List.mem_filterMap.1 (List.mem_of_getLast? hlast)
    have hlt := (h.relays j i hji).lt_of_arrived (h.sentTimed j i) hx hp (by simp [hxq])
      (by simp [hq]) (stamp_of_relaySeq hxq) (stamp_of_relaySeq hq)
    obtain ⟨rval, hrval, hval⟩ := (of_decide_eq_true hready).2 j
      (Finmap.mem_keys.2 (Finmap.mem_of_lookup_eq_some hlookup))
    rw [hlookup, Option.some.injEq, u64] at hval
    have hrlast := ((h.hears i).readySeq j).symm.trans hrval
    have hle := (h.readies j i hji).le_last (h.sentTimed j i) (c := fun r => 2 * r)
      (fun r r' h => by omega) (fun x r h => stamp_of_readySeq h) hr hrlast
    have hsmall := h.small j i rval (List.mem_of_getLast? hrlast)
    omega

end Step

/-- The recorded state keeps the invariant. -/
def Drained (t : ReadyTrace H S) : Prop :=
  ∃ rounds, Drains rounds t.world.leaders t.world.net t.sent t.got

/-- A leader that sends its accounts has found everybody ready. -/
theorem ready_of_step {w w' : ShardWorld H S} {i : Fin S} {order : List Address}
    (h : w.step .clpa (.sendAccountsAndTxs i order) = some w') :
    (w.leaders i).getPartitionReady = true := by
  obtain ⟨-, h⟩ := Option.ite_none_right_eq_some.1 h
  simp only [ShardWorld.act] at h
  split at h
  · exact (Option.ite_none_right_eq_some.1 h).1
  · exact absurd h (by simp)

theorem Drained.step {t t' : ReadyTrace H S} {a : ShardAct S} (ht : t.Drained)
    (hfirst : t.RelaysFirst a) (h : t.step a = some t') : t'.Drained := by
  obtain ⟨rounds, ht⟩ := ht
  obtain ⟨w, hw, rfl⟩ := Option.map_eq_some_iff.1 h
  have hact : ∀ {i : Fin S} {n : Leader H} {ms : List (ℕ × ShardMsg)} {round : ℕ},
      a.actor = some i → w.leaders = Function.update t.world.leaders i n → w.net = t.world.net ++ ms →
      (∀ l, t.world.delivered l a = []) →
      Leader.TakesPart S i round (t.sent i) (t.got i) ms (t.world.leaders i) n →
      Drained ⟨w, fun l => if a.actor = some l then t.sent l ++ w.net.drop t.world.net.length
        else t.sent l, fun l => t.got l ++ t.world.delivered l a⟩ := by
    intro i n ms round hactor hleaders hnet hgot hn
    refine ⟨Function.update rounds i round, ?_⟩
    have hsent : (fun l => if a.actor = some l then t.sent l ++ w.net.drop t.world.net.length
        else t.sent l) = Function.update t.sent i (t.sent i ++ ms) := by
      funext l
      rw [hactor, hnet, List.drop_left]
      by_cases hl : l = i
      · subst hl
        simp
      · simp [hl, Ne.symm hl]
    have hsame : (fun l => t.got l ++ t.world.delivered l a) = t.got := by
      funext l
      rw [hgot, List.append_nil]
    simp only [hleaders, hnet, hsame] at hsent ⊢
    rw [hsent]
    exact ht.act hn
  have hnone : ∀ l, t.got l ++ [] = t.got l := fun l => List.append_nil _
  cases ShardWorld.steps_of_step hw with
  | txSending count =>
    refine ⟨rounds, ?_⟩
    simp only [ShardWorld.delivered, hnone]
    refine ht.supervisor fun p hp => ?_
    obtain ⟨sid, -, rfl⟩ := List.mem_map.1 hp
    rfl
  | clpaMapSend m =>
    refine ⟨rounds, ?_⟩
    simp only [ShardWorld.delivered, hnone]
    refine ht.supervisor fun p hp => ?_
    obtain ⟨sid, -, rfl⟩ := List.mem_map.1 hp
    rfl
  | @deliver k i m hk =>
    refine ⟨rounds, ?_⟩
    have hgot : (fun l => t.got l ++ t.world.delivered l (.deliver k)) =
        Function.update t.got i (t.got i ++ [(i.val, m)]) := by
      funext l
      rw [ShardWorld.delivered, hk]
      by_cases hl : l = i
      · subst hl
        simp
      · simp [hl, Fin.val_inj, Ne.symm hl]
    rw [hgot]
    exact ht.deliver hk (hfirst _ hk i.isLt)
  | @proposePanics i =>
    exact hact rfl rfl rfl (fun _ => rfl) (Leader.takesPart_crash (ht.announces i) (ht.hears i))
  | @proposeBlock i _ _ _ _ hphase hgen =>
    exact hact rfl rfl rfl (fun _ => rfl)
      (Leader.takesPart_proposeBlock (ht.announces i) (ht.hears i) hphase hgen)
  | @sendPartitionReady i _ hphase =>
    exact hact rfl rfl rfl (fun _ => rfl)
      (Leader.takesPart_sendPartitionReady i.isLt (ht.announces i) (ht.hears i) hphase)
  | @sendAccountsAndTxs i _ _ _ hphase hsend =>
    exact hact rfl rfl rfl (fun _ => rfl)
      (Leader.takesPart_sendAccountsAndTxs (ht.announces i) (ht.hears i) hphase (ready_of_step hw)
        hsend)
  | @proposePartition i _ _ _ hphase hover hprop =>
    exact hact rfl rfl rfl (fun _ => rfl)
      (Leader.takesPart_proposePartition (ht.announces i) (ht.hears i) hphase hover hprop)
  | @commitBlock i _ _ hphase =>
    exact hact rfl rfl rfl (fun _ => rfl)
      (Leader.takesPart_commitBlock (ht.announces i) (ht.hears i) hphase)
  | @commitPartition i _ hphase =>
    obtain ⟨round, hn⟩ :=
      Leader.takesPart_commitPartition (ht.announces i) (ht.hears i) hphase
    exact hact rfl rfl rfl (fun _ => rfl) hn

/-- **A leader that is ready has everything that was relayed to it.** In every run in which the relay
    messages between two shards arrive in the order they were sent, and the first announcement does not
    overtake all of them: when leader `i` waits for the others and `getPartitionReady` holds, it has
    received every relay message that another leader sent it before sending it an announcement. -/
theorem relays_arrived_when_ready {bc : Fin S → BlockChain H} {dataset : List Transaction}
    (hid : ∀ i, (bc i).chainConfig.shardID = i) (hnums : ∀ i, (bc i).chainConfig.shardNums = S)
    {t : ReadyTrace H S} (hrun : ReachesUnder step RelaysFirst (init bc dataset) t) {i j : Fin S}
    (hji : j ≠ i) (hphase : (t.world.leaders i).phase = .waitReady)
    (hready : (t.world.leaders i).getPartitionReady = true) {k l : ℕ} (hkl : k < l)
    {x y : ℕ × ShardMsg} (hx : (t.sent j)[k]? = some x) (hy : (t.sent j)[l]? = some y)
    (hrelay : (onLink relaySeq j i x).isSome = true)
    (hannounce : (onLink readySeq j i y).isSome = true) : x ∈ t.got i := by
  obtain ⟨rounds, ht⟩ : t.Drained := hrun.invariant (I := Drained)
    ⟨fun _ => 0, drains_init hid hnums⟩ fun _ _ _ ht hfirst h => ht.step hfirst h
  obtain ⟨q, hq⟩ := Option.isSome_iff_exists.1 hrelay
  obtain ⟨r, hr⟩ := Option.isSome_iff_exists.1 hannounce
  have hstage := Leader.stage_eq_one_iff.2 hphase
  have hall := (ht.hears i).partitionReady_eq (ht.announces i) hready
  -- all announcements of leader `j` have arrived, also the one in question
  have hempty := ht.readies_arrived hji hstage (by simp [hall])
  have harrived : y ∈ t.got i := by
    have hmem := ((ht.readies j i hji).mem_iff hannounce).1 (List.mem_of_getElem? hy)
    refine hmem.resolve_right fun hnet => ?_
    exact List.countP_eq_zero.1 hempty y hnet hannounce
  have hrgot : r ∈ (t.got i).filterMap (onLink readySeq j i) := List.mem_filterMap.2 ⟨y, harrived, hr⟩
  have hqr : 2 * q + 1 < 2 * r := (ht.sentTimed j i).lt_of_lt hkl hx hy (stamp_of_relaySeq hq)
    (stamp_of_readySeq hr)
  refine (((ht.relays j i hji).mem_iff hrelay).1 (List.mem_of_getElem? hx)).resolve_right ?_
  intro hnet
  have hrq := ht.le_of_ready hji hready hnet hq hrgot
  omega

/-! ## Overtaking -/

section Sample

open BlockChain ShardWorld

/-- Leader `i` commits some blocks, whose relay messages stay on their way; a map arrives, and both
    leaders announce that they take part. -/
def announced (i j : Fin 2) (blocks : ℕ) : List (ShardAct 2) :=
  [.txSending 1, .deliver 0, .deliver 0] ++
    (List.replicate blocks [.proposeBlock i 0, .commit i]).flatten ++
    [.clpaMapSend (swap 0 1), .deliver blocks, .deliver blocks, .sendPartitionReady i,
      .sendPartitionReady j]

/-- The relay message arrives, then the announcement. -/
theorem relay_arrived_before_announcement :
    ∃ t, ReachesUnder step RelaysFirst (init twoShards [transfer 5]) t ∧
      (t.world.leaders 1).phase = .waitReady ∧ (t.world.leaders 1).getPartitionReady = true ∧
      ∃ x, (t.sent 0)[0]? = some x ∧ x.2.txs = [{ transfer 5 with relayed := true }] ∧
        x ∈ t.got 1 := by
  have hrun : ∃ t ∈ runChecked step (fun t a => decide (t.RelaysFirst a))
      (init twoShards [transfer 5]) (announced 0 1 1 ++ [.deliver 0, .deliver 0]),
      (t.world.leaders 1).stage = 1 ∧ (t.world.leaders 1).getPartitionReady = true ∧
      ∃ x ∈ (t.sent 0)[0]?, ∃ y ∈ (t.sent 0)[1]?,
        x.2.txs = [{ transfer 5 with relayed := true }] ∧
        (onLink relaySeq 0 1 x).isSome = true ∧ (onLink readySeq 0 1 y).isSome = true := by
    decide +kernel
  obtain ⟨t, ht, hstage, hready, x, hx, y, hy, htxs, hrelay, hannounce⟩ := hrun
  have hreach := reachesUnder_of_runDecided ht
  have hphase := Leader.stage_eq_one_iff.1 hstage
  have hid : ∀ i, (twoShards i).chainConfig.shardID = i := fun _ => rfl
  have hnums : ∀ i, (twoShards i).chainConfig.shardNums = 2 := fun _ => rfl
  have harrived := relays_arrived_when_ready hid hnums hreach (j := 0) (by decide) hphase hready
    Nat.zero_lt_one hx hy hrelay hannounce
  exact ⟨t, hreach, hphase, hready, x, hx, htxs, harrived⟩

/-- The announcement of a shard that nothing has come from overtakes its relay message, which carries
    a transfer; or the second relay message overtakes the first. Either way the leader is ready without
    the first. -/
theorem ready_without_relays :
    (∃ t, Reaches step (init twoShards [transfer 5]) t ∧
      (t.world.leaders 1).phase = .waitReady ∧ (t.world.leaders 1).getPartitionReady = true ∧
      ∃ x y, (t.sent 0)[0]? = some x ∧ (t.sent 0)[1]? = some y ∧
        x.2.txs = [{ transfer 5 with relayed := true }] ∧
        (onLink relaySeq 0 1 x).isSome = true ∧ (onLink readySeq 0 1 y).isSome = true ∧
        x ∉ t.got 1) ∧
    ∃ t, Reaches step (init twoShards [transfer 5]) t ∧
      (t.world.leaders 1).phase = .waitReady ∧ (t.world.leaders 1).getPartitionReady = true ∧
      ∃ x y, (t.sent 0)[0]? = some x ∧ (t.sent 0)[2]? = some y ∧
        x.2.txs = [{ transfer 5 with relayed := true }] ∧
        (onLink relaySeq 0 1 x).isSome = true ∧ (onLink readySeq 0 1 y).isSome = true ∧
        x ∉ t.got 1 := by
  have hunheard : ∃ t ∈ runActions step (init twoShards [transfer 5])
      (announced 0 1 1 ++ [.deliver 1]),
      (t.world.leaders 1).stage = 1 ∧ (t.world.leaders 1).getPartitionReady = true ∧
      ∃ x ∈ (t.sent 0)[0]?, ∃ y ∈ (t.sent 0)[1]?,
        x.2.txs = [{ transfer 5 with relayed := true }] ∧
        onLink relaySeq 0 1 x = some 1 ∧ (onLink readySeq 0 1 y).isSome = true ∧
        1 ∉ (t.got 1).filterMap (onLink relaySeq 0 1) := by decide +kernel
  have hovertaken : ∃ t ∈ runActions step (init twoShards [transfer 5])
      (announced 0 1 2 ++ [.deliver 1, .deliver 1]),
      (t.world.leaders 1).stage = 1 ∧ (t.world.leaders 1).getPartitionReady = true ∧
      ∃ x ∈ (t.sent 0)[0]?, ∃ y ∈ (t.sent 0)[2]?,
        x.2.txs = [{ transfer 5 with relayed := true }] ∧
        onLink relaySeq 0 1 x = some 1 ∧ (onLink readySeq 0 1 y).isSome = true ∧
        1 ∉ (t.got 1).filterMap (onLink relaySeq 0 1) := by decide +kernel
  obtain ⟨t, ht, hstage, hready, x, hx, y, hy, htxs, hrelay, hannounce, hmissing⟩ := hunheard
  obtain ⟨t', ht', hstage', hready', x', hx', y', hy', htxs', hrelay', hannounce', hmissing'⟩ :=
    hovertaken
  refine ⟨⟨t, reaches_of_runActions ht, Leader.stage_eq_one_iff.1 hstage, hready, x, y, hx, hy, htxs,
      by simp [hrelay], hannounce, ?_⟩,
    t', reaches_of_runActions ht', Leader.stage_eq_one_iff.1 hstage', hready', x', y', hx', hy', htxs',
    by simp [hrelay'], hannounce', ?_⟩
  · exact fun hgot => hmissing (List.mem_filterMap.2 ⟨x, hgot, hrelay⟩)
  · exact fun hgot => hmissing' (List.mem_filterMap.2 ⟨x', hgot, hrelay'⟩)

end Sample

end ReadyTrace

end BlockEmulator
