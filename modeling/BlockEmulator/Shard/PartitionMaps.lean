import BlockEmulator.Shard.Migration

set_option autoImplicit false

/-! # Partition maps

A leader of the CLPA module keeps the partition maps it receives in a list and counts the ones it has
carried out. The receiver appends to the list whenever a map arrives, the proposer takes the map that
is due and numbers it with the length of the list, and the commit sets the count to that number and
appends the map if the length has changed. As long as a map arrives only when all earlier ones have
been carried out, list and count are what they are meant to be. Otherwise a map is listed twice, or
skipped, or left without anybody being told to carry it out. -/

namespace BlockEmulator

variable {H : Type} [DecidableEq H] [Hashing H] {S : ℕ}

namespace ShardWorld

/-- The partition map that an action delivers to leader `i`, if any. -/
def mapDelivered (w : ShardWorld H S) (i : Fin S) : ShardAct S → List ShardMap
  | .deliver k =>
    match w.net[k]? with
    | some (d, .partitionModifiedMap m) => if d = i then [m] else []
    | _ => []
  | _ => []

/-- The partition map that an action makes leader `i` carry out, if any. -/
def mapApplied (w : ShardWorld H S) (i : Fin S) : ShardAct S → List ShardMap
  | .commit j =>
    match (w.leaders i).phase with
    | .proposed (.partition atm) =>
      if j = i ∧ (w.leaders i).curChain.accountTransferDo atm ≠ none then [atm.modifiedMap] else []
    | _ => []
  | _ => []

theorem mapApplied_of_ne {w : ShardWorld H S} {i j : Fin S} (hij : j ≠ i) :
    w.mapApplied i (.commit j) = [] := by
  simp only [mapApplied]
  split
  · rw [if_neg fun h => hij h.1]
  · rfl

end ShardWorld

/-- The shards with a record, for each leader, of the maps it has received and carried out. -/
structure MapTrace (H : Type) [DecidableEq H] [Hashing H] (S : ℕ) where
  world : ShardWorld H S
  received : Fin S → List ShardMap
  applied : Fin S → List ShardMap

namespace MapTrace

def init (bc : Fin S → BlockChain H) (dataset : List Transaction) : MapTrace H S where
  world := .init bc dataset
  received := fun _ => []
  applied := fun _ => []

def step (t : MapTrace H S) (a : ShardAct S) : Option (MapTrace H S) :=
  (t.world.step .clpa a).map fun w =>
    { world := w
      received := fun i => t.received i ++ t.world.mapDelivered i a
      applied := fun i => t.applied i ++ t.world.mapApplied i a }

/-- A map reaches a leader only when the leader has carried out all earlier ones. -/
def InTurn (t : MapTrace H S) (a : ShardAct S) : Prop :=
  ∀ i, t.world.mapDelivered i a ≠ [] →
    (t.world.leaders i).cdm.accountTransferRound = (t.world.leaders i).cdm.modifiedMap.length

instance (t : MapTrace H S) (a : ShardAct S) : Decidable (t.InTurn a) :=
  inferInstanceAs (Decidable (∀ _, _ → _ = _))

end MapTrace

/-! ## One leader -/

/-- The part of the data that is about partition maps. -/
def DataSupportCLPA.maps (cdm : DataSupportCLPA) : List ShardMap × ℕ × Bool :=
  (cdm.modifiedMap, cdm.accountTransferRound, cdm.partitionOn)

namespace Leader

/-- The leader's list and count against the maps it has received and carried out. -/
structure MapsInOrder (received applied : List ShardMap) (n : Leader H) : Prop where
  modifiedMap : n.cdm.modifiedMap = received
  round : n.cdm.accountTransferRound = applied.length
  inOrder : applied = received.take applied.length
  atMostOne : received.length ≤ applied.length + 1
  partitionOn : applied.length < received.length → n.cdm.partitionOn = true
  proposed : ∀ atm, n.phase = .proposed (.partition atm) →
    atm.atid = received.length ∧ received[applied.length]? = some atm.modifiedMap

section Order

variable {n n' : Leader H} {received applied : List ShardMap}

/-- What keeps the lists and proposes no partition. -/
theorem MapsInOrder.congr (hn : MapsInOrder received applied n)
    (hmaps : n'.cdm.maps = n.cdm.maps)
    (hphase : ∀ atm, n'.phase = .proposed (.partition atm) → n.phase = n'.phase) :
    MapsInOrder received applied n' := by
  obtain ⟨hmodified, hround, hon⟩ := Prod.mk.inj hmaps |>.imp_right Prod.mk.inj
  exact ⟨hmodified.trans hn.modifiedMap, hround.trans hn.round, hn.inOrder, hn.atMostOne,
    fun h => hon.trans (hn.partitionOn h), fun atm h => hn.proposed atm ((hphase atm h).trans h)⟩

theorem MapsInOrder.crash (hn : MapsInOrder received applied n) :
    MapsInOrder received applied n.crash :=
  hn.congr rfl fun _ _ => rfl

/-- A map arrives when no other is outstanding. -/
theorem MapsInOrder.handlePartitionMsg (hn : MapsInOrder received applied n) (m : ShardMap)
    (hturn : n.cdm.accountTransferRound = n.cdm.modifiedMap.length) :
    MapsInOrder (received ++ [m]) applied (n.handlePartitionMsg m) := by
  rw [hn.round, hn.modifiedMap] at hturn
  refine ⟨congrArg (· ++ [m]) hn.modifiedMap, hn.round, ?_, ?_, fun _ => rfl, fun atm h => ?_⟩
  · rw [List.take_append_of_le_length hturn.le]
    exact hn.inOrder
  · rw [List.length_append, hturn]
    rfl
  · -- a proposal would be for a map that is outstanding
    have hget := (hn.proposed atm h).2
    rw [hturn, List.getElem?_eq_none (Nat.le_refl _)] at hget
    exact absurd hget (by simp)

theorem MapsInOrder.sendAccountsAndTxs (hn : MapsInOrder received applied n) {order : List Address}
    {msgs : List (ℕ × ShardMsg)} (h : n.sendAccountsAndTxs order = some (n', msgs)) :
    MapsInOrder received applied n' := by
  rcases sendAccountsAndTxs_cases h with ⟨-, rfl, -⟩ | ⟨-, -, -, -, -, -, -, rfl, -⟩
  · exact hn.crash
  · exact hn.congr rfl nofun

/-- A proposal is for the map that is due, and has the number the count will get. -/
theorem MapsInOrder.proposePartition (hn : MapsInOrder received applied n) {shards : List ℕ}
    {addrs : List Address} (h : n.proposePartition shards addrs = some n') :
    MapsInOrder received applied n' := by
  obtain ⟨r, -, -, -, -, ⟨rfl, -⟩ | ⟨m, hm, rfl⟩⟩ := proposePartition_cases h
  · exact hn.crash
  · refine ⟨hn.modifiedMap, hn.round, hn.inOrder, hn.atMostOne, hn.partitionOn, ?_⟩
    intro atm hatm
    obtain ⟨⟨⟩⟩ := ProposePhase.proposed.inj hatm
    rw [hn.modifiedMap, hn.round] at hm
    exact ⟨congrArg List.length hn.modifiedMap, hm⟩

/-- The commit carries out the map that was due. -/
theorem MapsInOrder.commitPartition (hn : MapsInOrder received applied n) {atm : AccountTransferMsg}
    (hphase : n.phase = .proposed (.partition atm)) :
    MapsInOrder received
      (applied ++ if n.curChain.accountTransferDo atm ≠ none then [atm.modifiedMap] else [])
      (n.commitPartition atm) := by
  rw [Leader.commitPartition]
  cases hdo : n.curChain.accountTransferDo atm with
  | none =>
    simp only [ne_eq, not_true_eq_false, if_false, List.append_nil]
    exact hn.crash
  | some bc =>
    simp only [ne_eq, reduceCtorEq, not_false_eq_true, if_true]
    obtain ⟨hatid, hget⟩ := hn.proposed atm hphase
    have hlt : applied.length < received.length := (List.getElem?_eq_some_iff.1 hget).1
    have hlen : received.length = applied.length + 1 := Nat.le_antisymm hn.atMostOne hlt
    have hkeep : (afterTransfer n.cdm atm).modifiedMap = received := by
      rw [afterTransfer, hn.modifiedMap, hatid]
      simp
    refine ⟨hkeep, ?_, ?_, ?_, ?_, fun atm h => absurd h (by simp [nextRound])⟩
    · rw [List.length_append, List.length_singleton, ← hlen, ← hatid]
      rfl
    · rw [List.length_append, List.length_singleton, List.take_add_one, hget, ← hn.inOrder]
      rfl
    · rw [List.length_append, List.length_singleton, hlen]
      exact Nat.le_succ _
    · intro h
      rw [List.length_append, List.length_singleton, hlen] at h
      exact absurd h (Nat.lt_irrefl _)

end Order

end Leader

/-! ## All leaders, along a run -/

namespace MapTrace

/-- Every leader's maps are in order. -/
def AllInOrder (t : MapTrace H S) : Prop :=
  ∀ i, (t.world.leaders i).MapsInOrder (t.received i) (t.applied i)

theorem allInOrder_init (bc : Fin S → BlockChain H) (dataset : List Transaction) :
    (init bc dataset).AllInOrder :=
  fun _ => ⟨rfl, rfl, rfl, Nat.zero_le _, fun h => absurd h (Nat.lt_irrefl 0),
    fun atm h => absurd h (by simp [init, ShardWorld.init, Leader.new])⟩

section Step

variable {t : MapTrace H S}

/-- Leader `i` has done something that keeps its maps in order. -/
theorem AllInOrder.update (ht : t.AllInOrder) {i : Fin S} {n : Leader H}
    (hn : n.MapsInOrder (t.received i) (t.applied i)) (j : Fin S) :
    (Function.update t.world.leaders i n j).MapsInOrder (t.received j) (t.applied j) :=
  (Function.forall_update_iff t.world.leaders
    fun j n => n.MapsInOrder (t.received j) (t.applied j)).2 ⟨hn, fun j _ => ht j⟩ j

/-- A message reaches leader `i`; a map does so in turn. -/
theorem AllInOrder.deliver (ht : t.AllInOrder) {k : ℕ} {i : Fin S} {m : ShardMsg}
    (hk : t.world.net[k]? = some (i.val, m)) (hturn : t.InTurn (.deliver k)) (j : Fin S) :
    ((t.world.receive .clpa k i m).leaders j).MapsInOrder
      (t.received j ++ t.world.mapDelivered j (.deliver k)) (t.applied j) := by
  have hother : ∀ n : Leader H, n.MapsInOrder (t.received i) (t.applied i) →
      (∀ p, m ≠ .partitionModifiedMap p) →
      (Function.update t.world.leaders i n j).MapsInOrder
        (t.received j ++ t.world.mapDelivered j (.deliver k)) (t.applied j) := by
    intro n hn hm
    have hnone : t.world.mapDelivered j (.deliver k) = [] := by
      simp only [ShardWorld.mapDelivered, hk]
      split
      · next heq => exact absurd (congrArg Prod.snd (Option.some.inj heq)) (hm _)
      · rfl
    rw [hnone, List.append_nil]
    exact ht.update hn j
  cases m with
  | partitionModifiedMap p =>
    have hmap : ∀ l, t.world.mapDelivered l (.deliver k) = if i.val = l then [p] else [] := by
      intro l
      simp only [ShardWorld.mapDelivered, hk]
    rw [hmap]
    show Leader.MapsInOrder _ _ (Function.update t.world.leaders i _ j)
    by_cases hj : j = i
    · subst hj
      rw [if_pos rfl, Function.update_self]
      refine (ht j).handlePartitionMsg p (hturn j ?_)
      rw [hmap, if_pos rfl]
      simp
    · rw [if_neg fun h => hj (Fin.ext h.symm), List.append_nil, Function.update_of_ne hj]
      exact ht j
  | injectTxs txs => exact hother _ ((ht i).congr rfl fun _ _ => rfl) nofun
  | relay txs sid seq => exact hother _ ((ht i).congr rfl fun _ _ => rfl) nofun
  | partitionReady sid seq => exact hother _ ((ht i).congr rfl fun _ _ => rfl) nofun
  | accountStateAndTx at' => exact hother _ ((ht i).congr rfl fun _ _ => rfl) nofun

/-- A proposed partition is committed. -/
theorem AllInOrder.commitPartition (ht : t.AllInOrder) {i : Fin S} {atm : AccountTransferMsg}
    (hphase : (t.world.leaders i).phase = .proposed (.partition atm)) (j : Fin S) :
    (Function.update t.world.leaders i ((t.world.leaders i).commitPartition atm) j).MapsInOrder
      (t.received j) (t.applied j ++ t.world.mapApplied j (.commit i)) := by
  by_cases hj : j = i
  · subst hj
    have hmap : t.world.mapApplied j (.commit j) =
        if (t.world.leaders j).curChain.accountTransferDo atm ≠ none then [atm.modifiedMap]
        else [] := by
      simp only [ShardWorld.mapApplied, hphase, true_and]
    rw [hmap, Function.update_self]
    exact (ht j).commitPartition hphase
  · rw [ShardWorld.mapApplied_of_ne (Ne.symm hj), List.append_nil, Function.update_of_ne hj]
    exact ht j

/-- A proposed block is committed. -/
theorem AllInOrder.commitBlock (ht : t.AllInOrder) {i : Fin S} {b : Block H}
    (hphase : (t.world.leaders i).phase = .proposed (.block b)) (j : Fin S) :
    ((t.world.commitBlock i b).leaders j).MapsInOrder
      (t.received j) (t.applied j ++ t.world.mapApplied j (.commit i)) := by
  have hnone : t.world.mapApplied j (.commit i) = [] := by
    by_cases hj : j = i
    · subst hj
      simp only [ShardWorld.mapApplied, hphase]
    · exact ShardWorld.mapApplied_of_ne (Ne.symm hj)
  rw [hnone, List.append_nil]
  refine ht.update ?_ j
  rw [Leader.commitBlock]
  split
  · exact (ht i).crash
  split
  · exact (ht i).congr rfl fun _ _ => rfl
  · exact (ht i).congr rfl fun atm h => absurd h (by simp [Leader.nextRound])

theorem AllInOrder.step (ht : t.AllInOrder) {a : ShardAct S} {t' : MapTrace H S}
    (hturn : t.InTurn a) (h : t.step a = some t') : t'.AllInOrder := by
  obtain ⟨w, hw, rfl⟩ := Option.map_eq_some_iff.1 h
  intro j
  have hsilent : ∀ {n : Leader H}, n.MapsInOrder (t.received j) (t.applied j) →
      n.MapsInOrder (t.received j ++ []) (t.applied j ++ []) := by
    intro n hn
    rwa [List.append_nil, List.append_nil]
  cases ShardWorld.steps_of_step hw with
  | txSending => exact hsilent (ht j)
  | clpaMapSend => exact hsilent (ht j)
  | deliver hk =>
    show Leader.MapsInOrder _ (t.applied j ++ []) _
    rw [List.append_nil]
    exact ht.deliver hk hturn j
  | proposePanics => exact hsilent (ht.update (ht _).crash j)
  | @proposeBlock i =>
    refine hsilent (ht.update ?_ j)
    exact (ht i).congr rfl fun _ h => absurd h (by simp)
  | @sendPartitionReady i =>
    refine hsilent (ht.update ?_ j)
    exact (ht i).congr rfl fun _ h => absurd h (by simp [Leader.sendPartitionReady])
  | sendAccountsAndTxs _ hsend => exact hsilent (ht.update ((ht _).sendAccountsAndTxs hsend) j)
  | proposePartition _ _ hprop => exact hsilent (ht.update ((ht _).proposePartition hprop) j)
  | commitBlock _ hphase =>
    show Leader.MapsInOrder (t.received j ++ []) _ _
    rw [List.append_nil]
    exact ht.commitBlock hphase j
  | commitPartition hphase =>
    show Leader.MapsInOrder (t.received j ++ []) _ _
    rw [List.append_nil]
    exact ht.commitPartition hphase j

end Step

/-- **If no map arrives while another is outstanding, the maps are in order** at every leader and in
    every state: the list is what was received, the count is how many were carried out, they were
    carried out in the order of their arrival, and one that is outstanding is announced. -/
theorem maps_in_order {bc : Fin S → BlockChain H} {dataset : List Transaction} {t : MapTrace H S}
    (hrun : ReachesUnder MapTrace.step InTurn (init bc dataset) t) (i : Fin S) :
    (t.world.leaders i).cdm.modifiedMap = t.received i ∧
      (t.world.leaders i).cdm.accountTransferRound = (t.applied i).length ∧
      t.applied i = (t.received i).take (t.applied i).length ∧
      ((t.world.leaders i).cdm.accountTransferRound < (t.received i).length →
        (t.world.leaders i).cdm.partitionOn = true) := by
  have hall : t.AllInOrder := hrun.invariant (I := AllInOrder) (allInOrder_init bc dataset)
    fun _ _ _ ht hturn h => ht.step hturn h
  have hn := hall i
  exact ⟨hn.modifiedMap, hn.round, hn.inOrder, fun h => hn.partitionOn (hn.round ▸ h)⟩

section Sample

open BlockChain ShardWorld

/-- The map reaches both leaders. -/
def mapSent (m : ShardMap) : List (ShardAct 2) := [.clpaMapSend m, .deliver 0, .deliver 0]

theorem swap_in_order : ∃ t, ReachesUnder MapTrace.step InTurn (init twoShards []) t ∧
    (t.world.leaders 0).cdm.modifiedMap = t.received 0 ∧
    (t.world.leaders 0).cdm.accountTransferRound = 1 ∧ t.applied 0 = [swap 0 1] := by
  have hcheck : ∃ t ∈ runChecked MapTrace.step (fun t a => decide (t.InTurn a)) (init twoShards [])
      (mapSent (swap 0 1) ++ migrating 0 1 [alice] [bob]), t.applied 0 = [swap 0 1] := by
    decide +kernel
  obtain ⟨t, ht, happlied⟩ := hcheck
  have hrun := reachesUnder_of_runDecided ht
  obtain ⟨hmaps, hround, -⟩ := maps_in_order hrun 0
  exact ⟨t, hrun, hmaps, by rw [hround, happlied]; rfl, happlied⟩

/-- A second map arrives while the first is proposed: the commit lists the first one twice and clears
    the announcement of the second. -/
theorem late_map_lost : ∃ t, Reaches MapTrace.step (init twoShards []) t ∧
    t.received 0 = [swap 0 1, swap 1 0] ∧
    (t.world.leaders 0).cdm.modifiedMap = [swap 0 1, swap 1 0, swap 0 1] ∧
    (t.world.leaders 0).cdm.accountTransferRound = 1 ∧
    (t.world.leaders 0).cdm.partitionOn = false := by
  have hcheck : ∃ t ∈ runActions MapTrace.step (init twoShards [])
      (mapSent (swap 0 1) ++ (migrating 0 1 [alice] [bob]).take 9 ++
        [.clpaMapSend (swap 1 0), .deliver 0, .commit 0]),
      t.received 0 = [swap 0 1, swap 1 0] ∧
      (t.world.leaders 0).cdm.modifiedMap = [swap 0 1, swap 1 0, swap 0 1] ∧
      (t.world.leaders 0).cdm.accountTransferRound = 1 ∧
      (t.world.leaders 0).cdm.partitionOn = false := by
    decide +kernel
  obtain ⟨t, ht, hlost⟩ := hcheck
  exact ⟨t, reaches_of_runActions ht, hlost⟩

end Sample

end MapTrace

end BlockEmulator
