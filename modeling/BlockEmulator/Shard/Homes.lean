import BlockEmulator.Shard.Custody

set_option autoImplicit false

/-! # Homes of accounts along a run

Where an account lives is a matter of how many of the supervisor's maps have been carried out, and the
leaders carry them out one after the other, not at the same moment. If a map is sent when the one before
it has arrived everywhere, and arrives when the one before it has been carried out, all leaders carry out
the same maps in the same order (`Agreed`). Two leaders are then at most one map apart, and the one that
is behind has sent its accounts away (`Agreed.round_le`): so of all leaders that execute blocks only one
takes an account for its own (`Agreed.home_unique`). -/

namespace BlockEmulator

variable {H : Type} [DecidableEq H] [Hashing H] {S : ℕ}

/-! ## Homes after some maps -/

/-- The partition map after the first `k` maps. -/
def mapAfter (maps : List ShardMap) (k : ℕ) : ShardMap := (maps.take k).foldl (fun M D => D ∪ M) ∅

/-- The home of an account after the first `k` maps. -/
def homeAfter (S : ℕ) (maps : List ShardMap) (k : ℕ) (a : Address) : ℕ :=
  homeUnder S (mapAfter maps k) a

section Homes

variable {maps : List ShardMap} {k : ℕ} {D : ShardMap}

theorem mapAfter_succ (h : maps[k]? = some D) : mapAfter maps (k + 1) = D ∪ mapAfter maps k := by
  rw [mapAfter, List.take_add_one, h, Option.toList_some, List.foldl_append, List.foldl_cons,
    List.foldl_nil, mapAfter]

theorem mapAfter_append (more : List ShardMap) (hk : k ≤ maps.length) :
    mapAfter (maps ++ more) k = mapAfter maps k := by
  rw [mapAfter, List.take_append_of_le_length hk, mapAfter]

theorem homeAfter_append (more : List ShardMap) (hk : k ≤ maps.length) (a : Address) :
    homeAfter S (maps ++ more) k a = homeAfter S maps k a := by
  rw [homeAfter, mapAfter_append more hk, homeAfter]

theorem moves_iff_homeAfter (h : maps[k]? = some D) {j i : ℕ} {a : Address} :
    Moves S (mapAfter maps k) D j i a ↔
      homeAfter S maps k a = j ∧ homeAfter S maps (k + 1) a = i ∧ i ≠ j := by
  rw [homeAfter, homeAfter, mapAfter_succ h]
  constructor
  · intro hm
    exact ⟨hm.2.1, (moves_iff hm.2.1 hm.2.2).1 hm, hm.2.2⟩
  · rintro ⟨hold, hnew, hne⟩
    exact (moves_iff hold hne).2 hnew

theorem within_mapAfter (h : ∀ D ∈ maps, ShardMap.Within S D) (k : ℕ) :
    ShardMap.Within S (mapAfter maps k) := by
  have hfold : ∀ (l : List ShardMap) (M : ShardMap), (∀ D ∈ l, ShardMap.Within S D) →
      ShardMap.Within S M → ShardMap.Within S (l.foldl (fun M D => D ∪ M) M) := by
    intro l
    induction l with
    | nil => exact fun M _ hM => hM
    | cons D l ih =>
      intro M hl hM
      obtain ⟨hD, hl⟩ := List.forall_mem_cons.1 hl
      exact ih _ hl (hD.union hM)
  exact hfold _ _ (fun D hD => h D (List.mem_of_mem_take hD)) ShardMap.within_empty

theorem homeAfter_lt (h : ∀ D ∈ maps, ShardMap.Within S D) (hS : 0 < S) (k : ℕ) (a : Address) :
    homeAfter S maps k a < S :=
  (within_mapAfter h k).home_lt hS a

end Homes

/-! ## One leader -/

namespace Leader

/-- The leader has received some of the maps and carried out all of them but at most the last, which is
    then outstanding; its homes are those after what it has carried out. -/
structure Follows (maps : List ShardMap) (n : Leader H) : Prop where
  modifiedMap : n.cdm.modifiedMap = maps.take n.cdm.modifiedMap.length
  le : n.cdm.accountTransferRound ≤ n.cdm.modifiedMap.length
  atMostOne : n.cdm.modifiedMap.length ≤ n.cdm.accountTransferRound + 1
  outstanding : n.cdm.partitionOn = true ∨ 1 ≤ n.stage →
    n.cdm.modifiedMap.length = n.cdm.accountTransferRound + 1
  partitionMap : n.curChain.partitionMap = mapAfter maps n.cdm.accountTransferRound
  proposed : ∀ atm, n.phase = .proposed (.partition atm) → atm.atid = n.cdm.modifiedMap.length ∧
    maps[n.cdm.accountTransferRound]? = some atm.modifiedMap

section Follows

variable {maps : List ShardMap} {n n' : Leader H}

theorem Follows.length_le (hn : n.Follows maps) : n.cdm.modifiedMap.length ≤ maps.length := by
  have hlength := congrArg List.length hn.modifiedMap
  rw [List.length_take] at hlength
  omega

/-- What keeps the maps, and announces only an outstanding one. -/
theorem Follows.of_frame (hn : n.Follows maps) (hmaps : n'.cdm.maps = n.cdm.maps)
    (hhomes : n'.curChain.partitionMap = n.curChain.partitionMap)
    (hstage : 1 ≤ n'.stage → n.cdm.partitionOn = true ∨ 1 ≤ n.stage)
    (hphase : ∀ atm, n'.phase = .proposed (.partition atm) → n.phase = n'.phase) :
    n'.Follows maps := by
  obtain ⟨hmodified, hround, hon⟩ : n'.cdm.modifiedMap = n.cdm.modifiedMap ∧
      n'.cdm.accountTransferRound = n.cdm.accountTransferRound ∧
      n'.cdm.partitionOn = n.cdm.partitionOn := by simpa [DataSupportCLPA.maps] using hmaps
  constructor
  · rw [hmodified]
    exact hn.modifiedMap
  · rw [hmodified, hround]
    exact hn.le
  · rw [hmodified, hround]
    exact hn.atMostOne
  · rw [hmodified, hround, hon]
    exact fun h => hn.outstanding (h.elim .inl hstage)
  · rw [hround, hhomes]
    exact hn.partitionMap
  · rw [hmodified, hround]
    exact fun atm hatm => hn.proposed atm ((hphase atm hatm).trans hatm)

theorem Follows.crash (hn : n.Follows maps) : n.crash.Follows maps :=
  hn.of_frame rfl rfl .inr fun _ _ => rfl

/-- The supervisor sends more maps. -/
theorem Follows.append (hn : n.Follows maps) (more : List ShardMap) : n.Follows (maps ++ more) where
  modifiedMap := by
    rw [List.take_append_of_le_length hn.length_le]
    exact hn.modifiedMap
  le := hn.le
  atMostOne := hn.atMostOne
  outstanding := hn.outstanding
  partitionMap := by
    rw [mapAfter_append more (hn.le.trans hn.length_le)]
    exact hn.partitionMap
  proposed := fun atm hatm => by
    obtain ⟨hatid, hmap⟩ := hn.proposed atm hatm
    rw [List.getElem?_append_left (List.getElem?_eq_some_iff.1 hmap).1]
    exact ⟨hatid, hmap⟩

/-- The next map arrives, in turn. -/
theorem Follows.handlePartitionMsg (hn : n.Follows maps) {D : ShardMap}
    (hD : maps[n.cdm.modifiedMap.length]? = some D)
    (hturn : n.cdm.accountTransferRound = n.cdm.modifiedMap.length) :
    (n.handlePartitionMsg D).Follows maps := by
  have hlength : (n.handlePartitionMsg D).cdm.modifiedMap.length = n.cdm.modifiedMap.length + 1 :=
    List.length_append
  constructor
  · rw [hlength, List.take_add_one, hD, ← hn.modifiedMap]
    rfl
  · rw [hlength]
    exact hturn.le.trans (Nat.le_succ _)
  · rw [hlength]
    exact Nat.succ_le_succ hturn.ge
  · intro _
    rw [hlength]
    exact congrArg Nat.succ hturn.symm
  · exact hn.partitionMap
  · -- a proposal would be for a map that is outstanding
    intro atm hatm
    have hstage : n.stage = 3 := stage_eq_three_of_partition (n := n) hatm
    have hout := hn.outstanding (.inr (by omega))
    omega

/-- The map that is outstanding. -/
theorem Follows.exists_map (hn : n.Follows maps)
    (hout : n.cdm.modifiedMap.length = n.cdm.accountTransferRound + 1) :
    ∃ D, maps[n.cdm.accountTransferRound]? = some D ∧ n.cdm.modifiedMap.getLast? = some D ∧
      n.cdm.modifiedMap[n.cdm.accountTransferRound]? = some D := by
  have hlt : n.cdm.accountTransferRound < n.cdm.modifiedMap.length := by omega
  obtain ⟨D, hD⟩ : ∃ D, n.cdm.modifiedMap[n.cdm.accountTransferRound]? = some D :=
    ⟨_, List.getElem?_eq_getElem hlt⟩
  refine ⟨D, ?_, ?_, hD⟩
  · rw [← List.getElem?_take_of_lt hlt, ← hn.modifiedMap]
    exact hD
  · rw [List.getLast?_eq_getElem?, hout, Nat.add_sub_cancel]
    exact hD

theorem Follows.sendAccountsAndTxs (hn : n.Follows maps) (hphase : n.phase = .waitReady)
    {order : List Address} {msgs : List (ℕ × ShardMsg)}
    (h : n.sendAccountsAndTxs order = some (n', msgs)) : n'.Follows maps := by
  rcases sendAccountsAndTxs_cases h with ⟨-, rfl, -⟩ | ⟨-, -, -, -, -, -, -, rfl, -⟩
  · exact hn.crash
  · exact hn.of_frame rfl rfl (fun _ => .inr (by simp [stage, hphase])) nofun

theorem Follows.proposePartition (hn : n.Follows maps) (hphase : n.phase = .waitCollect)
    {shards : List ℕ} {addrs : List Address} (h : n.proposePartition shards addrs = some n') :
    n'.Follows maps := by
  have hout := hn.outstanding (.inr (by simp [stage, hphase]))
  obtain ⟨r, -, -, -, -, ⟨rfl, -⟩ | ⟨m, hm, rfl⟩⟩ := proposePartition_cases h
  · exact hn.crash
  · refine ⟨hn.modifiedMap, hn.le, hn.atMostOne, fun _ => hout, hn.partitionMap, ?_⟩
    rintro atm ⟨⟩
    obtain ⟨D, hD, -, hround⟩ := hn.exists_map hout
    obtain rfl : D = m := Option.some.inj (hround.symm.trans hm)
    exact ⟨rfl, hD⟩

/-- **The commit carries out the map**, and no other. -/
theorem Follows.commitPartition (hn : n.Follows maps) {atm : AccountTransferMsg}
    (hphase : n.phase = .proposed (.partition atm)) : (n.commitPartition atm).Follows maps := by
  have hout := hn.outstanding (.inr (by rw [stage_eq_three_of_partition hphase]; omega))
  obtain ⟨hatid, hmap⟩ := hn.proposed atm hphase
  rw [Leader.commitPartition]
  split
  · exact hn.crash
  next bc hdo =>
  obtain ⟨db, root, rfl, -, -⟩ := BlockChain.addAccounts_cases hdo
  have hmaps : (afterTransfer n.cdm atm).modifiedMap = n.cdm.modifiedMap := by
    simp [afterTransfer, hatid]
  have hround : (afterTransfer n.cdm atm).accountTransferRound = n.cdm.accountTransferRound + 1 :=
    hatid.trans hout
  refine ⟨?_, ?_, ?_, ?_, ?_, fun _ h => absurd h (by simp [nextRound])⟩
  · show (afterTransfer n.cdm atm).modifiedMap = _
    rw [hmaps]
    exact hn.modifiedMap.trans (by rw [← hmaps]; rfl)
  · show (afterTransfer n.cdm atm).accountTransferRound ≤ (afterTransfer n.cdm atm).modifiedMap.length
    rw [hmaps, hround, hout]
  · show (afterTransfer n.cdm atm).modifiedMap.length ≤
      (afterTransfer n.cdm atm).accountTransferRound + 1
    rw [hmaps, hround, hout]
    exact Nat.le_succ _
  · rintro (hon | hstage)
    · exact absurd hon (by simp [nextRound, afterTransfer])
    · exact absurd hstage (by simp [nextRound, stage])
  · show atm.modifiedMap ∪ n.curChain.partitionMap =
      mapAfter maps (afterTransfer n.cdm atm).accountTransferRound
    rw [hround, mapAfter_succ hmap, hn.partitionMap]

/-- Where the leader says that an account lives. -/
theorem Follows.getPartitionMap (hn : n.Follows maps) (hnums : n.shardNums = S) (a : Address) :
    n.curChain.getPartitionMap a = homeAfter S maps n.cdm.accountTransferRound a := by
  rw [BlockChain.getPartitionMap, hn.partitionMap, homeAfter, homeUnder, ← hnums]
  rfl

end Follows

end Leader

/-! ## All leaders -/

/-- The map that the supervisor sends in an action. -/
def ShardAct.mapsSent : ShardAct S → List ShardMap
  | .clpaMapSend m => [m]
  | _ => []

def ShardMsg.isMap : ShardMsg → Bool
  | .partitionModifiedMap _ => true
  | _ => false

namespace ShardWorld

/-- How many maps are on their way to leader `i`. -/
def mapsTo (net : List (ℕ × ShardMsg)) (i : ℕ) : ℕ := net.countP fun p => p.1 = i && p.2.isMap

/-- A map is sent when the one before it has arrived everywhere, and arrives at a leader when the leader
    has carried out the one before it. -/
def MapsInTurn (w : ShardWorld H S) : ShardAct S → Prop
  | .clpaMapSend m => ShardMap.Within S m ∧ ∀ p ∈ w.net, p.2.isMap = false
  | .deliver k => ∀ p ∈ w.net[k]?, p.2.isMap = true → ∀ hd : p.1 < S,
      (w.leaders ⟨p.1, hd⟩).cdm.accountTransferRound = (w.leaders ⟨p.1, hd⟩).cdm.modifiedMap.length
  | _ => True

instance (w : ShardWorld H S) : (a : ShardAct S) → Decidable (w.MapsInTurn a)
  | .clpaMapSend m =>
    inferInstanceAs (Decidable (ShardMap.Within S m ∧ ∀ p ∈ w.net, p.2.isMap = false))
  | .deliver k => inferInstanceAs (Decidable (∀ p ∈ w.net[k]?, p.2.isMap = true → ∀ hd : p.1 < S,
      (w.leaders ⟨p.1, hd⟩).cdm.accountTransferRound = (w.leaders ⟨p.1, hd⟩).cdm.modifiedMap.length))
  | .txSending _ | .proposeBlock _ _ | .sendPartitionReady _ | .sendAccountsAndTxs _ _
  | .proposePartition _ _ _ | .commit _ => .isTrue trivial

/-- All leaders carry out the same maps: what a leader has not received is the last one, and that is on
    its way to it. -/
structure Agreed (maps : List ShardMap) (w : ShardWorld H S) : Prop where
  leaders : ∀ i, (w.leaders i).Follows maps
  arrive : ∀ i : Fin S, mapsTo w.net i + (w.leaders i).cdm.modifiedMap.length = maps.length
  alone : ∀ i : Fin S, mapsTo w.net i ≤ 1
  last : ∀ p ∈ w.net, ∀ D, p.2 = .partitionModifiedMap D → maps.getLast? = some D
  within : ∀ D ∈ maps, ShardMap.Within S D
  rounds : ∃ sent got, InRounds (fun i => (w.leaders i).cdm.accountTransferRound) w.leaders w.net sent got

theorem mapsTo_append_of_none {net msgs : List (ℕ × ShardMsg)} (h : ∀ p ∈ msgs, p.2.isMap = false)
    (i : ℕ) : mapsTo (net ++ msgs) i = mapsTo net i := by
  have hnone : msgs.countP (fun p => p.1 = i && p.2.isMap) = 0 :=
    List.countP_eq_zero.2 fun p hp => by simp [h p hp]
  rw [mapsTo, List.countP_append, hnone, Nat.add_zero, mapsTo]

/-- A new map is on its way to every leader. -/
theorem mapsTo_clpaMapSend (net : List (ℕ × ShardMsg)) (m : ShardMap) {i : ℕ} (hi : i < S) :
    mapsTo (net ++ (List.range S).map fun sid => (sid, ShardMsg.partitionModifiedMap m)) i =
      mapsTo net i + 1 := by
  have hone : ((List.range S).map fun sid => (sid, ShardMsg.partitionModifiedMap m)).countP
      (fun p => p.1 = i && p.2.isMap) = 1 := by
    rw [List.countP_map]
    have hcount := List.count_eq_one_of_mem List.nodup_range (List.mem_range.2 hi)
    rw [List.count] at hcount
    refine Eq.trans (List.countP_congr ?_) hcount
    intro sid _
    simp [ShardMsg.isMap]
  rw [mapsTo, List.countP_append, hone, mapsTo]

theorem mapsTo_eraseIdx {net : List (ℕ × ShardMsg)} {k : ℕ} {p : ℕ × ShardMsg}
    (hk : net[k]? = some p) (i : ℕ) :
    mapsTo (net.eraseIdx k) i + (if p.1 = i && p.2.isMap then 1 else 0) = mapsTo net i := by
  obtain ⟨hlt, rfl⟩ := List.getElem?_eq_some_iff.1 hk
  have hperm := (List.getElem_cons_eraseIdx_perm hlt).countP_eq fun p => p.1 = i && p.2.isMap
  rw [List.countP_cons] at hperm
  exact hperm

theorem mapApplied_eq_nil {w : ShardWorld H S} {a : ShardAct S} (h : ∀ i, a ≠ .commit i) (j : Fin S) :
    w.mapApplied j a = [] := by
  cases a with
  | commit i => exact absurd rfl (h i)
  | _ => rfl

section Step

variable {maps : List ShardMap} {w w' : ShardWorld H S} {a : ShardAct S}

theorem agreed_init {bc : Fin S → BlockChain H} {dataset : List Transaction}
    (hid : ∀ i, (bc i).chainConfig.shardID = i) (hnums : ∀ i, (bc i).chainConfig.shardNums = S)
    (hmap : ∀ i, (bc i).partitionMap = ∅) : Agreed [] (init bc dataset) where
  leaders := fun i => by
    refine ⟨rfl, Nat.le_refl 0, Nat.zero_le 1, ?_, hmap i, fun _ h => absurd h (by simp [init, Leader.new])⟩
    simp [init, Leader.new, Leader.stage]
  arrive := fun _ => rfl
  alone := fun _ => Nat.zero_le 1
  last := by simp [init]
  within := by simp
  rounds := ⟨_, _, InRounds.init hid hnums⟩

/-- The rounds follow, if the leaders count them. -/
theorem Agreed.rounds_step (hw : Agreed maps w) (h : w.step .clpa a = some w')
    (hrounds : ∀ i, (w'.leaders i).cdm.accountTransferRound =
      (w.leaders i).cdm.accountTransferRound + (w.mapApplied i a).length) :
    ∃ sent got, InRounds (fun i => (w'.leaders i).cdm.accountTransferRound) w'.leaders w'.net sent got := by
  obtain ⟨sent, got, hr⟩ := hw.rounds
  rw [funext hrounds]
  exact inRounds_step hr h

/-- Leader `i` has acted, and has neither received nor carried out a map. -/
theorem Agreed.of_act (hw : Agreed maps w) (h : w.step .clpa a = some w')
    (hnone : ∀ j, w.mapApplied j a = []) {i : Fin S} {n : Leader H} {msgs : List (ℕ × ShardMsg)}
    (hleaders : w'.leaders = Function.update w.leaders i n) (hnet : w'.net = w.net ++ msgs)
    (hn : n.Follows maps) (hmaps : n.cdm.maps = (w.leaders i).cdm.maps)
    (hmsgs : ∀ p ∈ msgs, p.2.isMap = false) : Agreed maps w' := by
  obtain ⟨hmodified, hround, -⟩ : n.cdm.modifiedMap = (w.leaders i).cdm.modifiedMap ∧
      n.cdm.accountTransferRound = (w.leaders i).cdm.accountTransferRound ∧
      n.cdm.partitionOn = (w.leaders i).cdm.partitionOn := by simpa [DataSupportCLPA.maps] using hmaps
  have hlength : ∀ j, (w'.leaders j).cdm.modifiedMap = (w.leaders j).cdm.modifiedMap := by
    rw [hleaders, forall_leaders_after (p := fun j m => m.cdm.modifiedMap =
      (w.leaders j).cdm.modifiedMap)]
    exact ⟨hmodified, fun _ _ => rfl⟩
  refine ⟨?_, ?_, ?_, ?_, hw.within, hw.rounds_step h ?_⟩
  · rw [hleaders, forall_leaders_after (p := fun _ m => m.Follows maps)]
    exact ⟨hn, fun j _ => hw.leaders j⟩
  · intro j
    rw [hnet, mapsTo_append_of_none hmsgs, hlength]
    exact hw.arrive j
  · intro j
    rw [hnet, mapsTo_append_of_none hmsgs]
    exact hw.alone j
  · intro p hp D hD
    rw [hnet] at hp
    rcases List.mem_append.1 hp with hold | hnew
    · exact hw.last p hold D hD
    · exact absurd (hmsgs p hnew) (by simp [hD, ShardMsg.isMap])
  · rw [hleaders, forall_leaders_after (p := fun j m => m.cdm.accountTransferRound =
      (w.leaders j).cdm.accountTransferRound + (w.mapApplied j a).length)]
    simp only [hnone, List.length_nil, Nat.add_zero, implies_true, and_true]
    exact hround

/-- **A map arrives in turn**: it is the next one. -/
theorem Agreed.deliver (hw : Agreed maps w) {k : ℕ} {i : Fin S} {m : ShardMsg}
    (hk : w.net[k]? = some (i.val, m)) (hturn : w.MapsInTurn (.deliver k))
    (h : w.step .clpa (.deliver k) = some (w.receive .clpa k i m)) :
    Agreed maps (w.receive .clpa k i m) := by
  have herase : ∀ j, mapsTo (w.net.eraseIdx k) j + (if i.val = j && m.isMap then 1 else 0) =
      mapsTo w.net j := fun j => mapsTo_eraseIdx hk j
  have hround : ∀ j, ((w.receive .clpa k i m).leaders j).cdm.accountTransferRound =
      (w.leaders j).cdm.accountTransferRound + (w.mapApplied j (.deliver k)).length := by
    refine (forall_leaders_after (p := fun j n => n.cdm.accountTransferRound =
      (w.leaders j).cdm.accountTransferRound + 0)).2 ⟨?_, fun _ _ => rfl⟩
    cases m <;> rfl
  have hlast := fun p (hp : p ∈ w.net.eraseIdx k) => hw.last p (List.mem_of_mem_eraseIdx hp)
  by_cases hmap : m.isMap = true
  · obtain ⟨D, rfl⟩ : ∃ D, m = .partitionModifiedMap D := by
      cases m with
      | partitionModifiedMap D => exact ⟨D, rfl⟩
      | _ => exact absurd hmap (by simp [ShardMsg.isMap])
    have hmem := List.mem_of_getElem? hk
    have hself := herase i
    rw [if_pos (by simp [ShardMsg.isMap])] at hself
    have halone := hw.alone i
    have harrive := hw.arrive i
    have hD : maps[(w.leaders i).cdm.modifiedMap.length]? = some D := by
      have hget := hw.last _ hmem D rfl
      rw [List.getLast?_eq_getElem?] at hget
      have hlength : maps.length - 1 = (w.leaders i).cdm.modifiedMap.length := by omega
      rwa [hlength] at hget
    have hself' : ((w.leaders i).handlePartitionMsg D).cdm.modifiedMap.length =
        (w.leaders i).cdm.modifiedMap.length + 1 := List.length_append
    refine ⟨?_, ?_, ?_, hlast, hw.within, hw.rounds_step h hround⟩
    · refine (forall_leaders_after (p := fun _ n => n.Follows maps)).2 ⟨?_, fun j _ => hw.leaders j⟩
      exact (hw.leaders i).handlePartitionMsg hD (hturn _ hk hmap i.isLt)
    · refine (forall_leaders_after (p := fun j n =>
        mapsTo (w.net.eraseIdx k) j + n.cdm.modifiedMap.length = maps.length)).2 ⟨?_, fun j hj => ?_⟩
      · show _ + ((w.leaders i).handlePartitionMsg D).cdm.modifiedMap.length = _
        omega
      · have hother := herase j
        have hne : i.val ≠ j := fun he => hj (Fin.ext he.symm)
        rw [if_neg (by simp [hne])] at hother
        have hold := hw.arrive j
        omega
    · intro j
      show mapsTo (w.net.eraseIdx k) j ≤ 1
      have hle := herase j
      have hold := hw.alone j
      omega
  · have hsame : ∀ j, mapsTo (w.net.eraseIdx k) j = mapsTo w.net j := fun j => by
      have hother := herase j
      rwa [if_neg (by simp [hmap]), Nat.add_zero] at hother
    have hmaps : ((w.leaders i).handleMessageOutsidePBFT .clpa m).cdm.maps = (w.leaders i).cdm.maps := by
      cases m with
      | partitionModifiedMap D => exact absurd rfl hmap
      | _ => rfl
    have hmodified : ((w.leaders i).handleMessageOutsidePBFT .clpa m).cdm.modifiedMap =
        (w.leaders i).cdm.modifiedMap := congrArg Prod.fst hmaps
    refine ⟨?_, ?_, ?_, hlast, hw.within, hw.rounds_step h hround⟩
    · refine (forall_leaders_after (p := fun _ n => n.Follows maps)).2 ⟨?_, fun j _ => hw.leaders j⟩
      obtain ⟨-, -, hstage, -⟩ := (w.leaders i).handleMessage_frame m
      refine (hw.leaders i).of_frame hmaps ?_ (fun h => .inr (hstage ▸ h)) ?_
      · cases m <;> rfl
      · intro atm _
        cases m <;> rfl
    · refine (forall_leaders_after (p := fun j n =>
        mapsTo (w.net.eraseIdx k) j + n.cdm.modifiedMap.length = maps.length)).2 ⟨?_, fun j _ => ?_⟩
      · rw [hsame, hmodified]
        exact hw.arrive i
      · rw [hsame]
        exact hw.arrive j
    · intro j
      show mapsTo (w.net.eraseIdx k) j ≤ 1
      rw [hsame]
      exact hw.alone j

/-- A leader carries out the map that is outstanding. -/
theorem Agreed.commitPartition (hw : Agreed maps w) {i : Fin S} {atm : AccountTransferMsg}
    {bc : BlockChain H} (hphase : (w.leaders i).phase = .proposed (.partition atm))
    (hdo : (w.leaders i).curChain.accountTransferDo atm = some bc)
    (h : w.step .clpa (.commit i) = some (w.after i ((w.leaders i).commitPartition atm) [])) :
    Agreed maps (w.after i ((w.leaders i).commitPartition atm) []) := by
  obtain ⟨hatid, -⟩ := (hw.leaders i).proposed atm hphase
  have hout := (hw.leaders i).outstanding
    (.inr (by rw [Leader.stage_eq_three_of_partition hphase]; omega))
  have hcdm : ((w.leaders i).commitPartition atm).cdm = Leader.afterTransfer (w.leaders i).cdm atm := by
    rw [Leader.commitPartition, hdo]
    rfl
  have hmodified : ((w.leaders i).commitPartition atm).cdm.modifiedMap =
      (w.leaders i).cdm.modifiedMap := by
    rw [hcdm]
    simp [Leader.afterTransfer, hatid]
  have hnet : (w.after i ((w.leaders i).commitPartition atm) []).net = w.net := List.append_nil _
  refine ⟨?_, ?_, ?_, ?_, hw.within, hw.rounds_step h ?_⟩
  · exact (forall_leaders_after (p := fun _ n => n.Follows maps)).2
      ⟨(hw.leaders i).commitPartition hphase, fun j _ => hw.leaders j⟩
  · rw [hnet]
    refine (forall_leaders_after (p := fun j n =>
      mapsTo w.net j + n.cdm.modifiedMap.length = maps.length)).2 ⟨?_, fun j _ => hw.arrive j⟩
    rw [hmodified]
    exact hw.arrive i
  · rw [hnet]
    exact hw.alone
  · rw [hnet]
    exact hw.last
  · refine (forall_leaders_after (p := fun j n => n.cdm.accountTransferRound =
      (w.leaders j).cdm.accountTransferRound + (w.mapApplied j (.commit i)).length)).2 ⟨?_, ?_⟩
    · rw [length_mapApplied hphase (by simp [hdo]), if_pos rfl, hcdm]
      exact hatid.trans hout
    · intro j hj
      rw [length_mapApplied hphase (by simp [hdo]), if_neg hj]
      rfl

/-- **All leaders keep carrying out the same maps**: those the supervisor has sent. -/
theorem Agreed.step (hw : Agreed maps w) (hturn : w.MapsInTurn a) (h : w.step .clpa a = some w') :
    Agreed (maps ++ a.mapsSent) w' := by
  have hsame : Agreed maps w' → Agreed (maps ++ []) w' := fun hw' => (List.append_nil maps).symm ▸ hw'
  have hquiet : (∀ i, a ≠ .commit i) → ∀ j, w.mapApplied j a = [] := mapApplied_eq_nil
  cases steps_of_step h with
  | txSending count =>
    have hnone : ∀ p ∈ (List.range S).map (fun sid => (sid, ShardMsg.injectTxs
        ((w.remaining.take count).filter fun tx => w.fetchModifiedMap tx.sender = sid))),
        p.2.isMap = false := by
      intro p hp
      obtain ⟨sid, -, rfl⟩ := List.mem_map.1 hp
      rfl
    refine hsame ⟨hw.leaders, ?_, ?_, ?_, hw.within, hw.rounds_step h fun _ => rfl⟩
    · exact fun j => (mapsTo_append_of_none hnone j).symm ▸ hw.arrive j
    · exact fun j => (mapsTo_append_of_none hnone j).symm ▸ hw.alone j
    · intro p hp D hD
      rcases List.mem_append.1 hp with hold | hnew
      · exact hw.last p hold D hD
      · exact absurd (hnone p hnew) (by simp [hD, ShardMsg.isMap])
  | clpaMapSend m =>
    obtain ⟨hm, hfree⟩ := hturn
    have hzero : ∀ j, mapsTo w.net j = 0 := fun j =>
      List.countP_eq_zero.2 fun p hp => by simp [hfree p hp]
    refine ⟨fun j => (hw.leaders j).append _, ?_, ?_, ?_, ?_, hw.rounds_step h fun _ => rfl⟩
    · intro j
      have hold := hw.arrive j
      have hnew := mapsTo_clpaMapSend w.net m j.isLt
      rw [ShardAct.mapsSent, List.length_append, List.length_singleton]
      show mapsTo (w.net ++ _) j + (w.leaders j).cdm.modifiedMap.length = _
      rw [hnew]
      omega
    · intro j
      show mapsTo (w.net ++ _) j ≤ 1
      rw [mapsTo_clpaMapSend w.net m j.isLt, hzero]
    · intro p hp D hD
      rcases List.mem_append.1 hp with hold | hnew
      · exact absurd (hfree p hold) (by simp [hD, ShardMsg.isMap])
      · obtain ⟨sid, -, rfl⟩ := List.mem_map.1 hnew
        obtain ⟨⟩ := hD
        exact List.getLast?_concat ..
    · intro D hD
      rcases List.mem_append.1 hD with hold | hnew
      · exact hw.within D hold
      · exact List.mem_singleton.1 hnew ▸ hm
  | deliver hk => exact hsame (hw.deliver hk hturn h)
  | @proposePanics i =>
    exact hsame (hw.of_act h (hquiet (by simp)) rfl rfl (hw.leaders i).crash rfl (by simp))
  | @proposeBlock i now bc b _ hphase hgen =>
    obtain ⟨hfiles, -⟩ := BlockChain.generateBlock_spec hgen
    refine hsame (hw.of_act h (hquiet (by simp)) rfl rfl ?_ rfl (by simp))
    exact (hw.leaders i).of_frame rfl hfiles.partition (by simp [Leader.stage]) (by simp)
  | @sendPartitionReady i _ hphase hon =>
    refine hsame (hw.of_act h (hquiet (by simp)) rfl rfl ?_ rfl ?_)
    · exact (hw.leaders i).of_frame rfl rfl (fun _ => .inl hon) (by simp [Leader.sendPartitionReady])
    · intro p hp
      obtain ⟨sid, -, rfl⟩ := List.mem_map.1 hp
      rfl
  | @sendAccountsAndTxs i order n msgs hphase hsend =>
    refine hsame (hw.of_act h (hquiet (by simp)) rfl rfl ((hw.leaders i).sendAccountsAndTxs hphase hsend)
      ?_ ?_)
    · rcases Leader.sendAccountsAndTxs_cases hsend with ⟨-, rfl, -⟩ | ⟨-, -, -, -, -, -, -, rfl, -⟩ <;> rfl
    · intro p hp
      rcases Leader.sendAccountsAndTxs_cases hsend with
        ⟨-, -, rfl⟩ | ⟨m, asFetched, r, -, -, -, rfl, -, rfl⟩
      · exact absurd hp (by simp)
      · rw [Leader.sendAccountsLoop_eq] at hp
        obtain ⟨q, -, rfl⟩ := List.mem_map.1 hp
        rfl
  | @proposePartition i shards addrs n hphase _ hprop =>
    refine hsame (hw.of_act h (hquiet (by simp)) rfl rfl ((hw.leaders i).proposePartition hphase hprop)
      ?_ (by simp))
    obtain ⟨r, -, -, -, -, ⟨rfl, -⟩ | ⟨m, -, rfl⟩⟩ := Leader.proposePartition_cases hprop <;> rfl
  | @commitBlock i b _ hphase =>
    refine hsame (hw.of_act h (mapApplied_of_block hphase) rfl rfl ?_ ?_ ?_)
    · obtain ⟨bc, hpm, -, -, h | ⟨-, h⟩⟩ := (w.leaders i).commitBlock_cases b
      · rw [h]
        exact (hw.leaders i).of_frame rfl hpm .inr fun _ _ => rfl
      · rw [h]
        exact (hw.leaders i).of_frame rfl hpm (by simp [Leader.nextRound, Leader.stage])
          (by simp [Leader.nextRound])
    · obtain ⟨bc, -, -, -, h | ⟨-, h⟩⟩ := (w.leaders i).commitBlock_cases b <;> rw [h] <;> rfl
    · intro p hp
      have hno := (w.leaders i).commitBlock_sends_no_map b p hp
      cases hm : p.2 with
      | partitionModifiedMap D => exact absurd hm (hno D)
      | _ => rfl
  | @commitPartition i atm hphase =>
    cases hdo : (w.leaders i).curChain.accountTransferDo atm with
    | none =>
      have hcrash : (w.leaders i).commitPartition atm = (w.leaders i).crash := by
        rw [Leader.commitPartition, hdo]
      refine hsame (hw.of_act h (mapApplied_of_failed hphase hdo) rfl rfl ?_ ?_ (by simp))
      · exact (hw.leaders i).commitPartition hphase
      · rw [hcrash]
        rfl
    | some bc => exact hsame (hw.commitPartition hphase hdo h)

end Step

end ShardWorld

/-! ## Who answers for an account -/

/-- The rounds in which the leader has sent its accounts away: all it has ended, and the one it is in
    once it waits for the accounts of the others. -/
def Leader.roundsSent (n : Leader H) : ℕ :=
  n.cdm.accountTransferRound + if 2 ≤ n.stage then 1 else 0

/-- Leader `i` answers for an account that lives in its shard and has not been sent away. -/
def Leader.Owns (S : ℕ) (maps : List ShardMap) (i : ℕ) (n : Leader H) (a : Address) : Prop :=
  homeAfter S maps n.cdm.accountTransferRound a = i ∧ homeAfter S maps n.roundsSent a = i

/-- Before it has sent anything away, a leader answers for all accounts of its shard. -/
theorem Leader.owns_iff_of_stage {n : Leader H} (h : n.stage < 2) {maps : List ShardMap} {i : ℕ}
    {a : Address} : n.Owns S maps i a ↔ homeAfter S maps n.cdm.accountTransferRound a = i := by
  rw [Owns, roundsSent, if_neg (by omega), Nat.add_zero, and_self]

/-- A leader that may execute a block answers for the accounts that are local to it. -/
theorem Leader.owns_iff_isLocal {maps : List ShardMap} {i : ℕ} {n : Leader H} (hn : n.Follows maps)
    (hid : n.shardID = i) (hnums : n.shardNums = S) (hstage : n.stage < 2) {a : Address} :
    n.Owns S maps i a ↔ n.curChain.ctx.isLocal a = true := by
  rw [owns_iff_of_stage hstage, ← hn.getPartitionMap hnums, ← hid]
  exact beq_iff_eq.symm

namespace ShardWorld

/-- The account is on its way from leader `j` to leader `i`, or has been collected there. -/
structure InTransit (maps : List ShardMap) (w : ShardWorld H S) (j i : Fin S) (a : Address) : Prop where
  ne : i ≠ j
  leaves : homeAfter S maps (w.leaders i).cdm.accountTransferRound a = j
  arrives : homeAfter S maps ((w.leaders i).cdm.accountTransferRound + 1) a = i
  sent : (w.leaders i).cdm.accountTransferRound + 1 ≤ (w.leaders j).roundsSent

namespace Agreed

variable {maps : List ShardMap} {w : ShardWorld H S} {i j k : Fin S} {a : Address}

theorem round_le_roundsSent (hw : Agreed maps w) (hij : i ≠ j) :
    (w.leaders i).cdm.accountTransferRound ≤ (w.leaders j).roundsSent := by
  obtain ⟨sent, got, hr⟩ := hw.rounds
  have hle := hr.round_le hij.symm
  rw [Leader.roundsSent]
  omega

theorem shardID (hw : Agreed maps w) (i : Fin S) : (w.leaders i).shardID = i := by
  obtain ⟨sent, got, hr⟩ := hw.rounds
  exact (hr.announces i).shardID

theorem shardNums (hw : Agreed maps w) (i : Fin S) : (w.leaders i).shardNums = S := by
  obtain ⟨sent, got, hr⟩ := hw.rounds
  exact (hr.announces i).shardNums

/-- Accounts that have been collected have been sent in the round of the leader that has them. -/
theorem sent_of_collected (hw : Agreed maps w) {j : ℕ} (hj : j ∈ (w.leaders i).cdm.accountStateTx) :
    ∃ j' : Fin S, j'.val = j ∧ i ≠ j' ∧
      (w.leaders i).cdm.accountTransferRound + 1 ≤ (w.leaders j').roundsSent := by
  obtain ⟨sent, got, hr⟩ := hw.rounds
  obtain ⟨hne, hlt⟩ := Finset.mem_erase.1 ((hr.hears i).others (Finmap.mem_keys.2 hj))
  have hij : i ≠ ⟨j, Finset.mem_range.1 hlt⟩ := fun he => hne (congrArg Fin.val he.symm)
  refine ⟨⟨j, Finset.mem_range.1 hlt⟩, rfl, hij, ?_⟩
  have hle := hr.round_le hij.symm
  rw [if_pos hj] at hle
  rw [Leader.roundsSent]
  omega

/-- So have accounts that are on their way. -/
theorem sent_of_mem_net (hw : Agreed maps w) {at' : AccountStateAndTx}
    (hmem : (i.val, ShardMsg.accountStateAndTx at') ∈ w.net) :
    ∃ j : Fin S, j.val = at'.fromShard ∧ i ≠ j ∧
      (w.leaders i).cdm.accountTransferRound + 1 ≤ (w.leaders j).roundsSent := by
  obtain ⟨sent, got, hr⟩ := hw.rounds
  obtain ⟨hlt, hne⟩ := hr.senders _ hmem at'.fromShard rfl
  have hij : i ≠ ⟨at'.fromShard, hlt⟩ := fun he => hne (congrArg Fin.val he.symm)
  refine ⟨⟨at'.fromShard, hlt⟩, rfl, hij, ?_⟩
  have hle := hr.round_le hij.symm
  have hpos : 0 < w.net.countP (fun p => (ShardMsg.onLink ShardMsg.accountStates
      ((⟨at'.fromShard, hlt⟩ : Fin S) : ℕ) i p).isSome) :=
    List.countP_pos_iff.2 ⟨_, hmem, by
      simp [ShardMsg.onLink, ShardMsg.sender, ShardMsg.accountStates]⟩
  rw [Leader.roundsSent]
  omega

/-- Leaders that are not exchanging accounts are in the same round. -/
theorem round_eq_of_open (hw : Agreed maps w) (hi : (w.leaders i).stage < 2)
    (hj : (w.leaders j).stage < 2) :
    (w.leaders i).cdm.accountTransferRound = (w.leaders j).cdm.accountTransferRound := by
  by_cases hij : i = j
  · rw [hij]
  have hle := hw.round_le_roundsSent hij
  have hge := hw.round_le_roundsSent (Ne.symm hij)
  rw [Leader.roundsSent, if_neg (by omega)] at hle hge
  exact Nat.le_antisymm hle hge

/-- A leader that is about to send its accounts is in the same round as those it sends them to. -/
theorem same_round (hw : Agreed maps w) {more : List ShardMap} {n : Leader H}
    {msgs : List (ℕ × ShardMsg)} (hw' : Agreed more (w.after i n msgs))
    (hround : n.cdm.accountTransferRound = (w.leaders i).cdm.accountTransferRound)
    (hstage : (w.leaders i).stage < 2) (hstage' : 2 ≤ n.stage) (hji : j ≠ i) :
    (w.leaders j).cdm.accountTransferRound = (w.leaders i).cdm.accountTransferRound := by
  obtain ⟨sent, got, hr⟩ := hw'.rounds
  have hi : (w.after i n msgs).leaders i = n := Function.update_self ..
  have hj : (w.after i n msgs).leaders j = w.leaders j := Function.update_of_ne hji ..
  have hge := hr.round_succ_le hji (by rwa [hi])
  have hle := hw.round_le_roundsSent hji
  rw [hi, hj, hround] at hge
  rw [Leader.roundsSent, if_neg (by omega)] at hle
  split at hge <;> omega

theorem roundsSent_le (n : Leader H) : n.roundsSent = n.cdm.accountTransferRound ∨
    n.roundsSent = n.cdm.accountTransferRound + 1 := by
  unfold Leader.roundsSent
  split
  · exact .inr rfl
  · exact .inl rfl

/-- **An account has one owner**: no two leaders answer for it. -/
theorem owner_unique (hw : Agreed maps w) (hi : (w.leaders i).Owns S maps i a)
    (hj : (w.leaders j).Owns S maps j a) : i = j := by
  by_contra hij
  have hne : (i : ℕ) ≠ j := fun he => hij (Fin.ext he)
  have hle := hw.round_le_roundsSent hij
  have hle' := hw.round_le_roundsSent (Ne.symm hij)
  -- if the leaders are not in the same round, the later one is where the other has sent its accounts
  rcases Nat.lt_trichotomy (w.leaders i).cdm.accountTransferRound
    (w.leaders j).cdm.accountTransferRound with hlt | heq | hlt
  · have hsame : (w.leaders i).roundsSent = (w.leaders j).cdm.accountTransferRound := by
      rcases roundsSent_le (w.leaders i) with h | h <;> omega
    exact hne (hi.2.symm.trans (hsame ▸ hj.1))
  · exact hne (hi.1.symm.trans (heq ▸ hj.1))
  · have hsame : (w.leaders j).roundsSent = (w.leaders i).cdm.accountTransferRound := by
      rcases roundsSent_le (w.leaders j) with h | h <;> omega
    exact hne (hi.1.symm.trans (hsame ▸ hj.2))

/-- Nobody answers for an account in transit. -/
theorem not_owns_of_inTransit (hw : Agreed maps w) (h : w.InTransit maps j i a) :
    ¬ (w.leaders k).Owns S maps k a := by
  intro hk
  have hne : (i : ℕ) ≠ j := fun he => h.ne (Fin.ext he)
  -- the owner is in neither of the two rounds between which the account moves
  have hleaves : ∀ r, homeAfter S maps r a = k → k ≠ j →
      r ≠ (w.leaders i).cdm.accountTransferRound := by
    rintro r hr hkj rfl
    exact hkj (Fin.ext (hr.symm.trans h.leaves))
  have harrives : ∀ r, homeAfter S maps r a = k → k ≠ i →
      r ≠ (w.leaders i).cdm.accountTransferRound + 1 := by
    rintro r hr hki rfl
    exact hki (Fin.ext (hr.symm.trans h.arrives))
  have hki : k ≠ i := by
    rintro rfl
    exact hne (hk.1.symm.trans h.leaves)
  have hle := hw.round_le_roundsSent hki
  have hle' := hw.round_le_roundsSent hki.symm
  have hround := harrives _ hk.1 hki
  have hsent := harrives _ hk.2 hki
  by_cases hkj : k = j
  · subst hkj
    have hahead := h.sent
    rcases roundsSent_le (w.leaders k) with h' | h' <;>
      rcases roundsSent_le (w.leaders i) with h'' | h'' <;> omega
  · have hround' := hleaves _ hk.1 hkj
    have hsent' := hleaves _ hk.2 hkj
    rcases roundsSent_le (w.leaders k) with h' | h' <;>
      rcases roundsSent_le (w.leaders i) with h'' | h'' <;> omega

end Agreed

/-- **Leaders that execute blocks agree on the homes.** In every run of the CLPA module in which a map is
    sent when the one before it has arrived, and arrives when the one before it is carried out: two
    leaders that are not exchanging accounts have carried out the same maps, and use the same partition
    map. So no account is executed by two shards at a time, however messages are delayed. -/
theorem executing_leaders_agree {bc : Fin S → BlockChain H} {dataset : List Transaction}
    (hid : ∀ i, (bc i).chainConfig.shardID = i) (hnums : ∀ i, (bc i).chainConfig.shardNums = S)
    (hmap : ∀ i, (bc i).partitionMap = ∅) {w : ShardWorld H S}
    (hrun : ReachesUnder (step .clpa) MapsInTurn (init bc dataset) w) {i j : Fin S}
    (hi : (w.leaders i).stage < 2) (hj : (w.leaders j).stage < 2) :
    (w.leaders i).cdm.accountTransferRound = (w.leaders j).cdm.accountTransferRound ∧
      (w.leaders i).curChain.partitionMap = (w.leaders j).curChain.partitionMap ∧
      ∀ a, (w.leaders i).curChain.ctx.isLocal a = true → (w.leaders j).curChain.ctx.isLocal a = true →
        i = j := by
  obtain ⟨maps, hw⟩ : ∃ maps, Agreed maps w :=
    hrun.invariant (I := fun w => ∃ maps, Agreed maps w) ⟨[], agreed_init hid hnums hmap⟩
      fun _ _ _ ⟨_, hw⟩ hturn hstep => ⟨_, hw.step hturn hstep⟩
  refine ⟨hw.round_eq_of_open hi hj, ?_, fun a hai haj => ?_⟩
  · rw [(hw.leaders i).partitionMap, (hw.leaders j).partitionMap, hw.round_eq_of_open hi hj]
  · exact hw.owner_unique
      ((Leader.owns_iff_isLocal (hw.leaders i) (hw.shardID i) (hw.shardNums i) hi).2 hai)
      ((Leader.owns_iff_isLocal (hw.leaders j) (hw.shardID j) (hw.shardNums j) hj).2 haj)

section Sample

open BlockChain

/-- Alice and bob have changed places: both leaders execute blocks again, under the new map. -/
theorem swapped_leaders_agree :
    ∃ w, ReachesUnder (step .clpa) MapsInTurn (init twoShards [transfer 5]) w ∧
      (w.leaders 0).curChain.getPartitionMap alice = 1 ∧
      (w.leaders 0).curChain.partitionMap = (w.leaders 1).curChain.partitionMap := by
  have hrun : ∃ w ∈ runChecked (step .clpa) (fun w a => decide (w.MapsInTurn a))
      (init twoShards [transfer 5]) (mapArrives 0 (swap 0 1) ++ migrating 0 1 [alice] [bob]),
      (w.leaders 0).stage < 2 ∧ (w.leaders 1).stage < 2 ∧
        (w.leaders 0).curChain.getPartitionMap alice = 1 := by decide +kernel
  obtain ⟨w, hw, hi, hj, halice⟩ := hrun
  have hreach := reachesUnder_of_runDecided hw
  exact ⟨w, hreach, halice, (executing_leaders_agree (fun _ => by rfl) (fun _ => by rfl)
    (fun _ => by rfl) hreach hi hj).2.1⟩

end Sample

end ShardWorld

end BlockEmulator
