import BlockEmulator.Shard.Homes
import BlockEmulator.Shard.Ledger

set_option autoImplicit false

/-! # What accounts hold, wherever they are

In CLPA mode several tries hold a state of the same account: the shard it lives in, and every shard it
has lived in before. What the account is worth is fixed by the committed blocks of all shards together.
The invariant `Books` says that this is what the account holds in the trie of the leader that answers
for it, in a message that carries it, among the accounts a leader has collected, and in a proposed
transfer; nothing is said about stale copies. A commit changes the worth of accounts of one shard only,
and by `Agreed.owner_unique` and `Agreed.not_owns_of_inTransit` these are nowhere else. -/

namespace BlockEmulator

variable {H : Type} [DecidableEq H] [Hashing H] {S : ℕ}

/-- What an account is worth by the committed blocks of all shards. -/
def ShardWorld.worth (w : ShardWorld H S) (a : Address) : ℤ :=
  initBalance - ∑ i, outflow a (w.log i).debited + ∑ i, inflow a (w.log i).credited

/-! ## Accounts under way -/

/-- The message brings the accounts that move to shard `i` in round `k`, and each is worth what it
    holds. -/
def Brings (S : ℕ) (maps : List ShardMap) (worth : Address → ℤ) (k i : ℕ) (at' : AccountStateAndTx) :
    Prop :=
  ∃ D f queue, maps[k]? = some D ∧
    Leader.Carries S (mapAfter maps k) D f queue at'.fromShard i at' ∧
    ∀ a, Moves S (mapAfter maps k) D at'.fromShard i a → (f a).balance = worth a

section Brings

variable {maps : List ShardMap} {worth worth' : Address → ℤ} {k i : ℕ} {at' : AccountStateAndTx}

theorem Brings.append (h : Brings S maps worth k i at') (more : List ShardMap) :
    Brings S (maps ++ more) worth k i at' := by
  obtain ⟨D, f, queue, hD, hcarries, hworth⟩ := h
  have hlt := (List.getElem?_eq_some_iff.1 hD).1
  refine ⟨D, f, queue, ?_, ?_, ?_⟩
  · rw [List.getElem?_append_left hlt]
    exact hD
  · rw [mapAfter_append more hlt.le]
    exact hcarries
  · rw [mapAfter_append more hlt.le]
    exact hworth

theorem Brings.congr_worth (h : Brings S maps worth k i at')
    (hworth : ∀ a, homeAfter S maps k a = at'.fromShard → homeAfter S maps (k + 1) a = i →
      i ≠ at'.fromShard → worth' a = worth a) : Brings S maps worth' k i at' := by
  obtain ⟨D, f, queue, hD, hcarries, hold⟩ := h
  refine ⟨D, f, queue, hD, hcarries, fun a ha => ?_⟩
  obtain ⟨hleaves, harrives, hne⟩ := (moves_iff_homeAfter hD).1 ha
  rw [hold a ha, hworth a hleaves harrives hne]

end Brings

/-! ## One leader -/

namespace Leader

theorem Owns.of_stage_le {maps : List ShardMap} {i : ℕ} {n n' : Leader H} {a : Address}
    (h : n'.Owns S maps i a) (hround : n'.cdm.accountTransferRound = n.cdm.accountTransferRound)
    (hstage : n.stage ≤ n'.stage) : n.Owns S maps i a := by
  rw [Owns, roundsSent, hround] at h
  refine ⟨h.1, ?_⟩
  rw [roundsSent]
  split
  · next h2 =>
    rw [if_pos (h2.trans hstage)] at h
    exact h.2
  · exact h.1

/-- What the leader has is right: for the accounts it answers for in its trie and under the root of a
    block it has proposed, for those it has collected, and for those it has proposed to install. -/
structure Keeps (S : ℕ) (maps : List ShardMap) (worth : Address → ℤ) (i : ℕ) (n : Leader H) :
    Prop where
  book : n.curChain.g2eBook = ∅
  current : ∃ st, n.curChain.accounts = some st ∧
    ∀ a, n.Owns S maps i a → st.balance a = worth a
  proposed : ∀ b ∈ n.proposedBlock, n.curChain.Extends b ∧
    ∃ st, n.curChain.triedb.trieNew b.header.stateRoot = some st ∧
      ∀ a, n.Owns S maps i a → st.balance a = worth a -
        outflow a (n.curChain.atTurnOf debits b) + inflow a (n.curChain.atTurnOf credits b)
  collected : ∀ j at', n.cdm.accountStateTx.lookup j = some at' →
    at'.fromShard = j ∧ Brings S maps worth n.cdm.accountTransferRound i at'
  transfer : ∀ atm, n.phase = .proposed (.partition atm) →
    ∃ D f, maps[n.cdm.accountTransferRound]? = some D ∧
      Installs S (mapAfter maps n.cdm.accountTransferRound) D f i atm ∧
      ∀ j < S, ∀ a, Moves S (mapAfter maps n.cdm.accountTransferRound) D j i a →
        (f a).balance = worth a
  fresh : n.stage ≠ 3 → n.cdm.receivedNewAccountState = ∅

section Keeps

variable {maps : List ShardMap} {worth worth' : Address → ℤ} {i : ℕ} {n n' : Leader H}

/-- The pool is no part of it, and nothing happens to the accounts while a leader waits. -/
theorem Keeps.of_frame (hn : n.Keeps S maps worth i) (pool : TxPool)
    (hchain : n'.curChain = { n.curChain with txpool := pool })
    (hround : n'.cdm.accountTransferRound = n.cdm.accountTransferRound)
    (hcollected : n'.cdm.accountStateTx = n.cdm.accountStateTx)
    (hreceived : n'.cdm.receivedNewAccountState = n.cdm.receivedNewAccountState)
    (hphase : n'.phase = n.phase ∨
      n.stage ≤ n'.stage ∧ n.stage ≠ 3 ∧ n'.stage ≠ 3 ∧ n'.proposedBlock = none) :
    n'.Keeps S maps worth i := by
  have hstage : n.stage ≤ n'.stage := by
    rcases hphase with h | ⟨h, -⟩
    · rw [stage, stage, h]
    · exact h
  have howns : ∀ a, n'.Owns S maps i a → n.Owns S maps i a := fun a h => h.of_stage_le hround hstage
  constructor
  · rw [hchain]
    exact hn.book
  · obtain ⟨st, hst, hbalance⟩ := hn.current
    rw [hchain]
    exact ⟨st, hst, fun a ha => hbalance a (howns a ha)⟩
  · intro b hb
    rcases hphase with h | ⟨-, -, -, h⟩
    · rw [proposedBlock, h] at hb
      obtain ⟨hext, st, hst, hbalance⟩ := hn.proposed b hb
      rw [hchain]
      exact ⟨hext, st, hst, fun a ha => hbalance a (howns a ha)⟩
    · rw [h] at hb
      exact absurd hb (by simp)
  · rw [hcollected, hround]
    exact hn.collected
  · rw [hround]
    intro atm hatm
    rcases hphase with h | ⟨-, -, h, -⟩
    · exact hn.transfer atm (h ▸ hatm)
    · exact absurd (stage_eq_three_of_partition hatm) h
  · rw [hreceived]
    intro h3
    rcases hphase with h | ⟨-, h, -⟩
    · exact hn.fresh (by rwa [stage, ← h])
    · exact hn.fresh h

/-- More maps come. -/
theorem Keeps.append (hn : n.Keeps S maps worth i) (hf : n.Follows maps) (more : List ShardMap) :
    n.Keeps S (maps ++ more) worth i := by
  have hle := hf.le.trans hf.length_le
  have howns : ∀ a, n.Owns S (maps ++ more) i a → n.Owns S maps i a := by
    intro a ⟨hround, hsent⟩
    rw [homeAfter_append more hle] at hround
    refine ⟨hround, ?_⟩
    rw [roundsSent] at hsent ⊢
    split at hsent
    · next h2 =>
      have hout := hf.outstanding (.inr (by omega))
      rw [if_pos h2, ← homeAfter_append more (hout ▸ hf.length_le)]
      exact hsent
    · next h2 =>
      rw [if_neg h2]
      exact hround
  refine ⟨hn.book, ?_, ?_, ?_, ?_, hn.fresh⟩
  · obtain ⟨st, hst, hbalance⟩ := hn.current
    exact ⟨st, hst, fun a ha => hbalance a (howns a ha)⟩
  · intro b hb
    obtain ⟨hext, st, hst, hbalance⟩ := hn.proposed b hb
    exact ⟨hext, st, hst, fun a ha => hbalance a (howns a ha)⟩
  · intro j at' hat
    obtain ⟨hfrom, hbrings⟩ := hn.collected j at' hat
    exact ⟨hfrom, hbrings.append more⟩
  · intro atm hatm
    obtain ⟨D, f, hD, hinstalls⟩ := hn.transfer atm hatm
    refine ⟨D, f, ?_, ?_⟩
    · rw [List.getElem?_append_left (List.getElem?_eq_some_iff.1 hD).1]
      exact hD
    · rw [mapAfter_append more hle]
      exact hinstalls

/-- The worth of other accounts does not matter. -/
theorem Keeps.congr_worth (hn : n.Keeps S maps worth i)
    (hown : ∀ a, n.Owns S maps i a → worth' a = worth a)
    (hall : n.stage = 3 → ∀ j < S, j ≠ i → j ∈ n.cdm.accountStateTx)
    (htransit : ∀ j ∈ n.cdm.accountStateTx, ∀ a,
      homeAfter S maps n.cdm.accountTransferRound a = j →
      homeAfter S maps (n.cdm.accountTransferRound + 1) a = i → i ≠ j → worth' a = worth a) :
    n.Keeps S maps worth' i := by
  refine ⟨hn.book, ?_, ?_, ?_, ?_, hn.fresh⟩
  · obtain ⟨st, hst, hbalance⟩ := hn.current
    refine ⟨st, hst, fun a ha => ?_⟩
    rw [hbalance a ha, hown a ha]
  · intro b hb
    obtain ⟨hext, st, hst, hbalance⟩ := hn.proposed b hb
    refine ⟨hext, st, hst, fun a ha => ?_⟩
    rw [hbalance a ha, hown a ha]
  · intro j at' hat
    obtain ⟨rfl, hbrings⟩ := hn.collected j at' hat
    exact ⟨rfl, hbrings.congr_worth (htransit _ (Finmap.mem_iff.2 ⟨at', hat⟩))⟩
  · intro atm hatm
    obtain ⟨D, f, hD, hinstalls, hbalance⟩ := hn.transfer atm hatm
    refine ⟨D, f, hD, hinstalls, fun j hj a ha => ?_⟩
    obtain ⟨hleaves, harrives, hne⟩ := (moves_iff_homeAfter hD).1 ha
    have hmem := hall (stage_eq_three_of_partition hatm) j hj hne.symm
    rw [hbalance j hj a ha, htransit j hmem a hleaves harrives hne]

theorem Keeps.proposeBlock (hn : n.Keeps S maps worth i) (hidle : n.phase = .idle)
    (hord : ∀ t ∈ n.curChain.txpool.txQueue, t.Ordinary) {now : ℕ} {bc : BlockChain H} {b : Block H}
    (h : n.curChain.generateBlock 0 now = some (bc, b)) :
    Keeps S maps worth i { n with curChain := bc, phase := .proposed (.block b) } := by
  obtain ⟨-, hext, -⟩ := BlockChain.generateBlock_spec h
  obtain ⟨st, hst, hbal⟩ := hn.current
  obtain ⟨rt, hexec, rfl⟩ := BlockChain.generateBlockOf_cases h
  have hord' : ∀ t ∈ n.curChain.packForBlock.1, t.Ordinary := fun t ht => by
    obtain ⟨k, hk⟩ := BlockChain.packForBlock_eq n.curChain
    rw [hk] at ht
    exact hord t (List.mem_of_mem_take ht)
  obtain ⟨hbook, st', hst', hbal'⟩ :=
    BlockChain.getUpdateStatusTrie_of_ordinary hexec hord' hn.book hst
  have hsame := BlockChain.sameState_of_getUpdateStatusTrie hexec (hbook.trans hn.book.symm)
  have howns : ∀ (b : Block H) a,
      Owns S maps i { n with curChain := bc, phase := .proposed (.block b) } a → n.Owns S maps i a :=
    fun b a ha => ha.of_stage_le rfl (by simp [stage, hidle])
  have hopen : n.stage ≠ 3 := by simp [stage, hidle]
  refine ⟨hbook, ⟨st, hsame.accounts.symm.trans hst, fun a ha => hbal a (howns _ a ha)⟩, ?_,
    hn.collected, fun _ h => absurd h (by simp), fun _ => hn.fresh hopen⟩
  intro b hb
  obtain rfl := Option.some.inj hb
  refine ⟨(hsame.extends_iff _).1 hext, st', hst', fun a ha => ?_⟩
  have hturn : ∀ p, bc.atTurnOf p _ =
      atTurn p n.curChain.ctx 0 n.curChain.packForBlock.1 ⟨st, n.curChain.g2eBook, 0⟩ := fun p =>
    (hsame.atTurnOf_eq p _).symm.trans (BlockChain.atTurnOf_eq hst hext p)
  rw [hturn, hturn, ← hbal a (howns _ a ha)]
  exact hbal' a

/-- A leader that survives the commit of a block that extends its chain has appended it. -/
theorem commitBlock_of_alive {b : Block H} (hadd : n.curChain.addBlock b = some (n.curChain.append b))
    (halive : (n.commitBlock b).1.alive = true) : ∃ pool, (n.commitBlock b).1 = n.appended b pool := by
  cases hpool : (n.curChain.append b).collectRelayTxs b.body
      { (n.curChain.append b).txpool with relayPool := ∅ } with
  | none =>
    simp only [Leader.commitBlock, hadd, hpool] at halive
    exact absurd halive (by simp [Leader.crash])
  | some pool =>
    refine ⟨pool.clearRelayPool, ?_⟩
    simp only [Leader.commitBlock, hadd, hpool]
    rfl

/-- The block is committed, and what it does is part of the worth of the accounts. -/
theorem Keeps.appended (hn : n.Keeps S maps worth i) {b : Block H} (hb : b ∈ n.proposedBlock)
    (hstage : n.stage = 0) (pool : TxPool)
    (hown : ∀ a, n.Owns S maps i a → worth' a = worth a -
      outflow a (n.curChain.atTurnOf debits b) + inflow a (n.curChain.atTurnOf credits b))
    (htransit : ∀ j ∈ n.cdm.accountStateTx, ∀ a,
      homeAfter S maps n.cdm.accountTransferRound a = j →
      homeAfter S maps (n.cdm.accountTransferRound + 1) a = i → i ≠ j → worth' a = worth a) :
    (n.appended b pool).Keeps S maps worth' i := by
  obtain ⟨-, st, hst, hbalance⟩ := hn.proposed b hb
  refine ⟨hn.book, ⟨st, hst, fun a ha => ?_⟩, ?_, ?_, ?_, fun _ => hn.fresh (by omega)⟩
  · have hold : n.Owns S maps i a := ha.of_stage_le rfl (by omega)
    rw [hbalance a hold, hown a hold]
  · exact fun b' hb' => absurd hb' (by simp [proposedBlock, Leader.appended, nextRound])
  · intro j at' hat
    obtain ⟨rfl, hbrings⟩ := hn.collected j at' hat
    exact ⟨rfl, hbrings.congr_worth (htransit _ (Finmap.mem_iff.2 ⟨at', hat⟩))⟩
  · exact fun atm hatm => absurd hatm (by simp [Leader.appended, nextRound])

/-- **Sending accounts away.** A leader sends what it answers for, and no longer answers for it. -/
theorem Keeps.sendAccountsAndTxs (hn : n.Keeps S maps worth i) (hf : n.Follows maps)
    (hid : n.shardID = i) (hnums : n.shardNums = S) (hphase : n.phase = .waitReady)
    {order : List Address} {msgs : List (ℕ × ShardMsg)}
    (h : n.sendAccountsAndTxs order = some (n', msgs)) :
    n'.Keeps S maps worth i ∧ ∀ d at', (d, ShardMsg.accountStateAndTx at') ∈ msgs →
      d ≠ i ∧ Brings S maps worth n.cdm.accountTransferRound d at' := by
  have hstage : n.stage = 1 := stage_eq_one_iff.2 hphase
  obtain ⟨D, hD, hlast, -⟩ := hf.exists_map (hf.outstanding (.inr (by omega)))
  obtain ⟨st, hst, hbalance⟩ := hn.current
  obtain ⟨rfl, hmsgs⟩ := sendAccountsAndTxs_spec hnums hf.partitionMap hlast hst h
  constructor
  · exact hn.of_frame _ rfl rfl rfl rfl (.inr ⟨by simp [stage, hphase], by omega, by simp [stage], rfl⟩)
  · intro d at' hmem
    obtain ⟨-, hne, at'', heq, hcarries⟩ := hmsgs _ hmem
    obtain ⟨⟩ := heq
    rw [hid] at hne hcarries
    have hfrom := hcarries.fromShard
    refine ⟨hne, D, fun a => st.getOrNew a 0, n.curChain.txpool.txQueue, hD, ?_, ?_⟩
    · rw [hfrom]
      exact hcarries
    · intro a ha
      rw [hfrom, moves_iff_homeAfter hD] at ha
      rw [st.getOrNew_balance]
      exact hbalance a ((owns_iff_of_stage (by omega)).2 ha.1)

/-- **Collecting accounts.** What the others have sent is installed as it was sent. -/
theorem Keeps.proposePartition (hn : n.Keeps S maps worth i) (hf : n.Follows maps)
    (hid : n.shardID = i) (htx : n.cdm.receivedNewTx = [])
    (hkeys : ∀ j, j ∈ n.cdm.accountStateTx ↔ j < S ∧ j ≠ i) (hphase : n.phase = .waitCollect)
    {shards : List ℕ} {addrs : List Address} (h : n.proposePartition shards addrs = some n') :
    n'.Keeps S maps worth i := by
  have hstage : n.stage = 2 := by rw [stage, hphase]
  obtain ⟨D, hD, -, hround⟩ := hf.exists_map (hf.outstanding (.inr (by omega)))
  -- every sender has its own states; an account comes from one sender only
  have hsenders : ∀ j, ∃ f queue, ∀ at', n.cdm.accountStateTx.lookup j = some at' →
      Carries S (mapAfter maps n.cdm.accountTransferRound) D f queue j i at' ∧
        ∀ a, Moves S (mapAfter maps n.cdm.accountTransferRound) D j i a → (f a).balance = worth a := by
    intro j
    cases hlook : n.cdm.accountStateTx.lookup j with
    | none => exact ⟨fun _ => ⟨0, 0⟩, [], fun _ h => absurd h (by simp)⟩
    | some at' =>
      obtain ⟨rfl, D', f, queue, hD', hcarries, hbalance⟩ := hn.collected j at' hlook
      obtain rfl : D' = D := Option.some.inj (hD'.symm.trans hD)
      refine ⟨f, queue, fun at'' heq => ?_⟩
      obtain rfl := Option.some.inj heq
      exact ⟨hcarries, hbalance⟩
  choose f queue hsent using hsenders
  have hstored : ∀ j at', n.cdm.accountStateTx.lookup j = some at' →
      Carries S (mapAfter maps n.cdm.accountTransferRound) D
        (fun a => f (homeAfter S maps n.cdm.accountTransferRound a) a) (queue j) j i at' := by
    intro j at' hat
    refine (hsent j at' hat).1.congr fun a ha => ?_
    rw [((moves_iff_homeAfter hD).1 ha).1]
  obtain ⟨-, -, -, hsameRound, atm, hatm, hinstalls⟩ := proposePartition_spec hid hround
    (hn.fresh (by omega)) htx hkeys hstored h
  have hstage' := stage_eq_three_of_partition hatm
  obtain ⟨⟨pool, hchain⟩, hcollected⟩ : (∃ pool, n'.curChain = { n.curChain with txpool := pool }) ∧
      n'.cdm.accountStateTx = n.cdm.accountStateTx := by
    obtain ⟨r, -, -, -, -, ⟨rfl, -⟩ | ⟨m, -, rfl⟩⟩ := proposePartition_cases h
    · exact ⟨⟨_, rfl⟩, rfl⟩
    · exact ⟨⟨_, rfl⟩, rfl⟩
  constructor
  · rw [hchain]
    exact hn.book
  · obtain ⟨st, hst, hbalance⟩ := hn.current
    rw [hchain]
    exact ⟨st, hst, fun a ha => hbalance a (ha.of_stage_le hsameRound (by omega))⟩
  · exact fun b hb => absurd hb (by simp [proposedBlock, hatm])
  · rw [hcollected, hsameRound]
    exact hn.collected
  · rw [hsameRound]
    intro atm' hatm'
    obtain rfl : atm = atm' := by simpa using hatm.symm.trans hatm'
    refine ⟨D, _, hD, hinstalls, fun j hj a ha => ?_⟩
    have hhome := ((moves_iff_homeAfter hD).1 ha).1
    obtain ⟨at', hlook⟩ := Finmap.mem_iff.1 ((hkeys j).2 ⟨hj, ha.2.2.symm⟩)
    simp only [hhome]
    exact (hsent j at' hlook).2 a ha
  · exact fun h3 => absurd hstage' h3

/-- **Installing accounts.** From now on the leader answers for what lives in its shard under the new
    map: what has lived there before and has not been sent away, and what is installed. -/
theorem Keeps.commitPartition (hn : n.Keeps S maps worth i) (hf : n.Follows maps)
    (hid : n.shardID = i) (hlt : ∀ a, homeAfter S maps n.cdm.accountTransferRound a < S)
    {atm : AccountTransferMsg} (hphase : n.phase = .proposed (.partition atm)) {bc : BlockChain H}
    (hdo : n.curChain.accountTransferDo atm = some bc) :
    (n.commitPartition atm).Keeps S maps worth i := by
  obtain ⟨D, f, hD, hinstalls, hworth⟩ := hn.transfer atm hphase
  obtain ⟨st, hst, hbalance⟩ := hn.current
  have hout := hf.outstanding (.inr (by rw [stage_eq_three_of_partition hphase]; omega))
  obtain ⟨hatid, -⟩ := hf.proposed atm hphase
  have hinstalls' : Installs S (mapAfter maps n.cdm.accountTransferRound) D f
      n.curChain.chainConfig.shardID atm := by
    rw [show n.curChain.chainConfig.shardID = i from hid]
    exact hinstalls
  obtain ⟨bc', st', hdo', -, -, hst', hlook⟩ := accountTransferDo_spec hinstalls' hf.partitionMap hst
  obtain rfl : bc' = bc := Option.some.inj (hdo'.symm.trans hdo)
  have hnew : n.commitPartition atm =
      { n with curChain := bc', cdm := afterTransfer n.cdm atm }.nextRound := by
    rw [Leader.commitPartition, hdo]
  have hbook : bc'.g2eBook = n.curChain.g2eBook := by
    obtain ⟨db, root, rfl, -, -⟩ := BlockChain.addAccounts_cases hdo
    rfl
  rw [hnew]
  refine ⟨hbook.trans hn.book, ⟨st', hst', fun a ha => ?_⟩, ?_, ?_, ?_, fun _ => rfl⟩
  · have hhome : homeAfter S maps (n.cdm.accountTransferRound + 1) a = i := by
      rw [← hout, ← hatid]
      exact ha.1
    have hlook' := hlook a
    rw [show n.curChain.chainConfig.shardID = i from hid] at hlook'
    by_cases hmoves : ∃ j < S, Moves S (mapAfter maps n.cdm.accountTransferRound) D j i a
    · obtain ⟨j, hj, hm⟩ := hmoves
      rw [if_pos ⟨j, hj, hm⟩] at hlook'
      rw [Accounts.balance, Accounts.getOrNew, hlook']
      exact hworth j hj a hm
    · rw [if_neg hmoves] at hlook'
      have hsame : st'.balance a = st.balance a := by
        rw [Accounts.balance, Accounts.getOrNew, hlook', Accounts.balance, Accounts.getOrNew]
      rw [hsame]
      refine hbalance a ⟨?_, ?_⟩
      · by_contra hne
        exact hmoves ⟨_, hlt a, (moves_iff_homeAfter hD).2 ⟨rfl, hhome, Ne.symm hne⟩⟩
      · rw [roundsSent, stage_eq_three_of_partition hphase]
        exact hhome
  · exact fun b hb => absurd hb (by simp [proposedBlock, nextRound])
  · exact fun j at' hat => absurd hat (by simp [nextRound, afterTransfer])
  · exact fun atm' h => absurd h (by simp [nextRound])

end Keeps

end Leader

/-! ## All leaders -/

/-- Transactions of other senders take nothing out of an account. -/
theorem outflow_eq_zero {a : Address} {txs : List Transaction} (h : ∀ t ∈ txs, a ≠ t.sender) :
    outflow a txs = 0 :=
  List.sum_eq_zero fun v hv => by
    obtain ⟨t, ht, rfl⟩ := List.mem_map.1 hv
    exact if_neg (h t ht)

theorem inflow_eq_zero {a : Address} {txs : List Transaction} (h : ∀ t ∈ txs, a ≠ t.recipient) :
    inflow a txs = 0 :=
  List.sum_eq_zero fun v hv => by
    obtain ⟨t, ht, rfl⟩ := List.mem_map.1 hv
    exact if_neg (h t ht)

namespace ShardWorld

/-- Every leader keeps what its accounts are worth, and so do messages, in the round of the leader they
    are for. -/
structure Books (maps : List ShardMap) (w : ShardWorld H S) : Prop where
  leaders : ∀ i : Fin S, (w.leaders i).Keeps S maps w.worth i
  net : ∀ i : Fin S, ∀ at', (i.val, ShardMsg.accountStateAndTx at') ∈ w.net →
    Brings S maps w.worth (w.leaders i).cdm.accountTransferRound i at'

/-- A leader whose process has ended does not come back. -/
theorem alive_of_step {w w' : ShardWorld H S} {a : ShardAct S} (h : w.step .clpa a = some w') :
    ∀ i, (w'.leaders i).alive = true → (w.leaders i).alive = true := by
  have hafter : ∀ {i : Fin S} {n : Leader H}, (n.alive = true → (w.leaders i).alive = true) →
      ∀ j, (Function.update w.leaders i n j).alive = true → (w.leaders j).alive = true := fun hn =>
    (forall_leaders_after (p := fun j m => m.alive = true → (w.leaders j).alive = true)).2
      ⟨hn, fun _ _ => id⟩
  cases steps_of_step h with
  | txSending count => exact fun _ => id
  | clpaMapSend m => exact fun _ => id
  | deliver _ halive => exact hafter fun _ => halive
  | proposePanics => exact hafter fun h => absurd h (by simp [Leader.crash])
  | proposeBlock halive => exact hafter fun _ => halive
  | sendPartitionReady => exact hafter id
  | sendAccountsAndTxs _ hsend =>
    rcases Leader.sendAccountsAndTxs_cases hsend with ⟨-, rfl, -⟩ | ⟨-, -, -, -, -, -, -, rfl, -⟩
    · exact hafter fun h => absurd h (by simp [Leader.crash])
    · exact hafter id
  | proposePartition _ _ hprop =>
    obtain ⟨r, -, -, -, -, ⟨rfl, -⟩ | ⟨m, -, rfl⟩⟩ := Leader.proposePartition_cases hprop
    · exact hafter fun h => absurd h (by simp [Leader.crash])
    · exact hafter id
  | commitBlock halive => exact hafter fun _ => halive
  | @commitPartition i atm =>
    refine hafter ?_
    rw [Leader.commitPartition]
    split
    · exact fun h => absurd h (by simp [Leader.crash])
    · exact id

theorem books_init {cc : Fin S → ChainConfig} {db : Fin S → TrieDB H} {bc : Fin S → BlockChain H}
    (hnew : ∀ i, BlockChain.newBlockChain (cc i) Storage.empty (db i) = some (bc i))
    (dataset : List Transaction) : Books [] (init bc dataset) where
  leaders := fun i => by
    refine ⟨(BlockChain.newBlockChain_spec (hnew i)).2.2.2.1,
      ⟨∅, BlockChain.accounts_newBlockChain (hnew i), fun a _ => ?_⟩,
      fun b hb => absurd hb (by simp [init, Leader.new, Leader.proposedBlock]),
      fun j at' hat => absurd hat (by simp [init, Leader.new]),
      fun atm hatm => absurd hatm (by simp [init, Leader.new]), fun _ => rfl⟩
    simp [worth, init, outflow, inflow]
  net := by simp [init]

section Step

variable {maps : List ShardMap} {w w' : ShardWorld H S} {a : ShardAct S}

/-- A leader has acted without ending a round. -/
theorem Books.after (hw : Books maps w) {i : Fin S} {n : Leader H} {msgs : List (ℕ × ShardMsg)}
    (hn : n.Keeps S maps w.worth i)
    (hround : n.cdm.accountTransferRound = (w.leaders i).cdm.accountTransferRound)
    (hmsgs : ∀ d : Fin S, ∀ at', (d.val, ShardMsg.accountStateAndTx at') ∈ msgs →
      Brings S maps w.worth (w.leaders d).cdm.accountTransferRound d at') :
    Books maps (w.after i n msgs) where
  leaders := (forall_leaders_after (p := fun j m => m.Keeps S maps w.worth j)).2
    ⟨hn, fun j _ => hw.leaders j⟩
  net := by
    have hall : ∀ d : Fin S, ∀ at', (d.val, ShardMsg.accountStateAndTx at') ∈ w.net ++ msgs →
        Brings S maps w.worth (w.leaders d).cdm.accountTransferRound d at' := fun d at' hmem =>
      (List.mem_append.1 hmem).elim (hw.net d at') (hmsgs d at')
    refine (forall_leaders_after (p := fun d m => ∀ at',
      (d.val, ShardMsg.accountStateAndTx at') ∈ w.net ++ msgs →
        Brings S maps w.worth m.cdm.accountTransferRound d at')).2 ⟨?_, fun d _ => hall d⟩
    rw [hround]
    exact hall i

/-- A message arrives. -/
theorem Books.deliver (hw : Books maps w) {k : ℕ} {i : Fin S} {m : ShardMsg}
    (hk : w.net[k]? = some (i.val, m)) : Books maps (w.receive .clpa k i m) := by
  have hround : ((w.leaders i).handleMessageOutsidePBFT .clpa m).cdm.accountTransferRound =
      (w.leaders i).cdm.accountTransferRound := by cases m <;> rfl
  have hn : ((w.leaders i).handleMessageOutsidePBFT .clpa m).Keeps S maps w.worth i := by
    have hi := hw.leaders i
    cases m with
    | accountStateAndTx at' =>
      refine ⟨hi.book, hi.current, hi.proposed, fun j at'' hat => ?_, hi.transfer, hi.fresh⟩
      have hlook : (Finmap.insert at'.fromShard at' (w.leaders i).cdm.accountStateTx).lookup j =
        some at'' := hat
      by_cases hj : j = at'.fromShard
      · rw [hj, Finmap.lookup_insert] at hlook
        obtain rfl := Option.some.inj hlook
        exact ⟨hj.symm, hw.net i _ (List.mem_of_getElem? hk)⟩
      · rw [Finmap.lookup_insert_of_ne _ hj] at hlook
        exact hi.collected j at'' hlook
    | _ => exact hi.of_frame _ rfl rfl rfl rfl (.inl rfl)
  have hnet := fun d at' (hmem : (d, ShardMsg.accountStateAndTx at') ∈ w.net.eraseIdx k) =>
    List.mem_of_mem_eraseIdx hmem
  refine ⟨(forall_leaders_after (p := fun j m => m.Keeps S maps w.worth j)).2
    ⟨hn, fun j _ => hw.leaders j⟩, ?_⟩
  refine (forall_leaders_after (p := fun d n => ∀ at',
    (d.val, ShardMsg.accountStateAndTx at') ∈ w.net.eraseIdx k →
      Brings S maps w.worth n.cdm.accountTransferRound d at')).2
    ⟨fun at' hmem => ?_, fun d _ at' hmem => hw.net d at' (hnet d at' hmem)⟩
  rw [hround]
  exact hw.net i at' (hnet i at' hmem)

/-- A leader has installed the accounts of a round; none are on their way to it. -/
theorem Books.commitPartition (hw : Books maps w) (hag : Agreed maps w) (hS : 0 < S) {i : Fin S}
    {atm : AccountTransferMsg} {bc : BlockChain H}
    (hphase : (w.leaders i).phase = .proposed (.partition atm))
    (hdo : (w.leaders i).curChain.accountTransferDo atm = some bc) :
    Books maps (w.after i ((w.leaders i).commitPartition atm) []) where
  leaders := (forall_leaders_after (p := fun j m => m.Keeps S maps w.worth j)).2
    ⟨(hw.leaders i).commitPartition (hag.leaders i) (hag.shardID i)
      (homeAfter_lt hag.within hS _) hphase hdo, fun j _ => hw.leaders j⟩
  net := by
    show ∀ d : Fin S, ∀ at', (d.val, ShardMsg.accountStateAndTx at') ∈ w.net ++ [] → _
    rw [List.append_nil]
    refine (forall_leaders_after (p := fun d m => ∀ at',
      (d.val, ShardMsg.accountStateAndTx at') ∈ w.net →
        Brings S maps w.worth m.cdm.accountTransferRound d at')).2 ⟨?_, fun d _ => hw.net d⟩
    intro at' hmem
    obtain ⟨sent, got, hr⟩ := hag.rounds
    obtain ⟨-, hwaits, -⟩ := AtBarrier.accounts_awaited ⟨_, sent, got, hr⟩ hmem
    rcases hwaits with hwaits | hwaits
    · exact absurd (hphase.symm.trans hwaits) (by simp)
    · exact absurd (hphase.symm.trans hwaits) (by simp)

/-- A block is part of the worth of the accounts it debits and credits. -/
theorem worth_commitBlock {i : Fin S} {b : Block H} (hadd : (w.leaders i).curChain.addBlock b ≠ none)
    (a : Address) : (w.commitBlock i b).worth a = w.worth a -
      outflow a ((w.leaders i).curChain.atTurnOf debits b) +
      inflow a ((w.leaders i).curChain.atTurnOf credits b) := by
  have hlog : (w.commitBlock i b).log = Function.update w.log i
      ((w.log i).add (w.leaders i).curChain b ((w.leaders i).commitBlock b).1.alive) := by
    show Function.update w.log i (if (w.leaders i).curChain.addBlock b = none then _ else _) = _
    rw [if_neg hadd]
  have hout := sum_update_add w.log (fun l => outflow a l.debited) i
    ((w.log i).add (w.leaders i).curChain b ((w.leaders i).commitBlock b).1.alive)
  have hin := sum_update_add w.log (fun l => inflow a l.credited) i
    ((w.log i).add (w.leaders i).curChain b ((w.leaders i).commitBlock b).1.alive)
  simp only [ShardLog.add, outflow_append, inflow_append] at hout hin
  rw [worth, worth, hlog]
  simp only [ShardLog.add]
  linarith

/-- It does not concern other accounts. -/
theorem worth_commitBlock_of_not_owns (hag : Agreed maps w) {i : Fin S} {b : Block H}
    (hord : ∀ t ∈ b.body, t.Ordinary) (hphase : (w.leaders i).phase = .proposed (.block b))
    (hadd : (w.leaders i).curChain.addBlock b ≠ none) {a : Address}
    (ha : ¬ (w.leaders i).Owns S maps i a) : (w.commitBlock i b).worth a = w.worth a := by
  have hstage : (w.leaders i).stage < 2 := by simp [Leader.stage, hphase]
  rw [Leader.owns_iff_isLocal (hag.leaders i) (hag.shardID i) (hag.shardNums i) hstage] at ha
  rw [worth_commitBlock hadd, outflow_eq_zero, inflow_eq_zero, sub_zero, add_zero]
  · rintro t ht rfl
    obtain ⟨hmem, st, hcredits⟩ := BlockChain.of_mem_atTurnOf ht
    simp only [credits, (hord t hmem).hasBroker, Bool.or_false, Bool.and_eq_true] at hcredits
    exact ha hcredits.2
  · rintro t ht rfl
    obtain ⟨hmem, st, hdebits⟩ := BlockChain.of_mem_atTurnOf ht
    simp only [debits, takesSender, (hord t hmem).hasBroker, Bool.or_false, Bool.and_eq_true] at hdebits
    exact ha hdebits.1.1.2

/-- **A block is committed**: it changes the worth of accounts that its leader answers for, and nobody
    else has these or will receive them. -/
theorem Books.commitBlock (hw : Books maps w) (hag : Agreed maps w) {i : Fin S} {b : Block H}
    (hord : ∀ t ∈ b.body, t.Ordinary) (hphase : (w.leaders i).phase = .proposed (.block b))
    (halive : ((w.leaders i).commitBlock b).1.alive = true) : Books maps (w.commitBlock i b) := by
  have hb := Leader.mem_proposedBlock.2 hphase
  have hstage : (w.leaders i).stage = 0 := by simp [Leader.stage, hphase]
  obtain ⟨hext, st, hst, -⟩ := (hw.leaders i).proposed b hb
  have hadd := BlockChain.addBlock_of_known hext hst
  have hsome : (w.leaders i).curChain.addBlock b ≠ none := by simp [hadd]
  obtain ⟨pool, hnew⟩ := Leader.commitBlock_of_alive hadd halive
  have hother : ∀ a, ¬ (w.leaders i).Owns S maps i a → (w.commitBlock i b).worth a = w.worth a :=
    fun a => worth_commitBlock_of_not_owns hag hord hphase hsome
  have htransit : ∀ (d : Fin S), ∀ j ∈ (w.leaders d).cdm.accountStateTx, ∀ a,
      homeAfter S maps (w.leaders d).cdm.accountTransferRound a = j →
      homeAfter S maps ((w.leaders d).cdm.accountTransferRound + 1) a = d → d.val ≠ j →
        (w.commitBlock i b).worth a = w.worth a := by
    intro d j hj a hleaves harrives _
    obtain ⟨j', rfl, hne, hsent⟩ := hag.sent_of_collected hj
    exact hother a (hag.not_owns_of_inTransit ⟨hne, hleaves, harrives, hsent⟩)
  constructor
  · refine (forall_leaders_after (p := fun j m => m.Keeps S maps (w.commitBlock i b).worth j)).2
      ⟨?_, fun d hd => ?_⟩
    · rw [hnew]
      exact (hw.leaders i).appended hb hstage pool (fun a _ => worth_commitBlock hsome a) (htransit i)
    · refine (hw.leaders d).congr_worth (fun a ha => ?_) ?_ (htransit d)
      · exact hother a fun ha' => hd (hag.owner_unique ha ha')
      · intro h3 j hj hjd
        obtain ⟨sent, got, hr⟩ := hag.rounds
        exact Finmap.mem_keys.1 ((hr.hears d).allStates h3.ge
          (Finset.mem_erase.2 ⟨hjd, Finset.mem_range.2 hj⟩))
  · have hnone : ∀ d at', (d, ShardMsg.accountStateAndTx at') ∉ ((w.leaders i).commitBlock b).2 := by
      intro d at' hmem
      obtain ⟨bc, -, -, -, h | ⟨-, h⟩⟩ := (w.leaders i).commitBlock_cases b
      · rw [h] at hmem
        exact absurd hmem (by simp)
      · rw [h] at hmem
        obtain ⟨sid, -, heq⟩ := List.mem_map.1 hmem
        exact absurd heq (by simp)
    have hall : ∀ d : Fin S, ∀ at',
        (d.val, ShardMsg.accountStateAndTx at') ∈ w.net ++ ((w.leaders i).commitBlock b).2 →
          Brings S maps (w.commitBlock i b).worth (w.leaders d).cdm.accountTransferRound d at' := by
      intro d at' hmem
      rcases List.mem_append.1 hmem with hold | hmsg
      · obtain ⟨j, hj, hne, hsent⟩ := hag.sent_of_mem_net hold
        refine (hw.net d at' hold).congr_worth fun a hleaves harrives _ => hother a ?_
        exact hag.not_owns_of_inTransit ⟨hne, hleaves.trans hj.symm, harrives, hsent⟩
      · exact absurd hmsg (hnone d at')
    refine (forall_leaders_after (p := fun d m => ∀ at',
      (d.val, ShardMsg.accountStateAndTx at') ∈ w.net ++ ((w.leaders i).commitBlock b).2 →
        Brings S maps (w.commitBlock i b).worth m.cdm.accountTransferRound d at')).2
      ⟨?_, fun d _ => hall d⟩
    rw [hnew]
    exact hall i

/-- **Every account keeps its worth**, as long as no process ends. -/
theorem Books.step (hw : Books maps w) (hag : Agreed maps w) (hag' : Agreed (maps ++ a.mapsSent) w')
    (hcons : w.Consistent) (hord : Everywhere (fun _ t => t.Ordinary) w) (hS : 0 < S)
    (h : w.step .clpa a = some w') (halive : ∀ i, (w'.leaders i).alive = true) :
    Books (maps ++ a.mapsSent) w' := by
  have hsame : Books maps w' → Books (maps ++ []) w' := fun hw' => (List.append_nil maps).symm ▸ hw'
  have hself : ∀ {i : Fin S} {n : Leader H} {msgs : List (ℕ × ShardMsg)},
      w' = w.after i n msgs → n.alive = true := by
    rintro i n msgs rfl
    have hi := halive i
    rwa [show (w.after i n msgs).leaders i = n from Function.update_self ..] at hi
  cases steps_of_step h with
  | txSending count =>
    refine hsame ⟨hw.leaders, fun i at' hmem => ?_⟩
    rcases List.mem_append.1 hmem with hold | hnew
    · exact hw.net i at' hold
    · obtain ⟨sid, -, heq⟩ := List.mem_map.1 hnew
      exact absurd heq (by simp)
  | clpaMapSend m =>
    refine ⟨fun i => (hw.leaders i).append (hag.leaders i) _, fun i at' hmem => ?_⟩
    rcases List.mem_append.1 hmem with hold | hnew
    · exact (hw.net i at' hold).append _
    · obtain ⟨sid, -, heq⟩ := List.mem_map.1 hnew
      exact absurd heq (by simp)
  | deliver hk => exact hsame (hw.deliver hk)
  | proposePanics => exact absurd (hself rfl) (by simp [Leader.crash])
  | @proposeBlock i _ _ _ _ hphase hgen =>
    exact hsame (hw.after ((hw.leaders i).proposeBlock hphase (hord.leaders i).queue hgen) rfl (by simp))
  | @sendPartitionReady i _ hphase =>
    refine hsame (hw.after ((hw.leaders i).of_frame _ rfl rfl rfl rfl (.inr ⟨?_, ?_, ?_, rfl⟩)) rfl ?_)
    · simp [Leader.stage, hphase]
    · simp [Leader.stage, hphase]
    · simp [Leader.stage, Leader.sendPartitionReady]
    · intro d at' hmem
      obtain ⟨sid, -, heq⟩ := List.mem_map.1 hmem
      exact absurd heq (by simp)
  | @sendAccountsAndTxs i order n msgs hphase hsend =>
    obtain ⟨hround, hstage⟩ : n.cdm.accountTransferRound = (w.leaders i).cdm.accountTransferRound ∧
        n.stage = 2 := by
      have hlive := hself rfl
      rcases Leader.sendAccountsAndTxs_cases hsend with ⟨-, rfl, -⟩ | ⟨-, -, -, -, -, -, -, rfl, -⟩
      · exact absurd hlive (by simp [Leader.crash])
      · exact ⟨rfl, rfl⟩
    obtain ⟨hn, hmsgs⟩ := (hw.leaders i).sendAccountsAndTxs (hag.leaders i) (hag.shardID i)
      (hag.shardNums i) hphase hsend
    refine hsame (hw.after hn hround fun d at' hmem => ?_)
    obtain ⟨hne, hbrings⟩ := hmsgs d at' hmem
    rw [hag.same_round hag' hround (by simp [Leader.stage, hphase]) hstage.ge
      fun he => hne (congrArg Fin.val he)]
    exact hbrings
  | @proposePartition i shards addrs n hphase hover hprop =>
    obtain ⟨sent, got, hr⟩ := hag.rounds
    have hkeys : ∀ j, j ∈ (w.leaders i).cdm.accountStateTx ↔ j < S ∧ j ≠ i := by
      intro j
      have hset := ((hr.hears i).others).antisymm ((hr.hears i).collectOver hover)
      rw [← Finmap.mem_keys, hset, Finset.mem_erase, Finset.mem_range, and_comm]
    have hrec := (hcons.leaders i).receivedNewTx (by simp [Leader.stage, hphase])
    refine hsame (hw.after ((hw.leaders i).proposePartition (hag.leaders i) (hag.shardID i) hrec hkeys
      hphase hprop) ?_ (by simp))
    obtain ⟨r, -, -, -, -, ⟨rfl, -⟩ | ⟨m, -, rfl⟩⟩ := Leader.proposePartition_cases hprop <;> rfl
  | @commitBlock i b _ hphase =>
    have hi := halive i
    rw [show (w.commitBlock i b).leaders i = ((w.leaders i).commitBlock b).1 from
      Function.update_self ..] at hi
    exact hsame (hw.commitBlock hag ((hord.leaders i).proposed b hphase) hphase hi)
  | @commitPartition i atm hphase =>
    cases hdo : (w.leaders i).curChain.accountTransferDo atm with
    | none =>
      have hdead := hself rfl
      rw [Leader.commitPartition, hdo] at hdead
      exact absurd hdead (by simp [Leader.crash])
    | some bc => exact hsame (hw.commitPartition hag hS hphase hdo)

end Step

end ShardWorld

end BlockEmulator
