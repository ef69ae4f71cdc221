import BlockEmulator.Lib.Counting
import BlockEmulator.Shard.Bets

set_option autoImplicit false

/-! # Migration

One repartitioning of the CLPA module: every leader sends away the accounts that a modified map takes
from its shard, with the transactions that wait for them, collects what the others send, and proposes
and commits the transfer. A message carries the accounts that move from one shard to another, each
with the state it has at home; the order in which Go maps are visited and messages arrive does not
matter for what is carried. So each account is installed where it belongs, whatever stale copies the
tries hold, and the pools are redistributed without loss. -/

namespace BlockEmulator

variable {H : Type} [DecidableEq H] [Hashing H] {S : ℕ}

/-! ## Homes -/

/-- Where an account lives under a partition map. -/
def homeUnder (S : ℕ) (M : ShardMap) (a : Address) : ℕ := (M.lookup a).getD (addr2Shard S a)

theorem homeUnder_union (S : ℕ) (D M : ShardMap) (a : Address) :
    homeUnder S (D ∪ M) a = (D.lookup a).getD (homeUnder S M a) := by
  unfold homeUnder
  cases h : D.lookup a with
  | some i =>
    rw [Finmap.lookup_union_left (Finmap.mem_iff.2 ⟨i, h⟩), h]
    rfl
  | none =>
    rw [Finmap.lookup_union_right (Finmap.lookup_eq_none.1 h)]
    rfl

/-- The modified map `D` moves the account from shard `j` to shard `i`. -/
def Moves (S : ℕ) (M D : ShardMap) (j i : ℕ) (a : Address) : Prop :=
  D.lookup a = some i ∧ homeUnder S M a = j ∧ i ≠ j

instance (S : ℕ) (M D : ShardMap) (j i : ℕ) (a : Address) : Decidable (Moves S M D j i a) :=
  inferInstanceAs (Decidable (_ ∧ _ ∧ _))

section Homes

variable {M D : ShardMap} {a : Address} {i j : ℕ}

theorem moves_iff (hj : homeUnder S M a = j) (hne : i ≠ j) :
    Moves S M D j i a ↔ homeUnder S (D ∪ M) a = i := by
  rw [homeUnder_union, hj]
  cases hD : D.lookup a with
  | none => simp [Moves, hD, hne.symm]
  | some k => simp [Moves, hD, hj, hne]

/-- An account that does not move belongs where it was. -/
theorem homeUnder_of_not_moves (h : ∀ j < S, ¬ Moves S M D j i a)
    (hi : homeUnder S (D ∪ M) a = i) (hlt : homeUnder S M a < S) : homeUnder S M a = i := by
  by_contra hne
  exact h _ hlt ((moves_iff rfl (Ne.symm hne)).2 hi)

theorem homeUnder_union_lt (hD : ∀ a k, D.lookup a = some k → k < S) (h : homeUnder S M a < S) :
    homeUnder S (D ∪ M) a < S := by
  rw [homeUnder_union]
  cases hk : D.lookup a with
  | none => exact h
  | some k => exact hD a k hk

end Homes

/-- The account whose shard a transaction waits in. -/
def Transaction.key (tx : Transaction) : Address := if tx.relayed then tx.recipient else tx.sender

/-! ## What one leader sends -/

namespace Leader

theorem goesAlong_eq (addrs : List Address) (tx : Transaction) :
    goesAlong addrs tx = decide (tx.key ∈ addrs) := by
  unfold goesAlong Transaction.key
  cases tx.relayed <;> simp

/-- The fetched accounts that go to shard `i`. -/
def sentTo (m : ShardMap) (fetched : List (Address × AccountState)) (i : ℕ) :
    List (Address × AccountState) :=
  fetched.filter fun p => (m.lookup p.1).getD 0 = i

/-- The message with what goes to one shard. -/
def transferMsg (shardID : ℕ) (send : List (Address × AccountState)) (txs : List Transaction) :
    AccountStateAndTx where
  addrs := send.map Prod.fst
  accountState := send.map Prod.snd
  fromShard := shardID
  txs := txs

/-- The loop over the destinations scatters the queue. -/
theorem sendAccountsLoop_eq (shardID : ℕ) (m : ShardMap) (fetched : List (Address × AccountState))
    (sids : List ℕ) (queue : List Transaction) :
    sendAccountsLoop shardID m fetched sids queue =
      let r := scatter (fun i => goesAlong ((sentTo m fetched i).map Prod.fst))
        (sids.filter fun i => i ≠ shardID) queue
      (r.1, r.2.map fun p =>
        (p.1, .accountStateAndTx (transferMsg shardID (sentTo m fetched p.1) p.2))) := by
  induction sids generalizing queue with
  | nil => rfl
  | cons i sids ih =>
    by_cases hi : i = shardID
    · rw [sendAccountsLoop, if_pos hi, ih, List.filter_cons_of_neg (by simpa using hi)]
    · rw [sendAccountsLoop_cons hi, List.filter_cons_of_pos (by simpa using hi)]
      simp only [ih, scatter, sentTo, transferMsg, List.map_cons]

/-- An account goes along with one destination only. -/
theorem eq_of_goesAlong {m : ShardMap} {fetched : List (Address × AccountState)} {i j : ℕ}
    {tx : Transaction} (hi : goesAlong ((sentTo m fetched i).map Prod.fst) tx = true)
    (hj : goesAlong ((sentTo m fetched j).map Prod.fst) tx = true) : i = j := by
  have hdest : ∀ {k}, goesAlong ((sentTo m fetched k).map Prod.fst) tx = true →
      (m.lookup tx.key).getD 0 = k := by
    intro k hk
    rw [goesAlong_eq, decide_eq_true_eq] at hk
    obtain ⟨p, hp, hkey⟩ := List.mem_map.1 hk
    have hfilter := (List.mem_filter.1 hp).2
    rw [hkey] at hfilter
    exact of_decide_eq_true hfilter
  exact (hdest hi).symm.trans (hdest hj)

/-- What a message from shard `j` to shard `i` carries: the accounts that `D` moves there, with the
    states `f`, and the transactions of the queue that wait for them. -/
structure Carries (S : ℕ) (M D : ShardMap) (f : Address → AccountState) (queue : List Transaction)
    (j i : ℕ) (at' : AccountStateAndTx) : Prop where
  fromShard : at'.fromShard = j
  addrs : ∀ a, a ∈ at'.addrs ↔ Moves S M D j i a
  accountState : at'.accountState = at'.addrs.map f
  txs : at'.txs = queue.filter fun tx => Moves S M D j i tx.key

section Send

variable {M D : ShardMap} {j : ℕ} {order : List Address} {f : Address → AccountState}

/-- The fetched accounts for one destination, in the order given. -/
theorem sentTo_map (D : ShardMap) (order : List Address) (f : Address → AccountState) (i : ℕ) :
    sentTo D (order.map fun a => (a, f a)) i =
      (order.filter fun a => (D.lookup a).getD 0 = i).map fun a => (a, f a) := by
  rw [sentTo, List.filter_map]
  rfl

theorem sentTo_addrs (D : ShardMap) (order : List Address) (f : Address → AccountState) (i : ℕ) :
    (sentTo D (order.map fun a => (a, f a)) i).map Prod.fst =
      order.filter fun a => (D.lookup a).getD 0 = i := by
  rw [sentTo_map, List.map_map]
  exact List.map_id _

variable (hmem : ∀ i, i ≠ j → ∀ a, a ∈ order ∧ (D.lookup a).getD 0 = i ↔ Moves S M D j i a)

include hmem in
theorem goesAlong_sentTo {i : ℕ} (hi : i ≠ j) (tx : Transaction) :
    goesAlong ((sentTo D (order.map fun a => (a, f a)) i).map Prod.fst) tx =
      decide (Moves S M D j i tx.key) := by
  rw [goesAlong_eq, sentTo_addrs, decide_eq_decide, List.mem_filter, decide_eq_true_eq]
  exact hmem i hi tx.key

include hmem in
/-- The queue is left with the transactions of accounts that do not move. -/
theorem sendAccountsLoop_fst (queue : List Transaction) :
    (sendAccountsLoop j D (order.map fun a => (a, f a)) (List.range S) queue).1 =
      queue.filter fun tx => ∀ i < S, ¬ Moves S M D j i tx.key := by
  rw [sendAccountsLoop_eq]
  simp only [scatter_fst]
  refine List.filter_congr ?_
  intro tx _
  rw [Bool.eq_iff_iff]
  simp only [decide_eq_true_eq, List.all_eq_true, List.mem_filter, List.mem_range,
    Bool.not_eq_true']
  constructor
  · intro hstay i hi hmoves
    have hfalse := hstay i ⟨hi, hmoves.2.2⟩
    rw [goesAlong_sentTo hmem hmoves.2.2, decide_eq_false_iff_not] at hfalse
    exact hfalse hmoves
  · rintro hstay i ⟨hi, hne⟩
    rw [goesAlong_sentTo hmem hne, decide_eq_false_iff_not]
    exact hstay i hi

include hmem in
/-- Every other shard gets what moves there. -/
theorem sendAccountsLoop_snd {queue : List Transaction} {p : ℕ × ShardMsg}
    (hp : p ∈ (sendAccountsLoop j D (order.map fun a => (a, f a)) (List.range S) queue).2) :
    p.1 < S ∧ p.1 ≠ j ∧ ∃ at', p.2 = .accountStateAndTx at' ∧ Carries S M D f queue j p.1 at' := by
  rw [sendAccountsLoop_eq] at hp
  obtain ⟨⟨i, txs⟩, hpart, rfl⟩ := List.mem_map.1 hp
  have hparts : (scatter (fun i => goesAlong
      ((sentTo D (order.map fun a => (a, f a)) i).map Prod.fst))
      ((List.range S).filter fun i => i ≠ j) queue).2 = _ :=
    scatter_snd_of_disjoint (List.nodup_range.filter _) fun _ _ _ _ _ => eq_of_goesAlong
  rw [hparts] at hpart
  obtain ⟨i', hi', heq⟩ := List.mem_map.1 hpart
  obtain ⟨rfl, rfl⟩ := Prod.mk.inj heq
  obtain ⟨hlt, hne⟩ := List.mem_filter.1 hi'
  have hne : i' ≠ j := by simpa using hne
  refine ⟨List.mem_range.1 hlt, hne, _, rfl, rfl, ?_, ?_, ?_⟩
  · intro a
    rw [transferMsg, sentTo_addrs, List.mem_filter, decide_eq_true_eq]
    exact hmem i' hne a
  · rw [transferMsg, sentTo_map, List.map_map, List.map_map, List.map_map]
    rfl
  · exact List.filter_congr fun tx _ => goesAlong_sentTo hmem hne tx

end Send

/-- The accounts to fetch are those that move to another shard. -/
theorem mem_accountToFetch {n : Leader H} {M D : ShardMap} (hnums : n.shardNums = S)
    (hmap : n.curChain.partitionMap = M) {i : ℕ} (hi : i ≠ n.shardID) (a : Address) :
    a ∈ n.accountToFetch D ∧ (D.lookup a).getD 0 = i ↔ Moves S M D n.shardID i a := by
  have hhome : n.curChain.getPartitionMap a = homeUnder S M a := by
    rw [BlockChain.getPartitionMap, hmap, homeUnder, ← hnums]
    rfl
  rw [accountToFetch, Finset.mem_filter, Finmap.mem_keys, Finmap.mem_iff, hhome]
  constructor
  · rintro ⟨⟨⟨k, hk⟩, -, hh⟩, hget⟩
    rw [hk, Option.getD_some] at hget
    exact ⟨hk.trans (congrArg some hget), hh, hi⟩
  · rintro ⟨hlook, hh, -⟩
    rw [hlook, Option.getD_some]
    exact ⟨⟨⟨i, rfl⟩, hi, hh⟩, rfl⟩

/-- **`sendAccounts_and_Txs`.** The transactions of moved accounts leave the queue, and every other
    shard is sent what moves there. -/
theorem sendAccountsAndTxs_spec {n n' : Leader H} {order : List Address}
    {msgs : List (ℕ × ShardMsg)} {M D : ShardMap} {st : Accounts} (hnums : n.shardNums = S)
    (hmap : n.curChain.partitionMap = M) (hlast : n.cdm.modifiedMap.getLast? = some D)
    (hst : n.curChain.accounts = some st) (h : n.sendAccountsAndTxs order = some (n', msgs)) :
    n' = { n with
        curChain := { n.curChain with txpool := { n.curChain.txpool with
          txQueue := n.curChain.txpool.txQueue.filter fun tx =>
            ∀ i < S, ¬ Moves S M D n.shardID i tx.key } }
        phase := .waitCollect } ∧
      ∀ p ∈ msgs, p.1 < S ∧ p.1 ≠ n.shardID ∧ ∃ at', p.2 = .accountStateAndTx at' ∧
        Carries S M D (fun a => st.getOrNew a 0) n.curChain.txpool.txQueue n.shardID p.1 at' := by
  have hfetched := BlockChain.fetchAccounts_eq hst order
  rcases sendAccountsAndTxs_cases h with
    ⟨hnone, -⟩ | ⟨m, asFetched, r, hm, horder, hfetch, rfl, rfl, rfl⟩
  · simp [hlast, hfetched] at hnone
  obtain rfl : D = m := Option.some.inj (hlast.symm.trans hm)
  obtain rfl := Option.some.inj (hfetched.symm.trans hfetch)
  have hmem : ∀ i, i ≠ n.shardID → ∀ a, a ∈ order ∧ (D.lookup a).getD 0 = i ↔
      Moves S M D n.shardID i a := by
    intro i hi a
    rw [← List.mem_toFinset, horder]
    exact mem_accountToFetch hnums hmap hi a
  rw [← List.map_prod_left_eq_zip, hnums, sendAccountsLoop_fst hmem]
  exact ⟨rfl, fun p hp => sendAccountsLoop_snd hmem hp⟩

/-! ## What one leader collects and installs -/

section Receive

variable {M D : ShardMap} {f g : Address → AccountState} {i : ℕ}

/-- The states matter for the accounts that move only. -/
theorem Carries.congr {queue : List Transaction} {j : ℕ} {at' : AccountStateAndTx}
    (h : Carries S M D f queue j i at') (hfg : ∀ a, Moves S M D j i a → f a = g a) :
    Carries S M D g queue j i at' := by
  refine ⟨h.fromShard, h.addrs, ?_, h.txs⟩
  rw [h.accountState]
  exact List.map_congr_left fun a ha => hfg a ((h.addrs a).1 ha)

theorem lookup_foldl_insert (addrs : List Address) (f : Address → AccountState) (st : Accounts)
    (a : Address) :
    ((addrs.zip (addrs.map f)).foldl (fun st p => Finmap.insert p.1 p.2 st) st).lookup a =
      if a ∈ addrs then some (f a) else st.lookup a := by
  induction addrs generalizing st with
  | nil => rfl
  | cons b addrs ih =>
    rw [List.map_cons, List.zip_cons_cons, List.foldl_cons, ih]
    by_cases hmem : a ∈ addrs
    · simp [hmem]
    · by_cases hb : a = b
      · subst hb
        simp [hmem]
      · simp [hmem, hb]

/-- The accounts and transactions collected from the given shards. -/
theorem collectReceived_spec {n : Leader H} {q : ℕ → List Transaction} {shards : List ℕ}
    (hstored : ∀ j ∈ shards, ∃ at', n.cdm.accountStateTx.lookup j = some at' ∧
      Carries S M D f (q j) j i at') (acc : Accounts × List Transaction) :
    (∀ a, (n.collectReceived shards acc).1.lookup a =
      if ∃ j ∈ shards, Moves S M D j i a then some (f a) else acc.1.lookup a) ∧
    (n.collectReceived shards acc).2 =
      acc.2 ++ shards.flatMap fun j => (q j).filter fun tx => Moves S M D j i tx.key := by
  induction shards generalizing acc with
  | nil => simp [collectReceived]
  | cons j shards ih =>
    obtain ⟨hj, hrest⟩ := List.forall_mem_cons.1 hstored
    obtain ⟨at', hlook, hcar⟩ := hj
    rw [collectReceived, hlook]
    simp only
    obtain ⟨hacc, htxs⟩ := ih hrest
      ((at'.addrs.zip at'.accountState).foldl (fun st p => Finmap.insert p.1 p.2 st) acc.1,
        acc.2 ++ at'.txs)
    constructor
    · intro a
      rw [hacc a, hcar.accountState, lookup_foldl_insert]
      by_cases hex : ∃ k ∈ shards, Moves S M D k i a
      · rw [if_pos hex, if_pos (hex.imp fun k hk => ⟨List.mem_cons_of_mem _ hk.1, hk.2⟩)]
      · simp only [hcar.addrs, List.mem_cons, exists_eq_or_imp, hex, or_false, if_false]
    · rw [htxs, hcar.txs, List.flatMap_cons, List.append_assoc]

/-- What an account transfer to shard `i` installs. -/
structure Installs (S : ℕ) (M D : ShardMap) (f : Address → AccountState) (i : ℕ)
    (atm : AccountTransferMsg) : Prop where
  modifiedMap : atm.modifiedMap = D
  addrs : ∀ a, a ∈ atm.addrs ↔ ∃ j < S, Moves S M D j i a
  accountState : atm.accountState = atm.addrs.map f

/-- **`proposePartition`**, once all other shards have sent their part: no transaction is in the wrong
    place, the pool gets what has arrived, and the proposal installs what moves here. -/
theorem proposePartition_spec {n n' : Leader H} {q : ℕ → List Transaction} {shards : List ℕ}
    {addrs : List Address} (hid : n.shardID = i)
    (hmap : n.cdm.modifiedMap[n.cdm.accountTransferRound]? = some D)
    (hacc : n.cdm.receivedNewAccountState = ∅) (htx : n.cdm.receivedNewTx = [])
    (hkeys : ∀ j, j ∈ n.cdm.accountStateTx ↔ j < S ∧ j ≠ i)
    (hstored : ∀ j at', n.cdm.accountStateTx.lookup j = some at' →
      Carries S M D f (q j) j i at')
    (h : n.proposePartition shards addrs = some n') :
    shards.Perm ((List.range S).filter fun j => j ≠ i) ∧ n'.alive = n.alive ∧
      n'.curChain = (n.addTxs2Pool
        (shards.flatMap fun j => (q j).filter fun tx => Moves S M D j i tx.key)).curChain ∧
      n'.cdm.accountTransferRound = n.cdm.accountTransferRound ∧
      ∃ atm, n'.phase = .proposed (.partition atm) ∧ Installs S M D f i atm := by
  obtain ⟨r, hr, hnodup, hshards, haddrs, h⟩ := proposePartition_cases h
  rw [hacc, htx] at hr
  subst hr
  have hmem : ∀ j, j ∈ shards ↔ j < S ∧ j ≠ i := by
    intro j
    rw [← List.mem_toFinset, hshards, Finmap.mem_keys, hkeys]
  have hall : ∀ j ∈ shards, ∃ at', n.cdm.accountStateTx.lookup j = some at' ∧
      Carries S M D f (q j) j i at' := by
    intro j hj
    obtain ⟨at', hlook⟩ := Finmap.mem_iff.1 ((hkeys j).2 ((hmem j).1 hj))
    exact ⟨at', hlook, hstored j at' hlook⟩
  obtain ⟨hlook, htxs⟩ := collectReceived_spec hall (∅, [])
  rw [List.nil_append] at htxs
  have hok : (n.collectReceived shards (∅, [])).2.all (n.receivedTxOk D) = true := by
    rw [htxs, List.all_eq_true]
    intro tx hx
    obtain ⟨j, -, hfilter⟩ := List.mem_flatMap.1 hx
    have hmoves : Moves S M D j i tx.key := of_decide_eq_true (List.mem_filter.1 hfilter).2
    have hdest := hmoves.1
    rw [receivedTxOk, hid]
    cases hr : tx.relayed with
    | true =>
      rw [Transaction.key, if_pos hr] at hdest
      simp [hdest]
    | false =>
      rw [Transaction.key, if_neg (by simp [hr])] at hdest
      simp [hdest]
  rcases h with ⟨-, hwrong⟩ | ⟨m, hm, rfl⟩
  · exact absurd hok (by simp [hwrong D hmap])
  obtain rfl : D = m := Option.some.inj (hmap.symm.trans hm)
  have hex : ∀ a, (∃ j ∈ shards, Moves S M D j i a) ↔ ∃ j < S, Moves S M D j i a := by
    intro a
    constructor
    · exact fun ⟨j, hj, hm⟩ => ⟨j, ((hmem j).1 hj).1, hm⟩
    · exact fun ⟨j, hj, hm⟩ => ⟨j, (hmem j).2 ⟨hj, hm.2.2.symm⟩, hm⟩
  have hin : ∀ a, a ∈ addrs ↔ ∃ j < S, Moves S M D j i a := by
    intro a
    rw [← List.mem_toFinset, haddrs, Finmap.mem_keys, ← Finmap.lookup_isSome, hlook, ← hex]
    split
    · next hm => simpa using hm
    · next hm => simpa using hm
  refine ⟨?_, rfl, by simp only [addTxs2Pool, htxs], rfl, _, rfl, rfl, hin, ?_⟩
  · refine (List.perm_ext_iff_of_nodup hnodup (List.nodup_range.filter _)).2 fun j => ?_
    rw [hmem, List.mem_filter, List.mem_range, decide_eq_true_eq]
  · refine List.map_congr_left fun a ha => ?_
    rw [Accounts.getOrNew, hlook, if_pos ((hex a).2 ((hin a).1 ha))]
    rfl

/-- **`accountTransfer_do`** on the chain: the new homes, and the accounts that have moved here. -/
theorem accountTransferDo_spec {bc : BlockChain H} {st : Accounts} {atm : AccountTransferMsg}
    (hatm : Installs S M D f bc.chainConfig.shardID atm) (hmap : bc.partitionMap = M)
    (hst : bc.accounts = some st) :
    ∃ bc' st', bc.accountTransferDo atm = some bc' ∧ bc'.partitionMap = D ∪ M ∧
      bc'.txpool = bc.txpool ∧ bc'.accounts = some st' ∧ ∀ a, st'.lookup a =
        if ∃ j < S, Moves S M D j bc.chainConfig.shardID a then some (f a) else st.lookup a := by
  let bc₁ : BlockChain H := { bc with partitionMap := D ∪ M }
  have hmoved : ∀ a, a ∈ atm.addrs → bc₁.getPartitionMap a = bc.chainConfig.shardID := by
    intro a ha
    obtain ⟨j, -, hm⟩ := (hatm.addrs a).1 ha
    exact (homeUnder_union _ _ _ a).trans (by rw [hm.1, Option.getD_some])
  have hst₁ : bc₁.accounts = some st := hst
  obtain ⟨bc', st', hadd, hacc, hpool, hlook⟩ := BlockChain.addAccounts_map hst₁ atm.addrs f
  have hkeep : bc'.partitionMap = D ∪ M := by
    obtain ⟨db, root, heq, -, -⟩ := BlockChain.addAccounts_cases hadd
    rw [heq]
    rfl
  refine ⟨bc', st', ?_, hkeep, hpool, hacc, fun a => ?_⟩
  · rw [BlockChain.accountTransferDo, hatm.modifiedMap, hmap, hatm.accountState, hadd]
  · rw [hlook a]
    by_cases ha : a ∈ atm.addrs
    · rw [if_pos ⟨ha, hmoved a ha⟩, if_pos ((hatm.addrs a).1 ha)]
    · rw [if_neg fun hc => ha hc.1, if_neg fun hc => ha ((hatm.addrs a).2 hc)]

end Receive

end Leader

/-! ## The whole migration -/

namespace ShardWorld

/-- The queue of a shard's pool. -/
def queueAt (w : ShardWorld H S) (sid : ℕ) : List Transaction :=
  if h : sid < S then (w.leaders ⟨sid, h⟩).curChain.txpool.txQueue else []

/-- The state of an account in a shard's trie; one that is missing is new. -/
def stateAt (w : ShardWorld H S) (sid : ℕ) (a : Address) : AccountState :=
  if h : sid < S then ((w.leaders ⟨sid, h⟩).curChain.accounts.getD ∅).getOrNew a 0
  else Accounts.getOrNew ∅ a 0

theorem queueAt_val (w : ShardWorld H S) (i : Fin S) :
    w.queueAt i = (w.leaders i).curChain.txpool.txQueue :=
  dif_pos i.isLt

theorem stateAt_val (w : ShardWorld H S) (i : Fin S) (a : Address) :
    w.stateAt i a = ((w.leaders i).curChain.accounts.getD ∅).getOrNew a 0 :=
  dif_pos i.isLt

end ShardWorld

/-- A leader of shard `i` that has one modified map to carry out and has not begun. -/
@[mk_iff]
structure Leader.Outstanding (S : ℕ) (M D : ShardMap) (i : ℕ) (n : Leader H) : Prop where
  alive : n.alive = true
  phase : n.phase = .idle ∨ n.phase = .waitReady
  shardID : n.shardID = i
  shardNums : n.shardNums = S
  partitionMap : n.curChain.partitionMap = M
  accounts : n.curChain.accounts ≠ none
  modifiedMap : n.cdm.modifiedMap.getLast? = some D
  round : n.cdm.modifiedMap.length = n.cdm.accountTransferRound + 1
  receivedNewAccountState : n.cdm.receivedNewAccountState = ∅
  receivedNewTx : n.cdm.receivedNewTx = []
  accountStateTx : n.cdm.accountStateTx = ∅
  collectOver : n.cdm.collectOver = false

/-- The messages the leaders exchange in a migration. -/
def ShardMsg.ofMigration : ShardMsg → Bool
  | .partitionReady _ _ | .accountStateAndTx _ => true
  | _ => false

instance (p : ProposePhase H) : Decidable (p = .idle ∨ p = .waitReady) :=
  match p with
  | .idle => .isTrue (.inl rfl)
  | .waitReady => .isTrue (.inr rfl)
  | .waitCollect => .isFalse nofun
  | .proposed _ => .isFalse nofun

instance (M D : ShardMap) (i : ℕ) (n : Leader H) : Decidable (n.Outstanding S M D i) :=
  decidable_of_iff' _ (n.outstanding_iff S M D i)

namespace ShardWorld

/-- All shards agree on `M` and are about to carry out `D`. -/
structure Outstanding (M D : ShardMap) (w : ShardWorld H S) : Prop where
  leaders : ∀ i : Fin S, (w.leaders i).Outstanding S M D i
  net : ∀ p ∈ w.net, ∀ at', p.2 ≠ .accountStateAndTx at'

/-- The steps of a migration: no block is proposed or committed in between, and no transactions or
    further maps arrive. -/
def MigrationStep (w : ShardWorld H S) : ShardAct S → Prop
  | .sendPartitionReady _ | .sendAccountsAndTxs _ _ | .proposePartition _ _ _ => True
  | .commit i => (w.leaders i).proposedBlock = none
  | .deliver k => ∃ p ∈ w.net[k]?, p.2.ofMigration = true
  | _ => False

instance (w : ShardWorld H S) : (a : ShardAct S) → Decidable (w.MigrationStep a)
  | .sendPartitionReady _ | .sendAccountsAndTxs _ _ | .proposePartition _ _ _ => .isTrue trivial
  | .commit i => inferInstanceAs (Decidable ((w.leaders i).proposedBlock = none))
  | .deliver k => inferInstanceAs (Decidable (∃ p ∈ w.net[k]?, p.2.ofMigration = true))
  | .txSending _ | .clpaMapSend _ | .proposeBlock _ _ => .isFalse not_false

/-- Leader `i` has carried out the map that was outstanding in `w₀`. -/
def Migrated (w₀ w : ShardWorld H S) (i : Fin S) : Prop :=
  (w.leaders i).cdm.accountTransferRound = (w₀.leaders i).cdm.accountTransferRound + 1

instance (w₀ w : ShardWorld H S) (i : Fin S) : Decidable (w₀.Migrated w i) :=
  inferInstanceAs (Decidable (_ = _))

section Migration

variable {M D : ShardMap} {w₀ : ShardWorld H S}

/-- The state of an account in its home shard before the migration. -/
def homeState (M : ShardMap) (w₀ : ShardWorld H S) (a : Address) : AccountState :=
  w₀.stateAt (homeUnder S M a) a

/-- The transactions that stay in shard `i`. -/
def stayed (M D : ShardMap) (w₀ : ShardWorld H S) (i : ℕ) : List Transaction :=
  (w₀.queueAt i).filter fun tx => ∀ k < S, ¬ Moves S M D i k tx.key

/-- The transactions that come to shard `i`, in the order in which the other shards are visited. -/
def arrived (M D : ShardMap) (w₀ : ShardWorld H S) (i : ℕ) (shards : List ℕ) : List Transaction :=
  shards.flatMap fun j => (w₀.queueAt j).filter fun tx => Moves S M D j i tx.key

/-- The shards a leader hears from. -/
def others (S : ℕ) (i : ℕ) : List ℕ := (List.range S).filter fun j => j ≠ i

/-- What leader `i` has collected before it proposes. -/
structure Collects (M D : ShardMap) (w₀ : ShardWorld H S) (i : Fin S) (cdm : DataSupportCLPA) :
    Prop where
  modifiedMap : cdm.modifiedMap = (w₀.leaders i).cdm.modifiedMap
  round : cdm.accountTransferRound = (w₀.leaders i).cdm.accountTransferRound
  receivedNewAccountState : cdm.receivedNewAccountState = ∅
  receivedNewTx : cdm.receivedNewTx = []
  stored : ∀ j at', cdm.accountStateTx.lookup j = some at' → j < S ∧ j ≠ i ∧
    Leader.Carries S M D (homeState M w₀) (w₀.queueAt j) j i at'
  allStored : cdm.collectOver = true → ∀ j < S, j ≠ i → j ∈ cdm.accountStateTx

/-- The chain of `w₀`'s leader `i` with another queue. -/
def chainWith (w₀ : ShardWorld H S) (i : Fin S) (queue : List Transaction) : BlockChain H :=
  { (w₀.leaders i).curChain with
    txpool := { (w₀.leaders i).curChain.txpool with txQueue := queue } }

/-- How far leader `i` has come. -/
inductive Progresses (M D : ShardMap) (w₀ : ShardWorld H S) (i : Fin S) (n : Leader H) : Prop
  | waits : n.phase = .idle ∨ n.phase = .waitReady → n.curChain = (w₀.leaders i).curChain →
      Collects M D w₀ i n.cdm → Progresses M D w₀ i n
  | sent : n.phase = .waitCollect → n.curChain = w₀.chainWith i (stayed M D w₀ i) →
      Collects M D w₀ i n.cdm → Progresses M D w₀ i n
  | proposed {atm : AccountTransferMsg} {shards : List ℕ} :
      n.phase = .proposed (.partition atm) → shards.Perm (others S i) →
      n.curChain = w₀.chainWith i (stayed M D w₀ i ++ arrived M D w₀ i shards) →
      n.cdm.accountTransferRound = (w₀.leaders i).cdm.accountTransferRound →
      Leader.Installs S M D (homeState M w₀) i atm → Progresses M D w₀ i n
  | migrated {shards : List ℕ} {st : Accounts} :
      n.phase = .idle → n.cdm.partitionOn = false → shards.Perm (others S i) →
      n.curChain.txpool.txQueue = stayed M D w₀ i ++ arrived M D w₀ i shards →
      n.curChain.partitionMap = D ∪ M → n.curChain.accounts = some st →
      (∀ a, st.getOrNew a 0 =
        if ∃ j < S, Moves S M D j i a then homeState M w₀ a else w₀.stateAt i a) →
      Progresses M D w₀ i n

/-- The invariant of a migration: nobody panics, and what is in flight is right. -/
structure Migrates (M D : ShardMap) (w₀ w : ShardWorld H S) : Prop where
  alive : ∀ i, (w.leaders i).alive = true
  leaders : ∀ i, Progresses M D w₀ i (w.leaders i)
  net : ∀ p ∈ w.net, ∀ at', p.2 = .accountStateAndTx at' → ∃ j < S, j ≠ p.1 ∧
    Leader.Carries S M D (homeState M w₀) (w₀.queueAt j) j p.1 at'

theorem Outstanding.collects (hw₀ : w₀.Outstanding M D) (i : Fin S) :
    Collects M D w₀ i (w₀.leaders i).cdm := by
  have hn := hw₀.leaders i
  refine ⟨rfl, rfl, hn.receivedNewAccountState, hn.receivedNewTx, fun j at' h => ?_, fun h => ?_⟩
  · rw [hn.accountStateTx, Finmap.lookup_empty] at h
    exact absurd h (by simp)
  · rw [hn.collectOver] at h
    exact absurd h (by simp)

theorem Outstanding.migrates (hw₀ : w₀.Outstanding M D) : Migrates M D w₀ w₀ where
  alive := fun i => (hw₀.leaders i).alive
  leaders := fun i => .waits (hw₀.leaders i).phase rfl (hw₀.collects i)
  net := fun p hp at' h => absurd h (hw₀.net p hp at')

/-- The outstanding map is the one of the round that is due. -/
theorem Outstanding.modifiedMap_round (hw₀ : w₀.Outstanding M D) (i : Fin S) :
    (w₀.leaders i).cdm.modifiedMap[(w₀.leaders i).cdm.accountTransferRound]? = some D := by
  have hn := hw₀.leaders i
  have hlast := hn.modifiedMap
  rw [List.getLast?_eq_getElem?, hn.round, Nat.add_sub_cancel] at hlast
  exact hlast

/-- Who is ready does not matter for what is collected. -/
theorem Collects.ready {i : Fin S} {cdm : DataSupportCLPA} (hc : Collects M D w₀ i cdm)
    (partitionReady : Finset ℕ) (readySeq : Finmap fun _ : ℕ => ℕ) :
    Collects M D w₀ i { cdm with partitionReady := partitionReady, readySeq := readySeq } :=
  ⟨hc.modifiedMap, hc.round, hc.receivedNewAccountState, hc.receivedNewTx, hc.stored, hc.allStored⟩

/-- One more message is stored. -/
theorem Collects.handleAccountStateAndTxMsg {i : Fin S} {n : Leader H} {at' : AccountStateAndTx}
    {j : ℕ} (hc : Collects M D w₀ i n.cdm) (hnums : n.shardNums = S) (hj : j < S) (hji : j ≠ i)
    (hcar : Leader.Carries S M D (homeState M w₀) (w₀.queueAt j) j i at') :
    Collects M D w₀ i (n.handleAccountStateAndTxMsg at').cdm := by
  have hstored : ∀ k b, (Finmap.insert at'.fromShard at' n.cdm.accountStateTx).lookup k = some b →
      k < S ∧ k ≠ i ∧ Leader.Carries S M D (homeState M w₀) (w₀.queueAt k) k i b := by
    intro k b hk
    rw [hcar.fromShard] at hk
    by_cases hkj : k = j
    · subst hkj
      rw [Finmap.lookup_insert, Option.some.injEq] at hk
      exact hk ▸ ⟨hj, hji, hcar⟩
    · rw [Finmap.lookup_insert_of_ne _ hkj] at hk
      exact hc.stored k b hk
  refine ⟨hc.modifiedMap, hc.round, hc.receivedNewAccountState, hc.receivedNewTx, hstored, ?_⟩
  intro hover k hk hki
  simp only [Leader.handleAccountStateAndTxMsg, Bool.or_eq_true, decide_eq_true_eq] at hover ⊢
  rcases hover with hold | hcard
  · exact Finmap.mem_insert.2 (.inr (hc.allStored hold k hk hki))
  · -- as many senders as there are other shards
    have hsub : (Finmap.insert at'.fromShard at' n.cdm.accountStateTx).keys ⊆
        (Finset.range S).erase i := by
      intro k' hk'
      obtain ⟨b, hb⟩ := Finmap.mem_iff.1 (Finmap.mem_keys.1 hk')
      obtain ⟨hlt, hne, -⟩ := hstored k' b hb
      exact Finset.mem_erase.2 ⟨hne, Finset.mem_range.2 hlt⟩
    have hall := Finset.eq_of_subset_of_card_le hsub (by
      rw [Finset.card_erase_of_mem (Finset.mem_range.2 i.isLt), Finset.card_range]
      omega)
    rw [← Finmap.mem_keys, hall]
    exact Finset.mem_erase.2 ⟨hki, Finset.mem_range.2 hk⟩

/-- Once the collection is over, the senders are the other shards. -/
theorem Collects.mem_iff {i : Fin S} {cdm : DataSupportCLPA} (hc : Collects M D w₀ i cdm)
    (hover : cdm.collectOver = true) (j : ℕ) : j ∈ cdm.accountStateTx ↔ j < S ∧ j ≠ i := by
  constructor
  · intro hj
    obtain ⟨at', hat⟩ := Finmap.mem_iff.1 hj
    obtain ⟨hlt, hne, -⟩ := hc.stored j at' hat
    exact ⟨hlt, hne⟩
  · exact fun ⟨hlt, hne⟩ => hc.allStored hover j hlt hne

section Steps

variable {i : Fin S} {n : Leader H}

theorem Progresses.handleAccountStateAndTxMsg (hw₀ : w₀.Outstanding M D)
    (hn : Progresses M D w₀ i n) {at' : AccountStateAndTx} {j : ℕ} (hj : j < S) (hji : j ≠ i)
    (hcar : Leader.Carries S M D (homeState M w₀) (w₀.queueAt j) j i at') :
    Progresses M D w₀ i (n.handleAccountStateAndTxMsg at') := by
  have hnums := (hw₀.leaders i).shardNums
  cases hn with
  | waits hphase hchain hc =>
    refine .waits hphase hchain (hc.handleAccountStateAndTxMsg ?_ hj hji hcar)
    rw [Leader.shardNums, hchain]
    exact hnums
  | sent hphase hchain hc =>
    refine .sent hphase hchain (hc.handleAccountStateAndTxMsg ?_ hj hji hcar)
    rw [Leader.shardNums, hchain]
    exact hnums
  | proposed hphase hshards hchain hround hatm =>
    exact .proposed hphase hshards hchain hround hatm
  | migrated hphase hon hshards hqueue hmap hst hlook =>
    exact .migrated hphase hon hshards hqueue hmap hst hlook

theorem Progresses.handlePartitionReady (hn : Progresses M D w₀ i n) (fromShard nowSeqID : ℕ) :
    Progresses M D w₀ i (n.handlePartitionReady fromShard nowSeqID) := by
  cases hn with
  | waits hphase hchain hc =>
    exact .waits hphase hchain (hc.ready _ _)
  | sent hphase hchain hc =>
    exact .sent hphase hchain (hc.ready _ _)
  | proposed hphase hshards hchain hround hatm =>
    exact .proposed hphase hshards hchain hround hatm
  | migrated hphase hon hshards hqueue hmap hst hlook =>
    exact .migrated hphase hon hshards hqueue hmap hst hlook

theorem Progresses.sendPartitionReady (hn : Progresses M D w₀ i n) (hphase : n.phase = .idle)
    (hon : n.cdm.partitionOn = true) : Progresses M D w₀ i n.sendPartitionReady.1 := by
  cases hn with
  | waits _ hchain hc =>
    exact .waits (.inr rfl) hchain (hc.ready _ _)
  | sent hsent => exact absurd (hsent.symm.trans hphase) (by simp)
  | proposed hprop => exact absurd (hprop.symm.trans hphase) (by simp)
  | migrated _ hoff => exact absurd (hoff.symm.trans hon) (by simp)

/-- The accounts and transactions that leave are sent as they are at home. -/
theorem Progresses.sendAccountsAndTxs (hw₀ : w₀.Outstanding M D) (hn : Progresses M D w₀ i n)
    (hphase : n.phase = .waitReady) {order : List Address} {n' : Leader H}
    {msgs : List (ℕ × ShardMsg)} (h : n.sendAccountsAndTxs order = some (n', msgs)) :
    n'.alive = n.alive ∧ Progresses M D w₀ i n' ∧ ∀ p ∈ msgs, ∀ at',
      p.2 = .accountStateAndTx at' → ∃ j < S, j ≠ p.1 ∧
        Leader.Carries S M D (homeState M w₀) (w₀.queueAt j) j p.1 at' := by
  have hn₀ := hw₀.leaders i
  cases hn with
  | waits _ hchain hc =>
    obtain ⟨st, hst⟩ := Option.ne_none_iff_exists'.1 hn₀.accounts
    have hid : n.shardID = i := by rw [Leader.shardID, hchain]; exact hn₀.shardID
    have hnums : n.shardNums = S := by rw [Leader.shardNums, hchain]; exact hn₀.shardNums
    have hst' : n.curChain.accounts = some st := by rw [hchain, hst]
    obtain ⟨rfl, hmsgs⟩ := Leader.sendAccountsAndTxs_spec (M := M) (D := D) hnums
      (by rw [hchain, hn₀.partitionMap]) (by rw [hc.modifiedMap, hn₀.modifiedMap]) hst' h
    rw [hid, hchain, ← queueAt_val] at hmsgs
    refine ⟨rfl, .sent rfl ?_ hc, ?_⟩
    · simp only [hid, hchain, chainWith, stayed, queueAt_val]
    · intro p hp at' hat
      obtain ⟨-, hne, at'', hat', hcar⟩ := hmsgs p hp
      rw [hat, ShardMsg.accountStateAndTx.injEq] at hat'
      subst hat'
      refine ⟨i, i.isLt, hne.symm, hcar.congr fun a ha => ?_⟩
      rw [homeState, ha.2.1, stateAt_val, hst, Option.getD_some]
  | sent hsent => exact absurd (hsent.symm.trans hphase) (by simp)
  | proposed hprop => exact absurd (hprop.symm.trans hphase) (by simp)
  | migrated hidle => exact absurd (hidle.symm.trans hphase) (by simp)

theorem Progresses.proposePartition (hw₀ : w₀.Outstanding M D) (hn : Progresses M D w₀ i n)
    (hphase : n.phase = .waitCollect) (hover : n.cdm.collectOver = true) {shards : List ℕ}
    {addrs : List Address} {n' : Leader H} (h : n.proposePartition shards addrs = some n') :
    n'.alive = n.alive ∧ Progresses M D w₀ i n' := by
  cases hn with
  | sent _ hchain hc =>
    have hid : n.shardID = i := by rw [Leader.shardID, hchain]; exact (hw₀.leaders i).shardID
    obtain ⟨hshards, halive, hchain', hcdm, atm, hatm, hinst⟩ :=
      Leader.proposePartition_spec (f := homeState M w₀) (q := w₀.queueAt) hid
        (by rw [hc.modifiedMap, hc.round]; exact hw₀.modifiedMap_round i)
        hc.receivedNewAccountState hc.receivedNewTx (hc.mem_iff hover)
        (fun j at' hat => (hc.stored j at' hat).2.2) h
    refine ⟨halive, .proposed hatm hshards ?_ (hcdm.trans hc.round) hinst⟩
    rw [hchain', Leader.addTxs2Pool, hchain]
    rfl
  | waits hwait => exact absurd (hphase ▸ hwait) (by simp)
  | proposed hprop => exact absurd (hprop.symm.trans hphase) (by simp)
  | migrated hidle => exact absurd (hidle.symm.trans hphase) (by simp)

/-- The shard's trie now has every account that belongs here as it was at home. -/
theorem Progresses.commitPartition (hw₀ : w₀.Outstanding M D) (hn : Progresses M D w₀ i n)
    {atm : AccountTransferMsg} (hphase : n.phase = .proposed (.partition atm)) :
    (n.commitPartition atm).alive = n.alive ∧ Progresses M D w₀ i (n.commitPartition atm) := by
  have hn₀ := hw₀.leaders i
  cases hn with
  | proposed hprop hshards hchain _ hinst =>
    rw [hphase, ProposePhase.proposed.injEq, RequestMsg.partition.injEq] at hprop
    subst hprop
    obtain ⟨st, hst⟩ := Option.ne_none_iff_exists'.1 hn₀.accounts
    have hid : n.curChain.chainConfig.shardID = i := by rw [hchain]; exact hn₀.shardID
    have hmapM : n.curChain.partitionMap = M := by rw [hchain]; exact hn₀.partitionMap
    have hst₀ : n.curChain.accounts = some st := by rw [hchain]; exact hst
    obtain ⟨bc, st', hdo, hmap, hpool, hst', hlook⟩ :=
      Leader.accountTransferDo_spec (hid.symm ▸ hinst) hmapM hst₀
    rw [Leader.commitPartition, hdo]
    refine ⟨rfl, .migrated rfl rfl hshards ?_ hmap hst' fun a => ?_⟩
    · simp only [Leader.nextRound, hpool, hchain]
      rfl
    · rw [Accounts.getOrNew, hlook a, hid]
      split
      · rfl
      · rw [stateAt_val, hst]
        rfl
  | waits hwait => exact absurd (hphase ▸ hwait) (by simp)
  | sent hsent => exact absurd (hsent.symm.trans hphase) (by simp)
  | migrated hidle => exact absurd (hidle.symm.trans hphase) (by simp)

end Steps

/-- Leader `i` has acted, and the messages it sent are right. -/
theorem Migrates.after {w : ShardWorld H S} (hw : Migrates M D w₀ w) {i : Fin S} {n : Leader H}
    {msgs : List (ℕ × ShardMsg)} (halive : n.alive = (w.leaders i).alive)
    (hn : Progresses M D w₀ i n) (hmsgs : ∀ p ∈ msgs, ∀ at', p.2 = .accountStateAndTx at' →
      ∃ j < S, j ≠ p.1 ∧ Leader.Carries S M D (homeState M w₀) (w₀.queueAt j) j p.1 at') :
    Migrates M D w₀ (w.after i n msgs) where
  alive := (Function.forall_update_iff w.leaders fun _ n => n.alive = true).2
    ⟨halive.trans (hw.alive i), fun j _ => hw.alive j⟩
  leaders := (Function.forall_update_iff w.leaders fun j n => Progresses M D w₀ j n).2
    ⟨hn, fun j _ => hw.leaders j⟩
  net := fun p hp => (List.mem_append.1 hp).elim (hw.net p) (hmsgs p)

/-- **Every step of a migration keeps the invariant.** -/
theorem Migrates.step (hw₀ : w₀.Outstanding M D) {w w' : ShardWorld H S} {a : ShardAct S}
    (hw : Migrates M D w₀ w) (hP : w.MigrationStep a) (h : w.step .clpa a = some w') :
    Migrates M D w₀ w' := by
  cases steps_of_step h with
  | txSending => exact hP.elim
  | clpaMapSend => exact hP.elim
  | @deliver k i m hk halive =>
    have hreceive : ∀ n : Leader H, n.alive = (w.leaders i).alive → Progresses M D w₀ i n →
        Migrates M D w₀ { w with
          leaders := Function.update w.leaders i n
          net := w.net.eraseIdx k } := by
      intro n hal hn
      have hafter : Migrates M D w₀ (w.after i n []) := hw.after hal hn (by simp)
      exact ⟨hafter.alive, hafter.leaders, fun p hp => hw.net p (List.mem_of_mem_eraseIdx hp)⟩
    obtain ⟨p, hp, hmsg⟩ := hP
    obtain rfl : p = (i.val, m) := Option.some.inj ((Option.mem_def.1 hp).symm.trans hk)
    cases m with
    | accountStateAndTx at' =>
      obtain ⟨j, hj, hji, hcar⟩ := hw.net _ (List.mem_of_getElem? hk) at' rfl
      exact hreceive _ rfl ((hw.leaders i).handleAccountStateAndTxMsg hw₀ hj hji hcar)
    | partitionReady fromShard nowSeqID =>
      exact hreceive _ rfl ((hw.leaders i).handlePartitionReady fromShard nowSeqID)
    | injectTxs _ => exact absurd hmsg (by simp [ShardMsg.ofMigration])
    | relay _ _ _ => exact absurd hmsg (by simp [ShardMsg.ofMigration])
    | partitionModifiedMap _ => exact absurd hmsg (by simp [ShardMsg.ofMigration])
  | proposePanics => exact hP.elim
  | proposeBlock => exact hP.elim
  | sendPartitionReady _ hphase hon =>
    refine hw.after rfl ((hw.leaders _).sendPartitionReady hphase hon) ?_
    intro p hp at' hat
    obtain ⟨sid, -, rfl⟩ := List.mem_map.1 hp
    exact absurd hat (by simp)
  | sendAccountsAndTxs hphase hsend =>
    obtain ⟨halive, hn, hmsgs⟩ := (hw.leaders _).sendAccountsAndTxs hw₀ hphase hsend
    exact hw.after halive hn hmsgs
  | proposePartition hphase hover hprop =>
    obtain ⟨halive, hn⟩ := (hw.leaders _).proposePartition hw₀ hphase hover hprop
    exact hw.after halive hn (by simp)
  | commitBlock _ hphase =>
    rw [MigrationStep, Leader.proposedBlock, hphase] at hP
    exact absurd hP (by simp)
  | commitPartition hphase =>
    obtain ⟨halive, hn⟩ := (hw.leaders _).commitPartition hw₀ hphase
    exact hw.after halive hn (by simp)

theorem Outstanding.run (hw₀ : w₀.Outstanding M D) {w : ShardWorld H S}
    (hrun : ReachesUnder (ShardWorld.step .clpa) MigrationStep w₀ w) : Migrates M D w₀ w :=
  hrun.invariant (I := Migrates M D w₀) hw₀.migrates fun _ _ _ hw hP h => hw.step hw₀ hP h

/-- A leader that has carried out the map. -/
theorem Migrates.migrated {w : ShardWorld H S} (hw : Migrates M D w₀ w) {i : Fin S}
    (hdone : w₀.Migrated w i) :
    (w.leaders i).curChain.partitionMap = D ∪ M ∧
      (∀ a, w.stateAt i a =
        if ∃ j < S, Moves S M D j i a then homeState M w₀ a else w₀.stateAt i a) ∧
      ∃ shards : List ℕ, shards.Perm (others S i) ∧
        w.queueAt i = stayed M D w₀ i ++ arrived M D w₀ i shards := by
  have hround : ∀ k : ℕ, k ≠ k + 1 := fun k => (Nat.succ_ne_self k).symm
  cases hw.leaders i with
  | waits _ _ hc => exact absurd (hc.round.symm.trans hdone) (hround _)
  | sent _ _ hc => exact absurd (hc.round.symm.trans hdone) (hround _)
  | proposed _ _ _ hr => exact absurd (hr.symm.trans hdone) (hround _)
  | migrated _ _ hshards hqueue hmap hst hlook =>
    refine ⟨hmap, fun a => ?_, _, hshards, by rw [queueAt_val, hqueue]⟩
    rw [stateAt_val, hst, Option.getD_some, hlook a]

/-- Every leader knows the new homes, and every account has at its new home the state it had at the
    old one. -/
theorem Outstanding.accounts_follow (hw₀ : w₀.Outstanding M D) {w : ShardWorld H S}
    (hrun : ReachesUnder (ShardWorld.step .clpa) MigrationStep w₀ w)
    (hdone : ∀ i, w₀.Migrated w i) :
    (∀ i, (w.leaders i).curChain.partitionMap = D ∪ M) ∧
      ∀ a, homeUnder S M a < S → homeUnder S (D ∪ M) a < S →
        w.stateAt (homeUnder S (D ∪ M) a) a = w₀.stateAt (homeUnder S M a) a := by
  have hw := hw₀.run hrun
  refine ⟨fun i => (hw.migrated (hdone i)).1, fun a hold hnew => ?_⟩
  rw [(hw.migrated (hdone ⟨_, hnew⟩)).2.1 a]
  split
  · rfl
  · next hstay =>
      rw [homeUnder_of_not_moves (fun j hj hm => hstay ⟨j, hj, hm⟩) rfl hold]

section Pools

variable (hD : ∀ a k, D.lookup a = some k → k < S)
  (hhome : ∀ i < S, ∀ tx ∈ w₀.queueAt i, homeUnder S M tx.key = i)

include hD hhome in
theorem stayed_eq {i : ℕ} (hi : i < S) : stayed M D w₀ i =
    (w₀.queueAt i).filter fun tx => homeUnder S (D ∪ M) tx.key = i := by
  refine List.filter_congr fun tx htx => decide_eq_decide.2 ?_
  have hold := hhome i hi tx htx
  constructor
  · intro hstay
    by_contra hne
    exact hstay _ (homeUnder_union_lt hD (hold.trans_lt hi)) ((moves_iff hold hne).2 rfl)
  · intro hnew k _ hm
    exact hm.2.2 (((moves_iff hold hm.2.2).1 hm).symm.trans hnew)

include hhome in
theorem arrived_eq {i : ℕ} {shards : List ℕ} (hshards : shards.Perm (others S i)) :
    arrived M D w₀ i shards = shards.flatMap fun j =>
      (w₀.queueAt j).filter fun tx => homeUnder S (D ∪ M) tx.key = i := by
  refine List.flatMap_congr fun j hj => List.filter_congr fun tx htx => decide_eq_decide.2 ?_
  obtain ⟨hlt, hne⟩ := List.mem_filter.1 (hshards.mem_iff.1 hj)
  exact moves_iff (hhome j (List.mem_range.1 hlt) tx htx) (of_decide_eq_true hne).symm

theorem cons_others_perm {i : ℕ} (hi : i < S) : (i :: others S i).Perm (List.range S) := by
  refine (List.perm_ext_iff_of_nodup ?_ List.nodup_range).2 fun j => ?_
  · exact List.nodup_cons.2 ⟨by simp [others], List.nodup_range.filter _⟩
  · by_cases hj : j = i
    · simp [hj, hi]
    · simp [hj, others]

include hD hhome in
/-- No leader panics on the way. In the end the pools hold together what they held before, every
    transaction where it belongs: first those that stayed, then those of each other shard, in the
    order they had. -/
theorem Outstanding.pools_redistributed (hw₀ : w₀.Outstanding M D) {w : ShardWorld H S}
    (hrun : ReachesUnder (ShardWorld.step .clpa) MigrationStep w₀ w) :
    (∀ i, (w.leaders i).alive = true) ∧ ((∀ i, w₀.Migrated w i) →
      ((List.range S).flatMap w.queueAt).Perm ((List.range S).flatMap w₀.queueAt) ∧
      (∀ i < S, ∀ tx ∈ w.queueAt i, homeUnder S (D ∪ M) tx.key = i) ∧
      ∀ i < S, ∃ shards : List ℕ, shards.Perm ((List.range S).filter fun j => j ≠ i) ∧
        w.queueAt i =
          ((w₀.queueAt i).filter fun tx => homeUnder S (D ∪ M) tx.key = i) ++
          shards.flatMap fun j =>
            (w₀.queueAt j).filter fun tx => homeUnder S (D ∪ M) tx.key = i) := by
  have hw := hw₀.run hrun
  refine ⟨hw.alive, fun hdone => ?_⟩
  have hqueue : ∀ i < S, ∃ shards : List ℕ, shards.Perm (others S i) ∧ w.queueAt i =
      ((w₀.queueAt i).filter fun tx => homeUnder S (D ∪ M) tx.key = i) ++
      shards.flatMap fun j =>
        (w₀.queueAt j).filter fun tx => homeUnder S (D ∪ M) tx.key = i := by
    intro i hi
    obtain ⟨-, -, shards, hperm, heq⟩ := hw.migrated (hdone ⟨i, hi⟩)
    exact ⟨shards, hperm, by rw [← stayed_eq hD hhome hi, ← arrived_eq hhome hperm, heq]⟩
  refine ⟨redistribute_perm (fun tx => homeUnder S (D ∪ M) tx.key) ?_ ?_, ?_, hqueue⟩
  · exact fun j hj tx htx => homeUnder_union_lt hD ((hhome j hj tx htx).trans_lt hj)
  · intro i hi
    obtain ⟨shards, hperm, heq⟩ := hqueue i hi
    exact ⟨i :: shards, (hperm.cons i).trans (cons_others_perm hi), heq⟩
  · intro i hi tx htx
    obtain ⟨shards, -, heq⟩ := hqueue i hi
    rw [heq, List.mem_append, List.mem_flatMap] at htx
    rcases htx with hmem | ⟨j, -, hmem⟩ <;> exact of_decide_eq_true (List.mem_filter.1 hmem).2

end Pools

end Migration

/-! ## A migration between two shards -/

section Sample

open BlockChain

/-- The first shard debits alice for a transfer to bob and relays it; then a map arrives, while the
    relayed transfer waits in the second shard. -/
def mapArrives (i : Fin 2) (m : ShardMap) : List (ShardAct 2) :=
  [.txSending 1, .deliver 0, .deliver 0, .proposeBlock i 0, .commit i, .deliver 0,
    .clpaMapSend m, .deliver 0, .deliver 0]

/-- Both leaders carry it out, given the accounts that leave the first shard and the second. -/
def migrating (i j : Fin 2) (out out' : List Address) : List (ShardAct 2) :=
  [.sendPartitionReady i, .sendPartitionReady j, .deliver 0, .deliver 0,
    .sendAccountsAndTxs i out, .sendAccountsAndTxs j out', .deliver 0, .deliver 0,
    .proposePartition i [j] out', .commit i, .proposePartition j [i] out, .commit j]

/-- Alice and bob change places. -/
def swap (i j : ℕ) : ShardMap := Finmap.insert alice j (Finmap.insert bob i ∅)

/-- The run, from the arrival of the map to its end. -/
theorem swap_run : ∃ w₀ w : ShardWorld SymHash 2, w₀.Outstanding ∅ (swap 0 1) ∧
    ReachesUnder (step .clpa) MigrationStep w₀ w ∧ (∀ i, w₀.Migrated w i) ∧
    (w₀.stateAt 0 alice).balance = initBalance - 5 ∧
    w₀.queueAt 0 = [] ∧ w₀.queueAt 1 = [{ transfer 5 with relayed := true }] := by
  have hrun : ∃ w₀ ∈ runActions (step .clpa) (init twoShards [transfer 5]) (mapArrives 0 (swap 0 1)),
      ∃ w ∈ runChecked (step .clpa) (fun w a => decide (w.MigrationStep a)) w₀
        (migrating 0 1 [alice] [bob]),
      ((∀ i : Fin 2, (w₀.leaders i).Outstanding 2 ∅ (swap 0 1) i) ∧ w₀.net.length = 0) ∧
      (∀ i, w₀.Migrated w i) ∧ (w₀.stateAt 0 alice).balance = initBalance - 5 ∧
      w₀.queueAt 0 = [] ∧ w₀.queueAt 1 = [{ transfer 5 with relayed := true }] := by
    decide +kernel
  obtain ⟨w₀, -, w, hw, ⟨hleaders, hnet⟩, hrest⟩ := hrun
  have hempty := List.eq_nil_of_length_eq_zero hnet
  exact ⟨w₀, w, ⟨hleaders, by simp [hempty]⟩,
    reachesUnder_of_runDecided hw, hrest⟩

theorem alice_follows : ∃ w₀ w : ShardWorld SymHash 2, w₀.Outstanding ∅ (swap 0 1) ∧
    ReachesUnder (step .clpa) MigrationStep w₀ w ∧ (∀ i, w₀.Migrated w i) ∧
    (w.stateAt 1 alice).balance = initBalance - 5 := by
  obtain ⟨w₀, w, hw₀, hrun, hdone, hbalance, -⟩ := swap_run
  have hfollow := (hw₀.accounts_follow hrun hdone).2 alice (by decide) (by decide)
  have hnew : homeUnder 2 (swap 0 1 ∪ ∅) alice = 1 := by decide
  have hold : homeUnder 2 ∅ alice = 0 := by decide
  rw [hnew, hold] at hfollow
  exact ⟨w₀, w, hw₀, hrun, hdone, hfollow ▸ hbalance⟩

theorem relayed_transfer_follows : ∃ w₀ w : ShardWorld SymHash 2, w₀.Outstanding ∅ (swap 0 1) ∧
    ReachesUnder (step .clpa) MigrationStep w₀ w ∧ (∀ i, w₀.Migrated w i) ∧
    ((List.range 2).flatMap w.queueAt).Perm [{ transfer 5 with relayed := true }] := by
  obtain ⟨w₀, w, hw₀, hrun, hdone, -, hzero, hone⟩ := swap_run
  have hD : ∀ a k, (swap 0 1).lookup a = some k → k < 2 := by decide
  have hhome : ∀ i < 2, ∀ tx ∈ w₀.queueAt i, homeUnder 2 ∅ tx.key = i := by
    intro i hi tx htx
    obtain rfl | rfl : i = 0 ∨ i = 1 := by omega
    · rw [hzero] at htx
      exact absurd htx (by simp)
    · rw [hone, List.mem_singleton] at htx
      subst htx
      decide
  obtain ⟨hperm, -⟩ := (hw₀.pools_redistributed hD hhome hrun).2 hdone
  have hpools : (List.range 2).flatMap w₀.queueAt = [{ transfer 5 with relayed := true }] := by
    rw [show List.range 2 = [0, 1] from rfl]
    simp [hzero, hone]
  exact ⟨w₀, w, hw₀, hrun, hdone, hpools ▸ hperm⟩

end Sample

end ShardWorld

end BlockEmulator
