import BlockEmulator.Chain.Proofs
import BlockEmulator.Shard.Whereabouts

set_option autoImplicit false

/-! # Relaying with proofs

With `RelayWithMerkleProof` set, a shard sends a proof along with every relayed transaction, and the
receiving leader puts the transactions into its pool only if all proofs pass. The messages a shard
makes itself always pass, so they do what plain relay messages do
(`handleRelayWithProof_of_relayWithProofSend`). For a message from anybody else, a passed proof is only
as good as the hash written in it: by its `Found` and `TxHash` it says something about the transaction
beside it exactly if it is not marked as found or the two hashes are the same
(`accepted_proof_is_about_its_transaction_iff`). -/

namespace BlockEmulator

variable {H : Type} [DecidableEq H] [Hashing H] [TrieProofs H]

/-- `message.RelayWithProof`. -/
structure RelayWithProof (H : Type) [Hashing H] where
  txs : List Transaction
  txProofs : List (TxProofResult H)
  senderShardID : ℕ
  senderSeq : ℕ

/-- What the verifier is told by the sender alone: `Found` and `TxHash` of a proof. -/
def TxProofResult.told (pr : TxProofResult H) : Bool × List UInt8 := (pr.found, pr.txHash)

namespace Leader

/-- The loop over the proofs in `handleRelayWithProof`; `none` is an index out of range. -/
def isAllCorrect : List Transaction → List (TxProofResult H) → Option Bool
  | [], _ => some true
  | _ :: _, [] => none
  | tx :: txs, pr :: prs =>
    match txProofVerify tx.txHash pr with
    | none => none
    | some (.error _) => some false
    | some (.ok _) => isAllCorrect txs prs

/-- `handleRelayWithProof`, which both relay modules have. -/
def handleRelayWithProof (n : Leader H) (rwp : RelayWithProof H) : Leader H :=
  match isAllCorrect rwp.txs rwp.txProofs with
  | none => n.crash
  | some true => n.handleRelay rwp.txs rwp.senderShardID rwp.senderSeq
  -- the sequence number is recorded even for a message that is not believed
  | some false =>
    { n with seqIDMap := Finmap.insert rwp.senderShardID rwp.senderSeq n.seqIDMap }

/-- `RelayWithProofSend` after the relay pool has been filled from `block`. -/
def relayWithProofSend (n : Leader H) (pool : TxPool) (block : Block H) :
    List (ℕ × RelayWithProof H) :=
  ((List.range n.shardNums).filter fun sid => sid ≠ n.shardID).map fun sid =>
    let txs := (pool.relayPool.lookup sid).getD []
    (sid, { txs := txs
            txProofs := txProofBatchGenerateOnBlock (txs.map Transaction.txHash) block
            senderShardID := n.shardID
            senderSeq := n.sequenceID })

/-! ## What a passed message says -/

omit [DecidableEq H] in
/-- If the loop lets a message pass, every transaction has a proof, marked as found and accepted for the
    hash in it. -/
theorem of_isAllCorrect {txs : List Transaction} {prs : List (TxProofResult H)}
    (h : isAllCorrect txs prs = some true) :
    txs.length ≤ prs.length ∧
      ∀ p ∈ txs.zip prs, p.2.found = true ∧ ProvedIn p.2.txHash p.2.txRoot := by
  induction txs generalizing prs with
  | nil => simp
  | cons tx txs ih =>
    cases prs with
    | nil => simp [isAllCorrect] at h
    | cons pr prs =>
      rw [isAllCorrect] at h
      split at h
      · exact absurd h (by simp)
      · exact absurd h (by simp)
      · next hok =>
          obtain ⟨hlen, hall⟩ := ih h
          refine ⟨by simpa using hlen, ?_⟩
          rw [List.zip_cons_cons, List.forall_mem_cons]
          exact ⟨⟨found_of_txProofVerify hok, provedIn_of_txProofVerify hok⟩, hall⟩

/-- The message leaves the pool as it was, or adds its transactions and every one of them has its hash
    proved. -/
def AddsProved (n : Leader H) (rwp : RelayWithProof H) : Prop :=
  (n.handleRelayWithProof rwp).curChain.txpool.txQueue = n.curChain.txpool.txQueue ∨
    ((n.handleRelayWithProof rwp).curChain.txpool.txQueue = n.curChain.txpool.txQueue ++ rwp.txs ∧
      rwp.txs.length ≤ rwp.txProofs.length ∧
      ∀ p ∈ rwp.txs.zip rwp.txProofs, ProvedIn p.1.txHash p.2.txRoot)

/-- From what the sender tells it follows that the message is stopped, or is about its transactions:
    a proof is missing or not marked as found, or all proofs carry the hashes of their transactions. -/
def StoppedOrOwn (txs : List Transaction) (told : List (Bool × List UInt8)) : Prop :=
  told.length < txs.length ∨ (∃ p ∈ txs.zip told, p.2.1 = false) ∨
    ∀ p ∈ txs.zip told, p.2.2 = p.1.txHash

theorem addsProved_of_stoppedOrOwn {n : Leader H} {rwp : RelayWithProof H}
    (h : StoppedOrOwn rwp.txs (rwp.txProofs.map TxProofResult.told)) : n.AddsProved rwp := by
  unfold AddsProved handleRelayWithProof
  split
  · exact Or.inl rfl
  · next hall =>
      obtain ⟨hlen, hproved⟩ := of_isAllCorrect hall
      have hzip : rwp.txs.zip (rwp.txProofs.map TxProofResult.told) =
          (rwp.txs.zip rwp.txProofs).map fun p => (p.1, p.2.told) := List.zip_map_right ..
      rcases h with hshort | ⟨q, hq, hnot⟩ | hown
      · rw [List.length_map] at hshort
        omega
      · rw [hzip] at hq
        obtain ⟨p, hp, rfl⟩ := List.mem_map.1 hq
        exact absurd ((hproved p hp).1.symm.trans hnot) (by simp)
      · refine Or.inr ⟨rfl, hlen, ?_⟩
        intro p hp
        rw [hzip, List.forall_mem_map] at hown
        have heq : p.2.txHash = p.1.txHash := hown p hp
        rw [← heq]
        exact (hproved p hp).2
  · exact Or.inl rfl

/-! ### Honest proofs of other keys -/

/-- A proof of which this is told: that of the hash in the trie that has no other key. -/
def proofTold (t : Bool × List UInt8) : TxProofResult H :=
  let nodes := (TrieProofs.prove H {t.2} t.2).getD []
  { found := t.1
    txHash := t.2
    txRoot := Hashing.txRoot {t.2}
    keyList := nodes.map Prod.fst
    valueList := nodes.map Prod.snd }

omit [DecidableEq H] in
/-- Marked as found it passes, whatever hash the verifier is asked about. -/
theorem txProofVerify_proofTold (h : List UInt8) {t : Bool × List UInt8} (hfound : t.1 = true) :
    txProofVerify h (proofTold (H := H) t) = some (.ok ()) := by
  obtain ⟨nodes, hprove, v, hver⟩ :=
    TrieProofs.verifyProof_prove (H := H) (Finset.mem_singleton_self t.2)
  simp [txProofVerify, proofTold, hfound, hprove, recoverProof_entries, hver]

omit [DecidableEq H] [TrieProofs H] in
theorem provedIn_only_iff {h k : List UInt8} :
    ProvedIn (H := H) h (Hashing.txRoot {k}) ↔ h = k := by
  constructor
  · rintro ⟨keys, hroot, hmem⟩
    rw [Hashing.txRoot_injective hroot] at hmem
    exact Finset.mem_singleton.1 hmem
  · rintro rfl
    exact ⟨{h}, rfl, Finset.mem_singleton_self h⟩

omit [DecidableEq H] in
theorem isAllCorrect_proofTold {txs : List Transaction} {told : List (Bool × List UInt8)}
    (hlen : txs.length ≤ told.length) (hfound : ∀ p ∈ txs.zip told, p.2.1 = true) :
    isAllCorrect txs (told.map (proofTold (H := H))) = some true := by
  induction txs generalizing told with
  | nil => rfl
  | cons tx txs ih =>
    cases told with
    | nil => exact absurd hlen (by simp)
    | cons t told =>
      rw [List.zip_cons_cons, List.forall_mem_cons] at hfound
      rw [List.map_cons, isAllCorrect, txProofVerify_proofTold _ hfound.1]
      exact ih (by simpa using hlen) hfound.2

/-- A message with such proofs. -/
def withProofsTold (txs : List Transaction) (told : List (Bool × List UInt8)) : RelayWithProof H :=
  { txs := txs, txProofs := told.map proofTold, senderShardID := 0, senderSeq := 0 }

/-- If it is not stopped and brings proved transactions only, the hashes told are theirs. -/
theorem own_of_addsProved {n : Leader H} {txs : List Transaction} {told : List (Bool × List UInt8)}
    (hlen : txs.length ≤ told.length) (hfound : ∀ p ∈ txs.zip told, p.2.1 = true)
    (h : n.AddsProved (withProofsTold txs told)) : ∀ p ∈ txs.zip told, p.2.2 = p.1.txHash := by
  have hqueue : (n.handleRelayWithProof (withProofsTold txs told)).curChain.txpool.txQueue =
      n.curChain.txpool.txQueue ++ txs := by
    unfold handleRelayWithProof
    simp only [withProofsTold, isAllCorrect_proofTold hlen hfound]
    rfl
  rcases h with hsame | ⟨-, -, hproved⟩
  · have hnil : txs = [] := List.append_right_eq_self.1 (hqueue.symm.trans hsame)
    simp [hnil]
  · intro p hp
    have hzip : (p.1, proofTold p.2) ∈ txs.zip (told.map (proofTold (H := H))) := by
      rw [List.zip_map_right]
      exact List.mem_map.2 ⟨p, hp, rfl⟩
    exact (provedIn_only_iff.1 (hproved _ hzip)).symm

/-- **Proofs and the transactions they stand for.** All proof objects with this `Found` and this
    `TxHash` are accepted for the hash asked about only if it is a key under their root, exactly if
    they are not marked as found or carry that hash. And all messages with these transactions, and
    proofs of which this is told, bring only proved transactions into the pool, exactly if a proof is
    missing or not marked as found, or every proof carries the hash of its transaction. -/
theorem accepted_proof_is_about_its_transaction_iff :
    (∀ (h k : List UInt8) (found : Bool),
      (∀ pr : TxProofResult H, pr.told = (found, k) → txProofVerify h pr = some (.ok ()) →
        ProvedIn h pr.txRoot) ↔ found = false ∨ k = h) ∧
    ∀ (n : Leader H) (txs : List Transaction) (told : List (Bool × List UInt8)),
      (∀ rwp : RelayWithProof H, rwp.txs = txs → rwp.txProofs.map TxProofResult.told = told →
        n.AddsProved rwp) ↔ StoppedOrOwn txs told := by
  constructor
  · intro h k found
    constructor
    · intro hsound
      cases found with
      | false => exact Or.inl rfl
      | true =>
        have hproved := hsound (proofTold (true, k)) rfl (txProofVerify_proofTold h rfl)
        exact Or.inr (provedIn_only_iff.1 hproved).symm
    · intro hcond pr htold hok
      obtain ⟨rfl, rfl⟩ := Prod.mk.inj htold
      rcases hcond with hnot | rfl
      · exact absurd ((found_of_txProofVerify hok).symm.trans hnot) (by simp)
      · exact provedIn_of_txProofVerify hok
  · intro n txs told
    constructor
    · intro hsound
      by_cases hlen : told.length < txs.length
      · exact Or.inl hlen
      by_cases hnot : ∃ p ∈ txs.zip told, p.2.1 = false
      · exact Or.inr (Or.inl hnot)
      -- nothing stops the message, so its proofs have to be about its transactions
      have hfound : ∀ p ∈ txs.zip told, p.2.1 = true := fun p hp => by
        by_contra hp'
        exact hnot ⟨p, hp, Bool.eq_false_iff.2 hp'⟩
      have htold : (withProofsTold (H := H) txs told).txProofs.map TxProofResult.told = told := by
        simp [withProofsTold, Function.comp_def, TxProofResult.told, proofTold]
      exact Or.inr (Or.inr (own_of_addsProved (not_lt.1 hlen) hfound
        (hsound (withProofsTold txs told) rfl htold)))
    · rintro hcond rwp rfl rfl
      exact addsProved_of_stoppedOrOwn hcond

/-! ## Messages a shard makes itself -/

/-- The batch proof of a transaction of the block verifies. -/
theorem txProofOfBatch_attests {h : List UInt8} {b : Block H} (hb : b.Sealed)
    (hmem : h ∈ b.body.map Transaction.txHash) : (txProofOfBatch b h).Attests h b := by
  unfold txProofOfBatch
  rw [if_neg (not_not.2 hb.txRoot.symm),
    if_neg (not_not.2 (hb.bloom ▸ modBytes_mem_getBloomFilter hmem))]
  exact txProofOf_attests hmem hb.txRoot

/-- The proofs of a batch of the block's transactions all pass. -/
theorem isAllCorrect_of_batch {b : Block H} (hb : b.Sealed) {txs : List Transaction}
    (htxs : ∀ tx ∈ txs, tx.txHash ∈ b.body.map Transaction.txHash) :
    isAllCorrect txs (txProofBatchGenerateOnBlock (txs.map Transaction.txHash) b) = some true := by
  induction txs with
  | nil => rfl
  | cons tx txs ih =>
    rw [List.forall_mem_cons] at htxs
    rw [List.map_cons, txProofBatchGenerateOnBlock, List.map_cons, isAllCorrect,
      (txProofOfBatch_attests hb htxs.1).verifies]
    exact ih htxs.2

/-- **Honest proofs change nothing.** What `RelayWithProofSend` makes of a committed block are the
    messages of `RelayMsgSend` with proofs added, and their receiver handles them as such. -/
theorem handleRelayWithProof_of_relayWithProofSend {n : Leader H} {b : Block H} (hb : b.Sealed)
    {bc : BlockChain H} {pool pool' : TxPool} (hempty : pool.relayPool = ∅)
    (hrelay : bc.collectRelayTxs b.body pool = some pool') {sid : ℕ} {rwp : RelayWithProof H}
    (hmsg : (sid, rwp) ∈ n.relayWithProofSend pool' b) :
    (sid, .relay rwp.txs rwp.senderShardID rwp.senderSeq) ∈ n.relayMsgSend pool' ∧
      ∀ m : Leader H, m.handleRelayWithProof rwp
        = m.handleRelay rwp.txs rwp.senderShardID rwp.senderSeq := by
  obtain ⟨sid', hsid, heq⟩ := List.mem_map.1 hmsg
  rw [Prod.mk.injEq] at heq
  obtain ⟨rfl, rfl⟩ := heq
  refine ⟨List.mem_map.2 ⟨sid', hsid, rfl⟩, ?_⟩
  intro m
  have hfrom : ∀ tx ∈ (pool'.relayPool.lookup sid').getD [],
      tx.txHash ∈ b.body.map Transaction.txHash := by
    intro tx htx
    obtain ⟨-, -, hpool⟩ := BlockChain.collectRelayTxs_spec hrelay
    rw [hpool sid', hempty, Finmap.lookup_empty, Option.getD_none, List.nil_append,
      List.mem_filter] at htx
    obtain ⟨t, ht, rfl⟩ := List.mem_map.1 htx.1
    exact List.mem_map.2 ⟨t, (List.mem_filter.1 ht).1, rfl⟩
  unfold handleRelayWithProof
  rw [isAllCorrect_of_batch hb hfrom]

/-! ## A proof of another transaction -/

section Sample

open BlockChain

/-- The proof of the sample chain's one transfer. -/
def transferProof : TxProofResult SymHash := sampleChain.txProofGenerate [1]

/-- A relayed transaction that no block has. -/
def forged : Transaction := { transfer 9 with txHash := [9], relayed := true }

def relayedWith (tx : Transaction) : RelayWithProof SymHash where
  txs := [tx]
  txProofs := [transferProof]
  senderShardID := 1
  senderSeq := 1

end Sample

/-- The proof of a transfer passes for a transaction that is in no block, and brings it into the
    pool. -/
theorem forged_transaction_accepted :
    txProofVerify forged.txHash transferProof = some (.ok ()) ∧
      ¬ ProvedIn forged.txHash transferProof.txRoot ∧
      ((Leader.new BlockChain.sampleChain).handleRelayWithProof
        (relayedWith forged)).curChain.txpool.txQueue = [forged] := by
  refine ⟨by decide +kernel, ?_, by decide +kernel⟩
  rintro ⟨keys, hroot, hmem⟩
  have hkeys : transferProof.txRoot = Hashing.txRoot {[1]} := by decide +kernel
  rw [Hashing.txRoot_injective (hroot.trans hkeys)] at hmem
  exact absurd hmem (by decide)

/-- The same proof beside its own transaction. -/
theorem relayed_transfer_accepted :
    ProvedIn (H := SymHash) [1] transferProof.txRoot ∧
      ((Leader.new BlockChain.sampleChain).handleRelayWithProof
        (relayedWith (BlockChain.transfer 5))).curChain.txpool.txQueue
          = [BlockChain.transfer 5] := by
  have htold : transferProof.told = (true, [1]) := by decide +kernel
  have hverify : txProofVerify [1] transferProof = some (.ok ()) := by decide +kernel
  have hown : StoppedOrOwn [BlockChain.transfer 5] [(true, [1])] :=
    Or.inr (Or.inr (by simp [BlockChain.transfer]))
  have hfull : ((Leader.new BlockChain.sampleChain).handleRelayWithProof
      (relayedWith (BlockChain.transfer 5))).curChain.txpool.txQueue ≠ [] := by decide +kernel
  obtain ⟨hsound, hpool⟩ := accepted_proof_is_about_its_transaction_iff (H := SymHash)
  refine ⟨(hsound [1] [1] true).2 (Or.inr rfl) transferProof htold hverify, ?_⟩
  have hempty : (Leader.new BlockChain.sampleChain).curChain.txpool.txQueue = [] := by
    decide +kernel
  rcases (hpool (.new BlockChain.sampleChain) _ _).2 hown (relayedWith (BlockChain.transfer 5)) rfl
    (by simp [relayedWith, htold]) with hsame | ⟨hqueue, -, -⟩
  · exact absurd (hsame.trans hempty) hfull
  · rw [hqueue, hempty]
    rfl

end Leader

end BlockEmulator
