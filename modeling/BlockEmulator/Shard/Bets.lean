import BlockEmulator.Chain.Runs
import BlockEmulator.Shard.Whereabouts

set_option autoImplicit false

/-! # Bets across shards

Execution does not credit the recipient of a bet when the sender branch applies. The relay code knows
nothing of bets: it forwards every transaction with a remote recipient as relayed, and a relayed
transaction skips the sender branch. So a bet earns its recipient nothing as long as bets stay inside
one shard, and only then. -/

namespace BlockEmulator

variable {H : Type} [DecidableEq H] [Hashing H] {S : ℕ}

/-- A bet of this shard that has not been relayed credits nobody. -/
theorem credits_eq_false_of_bet {c : ExecCtx} {tx : Transaction} (hbet : tx.g2eEnabled = true)
    (hrelayed : tx.relayed = false) (hsender : c.isLocal tx.sender = true) (st : Accounts) :
    credits c st tx = false := by
  simp [credits, takesSender, hbet, hrelayed, hsender]

namespace ShardWorld

/-- The block that a commit adds has no bet whose sender or recipient is in another shard. -/
def BetsStayLocal (w : ShardWorld H S) : ShardAct S → Prop
  | .commit i => ∀ b ∈ (w.leaders i).proposedBlock, ∀ t ∈ b.body, t.g2eEnabled = true →
      (w.leaders i).curChain.getPartitionMap t.sender = (w.leaders i).shardID ∧
      (w.leaders i).curChain.getPartitionMap t.recipient = (w.leaders i).shardID
  | _ => True

instance (w : ShardWorld H S) : (a : ShardAct S) → Decidable (w.BetsStayLocal a)
  | .commit i => inferInstanceAs (Decidable (∀ b ∈ (w.leaders i).proposedBlock, ∀ t ∈ b.body,
      t.g2eEnabled = true → _ = (w.leaders i).shardID ∧ _ = (w.leaders i).shardID))
  | .txSending _ | .clpaMapSend _ | .deliver _ | .proposeBlock _ _ | .sendPartitionReady _
  | .sendAccountsAndTxs _ _ | .proposePartition _ _ _ => .isTrue trivial

/-- No bet is marked as relayed, and none has credited its recipient. -/
structure BetsUnpaid (w : ShardWorld H S) : Prop where
  unrelayed : Everywhere (fun _ t => t.g2eEnabled = true → t.relayed = false) w
  unpaid : ∀ i, ∀ t ∈ (w.log i).credited, t.g2eEnabled = false

/-- A block whose bets are local credits no recipient of a bet. -/
theorem unpaid_of_commit {bc : BlockChain H} {b : Block H}
    (hrelayed : ∀ t ∈ b.body, t.g2eEnabled = true → t.relayed = false)
    (hlocal : ∀ t ∈ b.body, t.g2eEnabled = true →
      bc.getPartitionMap t.sender = bc.chainConfig.shardID) :
    ∀ t ∈ bc.atTurnOf credits b, t.g2eEnabled = false := by
  intro t ht
  obtain ⟨hmem, st, hcredit⟩ := BlockChain.of_mem_atTurnOf ht
  rw [← Bool.not_eq_true]
  intro hbet
  have hsender : bc.ctx.isLocal t.sender = true := by simpa [BlockChain.ctx] using hlocal t hmem hbet
  rw [credits_eq_false_of_bet hbet (hrelayed t hmem hbet) hsender] at hcredit
  exact absurd hcredit (by simp)

theorem BetsUnpaid.step {ht : HandleType} {w w' : ShardWorld H S} {a : ShardAct S}
    (hw : BetsUnpaid w) (hlocal : w.BetsStayLocal a) (h : w.step ht a = some w') :
    BetsUnpaid w' := by
  have hsteps := steps_of_step h
  constructor
  · refine hw.unrelayed.step hsteps (Or.inl fun _ _ _ h => h) ?_
    rintro i b rfl hphase t ht hbet
    obtain ⟨tx, htx, rfl⟩ := List.mem_map.1 ht
    obtain ⟨hmem, hremote⟩ := List.mem_filter.1 htx
    have hhome := hlocal b (Leader.mem_proposedBlock.2 hphase) tx hmem hbet
    exact absurd hhome.2 (of_decide_eq_true hremote)
  · cases hsteps with
    | commitBlock _ hphase =>
      next i b _ =>
      have hnew : ∀ t ∈ (w.leaders i).curChain.atTurnOf credits b, t.g2eEnabled = false :=
        unpaid_of_commit ((hw.unrelayed.leaders i).proposed b hphase)
          fun t ht hbet => (hlocal b (Leader.mem_proposedBlock.2 hphase) t ht hbet).1
      intro j
      rw [commitBlock_log]
      split
      · exact fun t ht => (List.mem_append.1 ht).elim (hw.unpaid i t) (hnew t)
      · exact hw.unpaid j
    | _ => exact hw.unpaid

/-- **A bet earns nothing.** With the relay or the CLPA module, in every run whose committed blocks
    hold no bet across shards no shard ever credits the recipient of a bet. -/
theorem bets_unpaid_of_run {ht : HandleType} {cc : Fin S → ChainConfig} {storage : Fin S → Storage H}
    {db : Fin S → TrieDB H} {bc : Fin S → BlockChain H} {dataset : List Transaction}
    {w : ShardWorld H S}
    (hnew : ∀ i, BlockChain.newBlockChain (cc i) (storage i) (db i) = some (bc i))
    (hdata : ∀ t ∈ dataset, t.Fresh)
    (hrun : ReachesUnder (step ht) BetsStayLocal (init bc dataset) w) (i : Fin S) :
    ∀ t ∈ (w.log i).credited, t.g2eEnabled = false := by
  have hinit : BetsUnpaid (init bc dataset) := by
    refine ⟨everywhere_init ?_ fun t ht _ => (hdata t ht).1, by simp [init]⟩
    exact fun i => BlockChain.newBlockChain_txQueue (hnew i)
  have hinv : BetsUnpaid w :=
    hrun.invariant hinit fun _ _ _ hw hlocal hstep => hw.step hlocal hstep
  exact hinv.unpaid i

section Sample

open BlockChain

set_option maxRecDepth 100000

/-- Two shards with fresh chains; the account of alice lives in the first, that of bob in the
    second. -/
def twoShards (i : Fin 2) : BlockChain SymHash :=
  (newBlockChain { sampleConfig with shardID := i, shardNums := 2 } Storage.empty
    TrieDB.empty).get rfl

theorem newBlockChain_twoShards (i : Fin 2) :
    newBlockChain { sampleConfig with shardID := i, shardNums := 2 } Storage.empty TrieDB.empty =
      some (twoShards i) :=
  (Option.some_get _).symm

/-- One transaction of the first shard: it is sent, proposed and committed there, and what the commit
    relays is proposed and committed in the second shard. -/
def crossing : List (ShardAct 2) :=
  [.txSending 1, .deliver 0, .proposeBlock 0 0, .commit 0, .deliver 1, .proposeBlock 1 0, .commit 1]

/-- A bet of alice whose recipient is alice stays in the first shard. -/
theorem local_bet_unpaid :
    ∃ w, ReachesUnder (step .relay) BetsStayLocal
        (init twoShards [{ bet 1 5 with recipient := alice }]) w ∧
      { bet 1 5 with recipient := alice } ∈ (w.log 0).recorded ∧
      ∀ i, ∀ t ∈ (w.log i).credited, t.g2eEnabled = false := by
  have hrun : ∃ w ∈ runChecked (step .relay) (fun w a => decide (w.BetsStayLocal a))
      (init twoShards [{ bet 1 5 with recipient := alice }]) crossing,
      { bet 1 5 with recipient := alice } ∈ (w.log 0).recorded := by decide +kernel
  obtain ⟨w, hw, hrec⟩ := hrun
  have hreach := reachesUnder_of_runDecided hw
  refine ⟨w, hreach, hrec, bets_unpaid_of_run newBlockChain_twoShards ?_ hreach⟩
  simp [Transaction.Fresh, bet]

/-- A bet whose recipient is in the other shard is recorded in the first and paid in the second. -/
theorem crossing_bet_is_paid :
    ∃ w, Reaches (step .relay) (init twoShards [bet 1 5]) w ∧ bet 1 5 ∈ (w.log 0).recorded ∧
      { bet 1 5 with relayed := true } ∈ (w.log 1).credited ∧
      ∃ st, (w.leaders 1).curChain.accounts = some st ∧ st.balance bob = initBalance + 1 := by
  have hrun : ∃ w ∈ runActions (step .relay) (init twoShards [bet 1 5]) crossing,
      bet 1 5 ∈ (w.log 0).recorded ∧ { bet 1 5 with relayed := true } ∈ (w.log 1).credited ∧
      ∃ st ∈ (w.leaders 1).curChain.accounts, st.balance bob = initBalance + 1 := by
    decide +kernel
  obtain ⟨w, hw, hrec, hcredit, st, hst, hbal⟩ := hrun
  exact ⟨w, reaches_of_runActions hw, hrec, hcredit, st, hst, hbal⟩

end Sample

end ShardWorld

end BlockEmulator
