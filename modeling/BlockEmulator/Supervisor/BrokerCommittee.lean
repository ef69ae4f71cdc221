import BlockEmulator.Shard.Bets

set_option autoImplicit false

/-! # The broker committee

`supervisor/committee/committee_broker.go`: the supervisor splits a transfer between two shards into
one from the sender to a broker (`tx1`) and one from the broker to the recipient (`tx2`). Both halves
are made by `NewTransaction`, which makes every transaction a bet.

The first half does to the sender what the transfer itself would do. The second half is another bet,
of the broker, if the broker's address belongs to the recipient's shard; if not, the sender branch of
execution does not apply and the recipient is paid the value, which a bet never does. -/

namespace BlockEmulator

variable {H : Type} [DecidableEq H] [Hashing H]

/-- The digest of an encoded transaction; the encoding has the time stamp. -/
abbrev TxDigest := Transaction → ℕ → List UInt8

/-- `core.NewTransaction`. -/
def newTransaction (digest : TxDigest) (sender recipient : Address) (value : ℤ)
    (nonce proposeTime height pairI pairJ : ℕ) : Transaction :=
  -- what is hashed are the fields given, before the others are set
  let tx : Transaction :=
    { sender := sender
      recipient := recipient
      nonce := nonce
      value := value
      txHash := []
      height := height
      pairI := pairI
      pairJ := pairJ }
  { tx with
    txHash := digest tx proposeTime
    relayed := false
    finalRecipient := none
    originalSender := none
    rawTxHash := none
    hasBroker := false
    senderIsBroker := false
    g2eEnabled := true }

/-- `message.BrokerRawMeg`. -/
structure BrokerRawMeg where
  tx : Transaction
  broker : Address

/-- `message.BrokerType1Meg` and `message.BrokerType2Meg`. -/
structure BrokerTypeMeg where
  rawMeg : BrokerRawMeg
  broker : Address

/-- `message.Mag1Confirm` and `message.Mag2Confirm`, with the hash of the half. -/
structure MagConfirm where
  txHash : List UInt8
  rawMeg : BrokerRawMeg

/-- The confirmation pools of `BrokerCommitteeMod`, by the hash of the half. -/
structure BrokerCommittee where
  brokerConfirm1Pool : Finmap (fun _ : List UInt8 => MagConfirm) := ∅
  brokerConfirm2Pool : Finmap (fun _ : List UInt8 => MagConfirm) := ∅

namespace BrokerCommittee

/-- A half of the transfer `ctx`, with its ends. -/
def halfOf (digest : TxDigest) (now : ℕ) (ctx : Transaction) (sender recipient : Address) :
    Transaction :=
  { newTransaction digest sender recipient ctx.value ctx.nonce now ctx.height ctx.pairI
      ctx.pairJ with
    originalSender := some ctx.sender
    finalRecipient := some ctx.recipient
    rawTxHash := some ctx.txHash }

/-- The first half: the sender to the broker. -/
def tx1Of (digest : TxDigest) (now : ℕ) (meg : BrokerTypeMeg) : Transaction :=
  halfOf digest now meg.rawMeg.tx meg.rawMeg.tx.sender meg.broker

/-- The second half: the broker to the recipient. -/
def tx2Of (digest : TxDigest) (now : ℕ) (meg : BrokerTypeMeg) : Transaction :=
  halfOf digest now meg.rawMeg.tx meg.broker meg.rawMeg.tx.recipient

/-- The loop of the two handlers: every half is registered under its hash and handed on. A message
    stands with the time it is handled at. -/
def register (half : ℕ → BrokerTypeMeg → Transaction)
    (pool : Finmap fun _ : List UInt8 => MagConfirm) :
    List (ℕ × BrokerTypeMeg) → Finmap (fun _ : List UInt8 => MagConfirm) × List Transaction
  | [] => (pool, [])
  | (now, meg) :: megs =>
    let tx := half now meg
    let r := register half (Finmap.insert tx.txHash ⟨tx.txHash, meg.rawMeg⟩ pool) megs
    (r.1, tx :: r.2)

/-- `handleBrokerType1Mes`: the committee, and the transactions given to `txSending`. -/
def handleBrokerType1Mes (digest : TxDigest) (bcm : BrokerCommittee)
    (megs : List (ℕ × BrokerTypeMeg)) : BrokerCommittee × List Transaction :=
  let r := register (tx1Of digest) bcm.brokerConfirm1Pool megs
  ({ bcm with brokerConfirm1Pool := r.1 }, r.2)

/-- `handleBrokerType2Mes`. -/
def handleBrokerType2Mes (digest : TxDigest) (bcm : BrokerCommittee)
    (megs : List (ℕ × BrokerTypeMeg)) : BrokerCommittee × List Transaction :=
  let r := register (tx2Of digest) bcm.brokerConfirm2Pool megs
  ({ bcm with brokerConfirm2Pool := r.1 }, r.2)

end BrokerCommittee

/-! ## What transactions do to balances and books -/

/-- What is recorded of a bet: player, pair, height and amount. -/
def Transaction.bet (tx : Transaction) : Address × Pair × ℕ × ℤ :=
  (tx.sender, (tx.pairI, tx.pairJ), tx.height, tx.value)

namespace BlockChain

/-- By how much executing `txs` on the accounts `st` changes a balance. -/
def balanceChange (bc : BlockChain H) (txs : List Transaction) (st : Accounts) (a : Address) : ℤ :=
  (bc.execLoop txs st).st.balance a - st.balance a

/-- The bets that executing `txs` adds to the book. -/
def betsAdded (bc : BlockChain H) (txs : List Transaction) (st : Accounts) :
    Multiset (Address × Pair × ℕ × ℤ) :=
  (bc.newBets txs st).map Transaction.bet

theorem balanceChange_singleton (bc : BlockChain H) (tx : Transaction) (st : Accounts)
    (a : Address) : bc.balanceChange [tx] st a =
      (if credits bc.ctx st tx = true ∧ a = tx.recipient then tx.value else 0)
      - if debits bc.ctx st tx = true ∧ a = tx.sender then tx.value else 0 := by
  have hturn := (execTx_turn bc.ctx 0 tx ⟨st, bc.g2eBook, 0⟩).balance a
  rw [balanceChange, execLoop, execTxs, execTxs, hturn]
  ring

theorem betsAdded_singleton (bc : BlockChain H) (tx : Transaction) (st : Accounts) :
    bc.betsAdded [tx] st = if accepts bc.ctx st tx = true then {tx.bet} else 0 := by
  rw [betsAdded, newBets, acceptedBets, atTurn, atTurn]
  split <;> rfl

end BlockChain

/-! ## Bets at home and abroad -/

/-- What `NewTransaction` and the committee make: a bet that is neither relayed nor marked as
    touching a broker. -/
structure Transaction.IsBet (tx : Transaction) : Prop where
  g2eEnabled : tx.g2eEnabled = true
  relayed : tx.relayed = false
  hasBroker : tx.hasBroker = false

section Bets

variable {tx : Transaction} (hbet : tx.IsBet) (c : ExecCtx) (st : Accounts)

include hbet in
/-- A bet whose sender lives here and can pay is recorded and pays nobody. -/
theorem Transaction.IsBet.local_paid (hlocal : c.isLocal tx.sender = true)
    (hwindow : tooClose c tx = false) (hpay : tx.value ≤ st.balance tx.sender) :
    debits c st tx = true ∧ credits c st tx = false ∧ accepts c st tx = true := by
  simp [debits, credits, accepts, takesSender, hbet.g2eEnabled, hbet.relayed, hlocal, hwindow, hpay]

include hbet in
/-- A bet whose sender lives here and cannot pay does nothing. -/
theorem Transaction.IsBet.local_unpaid (hlocal : c.isLocal tx.sender = true)
    (hpoor : st.balance tx.sender < tx.value) :
    debits c st tx = false ∧ credits c st tx = false ∧ accepts c st tx = false := by
  simp [debits, credits, accepts, takesSender, hbet.relayed, hlocal, not_le.2 hpoor]

include hbet in
/-- A bet whose sender does not live here is a payment to the recipient. -/
theorem Transaction.IsBet.abroad (hremote : c.isLocal tx.sender = false) :
    debits c st tx = false ∧ credits c st tx = c.isLocal tx.recipient ∧
      accepts c st tx = false := by
  simp [debits, credits, accepts, takesSender, hbet.hasBroker, hremote]

end Bets

/-! ## Splitting a transfer -/

/-- What a transfer does: to its sender, to its recipient, and to the books. -/
structure Effect where
  sender : ℤ
  recipient : ℤ
  bets : Multiset (Address × Pair × ℕ × ℤ)
deriving DecidableEq

/-- The transfer is executed in one shard. -/
def effect (bc : BlockChain H) (st : Accounts) (tx : Transaction) : Effect where
  sender := bc.balanceChange [tx] st tx.sender
  recipient := bc.balanceChange [tx] st tx.recipient
  bets := bc.betsAdded [tx] st

/-- The committee splits the transfer; the first half is executed in the sender's shard and then the
    second in the recipient's. -/
def splitEffect (digest : TxDigest) (bcm : BrokerCommittee) (tx : Transaction) (broker : Address)
    (t₁ t₂ : ℕ) (bcA bcB : BlockChain H) (stA stB : Accounts) : Effect :=
  let r₁ := bcm.handleBrokerType1Mes digest [(t₁, ⟨⟨tx, broker⟩, broker⟩)]
  let r₂ := r₁.1.handleBrokerType2Mes digest [(t₂, ⟨⟨tx, broker⟩, broker⟩)]
  { sender := bcA.balanceChange r₁.2 stA tx.sender
    recipient := bcB.balanceChange r₂.2 stB tx.recipient
    bets := bcA.betsAdded r₁.2 stA + bcB.betsAdded r₂.2 stB }

/-- Who lives where. The original is executed in the shard of `bc`, where its sender lives; the
    recipient may live there or not. The halves are executed in the shards of `bcA` and `bcB`. -/
structure Crosses (tx : Transaction) (broker : Address) (bc bcA bcB : BlockChain H) : Prop where
  notBroker : tx.recipient ≠ broker
  home : bc.ctx.isLocal tx.sender = true
  senderHome : bcA.ctx.isLocal tx.sender = true
  recipientHome : bcB.ctx.isLocal tx.recipient = true
  apart : bcB.ctx.isLocal tx.sender = false

section Split

variable (digest : TxDigest) {tx : Transaction} {broker : Address}

theorem isBet_newTransaction (sender recipient : Address) (value : ℤ)
    (nonce time height pairI pairJ : ℕ) :
    (newTransaction digest sender recipient value nonce time height pairI pairJ).IsBet :=
  ⟨rfl, rfl, rfl⟩

theorem isBet_halfOf (now : ℕ) (ctx : Transaction) (sender recipient : Address) :
    (BrokerCommittee.halfOf digest now ctx sender recipient).IsBet :=
  ⟨rfl, rfl, rfl⟩

/-- A bet at home costs the sender its value and is recorded. -/
theorem balanceChange_of_paid (bc : BlockChain H) (st : Accounts) (hbet : tx.IsBet)
    (hlocal : bc.ctx.isLocal tx.sender = true) (hwindow : tooClose bc.ctx tx = false)
    (hpay : tx.value ≤ st.balance tx.sender) :
    (∀ a, bc.balanceChange [tx] st a = if a = tx.sender then -tx.value else 0) ∧
      bc.betsAdded [tx] st = {tx.bet} := by
  obtain ⟨hd, hc, ha⟩ := hbet.local_paid bc.ctx st hlocal hwindow hpay
  refine ⟨fun a => ?_, by rw [BlockChain.betsAdded_singleton, if_pos ha]⟩
  rw [BlockChain.balanceChange_singleton, hd, hc]
  by_cases h : a = tx.sender <;> simp [h]

/-- The second half in a shard to which the broker's address belongs. -/
theorem tx2_at_home {bcB : BlockChain H} (stB : Accounts) (hbroker : bcB.ctx.isLocal broker = true)
    (hnot : tx.recipient ≠ broker) (hwindow : tooClose bcB.ctx tx = false) (now : ℕ) :
    bcB.balanceChange [BrokerCommittee.tx2Of digest now ⟨⟨tx, broker⟩, broker⟩] stB
        tx.recipient = 0 ∧
      (bcB.betsAdded [BrokerCommittee.tx2Of digest now ⟨⟨tx, broker⟩, broker⟩] stB = 0 ↔
        stB.balance broker < tx.value) := by
  have hbet := isBet_halfOf digest now tx broker tx.recipient
  by_cases hpoor : stB.balance broker < tx.value
  · obtain ⟨hd, hc, ha⟩ := hbet.local_unpaid bcB.ctx stB hbroker hpoor
    refine ⟨?_, iff_of_true ?_ hpoor⟩
    · rw [BrokerCommittee.tx2Of, BlockChain.balanceChange_singleton, hd, hc]
      simp
    · rw [BrokerCommittee.tx2Of, BlockChain.betsAdded_singleton, ha]
      simp
  · obtain ⟨hchange, hbets⟩ := balanceChange_of_paid bcB stB hbet hbroker hwindow
      (not_lt.1 hpoor)
    refine ⟨(hchange tx.recipient).trans (if_neg hnot), iff_of_false ?_ hpoor⟩
    rw [BrokerCommittee.tx2Of, hbets]
    simp

/-- The second half in a shard to which the broker's address does not belong. -/
theorem tx2_abroad {bcB : BlockChain H} (stB : Accounts)
    (hbroker : bcB.ctx.isLocal broker = false) (hhome : bcB.ctx.isLocal tx.recipient = true)
    (now : ℕ) :
    bcB.balanceChange [BrokerCommittee.tx2Of digest now ⟨⟨tx, broker⟩, broker⟩] stB tx.recipient =
        tx.value ∧
      bcB.betsAdded [BrokerCommittee.tx2Of digest now ⟨⟨tx, broker⟩, broker⟩] stB = 0 := by
  have hbet := isBet_halfOf digest now tx broker tx.recipient
  obtain ⟨hd, hc, ha⟩ := hbet.abroad bcB.ctx stB hbroker
  have hcredit : credits bcB.ctx stB (BrokerCommittee.halfOf digest now tx broker tx.recipient) =
      true := hc.trans hhome
  constructor
  · rw [BrokerCommittee.tx2Of, BlockChain.balanceChange_singleton, hd, hcredit]
    simp [BrokerCommittee.halfOf, newTransaction]
  · rw [BrokerCommittee.tx2Of, BlockChain.betsAdded_singleton, ha]
    simp

end Split

/-- **When splitting is transparent.** A transfer within the betting window that its sender can pay
    has the same effect split as in one shard if and only if the broker's address belongs to the
    recipient's shard and the broker cannot pay there, or it does not belong there and the value is
    zero. -/
theorem splitEffect_eq_iff {digest : TxDigest} {bcm : BrokerCommittee} {tx : Transaction}
    {A B broker : Address} {V : ℤ} {nonce t height pairI pairJ t₁ t₂ : ℕ}
    {bc bcA bcB : BlockChain H} {st stA stB : Accounts}
    (htx : tx = newTransaction digest A B V nonce t height pairI pairJ)
    (hcross : Crosses tx broker bc bcA bcB)
    (hwindow : tooClose bc.ctx tx = false ∧ tooClose bcA.ctx tx = false ∧
      tooClose bcB.ctx tx = false)
    (hpay : tx.value ≤ st.balance tx.sender ∧ tx.value ≤ stA.balance tx.sender) :
    splitEffect digest bcm tx broker t₁ t₂ bcA bcB stA stB = effect bc st tx ↔
      if bcB.ctx.isLocal broker then stB.balance broker < tx.value else tx.value = 0 := by
  obtain ⟨hnot, hhome, hsender, hrecipient, hapart⟩ := hcross
  have hne : tx.recipient ≠ tx.sender := by
    intro h
    rw [h, hapart] at hrecipient
    exact absurd hrecipient (by simp)
  have hbet : tx.IsBet := htx ▸ isBet_newTransaction digest A B V nonce t height pairI pairJ
  have horiginal : effect bc st tx = ⟨-tx.value, 0, {tx.bet}⟩ := by
    obtain ⟨hchange, hbets⟩ := balanceChange_of_paid bc st hbet hhome hwindow.1 hpay.1
    rw [effect, hchange, hchange, hbets, if_pos rfl, if_neg hne]
  -- the first half does to its sender what the original does
  obtain ⟨hchange, hbets⟩ := balanceChange_of_paid bcA stA
    (isBet_halfOf digest t₁ tx tx.sender broker) hsender hwindow.2.1 hpay.2
  have hsplit : splitEffect digest bcm tx broker t₁ t₂ bcA bcB stA stB =
      ⟨-tx.value,
        bcB.balanceChange [BrokerCommittee.tx2Of digest t₂ ⟨⟨tx, broker⟩, broker⟩] stB tx.recipient,
        {tx.bet} + bcB.betsAdded [BrokerCommittee.tx2Of digest t₂ ⟨⟨tx, broker⟩, broker⟩] stB⟩ :=
    congrArg₂ (fun change bets => Effect.mk change _ (bets + _))
      ((hchange tx.sender).trans (if_pos rfl)) hbets
  rw [hsplit, horiginal, Effect.mk.injEq, add_eq_left]
  cases hbroker : bcB.ctx.isLocal broker with
  | true =>
    obtain ⟨hzero, hiff⟩ := tx2_at_home digest stB hbroker hnot hwindow.2.2 t₂
    simp only [hzero, hiff, true_and, if_true]
  | false =>
    obtain ⟨hpaid, hnone⟩ := tx2_abroad digest stB hbroker hrecipient t₂
    simp [hpaid, hnone]

/-! ## Alice pays bob through a broker -/

section Sample

open BlockChain ShardWorld

/-- Lives in the second of two shards, as bob does. -/
def dave : Address := ⟨['d'], rfl⟩

def sampleDigest : TxDigest := fun tx time => [UInt8.ofNat (tx.nonce + time)]

/-- A bet of five for height 3. -/
def toBob : Transaction := newTransaction sampleDigest alice bob 5 0 0 3 1 0

/-- The broker lives in bob's shard and has no money there. -/
theorem poor_broker_transparent :
    splitEffect sampleDigest {} toBob dave 1 2 (twoShards 0) (twoShards 1) ∅
        (Finmap.singleton dave { nonce := 0, balance := 0 }) =
      effect sampleGenesis ∅ toBob := by
  have hcross : Crosses toBob dave sampleGenesis (twoShards 0) (twoShards 1) :=
    ⟨by decide, by decide +kernel, by decide +kernel, by decide +kernel, by decide +kernel⟩
  have htx : toBob = newTransaction sampleDigest alice bob 5 0 0 3 1 0 := rfl
  exact (splitEffect_eq_iff htx hcross (by decide +kernel) (by decide)).2 (by decide +kernel)

/-- With the initial balance everywhere: a broker from bob's shard bets as well, through one from
    elsewhere bob is paid. -/
theorem broker_not_transparent :
    effect sampleGenesis ∅ toBob =
      { sender := -5, recipient := 0, bets := {(alice, (1, 0), 3, 5)} } ∧
    splitEffect sampleDigest {} toBob dave 1 2 (twoShards 0) (twoShards 1) ∅ ∅ =
      { sender := -5, recipient := 0, bets := {(alice, (1, 0), 3, 5), (dave, (1, 0), 3, 5)} } ∧
    splitEffect sampleDigest {} toBob carol 1 2 (twoShards 0) (twoShards 1) ∅ ∅ =
      { sender := -5, recipient := 5, bets := {(alice, (1, 0), 3, 5)} } := by
  decide +kernel

end Sample

end BlockEmulator
