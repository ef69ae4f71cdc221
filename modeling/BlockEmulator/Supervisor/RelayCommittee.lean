import BlockEmulator.Lib.Numerals
import BlockEmulator.Shard.Static
import BlockEmulator.Supervisor.BrokerCommittee

set_option autoImplicit false

/-! # The relay committee

`supervisor/committee/committee_relay.go`: the supervisor reads a CSV file record by record, makes a
transaction of every legal record and sends it to the shard of its sender. What it reads is the dataset
of a `ShardWorld`; the world sends any of it in any batches.

Whatever the file holds, the transactions made of it are not relayed, so in relay mode every
transaction is at home in every pool and in every block, and the panics of `HandleinCommit` on an
incorrect transaction are out of reach (`ShardWorld.incorrect_tx_unreachable`). -/

namespace BlockEmulator

variable {H : Type} [DecidableEq H] [Hashing H] {S : ℕ}

/-! ## Reading the dataset -/

/-- The address with the given text, unless `Addr2Shard` panics on it. -/
def Address.ofText (text : List Char) : Option Address :=
  if h : (parseHex (last8 text)).isSome = true then some ⟨text, h⟩ else none

/-- A transaction as it is read. Its addresses are the texts that stand in the record; the first to
    parse one is `Addr2Shard`, when it places the account. -/
structure TextTx where
  sender : List Char
  recipient : List Char
  value : ℤ
  nonce : ℕ
  proposeTime : ℕ
  height : ℕ
  pairI : ℕ
  pairJ : ℕ
deriving DecidableEq

/-- The transaction, if both of its accounts can be placed. -/
def TextTx.toTransaction (digest : TxDigest) (t : TextTx) : Option Transaction :=
  (Address.ofText t.sender).bind fun sender =>
    (Address.ofText t.recipient).map fun recipient =>
      newTransaction digest sender recipient t.value t.nonce t.proposeTime t.height t.pairI t.pairJ

theorem TextTx.toTransaction_spec {digest : TxDigest} {t : TextTx} {tx : Transaction}
    (h : t.toTransaction digest = some tx) : tx.value = t.value ∧ tx.Fresh := by
  obtain ⟨sender, -, h⟩ := Option.bind_eq_some_iff.1 h
  obtain ⟨recipient, -, rfl⟩ := Option.map_eq_some_iff.1 h
  exact ⟨rfl, rfl, rfl⟩

/-- The fields of a record, one `Char` a byte. -/
abbrev CsvRecord := List (List Char)

namespace CsvRecord

/-- The condition of `data2tx`, from left to right; `none` is an index out of range. -/
def isLegal (data : CsvRecord) : Option Bool :=
  data[3]?.bind fun d3 =>
    if d3 ≠ ['0'] then some false
    else data[4]?.map fun d4 =>
      d4 = ['0'] ∧ 16 < (data.getD 0 []).length ∧ 16 < (data.getD 1 []).length ∧
        data.getD 0 [] ≠ data.getD 1 []

/-- What both functions named `data2tx` do, at time `now`, with their way of reading an amount. The
    outer `none` is a panic, the inner one a record that is left out. -/
def data2txBy (amountOf : List Char → Option ℤ) (now : ℕ) (data : CsvRecord) (nonce : ℕ) :
    Option (Option TextTx) :=
  data.isLegal.bind fun legal =>
    if legal then
      (data[5]?.bind amountOf).bind fun value =>
        data[6]?.bind fun height => data[7]?.bind fun pairI => data[8]?.map fun pairJ =>
          some
            { sender := (data.getD 0 []).drop 2
              recipient := (data.getD 1 []).drop 2
              value := value
              nonce := nonce
              proposeTime := now
              height := parseUint height
              pairI := parseUint pairI
              pairJ := parseUint pairJ }
    else some none

/-- `data2tx` of the committees, which reads the amount as a `big.Float` and cuts it down to an
    integer. -/
def data2tx (now : ℕ) (data : CsvRecord) (nonce : ℕ) : Option (Option TextTx) :=
  data2txBy (fun text => (BigFloat.setString text).map BigFloat.int) now data nonce

/-- `data2tx` of the final-result test, which reads the amount as a `big.Int`. -/
def referenceData2tx (now : ℕ) (data : CsvRecord) (nonce : ℕ) : Option (Option TextTx) :=
  data2txBy bigIntSetString now data nonce

section Data2tx

variable {now : ℕ} {data : CsvRecord} {nonce : ℕ} {tx : TextTx}

/-- The accepted records, and what is made of them. -/
theorem data2txBy_eq_some_iff {amountOf : List Char → Option ℤ} :
    data2txBy amountOf now data nonce = some (some tx) ↔
      data.isLegal = some true ∧
        (∃ amount, data[5]? = some amount ∧ amountOf amount = some tx.value) ∧
        (∃ d6, data[6]? = some d6 ∧ tx.height = parseUint d6) ∧
        (∃ d7, data[7]? = some d7 ∧ tx.pairI = parseUint d7) ∧
        (∃ d8, data[8]? = some d8 ∧ tx.pairJ = parseUint d8) ∧
        tx.sender = (data.getD 0 []).drop 2 ∧ tx.recipient = (data.getD 1 []).drop 2 ∧
        tx.nonce = nonce ∧ tx.proposeTime = now := by
  constructor
  · intro h
    unfold data2txBy at h
    obtain ⟨legal, hlegal, h⟩ := Option.bind_eq_some_iff.1 h
    cases legal with
    | false => exact absurd h (by simp)
    | true =>
      rw [if_pos rfl] at h
      obtain ⟨value, hvalue, h⟩ := Option.bind_eq_some_iff.1 h
      obtain ⟨amount, hamount, hvalue⟩ := Option.bind_eq_some_iff.1 hvalue
      obtain ⟨d6, hd6, h⟩ := Option.bind_eq_some_iff.1 h
      obtain ⟨d7, hd7, h⟩ := Option.bind_eq_some_iff.1 h
      obtain ⟨d8, hd8, htx⟩ := Option.map_eq_some_iff.1 h
      obtain rfl := Option.some.inj htx
      exact ⟨hlegal, ⟨amount, hamount, hvalue⟩, ⟨d6, hd6, rfl⟩, ⟨d7, hd7, rfl⟩, ⟨d8, hd8, rfl⟩,
        rfl, rfl, rfl, rfl⟩
  · rintro ⟨hlegal, ⟨amount, hamount, hvalue⟩, ⟨d6, hd6, hheight⟩, ⟨d7, hd7, hpairI⟩,
      ⟨d8, hd8, hpairJ⟩, hsender, hrecipient, rfl, rfl⟩
    obtain ⟨sender, recipient, value, nonce, time, height, pairI, pairJ⟩ := tx
    simp only at hvalue hheight hpairI hpairJ hsender hrecipient
    subst hheight hpairI hpairJ hsender hrecipient
    simp [data2txBy, hlegal, hamount, hvalue, hd6, hd7, hd8]

theorem data2tx_spec (h : data.data2tx now nonce = some (some tx)) :
    data.isLegal = some true ∧ ∃ amount, data[5]? = some amount ∧
      ∃ val, BigFloat.setString amount = some val ∧ tx.value = val.int := by
  obtain ⟨hlegal, ⟨amount, hamount, hvalue⟩, -⟩ := data2txBy_eq_some_iff.1 h
  obtain ⟨val, hval, hint⟩ := Option.map_eq_some_iff.1 hvalue
  exact ⟨hlegal, amount, hamount, val, hval, hint.symm⟩

/-- **Amounts.** On an accepted record whose amount is an integer in decimal, the test's reader gives a
    transaction of that value, and `data2tx` does exactly if the integer has at most 64 significant
    bits. -/
theorem value_exact_iff (h : data.data2tx now nonce = some (some tx)) {amount : List Char}
    (hamount : data[5]? = some amount) {n : ℤ} (hn : bigIntSetString amount = some n) :
    (∃ ref, data.referenceData2tx now nonce = some (some ref) ∧ ref.value = n) ∧
      (tx.value = n ↔ BigFloat.Fits n.natAbs) := by
  constructor
  · -- only the amount is read in another way
    obtain ⟨hlegal, -, hrest⟩ := data2txBy_eq_some_iff.1 h
    exact ⟨{ tx with value := n },
      data2txBy_eq_some_iff.2 ⟨hlegal, ⟨amount, hamount, hn⟩, hrest⟩, rfl⟩
  · obtain ⟨-, amount', hamount', val, hval, hvalue⟩ := data2tx_spec h
    obtain rfl : amount = amount' := Option.some.inj (hamount.symm.trans hamount')
    rw [hvalue]
    exact BigFloat.int_eq_iff_fits hn hval

end Data2tx

/-- The transactions that the reading loop of `MsgSendingControl` makes after `nowDataNum` others; a
    panic ends it. Here it also ends at the first transaction with an account that cannot be placed.
    In the source such a transaction is read and panics later: in `txSending` if it is its sender, and
    in `HandleinCommit` of the sender's shard, when the main node places its recipient, otherwise. -/
def readDataset (digest : TxDigest) (now : ℕ → ℕ) (dataTotalNum : ℕ) :
    ℕ → List CsvRecord → List Transaction
  | _, [] => []
  | nowDataNum, data :: rest =>
    match data.data2tx (now nowDataNum) nowDataNum with
    | none => []
    | some none =>
      if nowDataNum = dataTotalNum then []
      else readDataset digest now dataTotalNum nowDataNum rest
    | some (some t) =>
      match t.toTransaction digest with
      | none => []
      | some tx =>
        tx :: if nowDataNum + 1 = dataTotalNum then []
          else readDataset digest now dataTotalNum (nowDataNum + 1) rest

/-- Every transaction of the dataset is made of an accepted record. -/
theorem of_mem_readDataset {digest : TxDigest} {now : ℕ → ℕ} {dataTotalNum nowDataNum : ℕ}
    {records : List CsvRecord} {tx : Transaction}
    (h : tx ∈ readDataset digest now dataTotalNum nowDataNum records) :
    ∃ data ∈ records, ∃ nonce t, data.data2tx (now nonce) nonce = some (some t) ∧
      t.toTransaction digest = some tx := by
  induction records generalizing nowDataNum with
  | nil => exact absurd h (by simp [readDataset])
  | cons data rest ih =>
    have hrest : ∀ {n}, tx ∈ readDataset digest now dataTotalNum n rest →
        ∃ data' ∈ data :: rest, ∃ nonce t, data'.data2tx (now nonce) nonce = some (some t) ∧
          t.toTransaction digest = some tx := fun hmem => by
      obtain ⟨data', hdata', hread⟩ := ih hmem
      exact ⟨data', List.mem_cons_of_mem _ hdata', hread⟩
    rw [readDataset] at h
    split at h
    · exact absurd h (by simp)
    · split at h
      · exact absurd h (by simp)
      · exact hrest h
    · next t hread =>
      split at h
      · exact absurd h (by simp)
      · next tx' hplaced =>
        rcases List.mem_cons.1 h with rfl | h
        · exact ⟨data, List.mem_cons_self .., nowDataNum, t, hread, hplaced⟩
        · split at h
          · exact absurd h (by simp)
          · exact hrest h

/-- What the supervisor reads is neither relayed nor brokered. -/
theorem fresh_of_mem_readDataset {digest : TxDigest} {now : ℕ → ℕ} {dataTotalNum nowDataNum : ℕ}
    {records : List CsvRecord} {tx : Transaction}
    (h : tx ∈ readDataset digest now dataTotalNum nowDataNum records) : tx.Fresh := by
  obtain ⟨data, -, nonce, t, -, hplaced⟩ := of_mem_readDataset h
  exact (TextTx.toTransaction_spec hplaced).2

end CsvRecord

/-! ## Every transaction is where it belongs -/

/-- The transactions of every block the leader has stored have work to do in shard `i`. -/
def Leader.StoredAtHome (S i : ℕ) (n : Leader H) : Prop :=
  ∀ hash b, n.curChain.storage.getBlock hash = some b → ∀ t ∈ b.body, AtHome S i t

namespace Leader.StoredAtHome

variable {i : ℕ} {n : Leader H}

/-- Only the storage matters. -/
theorem congr (hn : n.StoredAtHome S i) {n' : Leader H}
    (hstorage : n'.curChain.storage = n.curChain.storage) : n'.StoredAtHome S i := by
  unfold StoredAtHome
  rw [hstorage]
  exact hn

/-- Appending a block whose transactions are at home. -/
theorem appended (hn : n.StoredAtHome S i) {b : Block H} (hb : ∀ t ∈ b.body, AtHome S i t)
    (pool : TxPool) : (n.appended b pool).StoredAtHome S i := by
  intro hash b' hb'
  rcases Storage.of_getBlock_addBlock hb' with rfl | hold
  · exact hb
  · exact hn hash b' hold

/-- A fresh chain has stored the genesis block, which is empty. -/
theorem new {cc : ChainConfig} {db : TrieDB H} {bc : BlockChain H}
    (h : BlockChain.newBlockChain cc Storage.empty db = some bc) :
    (Leader.new bc).StoredAtHome S i := by
  obtain rfl := Option.some.inj h
  intro hash b hb t ht
  rcases Storage.of_getBlock_addBlock hb with rfl | hold
  · exact absurd ht (by simp [BlockChain.newGenisisBlock])
  · exact absurd hold (by simp [Storage.getBlock, Storage.empty])

end Leader.StoredAtHome

namespace ShardWorld

theorem storedAtHome_step {w w' : ShardWorld H S} {a : ShardAct S} (hw : Static w)
    (hstored : ∀ i : Fin S, (w.leaders i).StoredAtHome S i) (h : StaticStep w a w') :
    ∀ i : Fin S, (w'.leaders i).StoredAtHome S i := by
  have hafter : ∀ {i : Fin S} {n : Leader H}, n.StoredAtHome S i →
      ∀ j : Fin S, (Function.update w.leaders i n j).StoredAtHome S j := fun hn =>
    (forall_leaders_after (p := fun j m => m.StoredAtHome S j)).2 ⟨hn, fun j _ => hstored j⟩
  cases h with
  | txSending => exact hstored
  | @deliver k i m _ _ =>
    obtain ⟨pool, hchain, -⟩ := (w.leaders i).handleMessage_relay m
    exact hafter ((hstored i).congr (by rw [hchain]))
  | proposePanics i now => exact hafter ((hstored i).congr rfl)
  | proposeBlock _ hgen =>
    obtain ⟨hfiles, -⟩ := BlockChain.generateBlock_spec hgen
    exact hafter ((hstored _).congr hfiles.storage)
  | commitBlock hb _ =>
    exact hafter ((hstored _).appended
      ((hw.atHome.leaders _).proposed _ (Leader.mem_proposedBlock.1 hb)) _)

/-- **The incorrect transactions of relay mode are out of reach.** Whatever is read, packed and
    delivered, in every state that relay mode reaches every transaction in a pool, in a proposed block,
    in a stored block or on its way to a shard is either not relayed and has its sender there, or is
    relayed and has its recipient there; and the checks of `HandleinCommit` pass on the block that is
    to be committed. -/
theorem incorrect_tx_unreachable {cc : Fin S → ChainConfig} {db : Fin S → TrieDB H}
    {bc : Fin S → BlockChain H} {digest : TxDigest} {now : ℕ → ℕ} {dataTotalNum : ℕ}
    {records : List CsvRecord} {w : ShardWorld H S}
    (hid : ∀ i, (cc i).shardID = i) (hnums : ∀ i, (cc i).shardNums = S)
    (hnew : ∀ i, BlockChain.newBlockChain (cc i) Storage.empty (db i) = some (bc i))
    (hrun : Reaches (step .relay)
      (init bc (CsvRecord.readDataset digest now dataTotalNum 0 records)) w) :
    (∀ i : Fin S,
      (∀ t ∈ (w.leaders i).curChain.txpool.txQueue, AtHome S i t) ∧
      (∀ b ∈ (w.leaders i).proposedBlock, ∀ t ∈ b.body, AtHome S i t) ∧
      (∀ hash b, (w.leaders i).curChain.storage.getBlock hash = some b →
        ∀ t ∈ b.body, AtHome S i t) ∧
      ∀ b ∈ (w.leaders i).proposedBlock, ∃ bc', (w.leaders i).curChain.addBlock b = some bc' ∧
        bc'.collectRelayTxs b.body { bc'.txpool with relayPool := ∅ } ≠ none) ∧
    ∀ p ∈ w.net, ∀ t ∈ p.2.txs, AtHome S p.1 t := by
  have hinv : Static w ∧ ∀ i : Fin S, (w.leaders i).StoredAtHome S i := by
    refine hrun.invariant (I := fun w => Static w ∧ ∀ i : Fin S, (w.leaders i).StoredAtHome S i)
      ⟨static_init hid hnums hnew fun t ht => CsvRecord.fresh_of_mem_readDataset ht,
        fun i => .new (hnew i)⟩ ?_
    rintro w a w' ⟨hstatic, hstored⟩ - hstep
    have hsteps := steps_of_step hstep
    exact ⟨hstatic.step hsteps, storedAtHome_step hstatic hstored (hstatic.staticStep hsteps)⟩
  obtain ⟨hstatic, hstored⟩ := hinv
  refine ⟨?_, hstatic.atHome.net⟩
  intro i
  have hproposed : ∀ b ∈ (w.leaders i).proposedBlock, ∀ t ∈ b.body, AtHome S i t := fun b hb =>
    (hstatic.atHome.leaders i).proposed b (Leader.mem_proposedBlock.1 hb)
  refine ⟨(hstatic.atHome.leaders i).queue, hproposed, hstored i, ?_⟩
  intro b hb
  obtain ⟨hext, hroot⟩ := (hstatic.leaders i).proposed b hb
  obtain ⟨st, hst⟩ := Option.ne_none_iff_exists'.1 hroot
  refine ⟨_, BlockChain.addBlock_of_known hext hst, ?_⟩
  have hcorrect : ∀ t ∈ b.body, ((w.leaders i).curChain.append b).correctTx t = true := fun t ht =>
    ((hstatic.leaders i).correctTx_iff t).2 (hproposed b hb t ht)
  obtain ⟨pool, hpool⟩ := BlockChain.collectRelayTxs_isSome hcorrect
    { ((w.leaders i).curChain.append b).txpool with relayPool := ∅ }
  rw [hpool]
  simp

section Sample

open BlockChain

set_option maxRecDepth 100000

/-- A legal record with the given amount; its sender lives in the first of two shards and its recipient
    in the second. -/
def sampleRecord (amount : String) : CsvRecord :=
  ["0x00000000000000a".toList, "0x00000000000000b".toList, [], ['0'], ['0'], amount.toList, ['5'],
    ['0'], ['1']]

def sampleDigest : TxDigest := fun tx _ => [tx.nonce.toUInt8]

/-- What the supervisor makes of one such record. -/
def sampleDataset (amount : String) : List Transaction :=
  CsvRecord.readDataset sampleDigest id 10 0 [sampleRecord amount]

/-- The second half of a bet waits in the second shard's block, and is at home there. -/
theorem crossing_bet_at_home :
    ∃ w, Reaches (step .relay) (init twoShards (sampleDataset "5")) w ∧
      ∃ b ∈ (w.leaders 1).proposedBlock, b.body ≠ [] ∧ ∀ t ∈ b.body, AtHome 2 1 t := by
  have hrun : ∃ w ∈ runActions (step .relay) (init twoShards (sampleDataset "5")) (crossing.take 6),
      ∃ b ∈ (w.leaders 1).proposedBlock, b.body ≠ [] := by decide +kernel
  obtain ⟨w, hw, b, hb, hbody⟩ := hrun
  have hreach := reaches_of_runActions hw
  obtain ⟨hhome, -⟩ := incorrect_tx_unreachable (fun _ => by rfl) (fun _ => by rfl)
    newBlockChain_twoShards hreach
  exact ⟨w, hreach, b, hb, hbody, (hhome 1).2.1 b hb⟩

end Sample

end ShardWorld

namespace CsvRecord

/-- An amount of 2 ^ 65 + 1 is read as 2 ^ 65. -/
theorem value_rounded :
    bigIntSetString "36893488147419103233".toList = some (2 ^ 65 + 1) ∧
      ∃ read ∈ (ShardWorld.sampleRecord "36893488147419103233").data2tx 0 0,
        ∃ tx ∈ read, tx.value = 2 ^ 65 := by
  decide +kernel

/-- An amount of 2 ^ 65 is read as it is. -/
theorem value_of_power_exact :
    ∃ tx, (ShardWorld.sampleRecord "36893488147419103232").data2tx 0 0 = some (some tx) ∧
      tx.value = 2 ^ 65 := by
  have hread : ∃ read ∈ (ShardWorld.sampleRecord "36893488147419103232").data2tx 0 0,
      read.isSome := by decide +kernel
  have hn : bigIntSetString "36893488147419103232".toList = some (2 ^ 65) := by decide +kernel
  obtain ⟨read, hdata, hsome⟩ := hread
  obtain ⟨tx, rfl⟩ := Option.isSome_iff_exists.1 hsome
  exact ⟨tx, hdata, (value_exact_iff hdata rfl hn).2.2 ⟨1, by decide, 65, by decide⟩⟩

end CsvRecord

end BlockEmulator
