import Mathlib.Data.Finmap
import Mathlib.Algebra.BigOperators.Group.Finset.Basic
import Mathlib.Tactic.Ring
import Mathlib.Tactic.Linarith

set_option autoImplicit false

/-! # Accounts, transactions, blocks and the transaction pool

The data types of `core/`, with the two helpers of `utils/` that place an address in a shard and
fold a hash into the bloom filter. Amounts are `*big.Int` in the source, hence `ℤ` here; heights,
nonces and shard ids are `uint64` and are natural numbers, wrapped by `u64` where an addition of the
source can overflow. -/

namespace BlockEmulator

/-- `uint64` arithmetic keeps the low 64 bits. -/
def u64 (n : ℕ) : ℕ := n % 2 ^ 64

/-- `params.Init_Balance`, the balance of an account nobody has touched yet. -/
def initBalance : ℤ := 10 ^ 44

/-! ## Addresses -/

/-- The value of one hexadecimal digit, upper or lower case. -/
def hexVal (c : Char) : Option ℕ :=
  if '0' ≤ c ∧ c ≤ '9' then some (c.toNat - 48)
  else if 'a' ≤ c ∧ c ≤ 'f' then some (c.toNat - 87)
  else if 'A' ≤ c ∧ c ≤ 'F' then some (c.toNat - 55)
  else none

/-- `strconv.ParseUint(s, 16, 64)` on at most eight digits: the empty string and any other
    character are errors, and eight digits never overflow. -/
def parseHex : List Char → Option ℕ
  | [] => none
  | c :: cs => (c :: cs).foldlM (fun n d => (hexVal d).map (16 * n + ·)) 0

/-- The last eight bytes of an address, or all of it when it is shorter. -/
def last8 (text : List Char) : List Char := text.drop (text.length - 8)

/-- An address, one `Char` a byte. `Addr2Shard` panics on an address whose tail is no hexadecimal
    number, so an address carries the proof that its tail is one. -/
structure Address where
  text : List Char
  hex : (parseHex (last8 text)).isSome = true
deriving DecidableEq

/-- `utils.Addr2Shard`: the default home of an address. -/
def addr2Shard (shardNum : ℕ) (addr : Address) : ℕ :=
  (parseHex (last8 addr.text)).get addr.hex % shardNum

theorem addr2Shard_lt {shardNum : ℕ} (h : 0 < shardNum) (addr : Address) :
    addr2Shard shardNum addr < shardNum :=
  Nat.mod_lt _ h

/-- `utils.ModBytes`: a big-endian byte string modulo `mod`. -/
def modBytes (data : List UInt8) (mod : ℕ) : ℕ :=
  data.foldl (fun n b => 256 * n + b.toNat) 0 % mod

/-! ## Account states -/

/-- `core.AccountState`, without the fields no code reads (`AcAddress`, `StorageRoot`,
    `CodeHash`). -/
structure AccountState where
  nonce : ℕ
  balance : ℤ
deriving DecidableEq

/-- `AccountState.Deduct`: refuses to go below the amount, and says so. -/
def AccountState.deduct (as : AccountState) (val : ℤ) : Bool × AccountState :=
  if as.balance < val then (false, as) else (true, { as with balance := as.balance - val })

/-- `AccountState.Deposit`. -/
def AccountState.deposit (as : AccountState) (value : ℤ) : AccountState :=
  { as with balance := as.balance + value }

/-- The contents of a state trie: account states by address. -/
abbrev Accounts := Finmap fun _ : Address => AccountState

namespace Accounts

/-- The state stored under an address, or the one the code creates for a missing account. -/
def getOrNew (st : Accounts) (addr : Address) (nonce : ℕ) : AccountState :=
  (st.lookup addr).getD ⟨nonce, initBalance⟩

/-- The balance of an address; a missing account counts as `Init_Balance`. -/
def balance (st : Accounts) (addr : Address) : ℤ := (st.getOrNew addr 0).balance

theorem getOrNew_balance (st : Accounts) (addr : Address) (nonce : ℕ) :
    (st.getOrNew addr nonce).balance = st.balance addr := by
  unfold balance getOrNew
  cases st.lookup addr <;> rfl

theorem balance_insert (st : Accounts) (addr a : Address) (as : AccountState) :
    balance (Finmap.insert addr as st) a = if a = addr then as.balance else st.balance a := by
  unfold balance getOrNew
  by_cases h : a = addr
  · subst h; simp
  · rw [Finmap.lookup_insert_of_ne _ h, if_neg h]

@[simp]
theorem balance_empty (a : Address) : balance (∅ : Accounts) a = initBalance := rfl

end Accounts

/-! ## Transactions and blocks -/

/-- `core.Transaction`. `relayed` marks the second half of a cross-shard transfer, the fields after it
    a transfer through a broker (`none` for Go's empty string or nil); `g2eEnabled` marks a bet on the
    pair `(pairI, pairJ)` for the block at `height`. -/
structure Transaction where
  sender : Address
  recipient : Address
  nonce : ℕ
  value : ℤ
  txHash : List UInt8
  relayed : Bool := false
  hasBroker : Bool := false
  senderIsBroker : Bool := false
  originalSender : Option Address := none
  finalRecipient : Option Address := none
  rawTxHash : Option (List UInt8) := none
  g2eEnabled : Bool := false
  height : ℕ := 0
  pairI : ℕ := 0
  pairJ : ℕ := 0
deriving DecidableEq

/-- `core.BlockHeader`, over the type `H` of 32-byte digests. -/
@[ext]
structure BlockHeader (H : Type) where
  parentBlockHash : H
  stateRoot : H
  txRoot : H
  bloom : Finset ℕ
  number : ℕ
  time : ℕ
  miner : ℤ

-- field by field, since a derived instance would not evaluate on equal sets built in another order
instance {H : Type} [DecidableEq H] : DecidableEq (BlockHeader H) := fun _ _ =>
  decidable_of_iff' _ BlockHeader.ext_iff

/-- `core.Block`. -/
@[ext]
structure Block (H : Type) where
  header : BlockHeader H
  body : List Transaction
  hash : H

instance {H : Type} [DecidableEq H] : DecidableEq (Block H) := fun _ _ =>
  decidable_of_iff' _ Block.ext_iff

/-- `chain.GetBloomFilter`: the positions the transaction hashes set in the 2048-bit filter. -/
def getBloomFilter (txs : List Transaction) : Finset ℕ :=
  (txs.map fun tx => modBytes tx.txHash 2048).toFinset

/-! ## The transaction pool -/

/-- `core.TxPool`: the queue and the relay pool by destination shard. -/
@[ext]
structure TxPool where
  txQueue : List Transaction := []
  relayPool : Finmap (fun _ : ℕ => List Transaction) := ∅

instance : DecidableEq TxPool := fun _ _ => decidable_of_iff' _ TxPool.ext_iff

namespace TxPool

/-- `AddTxs2Pool`. -/
def addTxs2Pool (pool : TxPool) (txs : List Transaction) : TxPool :=
  { pool with txQueue := pool.txQueue ++ txs }

/-- `PackTxs`: take at most `maxTxs` transactions from the head of the queue. -/
def packTxs (pool : TxPool) (maxTxs : ℕ) : List Transaction × TxPool :=
  let txNum := if pool.txQueue.length < maxTxs then pool.txQueue.length else maxTxs
  (pool.txQueue.take txNum, { pool with txQueue := pool.txQueue.drop txNum })

/-- `unsafe.Sizeof(core.Transaction{})` on a 64-bit platform; it does not depend on the value. -/
def txSize : ℕ := 240

/-- The number of leading transactions whose summed size does not exceed `maxBytes`. -/
def countWithBytes (maxBytes : ℕ) : ℕ → List Transaction → ℕ
  | _, [] => 0
  | currentSize, _ :: txs =>
    if maxBytes < currentSize + txSize then 0
    else countWithBytes maxBytes (currentSize + txSize) txs + 1

/-- `PackTxsWithBytes`. -/
def packTxsWithBytes (pool : TxPool) (maxBytes : ℕ) : List Transaction × TxPool :=
  let txNum := countWithBytes maxBytes 0 pool.txQueue
  (pool.txQueue.take txNum, { pool with txQueue := pool.txQueue.drop txNum })

/-- `AddRelayTx`. -/
def addRelayTx (pool : TxPool) (tx : Transaction) (shardID : ℕ) : TxPool :=
  { pool with
    relayPool := Finmap.insert shardID ((pool.relayPool.lookup shardID).getD [] ++ [tx])
      pool.relayPool }

/-- `ClearRelayPool`. -/
def clearRelayPool (pool : TxPool) : TxPool := { pool with relayPool := ∅ }

end TxPool

end BlockEmulator
