import BlockEmulator.Core
import BlockEmulator.Lib.FiniteMap

set_option autoImplicit false

/-! # Hashes, the state trie database and the block storage

The chain hashes four things: headers, requests, the set of transaction hashes of a block and the
contents of a state trie. All four go through SHA-256 or the Merkle trie of a library; `Hashing` is
what the code relies on, that equal digests mean equal contents. `SymHash` keeps what was hashed, and
shows that the assumptions can be met.

What is hashed are encodings, and `gob` puts the numbers of types into them, which it gives out anew in
every process. `GobHashing` says so. `Hashing` is what the processes have in common that have been started
without a store: they number their types alike, since each of them makes the genesis block first.

`TrieDB` is the trie database below that: the state tries committed so far, by root. -/

namespace BlockEmulator

/-! ## What is agreed on -/

/-- `message.AccountTransferMsg`: the accounts a shard receives when it is repartitioned. -/
@[ext]
structure AccountTransferMsg where
  modifiedMap : Finmap fun _ : Address => ℕ
  addrs : List Address
  accountState : List AccountState
  atid : ℕ

instance : DecidableEq AccountTransferMsg := fun _ _ =>
  decidable_of_iff' _ AccountTransferMsg.ext_iff

/-- What a `message.Request` carries: `BlockRequest` or `PartitionReq`. -/
inductive RequestMsg (H : Type) where
  | block (b : Block H)
  | partition (atm : AccountTransferMsg)

instance {H : Type} [DecidableEq H] : DecidableEq (RequestMsg H)
  | .block b, .block b' => decidable_of_iff' (b = b') (by rw [RequestMsg.block.injEq])
  | .partition a, .partition a' => decidable_of_iff' (a = a') (by rw [RequestMsg.partition.injEq])
  | .block _, .partition _ => isFalse (by simp)
  | .partition _, .block _ => isFalse (by simp)

/-- `message.Request`. -/
@[ext]
structure Request (H : Type) where
  msg : RequestMsg H
  reqTime : ℕ

instance {H : Type} [DecidableEq H] : DecidableEq (Request H) := fun _ _ =>
  decidable_of_iff' _ Request.ext_iff

/-! ## Encoded accounts -/

/-- The type ids that `gob` has given out in a process, in the order in which it first encoded values of
    the types. An encoding carries them; what is decoded does not depend on them. -/
structure GobTypes where
  /-- Of `AccountState` and the types of its fields. -/
  accountState : List ℕ
  /-- Of `BlockHeader` and the types of its fields. -/
  blockHeader : List ℕ
deriving DecidableEq

/-- What `AccountState.Encode` returns, in a process with these ids. -/
structure EncodedAccount where
  typeIDs : List ℕ
  state : AccountState
deriving DecidableEq

/-- The contents of a state trie as they are stored and hashed. -/
abbrev StateTrie := Finmap fun _ : Address => EncodedAccount

namespace StateTrie

/-- The accounts of a trie, after `DecodeAS`. -/
def decode (t : StateTrie) : Accounts := t.mapVals fun _ e => e.state

/-- The trie of accounts that have all been encoded with the same ids. -/
def encode (ids : List ℕ) (st : Accounts) : StateTrie := st.mapVals fun _ s => ⟨ids, s⟩

/-- The trie `t` after its accounts have become `st`: those of `written` have been encoded with these
    ids, and the others keep theirs. -/
def recode (ids : List ℕ) (written : List Address) (t : StateTrie) (st : Accounts) : StateTrie :=
  st.mapVals fun a s =>
    ⟨if a ∈ written then ids else ((t.lookup a).map EncodedAccount.typeIDs).getD ids, s⟩

theorem lookup_decode (t : StateTrie) (a : Address) :
    t.decode.lookup a = (t.lookup a).map EncodedAccount.state :=
  Finmap.lookup_mapVals ..

@[simp]
theorem decode_encode (ids : List ℕ) (st : Accounts) : (encode ids st).decode = st := by
  refine Finmap.ext_lookup fun a => ?_
  rw [lookup_decode, encode, Finmap.lookup_mapVals, Option.map_map]
  exact Option.map_id'

@[simp]
theorem decode_recode (ids : List ℕ) (written : List Address) (t : StateTrie) (st : Accounts) :
    (recode ids written t st).decode = st := by
  refine Finmap.ext_lookup fun a => ?_
  rw [lookup_decode, recode, Finmap.lookup_mapVals, Option.map_map]
  exact Option.map_id'

/-- What one process has encoded and goes on to encode is encoded with the same ids. -/
theorem recode_encode (ids : List ℕ) (written : List Address) (st st' : Accounts) :
    recode ids written (encode ids st) st' = encode ids st' := by
  refine Finmap.ext_lookup fun a => ?_
  rw [recode, encode, encode, Finmap.lookup_mapVals, Finmap.lookup_mapVals, Finmap.lookup_mapVals]
  congr 1
  funext s
  cases st.lookup a <;> simp

end StateTrie

/-! ## Hash functions -/

class Hashing (H : Type) where
  /-- `common.Hash{}`, which `trie.New` reads as the empty trie. -/
  zero : H
  /-- The root of a state trie, if processes that were started without a store have encoded it. -/
  stateRoot : Accounts → H
  /-- The root of the trie `GetTxTreeRoot` builds: its keys are the transaction hashes. -/
  txRoot : Finset (List UInt8) → H
  /-- `BlockHeader.Hash`. -/
  headerHash : BlockHeader H → H
  /-- `getDigest`. -/
  getDigest : Request H → H
  stateRoot_injective : Function.Injective stateRoot
  stateRoot_ne_zero : ∀ st, stateRoot st ≠ zero
  txRoot_injective : Function.Injective txRoot
  headerHash_injective : Function.Injective headerHash
  getDigest_injective : Function.Injective getDigest

/-- Hashes of encodings. -/
class GobHashing (H : Type) extends Hashing H where
  /-- The ids in a process that was started without a store. -/
  fresh : GobTypes
  /-- The root of a state trie. -/
  trieRoot : StateTrie → H
  /-- `BlockHeader.Hash` in a process with these ids. -/
  hashHeader : List ℕ → BlockHeader H → H
  trieRoot_injective : Function.Injective trieRoot
  stateRoot_eq : ∀ st, stateRoot st = trieRoot (StateTrie.encode fresh.accountState st)
  headerHash_eq : ∀ h, headerHash h = hashHeader fresh.blockHeader h

/-- `chain.GetTxTreeRoot`. -/
def getTxTreeRoot {H : Type} [Hashing H] (txs : List Transaction) : H :=
  Hashing.txRoot (txs.map Transaction.txHash).toFinset

/-- Digests that remember what was hashed. -/
inductive SymHash where
  | zero
  | state (st : Accounts)
  | txs (hashes : Finset (List UInt8))
  | header (parent stateRoot txRoot : SymHash) (bloom : Finset ℕ) (number time : ℕ) (miner : ℤ)
  | block (header : SymHash) (body : List Transaction) (hash : SymHash) (reqTime : ℕ)
  | partition (atm : AccountTransferMsg) (reqTime : ℕ)
  | trie (t : StateTrie)
  | encoded (typeIDs : List ℕ) (header : SymHash)

namespace SymHash

def same : SymHash → SymHash → Bool
  | zero, zero => true
  | state st, state st' => st = st'
  | txs hs, txs hs' => hs = hs'
  | header p s t bl n ti m, header p' s' t' bl' n' ti' m' =>
    same p p' && same s s' && same t t' && bl = bl' && n = n' && ti = ti' && m = m'
  | block hd body h t, block hd' body' h' t' => same hd hd' && body = body' && same h h' && t = t'
  | partition a t, partition a' t' => a = a' && t = t'
  | trie t, trie t' => t = t'
  | encoded ids h, encoded ids' h' => ids = ids' && same h h'
  | _, _ => false

theorem same_iff (a b : SymHash) : same a b = true ↔ a = b := by
  induction a generalizing b with
  | zero => cases b <;> simp [same]
  | state => cases b <;> simp [same]
  | txs => cases b <;> simp [same]
  | header _ _ _ _ _ _ _ ihp ihs iht => cases b <;> simp [same, ihp, ihs, iht, and_assoc]
  | block _ _ _ _ ihd ihh => cases b <;> simp [same, ihd, ihh, and_assoc]
  | partition => cases b <;> simp [same]
  | trie => cases b <;> simp [same]
  | encoded _ _ ih => cases b <;> simp [same, ih]

instance : DecidableEq SymHash := fun a b => decidable_of_iff (same a b = true) (same_iff a b)

def ofHeader (h : BlockHeader SymHash) : SymHash :=
  .header h.parentBlockHash h.stateRoot h.txRoot h.bloom h.number h.time h.miner

theorem ofHeader_injective : Function.Injective ofHeader := by
  intro h h' heq
  cases h
  cases h'
  simp only [ofHeader, SymHash.header.injEq] at heq
  obtain ⟨rfl, rfl, rfl, rfl, rfl, rfl, rfl⟩ := heq
  rfl

def ofRequest (r : Request SymHash) : SymHash :=
  match r.msg with
  | .block b => .block (ofHeader b.header) b.body b.hash r.reqTime
  | .partition atm => .partition atm r.reqTime

theorem ofRequest_injective : Function.Injective ofRequest := by
  rintro ⟨m, t⟩ ⟨m', t'⟩ heq
  cases m with
  | block b =>
    cases m' with
    | block b' =>
      simp only [ofRequest, SymHash.block.injEq] at heq
      obtain ⟨hhead, hbody, hhash, rfl⟩ := heq
      have hb : b = b' := by
        cases b
        cases b'
        simp only [Block.mk.injEq]
        exact ⟨ofHeader_injective hhead, hbody, hhash⟩
      rw [hb]
    | partition atm => simp [ofRequest] at heq
  | partition atm =>
    cases m' with
    | block b' => simp [ofRequest] at heq
    | partition atm' =>
      simp only [ofRequest, SymHash.partition.injEq] at heq
      rw [heq.1, heq.2]

instance : Hashing SymHash where
  zero := .zero
  stateRoot := .state
  txRoot := .txs
  headerHash := ofHeader
  getDigest := ofRequest
  stateRoot_injective := fun _ _ h => SymHash.state.inj h
  stateRoot_ne_zero := fun _ h => by cases h
  txRoot_injective := fun _ _ h => SymHash.txs.inj h
  headerHash_injective := ofHeader_injective
  getDigest_injective := ofRequest_injective

/-- A trie encoded by fresh processes is known by its accounts. -/
def ofTrie (ids : List ℕ) (t : StateTrie) : SymHash :=
  if t = StateTrie.encode ids t.decode then .state t.decode else .trie t

theorem ofTrie_injective (ids : List ℕ) : Function.Injective (ofTrie ids) := by
  intro t t' heq
  unfold ofTrie at heq
  split at heq
  · next h =>
      split at heq
      · next h' => rw [h, h', SymHash.state.inj heq]
      · exact absurd heq (by simp)
  · split at heq
    · exact absurd heq (by simp)
    · exact SymHash.trie.inj heq

instance : GobHashing SymHash where
  fresh := ⟨[66], [65]⟩
  trieRoot := ofTrie [66]
  hashHeader := fun ids h => if ids = [65] then ofHeader h else .encoded ids (ofHeader h)
  trieRoot_injective := ofTrie_injective [66]
  stateRoot_eq := fun st => by
    rw [ofTrie, StateTrie.decode_encode, if_pos rfl]
    rfl
  headerHash_eq := fun _ => (if_pos rfl).symm

end SymHash

/-! ## The trie database -/

section TrieDB

variable {H : Type} [DecidableEq H] [Hashing H]

/-- The state tries committed to disk. A root stands for the contents that hash to it. -/
structure TrieDB (H : Type) where
  committed : List Accounts

namespace TrieDB

def empty : TrieDB H := ⟨[]⟩

/-- `trie.New`: an error unless the root was committed; the zero hash and the empty root need no
    lookup. -/
def trieNew (db : TrieDB H) (root : H) : Option Accounts :=
  if root = Hashing.zero ∨ root = Hashing.stateRoot ∅ then some ∅
  else db.committed.find? fun st => Hashing.stateRoot st = root

/-- `st.Commit`, `triedb.Update` and `triedb.Commit`. -/
def commit (db : TrieDB H) (st : Accounts) : TrieDB H := ⟨st :: db.committed⟩

/-- A root means the same contents in every database that resolves it. -/
theorem trieNew_unique {db db' : TrieDB H} {root : H} {st st' : Accounts}
    (h : db.trieNew root = some st) (h' : db'.trieNew root = some st') : st = st' := by
  unfold trieNew at h h'
  split at h
  · next hz => rw [if_pos hz] at h'; exact Option.some.inj (h.symm.trans h')
  · next hz =>
      rw [if_neg hz] at h'
      have hst := List.find?_some h
      have hst' := List.find?_some h'
      simp only [decide_eq_true_eq] at hst hst'
      exact Hashing.stateRoot_injective (hst.trans hst'.symm)

theorem trieNew_commit_self (db : TrieDB H) (st : Accounts) :
    (db.commit st).trieNew (Hashing.stateRoot st) = some st := by
  unfold trieNew
  split
  · next hz =>
      rcases hz with hz | hz
      · exact absurd hz (Hashing.stateRoot_ne_zero st)
      · rw [Hashing.stateRoot_injective hz]
  · exact List.find?_cons_of_pos (by simp)

theorem trieNew_commit_of_ne (db : TrieDB H) {st : Accounts} {root : H}
    (h : root ≠ Hashing.stateRoot st) : (db.commit st).trieNew root = db.trieNew root := by
  unfold trieNew commit
  rw [List.find?_cons_of_neg (by simpa using h.symm)]

/-- Committing loses no root. -/
theorem trieNew_commit_of_some {db : TrieDB H} {root : H} {st' : Accounts}
    (h : db.trieNew root = some st') (st : Accounts) :
    (db.commit st).trieNew root = some st' := by
  by_cases hr : root = Hashing.stateRoot st
  · subst hr
    rw [trieNew_commit_self, trieNew_unique (trieNew_commit_self db st) h]
  · rw [trieNew_commit_of_ne db hr, h]

end TrieDB

end TrieDB

/-! ## The block storage -/

/-- `storage.Storage`: the three buckets of the block database. A block is filed under its hash. -/
structure Storage (H : Type) [DecidableEq H] where
  blockBucket : Finmap fun _ : H => Block H
  blockHeaderBucket : Finmap fun _ : H => BlockHeader H
  newestBlockHash : Option H
  keyed : ∀ hash b, blockBucket.lookup hash = some b → b.hash = hash

namespace Storage

variable {H : Type} [DecidableEq H]

def empty : Storage H where
  blockBucket := ∅
  blockHeaderBucket := ∅
  newestBlockHash := none
  keyed := fun hash b h => by simp at h

/-- `Storage.AddBlock`: the block, its header and the newest hash. -/
def addBlock (s : Storage H) (b : Block H) : Storage H where
  blockBucket := Finmap.insert b.hash b s.blockBucket
  blockHeaderBucket := Finmap.insert b.hash b.header s.blockHeaderBucket
  newestBlockHash := some b.hash
  keyed := fun hash b' h => by
    by_cases hh : hash = b.hash
    · subst hh
      rw [Finmap.lookup_insert, Option.some.injEq] at h
      rw [h]
    · rw [Finmap.lookup_insert_of_ne _ hh] at h
      exact s.keyed hash b' h

/-- `Storage.GetBlock`. -/
def getBlock (s : Storage H) (bhash : H) : Option (Block H) := s.blockBucket.lookup bhash

@[simp]
theorem getBlock_addBlock_self (s : Storage H) (b : Block H) :
    (s.addBlock b).getBlock b.hash = some b :=
  Finmap.lookup_insert _

/-- What is stored after a block is added: the block, or what was stored before. -/
theorem of_getBlock_addBlock {s : Storage H} {b b' : Block H} {hash : H}
    (h : (s.addBlock b).getBlock hash = some b') : b' = b ∨ s.getBlock hash = some b' := by
  by_cases hhash : hash = b.hash
  · subst hhash
    rw [getBlock_addBlock_self, Option.some.injEq] at h
    exact Or.inl h.symm
  · refine Or.inr ?_
    rw [getBlock, addBlock, Finmap.lookup_insert_of_ne _ hhash] at h
    exact h

end Storage

end BlockEmulator
