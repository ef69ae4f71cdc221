import BlockEmulator.Core
import BlockEmulator.Lib.FiniteMap

set_option autoImplicit false

/-! # The betting book

`chain/g2e_book.go` and `chooseWinningPair`. A book maps a target height to the bets placed on it;
an epoch keeps the bets of each pair and, beside them, their running sum. The two are written
together by `appendBet` only, so an epoch carries the proof that they agree. -/

namespace BlockEmulator

/-- A bet's pair, `[2]uint64`. -/
abbrev Pair := ℕ × ℕ

/-- `betEntry`. -/
structure BetEntry where
  player : Address
  pair : Pair
  amount : ℤ
deriving DecidableEq

/-- The total amount of a list of bets. -/
def betSum (es : List BetEntry) : ℤ := (es.map BetEntry.amount).sum

@[simp]
theorem betSum_append (es es' : List BetEntry) : betSum (es ++ es') = betSum es + betSum es' := by
  simp [betSum]

/-- `g2eEpochBook`: the bets and the stake of each pair. -/
@[ext]
structure EpochBook where
  byPair : Finmap fun _ : Pair => List BetEntry
  sumByPair : Finmap fun _ : Pair => ℤ
  /-- The recorded sum of a pair is the sum of its bets. -/
  sum_eq : ∀ p, (sumByPair.lookup p).getD 0 = betSum ((byPair.lookup p).getD [])
  /-- A pair has a recorded sum exactly when it carries a bet. -/
  carries : ∀ p, p ∈ sumByPair ↔ (byPair.lookup p).getD [] ≠ []

instance : DecidableEq EpochBook := fun _ _ => decidable_of_iff' _ EpochBook.ext_iff

namespace EpochBook

/-- The epoch `appendBet` starts from when a height has no bet yet. -/
def new : EpochBook where
  byPair := ∅
  sumByPair := ∅
  sum_eq := fun _ => rfl
  carries := fun p => by simp [Finmap.notMem_empty]

/-- The bets of one pair, in the order they were placed. -/
def bets (eb : EpochBook) (p : Pair) : List BetEntry := (eb.byPair.lookup p).getD []

/-- The part of `appendBet` that works on one epoch. -/
def append (eb : EpochBook) (pair : Pair) (player : Address) (amt : ℤ) : EpochBook where
  byPair := Finmap.insert pair (eb.bets pair ++ [⟨player, pair, amt⟩]) eb.byPair
  sumByPair := Finmap.insert pair ((eb.sumByPair.lookup pair).getD 0 + amt) eb.sumByPair
  sum_eq := fun p => by
    by_cases h : p = pair
    · subst h
      simp only [Finmap.lookup_insert, Option.getD_some, betSum_append, eb.sum_eq, bets]
      simp [betSum]
    · rw [Finmap.lookup_insert_of_ne _ h, Finmap.lookup_insert_of_ne _ h, eb.sum_eq]
  carries := fun p => by
    rw [Finmap.mem_insert]
    by_cases h : p = pair
    · subst h; simp
    · rw [Finmap.lookup_insert_of_ne _ h, eb.carries]
      simp [h]

theorem bets_append (eb : EpochBook) (pair : Pair) (player : Address) (amt : ℤ) (p : Pair) :
    (eb.append pair player amt).bets p
      = eb.bets p ++ if p = pair then [⟨player, pair, amt⟩] else [] := by
  by_cases h : p = pair
  · subst h; simp [append, bets]
  · simp [append, bets, Finmap.lookup_insert_of_ne _ h, h]

/-- The whole stake of an epoch. -/
def stake (eb : EpochBook) : ℤ := eb.byPair.sumBy fun _ es => betSum es

theorem stake_append (eb : EpochBook) (pair : Pair) (player : Address) (amt : ℤ) :
    (eb.append pair player amt).stake = eb.stake + amt := by
  have hnew : betSum (eb.bets pair ++ [⟨player, pair, amt⟩]) = betSum (eb.bets pair) + amt := by
    simp [betSum]
  simp only [stake, append]
  rw [Finmap.sumBy_insert, hnew]
  cases h : eb.byPair.lookup pair with
  | none =>
    rw [Finmap.erase_of_notMem h]
    simp only [bets, h, Option.getD_none]
    simp [betSum, add_comm]
  | some es =>
    rw [Finmap.sumBy_eq_add_erase (fun _ es => betSum es) h]
    simp only [bets, h, Option.getD_some]
    ring

/-! ## The stakes of a settlement -/

/-- The `W` of the settlement loop: the stake of the winning pair. -/
def winStake (eb : EpochBook) (star : Pair) : ℤ :=
  eb.sumByPair.sumBy fun p sum => if p = star then sum else 0

/-- The `L` of the settlement loop: the stake of all other pairs. -/
def loseStake (eb : EpochBook) (star : Pair) : ℤ :=
  eb.sumByPair.sumBy fun p sum => if p = star then 0 else sum

/-- The winning stake is what the winners put in. -/
theorem winStake_eq (eb : EpochBook) (star : Pair) : eb.winStake star = betSum (eb.bets star) := by
  rw [winStake, Finmap.sumBy_ite_eq eb.sumByPair star fun _ sum => sum, bets, ← eb.sum_eq]
  cases eb.sumByPair.lookup star <;> rfl

/-- Winners and losers share out the whole stake. -/
theorem winStake_add_loseStake (eb : EpochBook) (star : Pair) :
    eb.winStake star + eb.loseStake star = eb.stake := by
  rw [winStake, loseStake, ← Finmap.sumBy_add, stake]
  refine Finmap.sumBy_eq_sumBy ?_
  intro p
  have hp := eb.sum_eq p
  cases hs : eb.sumByPair.lookup p <;> cases hb : eb.byPair.lookup p <;>
    simp only [hs, hb, Option.getD_none, Option.getD_some, Option.elim_none, Option.elim_some]
      at hp ⊢
  · exact hp
  · split <;> simpa [betSum] using hp
  · split <;> simpa using hp

end EpochBook

/-! ## Choosing the winning pair -/

/-- The order `chooseWinningPair` sorts by: first component, then second. -/
def pairLe (a b : Pair) : Prop := if a.1 ≠ b.1 then a.1 < b.1 else a.2 ≤ b.2

instance : DecidableRel pairLe := fun a b =>
  inferInstanceAs (Decidable (if a.1 ≠ b.1 then a.1 < b.1 else a.2 ≤ b.2))

instance : IsTrans Pair pairLe where
  trans := fun a b c hab hbc => by
    unfold pairLe at *
    split_ifs at * <;> omega

instance : Std.Antisymm pairLe where
  antisymm := fun a b hab hba => by
    unfold pairLe at *
    refine Prod.ext ?_ ?_ <;> split_ifs at * <;> omega

instance : Std.Total pairLe where
  total := fun a b => by
    unfold pairLe
    split_ifs <;> omega

/-- Go's conversion of a `uint64` to `int`. -/
def goInt (n : ℕ) : ℤ := if u64 n < 2 ^ 63 then (u64 n : ℤ) else (u64 n : ℤ) - 2 ^ 64

theorem goInt_of_lt {n : ℕ} (h : n < 2 ^ 63) : goInt n = n := by
  have hu : u64 n = n := Nat.mod_eq_of_lt (by omega)
  rw [goInt, hu, if_pos h]

/-- `chooseWinningPair`: the `h mod len`-th pair in order. Go's remainder has the sign of the
    dividend, so from height `2^63` on the index can be negative and the access panics. -/
def chooseWinningPair (h : ℕ) (eb : EpochBook) : Option Pair :=
  let keys := eb.sumByPair.sortedKeys pairLe
  if keys.length = 0 then some (0, 0)
  else
    let idx := (goInt h).tmod keys.length
    if idx < 0 then none else keys[idx.toNat]?

/-- Below `2^63` a winning pair is always found. -/
theorem chooseWinningPair_isSome {h : ℕ} (hh : h < 2 ^ 63) (eb : EpochBook) :
    ∃ star, chooseWinningPair h eb = some star := by
  unfold chooseWinningPair
  simp only []
  split
  · exact ⟨_, rfl⟩
  · next hlen =>
      have hidx : (goInt h).tmod (eb.sumByPair.sortedKeys pairLe).length
          = ((h % (eb.sumByPair.sortedKeys pairLe).length : ℕ) : ℤ) := by
        rw [goInt_of_lt hh, Int.ofNat_tmod]
      rw [hidx, if_neg (by omega), Int.toNat_natCast]
      exact ⟨_, List.getElem?_eq_getElem (Nat.mod_lt _ (by omega))⟩

/-! ## The book -/

/-- `G2EBook`: the epochs by target height. -/
abbrev G2EBook := Finmap fun _ : ℕ => EpochBook

namespace G2EBook

/-- `appendBet`. -/
def appendBet (bk : G2EBook) (targetH : ℕ) (pair : Pair) (player : Address) (amt : ℤ) : G2EBook :=
  Finmap.insert targetH (((bk.lookup targetH).getD EpochBook.new).append pair player amt) bk

/-- `getEpoch`. -/
def getEpoch (bk : G2EBook) (targetH : ℕ) : Option EpochBook := bk.lookup targetH

/-- `cleanup`. -/
def cleanup (bk : G2EBook) (targetH : ℕ) : G2EBook := Finmap.erase targetH bk

/-- The bets recorded for one height and pair. -/
def bets (bk : G2EBook) (h : ℕ) (p : Pair) : List BetEntry :=
  ((bk.lookup h).getD EpochBook.new).bets p

/-- The stakes waiting in the whole book. -/
def pending (bk : G2EBook) : ℤ := bk.sumBy fun _ eb => eb.stake

theorem getEpoch_appendBet_of_ne (bk : G2EBook) {targetH h : ℕ} (hne : h ≠ targetH) (pair : Pair)
    (player : Address) (amt : ℤ) :
    (bk.appendBet targetH pair player amt).getEpoch h = bk.getEpoch h :=
  Finmap.lookup_insert_of_ne _ hne

theorem bets_appendBet (bk : G2EBook) (targetH : ℕ) (pair : Pair) (player : Address) (amt : ℤ)
    (h : ℕ) (p : Pair) :
    (bk.appendBet targetH pair player amt).bets h p
      = bk.bets h p ++ if h = targetH ∧ p = pair then [⟨player, pair, amt⟩] else [] := by
  by_cases hh : h = targetH
  · subst hh
    simp only [bets, appendBet, Finmap.lookup_insert, Option.getD_some, EpochBook.bets_append,
      true_and]
  · simp [bets, appendBet, Finmap.lookup_insert_of_ne _ hh, hh]

theorem getEpoch_cleanup_self (bk : G2EBook) (h : ℕ) : (bk.cleanup h).getEpoch h = none :=
  Finmap.lookup_erase h bk

theorem getEpoch_cleanup_of_ne (bk : G2EBook) {h h' : ℕ} (hne : h' ≠ h) :
    (bk.cleanup h).getEpoch h' = bk.getEpoch h' :=
  Finmap.lookup_erase_ne hne

theorem cleanup_of_getEpoch_none {bk : G2EBook} {h : ℕ} (hn : bk.getEpoch h = none) :
    bk.cleanup h = bk :=
  Finmap.erase_of_notMem hn

theorem pending_appendBet (bk : G2EBook) (targetH : ℕ) (pair : Pair) (player : Address) (amt : ℤ) :
    (bk.appendBet targetH pair player amt).pending = bk.pending + amt := by
  rw [pending, appendBet, Finmap.sumBy_insert, EpochBook.stake_append]
  cases h : bk.lookup targetH with
  | none =>
    rw [Finmap.erase_of_notMem h, pending, Option.getD_none]
    have hnew : EpochBook.new.stake = 0 := rfl
    rw [hnew]
    ring
  | some eb =>
    rw [pending, Finmap.sumBy_eq_add_erase _ h, Option.getD_some]
    ring

theorem pending_cleanup {bk : G2EBook} {h : ℕ} {eb : EpochBook} (he : bk.getEpoch h = some eb) :
    (bk.cleanup h).pending = bk.pending - eb.stake := by
  have hsplit := Finmap.sumBy_eq_add_erase (fun _ (eb : EpochBook) => eb.stake) he
  simp only [pending, cleanup, hsplit]
  ring

/-- `appendBet` with the arguments `GetUpdateStatusTrie` passes for a betting transaction. -/
def recordBet (bk : G2EBook) (tx : Transaction) : G2EBook :=
  bk.appendBet tx.height (tx.pairI, tx.pairJ) tx.sender tx.value

/-! ## Recording a list of bets -/

/-- Recording bets treats every height on its own. -/
theorem getEpoch_recordBets_congr {bk bk' : G2EBook} {h : ℕ} (hb : bk.getEpoch h = bk'.getEpoch h)
    (txs : List Transaction) :
    (txs.foldl recordBet bk).getEpoch h = (txs.foldl recordBet bk').getEpoch h := by
  induction txs generalizing bk bk' with
  | nil => exact hb
  | cons tx rest ih =>
    refine ih ?_
    by_cases hh : h = tx.height
    · subst hh
      rw [getEpoch, getEpoch] at hb
      simp only [getEpoch, recordBet, appendBet, hb, Finmap.lookup_insert]
    · rw [recordBet, recordBet, getEpoch_appendBet_of_ne _ hh, getEpoch_appendBet_of_ne _ hh, hb]

/-- A height carries an epoch after recording bets if it did before or one of them is on it. -/
theorem mem_recordBets_iff (txs : List Transaction) (bk : G2EBook) (h : ℕ) :
    h ∈ txs.foldl recordBet bk ↔ h ∈ bk ∨ ∃ tx ∈ txs, tx.height = h := by
  induction txs generalizing bk with
  | nil => simp
  | cons tx rest ih =>
    rw [List.foldl_cons, ih, recordBet, appendBet, Finmap.mem_insert]
    simp only [List.mem_cons, exists_eq_or_imp]
    constructor
    · rintro ((rfl | hmem) | hrest)
      · exact Or.inr (Or.inl rfl)
      · exact Or.inl hmem
      · exact Or.inr (Or.inr hrest)
    · rintro (hmem | rfl | hrest)
      · exact Or.inl (Or.inr hmem)
      · exact Or.inl (Or.inl rfl)
      · exact Or.inr hrest

theorem getEpoch_recordBets_of_forall_ne (txs : List Transaction) {h : ℕ}
    (hne : ∀ tx ∈ txs, tx.height ≠ h) (bk : G2EBook) :
    (txs.foldl recordBet bk).getEpoch h = bk.getEpoch h := by
  induction txs generalizing bk with
  | nil => rfl
  | cons tx rest ih =>
    rw [List.foldl_cons, ih (fun t ht => hne t (List.mem_cons_of_mem _ ht))]
    exact getEpoch_appendBet_of_ne bk (fun he => hne tx (List.mem_cons_self ..) he.symm) _ _ _

theorem bets_recordBets (txs : List Transaction) (h : ℕ) (p : Pair) (bk : G2EBook) :
    (txs.foldl recordBet bk).bets h p
      = bk.bets h p ++ (txs.filter fun t => t.height = h ∧ (t.pairI, t.pairJ) = p).map
          fun t => ⟨t.sender, (t.pairI, t.pairJ), t.value⟩ := by
  induction txs generalizing bk with
  | nil => simp
  | cons tx rest ih =>
    rw [List.foldl_cons, ih, recordBet, bets_appendBet, List.append_assoc]
    congr 1
    by_cases hm : tx.height = h ∧ (tx.pairI, tx.pairJ) = p
    · rw [if_pos ⟨hm.1.symm, hm.2.symm⟩, List.filter_cons_of_pos (by simpa using hm)]
      rfl
    · rw [if_neg fun hc => hm ⟨hc.1.symm, hc.2.symm⟩, List.filter_cons_of_neg (by simpa using hm)]
      rfl

/-- Recording bets and then dropping the epoch of height `h` gives the old book back exactly when
    the old book had no such epoch and every bet was on `h`. -/
theorem cleanup_recordBets_eq_iff (txs : List Transaction) (bk : G2EBook) (h : ℕ) :
    (txs.foldl recordBet bk).cleanup h = bk
      ↔ bk.getEpoch h = none ∧ ∀ tx ∈ txs, tx.height = h := by
  constructor
  · intro heq
    refine ⟨by rw [← heq]; exact getEpoch_cleanup_self _ h, ?_⟩
    intro tx htx
    by_contra hne
    -- a bet on another height is one more entry under its own height and pair
    have hbets : ((txs.foldl recordBet bk).cleanup h).bets tx.height (tx.pairI, tx.pairJ)
        = (txs.foldl recordBet bk).bets tx.height (tx.pairI, tx.pairJ) := by
      unfold bets cleanup
      rw [Finmap.lookup_erase_ne hne]
    rw [heq, bets_recordBets, List.self_eq_append_right, List.map_eq_nil_iff,
      List.filter_eq_nil_iff] at hbets
    exact hbets tx htx (by simp)
  · rintro ⟨hnone, hall⟩
    refine Finmap.ext_lookup ?_
    intro h'
    by_cases hh : h' = h
    · subst hh
      exact (getEpoch_cleanup_self _ h').trans hnone.symm
    · refine (getEpoch_cleanup_of_ne _ hh).trans ?_
      refine getEpoch_recordBets_of_forall_ne txs ?_ bk
      intro tx htx he
      exact hh (he.symm.trans (hall tx htx))

end G2EBook

end BlockEmulator
