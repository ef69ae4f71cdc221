import BlockEmulator.Chain.Propose
import BlockEmulator.Lib.FiniteMap
import BlockEmulator.Lib.Scatter

set_option autoImplicit false

/-! # Deleting transactions from a list

`DeleteElementsInList` (`consensus_shard/pbft_all/toolFuncs.go`) moves the transactions that stay to the
front of the list, in place, and counts those that do not. The loop is right, and all that is left is to
cut the list: `length - removedCnt` transactions stay (`sliceTo_deleteLoop`). But the bound of the cut is
`-removedCnt`. So the function panics if it has anything to delete, and otherwise returns the empty
list. -/

namespace BlockEmulator

/-- `elementHashMap`. -/
def elementHashMap (elements : List Transaction) : Finmap fun _ : List UInt8 => Bool :=
  elements.foldl (fun m element => m.insert element.txHash true) ∅

/-- Whether a transaction should be deleted. -/
def toDelete (elements : List Transaction) (tx : Transaction) : Bool :=
  tx.txHash ∈ elementHashMap elements

/-- The loop: the list as it is left, the next free place and `removedCnt`. -/
def deleteLoop (list elements : List Transaction) : Sweep Transaction ℕ :=
  (List.range list.length).foldl
    (Sweep.turn (fun tx => !toDelete elements tx)
      fun removedCnt tx => if toDelete elements tx then removedCnt + 1 else removedCnt)
    ⟨list, 0, 0⟩

/-- The slice `l[:hi]`, where `none` is the panic. A bound between the length and the capacity, which Go
    lets pass, is refused too; the bound here is never positive. -/
def sliceTo {α : Type} (l : List α) (hi : ℤ) : Option (List α) :=
  if 0 ≤ hi ∧ hi ≤ l.length then some (l.take hi.toNat) else none

/-- `DeleteElementsInList`. -/
def deleteElementsInList (list elements : List Transaction) : Option (List Transaction) :=
  let s := deleteLoop list elements
  sliceTo s.buf (-(s.acc : ℤ))

/-! ## The loop -/

section Loop

variable (list elements : List Transaction)

theorem toDelete_iff (tx : Transaction) :
    toDelete elements tx = true ↔ tx.txHash ∈ elements.map Transaction.txHash := by
  rw [toDelete, decide_eq_true_iff, elementHashMap, Finmap.mem_foldl_insert, List.mem_map]
  exact or_iff_right Finmap.notMem_empty

theorem deleteLoop_at :
    Sweep.At (fun tx => !toDelete elements tx)
      (fun removedCnt tx => if toDelete elements tx then removedCnt + 1 else removedCnt) list 0
      list.length (deleteLoop list elements) :=
  Sweep.At.run 0 (Nat.le_refl list.length)

/-- `removedCnt` after the loop. -/
theorem acc_deleteLoop : (deleteLoop list elements).acc = list.countP (toDelete elements) := by
  rw [(deleteLoop_at list elements).acc, List.take_length, foldl_count, Nat.zero_add]

/-- The two pointers are `removedCnt` places apart. -/
theorem firstPtr_deleteLoop :
    (deleteLoop list elements).firstPtr + (deleteLoop list elements).acc = list.length := by
  rw [(deleteLoop_at list elements).firstPtr_eq (Nat.le_refl _), List.take_length, acc_deleteLoop,
    List.length_eq_countP_add_countP (p := toDelete elements) (l := list), Nat.add_comm]
  simp only [Bool.not_eq_true, Bool.decide_eq_false]

/-- **The loop is right**: with the length less `removedCnt` as the bound, the slice is what stays, in
    order. -/
theorem sliceTo_deleteLoop :
    sliceTo (deleteLoop list elements).buf (list.length - (deleteLoop list elements).acc) =
      some (list.filter fun tx => tx.txHash ∉ elements.map Transaction.txHash) := by
  have hptr := firstPtr_deleteLoop list elements
  have hbound : (list.length : ℤ) - (deleteLoop list elements).acc =
      (deleteLoop list elements).firstPtr := by omega
  rw [hbound, sliceTo, (deleteLoop_at list elements).length, if_pos (by omega), Int.toNat_natCast,
    (deleteLoop_at list elements).front, List.take_length]
  refine congrArg some (List.filter_congr ?_)
  intro tx _
  rw [Bool.eq_iff_iff, decide_eq_true_iff, Bool.not_eq_true', ← Bool.not_eq_true, toDelete_iff]

end Loop

/-! ## The cut -/

/-- **What `DeleteElementsInList` does**: it panics if there is something to delete, and otherwise returns
    the empty list. -/
theorem deleteElementsInList_eq (list elements : List Transaction) :
    deleteElementsInList list elements =
      if ∃ tx ∈ list, tx.txHash ∈ elements.map Transaction.txHash then none else some [] := by
  have hcount : 0 < (deleteLoop list elements).acc ↔
      ∃ tx ∈ list, tx.txHash ∈ elements.map Transaction.txHash := by
    rw [acc_deleteLoop, List.countP_pos_iff]
    simp only [toDelete_iff]
  rw [deleteElementsInList, sliceTo]
  by_cases hsome : ∃ tx ∈ list, tx.txHash ∈ elements.map Transaction.txHash
  · have hpos := hcount.2 hsome
    rw [if_pos hsome, if_neg (by omega)]
  · have hzero : (deleteLoop list elements).acc = 0 := Nat.eq_zero_of_not_pos (mt hcount.1 hsome)
    rw [if_neg hsome, hzero, if_pos (by omega)]
    rfl

/-- **Deleting does not filter.** The transactions that are not to be deleted are returned only if there
    was no transaction at all. -/
theorem deleteElementsInList_filters_iff (list elements : List Transaction) :
    deleteElementsInList list elements =
        some (list.filter fun tx => tx.txHash ∉ elements.map Transaction.txHash) ↔
      list = [] := by
  rw [deleteElementsInList_eq]
  constructor
  · intro h
    split_ifs at h with hsome
    -- nothing is to be deleted, so that the filter keeps the list
    have hfilter : list.filter (fun tx => tx.txHash ∉ elements.map Transaction.txHash) = list :=
      List.filter_eq_self.2 fun tx htx => decide_eq_true fun hmem => hsome ⟨tx, htx, hmem⟩
    rw [hfilter] at h
    exact (Option.some.inj h).symm
  · rintro rfl
    rfl

/-- A single transaction is lost if nothing is to be deleted, and deleting it is a panic. -/
theorem deleteElementsInList_loses_or_panics :
    deleteElementsInList [BlockChain.transfer 1] [] = some [] ∧
      deleteElementsInList [BlockChain.transfer 1] [BlockChain.transfer 1] = none := by
  decide

end BlockEmulator
