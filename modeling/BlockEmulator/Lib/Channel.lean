import Mathlib.Data.List.Basic

set_option autoImplicit false

/-! # Channels in a shared network

Messages of many senders travel in one list: sending appends, delivering takes out one message at any
position. A channel is the sublist of the messages with a property `p`. `InOrder` says that what was
sent on a channel is what was received followed by what is on its way; it is kept as long as each
delivery takes the first message of the channel. `Accounted` is the part of this that needs no order.
`Timed` says that messages carry increasing time stamps. -/

section Channel

variable {α : Type} {p : α → Bool} {sent got net : List α} {k : ℕ} {x : α}

/-! ## Taking out one message -/

theorem eq_take_append_of_getElem? (h : net[k]? = some x) :
    net = net.take k ++ x :: net.drop (k + 1) ∧
      net.eraseIdx k = net.take k ++ net.drop (k + 1) := by
  obtain ⟨hlt, hx⟩ := List.getElem?_eq_some_iff.1 h
  refine ⟨?_, List.eraseIdx_eq_take_drop_succ ..⟩
  rw [← hx, List.getElem_cons_drop, List.take_append_drop]

/-- The first message of a channel is taken out. -/
theorem filter_eraseIdx_first (h : net[k]? = some x) (hp : p x = true)
    (hfirst : ∀ y ∈ net.take k, p y = false) : net.filter p = x :: (net.eraseIdx k).filter p := by
  obtain ⟨hnet, herase⟩ := eq_take_append_of_getElem? h
  have hnone : (net.take k).filter p = [] := List.filter_eq_nil_iff.2 fun y hy => by simp [hfirst y hy]
  conv_lhs => rw [hnet]
  rw [herase, List.filter_append, List.filter_append, hnone, List.filter_cons_of_pos hp]
  rfl

/-- A message of another channel is taken out. -/
theorem filter_eraseIdx_other (h : net[k]? = some x) (hp : p x = false) :
    (net.eraseIdx k).filter p = net.filter p := by
  obtain ⟨hnet, herase⟩ := eq_take_append_of_getElem? h
  conv_rhs => rw [hnet]
  rw [herase, List.filter_append, List.filter_append, List.filter_cons_of_neg (by simp [hp])]

theorem countP_eraseIdx (h : net[k]? = some x) :
    net.countP p = (net.eraseIdx k).countP p + if p x then 1 else 0 := by
  obtain ⟨hnet, herase⟩ := eq_take_append_of_getElem? h
  conv_lhs => rw [hnet]
  rw [herase, List.countP_append, List.countP_append, List.countP_cons]
  omega

/-- The only message of a channel is its first. -/
theorem first_of_countP_le_one (h : net[k]? = some x) (hp : p x = true) (hone : net.countP p ≤ 1) :
    ∀ y ∈ net.take k, p y = false := by
  obtain ⟨hnet, -⟩ := eq_take_append_of_getElem? h
  rw [hnet, List.countP_append, List.countP_cons_of_pos hp] at hone
  intro y hy
  rw [← Bool.not_eq_true]
  exact List.countP_eq_zero.1 (by omega) y hy

/-! ## What was sent and what was received -/

/-- What was sent on the channel was received in this order, or is on its way. -/
def InOrder (p : α → Bool) (sent got net : List α) : Prop :=
  sent.filter p = got.filter p ++ net.filter p

/-- As many messages of the channel were sent as were received or are on their way. -/
def Accounted (p : α → Bool) (sent got net : List α) : Prop :=
  sent.countP p = got.countP p + net.countP p

theorem InOrder.accounted (h : InOrder p sent got net) : Accounted p sent got net := by
  have hlen := congrArg List.length h
  rw [List.length_append] at hlen
  rw [Accounted, List.countP_eq_length_filter, List.countP_eq_length_filter,
    List.countP_eq_length_filter]
  exact hlen

theorem InOrder.mem_iff (h : InOrder p sent got net) (hp : p x = true) :
    x ∈ sent ↔ x ∈ got ∨ x ∈ net := by
  have hmem : ∀ l : List α, x ∈ l ↔ x ∈ l.filter p := fun l => by simp [hp]
  rw [hmem sent, h, List.mem_append, ← hmem got, ← hmem net]

theorem InOrder.send (h : InOrder p sent got net) (ms : List α) :
    InOrder p (sent ++ ms) got (net ++ ms) := by
  rw [InOrder, List.filter_append, List.filter_append, h, List.append_assoc]

/-- Somebody else sends. -/
theorem InOrder.send_other (h : InOrder p sent got net) {ms : List α}
    (hms : ∀ y ∈ ms, p y = false) : InOrder p sent got (net ++ ms) := by
  have hnone : ms.filter p = [] := List.filter_eq_nil_iff.2 fun y hy => by simp [hms y hy]
  rw [InOrder, List.filter_append, hnone, List.append_nil]
  exact h

theorem InOrder.receive (h : InOrder p sent got net) (hk : net[k]? = some x)
    (hfirst : p x = true → ∀ y ∈ net.take k, p y = false) :
    InOrder p sent (got ++ [x]) (net.eraseIdx k) := by
  cases hp : p x with
  | true =>
    rw [InOrder, h, filter_eraseIdx_first hk hp (hfirst hp), List.filter_append,
      List.filter_cons_of_pos hp, List.append_assoc]
    rfl
  | false =>
    rw [InOrder, h, filter_eraseIdx_other hk hp, List.filter_append,
      List.filter_cons_of_neg (by simp [hp]), List.filter_nil, List.append_nil]

/-- Somebody else receives. -/
theorem InOrder.receive_other (h : InOrder p sent got net) (hk : net[k]? = some x)
    (hp : p x = false) : InOrder p sent got (net.eraseIdx k) := by
  rw [InOrder, filter_eraseIdx_other hk hp]
  exact h

theorem Accounted.send (h : Accounted p sent got net) (ms : List α) :
    Accounted p (sent ++ ms) got (net ++ ms) := by
  rw [Accounted] at h
  rw [Accounted, List.countP_append, List.countP_append]
  omega

theorem Accounted.send_other (h : Accounted p sent got net) {ms : List α}
    (hms : ∀ y ∈ ms, p y = false) : Accounted p sent got (net ++ ms) := by
  have hnone : ms.countP p = 0 := List.countP_eq_zero.2 fun y hy => by simp [hms y hy]
  rw [Accounted, List.countP_append, hnone]
  exact h

theorem Accounted.receive (h : Accounted p sent got net) (hk : net[k]? = some x) :
    Accounted p sent (got ++ [x]) (net.eraseIdx k) := by
  have herase := countP_eraseIdx (p := p) hk
  rw [Accounted] at h
  rw [Accounted, List.countP_append, List.countP_singleton]
  omega

theorem Accounted.receive_other (h : Accounted p sent got net) (hk : net[k]? = some x)
    (hp : p x = false) : Accounted p sent got (net.eraseIdx k) := by
  have herase := countP_eraseIdx (p := p) hk
  rw [hp] at herase
  rw [Accounted] at h ⊢
  simp only [Bool.false_eq_true, if_false] at herase
  omega

/-! ## One of many parties acts -/

section Parties

variable {ι : Type} [DecidableEq ι] {i j : ι} {ms : List α}

theorem InOrder.send_update {sent : ι → List α} (h : InOrder p (sent j) got net)
    (hms : j ≠ i → ∀ y ∈ ms, p y = false) :
    InOrder p (Function.update sent i (sent i ++ ms) j) got (net ++ ms) := by
  by_cases hj : j = i
  · subst hj
    rw [Function.update_self]
    exact h.send ms
  · rw [Function.update_of_ne hj]
    exact h.send_other (hms hj)

theorem Accounted.send_update {sent : ι → List α} (h : Accounted p (sent j) got net)
    (hms : j ≠ i → ∀ y ∈ ms, p y = false) :
    Accounted p (Function.update sent i (sent i ++ ms) j) got (net ++ ms) := by
  by_cases hj : j = i
  · subst hj
    rw [Function.update_self]
    exact h.send ms
  · rw [Function.update_of_ne hj]
    exact h.send_other (hms hj)

theorem InOrder.receive_update {got : ι → List α} (h : InOrder p sent (got j) net)
    (hk : net[k]? = some x) (hp : j ≠ i → p x = false)
    (hfirst : j = i → p x = true → ∀ y ∈ net.take k, p y = false) :
    InOrder p sent (Function.update got i (got i ++ [x]) j) (net.eraseIdx k) := by
  by_cases hj : j = i
  · subst hj
    rw [Function.update_self]
    exact h.receive hk (hfirst rfl)
  · rw [Function.update_of_ne hj]
    exact h.receive_other hk (hp hj)

theorem Accounted.receive_update {got : ι → List α} (h : Accounted p sent (got j) net)
    (hk : net[k]? = some x) (hp : j ≠ i → p x = false) :
    Accounted p sent (Function.update got i (got i ++ [x]) j) (net.eraseIdx k) := by
  by_cases hj : j = i
  · subst hj
    rw [Function.update_self]
    exact h.receive hk
  · rw [Function.update_of_ne hj]
    exact h.receive_other hk (hp hj)

end Parties

/-! ## Time stamps -/

variable {stamp : α → Option ℕ} {b b' : ℕ} {l ms : List α}

/-- The time stamps increase along the list and stay below the bound. -/
structure Timed (stamp : α → Option ℕ) (b : ℕ) (l : List α) : Prop where
  increasing : l.Pairwise fun x y => ∀ s ∈ stamp x, ∀ s' ∈ stamp y, s < s'
  below : ∀ x ∈ l, ∀ s ∈ stamp x, s < b

theorem timed_nil (stamp : α → Option ℕ) (b : ℕ) : Timed stamp b [] :=
  ⟨List.Pairwise.nil, by simp⟩

theorem Timed.sublist (h : Timed stamp b l) {l' : List α} (hl : l'.Sublist l) : Timed stamp b l' :=
  ⟨h.increasing.sublist hl, fun x hx => h.below x (hl.mem hx)⟩

/-- Messages sent later have later time stamps. -/
theorem Timed.append (h : Timed stamp b l)
    (hms : ms.Pairwise fun x y => ∀ s ∈ stamp x, ∀ s' ∈ stamp y, s < s')
    (hlater : ∀ x ∈ ms, ∀ s ∈ stamp x, b ≤ s ∧ s < b') (hb : b ≤ b') : Timed stamp b' (l ++ ms) where
  increasing := by
    refine List.pairwise_append.2 ⟨h.increasing, hms, ?_⟩
    intro x hx y hy s hs s' hs'
    exact Nat.lt_of_lt_of_le (h.below x hx s hs) (hlater y hy s' hs').1
  below := by
    intro x hx s hs
    rcases List.mem_append.1 hx with hl | hm
    · exact Nat.lt_of_lt_of_le (h.below x hl s hs) hb
    · exact (hlater x hm s hs).2

/-- Messages without time stamps do not matter. -/
theorem Timed.append_other (h : Timed stamp b l) (hms : ∀ x ∈ ms, stamp x = none) :
    Timed stamp b (l ++ ms) := by
  refine h.append ?_ ?_ (Nat.le_refl b)
  · refine List.pairwise_of_forall_mem_list ?_
    intro x hx y _ s hs
    exact absurd hs (by simp [hms x hx])
  · intro x hx s hs
    exact absurd hs (by simp [hms x hx])

/-- What comes later in the list has the later time stamp. -/
theorem Timed.lt_of_lt (h : Timed stamp b l) {k k' : ℕ} (hk : k < k') {x y : α}
    (hx : l[k]? = some x) (hy : l[k']? = some y) {s s' : ℕ} (hs : stamp x = some s)
    (hs' : stamp y = some s') : s < s' := by
  obtain ⟨hlt, rfl⟩ := List.getElem?_eq_some_iff.1 hx
  obtain ⟨hlt', rfl⟩ := List.getElem?_eq_some_iff.1 hy
  exact List.pairwise_iff_getElem.1 h.increasing k k' hlt hlt' hk s hs s' hs'

/-- What is on its way was sent after what has arrived. -/
theorem InOrder.lt_of_arrived (h : InOrder p sent got net) (ht : Timed stamp b sent) {x y : α}
    (hx : x ∈ got) (hy : y ∈ net) (hpx : p x = true) (hpy : p y = true) {s s' : ℕ}
    (hs : stamp x = some s) (hs' : stamp y = some s') : s < s' := by
  have hincr := ht.increasing.filter p
  rw [h] at hincr
  exact (List.pairwise_append.1 hincr).2.2 x (List.mem_filter.2 ⟨hx, hpx⟩) y
    (List.mem_filter.2 ⟨hy, hpy⟩) s hs s' hs'

/-- The last of the numbers that have arrived is the greatest, if the stamps grow with them. -/
theorem InOrder.le_last {num : α → Option ℕ} {c : ℕ → ℕ}
    (h : InOrder (fun x => (num x).isSome) sent got net) (ht : Timed stamp b sent)
    (hc : ∀ r r', c r < c r' → r ≤ r') (hnum : ∀ x r, num x = some r → stamp x = some (c r))
    {r r' : ℕ} (hr : r ∈ got.filterMap num) (hlast : (got.filterMap num).getLast? = some r') :
    r ≤ r' := by
  have hincr := ht.increasing.filter fun x => (num x).isSome
  rw [h] at hincr
  have hgot : (got.filterMap num).Pairwise fun r r' => r ≤ r' := by
    refine List.pairwise_filterMap.2 ((List.pairwise_filter.1 (List.pairwise_append.1 hincr).1).imp ?_)
    intro x y hxy r hr r' hr'
    exact hc r r' (hxy (by simp [hr]) (by simp [hr']) _ (hnum x r hr) _ (hnum y r' hr'))
  obtain ⟨rs, hrs⟩ := List.getLast?_eq_some_iff.1 hlast
  rw [hrs] at hgot hr
  rcases List.mem_append.1 hr with hold | hnew
  · exact (List.pairwise_append.1 hgot).2.2 r hold r' (List.mem_singleton_self r')
  · exact Nat.le_of_eq (List.mem_singleton.1 hnew)

end Channel
