import BlockEmulator.Pbft.Lockstep

set_option autoImplicit false

/-! # View changes and the votes behind them

A node keeps the senders of `ViewChange` and `NewView` messages by next view and sequence number, and
never forgets them. It acts when a set has exactly `2f + 1` members after an insertion, even one that
inserts nobody new, and what it announces is its own next view.

`ViewTrace` keeps beside a shard which of these messages each node has handled, those since it last
installed a view apart from those before, and with every installation and announcement the messages
that stand behind it. Every view is then installed by fresh votes of `2f + 1` nodes if no node handles
a `NewView` message for a pair that it handled one for before its last installation; and every
announcement has its quorum if the `ViewChange` messages that complete one are about the node's own
next view. -/

namespace BlockEmulator

/-! ## Votes for a view -/

/-- The view and sequence number the message is about. -/
def ViewMsg.key (m : ViewMsg) : ℕ × ℕ := (m.nextView, m.seqID)

/-- The nodes with a message for the pair. -/
def voters (key : ℕ × ℕ) (ms : List ViewMsg) : Finset ℕ :=
  ((ms.filter fun m => m.key = key).map ViewMsg.fromNode).toFinset

theorem voters_append (key : ℕ × ℕ) (ms ms' : List ViewMsg) :
    voters key (ms ++ ms') = voters key ms ∪ voters key ms' := by
  simp [voters]

theorem voters_eq_empty {key : ℕ × ℕ} {ms : List ViewMsg} (h : ∀ m ∈ ms, m.key ≠ key) :
    voters key ms = ∅ := by
  simpa [voters] using h

/-- A set of senders by pair that holds the voters holds them after one more vote. -/
theorem update_insert_eq_voters {senders : ℕ × ℕ → Finset ℕ} {ms : List ViewMsg}
    (h : ∀ key, senders key = voters key ms) (m : ViewMsg) (key : ℕ × ℕ) :
    Function.update senders m.key (insert m.fromNode (senders m.key)) key
      = voters key (ms ++ [m]) := by
  rw [voters_append]
  by_cases hkey : key = m.key
  · subst hkey
    rw [Function.update_self, h]
    ext j
    simp [voters]
  · have hnone : voters key [m] = ∅ := by
      apply voters_eq_empty
      intro m' hm'
      rw [List.mem_singleton.1 hm']
      exact Ne.symm hkey
    rw [Function.update_of_ne hkey, h, hnone, Finset.union_empty]

/-! ## What the other handlers leave alone -/

variable {H : Type} [DecidableEq H] [Hashing H] {N : ℕ}

/-- The message announces this view and sequence number. -/
def PbftMsg.announces : PbftMsg H → Option (ℕ × ℕ)
  | .newView m => some m.key
  | _ => none

namespace PbftNode

theorem handleNewViewMsg_of_installs {n : PbftNode H} {m : ViewMsg}
    (h : n.installsView (.newView m) = true) :
    n.handleNewViewMsg m = { n with
      newViewMap := Function.update n.newViewMap m.key (insert m.fromNode (n.newViewMap m.key))
      view := m.nextView
      sequenceID := m.seqID
      pbftStage := 1 } :=
  if_pos (of_decide_eq_true h)

theorem handleNewViewMsg_of_not_installs {n : PbftNode H} {m : ViewMsg}
    (h : n.installsView (.newView m) = false) :
    n.handleNewViewMsg m = { n with
      newViewMap := Function.update n.newViewMap m.key (insert m.fromNode (n.newViewMap m.key)) } :=
  if_neg (of_decide_eq_false h)

/-- The two nodes hold the same votes for views. -/
structure SameVotes (n n' : PbftNode H) : Prop where
  nodeNums : n'.nodeNums = n.nodeNums
  viewChangeMap : n'.viewChangeMap = n.viewChangeMap
  newViewMap : n'.newViewMap = n.newViewMap

theorem sameVotes_executeRequest (n : PbftNode H) (digest : H) (r : Request H) :
    SameVotes n (n.executeRequest digest r) := by
  obtain ⟨bc, replied, seq, stage, lock, alive, heq⟩ := executeRequest_frame n digest r
  rw [heq]
  exact ⟨rfl, rfl, rfl⟩

theorem sameVotes_askForOld (n : PbftNode H) (m : Vote H) : SameVotes n (n.askForOld m).1 := by
  obtain ⟨lock, alive, heq⟩ := endRound_frame { n with askForLock := true }
  rw [askForOld, heq]
  exact ⟨rfl, rfl, rfl⟩

theorem announces_toAll {n : PbftNode H} {m : PbftMsg H} (hm : m.announces = none) :
    (n.toAll m).filterMap (fun p => p.2.announces) = [] := by
  rw [List.filterMap_eq_nil_iff]
  intro p hp
  rw [snd_of_mem_toAll hp]
  exact hm

/-- No other message touches the votes for views or is answered with an announcement. -/
theorem sameVotes_handleMessage {n n' : PbftNode H} {m : PbftMsg H} {msgs : List (ℕ × PbftMsg H)}
    (h : n.handleMessage m = some (n', msgs)) (hvc : ∀ v, m ≠ .viewChange v)
    (hnv : ∀ v, m ≠ .newView v) :
    SameVotes n n' ∧ msgs.filterMap (fun p => p.2.announces) = [] := by
  cases m with
  | prePrepare m =>
    rcases handlePrePrepare_cases h with ⟨rfl, rfl⟩ | ⟨rfl, rfl⟩ | ⟨-, rfl, rfl⟩ | ⟨-, rfl, rfl⟩
    · exact ⟨⟨rfl, rfl, rfl⟩, rfl⟩
    · exact ⟨⟨rfl, rfl, rfl⟩, rfl⟩
    · exact ⟨⟨rfl, rfl, rfl⟩, rfl⟩
    · exact ⟨⟨rfl, rfl, rfl⟩, announces_toAll rfl⟩
  | prepare m =>
    obtain ⟨c, b, stage, rfl, rfl | rfl⟩ := handlePrepare_cases h
    · exact ⟨⟨rfl, rfl, rfl⟩, rfl⟩
    · exact ⟨⟨rfl, rfl, rfl⟩, announces_toAll rfl⟩
  | commit m =>
    cases handlesCommit_of_handleCommit h with
    | drop => exact ⟨⟨rfl, rfl, rfl⟩, rfl⟩
    | count => exact ⟨⟨rfl, rfl, rfl⟩, rfl⟩
    | wait => exact ⟨⟨rfl, rfl, rfl⟩, rfl⟩
    | ask =>
      obtain ⟨hnums, hvcm, hnvm⟩ := sameVotes_askForOld
        { n.countCommit m with isReply := Function.update n.isReply m.digest true } m
      exact ⟨⟨hnums, hvcm, hnvm⟩, rfl⟩
    | execute =>
      obtain ⟨hnums, hvcm, hnvm⟩ := sameVotes_executeRequest (n.countCommit m) m.digest _
      exact ⟨⟨hnums, hvcm, hnvm⟩, rfl⟩
  | requestOld m =>
    rw [handleMessage, Option.some.injEq] at h
    obtain ⟨rfl, rfl⟩ := Prod.ext_iff.1 h
    rw [handleRequestOldSeq_fst]
    refine ⟨⟨rfl, rfl, rfl⟩, ?_⟩
    unfold handleRequestOldSeq
    split <;> rfl
  | sendOld m =>
    rw [handleMessage, Option.some.injEq] at h
    obtain ⟨rfl, rfl⟩ := Prod.ext_iff.1 h
    obtain ⟨bc, pool, h2d, replied, seq, ask, alive, heq, -, hmsgs⟩ := handleSendOldSeq_frame n m
    rw [heq]
    refine ⟨⟨rfl, rfl, rfl⟩, ?_⟩
    rcases hmsgs with hmsgs | ⟨d, r, -, seqID, hmsgs⟩
    · rw [hmsgs]
      rfl
    · rw [hmsgs, List.filterMap_eq_nil_iff]
      intro p hp
      rw [snd_of_mem_toAll (List.mem_filter.1 hp).1]
      rfl
  | viewChange m => exact absurd rfl (hvc m)
  | newView m => exact absurd rfl (hnv m)

end PbftNode

/-! ## Traces -/

/-- A view that a node has installed or announced, and the messages behind it. -/
structure ViewEvent where
  view : ℕ
  seqID : ℕ
  votes : List ViewMsg

/-- The nodes whose votes for just this view and sequence number stand behind it. -/
def ViewEvent.backers (e : ViewEvent) : Finset ℕ := voters (e.view, e.seqID) e.votes

/-- What a node has seen and done about views. -/
structure ViewLog where
  /-- The `ViewChange` messages handled. -/
  viewChanges : List ViewMsg := []
  /-- The `NewView` messages handled before the last installation. -/
  earlier : List ViewMsg := []
  /-- The `NewView` messages handled since. -/
  recent : List ViewMsg := []
  installed : List ViewEvent := []
  announced : List ViewEvent := []

/-- The message joins those its kind is kept with. -/
def ViewLog.receive (l : ViewLog) : PbftMsg H → ViewLog
  | .viewChange m => { l with viewChanges := l.viewChanges ++ [m] }
  | .newView m => { l with recent := l.recent ++ [m] }
  | _ => l

/-- The log after a node, now `n`, has handled a message. -/
def ViewLog.handle (l : ViewLog) (before n : PbftNode H) (m : PbftMsg H) : ViewLog :=
  let l' := l.receive m
  if before.installsView m then
    { l' with
      earlier := l'.earlier ++ l'.recent
      recent := []
      installed := ⟨n.view, n.sequenceID, l'.recent⟩ :: l'.installed }
  else l'

/-- The log after the node has sent messages. -/
def ViewLog.send (l : ViewLog) (msgs : List (ℕ × PbftMsg H)) : ViewLog :=
  { l with
    announced := (msgs.filterMap fun p => p.2.announces).map (fun key =>
      ⟨key.1, key.2, l.viewChanges⟩) ++ l.announced }

structure ViewTrace (H : Type) [DecidableEq H] [Hashing H] (N : ℕ) where
  world : PbftWorld H N
  log : Fin N → ViewLog

namespace ViewTrace

def init (N : ℕ) (ht : HandleType) (bc : BlockChain H) : ViewTrace H N where
  world := .init N ht bc
  log := fun _ => {}

/-- The message that an action handles. -/
def handled (w : PbftWorld H N) : PbftAct N → Option (PbftMsg H)
  | .deliver k => w.net[k]?.map Prod.snd
  | _ => none

/-- The log of the acting node after the action. -/
def logAfter (t : ViewTrace H N) (a : PbftAct N) (i : Fin N) (n : PbftNode H)
    (msgs : List (ℕ × PbftMsg H)) : ViewLog :=
  (((handled t.world a).map ((t.log i).handle (t.world.nodes i) n)).getD (t.log i)).send msgs

/-- One step of the shard, with the acting node's log. -/
def step (t : ViewTrace H N) (a : PbftAct N) : Option (ViewTrace H N) :=
  match t.world.act a with
  | none => none
  | some (i, n, r, msgs) =>
    if (t.world.nodes i).alive then
      some ⟨t.world.after i n r msgs, Function.update t.log i (t.logAfter a i n msgs)⟩
    else none

theorem step_cases {t t' : ViewTrace H N} {a : PbftAct N} (h : t.step a = some t') :
    ∃ i n r msgs, t.world.Acts i a n r msgs ∧ t'.world = t.world.after i n r msgs ∧
      t'.log = Function.update t.log i (t.logAfter a i n msgs) := by
  unfold step at h
  split at h
  · exact absurd h (by simp)
  next i n r msgs hact =>
  obtain ⟨-, h⟩ := Option.ite_none_right_eq_some.1 h
  obtain ⟨⟨⟩⟩ := h
  exact ⟨i, n, r, msgs, PbftWorld.acts_of_act hact, rfl, rfl⟩

/-- The steps of a trace are those of the shard. -/
theorem world_step (t : ViewTrace H N) (a : PbftAct N) :
    (t.step a).map ViewTrace.world = t.world.step a := by
  unfold step PbftWorld.step
  cases t.world.act a with
  | none => rfl
  | some p =>
    simp only
    split <;> rfl

/-! ## The condition -/

/-- If a `NewView` message makes up a quorum for its pair, everybody who had sent one for it before the
    node's last installation has sent one since. A `ViewChange` message that completes a quorum is about
    the node's own next view. -/
def Timely (n : PbftNode H) (l : ViewLog) : PbftMsg H → Prop
  | .newView m => n.installsView (.newView m) = true →
      voters m.key l.earlier ⊆ voters m.key (l.recent ++ [m])
  | .viewChange m => (insert m.fromNode (n.viewChangeMap m.key)).card = n.quorum →
      m.key = ((n.view + 1) % n.nodeNums, n.sequenceID)
  | _ => True

instance (n : PbftNode H) (l : ViewLog) : (m : PbftMsg H) → Decidable (Timely n l m)
  | .newView m => inferInstanceAs (Decidable (n.installsView _ = true → voters m.key _ ⊆ _))
  | .viewChange m => inferInstanceAs (Decidable (_ = n.quorum → m.key = _))
  | .prePrepare _ | .prepare _ | .commit _ | .requestOld _ | .sendOld _ => .isTrue trivial

def DeliversTimely (t : ViewTrace H N) : PbftAct N → Prop
  | .deliver k => ∀ p ∈ t.world.net[k]?, ∀ hd : p.1 < N,
      Timely (t.world.nodes ⟨p.1, hd⟩) (t.log ⟨p.1, hd⟩) p.2
  | _ => True

instance (t : ViewTrace H N) : (a : PbftAct N) → Decidable (t.DeliversTimely a)
  | .deliver k => inferInstanceAs (Decidable (∀ p ∈ t.world.net[k]?, ∀ hd : p.1 < N,
      Timely (t.world.nodes ⟨p.1, hd⟩) (t.log ⟨p.1, hd⟩) p.2))
  | .outside _ _ | .roundSignal _ | .takeSignal _ | .lockSequence _ | .propose _ _ _ _
  | .storeStage _ | .resume _ | .timeout _ => .isTrue trivial

/-! ## The invariant -/

/-- The node's sets hold the senders of the messages in its log, and what it has installed and
    announced has a quorum of `q` behind it. -/
structure Backed (q : ℕ) (n : PbftNode H) (l : ViewLog) : Prop where
  quorum : n.quorum = q
  viewChanges : ∀ key, n.viewChangeMap key = voters key l.viewChanges
  newViews : ∀ key, n.newViewMap key = voters key (l.earlier ++ l.recent)
  installed : ∀ e ∈ l.installed, q ≤ e.backers.card
  announced : ∀ e ∈ l.announced, q ≤ e.backers.card

section Backed

variable {q : ℕ} {n n' : PbftNode H} {l : ViewLog}

theorem backed_newPbftNode (id N : ℕ) (ht : HandleType) (bc : BlockChain H) :
    Backed (2 * ((N - 1) / 3) + 1) (.newPbftNode id N ht bc) {} where
  quorum := rfl
  viewChanges := fun _ => rfl
  newViews := fun _ => rfl
  installed := fun _ he => absurd he (by simp)
  announced := fun _ he => absurd he (by simp)

theorem Backed.congr (h : Backed q n l) (hsame : PbftNode.SameVotes n n') : Backed q n' l where
  quorum := by rw [← h.quorum, PbftNode.quorum, PbftNode.quorum, hsame.nodeNums]
  viewChanges := fun key => by rw [hsame.viewChangeMap, h.viewChanges]
  newViews := fun key => by rw [hsame.newViewMap, h.newViews]
  installed := h.installed
  announced := h.announced

omit [DecidableEq H] [Hashing H] in
/-- Sending anything else changes nothing. -/
theorem send_of_no_announcement {msgs : List (ℕ × PbftMsg H)}
    (h : msgs.filterMap (fun p => p.2.announces) = []) : l.send msgs = l := by
  unfold ViewLog.send
  rw [h]
  rfl

/-- A `ViewChange` message: if it completes a quorum, the announcement is of the pair it is for. -/
theorem Backed.handleViewChangeMsg (h : Backed q n l) {m : ViewMsg}
    (htimely : Timely n l (.viewChange m : PbftMsg H)) :
    Backed q (n.handleViewChangeMsg m).1
      ((l.handle n (n.handleViewChangeMsg m).1 (.viewChange m)).send
        (n.handleViewChangeMsg m).2) := by
  have hmap := update_insert_eq_voters h.viewChanges m
  refine ⟨h.quorum, hmap, h.newViews, h.installed, ?_⟩
  intro e he
  rcases List.mem_append.1 he with he | he
  · obtain ⟨key, hkey, rfl⟩ := List.mem_map.1 he
    obtain ⟨p, hp, hann⟩ := List.mem_filterMap.1 hkey
    simp only [PbftNode.handleViewChangeMsg] at hp
    split at hp
    · next hcard =>
        -- the pair announced is the node's own, which is the message's by assumption
        have hown : m.key = ((n.view + 1) % n.nodeNums, n.sequenceID) := htimely hcard
        rw [PbftNode.snd_of_mem_toAll hp] at hann
        have hkeys : key = m.key := by
          rw [hown]
          exact (Option.some.inj hann).symm
        subst hkeys
        have hvoters := hmap m.key
        rw [Function.update_self] at hvoters
        show q ≤ (voters m.key (l.viewChanges ++ [m])).card
        rw [← hvoters, ← h.quorum]
        exact hcard.ge
    · exact absurd hp (by simp)
  · exact h.announced e he

/-- A `NewView` message: the votes counted for its pair are all recent. -/
theorem Backed.handleNewViewMsg (h : Backed q n l) {m : ViewMsg}
    (htimely : Timely n l (.newView m : PbftMsg H)) :
    Backed q (n.handleNewViewMsg m) (l.handle n (n.handleNewViewMsg m) (.newView m)) := by
  have hmap := update_insert_eq_voters h.newViews m
  have hnew : ∀ key, Function.update n.newViewMap m.key
      (insert m.fromNode (n.newViewMap m.key)) key
        = voters key (l.earlier ++ (l.recent ++ [m])) := fun key => by
    rw [hmap, List.append_assoc]
  cases hinst : n.installsView (.newView m) with
  | true =>
    have hcard : (insert m.fromNode (n.newViewMap m.key)).card = n.quorum := of_decide_eq_true hinst
    have hfresh : voters m.key (l.earlier ++ l.recent ++ [m]) = voters m.key (l.recent ++ [m]) := by
      rw [List.append_assoc, voters_append, Finset.union_eq_right.2 (htimely hinst)]
    rw [PbftNode.handleNewViewMsg_of_installs hinst, ViewLog.handle, if_pos hinst]
    refine ⟨h.quorum, h.viewChanges, ?_, ?_, h.announced⟩
    · intro key
      rw [List.append_nil]
      exact hnew key
    · intro e he
      rcases List.mem_cons.1 he with rfl | he
      · have hvoters := hmap m.key
        rw [Function.update_self, hfresh] at hvoters
        show q ≤ (voters m.key (l.recent ++ [m])).card
        rw [← hvoters, ← h.quorum]
        exact hcard.ge
      · exact h.installed e he
  | false =>
    rw [PbftNode.handleNewViewMsg_of_not_installs hinst, ViewLog.handle, hinst]
    exact ⟨h.quorum, h.viewChanges, hnew, h.installed, h.announced⟩

/-- One message, whatever it is. -/
theorem Backed.handleMessage (h : Backed q n l) {m : PbftMsg H} {msgs : List (ℕ × PbftMsg H)}
    (htimely : Timely n l m) (hm : n.handleMessage m = some (n', msgs)) :
    Backed q n' ((l.handle n n' m).send msgs) := by
  cases m with
  | viewChange m =>
    rw [PbftNode.handleMessage, Option.some.injEq] at hm
    obtain ⟨rfl, rfl⟩ := Prod.ext_iff.1 hm
    exact h.handleViewChangeMsg htimely
  | newView m =>
    rw [PbftNode.handleMessage, Option.some.injEq, Prod.mk.injEq] at hm
    obtain ⟨rfl, rfl⟩ := hm
    exact h.handleNewViewMsg htimely
  | _ =>
    obtain ⟨hsame, hmsgs⟩ := PbftNode.sameVotes_handleMessage hm (by simp) (by simp)
    rw [send_of_no_announcement hmsgs]
    exact h.congr hsame

end Backed

/-- One step keeps every node's votes in line with its log. -/
theorem backed_step {q : ℕ} {t t' : ViewTrace H N} {a : PbftAct N}
    (h : ∀ i, Backed q (t.world.nodes i) (t.log i)) (htimely : t.DeliversTimely a)
    (hstep : t.step a = some t') (j : Fin N) : Backed q (t'.world.nodes j) (t'.log j) := by
  obtain ⟨i, n, r, msgs, hacts, hworld, hlog⟩ := step_cases hstep
  rw [hworld, hlog, PbftWorld.after]
  simp only [Function.update_apply]
  split
  · next hj =>
      subst hj
      have hi := h j
      -- the node's own routines leave the votes alone and announce nothing
      have hown : ∀ {n' : PbftNode H} {ms : List (ℕ × PbftMsg H)},
          PbftNode.SameVotes (t.world.nodes j) n' →
          ms.filterMap (fun p => p.2.announces) = [] →
          Backed q n' ((t.log j).send ms) := fun hsame hms => by
        rw [send_of_no_announcement hms]
        exact hi.congr hsame
      cases hacts with
      | outside pool => exact hown ⟨rfl, rfl, rfl⟩ rfl
      | roundSignal => exact hown ⟨rfl, rfl, rfl⟩ rfl
      | takeSignal => exact hown ⟨rfl, rfl, rfl⟩ rfl
      | lockSequence => exact hown ⟨rfl, rfl, rfl⟩ rfl
      | proposePanics => exact hown ⟨rfl, rfl, rfl⟩ rfl
      | propose => exact hown ⟨rfl, rfl, rfl⟩ (PbftNode.announces_toAll rfl)
      | storeStage => exact hown ⟨rfl, rfl, rfl⟩ rfl
      | resume =>
        obtain ⟨hnums, hvcm, hnvm⟩ :=
          PbftNode.sameVotes_askForOld { t.world.nodes j with blocked := none } _
        exact hown ⟨hnums, hvcm, hnvm⟩ rfl
      | timeout => exact hown ⟨rfl, rfl, rfl⟩ (PbftNode.announces_toAll rfl)
      | deliver hk hm =>
        have ht := htimely _ hk j.isLt
        rw [logAfter, handled, hk]
        exact hi.handleMessage ht hm
  · exact h j

/-- **Views and their quorums.** In a shard of `N` nodes that all run this code, if messages are
    delivered in time: behind every view a node has installed stand `NewView` messages, received since
    it last installed one, for just that view and sequence number from `2f + 1` nodes, and behind every
    view it has announced as many `ViewChange` messages for it. -/
theorem views_backed_by_quorums (ht : HandleType) (bc : BlockChain H) {t : ViewTrace H N}
    (hrun : ReachesUnder step DeliversTimely (init N ht bc) t) (i : Fin N) :
    (∀ e ∈ (t.log i).installed, 2 * ((N - 1) / 3) + 1 ≤ e.backers.card) ∧
      ∀ e ∈ (t.log i).announced, 2 * ((N - 1) / 3) + 1 ≤ e.backers.card := by
  have hinv : ∀ i, Backed (2 * ((N - 1) / 3) + 1) (t.world.nodes i) (t.log i) := by
    refine hrun.invariant
      (I := fun t => ∀ i, Backed (2 * ((N - 1) / 3) + 1) (t.world.nodes i) (t.log i)) ?_ ?_
    · exact fun i => backed_newPbftNode i N ht bc
    · exact fun t a t' h hcond hstep => backed_step h hcond hstep
  exact ⟨(hinv i).installed, (hinv i).announced⟩

/-! ## Stale and mismatched votes -/

section Sample

open BlockChain

set_option maxRecDepth 100000

/-- The given nodes time out. -/
def timeouts (is : List (Fin 4)) : List (PbftAct 4) := is.map .timeout

/-- After nodes 1, 2 and 3 have timed out in the first round, they hear of each other and node 1 gets
    their announcements. -/
def voteView1 : List (PbftAct 4) :=
  [1, 5, 9, 2, 6, 10, 3, 7, 11, 13, 17, 21].map .deliver

/-- Node 1 installs view 1 on the announcements of three nodes. -/
theorem view1_backed_by_three :
    ∃ t, ReachesUnder step DeliversTimely (init 4 .relay sampleGenesis) t ∧
      (t.world.nodes 1).view = 1 ∧ (∃ e ∈ (t.log 1).installed, e.view = 1 ∧ 3 ≤ e.backers.card) ∧
      ∃ e ∈ (t.log 1).announced, e.view = 1 ∧ 3 ≤ e.backers.card := by
  have hrun : ∃ t ∈ runChecked step (fun t a => decide (t.DeliversTimely a))
      (init 4 .relay sampleGenesis) (timeouts [1, 2, 3] ++ voteView1),
      (t.world.nodes 1).view = 1 ∧ (∃ e ∈ (t.log 1).installed, e.view = 1) ∧
        ∃ e ∈ (t.log 1).announced, e.view = 1 := by decide +kernel
  obtain ⟨t, ht, hview, ⟨e, he, he1⟩, e', he', he1'⟩ := hrun
  have hreach := reachesUnder_of_runDecided ht
  obtain ⟨hinst, hann⟩ := views_backed_by_quorums .relay sampleGenesis hreach 1
  exact ⟨t, hreach, hview, ⟨e, he, he1, hinst e he⟩, e', he', he1', hann e' he'⟩

/-- A repeated announcement makes node 1 install view 1 again, with one vote since the first time. And
    a node left behind in round 1 answers the `ViewChange` messages of the others, who are in round 2,
    with an announcement for round 1, which nobody has asked for. -/
theorem views_without_quorums :
    (∃ t, Reaches step (init 4 .relay sampleGenesis) t ∧
      ∃ e ∈ (t.log 1).installed, e.view = 1 ∧ e.backers.card = 1) ∧
    ∃ t, Reaches step (init 4 .relay sampleGenesis) t ∧
      ∃ e ∈ (t.log 3).announced, e.view = 1 ∧ e.seqID = 1 ∧ e.backers.card = 0 := by
  have hagain : ∃ t ∈ runActions step (init 4 .relay sampleGenesis)
      (timeouts [1, 2, 3] ++ voteView1 ++ [.deliver 13]),
      ∃ e ∈ (t.log 1).installed, e.view = 1 ∧ e.backers.card = 1 := by decide +kernel
  have hbehind : ∃ t ∈ runActions step (init 4 .relay sampleGenesis)
      (PbftWorld.laggingRound ++ timeouts [0, 1, 2] ++ [39, 43, 47].map .deliver),
      ∃ e ∈ (t.log 3).announced, e.view = 1 ∧ e.seqID = 1 ∧ e.backers.card = 0 := by
    decide +kernel
  obtain ⟨t, ht, he⟩ := hagain
  obtain ⟨t', ht', he'⟩ := hbehind
  exact ⟨⟨t, reaches_of_runActions ht, he⟩, t', reaches_of_runActions ht', he'⟩

end Sample

end ViewTrace

end BlockEmulator
