import BlockEmulator.Chain.History
import BlockEmulator.Chain.Propose
import BlockEmulator.Pbft.World

set_option autoImplicit false

/-! # Agreement

What makes all nodes of a shard hold the same blocks, across view changes: a proposal is only made by
a node that no other node is ahead of, and what a node executes is the latest proposal for its height.
Then the first node to reach a height fixes what is executed there. A view change can break the first
condition, since the new view starts from a sequence number that another node may already have
executed.

Only blocks are proposed here. A partition request of the CLPA modules does not carry the block it
leads to: every node makes it itself, with a root over accounts in the encoding of its own process, and
nothing says that two processes arrive at the same one. -/

namespace BlockEmulator

variable {H : Type} [DecidableEq H] [Hashing H] {N : ℕ}

/-! ## Executing a request -/

/-- Executing the request would append a block. -/
def HandleType.Appends (ht : HandleType) (bc : BlockChain H) (r : Request H) : Prop :=
  match r.msg with
  | .block b => bc.Extends b
  | .partition _ => ht.partitions = true

/-- `t'` is the tip that executing `r` on the tip `t` leads to. -/
def NextTip (cc : ChainConfig) (t : Tip H) (r : Request H) (t' : Tip H) : Prop :=
  match r.msg with
  | .block b => t' = ⟨b, t.partitionMap⟩
  | .partition atm => ∃ bc bc' : BlockChain H, bc.chainConfig = cc ∧ bc.tip = t ∧
      bc.accountTransferDo atm = some bc' ∧ bc'.tip = t'

/-- A block leads to one tip. -/
theorem NextTip.unique {cc : ChainConfig} {t t₁ t₂ : Tip H} {r : Request H} {b : Block H}
    (hr : r.msg = .block b) (h₁ : NextTip cc t r t₁) (h₂ : NextTip cc t r t₂) : t₁ = t₂ := by
  rw [NextTip, hr] at h₁ h₂
  exact h₁.trans h₂.symm

/-- What executing one request can do to a chain. -/
inductive Executes (ht : HandleType) (bc : BlockChain H) (r : Request H) (bc' : BlockChain H) : Prop
  | skip : BlockChain.SameFiles bc bc' → Executes ht bc r bc'
  | append : ht.Appends bc r → BlockChain.GrownBy bc bc' →
      NextTip bc.chainConfig bc.tip r bc'.tip → Executes ht bc r bc'

theorem executes_addBlock (ht : HandleType) {bc bc' : BlockChain H} {r : Request H} {b : Block H}
    (hr : r.msg = .block b) (h : bc.addBlock b = some bc') : Executes ht bc r bc' := by
  rcases BlockChain.addBlock_grows h with ⟨-, rfl⟩ | ⟨hext, hgrow, htip⟩
  · exact .skip (.refl _)
  · refine .append ?_ hgrow ?_
    · rw [HandleType.Appends, hr]
      exact hext
    · rw [NextTip, hr]
      exact htip

theorem executes_accountTransferDo {ht : HandleType} (hht : ht.partitions = true)
    {bc bc' : BlockChain H} {r : Request H} {atm : AccountTransferMsg} (hr : r.msg = .partition atm)
    (h : bc.accountTransferDo atm = some bc') : Executes ht bc r bc' := by
  obtain ⟨⟨hcc, hnum, hpar, hsto⟩, -, -⟩ := BlockChain.addAccounts_grows h
  refine .append ?_ ⟨hcc, hnum, hpar, hsto⟩ ?_
  · rw [HandleType.Appends, hr]
    exact hht
  · rw [NextTip, hr]
    exact ⟨bc, bc', rfl, rfl, h, rfl⟩

theorem sequentialRequest_executes {ht : HandleType} {bc bc' : BlockChain H} {r : Request H}
    (h : ht.sequentialRequest bc r = some bc') : Executes ht bc r bc' := by
  unfold HandleType.sequentialRequest at h
  split at h
  · next b hb => exact executes_addBlock ht hb h
  · next atm hatm =>
      split at h
      · next hht => exact executes_accountTransferDo hht hatm h
      · rw [Option.some.injEq] at h
        exact .skip (h ▸ .refl _)

/-- What the main node does after a block is added leaves the files alone. -/
theorem sameFiles_mainNodeCommit {ht : HandleType} {bc bc' : BlockChain H} {b : Block H}
    (h : ht.mainNodeCommit bc b = some bc') : BlockChain.SameFiles bc bc' := by
  have hrelay : ∀ {pool : Option TxPool},
      (pool.map fun p => { bc with txpool := p.clearRelayPool }) = some bc' →
        BlockChain.SameFiles bc bc' := by
    intro pool hp
    obtain ⟨p, -, rfl⟩ := Option.map_eq_some_iff.1 hp
    exact ⟨rfl, rfl, rfl, rfl⟩
  cases ht with
  | relay => exact hrelay h
  | clpa => exact hrelay h
  | broker => exact Option.some.inj h ▸ .refl _
  | clpaBroker =>
    simp only [HandleType.mainNodeCommit] at h
    split at h
    · exact Option.some.inj h ▸ .refl _
    · exact absurd h (by simp)

theorem Executes.trans_sameFiles {ht : HandleType} {bc bc' bc'' : BlockChain H} {r : Request H}
    (h : Executes ht bc r bc') (h' : BlockChain.SameFiles bc' bc'') : Executes ht bc r bc'' := by
  cases h with
  | skip hs =>
    exact .skip ⟨h'.config.trans hs.config, h'.block.trans hs.block,
      h'.partition.trans hs.partition, h'.storage.trans hs.storage⟩
  | append happ hg hn =>
    refine .append happ ⟨h'.config.trans hg.config, h'.height.trans hg.number, ?_, ?_⟩ ?_
    · rw [h'.block, hg.parent]
    · rw [h'.storage, h'.block, hg.storage]
    · have htip : bc''.tip = bc'.tip := by
        rw [BlockChain.tip, BlockChain.tip, h'.block, h'.partition]
      rw [htip]
      exact hn

theorem handleinCommit_executes (ht : HandleType) (isMain : Bool) (bc : BlockChain H)
    (r : Request H) : Executes ht bc r (ht.handleinCommit isMain bc r).1 := by
  unfold HandleType.handleinCommit
  split
  · next atm hatm =>
      split
      · next hht =>
          split
          · next bc' hdo => exact executes_accountTransferDo hht hatm hdo
          · exact .skip (.refl _)
      · exact .skip (.refl _)
  · next b hb =>
      split
      · exact .skip (.refl _)
      · next bc' hadd =>
          have hexec := executes_addBlock ht hb hadd
          split
          · split
            · next bc'' hmain => exact hexec.trans_sameFiles (sameFiles_mainNodeCommit hmain)
            · exact hexec
          · exact hexec

/-- What the commit handler survives has made the chain one block longer, unless it was a block that
    does not extend the chain. -/
theorem height_of_handleinCommit {ht : HandleType} {isMain : Bool} {bc bc' : BlockChain H}
    {r : Request H} (hext : ∀ b, r.msg = .block b → bc.Extends b)
    (h : ht.handleinCommit isMain bc r = (bc', true)) : bc'.height = bc.height + 1 := by
  unfold HandleType.handleinCommit at h
  split at h
  · split at h
    · split at h
      · next bc₁ hdo =>
          obtain rfl : bc₁ = bc' := congrArg Prod.fst h
          exact (BlockChain.addAccounts_grows hdo).1.number
      · exact absurd (congrArg Prod.snd h) (by simp)
    · exact absurd (congrArg Prod.snd h) (by simp)
  next b hb =>
  split at h
  · exact absurd (congrArg Prod.snd h) (by simp)
  next bc₁ hadd =>
  have hgrow : bc₁.height = bc.height + 1 := by
    rcases BlockChain.addBlock_grows hadd with ⟨hnot, -⟩ | ⟨-, hgrow, -⟩
    · exact absurd (hext b hb) hnot
    · exact hgrow.number
  split at h
  · split at h
    · next bc₂ hmain =>
        obtain rfl : bc₂ = bc' := congrArg Prod.fst h
        rw [(sameFiles_mainNodeCommit hmain).height, hgrow]
    · exact absurd (congrArg Prod.snd h) (by simp)
  · obtain rfl : bc₁ = bc' := congrArg Prod.fst h
    exact hgrow

/-- So it leads to the next tip. -/
theorem grown_of_handleinCommit {ht : HandleType} {isMain : Bool} {bc bc' : BlockChain H}
    {r : Request H} (hext : ∀ b, r.msg = .block b → bc.Extends b)
    (h : ht.handleinCommit isMain bc r = (bc', true)) :
    BlockChain.GrownBy bc bc' ∧ NextTip bc.chainConfig bc.tip r bc'.tip := by
  have hheight := height_of_handleinCommit hext h
  have hexec := handleinCommit_executes ht isMain bc r
  rw [h] at hexec
  cases hexec with
  | skip hs => exact absurd (hheight.symm.trans hs.height) (Nat.succ_ne_self _)
  | append _ hg hn => exact ⟨hg, hn⟩

/-! ## The history all nodes follow -/

/-- The latest proposal for a height. -/
def latest (log : List (ℕ × Request H)) (h : ℕ) : Option (Request H) :=
  (log.find? fun p => p.1 = h).map Prod.snd

/-- If executing the request would append a block, the request is the latest proposed for that
    height. -/
def IsLatest (log : List (ℕ × Request H)) (ht : HandleType) (bc : BlockChain H) (r : Request H) :
    Prop :=
  ht.Appends bc r → latest log (bc.height + 1) = some r

instance (ht : HandleType) (bc : BlockChain H) : (r : Request H) → Decidable (ht.Appends bc r)
  | ⟨.block b, _⟩ => inferInstanceAs (Decidable (bc.Extends b))
  | ⟨.partition _, _⟩ => inferInstanceAs (Decidable (ht.partitions = true))

instance (log : List (ℕ × Request H)) (ht : HandleType) (bc : BlockChain H) (r : Request H) :
    Decidable (IsLatest log ht bc r) :=
  inferInstanceAs (Decidable (_ → _))

/-- The history up to `top` is what executing the latest proposal of each height leads to. -/
structure Canonical (cc : ChainConfig) (log : List (ℕ × Request H)) (C : ℕ → Tip H) (top : ℕ) :
    Prop where
  linked : Linked C top
  executed : ∀ h < top, ∃ r, latest log (h + 1) = some r ∧ NextTip cc (C h) r (C (h + 1))

/-- The requests in the log are blocks, which carry the hash of their header. -/
def BlocksOnly (log : List (ℕ × Request H)) : Prop :=
  ∀ p ∈ log, ∃ b, p.2.msg = .block b ∧ b.hash = Hashing.headerHash b.header

omit [DecidableEq H] in
theorem BlocksOnly.latest {log : List (ℕ × Request H)} (hlog : BlocksOnly log) {h : ℕ}
    {r : Request H} (hr : latest log h = some r) :
    ∃ b, r.msg = .block b ∧ b.hash = Hashing.headerHash b.header := by
  obtain ⟨p, hp, rfl⟩ := Option.map_eq_some_iff.1 hr
  exact hlog p (List.mem_of_find?_eq_some hp)

/-- The block a request appends carries the hash of its header. -/
theorem hash_of_nextTip {log : List (ℕ × Request H)} (hlog : BlocksOnly log) {h : ℕ}
    {r : Request H} (hr : latest log h = some r) {cc : ChainConfig} {t t' : Tip H}
    (hn : NextTip cc t r t') : t'.block.hash = Hashing.headerHash t'.block.header := by
  obtain ⟨b, hb, hhash⟩ := hlog.latest hr
  rw [NextTip, hb] at hn
  subst hn
  exact hhash

/-- A history that is extended by what a chain at its top executes stays canonical. -/
theorem Canonical.extend {cc : ChainConfig} {log : List (ℕ × Request H)} {C : ℕ → Tip H}
    {bc bc' : BlockChain H} (hC : Canonical cc log C bc.height) (hlog : BlocksOnly log)
    (hbc : bc.Follows C) (hcc : bc.chainConfig = cc) {r : Request H}
    (hr : latest log (bc.height + 1) = some r) (hg : BlockChain.GrownBy bc bc')
    (hn : NextTip bc.chainConfig bc.tip r bc'.tip) :
    Canonical cc log (Function.update C (bc.height + 1) bc'.tip) (bc.height + 1) := by
  have hold : ∀ h ≤ bc.height, Function.update C (bc.height + 1) bc'.tip h = C h := fun h hh =>
    Function.update_of_ne (by omega) _ _
  have hnew : Function.update C (bc.height + 1) bc'.tip (bc.height + 1) = bc'.tip :=
    Function.update_self ..
  -- each of the four facts is new at the top and old below it
  refine ⟨⟨?_, ?_, ?_⟩, ?_⟩
  · intro h hh
    rcases Nat.lt_or_ge bc.height h with hlt | hle
    · obtain rfl : h = bc.height + 1 := by omega
      rw [hnew]
      exact hg.number
    · rw [hold h hle]
      exact hC.linked.number h hle
  · intro h hh
    rcases Nat.lt_or_ge bc.height h with hlt | hle
    · obtain rfl : h = bc.height + 1 := by omega
      rw [hnew]
      exact hash_of_nextTip hlog hr hn
    · rw [hold h hle]
      exact hC.linked.hash h hle
  · intro h hh
    rcases Nat.lt_or_ge h bc.height with hlt | hle
    · rw [hold h (by omega), hold (h + 1) (by omega)]
      exact hC.linked.parent h hlt
    · obtain rfl : h = bc.height := by omega
      rw [hold _ le_rfl, hnew, ← hbc.tip]
      exact hg.parent
  · intro h hh
    rcases Nat.lt_or_ge h bc.height with hlt | hle
    · rw [hold h (by omega), hold (h + 1) (by omega)]
      exact hC.executed h hlt
    · obtain rfl : h = bc.height := by omega
      rw [hold _ le_rfl, hnew, ← hbc.tip, ← hcc]
      exact ⟨r, hr, hn⟩

/-- A chain that follows a history, at or below its top. -/
structure OnHistory (cc : ChainConfig) (C : ℕ → Tip H) (top : ℕ) (bc : BlockChain H) : Prop where
  config : bc.chainConfig = cc
  below : bc.height ≤ top
  follows : bc.Follows C

/-- The history up to `top` stays, and `bc'` is on it, at least as high as `bc`. -/
def Advances (cc : ChainConfig) (log : List (ℕ × Request H)) (C : ℕ → Tip H) (top : ℕ)
    (bc bc' : BlockChain H) : Prop :=
  bc.height ≤ bc'.height ∧ ∃ C', Canonical cc log C' (max top bc'.height) ∧
    (∀ h ≤ top, C' h = C h) ∧ OnHistory cc C' (max top bc'.height) bc'

theorem Canonical.stay {cc : ChainConfig} {log : List (ℕ × Request H)} {C : ℕ → Tip H} {top : ℕ}
    (hC : Canonical cc log C top) {bc bc' : BlockChain H} (hle : bc.height ≤ bc'.height)
    (hbc' : OnHistory cc C top bc') : Advances cc log C top bc bc' := by
  have hmax : max top bc'.height = top := max_eq_left hbc'.below
  refine ⟨hle, C, ?_, fun _ _ => rfl, ?_⟩
  · rw [hmax]
    exact hC
  · rw [hmax]
    exact hbc'

theorem OnHistory.sameFiles {cc : ChainConfig} {C : ℕ → Tip H} {top : ℕ} {bc bc' : BlockChain H}
    (hbc : OnHistory cc C top bc) (hs : BlockChain.SameFiles bc bc') : OnHistory cc C top bc' :=
  ⟨hs.config.trans hbc.config, hs.height ▸ hbc.below, hs.follows hbc.follows⟩

/-- **Executing the latest proposal keeps to the history**, or extends it at the top. -/
theorem Canonical.execute {cc : ChainConfig} {log : List (ℕ × Request H)} {C : ℕ → Tip H} {top : ℕ}
    (hC : Canonical cc log C top) (hlog : BlocksOnly log) {ht : HandleType} {bc bc' : BlockChain H}
    {r : Request H} (hbc : OnHistory cc C top bc) (hr : IsLatest log ht bc r)
    (hexec : Executes ht bc r bc') : Advances cc log C top bc bc' := by
  cases hexec with
  | skip hs => exact hC.stay hs.height.ge (hbc.sameFiles hs)
  | append happ hg hn =>
    have hlat := hr happ
    have hnum := hg.number
    rcases Nat.lt_or_ge bc.height top with hlt | hge
    · -- another node has been here: it executed the same request from the same tip
      obtain ⟨r', hr', hnext⟩ := hC.executed bc.height hlt
      rw [hlat, Option.some.injEq] at hr'
      subst hr'
      rw [hbc.config, hbc.follows.tip] at hn
      obtain ⟨b, hb, -⟩ := hlog.latest hlat
      have htip : bc'.tip = C (bc.height + 1) := hn.unique hb hnext
      refine hC.stay (by omega) ⟨hg.config.trans hbc.config, by omega, ?_⟩
      exact hg.follows hC.linked hbc.follows hlt htip
    · -- the first node at this height
      obtain rfl : top = bc.height := Nat.le_antisymm hge hbc.below
      have hC' := hC.extend hlog hbc.follows hbc.config hlat hg hn
      have hold : ∀ h ≤ bc.height, Function.update C (bc.height + 1) bc'.tip h = C h :=
        fun h hh => Function.update_of_ne (by omega) _ _
      have hmax : max bc.height bc'.height = bc.height + 1 := by omega
      refine ⟨by omega, _, hmax ▸ hC', hold, hg.config.trans hbc.config, le_max_right _ _, ?_⟩
      exact hg.follows hC'.linked (hbc.follows.congr hold) le_rfl (by rw [Function.update_self])

theorem Canonical.propose {cc : ChainConfig} {log : List (ℕ × Request H)} {C : ℕ → Tip H}
    {top h : ℕ} (hC : Canonical cc log C top) (hh : top ≤ h) (r : Request H) :
    Canonical cc ((h + 1, r) :: log) C top := by
  refine ⟨hC.linked, ?_⟩
  intro k hk
  have hne : ¬ h + 1 = k + 1 := by omega
  rw [latest, List.find?_cons_of_neg (by simpa using hne)]
  exact hC.executed k hk

/-- Each request is the latest for its height when its turn comes. -/
def AllLatest (log : List (ℕ × Request H)) (ht : HandleType) :
    BlockChain H → List (Request H) → Prop
  | _, [] => True
  | bc, r :: rs =>
    IsLatest log ht bc r ∧ ∀ bc' ∈ ht.sequentialRequest bc r, AllLatest log ht bc' rs

instance decidableAllLatest (log : List (ℕ × Request H)) (ht : HandleType) :
    ∀ (bc : BlockChain H) (rs : List (Request H)), Decidable (AllLatest log ht bc rs)
  | _, [] => .isTrue trivial
  | bc, r :: rs =>
    have := fun bc' => decidableAllLatest log ht bc' rs
    inferInstanceAs (Decidable (IsLatest log ht bc r ∧
      ∀ bc' ∈ ht.sequentialRequest bc r, AllLatest log ht bc' rs))

theorem Canonical.executeAll {cc : ChainConfig} {log : List (ℕ × Request H)} {ht : HandleType}
    (hlog : BlocksOnly log) (rs : List (Request H)) {C : ℕ → Tip H} {top : ℕ} {bc : BlockChain H}
    (hC : Canonical cc log C top) (hbc : OnHistory cc C top bc) (hall : AllLatest log ht bc rs) :
    Advances cc log C top bc (ht.sequentialRequests bc rs).1 := by
  induction rs generalizing C top bc with
  | nil => exact hC.stay le_rfl hbc
  | cons r rs ih =>
    rw [HandleType.sequentialRequests]
    cases hreq : ht.sequentialRequest bc r with
    | none => exact hC.stay le_rfl hbc
    | some bc₁ =>
      obtain ⟨hle₁, C₁, hC₁, hold₁, hbc₁⟩ :=
        hC.execute hlog hbc hall.1 (sequentialRequest_executes hreq)
      obtain ⟨hle₂, C₂, hC₂, hold₂, hbc₂⟩ := ih hC₁ hbc₁ (hall.2 bc₁ hreq)
      -- the top reached by the first request is below the one reached by the rest
      rw [max_assoc, max_eq_right hle₂] at hC₂ hbc₂
      refine ⟨hle₁.trans hle₂, C₂, hC₂, ?_, hbc₂⟩
      intro h hh
      rw [hold₂ h (hh.trans (le_max_left _ _)), hold₁ h hh]

/-! ## What a step does to the chain of the node that acts -/

namespace PbftNode

theorem executeRequest_curChain (n : PbftNode H) (digest : H) (r : Request H) :
    (n.executeRequest digest r).curChain =
      (n.handleType.handleinCommit n.isMain n.curChain r).1 := by
  unfold executeRequest
  split
  · next bc heq => rw [heq, endRound_curChain]
  · next bc heq => rw [heq, crash_curChain]

/-- A commit message changes the chain only by the request it makes the node execute. -/
theorem handleCommit_curChain {n n' : PbftNode H} {m : Vote H} {msgs : List (ℕ × PbftMsg H)}
    (h : n.handleCommit m = some (n', msgs)) :
    n'.curChain = n.curChain ∨ ∃ r, n.committing m = some r ∧
      n'.curChain = (n.handleType.handleinCommit n.isMain n.curChain r).1 := by
  obtain ⟨c, ⟨rfl, -⟩ | ⟨-, rfl, -⟩ | ⟨-, hask⟩ | ⟨r, hr, rfl, -⟩⟩ := handleCommit_cases h
  · exact Or.inl rfl
  · exact Or.inl rfl
  · obtain ⟨rfl, -⟩ := Prod.mk.inj hask
    exact Or.inl (endRound_curChain _)
  · exact Or.inr ⟨r, hr, executeRequest_curChain _ _ _⟩

theorem handleSendOldSeq_curChain (n : PbftNode H) (m : SendOldMessage H) :
    (n.handleSendOldSeq m).1.curChain = (n.handleType.handleforSequentialRequest n.curChain
      m.seqStartHeight m.seqEndHeight m.oldRequest).1 := by
  unfold handleSendOldSeq
  split
  · next bc heq => rw [heq, crash_curChain]
  · next bc heq =>
      obtain ⟨ask, alive, hreenter, -⟩ := reenter_frame ({ n with curChain := bc }.fileReply m)
      rw [heq, hreenter]
      exact fileOldRequests_curChain _ _ _

/-- Proposing leaves the files alone and seals any block with the hash of its header. -/
theorem handleinPropose_spec {n : PbftNode H} {partition : Option AccountTransferMsg}
    {now reqTime : ℕ} {bc : BlockChain H} {r : Request H}
    (h : n.handleinPropose partition now reqTime = some (bc, r)) :
    BlockChain.SameFiles n.curChain bc ∧ ∀ b, r.msg = .block b →
      n.curChain.Extends b ∧ b.hash = Hashing.headerHash b.header := by
  unfold handleinPropose at h
  split at h
  · simp only [Option.some.injEq, Prod.mk.injEq] at h
    obtain ⟨rfl, rfl⟩ := h
    exact ⟨.refl _, fun b hb => absurd hb (by simp)⟩
  · obtain ⟨⟨bc', b⟩, hgen, heq⟩ := Option.map_eq_some_iff.1 h
    simp only [Prod.mk.injEq] at heq
    obtain ⟨rfl, rfl⟩ := heq
    obtain ⟨rt, hexec, rfl⟩ := BlockChain.generateBlockOf_cases hgen
    obtain ⟨hcc, hblk, hpm, hsto⟩ := BlockChain.sameFiles_getUpdateStatusTrie hexec
    refine ⟨⟨hcc, hblk, hpm, hsto⟩, ?_⟩
    intro b hb
    obtain rfl := RequestMsg.block.inj hb
    exact ⟨BlockChain.extends_sealBlock _ _ _ _ _, rfl⟩

/-- Without an account transfer a block on top of the chain is proposed. -/
theorem handleinPropose_block {n : PbftNode H} {now reqTime : ℕ} {bc : BlockChain H} {r : Request H}
    (h : n.handleinPropose none now reqTime = some (bc, r)) :
    ∃ b, r.msg = .block b ∧ n.curChain.Extends b ∧ b.hash = Hashing.headerHash b.header := by
  obtain ⟨-, hblock⟩ := handleinPropose_spec h
  obtain ⟨⟨bc', b⟩, -, heq⟩ := Option.map_eq_some_iff.1 h
  obtain ⟨-, rfl⟩ := Prod.mk.inj heq
  exact ⟨b, rfl, hblock b rfl⟩

end PbftNode

namespace PbftWorld

/-- **What a step does to a chain**: nothing to its files, or it executes the request of a commit
    message, or the requests of a `SendOldMessage`. -/
theorem Acts.curChain {w : PbftWorld H N} {a : PbftAct N} {i : Fin N} {n : PbftNode H}
    {r : Option (Request H)} {msgs : List (ℕ × PbftMsg H)} (h : w.Acts i a n r msgs) :
    BlockChain.SameFiles (w.nodes i).curChain n.curChain ∨
      (∃ k m req, a = .deliver k ∧ w.net[k]? = some (i.val, .commit m) ∧
        (w.nodes i).committing m = some req ∧ n.curChain =
          ((w.nodes i).handleType.handleinCommit (w.nodes i).isMain (w.nodes i).curChain req).1) ∨
      ∃ k m, a = .deliver k ∧ w.net[k]? = some (i.val, .sendOld m) ∧ n.curChain =
        ((w.nodes i).handleType.handleforSequentialRequest (w.nodes i).curChain m.seqStartHeight
          m.seqEndHeight m.oldRequest).1 := by
  cases h with
  | outside => exact Or.inl ⟨rfl, rfl, rfl, rfl⟩
  | roundSignal => exact Or.inl (.refl _)
  | takeSignal => exact Or.inl (.refl _)
  | lockSequence => exact Or.inl (.refl _)
  | proposePanics => exact Or.inl (.refl _)
  | propose _ _ hreq => exact Or.inl (PbftNode.handleinPropose_spec hreq).1
  | storeStage => exact Or.inl (.refl _)
  | resume =>
    left
    rw [PbftNode.askForOld, PbftNode.endRound_curChain]
    exact .refl _
  | timeout => exact Or.inl (.refl _)
  | deliver hk hn =>
    next k m =>
    cases m with
    | prePrepare m =>
      rcases PbftNode.handlePrePrepare_cases hn with
        ⟨rfl, -⟩ | ⟨rfl, -⟩ | ⟨-, rfl, -⟩ | ⟨-, rfl, -⟩ <;> exact Or.inl (.refl _)
    | prepare m =>
      obtain ⟨-, -, -, rfl, -⟩ := PbftNode.handlePrepare_cases hn
      exact Or.inl (.refl _)
    | commit m =>
      rcases PbftNode.handleCommit_curChain hn with hsame | ⟨req, hreq, hchain⟩
      · exact Or.inl (hsame ▸ .refl _)
      · exact Or.inr (Or.inl ⟨k, m, req, rfl, hk, hreq, hchain⟩)
    | requestOld m =>
      obtain rfl : ((w.nodes i).handleRequestOldSeq m).1 = n :=
        congrArg Prod.fst (Option.some.inj hn)
      rw [PbftNode.handleRequestOldSeq_fst]
      exact Or.inl (.refl _)
    | sendOld m =>
      obtain rfl : ((w.nodes i).handleSendOldSeq m).1 = n :=
        congrArg Prod.fst (Option.some.inj hn)
      exact Or.inr (Or.inr ⟨k, m, rfl, hk, PbftNode.handleSendOldSeq_curChain _ _⟩)
    | viewChange m =>
      obtain rfl : ((w.nodes i).handleViewChangeMsg m).1 = n :=
        congrArg Prod.fst (Option.some.inj hn)
      exact Or.inl (.refl _)
    | newView m =>
      obtain rfl : (w.nodes i).handleNewViewMsg m = n :=
        congrArg Prod.fst (Option.some.inj hn)
      rw [PbftNode.handleNewViewMsg_curChain]
      exact Or.inl (.refl _)

/-- The action proposes no account transfer. -/
def ProposesBlock : PbftAct N → Prop
  | .propose _ partition _ _ => partition = none
  | _ => True

instance : (a : PbftAct N) → Decidable (ProposesBlock a)
  | .propose _ partition _ _ => inferInstanceAs (Decidable (partition = none))
  | .outside _ _ | .roundSignal _ | .takeSignal _ | .lockSequence _ | .storeStage _ | .resume _
  | .timeout _ | .deliver _ => .isTrue trivial

/-- The log grows by the proposals only. -/
theorem Acts.proposal {w : PbftWorld H N} {a : PbftAct N} {i : Fin N} {n : PbftNode H}
    {r : Request H} {msgs : List (ℕ × PbftMsg H)} (h : w.Acts i a n (some r) msgs)
    (hblocks : ProposesBlock a) :
    (∃ partition now reqTime, a = .propose i partition now reqTime) ∧
      BlockChain.SameFiles (w.nodes i).curChain n.curChain ∧
      ∃ b, r.msg = .block b ∧ b.hash = Hashing.headerHash b.header := by
  cases h with
  | @propose partition _ _ _ _ _ _ hreq =>
    obtain rfl : partition = none := hblocks
    obtain ⟨b, hb, -, hhash⟩ := PbftNode.handleinPropose_block hreq
    exact ⟨⟨_, _, _, rfl⟩, (PbftNode.handleinPropose_spec hreq).1, b, hb, hhash⟩

end PbftWorld

/-! ## Orderly runs -/

/-- What the node would execute on this message is the latest proposal for its height. -/
def PbftNode.ExecutesLatest (n : PbftNode H) (log : List (ℕ × Request H)) : PbftMsg H → Prop
  | .commit m => ∀ r ∈ n.committing m, IsLatest log n.handleType n.curChain r
  | .sendOld m => n.handleType.enoughOldRequests m.seqStartHeight m.seqEndHeight m.oldRequest.length →
      AllLatest log n.handleType n.curChain
        (m.oldRequest.take (m.seqEndHeight + 1 - m.seqStartHeight))
  | _ => True

instance (n : PbftNode H) (log : List (ℕ × Request H)) :
    (m : PbftMsg H) → Decidable (n.ExecutesLatest log m)
  | .commit m => inferInstanceAs (Decidable (∀ r ∈ n.committing m, IsLatest log _ _ r))
  | .sendOld _ => inferInstanceAs (Decidable (_ = true → AllLatest log _ _ _))
  | .prePrepare _ | .prepare _ | .requestOld _ | .viewChange _ | .newView _ => .isTrue trivial

namespace PbftWorld

/-- A proposal comes from a node that no other node is ahead of; a delivery makes a node execute the
    latest proposal for its height only. -/
def Orderly (w : PbftWorld H N) : PbftAct N → Prop
  | .propose i _ _ _ => ∀ j, w.height j ≤ w.height i
  | .deliver k => ∀ p ∈ w.net[k]?, ∀ hd : p.1 < N,
      (w.nodes ⟨p.1, hd⟩).ExecutesLatest w.proposed p.2
  | _ => True

instance (w : PbftWorld H N) : (a : PbftAct N) → Decidable (w.Orderly a)
  | .propose i _ _ _ => inferInstanceAs (Decidable (∀ j, w.height j ≤ w.height i))
  | .deliver k => inferInstanceAs (Decidable (∀ p ∈ w.net[k]?, ∀ hd : p.1 < N,
      (w.nodes ⟨p.1, hd⟩).ExecutesLatest w.proposed p.2))
  | .outside _ _ | .roundSignal _ | .takeSignal _ | .lockSequence _ | .storeStage _ | .resume _
  | .timeout _ => .isTrue trivial

/-- All nodes are on one canonical history, whose top some node has reached. -/
structure Agreeing (cc : ChainConfig) (w : PbftWorld H N) (C : ℕ → Tip H) (top : ℕ) : Prop where
  canonical : Canonical cc w.proposed C top
  blocks : BlocksOnly w.proposed
  onHistory : ∀ i, OnHistory cc C top (w.nodes i).curChain
  attained : ∀ h, (∀ j, w.height j ≤ h) → top ≤ h

theorem Agreeing.advances {cc : ChainConfig} {w : PbftWorld H N} {C : ℕ → Tip H} {top : ℕ}
    (hw : Agreeing cc w C top) {a : PbftAct N} (hord : w.Orderly a) {i : Fin N} {n : PbftNode H}
    {r : Option (Request H)} {msgs : List (ℕ × PbftMsg H)} (hact : w.Acts i a n r msgs) :
    Advances cc w.proposed C top (w.nodes i).curChain n.curChain := by
  have hi := hw.onHistory i
  rcases hact.curChain with hs | ⟨k, m, req, rfl, hk, hreq, heq⟩ | ⟨k, m, rfl, hk, heq⟩
  · exact hw.canonical.stay hs.height.ge (hi.sameFiles hs)
  · have hlat := hord _ hk i.isLt req hreq
    rw [heq]
    exact hw.canonical.execute hw.blocks hi hlat (handleinCommit_executes _ _ _ _)
  · have hlat := hord _ hk i.isLt
    rw [heq]
    by_cases henough : (w.nodes i).handleType.enoughOldRequests m.seqStartHeight m.seqEndHeight
        m.oldRequest.length = true
    · rw [HandleType.handleforSequentialRequest_fst henough]
      exact hw.canonical.executeAll hw.blocks _ hi (hlat henough)
    · rw [HandleType.handleforSequentialRequest, if_neg henough]
      exact hw.canonical.stay le_rfl hi

/-- A step that proposes nothing. -/
theorem Agreeing.after_none {cc : ChainConfig} {w : PbftWorld H N} {C : ℕ → Tip H} {top : ℕ}
    (hw : Agreeing cc w C top) {i : Fin N} {n : PbftNode H} {msgs : List (ℕ × PbftMsg H)}
    (hadv : Advances cc w.proposed C top (w.nodes i).curChain n.curChain) :
    ∃ C' top', Agreeing cc (w.after i n none msgs) C' top' := by
  obtain ⟨hle, C', hC', hold, hn⟩ := hadv
  refine ⟨C', max top n.curChain.height, hC', hw.blocks, ?_, ?_⟩
  · refine (forall_nodes_after (p := fun _ m => OnHistory cc C' _ m.curChain)).2 ⟨hn, ?_⟩
    -- the other nodes are on the part of the history that stays
    intro j _
    obtain ⟨hcc, hbelow, hfollows⟩ := hw.onHistory j
    exact ⟨hcc, hbelow.trans (le_max_left _ _), hfollows.congr fun k hk => hold k (hk.trans hbelow)⟩
  · intro h hh
    have hheights := (forall_nodes_after (p := fun _ m => m.curChain.height ≤ h)).1 hh
    refine max_le (hw.attained h ?_) hheights.1
    intro j
    by_cases hj : j = i
    · exact hj ▸ hle.trans hheights.1
    · exact hheights.2 j hj

/-- A proposal by a node that no other is ahead of. -/
theorem Agreeing.after_some {cc : ChainConfig} {w : PbftWorld H N} {C : ℕ → Tip H} {top : ℕ}
    (hw : Agreeing cc w C top) {i : Fin N} {n : PbftNode H} {r : Request H}
    {msgs : List (ℕ × PbftMsg H)} (hahead : ∀ j, w.height j ≤ w.height i)
    (hs : BlockChain.SameFiles (w.nodes i).curChain n.curChain)
    (hr : ∃ b, r.msg = .block b ∧ b.hash = Hashing.headerHash b.header) :
    Agreeing cc (w.after i n (some r) msgs) C top where
  canonical := hw.canonical.propose (hw.attained _ hahead) r
  blocks := List.forall_mem_cons.2 ⟨hr, hw.blocks⟩
  onHistory := (forall_nodes_after (p := fun _ m => OnHistory cc C top m.curChain)).2
    ⟨(hw.onHistory i).sameFiles hs, fun j _ => hw.onHistory j⟩
  attained := fun h hh => by
    have hheights := (forall_nodes_after (p := fun _ m => m.curChain.height ≤ h)).1 hh
    exact hw.attained h fun j => (hahead j).trans (hs.height.symm.le.trans hheights.1)

/-- An orderly step keeps the nodes on one history. -/
theorem Agreeing.step {cc : ChainConfig} {w w' : PbftWorld H N} {C : ℕ → Tip H} {top : ℕ}
    (hw : Agreeing cc w C top) {a : PbftAct N} (hord : w.Orderly a) (hblocks : ProposesBlock a)
    (h : w.step a = some w') : ∃ C' top', Agreeing cc w' C' top' := by
  obtain ⟨i, n, r, msgs, hact, -, rfl⟩ := step_cases h
  cases r with
  | none => exact hw.after_none (hw.advances hord hact)
  | some r =>
    obtain ⟨⟨_, _, _, rfl⟩, hs, hr⟩ := hact.proposal hblocks
    exact ⟨C, top, hw.after_some hord hs hr⟩

/-- New nodes over a fresh chain agree on the genesis block. -/
theorem agreeing_init {cc : ChainConfig} {db : TrieDB H} {bc : BlockChain H}
    (hnew : BlockChain.newBlockChain cc Storage.empty db = some bc) (ht : HandleType) (i : Fin N) :
    Agreeing cc (init N ht bc) (fun _ => bc.tip) 0 := by
  obtain rfl := Option.some.inj hnew
  refine ⟨⟨⟨fun h hh => ?_, fun _ _ => rfl, fun h hh => absurd hh (by omega)⟩,
    fun h hh => absurd hh (by omega)⟩, fun _ hp => absurd hp (by simp [init]), fun _ => ?_,
    fun h hh => hh i⟩
  · obtain rfl : h = 0 := by omega
    rfl
  · exact ⟨rfl, le_rfl, rfl, fun _ _ => Storage.getBlock_addBlock_self _ _⟩

/-- Nodes on one history hold the same blocks. -/
theorem Agreeing.same_block {cc : ChainConfig} {w : PbftWorld H N} {C : ℕ → Tip H} {top : ℕ}
    (hw : Agreeing cc w C top) {i j : Fin N} {h : ℕ} (hi : h ≤ w.height i) (hj : h ≤ w.height j) :
    ∃ b, (w.nodes i).curChain.blockAt h = some b ∧ (w.nodes j).curChain.blockAt h = some b ∧
      b.header.number = h := by
  have hnodei := hw.onHistory i
  have hnodej := hw.onHistory j
  exact ⟨(C h).block, hnodei.follows.blockAt hw.canonical.linked hnodei.below hi,
    hnodej.follows.blockAt hw.canonical.linked hnodej.below hj,
    hw.canonical.linked.number h (hi.trans hnodei.below)⟩

/-- **Agreement across views.** In every orderly run without partition requests two nodes hold the same
    block at every height both have reached. -/
theorem same_block_of_orderly_run {cc : ChainConfig} {db : TrieDB H} {bc : BlockChain H}
    (hnew : BlockChain.newBlockChain cc Storage.empty db = some bc) (ht : HandleType)
    {w : PbftWorld H N}
    (hrun : ReachesUnder step (fun w a => w.Orderly a ∧ ProposesBlock a) (init N ht bc) w)
    (i j : Fin N) {h : ℕ} (hi : h ≤ w.height i) (hj : h ≤ w.height j) :
    ∃ b, (w.nodes i).curChain.blockAt h = some b ∧ (w.nodes j).curChain.blockAt h = some b ∧
      b.header.number = h := by
  have hinv : ∃ C top, Agreeing cc w C top :=
    hrun.invariant (I := fun w => ∃ C top, Agreeing cc w C top) ⟨_, _, agreeing_init hnew ht i⟩
      fun _ _ _ ⟨_, _, hw⟩ hP hstep => hw.step hP.1 hP.2 hstep
  obtain ⟨C, top, hw⟩ := hinv
  exact hw.same_block hi hj

section Sample

open BlockChain

set_option maxRecDepth 100000

/-- Node 0 proposes a block with a transfer; all nodes prepare it and nodes 0, 1 and 2 send their
    commit messages. -/
def firstRound : List (PbftAct 4) :=
  [.outside 0 ⟨[transfer 5], ∅⟩, .roundSignal 0, .takeSignal 0, .lockSequence 0,
    .propose 0 none 0 0, .storeStage 0] ++
    [0, 1, 2, 3, 4, 8, 12, 5, 9, 13, 6, 10, 14].map .deliver

/-- Nodes 1, 2 and 3 have seen no commit message, time out and install view 1. -/
def viewChange : List (PbftAct 4) :=
  [.timeout 1, .timeout 2, .timeout 3] ++
    [33, 37, 41, 34, 38, 42, 35, 39, 43, 45, 49, 53, 46, 50, 54, 47, 51, 55].map .deliver

/-- Node 1, whose pool is empty, proposes in view 1 and executes. -/
def secondRound : List (PbftAct 4) :=
  [.roundSignal 1, .takeSignal 1, .lockSequence 1, .propose 1 none 0 0, .storeStage 1] ++
    [57, 58, 59, 61, 65, 69, 62, 66, 70, 63, 67, 71, 73, 77, 81].map .deliver

/-- The commit messages of the first round reach nodes 0 and 1. -/
theorem first_round_same_block :
    ∃ w, ReachesUnder step (fun w a => w.Orderly a ∧ ProposesBlock a)
        (init 4 .relay sampleGenesis) w ∧
      w.height 0 = 1 ∧ w.height 1 = 1 ∧ ∃ b, (w.nodes 0).curChain.blockAt 1 = some b ∧
        (w.nodes 1).curChain.blockAt 1 = some b ∧ b.header.number = 1 := by
  have hrun : ∃ w ∈ runChecked step (fun w a => decide (w.Orderly a ∧ ProposesBlock a))
      (init 4 .relay sampleGenesis) (firstRound ++ [20, 24, 28, 21, 25, 29].map .deliver),
      w.height 0 = 1 ∧ w.height 1 = 1 := by decide +kernel
  obtain ⟨w, hw, h0, h1⟩ := hrun
  have hreach := reachesUnder_of_runDecided hw
  exact ⟨w, hreach, h0, h1, same_block_of_orderly_run newBlockChain_sample .relay hreach 0 1
    h0.ge h1.ge⟩

/-- The commit messages of the first round reach node 0 only, which executes its block. After the
    view change the others execute another one at the same height. -/
theorem view_change_forks :
    ∃ w, Reaches step (init 4 .relay sampleGenesis) w ∧ w.height 0 = 1 ∧ w.height 1 = 1 ∧
      (w.nodes 0).curChain.blockAt 1 ≠ (w.nodes 1).curChain.blockAt 1 := by
  have hrun : ∃ w ∈ runActions step (init 4 .relay sampleGenesis)
      (firstRound ++ [20, 24, 28].map .deliver ++ viewChange ++ secondRound),
      w.height 0 = 1 ∧ w.height 1 = 1 ∧
        (w.nodes 0).curChain.currentBlock ≠ (w.nodes 1).curChain.currentBlock := by
    decide +kernel
  obtain ⟨w, hw, h0, h1, hne⟩ := hrun
  refine ⟨w, reaches_of_runActions hw, h0, h1, fun heq => hne ?_⟩
  rw [blockAt, blockAt] at heq
  rw [height] at h0 h1
  rw [h0, h1] at heq
  exact Option.some.inj heq

end Sample

end PbftWorld

end BlockEmulator
