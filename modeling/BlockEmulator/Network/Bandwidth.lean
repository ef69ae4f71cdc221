import BlockEmulator.Lib.Loop
import BlockEmulator.Network.Messages
import Mathlib.Algebra.BigOperators.Group.List.Basic
import Mathlib.Algebra.Order.Ring.Int
import Mathlib.Tactic.Ring

set_option autoImplicit false

/-! # The bandwidth limiter

`InitNetworkTools` makes a limiter for each direction, whose burst is the bandwidth. A writer and a reader
wait for as many tokens as they have bytes, in a loop, since a request must not exceed the burst
(`networks/upload_limit.go`, `download_limit.go`). The two loops take the same steps. The writer asks for
the tokens of its step, and is right as long as there are steps to take: with a bandwidth of zero, which
`InitNetworkTools` lets pass, it waits forever, and holds the lock of all connections. The reader asks
each time for all that is left. So it is right if that is one step, and otherwise its first request
fails. The limiter is the one of the package `rate`, and what these results say of the loops rests on
`NewsLimiters` alone: its burst is the one it is made with, and `WaitN` fails exactly above it.

Otherwise the limiter cannot be noticed: what a connection is sent is what `tcpStream` says
(`dials_eq_tcpStream`), so that messages arrive as they were sent (`dials_arrive_iff`). -/

namespace BlockEmulator

/-! ## Limiters -/

/-- The parameters of the network in `params`. -/
structure NetworkParams where
  delay : ℤ
  jitterRange : ℤ
  bandwidth : ℤ

/-- The error of a `WaitN`, or one of the connection. -/
inductive NetError where
  | exceedsBurst (n burst : ℤ)
  | connection
deriving DecidableEq

/-- A `rate.Limiter`: its `Burst`, and what its `WaitN` returns once the tokens have come. -/
structure Limiter where
  burst : ℤ
  waitN : ℤ → Option NetError

/-- `WaitN` fails exactly if it is asked for more than the burst. -/
def Limiter.FailsAboveBurst (l : Limiter) : Prop := ∀ n, l.waitN n = none ↔ n ≤ l.burst

/-- What is assumed of `rate.NewLimiter`, which takes the rate and the burst. -/
def NewsLimiters (newLimiter : ℤ → ℤ → Limiter) : Prop :=
  ∀ r b, (newLimiter r b).burst = b ∧ (newLimiter r b).FailsAboveBurst

/-- What `InitNetworkTools` sets up. -/
structure NetworkTools where
  params : NetworkParams
  rateLimiterDownload : Limiter
  rateLimiterUpload : Limiter

/-- `InitNetworkTools`, where `newLimiter` is `rate.NewLimiter`. -/
def initNetworkTools (newLimiter : ℤ → ℤ → Limiter) (params : NetworkParams) : NetworkTools :=
  let delay := if params.delay < 0 then 0 else params.delay
  let jitterRange := if params.jitterRange < 0 then 0 else params.jitterRange
  let bandwidth := if params.bandwidth < 0 then 0x7fffffff else params.bandwidth
  { params := ⟨delay, jitterRange, bandwidth⟩
    rateLimiterDownload := newLimiter bandwidth bandwidth
    rateLimiterUpload := newLimiter bandwidth bandwidth }

/-! ## Waiting -/

/-- A waiting loop on its way: the bytes that are left, and what it has asked for. -/
structure Waiting where
  n : ℤ
  requests : List ℤ

/-- A waiting loop that has been left. -/
structure Waited where
  requests : List ℤ
  err : Option NetError
deriving DecidableEq

/-- One turn of the loop, where `ask` says what is asked for, of the tokens of this step and all that are
    left. -/
def waitTurn (l : Limiter) (ask : ℤ → ℤ → ℤ) (s : Waiting) : Waiting ⊕ Waited :=
  if 0 < s.n then
    let writeByteNum := if s.n < l.burst then s.n else l.burst
    let requests := s.requests ++ [ask writeByteNum s.n]
    match l.waitN (ask writeByteNum s.n) with
    | some err => .inr ⟨requests, some err⟩
    | none => .inl ⟨s.n - writeByteNum, requests⟩
  else .inr ⟨s.requests, none⟩

/-- A call that waits first: the loop, and what the call returns. -/
def waitFirst {α : Type} (l : Limiter) (ask : ℤ → ℤ → ℤ) (fuel n : ℕ) (call : α)
    (fail : NetError → α) : Option (Waited × α) :=
  (whileLoop (waitTurn l ask) fuel ⟨n, []⟩).map fun waited =>
    (waited, match waited.err with
      | some err => fail err
      | none => call)

/-- `rateLimitedWriter`, where `σ` is the state of what is written to. A call returns a number of bytes
    and an error. -/
structure RateLimitedWriter (σ : Type) where
  writer : σ → List UInt8 → σ × ℕ × Option NetError
  limiter : Limiter

/-- `Write`, with at most `fuel` turns of its loop. -/
def RateLimitedWriter.write {σ : Type} (w : RateLimitedWriter σ) (fuel : ℕ) (s : σ) (p : List UInt8) :
    Option (Waited × σ × ℕ × Option NetError) :=
  waitFirst w.limiter (fun writeByteNum _ => writeByteNum) fuel p.length (w.writer s p)
    fun err => (s, 0, some err)

/-- `rateLimitedReader`. A call fills the buffer, and returns a number of bytes and an error. -/
structure RateLimitedReader (σ : Type) where
  reader : σ → List UInt8 → (σ × List UInt8) × ℕ × Option NetError
  limiter : Limiter

/-- `Read`, with at most `fuel` turns of its loop. -/
def RateLimitedReader.read {σ : Type} (r : RateLimitedReader σ) (fuel : ℕ) (s : σ) (p : List UInt8) :
    Option (Waited × (σ × List UInt8) × ℕ × Option NetError) :=
  waitFirst r.limiter (fun _ n => n) fuel p.length (r.reader s p) fun err => ((s, p), 0, some err)

/-- The loop of a call for `n` bytes is left, no request exceeds the burst, and all requests together are
    for `n` tokens. -/
def AsksRight {α : Type} (l : Limiter) (n : ℕ) (call : ℕ → Option (Waited × α)) : Prop :=
  ∃ fuel waited result, call fuel = some (waited, result) ∧
    (∀ request ∈ waited.requests, request ≤ l.burst) ∧ waited.requests.sum = n

theorem waitTurn_of_not_pos (l : Limiter) (ask : ℤ → ℤ → ℤ) {t : Waiting} (h : ¬0 < t.n) :
    waitTurn l ask t = .inr ⟨t.requests, none⟩ := if_neg h

/-- A turn as long as there are bytes left. -/
theorem waitTurn_of_pos (l : Limiter) (ask : ℤ → ℤ → ℤ) {t : Waiting} (h : 0 < t.n) :
    waitTurn l ask t =
      match l.waitN (ask (min t.n l.burst) t.n) with
      | some err => .inr ⟨t.requests ++ [ask (min t.n l.burst) t.n], some err⟩
      | none => .inl ⟨t.n - min t.n l.burst, t.requests ++ [ask (min t.n l.burst) t.n]⟩ := by
  have hstep : (if t.n < l.burst then t.n else l.burst) = min t.n l.burst := by
    rw [min_def]
    split_ifs <;> omega
  rw [waitTurn, if_pos h]
  simp only [hstep]

/-! ## The writer -/

section Writer

variable {l : Limiter}

/-- The writer never asks for more than the burst. -/
theorem waitTurn_write (hwait : l.FailsAboveBurst) (t : Waiting) :
    waitTurn l (fun writeByteNum _ => writeByteNum) t =
      if 0 < t.n then .inl ⟨t.n - min t.n l.burst, t.requests ++ [min t.n l.burst]⟩
      else .inr ⟨t.requests, none⟩ := by
  split_ifs with hpos
  · rw [waitTurn_of_pos l _ hpos, (hwait _).2 (min_le_right t.n l.burst)]
  · exact waitTurn_of_not_pos l _ hpos

/-- The writer's loop is left after at most as many turns as there are bytes. -/
theorem whileLoop_write (hwait : l.FailsAboveBurst) (hburst : 0 < l.burst) {n fuel : ℕ}
    (hfuel : n < fuel) :
    ∃ waited, whileLoop (waitTurn l fun writeByteNum _ => writeByteNum) fuel ⟨n, []⟩ = some waited ∧
      waited.err = none ∧ (∀ request ∈ waited.requests, request ≤ l.burst) ∧
      waited.requests.sum = n := by
  -- what is left and what has been asked for are all bytes together
  refine whileLoop_of_measure (I := fun t : Waiting => 0 ≤ t.n ∧ t.requests.sum + t.n = n ∧
    ∀ request ∈ t.requests, request ≤ l.burst) (fun t => t.n.toNat) ?_ ?_ ?_ hfuel
  · rintro t t' ⟨-, hsum, hle⟩ hturn
    rw [waitTurn_write hwait] at hturn
    split_ifs at hturn with hpos
    obtain rfl := Sum.inl.inj hturn
    refine ⟨⟨?_, ?_, ?_⟩, ?_⟩
    · exact sub_nonneg.2 (min_le_left t.n l.burst)
    · rw [List.sum_append, List.sum_singleton, ← hsum]
      ring
    · rw [List.forall_mem_append, List.forall_mem_singleton]
      exact ⟨hle, min_le_right t.n l.burst⟩
    · change (t.n - min t.n l.burst).toNat < t.n.toNat
      omega
  · rintro t waited ⟨hn, hsum, hle⟩ hturn
    rw [waitTurn_write hwait] at hturn
    split_ifs at hturn with hpos
    obtain rfl := Sum.inr.inj hturn
    have hnone : t.n = 0 := le_antisymm (not_lt.1 hpos) hn
    rw [hnone, add_zero] at hsum
    exact ⟨rfl, hle, hsum⟩
  · exact ⟨Int.natCast_nonneg n, by simp, by simp⟩

/-- With a burst of zero the writer asks for nothing, again and again. -/
theorem whileLoop_write_of_zero (hwait : l.FailsAboveBurst) (hburst : l.burst = 0) {n : ℕ}
    (hn : n ≠ 0) (fuel : ℕ) :
    whileLoop (waitTurn l fun writeByteNum _ => writeByteNum) fuel ⟨n, []⟩ = none := by
  refine whileLoop_eq_none (I := fun t : Waiting => 0 < t.n) (fun t hpos => ?_) (by simpa using hn.bot_lt)
  refine ⟨_, (waitTurn_write hwait t).trans (if_pos hpos), ?_⟩
  change 0 < t.n - min t.n l.burst
  omega

variable {σ : Type} {w : RateLimitedWriter σ}

/-- A `Write` that has been granted its tokens is one of the writer. -/
theorem RateLimitedWriter.write_eq (hwait : w.limiter.FailsAboveBurst) (hburst : 0 < w.limiter.burst)
    (s : σ) {p : List UInt8} {fuel : ℕ} (hfuel : p.length < fuel) :
    ∃ waited, w.write fuel s p = some (waited, w.writer s p) ∧
      (∀ request ∈ waited.requests, request ≤ w.limiter.burst) ∧
      waited.requests.sum = p.length := by
  obtain ⟨waited, hloop, herr, hle, hsum⟩ := whileLoop_write hwait hburst hfuel
  refine ⟨waited, ?_, hle, hsum⟩
  rw [write, waitFirst, hloop, Option.map_some, herr]

theorem RateLimitedWriter.write_of_zero (hwait : w.limiter.FailsAboveBurst)
    (hburst : w.limiter.burst = 0) (s : σ) {p : List UInt8} (hp : p ≠ []) (fuel : ℕ) :
    w.write fuel s p = none := by
  rw [write, waitFirst, whileLoop_write_of_zero hwait hburst (mt List.length_eq_zero_iff.1 hp),
    Option.map_none]

/-- **When the writer asks right.** -/
theorem RateLimitedWriter.asksRight_iff (hwait : w.limiter.FailsAboveBurst)
    (hburst : 0 ≤ w.limiter.burst) (s : σ) (p : List UInt8) :
    AsksRight w.limiter p.length (fun fuel => w.write fuel s p) ↔ p = [] ∨ w.limiter.burst ≠ 0 := by
  constructor
  · rintro ⟨fuel, waited, result, hcall, -⟩
    by_contra hnot
    obtain ⟨hp, hzero⟩ := not_or.1 hnot
    dsimp only at hcall
    rw [w.write_of_zero hwait (not_not.1 hzero) s hp] at hcall
    exact absurd hcall (by simp)
  · rintro (rfl | hne)
    · exact ⟨1, ⟨[], none⟩, _, rfl, by simp, rfl⟩
    · obtain ⟨waited, hcall, hright⟩ :=
        w.write_eq hwait (hburst.lt_of_ne' hne) s (Nat.lt_succ_self p.length)
      exact ⟨_, waited, _, hcall, hright⟩

end Writer

/-! ## The reader -/

section Reader

variable {σ : Type} {r : RateLimitedReader σ} {s : σ} {p : List UInt8}

/-- More bytes than the burst are refused with the first request. -/
theorem RateLimitedReader.read_of_burst_lt (hwait : r.limiter.FailsAboveBurst)
    (hburst : 0 ≤ r.limiter.burst) (hlt : r.limiter.burst < p.length) (s : σ) :
    ∃ err, ∀ fuel, r.read (fuel + 1) s p =
      some (⟨[(p.length : ℤ)], some err⟩, (s, p), 0, some err) := by
  obtain ⟨err, herr⟩ := Option.ne_none_iff_exists'.1 (mt (hwait p.length).1 (not_le.2 hlt))
  have hturn : waitTurn r.limiter (fun _ n => n) ⟨p.length, []⟩ =
      .inr ⟨[(p.length : ℤ)], some err⟩ := by
    rw [waitTurn_of_pos _ _ (hburst.trans_lt hlt)]
    simp only [herr, List.nil_append]
  refine ⟨err, fun fuel => ?_⟩
  rw [read, waitFirst, whileLoop, hturn]
  rfl

/-- Up to the burst, all bytes are one step. -/
theorem RateLimitedReader.read_of_le (hwait : r.limiter.FailsAboveBurst)
    (hle : (p.length : ℤ) ≤ r.limiter.burst) (s : σ) (fuel : ℕ) :
    ∃ waited, r.read (fuel + 2) s p = some (waited, r.reader s p) ∧
      (∀ request ∈ waited.requests, request ≤ r.limiter.burst) ∧
      waited.requests.sum = p.length := by
  by_cases hpos : 0 < (p.length : ℤ)
  · refine ⟨⟨[(p.length : ℤ)], none⟩, ?_, by simpa using hle, by simp⟩
    have hturn : waitTurn r.limiter (fun _ n => n) ⟨p.length, []⟩ =
        .inl ⟨0, [(p.length : ℤ)]⟩ := by
      rw [waitTurn_of_pos _ _ hpos]
      simp [(hwait _).2 hle, min_eq_left hle]
    rw [read, waitFirst, whileLoop, hturn]
    rfl
  · refine ⟨⟨[], none⟩, ?_, by simp, by simp; omega⟩
    rw [read, waitFirst, whileLoop, waitTurn_of_not_pos _ _ hpos]
    rfl

/-- **When the reader asks right.** -/
theorem RateLimitedReader.asksRight_iff (hwait : r.limiter.FailsAboveBurst)
    (hburst : 0 ≤ r.limiter.burst) (s : σ) (p : List UInt8) :
    AsksRight r.limiter p.length (fun fuel => r.read fuel s p) ↔
      (p.length : ℤ) ≤ r.limiter.burst := by
  constructor
  · rintro ⟨fuel, waited, result, hcall, hle, -⟩
    by_contra hlt
    obtain ⟨err, hread⟩ := r.read_of_burst_lt hwait hburst (not_le.1 hlt) s
    cases fuel with
    | zero => exact absurd hcall (by simp [read, waitFirst, whileLoop])
    | succ fuel =>
      dsimp only at hcall
      rw [hread] at hcall
      obtain ⟨rfl, -⟩ := Prod.mk.inj (Option.some.inj hcall)
      exact hlt (hle _ List.mem_cons_self)
  · intro hle
    obtain ⟨waited, hcall, hright⟩ := r.read_of_le hwait hle s 0
    exact ⟨_, waited, _, hcall, hright⟩

end Reader

/-! ## After `InitNetworkTools` -/

section Init

variable {newLimiter : ℤ → ℤ → Limiter}

theorem initNetworkTools_spec (hnew : NewsLimiters newLimiter) (params : NetworkParams) :
    (initNetworkTools newLimiter params).rateLimiterUpload =
        (initNetworkTools newLimiter params).rateLimiterDownload ∧
      (initNetworkTools newLimiter params).rateLimiterDownload.FailsAboveBurst ∧
      (initNetworkTools newLimiter params).rateLimiterDownload.burst =
        (initNetworkTools newLimiter params).params.bandwidth ∧
      0 ≤ (initNetworkTools newLimiter params).params.bandwidth ∧
      ((initNetworkTools newLimiter params).params.bandwidth = 0 ↔ params.bandwidth = 0) := by
  refine ⟨rfl, (hnew _ _).2, (hnew _ _).1, ?_, ?_⟩
  · change 0 ≤ if params.bandwidth < 0 then 0x7fffffff else params.bandwidth
    split_ifs <;> omega
  · change (if params.bandwidth < 0 then 0x7fffffff else params.bandwidth) = 0 ↔ _
    split_ifs <;> omega

/-- **Waiting for tokens.** After `InitNetworkTools` with any bandwidth, the writer leaves its loop,
    asks for no more than the burst at a time and for as many tokens as it has bytes, exactly if it has
    none or the bandwidth is not zero. The reader does so exactly if its buffer is no longer than the
    bandwidth. -/
theorem limiters_ask_right_iff {σ : Type} (hnew : NewsLimiters newLimiter) (params : NetworkParams)
    (writer : σ → List UInt8 → σ × ℕ × Option NetError)
    (reader : σ → List UInt8 → (σ × List UInt8) × ℕ × Option NetError) (s : σ) (p : List UInt8) :
    (AsksRight (initNetworkTools newLimiter params).rateLimiterUpload p.length
        (fun fuel => RateLimitedWriter.write
          ⟨writer, (initNetworkTools newLimiter params).rateLimiterUpload⟩ fuel s p) ↔
      p = [] ∨ params.bandwidth ≠ 0) ∧
    (AsksRight (initNetworkTools newLimiter params).rateLimiterDownload p.length
        (fun fuel => RateLimitedReader.read
          ⟨reader, (initNetworkTools newLimiter params).rateLimiterDownload⟩ fuel s p) ↔
      (p.length : ℤ) ≤ (initNetworkTools newLimiter params).params.bandwidth) := by
  obtain ⟨hsame, hwait, hburst, hnonneg, hzero⟩ := initNetworkTools_spec hnew params
  constructor
  · rw [hsame]
    refine (RateLimitedWriter.asksRight_iff hwait (hburst ▸ hnonneg) s p).trans ?_
    rw [hburst]
    exact or_congr_right (not_congr hzero)
  · rw [← hburst]
    exact RateLimitedReader.asksRight_iff hwait (hburst ▸ hnonneg) s p

end Init

/-- A limiter with no more to it than its burst. -/
def burstLimiter (_rate burst : ℤ) : Limiter where
  burst := burst
  waitN n := if burst < n then some (.exceedsBurst n burst) else none

theorem newsLimiters_burstLimiter : NewsLimiters burstLimiter := by
  refine fun rate burst => ⟨rfl, fun n => ?_⟩
  show (if burst < n then some _ else none) = none ↔ n ≤ burst
  split_ifs with h
  · simpa using h
  · simpa using h

/-- With a bandwidth of two, a writer and a reader wait for two bytes as they should. -/
theorem limiters_ask_for_two_bytes :
    AsksRight (burstLimiter 2 2) 2 (fun fuel => RateLimitedWriter.write
      ⟨fun _ p => ((), p.length, none), burstLimiter 2 2⟩ fuel () [0, 0]) ∧
    AsksRight (burstLimiter 2 2) 2 (fun fuel => RateLimitedReader.read
      ⟨fun _ p => (((), p), p.length, none), burstLimiter 2 2⟩ fuel () [0, 0]) := by
  have h := limiters_ask_right_iff newsLimiters_burstLimiter ⟨0, 0, 2⟩
    (fun _ p => ((), p.length, none)) (fun _ p => (((), p), p.length, none)) () [0, 0]
  exact ⟨h.1.2 (Or.inr (by decide)), h.2.2 (by decide)⟩

/-- With a bandwidth of zero a writer waits forever to send one byte; with a bandwidth of one a reader
    asks for two tokens at once. -/
theorem limiters_ask_wrong :
    (∀ fuel, RateLimitedWriter.write ⟨fun _ p => ((), p.length, none),
      (initNetworkTools burstLimiter ⟨0, 0, 0⟩).rateLimiterUpload⟩ fuel () [0] = none) ∧
    ∀ fuel, RateLimitedReader.read ⟨fun _ p => (((), p), p.length, none),
      (initNetworkTools burstLimiter ⟨0, 0, 1⟩).rateLimiterDownload⟩ (fuel + 1) () [0, 0] =
        some (⟨[2], some (.exceedsBurst 2 1)⟩, ((), [0, 0]), 0, some (.exceedsBurst 2 1)) :=
  ⟨RateLimitedWriter.write_of_zero (newsLimiters_burstLimiter 0 0).2 rfl () (List.cons_ne_nil 0 []),
    fun _ => rfl⟩

/-! ## Connections -/

/-- A connection that takes all it is given; its state is what it has been sent. -/
def takeAll (sent p : List UInt8) : List UInt8 × ℕ × Option NetError := (sent ++ p, p.length, none)

/-- `writeToConn`. -/
def writeToConn (connMsg : List UInt8) (limiter : Limiter) (fuel : ℕ) (sent : List UInt8) :
    Option (List UInt8) :=
  (RateLimitedWriter.write ⟨takeAll, limiter⟩ fuel sent connMsg).map fun r => r.2.1

/-- A sequence of `TcpDial`s of messages over one connection. -/
def dials (limiter : Limiter) (fuel : ℕ) :
    List (List UInt8 × List UInt8) → List UInt8 → Option (List UInt8)
  | [], sent => some sent
  | m :: ms, sent =>
    (mergeMessage m.1 m.2).bind fun context =>
      (writeToConn (context ++ [newline]) limiter fuel sent).bind fun sent =>
        dials limiter fuel ms sent

section Connections

variable {l : Limiter} (hwait : l.FailsAboveBurst)
include hwait

theorem writeToConn_eq (hburst : 0 < l.burst) {connMsg : List UInt8} {fuel : ℕ}
    (hfuel : connMsg.length < fuel) (sent : List UInt8) :
    writeToConn connMsg l fuel sent = some (sent ++ connMsg) := by
  obtain ⟨waited, hcall, -⟩ := RateLimitedWriter.write_eq (w := ⟨takeAll, l⟩) hwait hburst sent hfuel
  rw [writeToConn, hcall]
  rfl

/-- **The limiter only delays**: what a connection is sent is what the messages make. -/
theorem dials_eq_tcpStream (hburst : 0 < l.burst) {ms : List (List UInt8 × List UInt8)}
    {stream : List UInt8} (h : tcpStream ms = some stream) {fuel : ℕ} (hfuel : stream.length < fuel)
    (sent : List UInt8) : dials l fuel ms sent = some (sent ++ stream) := by
  induction ms generalizing stream sent with
  | nil =>
    obtain rfl := Option.some.inj h
    rw [dials, List.append_nil]
  | cons m ms ih =>
    obtain ⟨context, hcontext, h⟩ := Option.bind_eq_some_iff.1 h
    obtain ⟨rest, hrest, rfl⟩ := Option.map_eq_some_iff.1 h
    rw [List.length_append] at hfuel
    rw [dials, hcontext, Option.bind_some, writeToConn_eq hwait hburst (by omega), Option.bind_some,
      ih hrest (by omega), List.append_assoc]

/-- **With no bandwidth nothing is sent.** -/
theorem dials_of_zero (hburst : l.burst = 0) {ms : List (List UInt8 × List UInt8)}
    (hms : ms ≠ []) (fuel : ℕ) (sent : List UInt8) : dials l fuel ms sent = none := by
  obtain ⟨m, ms, rfl⟩ := List.exists_cons_of_ne_nil hms
  rw [dials]
  cases mergeMessage m.1 m.2 with
  | none => rfl
  | some context =>
    have hwrite := RateLimitedWriter.write_of_zero (w := ⟨takeAll, l⟩) hwait hburst sent
      (List.append_ne_nil_of_right_ne_nil context (List.cons_ne_nil newline [])) fuel
    rw [Option.bind_some, writeToConn, hwrite]
    rfl

end Connections

/-- **When messages arrive.** After `InitNetworkTools`, messages dialled over a connection arrive as they
    were sent exactly if there are none or the bandwidth is not zero. -/
theorem dials_arrive_iff {newLimiter : ℤ → ℤ → Limiter} (hnew : NewsLimiters newLimiter)
    (params : NetworkParams) (ms : List WireMessage) :
    (∃ fuel stream, dials (initNetworkTools newLimiter params).rateLimiterUpload fuel
        (ms.map fun m => (m.msgType, m.content)) [] = some stream ∧
      handleClientRequest stream = some (ms.map fun m => (m.msgType, m.content ++ [newline]))) ↔
      ms = [] ∨ params.bandwidth ≠ 0 := by
  obtain ⟨hsame, hwait, hburst, hnonneg, hzero⟩ := initNetworkTools_spec hnew params
  rw [hsame]
  constructor
  · rintro ⟨fuel, stream, hdials, -⟩
    by_contra hnot
    obtain ⟨hms, hbandwidth⟩ := not_or.1 hnot
    rw [dials_of_zero hwait (hburst.trans (hzero.2 (not_not.1 hbandwidth)))
      (mt List.map_eq_nil_iff.1 hms)] at hdials
    exact absurd hdials (by simp)
  · rintro (rfl | hbandwidth)
    · exact ⟨0, [], rfl, rfl⟩
    · have hpos := hburst ▸ hnonneg.lt_of_ne' (mt hzero.1 hbandwidth)
      exact ⟨_, _, dials_eq_tcpStream hwait hpos (tcpStream_eq ms) (Nat.lt_succ_self _) [],
        handleClientRequest_written ms⟩

end BlockEmulator
