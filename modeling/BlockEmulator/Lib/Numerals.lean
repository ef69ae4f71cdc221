import Mathlib.Tactic.Ring

set_option autoImplicit false

/-! # Numbers in text

What Go's `strconv.ParseUint` and `math/big` make of a text, one `Char` a byte. A `big.Float` read by
`SetString` has 64 bits of mantissa; the text is a sign, a mantissa in base 2, 8, 10 or 16 with a radix
point and with separators between its digits, and an exponent to the base 10 or 2. The power of five in a
decimal exponent is itself a float with more bits, which is rounded once it does not fit into them. Only
the sign of the text decides the sign of the number (`BigFloat.setString_neg`).

An integer in decimal that is read this way comes out rounded. It is exact if and only if it has at most
64 significant bits, counted from its highest to its lowest one (`BigFloat.int_eq_iff_fits`). -/

/-- The value of a digit in the bases up to 36. -/
def digitVal (c : Char) : Option ℕ :=
  if '0' ≤ c ∧ c ≤ '9' then some (c.toNat - 48)
  else if 'a' ≤ c ∧ c ≤ 'z' then some (c.toNat - 87)
  else if 'A' ≤ c ∧ c ≤ 'Z' then some (c.toNat - 55)
  else none

/-- `strconv.ParseUint(s, 10, 64)` after digits of value `n`. What is returned beside an error is zero
    for a text that is no number and the largest value for one that is too large. -/
def parseUintFrom (n : ℕ) : List Char → ℕ
  | [] => n
  | c :: cs =>
    match digitVal c with
    | none => 0
    | some d =>
      if 10 ≤ d then 0
      else if 2 ^ 64 ≤ 10 * n + d then 2 ^ 64 - 1
      else parseUintFrom (10 * n + d) cs

/-- The value `strconv.ParseUint(s, 10, 64)` returns, with or without an error. -/
def parseUint (s : List Char) : ℕ := parseUintFrom 0 s

/-- The digits of a decimal number after digits of value `n`; `none` if there is anything else. -/
def decimalFrom (n : ℕ) : List Char → Option ℕ
  | [] => some n
  | c :: cs =>
    match digitVal c with
    | none => none
    | some d => if d < 10 then decimalFrom (10 * n + d) cs else none

/-- The text after the sign, which has a digit. -/
def decimal (cs : List Char) : Option ℕ := if cs = [] then none else decimalFrom 0 cs

/-- `SetString(s, 10)` on a new `big.Int`; `none` stands for `ok = false`. -/
def bigIntSetString : List Char → Option ℤ
  | '-' :: cs => (decimal cs).map fun n : ℕ => -(n : ℤ)
  | '+' :: cs => (decimal cs).map fun n : ℕ => (n : ℤ)
  | cs => (decimal cs).map fun n : ℕ => (n : ℤ)

/-- A `big.Float`: `mant` times a power of two, or infinite. -/
inductive BigFloat where
  | finite (neg : Bool) (mant : ℕ) (exp : ℤ)
  | inf (neg : Bool)
deriving DecidableEq

namespace BigFloat

/-! ## Scanning -/

/-- What was scanned last: a digit, a separator, or something else. -/
inductive Seen where
  | digit
  | separator
  | other
deriving DecidableEq

/-- The digits scanned so far. -/
structure Digits where
  value : ℕ := 0
  count : ℕ := 0
  /-- The number of digits before the radix point, once there is one. -/
  point : Option ℕ := none
  seen : Seen := .other
  /-- A separator does not follow a digit, or a radix point follows a separator. -/
  misplaced : Bool := false

/-- The digit loop of `nat.scan` and `scanExponent`, and the text it leaves. -/
def scanDigits (b : ℕ) (s : Digits) : List Char → Digits × List Char
  | [] => (s, [])
  | c :: cs =>
    if c = '.' ∧ s.point = none then
      scanDigits b { s with
        point := some s.count
        misplaced := s.misplaced || s.seen = .separator
        seen := .other } cs
    else if c = '_' then
      scanDigits b { s with misplaced := s.misplaced || s.seen ≠ .digit, seen := .separator } cs
    else
      match digitVal c with
      | none => (s, c :: cs)
      | some d =>
        if d < b then
          scanDigits b { s with value := b * s.value + d, count := s.count + 1, seen := .digit } cs
        else (s, c :: cs)

/-- There are digits, and every separator stands between two of them. -/
def Digits.ok (s : Digits) : Bool :=
  0 < s.count && !s.misplaced && s.seen ≠ .separator

/-- The base of a mantissa and where its digit loop starts. The zero of a base prefix is no digit, but
    a separator may follow it. -/
def scanBase : List Char → ℕ × Digits × List Char
  | '0' :: c :: cs =>
    if c = 'b' ∨ c = 'B' then (2, { seen := .digit }, cs)
    else if c = 'o' ∨ c = 'O' then (8, { seen := .digit }, cs)
    else if c = 'x' ∨ c = 'X' then (16, { seen := .digit }, cs)
    else (10, { count := 1, seen := .digit }, c :: cs)
  | cs => (10, {}, cs)

/-- The digits of an exponent, which have to be the rest of the text and fit into an `int64`. -/
def scanExponentDigits (neg : Bool) (cs : List Char) : Option ℤ :=
  -- a radix point ends these digits
  let r := scanDigits 10 { point := some 0 } cs
  let e : ℤ := if neg then -r.1.value else r.1.value
  if r.2 = [] ∧ r.1.ok ∧ -2 ^ 63 ≤ e ∧ e < 2 ^ 63 then some e else none

/-- `scanExponent` on the rest of the text: the base and the exponent. -/
def scanExponent : List Char → Option (ℕ × ℤ)
  | [] => some (10, 0)
  | c :: cs =>
    let e :=
      match cs with
      | '-' :: cs => scanExponentDigits true cs
      | '+' :: cs => scanExponentDigits false cs
      | cs => scanExponentDigits false cs
    if c = 'e' ∨ c = 'E' then e.map (10, ·)
    else if c = 'p' ∨ c = 'P' then e.map (2, ·)
    else none

/-! ## Rounding -/

/-- The integer closest to `n / d`, the even one of two. -/
def halfEven (n d : ℕ) : ℕ :=
  if 2 * (n % d) < d ∨ (2 * (n % d) = d ∧ n / d % 2 = 0) then n / d else n / d + 1

/-- The shift after which `num / den` has `prec` bits before the point. -/
def shift (prec num den : ℕ) : ℤ :=
  let s : ℤ := prec - 1 - ((num.log2 : ℤ) - den.log2)
  if num * 2 ^ s.toNat / (den * 2 ^ (-s).toNat) < 2 ^ (prec - 1) then s + 1 else s

/-- `mant * 2 ^ exp`; what is too large is infinite. -/
def setExp (neg : Bool) (mant : ℕ) (exp : ℤ) : BigFloat :=
  if 2 ^ 31 ≤ exp + mant.log2 + 1 then .inf neg else .finite neg mant exp

/-- `setExpAndRound`: `num / den * 2 ^ exp` rounded to `prec` bits. What is too small before it is rounded
    is zero. -/
def round (prec : ℕ) (neg : Bool) (num den : ℕ) (exp : ℤ) : BigFloat :=
  let s := shift prec num den
  if exp - s + prec < -2 ^ 31 then .finite neg 0 0
  else setExp neg (halfEven (num * 2 ^ s.toNat) (den * 2 ^ (-s).toNat)) (exp - s)

/-! ## Powers of five -/

/-- `Mul` of two numbers that are positive, with `prec` bits for the product. -/
def mul (prec : ℕ) : BigFloat → BigFloat → BigFloat
  | .finite _ m e, .finite _ m' e' => round prec false (m * m') 1 (e + e')
  | _, _ => .inf false

/-- The loop of `pow5`: `z` has `prec` bits, and the powers `f` it is multiplied with have 64 more. -/
def pow5Loop (prec : ℕ) : ℕ → ℕ → BigFloat → BigFloat → BigFloat
  | 0, _, z, _ => z
  | fuel + 1, n, z, f =>
    if n = 0 then z
    else pow5Loop prec fuel (n / 2) (if n % 2 = 1 then mul prec z f else z) (mul (prec + 64) f f)

/-- `pow5`: five to the `n`, which is exact up to what fits into 64 bits. Each turn of the loop halves what
    is left of `n`. -/
def pow5 (prec n : ℕ) : BigFloat :=
  if n ≤ 27 then .finite false (5 ^ n) 0
  else pow5Loop prec (n.log2 + 1) (n - 27) (.finite false (5 ^ 27) 0) (.finite false 5 0)

/-- `mant * 2 ^ exp2 * 5 ^ exp5`, as the end of `Float.scan` computes it. -/
def scale (neg : Bool) (mant : ℕ) (exp2 exp5 : ℤ) : BigFloat :=
  if exp5 = 0 then round 64 neg mant 1 exp2
  else
    match pow5 128 exp5.natAbs with
    | .finite _ m e =>
      if exp5 < 0 then round 64 neg mant m (exp2 - e) else round 64 neg (mant * m) 1 (exp2 + e)
    | .inf _ => if exp5 < 0 then .finite neg 0 0 else .inf neg

/-! ## Texts -/

/-- `Float.scan` after the sign, with nothing left over. -/
def scan (neg : Bool) (cs : List Char) : Option BigFloat :=
  let base := scanBase cs
  let r := scanDigits base.1 base.2.1 base.2.2
  if r.1.ok then
    (scanExponent r.2).bind fun e =>
      -- the digits after the radix point lower the exponent of the base
      let frac : ℤ := (r.1.point.elim 0 fun p => r.1.count - p : ℕ)
      let exp5 := (if e.1 = 10 then e.2 else 0) - if base.1 = 10 then frac else 0
      let exp2 := e.2 -
        if base.1 = 8 then 3 * frac else if base.1 = 16 then 4 * frac else frac
      if r.1.value = 0 then some (.finite neg 0 0)
      else if -2 ^ 31 ≤ r.1.value.log2 + 1 + exp2 ∧ r.1.value.log2 + 1 + exp2 < 2 ^ 31 then
        some (scale neg r.1.value exp2 exp5)
      else none
  else none

/-- The text after the sign, which may also be an infinity. -/
def parse (neg : Bool) (cs : List Char) : Option BigFloat :=
  if cs = ['I', 'n', 'f'] ∨ cs = ['i', 'n', 'f'] then some (.inf neg) else scan neg cs

/-- `SetString` on a new `Float`; `none` stands for `ok = false`. -/
def setString : List Char → Option BigFloat
  | '-' :: cs => parse true cs
  | '+' :: cs => parse false cs
  | cs => parse false cs

/-! ## The integer part -/

/-- The absolute value, truncated. `Int` leaves its receiver alone for an infinity, so a new one stays
    zero. -/
def magnitude : BigFloat → ℕ
  | .finite _ mant exp => mant * 2 ^ exp.toNat / 2 ^ (-exp).toNat
  | .inf _ => 0

/-- `Signbit`. -/
def neg : BigFloat → Bool
  | .finite neg _ _ => neg
  | .inf neg => neg

/-- What `Int` leaves in a new `big.Int`: the value truncated toward zero. -/
def int (f : BigFloat) : ℤ := if f.neg then -f.magnitude else f.magnitude

theorem int_nonneg_iff (f : BigFloat) : 0 ≤ f.int ↔ f.neg = false ∨ f.magnitude = 0 := by
  unfold int
  cases f.neg with
  | false => simp
  | true => simp

theorem round_neg (prec : ℕ) (neg : Bool) (num den : ℕ) (exp : ℤ) :
    (round prec neg num den exp).neg = neg := by
  unfold round setExp
  dsimp only
  split
  · rfl
  · split <;> rfl

theorem scale_neg (neg : Bool) (mant : ℕ) (exp2 exp5 : ℤ) :
    (scale neg mant exp2 exp5).neg = neg := by
  unfold scale
  split
  · exact round_neg ..
  split
  · split
    · exact round_neg ..
    · exact round_neg ..
  · split
    · rfl
    · rfl

theorem scan_neg {neg : Bool} {cs : List Char} {f : BigFloat} (h : scan neg cs = some f) :
    f.neg = neg := by
  unfold scan at h
  simp only at h
  obtain ⟨-, h⟩ := Option.ite_none_right_eq_some.1 h
  obtain ⟨e, -, h⟩ := Option.bind_eq_some_iff.1 h
  split at h
  · obtain rfl := Option.some.inj h
    rfl
  · obtain ⟨-, h⟩ := Option.ite_none_right_eq_some.1 h
    obtain rfl := Option.some.inj h
    exact scale_neg ..

theorem parse_neg {neg : Bool} {cs : List Char} {f : BigFloat} (h : parse neg cs = some f) :
    f.neg = neg := by
  unfold parse at h
  split at h
  · obtain rfl := Option.some.inj h
    rfl
  · exact scan_neg h

/-- **The sign of the text is the sign of the number.** -/
theorem setString_neg {s : List Char} {f : BigFloat} (h : setString s = some f) :
    f.neg = (s.head? = some '-' : Bool) := by
  unfold setString at h
  split at h
  · exact parse_neg h
  · exact parse_neg h
  · next hminus _ =>
    have hhead : (s.head? = some '-' : Bool) = false := by
      cases s with
      | nil => rfl
      | cons c cs => simpa using fun hc : c = '-' => hminus cs (hc ▸ rfl)
    rw [hhead]
    exact parse_neg h

/-! ## Integers in decimal -/

/-- The number has at most 64 significant bits. -/
def Fits (v : ℕ) : Prop := ∃ m < 2 ^ 64, ∃ k, v = m * 2 ^ k

theorem digitVal_of_decimalFrom {n v : ℕ} {c : Char} {cs : List Char}
    (h : decimalFrom n (c :: cs) = some v) :
    ∃ d < 10, digitVal c = some d ∧ decimalFrom (10 * n + d) cs = some v := by
  rw [decimalFrom] at h
  split at h
  · exact absurd h (by simp)
  · next d hd =>
      obtain ⟨hlt, h⟩ := Option.ite_none_right_eq_some.1 h
      exact ⟨d, hlt, hd, h⟩

/-- A digit is none of the other characters of a number. -/
theorem ne_of_digitVal_lt {c c' : Char} {d : ℕ} (hd : digitVal c = some d) (hlt : d < 10)
    (hc' : ∀ d' ∈ digitVal c', 10 ≤ d') : c ≠ c' := by
  rintro rfl
  exact absurd (hc' d hd) (by omega)

/-- The digit loop reads a decimal number to its end. -/
theorem scanDigits_decimal {s : Digits} {cs : List Char} {v : ℕ}
    (h : decimalFrom s.value cs = some v) :
    scanDigits 10 s cs =
      ({ s with
          value := v
          count := s.count + cs.length
          seen := if cs = [] then s.seen else .digit }, []) := by
  induction cs generalizing s with
  | nil =>
    obtain rfl := Option.some.inj h
    rfl
  | cons c cs ih =>
    obtain ⟨d, hlt, hd, hrest⟩ := digitVal_of_decimalFrom h
    have hpoint : ¬(c = '.' ∧ s.point = none) := fun hc =>
      ne_of_digitVal_lt hd hlt (by decide) hc.1
    have hsep : c ≠ '_' := ne_of_digitVal_lt hd hlt (by decide)
    rw [scanDigits, if_neg hpoint, if_neg hsep]
    simp only [hd, if_pos hlt]
    rw [ih hrest]
    simp [Nat.add_assoc, Nat.add_comm 1]

/-- No base is read in front of a decimal number. A leading zero is taken for itself. -/
theorem scanBase_decimal {cs : List Char} {v : ℕ} (h : decimalFrom 0 cs = some v) (hne : cs ≠ []) :
    ∃ count seen rest, scanBase cs = (10, { count := count, seen := seen }, rest) ∧ rest ≠ [] ∧
      decimalFrom 0 rest = some v := by
  unfold scanBase
  split
  · next c cs =>
      obtain ⟨d, -, hd, h⟩ := digitVal_of_decimalFrom h
      obtain rfl : d = 0 := (Option.some.inj hd).symm
      obtain ⟨d', hlt, hd', -⟩ := digitVal_of_decimalFrom h
      have hc : ∀ c', (∀ d ∈ digitVal c', 10 ≤ d) → c ≠ c' := fun c' => ne_of_digitVal_lt hd' hlt
      rw [if_neg (not_or.2 ⟨hc _ (by decide), hc _ (by decide)⟩),
        if_neg (not_or.2 ⟨hc _ (by decide), hc _ (by decide)⟩),
        if_neg (not_or.2 ⟨hc _ (by decide), hc _ (by decide)⟩)]
      exact ⟨_, _, _, rfl, by simp, h⟩
  · exact ⟨_, _, _, rfl, hne, h⟩

/-- What `Float.scan` makes of a decimal number. -/
theorem scan_decimal (neg : Bool) {cs : List Char} {v : ℕ} (h : decimal cs = some v) :
    scan neg cs =
      if v = 0 then some (.finite neg 0 0)
      else if (v.log2 : ℤ) + 1 < 2 ^ 31 then some (round 64 neg v 1 0) else none := by
  obtain ⟨hne, h⟩ := Option.ite_none_left_eq_some.1 h
  obtain ⟨count, seen, rest, hbase, hrest, hv⟩ := scanBase_decimal h hne
  have hcount : 0 < count + rest.length := by
    have := List.length_pos_iff.2 hrest
    omega
  have hlow : (-2147483648 : ℤ) ≤ v.log2 + 1 := by omega
  unfold scan
  simp only [hbase]
  rw [scanDigits_decimal hv]
  simp [Digits.ok, hrest, hcount, scanExponent, hlow, scale]

/-- A number is shifted until its highest bit is bit 63. -/
theorem shift_one {v : ℕ} (hv : v ≠ 0) : shift 64 v 1 = 63 - v.log2 := by
  obtain ⟨s, hs⟩ : ∃ s : ℤ, s = 63 - (v.log2 : ℤ) := ⟨_, rfl⟩
  have hbits : 2 ^ 63 ≤ v * 2 ^ s.toNat / (1 * 2 ^ (-s).toNat) := by
    rw [Nat.one_mul, Nat.le_div_iff_mul_le (Nat.two_pow_pos _), ← Nat.pow_add,
      show 63 + (-s).toNat = v.log2 + s.toNat by omega, Nat.pow_add]
    exact Nat.mul_le_mul_right _ (Nat.log2_self_le hv)
  have hone : ((64 : ℕ) : ℤ) - 1 - ((v.log2 : ℤ) - (Nat.log2 1 : ℕ)) = s := by
    rw [hs, show Nat.log2 1 = 0 by decide]
    omega
  unfold shift
  simp only [hone]
  rw [if_neg (Nat.not_lt.2 hbits), hs]

theorem halfEven_one (n : ℕ) : halfEven n 1 = n := by simp [halfEven, Nat.mod_one]

theorem halfEven_mul_eq_iff {n d : ℕ} : halfEven n d * d = n ↔ d ∣ n := by
  constructor
  · exact fun h => ⟨halfEven n d, by rw [Nat.mul_comm, h]⟩
  · rintro ⟨q, rfl⟩
    rcases Nat.eq_zero_or_pos d with rfl | hd
    · simp
    · rw [halfEven, Nat.mul_mod_right, if_pos (.inl (by omega)), Nat.mul_div_cancel_left _ hd,
        Nat.mul_comm]

/-- A number with its highest bit at 63 plus `e` has 64 significant bits if the lower `e` are zero. -/
theorem fits_iff_dvd {v e : ℕ} (hv : v ≠ 0) (hlog : v.log2 = 63 + e) : Fits v ↔ 2 ^ e ∣ v := by
  constructor
  · rintro ⟨m, hm, k, rfl⟩
    have hlow : 2 ^ (63 + e) ≤ m * 2 ^ k := hlog ▸ Nat.log2_self_le hv
    have hhigh : m * 2 ^ k < 2 ^ (64 + k) := by
      rw [Nat.pow_add]
      exact Nat.mul_lt_mul_of_pos_right hm (Nat.two_pow_pos k)
    have hlt : 63 + e < 64 + k := (Nat.pow_lt_pow_iff_right one_lt_two).1 (hlow.trans_lt hhigh)
    exact (Nat.pow_dvd_pow 2 (by omega)).trans (Nat.dvd_mul_left _ _)
  · rintro ⟨m, rfl⟩
    refine ⟨m, ?_, e, Nat.mul_comm _ _⟩
    have hhigh : 2 ^ e * m < 2 ^ (63 + e + 1) := hlog ▸ Nat.lt_log2_self
    rw [show 63 + e + 1 = e + 64 by omega, Nat.pow_add] at hhigh
    exact Nat.lt_of_mul_lt_mul_left hhigh

theorem magnitude_setExp {neg : Bool} {mant : ℕ} {exp : ℤ} (h : exp + mant.log2 + 1 < 2 ^ 31) :
    (setExp neg mant exp).magnitude = mant * 2 ^ exp.toNat / 2 ^ (-exp).toNat := by
  rw [setExp, if_neg (not_le.2 h), magnitude]

/-- Up to 64 bits nothing is rounded. -/
theorem magnitude_round_of_small (neg : Bool) {v : ℕ} (hv : v ≠ 0) (hlog : v.log2 ≤ 63) :
    (round 64 neg v 1 0).magnitude = v := by
  obtain ⟨s, hs⟩ : ∃ s : ℕ, (63 : ℤ) - v.log2 = s := ⟨63 - v.log2, by omega⟩
  have hround : round 64 neg v 1 0 = setExp neg (v * 2 ^ s) (-s) := by
    have hlow : ¬ (-(s : ℤ) + 64 < -2 ^ 31) := by omega
    simp only [round, shift_one hv, hs]
    rw [if_neg (by simpa using hlow)]
    simp [halfEven_one]
  have hlt : v * 2 ^ s < 2 ^ 64 := by
    rw [show 64 = v.log2 + 1 + s by omega, Nat.pow_add]
    exact Nat.mul_lt_mul_of_pos_right Nat.lt_log2_self (Nat.two_pow_pos s)
  have hne : v * 2 ^ s ≠ 0 := Nat.mul_ne_zero hv (Nat.two_pow_pos s).ne'
  have hbits : (v * 2 ^ s).log2 < 64 := (Nat.log2_lt hne).2 hlt
  rw [hround, magnitude_setExp (by omega)]
  simp

/-- **Rounding keeps exactly the numbers that fit.** -/
theorem magnitude_round_eq_iff (neg : Bool) {v : ℕ} (hv : v ≠ 0)
    (hlog : (v.log2 : ℤ) + 1 < 2 ^ 31) : (round 64 neg v 1 0).magnitude = v ↔ Fits v := by
  rcases Nat.le_total v.log2 63 with hsmall | hlarge
  · have hlt : v < 2 ^ 64 :=
      Nat.lt_log2_self.trans_le (Nat.pow_le_pow_right two_pos (by omega))
    exact iff_of_true (magnitude_round_of_small neg hv hsmall) ⟨v, hlt, 0, by simp⟩
  · obtain ⟨e, he⟩ : ∃ e : ℕ, v.log2 = 63 + e := ⟨v.log2 - 63, by omega⟩
    have hround : round 64 neg v 1 0 = setExp neg (halfEven v (2 ^ e)) e := by
      have hshift : (63 : ℤ) - (63 + e : ℕ) = -e := by omega
      have hlow : ¬ ((e : ℤ) + 64 < -2 ^ 31) := by omega
      simp only [round, shift_one hv, he, hshift]
      rw [if_neg (by simpa using hlow)]
      simp
    rw [hround, fits_iff_dvd hv he]
    by_cases hover : 2 ^ 31 ≤ (e : ℤ) + (halfEven v (2 ^ e)).log2 + 1
    · -- only a carry makes it infinite, and what is rounded up was not exact
      rw [setExp, if_pos hover]
      refine iff_of_false hv.symm fun hdvd => ?_
      have hexact : halfEven v (2 ^ e) * 2 ^ e = v := halfEven_mul_eq_iff.2 hdvd
      have hne : halfEven v (2 ^ e) ≠ 0 := fun h0 => hv (by rw [← hexact, h0, Nat.zero_mul])
      have hlt : halfEven v (2 ^ e) < 2 ^ 64 := by
        refine Nat.lt_of_mul_lt_mul_right (a := 2 ^ e) ?_
        rw [hexact, ← Nat.pow_add, show 64 + e = v.log2 + 1 by omega]
        exact Nat.lt_log2_self
      have hbits := (Nat.log2_lt hne).2 hlt
      omega
    · rw [magnitude_setExp (by omega)]
      simpa using halfEven_mul_eq_iff (n := v) (d := 2 ^ e)

theorem fits_of_parse {neg : Bool} {cs : List Char} {v : ℕ} {f : BigFloat}
    (hv : decimal cs = some v) (hf : parse neg cs = some f) : f.magnitude = v ↔ Fits v := by
  have hnum : ¬(cs = ['I', 'n', 'f'] ∨ cs = ['i', 'n', 'f']) := by
    have hinf : decimal ['I', 'n', 'f'] = none ∧ decimal ['i', 'n', 'f'] = none := by decide
    rintro (rfl | rfl)
    · exact absurd (hinf.1.symm.trans hv) (by simp)
    · exact absurd (hinf.2.symm.trans hv) (by simp)
  rw [parse, if_neg hnum, scan_decimal neg hv] at hf
  split at hf
  · next hzero =>
      rw [← Option.some.inj hf, hzero]
      exact iff_of_true (by simp [magnitude]) ⟨0, by decide, 0, by simp⟩
  · next hzero =>
      obtain ⟨hlog, hf⟩ := Option.ite_none_right_eq_some.1 hf
      rw [← Option.some.inj hf]
      exact magnitude_round_eq_iff neg hzero hlog

theorem int_eq_iff_of_parse {neg : Bool} {cs : List Char} {v : ℕ} {f : BigFloat}
    (hv : decimal cs = some v) (hf : parse neg cs = some f) :
    f.int = (if neg then -(v : ℤ) else v) ↔ Fits v := by
  rw [← fits_of_parse hv hf, int, parse_neg hf]
  cases neg <;> simp

/-- **Integers read as floats.** A decimal integer that both readers take is read alike exactly if it has
    at most 64 significant bits. -/
theorem int_eq_iff_fits {s : List Char} {n : ℤ} {f : BigFloat} (hn : bigIntSetString s = some n)
    (hf : setString s = some f) : f.int = n ↔ Fits n.natAbs := by
  unfold bigIntSetString at hn
  unfold setString at hf
  split at hn
  · obtain ⟨v, hv, rfl⟩ := Option.map_eq_some_iff.1 hn
    rw [Int.natAbs_neg, Int.natAbs_natCast]
    exact int_eq_iff_of_parse hv hf
  · obtain ⟨v, hv, rfl⟩ := Option.map_eq_some_iff.1 hn
    exact int_eq_iff_of_parse hv hf
  · next hminus hplus =>
      obtain ⟨v, hv, rfl⟩ := Option.map_eq_some_iff.1 hn
      split at hf
      · exact absurd rfl (hminus _)
      · exact absurd rfl (hplus _)
      · exact int_eq_iff_of_parse hv hf

/-- Separators, fractions, other bases and exponents, rounding to 64 bits, and three texts that are no
    finite number. -/
example : (setString "1_000.75".toList).map int = some 1000 ∧
    (setString "-2.5e1".toList).map int = some (-25) ∧
    (setString "0x_ff.8p4".toList).map int = some 4088 ∧
    (setString "100000000000000000001e-2".toList).map int = some 1000000000000000000 ∧
    (setString "1e60".toList).map int = some (11479437019748901445 * 2 ^ 136) ∧
    (setString "-Inf".toList).map int = some 0 ∧
    (setString "1__0".toList).map int = none ∧
    (setString "2 ".toList).map int = none := by
  decide +kernel

end BigFloat
