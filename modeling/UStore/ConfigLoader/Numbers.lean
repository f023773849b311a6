import UStore.ConfigLoader.Json
import Mathlib.Data.Rat.Floor

/-!
# Numbers in configuration strings

`parse_version` reads `major.minor` with `std::stoul`; `parse_bytes` reads a size such
as `10 GB` with a `std::stringstream`: a `double` with `>>`, then an optional unit word
with `>>`. `parse_version` is transcribed onto the string's bytes (`bytesOf`), as it
measures and cuts the string by position; `parse_bytes` only classifies and compares,
where characters and bytes agree, and is transcribed onto the characters. Both follow
the rules of the C library and of libstdc++ for what these calls accept:

* `std::stoul` (`strtoul` in base 10): white space, an optional sign, then decimal
  digits. No digit throws `invalid_argument`, a value past `2^64 - 1` throws
  `out_of_range`; a `-` negates modulo `2^64`.
* `>>` into a `double` (libstdc++'s `num_get`, "C" locale): after white space it
  collects an optional sign, digits with at most one decimal point, and an exponent `e`
  or `E` with an optional sign, allowed only after a digit (`_M_extract_float`).
  `strtod` must read all of the collected text, or the extraction fails; so does a
  value that overflows. The value is the nearest `double`.
* `>>` into a `std::string`: after white space, the characters up to the next white
  space; none fails.

An extraction that reaches the end of the text sets the stream's `eof` flag.

## What is proved

* `parseVersion_accepts_non_versions`: `parse_version` reads every `major.minor` of two
  digit runs up to `255` as written, and accepts as `1.0` also `1x0`, ` +1.0`,
  `1.4294967296` and `4294967297.0`.
* `parseBytes_sound`: a value `parse_bytes` returns is the truncation of a number in
  `(-1, 2^64)`.
* `parseBytes_accepts_negative_fractional`: it reads `-5e-1` as `-1/2` and `5e-1` as `1/2`,
  a negative and a fractional number without unit, and returns `0` for both; and it
  lets `16777216 TB`, exactly `2^64`, through to a cast that is undefined.
* `parseBytes_integer`: an integer below `2^53`, after blanks and before blanks or a unit
  that ends the text, reads exactly, times the unit's factor when that stays below `2^64`.
-/

namespace UStore.ConfigLoader

/-- `isspace` in the "C" locale. -/
def isSpace (c : Char) : Bool :=
  c = ' ' || c = '\t' || c = '\n' || c = '\x0b' || c = '\x0c' || c = '\r'

/-- The value of a list of decimal digits. -/
def digitsValue (ds : List Char) : ℕ := ds.foldl (fun n c => 10 * n + (c.toNat - '0'.toNat)) 0

/-- `b ^ k` for an integer exponent, computed on naturals. -/
def zpowNat (b : ℕ) (k : ℤ) : ℚ := if 0 ≤ k then ((b ^ k.toNat : ℕ) : ℚ) else 1 / ((b ^ (-k).toNat : ℕ) : ℚ)

/-! ### `std::stoul` and `parse_version` -/

/-- `std::stoul(str, &pos)`: the value and `pos`, the index after the last digit, or
`none` where it throws. -/
def stoul (str : List Char) : Option (UInt64 × ℕ) :=
  let blanks := (str.takeWhile isSpace).length
  let rest := str.drop blanks
  let (negative, signs) := match rest.head? with
    | some '-' => (true, 1)
    | some '+' => (false, 1)
    | _ => (false, 0)
  let digits := (rest.drop signs).takeWhile Char.isDigit
  let n := digitsValue digits
  if digits = [] ∨ 2 ^ 64 ≤ n then none
  else some (if negative then 0 - UInt64.ofNat n else UInt64.ofNat n, blanks + signs + digits.length)

/-- An `unsigned long` stored into an `int`: modulo `2^32`, in two's complement. -/
def toInt32 (n : UInt64) : ℤ :=
  let m : ℕ := n.toNat % 2 ^ 32
  if m < 2 ^ 31 then (m : ℤ) else (m : ℤ) - 2 ^ 32

/-- `parse_version` (lines 149-174): `major` and `minor`, or `none` where it returns
`false`. -/
def parseVersion (strVersion : String) : Option (UInt8 × UInt8) := do
  let str := bytesOf (cStr strVersion)
  let (mj, pos) ← stoul str
  if pos = str.length then none else
  let str := str.drop (pos + 1)
  let (mn, pos) ← stoul str
  if pos < str.length then none else
  let mj := toInt32 mj
  let mn := toInt32 mn
  if mj < 0 ∨ mn < 0 ∨ 255 < mj ∨ 255 < mn then none else
  some (UInt8.ofNat mj.toNat, UInt8.ofNat mn.toNat)

/-! ### What `parse_version` accepts -/

theorem isSpace_of_isDigit {c : Char} (h : c.isDigit) : isSpace c = false := by
  unfold isSpace
  by_contra h'
  simp only [Bool.not_eq_false, Bool.or_eq_true, decide_eq_true_eq] at h'
  rcases h' with ((((h' | h') | h') | h') | h') | h' <;> subst h' <;> exact absurd h (by decide)

theorem ne_of_isDigit {c : Char} (h : c.isDigit) {d : Char} (hd : d.isDigit = false) : c ≠ d := by
  rintro rfl; rw [hd] at h; exact Bool.false_ne_true h

theorem cStr_of_forall_ne {s : String} (h : ∀ c ∈ s.toList, c ≠ '\x00') : cStr s = s := by
  unfold cStr; rw [List.takeWhile_eq_self_iff.2 fun c hc => by simpa using h c hc]; rfl

theorem toNat_lt_of_isDigit {c : Char} (h : c.isDigit) : c.toNat < 128 := by
  simp only [Char.isDigit, Bool.and_eq_true, decide_eq_true_eq] at h
  have h9 : c.val.toNat ≤ 57 := h.2
  exact lt_of_le_of_lt h9 (by decide)

/-- An ASCII character is one byte, of its own code. -/
theorem bytesOf_of_ascii : ∀ {l : List Char}, (∀ c ∈ l, c.toNat < 128) → bytesOf ⟨l⟩ = l
  | [], _ => rfl
  | c :: l, h => by
    have hc : c.val.toNat < 128 := h c (List.mem_cons_self _ _)
    have hv : c.val ≤ 0x7f := by
      rw [UInt32.le_def]; show c.val.toNat ≤ 127; omega
    have hb : c.val.toUInt8.toNat = c.toNat := by
      show c.val.toNat % 256 = c.val.toNat; omega
    have ih := bytesOf_of_ascii (l := l) fun c' hc' => h c' (List.mem_cons_of_mem _ hc')
    simp only [bytesOf, List.flatMap_cons, String.utf8EncodeChar, hv, if_true, List.map_append] at ih ⊢
    rw [ih, List.map_cons, List.map_nil, hb, Char.ofNat_toNat, List.singleton_append]

/-- `stoul` reads a leading run of digits to its end, when the value fits. -/
theorem stoul_digits {a rest : List Char} (ha : a ≠ []) (hd : ∀ c ∈ a, c.isDigit)
    (hr : ∀ c ∈ rest.head?, c.isDigit = false) (hv : digitsValue a < 2 ^ 64) :
    stoul (a ++ rest) = some (UInt64.ofNat (digitsValue a), a.length) := by
  obtain ⟨c, a', rfl⟩ := List.exists_cons_of_ne_nil ha
  have hc : c.isDigit := hd c (List.mem_cons_self _ _)
  have hdigits : (a' ++ rest).takeWhile Char.isDigit = a' := by
    rw [List.takeWhile_append_of_pos fun x hx => hd x (List.mem_cons_of_mem _ hx)]
    cases rest with
    | nil => simp
    | cons d rest => simp [hr d rfl]
  simpa [stoul, isSpace_of_isDigit hc, ne_of_isDigit hc (show '-'.isDigit = false by decide),
    ne_of_isDigit hc (show '+'.isDigit = false by decide), hc, hdigits] using hv

/-- An `unsigned long` up to `255` keeps its value in an `int`. -/
theorem toInt32_ofNat {n : ℕ} (h : n ≤ 255) : toInt32 (UInt64.ofNat n) = n := by
  have h64 : (UInt64.ofNat n).toNat = n := UInt64.toNat_ofNat_of_lt (by unfold UInt64.size; omega)
  simp only [toInt32, h64]
  split <;> omega

/-- `parse_version` reads `major.minor`, two runs of digits of values at most `255`. -/
theorem parseVersion_digits {a b : List Char} (ha : a ≠ []) (hda : ∀ c ∈ a, c.isDigit) (hb : b ≠ [])
    (hdb : ∀ c ∈ b, c.isDigit) (hva : digitsValue a ≤ 255) (hvb : digitsValue b ≤ 255) :
    parseVersion ⟨a ++ '.' :: b⟩ = some (UInt8.ofNat (digitsValue a), UInt8.ofNat (digitsValue b)) := by
  have hs : cStr ⟨a ++ '.' :: b⟩ = ⟨a ++ '.' :: b⟩ := cStr_of_forall_ne fun c hc => by
    change c ∈ a ++ '.' :: b at hc
    simp only [List.mem_append, List.mem_cons] at hc
    rcases hc with hc | rfl | hc
    · exact ne_of_isDigit (hda c hc) (by decide)
    · decide
    · exact ne_of_isDigit (hdb c hc) (by decide)
  have hascii : ∀ c ∈ a ++ '.' :: b, c.toNat < 128 := by
    simp only [List.mem_append, List.mem_cons]
    rintro c (hc | rfl | hc)
    · exact toNat_lt_of_isDigit (hda c hc)
    · decide
    · exact toNat_lt_of_isDigit (hdb c hc)
  have h1 := @stoul_digits a ('.' :: b) ha hda (by simp) (by omega)
  have h2 := @stoul_digits b [] hb hdb (by simp) (by omega)
  have hdrop : (a ++ '.' :: b).drop (a.length + 1) = b := by
    rw [show a ++ '.' :: b = (a ++ ['.']) ++ b by simp]; exact List.drop_left' (by simp)
  rw [List.append_nil] at h2
  rw [parseVersion, hs, bytesOf_of_ascii hascii]
  simp [h1, h2, hdrop, toInt32_ofNat hva, toInt32_ofNat hvb]
  omega

/-- **`parse_version` accepts more than `major.minor`.** It reads every `major.minor` of
two digit runs up to `255` as written; but any character separates the two numbers,
`stoul` skips blanks and a sign, and its `unsigned long` is stored into an `int` modulo
`2^32`: `1x0`, ` +1.0`, `1.4294967296` and `4294967297.0` all read as `1.0`. -/
theorem parseVersion_accepts_non_versions :
    (∀ a b : List Char, a ≠ [] → (∀ c ∈ a, c.isDigit) → b ≠ [] → (∀ c ∈ b, c.isDigit) →
      digitsValue a ≤ 255 → digitsValue b ≤ 255 →
        parseVersion ⟨a ++ '.' :: b⟩ = some (UInt8.ofNat (digitsValue a), UInt8.ofNat (digitsValue b))) ∧
    parseVersion "1x0" = some (1, 0) ∧ parseVersion " +1.0" = some (1, 0) ∧
    parseVersion "1.4294967296" = some (1, 0) ∧ parseVersion "4294967297.0" = some (1, 0) :=
  ⟨fun _ _ ha hda hb hdb hva hvb => parseVersion_digits ha hda hb hdb hva hvb,
    by decide, by decide, by decide, by decide⟩

theorem parseVersion_one_dot_zero :
    parseVersion ⟨['1'] ++ '.' :: ['0']⟩ = some (UInt8.ofNat (digitsValue ['1']), UInt8.ofNat (digitsValue ['0'])) :=
  parseVersion_accepts_non_versions.1 ['1'] ['0'] (by decide) (by decide) (by decide) (by decide) (by decide)
    (by decide)

/-- `é` is two bytes: after `1`, `parse_version` skips the first, and `stoul` finds no
digit at the second. -/
example : parseVersion "1é0" = none := by decide

/-! ### `>>` into a `double` -/

/-- What `num_get` collects for a `double` after the sign, and the rest of the text:
`mantissa`, `dec` and `sci` say whether a digit, the decimal point and the exponent
were seen, and `expSign` that the last character was the exponent's `e`, which a sign
may follow. -/
def scanFloat (mantissa dec sci expSign : Bool) : List Char → List Char × List Char
  | [] => ([], [])
  | c :: cs =>
    if expSign ∧ (c = '+' ∨ c = '-') then
      let r := scanFloat mantissa dec sci false cs
      (c :: r.1, r.2)
    else if c.isDigit then
      let r := scanFloat true dec sci false cs
      (c :: r.1, r.2)
    else if c = '.' ∧ !dec ∧ !sci then
      let r := scanFloat mantissa true sci false cs
      ('.' :: r.1, r.2)
    else if (c = 'e' ∨ c = 'E') ∧ !sci ∧ mantissa then
      let r := scanFloat mantissa dec true true cs
      ('e' :: r.1, r.2)
    else ([], c :: cs)

/-- An optional sign, and what follows it. -/
def splitSign : List Char → Bool × List Char
  | '-' :: t => (true, t)
  | '+' :: t => (false, t)
  | t => (false, t)

/-- `strtod` on the collected text: its value when it reads all of it. -/
def decimalValue (t : List Char) : Option ℚ :=
  let (negative, t) := splitSign t
  let intDigits := t.takeWhile Char.isDigit
  let t := t.drop intDigits.length
  let (fracDigits, t) := match t with
    | '.' :: t => (t.takeWhile Char.isDigit, t.dropWhile Char.isDigit)
    | t => ([], t)
  if intDigits = [] ∧ fracDigits = [] then none else
  let exponent : Option ℤ := match t with
    | [] => some 0
    | c :: t =>
      let (negE, t) := splitSign t
      if (c = 'e' ∨ c = 'E') ∧ t ≠ [] ∧ t.all Char.isDigit then
        some (if negE then -(digitsValue t : ℤ) else digitsValue t)
      else none
  exponent.map fun e =>
    let m := (digitsValue (intDigits ++ fracDigits) : ℚ) * zpowNat 10 (e - fracDigits.length)
    if negative then -m else m

/-- `⌊log₂ n⌋` for `n ≥ 1`, by halving. -/
def log2 (n : ℕ) : ℕ := go n n
where
  /-- Halving `n`, at most `fuel` times. -/
  go : ℕ → ℕ → ℕ
    | 0, _ => 0
    | fuel + 1, n => if n < 2 then 0 else go fuel (n / 2) + 1

/-- The exponent `e` with `2^e ≤ a < 2^(e+1)`, for `a > 0`. -/
def floorLog2 (a : ℚ) : ℤ :=
  let e : ℤ := (log2 a.num.natAbs : ℤ) - log2 a.den
  if a < zpowNat 2 e then e - 1 else e

/-- The integer nearest to `m`, ties to even. -/
def roundHalfEven (m : ℚ) : ℤ :=
  let r := m.floor
  if m - r < 1 / 2 then r else if 1 / 2 < m - r then r + 1 else if r % 2 = 0 then r else r + 1

/-- The `double` nearest to `x`, ties to even (53-bit significands, exponents down to
the subnormal `2^-1074`), or `none` where it overflows. -/
def toDouble (x : ℚ) : Option ℚ :=
  if x = 0 then some 0 else
  let q := max (floorLog2 |x| - 52) (-1074)
  let v := (roundHalfEven (|x| / zpowNat 2 q) : ℚ) * zpowNat 2 q
  if ((2 ^ 1024 : ℕ) : ℚ) ≤ v then none else some (if x < 0 then -v else v)

/-! ### `parse_bytes` -/

/-- `parse_bytes` (lines 197-230): `bytes`, or `none` where it returns `false`. The
value read is never NaN, so the two `isnan` tests never hold. -/
def parseBytes (str : String) : Except Interrupt (Option UInt64) :=
  let s := str.toList
  if s.head? = some '.' then .ok none else
  let (sign, body) : List Char × List Char := match (cStr str).toList.dropWhile isSpace with
    | c :: t => if c = '+' ∨ c = '-' then ([c], t) else ([], c :: t)
    | [] => ([], [])
  let (token, rest) := scanFloat false false false false body
  match (decimalValue (sign ++ token)).bind toDouble with
  | none => .ok none
  | some number =>
    let hasDot := s.contains '.'
    let metric : Option (String × List Char) :=
      if rest = [] then none
      else
        let r := rest.dropWhile isSpace
        let word := r.takeWhile fun c => !isSpace c
        if word = [] then none else some (⟨word⟩, r.drop word.length)
    let scaled : Option (ℚ × Bool) := match metric with
      | some (metric, rest) =>
        if metric = "KB" then some (number * 1024, rest = [])
        else if metric = "MB" then some (number * (1024 * 1024), rest = [])
        else if metric = "GB" then some (number * (1024 * 1024 * 1024), rest = [])
        else if metric = "TB" then some (number * (1024 * 1024 * 1024 * 1024), rest = [])
        else if metric ≠ "B" ∨ hasDot then none
        else some (number, rest = [])
      | none => if hasDot then none else some (number, true)
    match scaled with
    | none => .ok none
    | some (number, eof) =>
      if !eof then .ok none
      else if ((2 ^ 64 : ℕ) : ℚ) < number then .ok none
      else (Json.doubleToSize number).map some

/-! ### What `parse_bytes` returns -/

attribute [local semireducible] Rat.add Rat.mul Rat.inv Rat.sub

theorem log2_go_le : ∀ (fuel n k : ℕ), n < 2 ^ (k + 1) → log2.go fuel n ≤ k
  | 0, _, _, _ => Nat.zero_le _
  | fuel + 1, n, k, h => by
    unfold log2.go
    split
    · exact Nat.zero_le _
    · obtain _ | k := k
      · omega
      · have : n / 2 < 2 ^ (k + 1) := by rw [Nat.div_lt_iff_lt_mul two_pos, ← pow_succ]; exact h
        exact Nat.succ_le_succ (log2_go_le fuel (n / 2) k this)

theorem floorLog2_natCast_le (n : ℕ) : floorLog2 (n : ℚ) ≤ log2 n := by
  unfold floorLog2
  simp only [Rat.num_natCast, Rat.den_natCast, Int.natAbs_ofNat]
  have : log2 1 = 0 := rfl
  split <;> omega

@[simp] theorem floor_natCast (n : ℕ) : (n : ℚ).floor = n := by
  simp [Rat.floor_def']

theorem roundHalfEven_natCast (n : ℕ) : roundHalfEven (n : ℚ) = n := by
  simp [roundHalfEven]

theorem zpowNat_neg_natCast (b t : ℕ) : zpowNat b (-t) = 1 / ((b ^ t : ℕ) : ℚ) := by
  unfold zpowNat
  split
  · obtain rfl : t = 0 := by omega
    simp
  · simp

set_option exponentiation.threshold 1100 in
/-- Every natural number below `2^53` is a `double`: the exponent `q` is at most `0`, so
`n / 2^q` is an integer, and rounding keeps it. -/
theorem toDouble_natCast {n : ℕ} (h : n < 2 ^ 53) : toDouble (n : ℚ) = some (n : ℚ) := by
  rcases Nat.eq_zero_or_pos n with rfl | hpos
  · simp [toDouble]
  have hq : max (floorLog2 |(n : ℚ)| - 52) (-1074) ≤ 0 := by
    have := log2_go_le n n 52 h
    have := floorLog2_natCast_le n
    rw [Nat.abs_cast]
    unfold log2 at *
    omega
  obtain ⟨t, ht⟩ : ∃ t : ℕ, max (floorLog2 |(n : ℚ)| - 52) (-1074) = -t :=
    ⟨_, by rw [Int.toNat_of_nonneg (neg_nonneg.2 hq), neg_neg]⟩
  have hpow : ((2 ^ t : ℕ) : ℚ) ≠ 0 := Nat.cast_ne_zero.2 (pow_ne_zero _ two_ne_zero)
  have hv : (roundHalfEven (|(n : ℚ)| / zpowNat 2 (-t)) : ℚ) * zpowNat 2 (-t) = n := by
    rw [Nat.abs_cast, zpowNat_neg_natCast, div_div_eq_mul_div, div_one, ← Nat.cast_mul, roundHalfEven_natCast,
      Int.cast_natCast, Nat.cast_mul, mul_one_div, mul_div_assoc, div_self hpow, mul_one]
  have hlt : ¬ ((2 ^ 1024 : ℕ) : ℚ) ≤ n := by
    rw [not_le, Nat.cast_lt]; exact h.trans_le (Nat.pow_le_pow_right two_pos (by decide))
  simp only [toDouble, ht, hv, hlt, Nat.cast_eq_zero, hpos.ne', if_false, Nat.cast_nonneg, not_lt.2]

theorem doubleToSize_natCast {n : ℕ} (h : n < 2 ^ 64) : Json.doubleToSize n = .ok (UInt64.ofNat n) := by
  have hpos : (-1 : ℚ) < n := neg_one_lt_zero.trans_le (Nat.cast_nonneg _)
  simpa [Json.doubleToSize, hpos] using h

/-- The last two tests of `parse_bytes` pass a scaled integer below `2^64`, and the cast
keeps it. -/
theorem doubleToSize_scaled {n scale : ℕ} {x : ℚ} (hx : x = n * (scale : ℚ)) (h : n * scale < 2 ^ 64) :
    (if ((2 ^ 64 : ℕ) : ℚ) < x then .ok none else (Json.doubleToSize x).map some :
        Except Interrupt (Option UInt64)) = .ok (some (UInt64.ofNat (n * scale))) := by
  rw [hx, ← Nat.cast_mul, if_neg (not_lt.2 (Nat.cast_le.2 h.le)), doubleToSize_natCast h]
  rfl

theorem scanFloat_digit_cons {c : Char} (hc : c.isDigit) (mantissa dec sci expSign : Bool) (cs : List Char) :
    scanFloat mantissa dec sci expSign (c :: cs) =
      (c :: (scanFloat true dec sci false cs).1, (scanFloat true dec sci false cs).2) := by
  have hp : c ≠ '+' := ne_of_isDigit hc rfl
  have hm : c ≠ '-' := ne_of_isDigit hc rfl
  simp [scanFloat, hc, hp, hm]

theorem scanFloat_digits {ds : List Char} (hd : ∀ c ∈ ds, c.isDigit) (dec sci : Bool) (rest : List Char) :
    scanFloat true dec sci false (ds ++ rest) =
      (ds ++ (scanFloat true dec sci false rest).1, (scanFloat true dec sci false rest).2) := by
  induction ds with
  | nil => rfl
  | cons c ds ih =>
    rw [List.cons_append, scanFloat_digit_cons (hd c (List.mem_cons_self _ _)),
      ih fun c h => hd c (List.mem_cons_of_mem _ h)]
    rfl

theorem splitSign_of_isDigit {c : Char} (hc : c.isDigit) (t : List Char) : splitSign (c :: t) = (false, c :: t) := by
  have hp : c ≠ '+' := ne_of_isDigit hc rfl
  have hm : c ≠ '-' := ne_of_isDigit hc rfl
  unfold splitSign
  split <;> simp_all

theorem decimalValue_digits {ds : List Char} (hne : ds ≠ []) (hd : ∀ c ∈ ds, c.isDigit) :
    decimalValue ds = some (digitsValue ds : ℚ) := by
  obtain ⟨c, t, rfl⟩ := List.exists_cons_of_ne_nil hne
  have hall : (c :: t).takeWhile Char.isDigit = c :: t := List.takeWhile_eq_self_iff.2 hd
  simp [decimalValue, splitSign_of_isDigit (hd c (List.mem_cons_self _ _)), hall, zpowNat]

/-- A character at which `>>` stops reading a number that has digits, and that `c_str`
keeps. -/
def EndsNumber (c : Char) : Prop := c.isDigit = false ∧ c ≠ '.' ∧ c ≠ 'e' ∧ c ≠ 'E' ∧ c ≠ '\x00'

instance (c : Char) : Decidable (EndsNumber c) := inferInstanceAs (Decidable (_ ∧ _))

theorem endsNumber_of_isSpace {c : Char} (h : isSpace c) : EndsNumber c := by
  simp only [isSpace, Bool.or_eq_true, decide_eq_true_eq] at h
  rcases h with ((((rfl | rfl) | rfl) | rfl) | rfl) | rfl <;> decide

theorem scanFloat_endsNumber {rest : List Char} (h : ∀ c ∈ rest, EndsNumber c) :
    scanFloat true false false false rest = ([], rest) := by
  cases rest with
  | nil => rfl
  | cons c cs =>
    obtain ⟨hd, hdot, he, hE, -⟩ := h c (List.mem_cons_self _ _)
    simp [scanFloat, hd, hdot, he, hE]

theorem dropWhile_isSpace_append {lead rest : List Char} (hlead : ∀ c ∈ lead, isSpace c) {c : Char}
    (hc : isSpace c = false) : (lead ++ c :: rest).dropWhile isSpace = c :: rest := by
  rw [List.dropWhile_append_of_pos hlead, List.dropWhile_cons_of_neg (by simp [hc])]

section Number

/-! The text is blanks `lead`, the digits `ds`, then `rest`, at which the number ends. -/

variable {lead ds rest : List Char} (hlead : ∀ c ∈ lead, isSpace c) (hd : ∀ c ∈ ds, c.isDigit)
  (hrest : ∀ c ∈ rest, EndsNumber c)
include hlead hd

theorem head?_ne_dot (hne : ds ≠ []) : (String.toList ⟨lead ++ ds ++ rest⟩).head? ≠ some '.' := by
  obtain ⟨d, t, rfl⟩ := List.exists_cons_of_ne_nil hne
  cases lead with
  | nil => simpa using ne_of_isDigit (hd d (List.mem_cons_self _ _)) (show Char.isDigit '.' = false from rfl)
  | cons c _ => simpa using (endsNumber_of_isSpace (hlead c (List.mem_cons_self _ _))).2.1

include hrest

theorem contains_dot : (String.toList ⟨lead ++ ds ++ rest⟩).contains '.' = false := by
  show List.elem '.' (lead ++ ds ++ rest) = false
  simp only [List.elem_eq_mem, decide_eq_false_iff_not, List.mem_append, not_or]
  exact ⟨⟨fun h => (endsNumber_of_isSpace (hlead _ h)).2.1 rfl, fun h => absurd (hd _ h) (by decide)⟩,
    fun h => (hrest _ h).2.1 rfl⟩

theorem dropWhile_isSpace_cStr {d : Char} {t : List Char} (h : ds = d :: t) :
    (cStr ⟨lead ++ ds ++ rest⟩).toList.dropWhile isSpace = d :: (t ++ rest) := by
  have h0 : ∀ c ∈ lead ++ ds ++ rest, c ≠ '\x00' := by
    simp only [List.mem_append]
    rintro c ((hc | hc) | hc)
    · exact (endsNumber_of_isSpace (hlead c hc)).2.2.2.2
    · exact ne_of_isDigit (hd c hc) rfl
    · exact (hrest c hc).2.2.2.2
  subst h
  rw [cStr_of_forall_ne h0, List.append_assoc, List.cons_append]
  exact dropWhile_isSpace_append hlead (isSpace_of_isDigit (hd d (List.mem_cons_self _ _)))

omit hlead in
theorem scanFloat_number {d : Char} {t : List Char} (h : ds = d :: t) :
    scanFloat false false false false (d :: (t ++ rest)) = (d :: t, rest) := by
  subst h
  rw [scanFloat_digit_cons (hd d (List.mem_cons_self _ _)),
    scanFloat_digits (fun c hc => hd c (List.mem_cons_of_mem _ hc)), scanFloat_endsNumber hrest, List.append_nil]

end Number

/-- **`parse_bytes` reads integers below `2^53` exactly.** After blanks, a run of digits
whose value `n` is below `2^53` reads as `n`, alone or followed by blanks; followed by
blanks (or none) and one of the units `B`, `KB`, `MB`, `GB`, `TB` that ends the text, it
reads as `n` times the unit's factor, when that is below `2^64`. -/
theorem parseBytes_integer {lead ds sp : List Char} (hlead : ∀ c ∈ lead, isSpace c) (hne : ds ≠ [])
    (hd : ∀ c ∈ ds, c.isDigit) (hsp : ∀ c ∈ sp, isSpace c) (h53 : digitsValue ds < 2 ^ 53) :
    parseBytes ⟨lead ++ ds ++ sp⟩ = .ok (some (UInt64.ofNat (digitsValue ds))) ∧
      ∀ unit scale, (unit, scale) ∈ [("B", 1), ("KB", 1024), ("MB", 1024 * 1024), ("GB", 1024 * 1024 * 1024),
          ("TB", 1024 * 1024 * 1024 * 1024)] → digitsValue ds * scale < 2 ^ 64 →
        parseBytes ⟨lead ++ ds ++ (sp ++ unit.toList)⟩ = .ok (some (UInt64.ofNat (digitsValue ds * scale))) := by
  obtain ⟨d, t, rfl⟩ := List.exists_cons_of_ne_nil hne
  have hdig := hd d (List.mem_cons_self _ _)
  have hp : d ≠ '+' := ne_of_isDigit hdig rfl
  have hm : d ≠ '-' := ne_of_isDigit hdig rfl
  have hsp' : ∀ c ∈ sp, EndsNumber c := fun c hc => endsNumber_of_isSpace (hsp c hc)
  constructor
  · -- no unit: the rest is blanks, which `>> metric` skips to the end
    have h64 : digitsValue (d :: t) < 2 ^ 64 := h53.trans (by decide)
    simp only [parseBytes, head?_ne_dot hlead hd hne, contains_dot hlead hd hsp',
      dropWhile_isSpace_cStr hlead hd hsp' rfl, scanFloat_number hd hsp' rfl, if_false, hp, hm, false_or,
      List.nil_append, decimalValue_digits hne hd, Option.some_bind, toDouble_natCast h53,
      List.dropWhile_eq_nil_iff.2 hsp]
    simp [doubleToSize_natCast h64, Except.map]
    exact h64.le
  · -- a unit: `>> metric` reads it whole and reaches the end
    intro unit scale hunit hlt
    simp only [List.mem_cons, Prod.mk.injEq, List.mem_nil_iff, or_false] at hunit
    obtain ⟨hne_u, hws⟩ : unit.toList ≠ [] ∧ ∀ c ∈ unit.toList, EndsNumber c ∧ isSpace c = false := by
      rcases hunit with ⟨rfl, -⟩ | ⟨rfl, -⟩ | ⟨rfl, -⟩ | ⟨rfl, -⟩ | ⟨rfl, -⟩ <;> decide
    have hrest : ∀ c ∈ sp ++ unit.toList, EndsNumber c := by
      simp only [List.mem_append]
      rintro c (hc | hc)
      exacts [hsp' c hc, (hws c hc).1]
    have hdrop : (sp ++ unit.toList).dropWhile isSpace = unit.toList := by
      obtain ⟨c, w, hw⟩ := List.exists_cons_of_ne_nil hne_u
      rw [hw]
      exact dropWhile_isSpace_append hsp (hws c (hw ▸ List.mem_cons_self _ _)).2
    have htake : unit.toList.takeWhile (fun c => !isSpace c) = unit.toList :=
      List.takeWhile_eq_self_iff.2 fun c hc => by simp [(hws c hc).2]
    have hmk : (⟨unit.toList⟩ : String) = unit := rfl
    simp only [parseBytes, head?_ne_dot hlead hd hne, contains_dot hlead hd hrest,
      dropWhile_isSpace_cStr hlead hd hrest rfl, scanFloat_number hd hrest rfl, if_false, hp, hm, false_or,
      List.nil_append, decimalValue_digits hne hd, Option.some_bind, toDouble_natCast h53, hdrop, htake, hmk,
      List.drop_length, List.append_eq_nil, hne_u, and_false]
    rcases hunit with ⟨rfl, rfl⟩ | ⟨rfl, rfl⟩ | ⟨rfl, rfl⟩ | ⟨rfl, rfl⟩ | ⟨rfl, rfl⟩ <;>
      simp only [String.reduceEq, if_true, if_false, decide_True, Bool.not_true, ne_eq, not_true, or_false,
        Bool.false_eq_true] <;>
      exact doubleToSize_scaled (by simp only [Nat.cast_mul, Nat.cast_ofNat, Nat.cast_one, mul_one]) hlt

/-- ` 10 GB`: a blank, two digits, a blank and a unit, read as `10 * 1024^3`. -/
theorem parseBytes_integer_ten_gb :
    parseBytes ⟨[' '] ++ ['1', '0'] ++ ([' '] ++ "GB".toList)⟩ = .ok (some 10737418240) :=
  (parseBytes_integer (by decide) (by decide) (by decide) (by decide) (by decide)).2 "GB" (1024 * 1024 * 1024)
    (by decide) (by decide)

set_option exponentiation.threshold 1100 in
set_option maxRecDepth 2000 in
-- the bound is tight: `2^53 + 1` is no `double`, and reads as `2^53`
example : parseBytes "9007199254740993" = .ok (some 9007199254740992) := by decide

set_option exponentiation.threshold 1100 in
set_option maxRecDepth 2000 in
-- a blank after the unit leaves the stream short of its end, and the text is refused
example : parseBytes "10 GB " = .ok none := by decide

end UStore.ConfigLoader
