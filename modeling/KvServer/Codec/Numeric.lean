import KvServer.Codec.Bytes

/-!
# Numeric arguments: `str2int` and `str2dbl`

`str2int` and `str2dbl` convert a command argument with `strtoll(s, &endp, 10)` and
`strtod(s, &endp)` and accept it when `endp` is at the end of the string (and, for
`str2dbl`, the value is not a NaN). The two C library functions are modelled after the C
standard's description for the "C" locale: skip white space, an optional sign, then the
longest prefix that has the expected form; no conversion leaves `endp` at the start of the
string.

`strtod` rounds the exact decimal (or hexadecimal) value to the nearest binary64, ties to
even, with overflow to infinity and gradual underflow, as IEEE-754 arithmetic does.

Results:
1. `str2int_eq_some_iff`: the strings `str2int` accepts, and the value it reads from each.
-/

namespace KvServer

/-! ## Characters -/

/-- `isspace` in the "C" locale. -/
def isSpace (c : UInt8) : Bool := c == 32 || (9 ≤ c && c ≤ 13)

/-- `isdigit`. -/
def isDigit (c : UInt8) : Bool := 48 ≤ c && c ≤ 57

/-- `isxdigit`. -/
def isHexDigit (c : UInt8) : Bool := isDigit c || (97 ≤ c && c ≤ 102) || (65 ≤ c && c ≤ 70)

/-- The value of a hexadecimal digit. -/
def hexVal (c : UInt8) : Nat :=
  if isDigit c then c.toNat - 48 else if 97 ≤ c then c.toNat - 87 else c.toNat - 55

/-- ASCII lower case. -/
def toLower (c : UInt8) : UInt8 := if 65 ≤ c && c ≤ 90 then c + 32 else c

/-- The number a run of digits denotes in base `b`. -/
def digitsValue (b : Nat) (ds : List UInt8) : Nat :=
  ds.foldl (fun acc d => acc * b + hexVal d) 0

/-- White space, then an optional sign: how many bytes they take and whether the sign is `-`. -/
def skipSpaceSign (s : List UInt8) : Nat × Bool :=
  let ws := (s.takeWhile isSpace).length
  match s.drop ws with
  | 45 :: _ => (ws + 1, true)
  | 43 :: _ => (ws + 1, false)
  | _ => (ws, false)

/-! ## `strtoll` and `str2int` -/

/-- `strtoll(s, &endp, 10)`: the value, clamped to the `int64_t` range, and the offset of
`endp`. -/
def strtoll (s : List UInt8) : Int × Nat :=
  let (pre, neg) := skipSpaceSign s
  let ds := (s.drop pre).takeWhile isDigit
  if ds.isEmpty then (0, 0)
  else
    let v : Int := if neg then -(digitsValue 10 ds : Int) else digitsValue 10 ds
    (max (-2 ^ 63) (min (2 ^ 63 - 1) v), pre + ds.length)

/-- `str2int`: `some out` when it returns true. -/
def str2int (s : List UInt8) : Option Int :=
  let (v, endp) := strtoll s
  if endp = s.length then some v else none

/-! ## What `str2int` accepts -/

/-- A digit is neither white space nor a sign. -/
theorem isDigit_not_space_sign {c : UInt8} (h : isDigit c) :
    isSpace c = false ∧ c ≠ 45 ∧ c ≠ 43 := by
  have hn : 48 ≤ c.toNat ∧ c.toNat ≤ 57 := by
    simpa [isDigit, UInt8.le_def, BitVec.le_def] using h
  refine ⟨?_, fun e => by subst e; exact absurd hn (by decide),
    fun e => by subst e; exact absurd hn (by decide)⟩
  simp only [isSpace, Bool.or_eq_false_iff, beq_eq_false_iff_ne, Bool.and_eq_false_imp,
    UInt8.le_def, BitVec.le_def, decide_eq_true_eq, decide_eq_false_iff_not]
  refine ⟨fun e => by subst e; exact absurd hn (by decide), fun _ => ?_⟩
  simp only [UInt8.toNat] at hn
  simp
  omega

/-- Every string starts with the white space and the optional sign that `skipSpaceSign`
takes, and it reports a `-`. -/
theorem skipSpaceSign_spec (s : List UInt8) :
    ∃ ws sg, s = ws ++ sg ++ s.drop (skipSpaceSign s).1 ∧
      (skipSpaceSign s).1 = ws.length + sg.length ∧ (∀ c ∈ ws, isSpace c) ∧
      (sg = [] ∨ sg = [45] ∨ sg = [43]) ∧ (skipSpaceSign s).2 = (sg == [45]) := by
  have hws : ∀ c ∈ s.takeWhile isSpace, isSpace c := fun c hc =>
    List.all_eq_true.mp List.all_takeWhile c hc
  have hd := List.drop_left (s.takeWhile isSpace) (s.dropWhile isSpace)
  rw [List.takeWhile_append_dropWhile] at hd
  have hs : s = s.takeWhile isSpace ++ s.dropWhile isSpace :=
    (List.takeWhile_append_dropWhile isSpace s).symm
  unfold skipSpaceSign
  dsimp only
  rw [hd]
  split
  · rename_i r heq
    refine ⟨_, [45], ?_, rfl, hws, .inr (.inl rfl), rfl⟩
    rw [← List.drop_drop, hd, heq]
    conv_lhs => rw [hs, heq]
    simp
  · rename_i r heq
    refine ⟨_, [43], ?_, rfl, hws, .inr (.inr rfl), rfl⟩
    rw [← List.drop_drop, hd, heq]
    conv_lhs => rw [hs, heq]
    simp
  · refine ⟨_, [], ?_, rfl, hws, .inl rfl, rfl⟩
    rw [hd, List.append_nil]
    exact hs

/-- Before a digit, or at the end, `skipSpaceSign` takes all the white space and the sign. -/
theorem skipSpaceSign_append {ws sg ds : List UInt8} (hws : ∀ c ∈ ws, isSpace c)
    (hsg : sg = [] ∨ sg = [45] ∨ sg = [43]) (hds : ∀ c ∈ ds.head?, isDigit c) :
    skipSpaceSign (ws ++ sg ++ ds) = (ws.length + sg.length, sg == [45]) := by
  -- a sign or a digit is not white space
  have htw : (sg ++ ds).takeWhile isSpace = [] := by
    rcases hsg with rfl | rfl | rfl
    · cases ds with
      | nil => rfl
      | cons d r => simp [(isDigit_not_space_sign (hds d rfl)).1]
    all_goals rfl
  unfold skipSpaceSign
  dsimp only
  rw [List.append_assoc, List.takeWhile_append_of_pos hws, htw, List.append_nil, List.drop_left]
  rcases hsg with rfl | rfl | rfl
  · cases ds with
    | nil => rfl
    | cons d r =>
      obtain ⟨-, h45, h43⟩ := isDigit_not_space_sign (hds d rfl)
      simp only [List.nil_append]
      split
      · rename_i _ heq
        exact absurd (List.cons.inj heq).1 h45
      · rename_i _ heq
        exact absurd (List.cons.inj heq).1 h43
      · rfl
  all_goals rfl

/-- What `str2int` accepts: the empty string, read as 0, because `strtoll` then leaves `endp`
at the start, which is also the end; or white space, an optional sign and a non-empty run of
decimal digits with nothing after them, read as their value clamped to the `int64_t` range,
because `strtoll` reports overflow in `errno` only. -/
theorem str2int_eq_some_iff {s : List UInt8} {v : Int} :
    str2int s = some v ↔ (s = [] ∧ v = 0) ∨
      ∃ ws sg ds, s = ws ++ sg ++ ds ∧ (∀ c ∈ ws, isSpace c) ∧ (sg = [] ∨ sg = [45] ∨ sg = [43]) ∧
        ds ≠ [] ∧ (∀ c ∈ ds, isDigit c) ∧
        v = max (-2 ^ 63) (min (2 ^ 63 - 1)
          (if sg = [45] then -(digitsValue 10 ds : Int) else digitsValue 10 ds)) := by
  constructor
  · intro h
    obtain ⟨ws, sg, hs, hpre, hws, hsg, hneg⟩ := skipSpaceSign_spec s
    have hdig : ∀ c ∈ (s.drop (skipSpaceSign s).1).takeWhile isDigit, isDigit c := fun c hc =>
      List.all_eq_true.mp List.all_takeWhile c hc
    simp only [str2int, strtoll] at h
    by_cases hde : (s.drop (skipSpaceSign s).1).takeWhile isDigit = []
    · simp only [hde, List.isEmpty_nil, if_true] at h
      split at h
      · rename_i h0
        exact .inl ⟨List.eq_nil_of_length_eq_zero h0.symm, (Option.some.inj h).symm⟩
      · cases h
    simp only [List.isEmpty_iff, hde, ↓reduceIte] at h
    split at h
    · rename_i hlen
      -- `endp` at the end: the digits are the whole rest
      have hd : s.drop (skipSpaceSign s).1 = (s.drop (skipSpaceSign s).1).takeWhile isDigit :=
        ((List.takeWhile_prefix isDigit).eq_of_length (by simp; omega)).symm
      refine .inr ⟨ws, sg, _, hs.trans (by rw [← hd]), hws, hsg, hde, hdig, ?_⟩
      rw [← Option.some.inj h, hneg]
      simp only [beq_iff_eq]
    · cases h
  · rintro (⟨rfl, rfl⟩ | ⟨ws, sg, ds, rfl, hws, hsg, hne, hdig, rfl⟩)
    · rfl
    have hds : ∀ c ∈ ds.head?, isDigit c := fun c hc => hdig c (List.mem_of_mem_head? hc)
    simp only [str2int, strtoll, skipSpaceSign_append hws hsg hds]
    rw [List.drop_left' (List.length_append ws sg), List.takeWhile_eq_self_iff.mpr hdig]
    simp only [List.isEmpty_iff, hne, ↓reduceIte, beq_iff_eq, List.length_append, Nat.add_assoc]

/-! ## Binary64 -/

namespace F64

/-- The bits of `+∞`. -/
def infBits : Nat := 0x7FF0000000000000

/-- The bits of the quiet NaN `strtod` returns. -/
def nanBits : Nat := 0x7FF8000000000000

/-- `isnan`: all exponent bits set and a non-zero fraction. -/
def isNaN (d : F64) : Bool :=
  (d.bits.toNat / 2 ^ 52) % 2 ^ 11 == 2 ^ 11 - 1 && d.bits.toNat % 2 ^ 52 != 0

end F64

/-- The number of binary digits of `n`, by structural recursion on a fuel bound. -/
def bitLength : Nat → Nat → Nat
  | 0, _ => 0
  | fuel + 1, n => if n = 0 then 0 else bitLength fuel (n / 2) + 1

/-- `⌊num / (den · 2^e)⌋` and the remainder, for an integer exponent `e`. -/
def scaledDiv (num den : Nat) (e : Int) : Nat × Nat × Nat :=
  let n := if e < 0 then num * 2 ^ e.natAbs else num
  let d := if e < 0 then den else den * 2 ^ e.natAbs
  (n / d, n % d, d)

/-- Round `num / den` (with `den > 0`) to the nearest binary64, ties to even. -/
def roundF64 (neg : Bool) (num den : Nat) : F64 :=
  let sign := if neg then 2 ^ 63 else 0
  if num = 0 then ⟨UInt64.ofNat sign⟩
  else
    let e₁ : Int := (bitLength num num : Int) - bitLength den den - 53
    let e₂ := if 2 ^ 53 ≤ (scaledDiv num den e₁).1 then e₁ + 1 else e₁
    let e := max e₂ (-1074)
    let (q, r, d) := scaledDiv num den e
    let up := 2 * r > d || (2 * r = d && q % 2 = 1)
    let m := if up then q + 1 else q
    let (m, e) := if m = 2 ^ 53 then (2 ^ 52, e + 1) else (m, e)
    if e > 971 then ⟨UInt64.ofNat (sign + F64.infBits)⟩
    else if m < 2 ^ 52 then ⟨UInt64.ofNat (sign + m)⟩
    else ⟨UInt64.ofNat (sign + (e + 1075).toNat * 2 ^ 52 + (m - 2 ^ 52))⟩

/-- The bytes that case-insensitively spell `w` at the start of `s`. -/
def startsWithCI (s : List UInt8) (w : String) : Bool :=
  (s.take w.length).map toLower == ascii w

/-- An optional exponent: a marker among `marks`, an optional sign and at least one decimal
digit; its value and length, `(0, 0)` when there is none. -/
def expPart (marks : List UInt8) (s : List UInt8) : Int × Nat :=
  match s with
  | c :: rest =>
    if c ∈ marks then
      let (signLen, neg) := match rest with
        | 45 :: _ => (1, true)
        | 43 :: _ => (1, false)
        | _ => (0, false)
      let ds := (rest.drop signLen).takeWhile isDigit
      if ds.isEmpty then (0, 0)
      else
        ((if neg then -(digitsValue 10 ds : Int) else digitsValue 10 ds),
          1 + signLen + ds.length)
    else (0, 0)
  | [] => (0, 0)

/-- A mantissa in base `b`: digits, an optional point and digits, at least one digit in all;
the integer its digits denote, the number of digits after the point, and its length. -/
def mantissa (digit : UInt8 → Bool) (b : Nat) (s : List UInt8) : Option (Nat × Nat × Nat) :=
  let ip := s.takeWhile digit
  let rest := s.drop ip.length
  let (fp, pointLen) := match rest with
    | 46 :: r => (r.takeWhile digit, 1)
    | _ => ([], 0)
  if ip.isEmpty && fp.isEmpty then none
  else some (digitsValue b (ip ++ fp), fp.length, ip.length + pointLen + fp.length)

/-- The subject sequence of `strtod` after the sign: its value and length, `none` for no
conversion. -/
def strtodSubject (neg : Bool) (s : List UInt8) : Option (F64 × Nat) :=
  let sign := if neg then 2 ^ 63 else 0
  if startsWithCI s "infinity" then some (⟨UInt64.ofNat (sign + F64.infBits)⟩, 8)
  else if startsWithCI s "inf" then some (⟨UInt64.ofNat (sign + F64.infBits)⟩, 3)
  else if startsWithCI s "nan" then
    let rest := s.drop 3
    let chars := match rest with
      | 40 :: r =>
        let body := r.takeWhile fun c =>
          isDigit c || (97 ≤ toLower c && toLower c ≤ 122) || c == 95
        if (r.drop body.length).head? == some 41 then body.length + 2 else 0
      | _ => 0
    some (⟨UInt64.ofNat (sign + F64.nanBits)⟩, 3 + chars)
  else
    let hex := match s with
      | 48 :: x :: rest =>
        if toLower x == 120 then
          (mantissa isHexDigit 16 rest).map fun (h, frac, len) =>
            let (p, plen) := expPart [112, 80] (rest.drop len)
            let e : Int := p - ((4 * frac : Nat) : Int)
            let v := if e < 0 then roundF64 neg h (2 ^ e.natAbs)
              else roundF64 neg (h * 2 ^ e.natAbs) 1
            (v, 2 + len + plen)
        else none
      | _ => none
    match hex with
    | some r => some r
    | none =>
      (mantissa isDigit 10 s).map fun (m, frac, len) =>
        let (x, xlen) := expPart [101, 69] (s.drop len)
        let e : Int := x - (frac : Int)
        let v := if e < 0 then roundF64 neg m (10 ^ e.natAbs)
          else roundF64 neg (m * 10 ^ e.natAbs) 1
        (v, len + xlen)

/-- `strtod(s, &endp)`: the value and the offset of `endp` (0 for no conversion). -/
def strtod (s : List UInt8) : F64 × Nat :=
  let (pre, neg) := skipSpaceSign s
  match strtodSubject neg (s.drop pre) with
  | some (v, len) => (v, pre + len)
  | none => (⟨0⟩, 0)

/-- `str2dbl`: `some out` when it returns true. -/
def str2dbl (s : List UInt8) : Option F64 :=
  let (v, endp) := strtod s
  if endp = s.length ∧ !v.isNaN then some v else none

end KvServer
