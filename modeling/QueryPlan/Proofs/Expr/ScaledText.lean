import QueryPlan.Document.Scalar
import QueryPlan.Proofs.Outcome
import Mathlib.Algebra.Order.Field.Rat
import Mathlib.Tactic.FieldSimp
import Mathlib.Tactic.Positivity
/-!
# QueryPlan.Proofs.Expr.ScaledText

**What the text of a scaled literal denotes.** Texts are read back by `decimalValue`, which knows
nothing of how they are made: an optional minus sign, and digits around a point.

A literal is shown by dividing its payload by a power of ten in a word of 64 bits. The eighteenth
power is the last one that fits. Up to there every payload has a text, and the text is exact; from
the nineteenth on no payload has one (`text_exact_iff`).
-/

namespace QueryPlan.Literal

variable {v : Int} {scale n : Nat} {whole fraction : List Char}

/-! ### Texts as numbers -/

/-- The number that digits around a point stand for. -/
def unsignedValue (cs : List Char) : ℚ :=
  let whole := cs.takeWhile (· != '.')
  let fraction := (cs.dropWhile (· != '.')).tail
  Nat.ofDigitChars 10 (whole ++ fraction) 0 / 10 ^ fraction.length

/-- The number that a text stands for. -/
def decimalValue (text : String) : ℚ :=
  match text.toList with
  | '-' :: cs => -unsignedValue cs
  | cs => unsignedValue cs

/-- The text is a minus sign for a negative number, the digits of the integer part of
`|v| / 10 ^ scale`, a point and `scale` digits, and stands for `v / 10 ^ scale`. -/
def Renders (text : String) (v : Int) (scale : Nat) : Prop :=
  ∃ fraction : List Char, fraction.length = scale ∧ (∀ c ∈ fraction, c.isDigit) ∧
    text = (if v < 0 then "-" else "") ++ toString (v.natAbs / 10 ^ scale) ++ "." ++
      String.ofList fraction ∧
    decimalValue text = v / 10 ^ scale

theorem isDigit_of_mem_decimalDigits {c : Char} (h : c ∈ decimalDigits n) : c.isDigit :=
  Nat.isDigit_of_mem_toDigits (by decide) (by decide) h

theorem ne_of_isDigit {c d : Char} (h : c.isDigit) (hd : d.isDigit = false) : c ≠ d := by
  rintro rfl
  exact Bool.false_ne_true (hd.symm.trans h)

/-- Digits behind a point are divided by the power of ten of their number. -/
theorem unsignedValue_point (h : ∀ c ∈ whole, c.isDigit) :
    unsignedValue (whole ++ '.' :: fraction) =
      Nat.ofDigitChars 10 whole 0 + Nat.ofDigitChars 10 fraction 0 / 10 ^ fraction.length := by
  have hpoint : ∀ c ∈ whole, (c != '.') = true := fun c hc =>
    bne_iff_ne.mpr (ne_of_isDigit (h c hc) rfl)
  have hwhole : (whole ++ '.' :: fraction).takeWhile (· != '.') = whole := by
    rw [List.takeWhile_append_of_pos hpoint, List.takeWhile_cons_of_neg (by decide), List.append_nil]
  have hfraction : ((whole ++ '.' :: fraction).dropWhile (· != '.')).tail = fraction := by
    rw [List.dropWhile_append_of_pos hpoint, List.dropWhile_cons_of_neg (by decide), List.tail_cons]
  rw [unsignedValue, hwhole, hfraction, Nat.ofDigitChars_append,
    Nat.ofDigitChars_eq_ofDigitChars_zero]
  push_cast
  field_simp

theorem decimalValue_of_not_minus {text : String} (h : ∀ cs, text.toList ≠ '-' :: cs) :
    decimalValue text = unsignedValue text.toList := by
  unfold decimalValue
  split
  · next cs hcs => exact absurd hcs (h cs)
  · rfl

/-- The number that a sign, an integer part and a fraction stand for. -/
theorem decimalValue_pointed (negative : Prop) [Decidable negative] :
    decimalValue ((if negative then "-" else "") ++ toString n ++ "." ++ String.ofList fraction) =
      (if negative then -1 else 1) *
        (n + Nat.ofDigitChars 10 fraction 0 / 10 ^ fraction.length) := by
  have hvalue : unsignedValue (Nat.toDigits 10 n ++ '.' :: fraction) =
      n + Nat.ofDigitChars 10 fraction 0 / 10 ^ fraction.length := by
    have hdigits : ∀ c ∈ Nat.toDigits 10 n, c.isDigit := fun c => isDigit_of_mem_decimalDigits
    rw [unsignedValue_point hdigits, Nat.ofDigitChars_ten_toDigits]
  by_cases h : negative
  · simp [decimalValue, h, hvalue]
  · have hlist : (toString n ++ "." ++ String.ofList fraction).toList =
        Nat.toDigits 10 n ++ '.' :: fraction := by simp
    have hminus : ∀ cs, Nat.toDigits 10 n ++ '.' :: fraction ≠ '-' :: cs := by
      intro cs hcs
      obtain ⟨c, digits, hdigits⟩ := List.exists_cons_of_ne_nil (Nat.toDigits_ne_nil (n := n))
      have hmem : c ∈ decimalDigits n := by
        rw [decimalDigits, hdigits]
        exact List.mem_cons_self
      rw [hdigits] at hcs
      exact ne_of_isDigit (isDigit_of_mem_decimalDigits hmem) rfl (List.cons.inj hcs).1
    rw [if_neg h, if_neg h, String.empty_append, one_mul,
      decimalValue_of_not_minus (hlist ▸ hminus), hlist, hvalue]

/-! ### The power of ten in a word -/

/-- The eighteenth power is the last one that fits. -/
theorem pow_lt_word_iff : 10 ^ scale < 2 ^ 63 ↔ scale ≤ 18 := by
  constructor
  · intro h
    by_contra hscale
    have hlast : 10 ^ 19 ≤ 10 ^ scale := Nat.pow_le_pow_right (by decide) (by omega)
    omega
  · exact fun h => lt_of_le_of_lt (Nat.pow_le_pow_right (by decide) h) (by decide)

theorem powerWord_of_le (h : scale ≤ 18) : powerWord scale = .ok (10 ^ scale : Nat) := by
  have hmin : min scale 19 = scale := by omega
  rw [powerWord, hmin]
  exact if_pos (pow_lt_word_iff.mpr h)

theorem powerWord_of_lt (h : 18 < scale) : powerWord scale = .fail .overflow := by
  have hmin : min scale 19 = 19 := by omega
  rw [powerWord, hmin]
  rfl

/-! ### The text -/

/-- The digits of a number with zeros in front, up to a length. -/
def paddedDigits (length n : Nat) : List Char :=
  List.replicate (length - (decimalDigits n).length) '0' ++ decimalDigits n

theorem isDigit_of_mem_paddedDigits {c : Char} (h : c ∈ paddedDigits scale n) : c.isDigit := by
  rcases List.mem_append.mp h with hzero | hdigit
  · rw [(List.mem_replicate.mp hzero).2]
    rfl
  · exact isDigit_of_mem_decimalDigits hdigit

theorem length_paddedDigits (hscale : 0 < scale) (h : n < 10 ^ scale) :
    (paddedDigits scale n).length = scale := by
  have hlength : (decimalDigits n).length ≤ scale :=
    (Nat.length_toDigits_le_iff (by decide) hscale).mpr h
  rw [paddedDigits, List.length_append, List.length_replicate]
  omega

theorem ofDigitChars_paddedDigits : Nat.ofDigitChars 10 (paddedDigits scale n) 0 = n := by
  rw [paddedDigits, Nat.ofDigitChars_append, Nat.ofDigitChars_replicate_zero, mul_zero,
    decimalDigits, Nat.ofDigitChars_ten_toDigits]

theorem toString_int (i : Int) : toString i = (if i < 0 then "-" else "") ++ toString i.natAbs := by
  cases i with
  | ofNat n => simp [toString, Int.repr, (Int.natCast_nonneg n).not_gt]
  | negSucc n => simp [toString, Int.repr]

/-- The text consists of what division by the power gives. The sign comes from the quotient, and if
that is zero from the payload. -/
theorem scaledText_eq (v : Int) (h : scale ≤ 18) :
    scaledText v scale = .ok (
      (if v.tdiv (10 ^ scale : Nat) < 0 ∨ v < 0 ∧ v.tdiv (10 ^ scale : Nat) = 0 then "-" else "") ++
        toString (v.natAbs / 10 ^ scale) ++ "." ++
        String.ofList (paddedDigits scale (v.natAbs % 10 ^ scale))) := by
  have hwhole : (v.tdiv (10 ^ scale : Nat)).natAbs = v.natAbs / 10 ^ scale := by
    exact (Int.natAbs_tdiv v _).trans (by rw [Int.natAbs_natCast]; rfl)
  have hfraction : (v.tmod (10 ^ scale : Nat)).natAbs = v.natAbs % 10 ^ scale := by
    rw [Int.natAbs_tmod, Int.natAbs_natCast]
  rw [scaledText, Result.bind_ok (powerWord_of_le h), Result.pure_eq_ok, toString_int, hwhole,
    hfraction, paddedDigits]
  generalize v.tdiv (10 ^ scale : Nat) = whole
  rcases lt_trichotomy whole 0 with h | h | h
  · simp [h, h.ne]
  · simp [h]
  · simp [h.not_gt, h.ne']

/-- Division by a positive number keeps the sign, unless it gives zero. -/
theorem quotient_neg_iff {unit : Nat} (h : 0 < unit) :
    (v.tdiv unit < 0 ∨ v < 0 ∧ v.tdiv unit = 0) ↔ v < 0 := by
  have hsign := Int.sign_tdiv v unit
  rw [Int.natAbs_natCast] at hsign
  by_cases hlt : v.natAbs < unit
  · rw [if_pos hlt, Int.sign_eq_zero_iff_zero] at hsign
    simp [hsign]
  · rw [if_neg hlt, Int.sign_eq_one_of_pos (Int.natCast_pos.mpr h), mul_one] at hsign
    have hneg : v.tdiv unit < 0 ↔ v < 0 := by
      rw [← Int.sign_eq_neg_one_iff_neg, hsign, Int.sign_eq_neg_one_iff_neg]
    rw [hneg]
    exact or_iff_left_of_imp And.left

/-- An integer part and a fraction make up the number. -/
theorem quotient_add_remainder (n scale : Nat) :
    ((n / 10 ^ scale : Nat) : ℚ) + ((n % 10 ^ scale : Nat) : ℚ) / 10 ^ scale = n / 10 ^ scale := by
  have hparts : ((10 ^ scale * (n / 10 ^ scale) + n % 10 ^ scale : Nat) : ℚ) = n :=
    congrArg Nat.cast (Nat.div_add_mod n (10 ^ scale))
  rw [← hparts]
  push_cast
  field_simp

theorem sign_mul_natAbs (v : Int) : (if v < 0 then -1 else 1) * (v.natAbs : ℚ) = v := by
  by_cases h : v < 0
  · have habs : (v.natAbs : Int) = -v := Int.ofNat_natAbs_of_nonpos h.le
    rw [if_pos h, ← Int.cast_natCast, habs, Int.cast_neg, neg_one_mul, neg_neg]
  · have habs : (v.natAbs : Int) = v := Int.natAbs_of_nonneg (not_lt.mp h)
    rw [if_neg h, one_mul, ← Int.cast_natCast, habs]

/-- As long as the power fits into the word there is a text, and it is exact. -/
theorem scaledText_renders (hscale : 0 < scale) (hfits : scale ≤ 18) :
    ∃ text, scaledText v scale = .ok text ∧ Renders text v scale := by
  have hpos : 0 < 10 ^ scale := Nat.pow_pos (by decide)
  have hlength : (paddedDigits scale (v.natAbs % 10 ^ scale)).length = scale :=
    length_paddedDigits hscale (Nat.mod_lt _ hpos)
  have htext := scaledText_eq v hfits
  simp only [quotient_neg_iff hpos] at htext
  refine ⟨_, htext, _, hlength, fun c => isDigit_of_mem_paddedDigits, rfl, ?_⟩
  rw [decimalValue_pointed, ofDigitChars_paddedDigits, hlength, quotient_add_remainder,
    ← mul_div_assoc, sign_mul_natAbs]

/-! ### Literals -/

variable {l : Literal}

/-- Writing a literal fails only by an overflow. -/
theorem text_eq_error {e : Error} (h : l.text = .error e) : e = .of .overflow := by
  unfold text at h
  split at h
  case h_3 i _ =>
    split at h
    · by_cases hfits : l.scale.toNat ≤ 18
      · rw [scaledText_eq i hfits] at h
        cases h
      · rw [scaledText, powerWord_of_lt (not_le.mp hfits)] at h
        exact (Except.error.inj h).symm
    · cases h
  all_goals cases h

/-- A literal with at most eighteen digits behind the point can be written. -/
theorem exists_text (h : l.scale ≤ 18) : ∃ text, l.text = .ok text := by
  unfold text
  split
  case h_3 i _ =>
    split
    · exact ⟨_, scaledText_eq i (by omega)⟩
    · exact ⟨_, rfl⟩
  all_goals exact ⟨_, rfl⟩

/-- A whole number with a decimal point has a text exactly if the power of ten that it is divided by
fits into a word, which is up to the eighteenth power. Then the text is exact: a minus sign for a
negative number, the digits of the integer part, a point, and a digit for each place of the scale.
From the nineteenth power on the program stops with an overflow. -/
theorem text_exact_iff (v : Int) (hvalue : l.value = .int v) (hscale : 0 < l.scale) :
    ((∃ text, l.text = .ok text) ↔ l.scale ≤ 18) ∧
    (l.scale ≤ 18 ↔ 10 ^ l.scale.toNat < 2 ^ 63) ∧
    (∀ text, l.text = .ok text → Renders text v l.scale.toNat) ∧
    (18 < l.scale → l.text = .error (.of .overflow)) := by
  have htext : l.text = scaledText v l.scale.toNat := by
    simp only [text, hvalue, if_pos hscale]
  have hstops : 18 < l.scale → l.text = .error (.of .overflow) := fun hlarge => by
    rw [htext, scaledText, powerWord_of_lt (by omega)]
    rfl
  have hfits : (∃ text, l.text = .ok text) ↔ l.scale ≤ 18 := by
    refine ⟨fun ⟨text, h⟩ => ?_, exists_text⟩
    by_contra hlarge
    rw [hstops (not_le.mp hlarge)] at h
    cases h
  refine ⟨hfits, by rw [pow_lt_word_iff]; omega, fun text h => ?_, hstops⟩
  have hle := hfits.mp ⟨text, h⟩
  have hpos : 0 < l.scale.toNat := by omega
  obtain ⟨exact, heq, hrenders⟩ := scaledText_renders (v := v) hpos (by omega)
  obtain rfl := Except.ok.inj ((htext ▸ h).symm.trans heq)
  exact hrenders

/-- The document of a decimal. -/
def decimalDocument (v scale : Int) : Json :=
  .object [("literal", .integer v), ("scale", .integer scale), ("target_type", .string "DECIMAL"),
    ("type", .string "DECIMAL")]

/-- A twentieth below zero. -/
theorem text_exact_minusFiveHundredths :
    ∃ l, ofDocument (decimalDocument (-5) 2) = .ok l ∧ l.value = .int (-5) ∧ 0 < l.scale ∧
      l.text = .ok "-0.05" ∧ Renders "-0.05" (-5) 2 := by
  refine ⟨⟨.int (-5), .decimal, .decimal, 2, 0, 0, 0⟩, rfl, rfl, by decide, by decide, ?_⟩
  exact (text_exact_iff (l := ⟨.int (-5), .decimal, .decimal, 2, 0, 0, 0⟩) (-5) rfl
    (by decide)).2.2.1 _ (by decide)

/-- A document may ask for nine tenths with nineteen digits behind the point. The payload fits into
a word, the power of ten does not, and instead of `0.9000000000000000000` there is no text. -/
theorem no_text_nineTenths :
    ∃ l, ofDocument (decimalDocument 9000000000000000000 19) = .ok l ∧
      l.value = .int 9000000000000000000 ∧ l.scale = 19 ∧ ¬ 10 ^ 19 < 2 ^ 63 ∧
      l.text = .error (.of .overflow) ∧ ¬ ∃ text, l.text = .ok text ∧
        Renders text 9000000000000000000 19 := by
  refine ⟨⟨.int 9000000000000000000, .decimal, .decimal, 19, 0, 0, 0⟩, rfl, rfl, rfl, by decide,
    by decide, ?_⟩
  rintro ⟨text, h, -⟩
  cases h

end QueryPlan.Literal
