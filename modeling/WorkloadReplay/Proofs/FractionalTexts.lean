import WorkloadReplay.Proofs.NumberTexts
import WorkloadReplay.Value.Inference

/-!
# The form of a fraction

The check of a logged text for a number with a point or an exponent goes through its bytes once and
keeps what it has seen. From what it has seen follows which bytes may come: behind an exponent's
letter the rest of an exponent, behind the point digits and an exponent, and at the front a whole
number of this form. So the texts that pass are those of the grammar of such numbers.
-/

namespace WorkloadReplay.Value
open Numeral

namespace Seen

theorem accepts_cons (seen : Seen) (b : UInt8) (rest : List UInt8) :
    seen.accepts (b :: rest) = (seen.step? b).any (accepts · rest) := by
  rw [accepts, List.foldlM_cons]
  exact Option.any_bind

structure Plain (b : UInt8) : Prop where
  isLetter : isLetter b = false
  isSign : isSign b = false

theorem isLetter_iff {b : UInt8} : isLetter b = true ↔ b = 0x65 ∨ b = 0x45 := by
  rw [isLetter, Bool.or_eq_true, decide_eq_true_eq, decide_eq_true_eq]

theorem isSign_iff {b : UInt8} : isSign b = true ↔ b = 0x2B ∨ b = 0x2D := by
  rw [isSign, Bool.or_eq_true, decide_eq_true_eq, decide_eq_true_eq]

theorem plain_of_isDigit {b : UInt8} (h : isDigit b = true) : Plain b := by
  constructor
  · rw [← Bool.not_eq_true, isLetter_iff]
    rintro (rfl | rfl) <;> cases h
  · rw [← Bool.not_eq_true, isSign_iff]
    rintro (rfl | rfl) <;> cases h

theorem isLetter_of_isSign {b : UInt8} (h : isSign b = true) : isLetter b = false := by
  rcases isSign_iff.mp h with rfl | rfl <;> rfl

theorem step?_of_isDigit {b : UInt8} (h : isDigit b = true) (seen : Seen) :
    seen.step? b = some { seen with digit := true, previous := b } := if_pos h

theorem step?_of_isSign {b : UInt8} (h : isSign b = true) {seen : Seen}
    (hletter : isLetter seen.previous = true) :
    seen.step? b = some { seen with previous := b } := by
  have hother : isDigit b = false ∧ b ≠ 0x2E ∧ isLetter b = false := by
    rcases isSign_iff.mp h with rfl | rfl <;> decide
  simp [step?, h, hletter, hother]

/-! ## From the last part of a number to the first -/

theorem accepts_exponentDigits {point : Bool} {previous : UInt8} (h : Plain previous)
    (b : List UInt8) : accepts ⟨true, point, true, previous⟩ b = b.all isDigit := by
  induction b generalizing previous with
  | nil => simp [accepts, isFraction, h.isLetter, h.isSign]
  | cons c rest ih =>
    rw [accepts_cons, List.all_cons]
    cases hc : isDigit c with
    | true =>
      rw [step?_of_isDigit hc, Option.any_some, ih (plain_of_isDigit hc), Bool.true_and]
    | false => simp [step?, hc, h.isLetter]

theorem accepts_exponentSign {point : Bool} {previous : UInt8} (h : isSign previous = true)
    (b : List UInt8) : accepts ⟨true, point, true, previous⟩ b = isNumeral b := by
  cases b with
  | nil => simp [accepts, isFraction, h, isNumeral]
  | cons c rest =>
    rw [accepts_cons]
    cases hc : isDigit c with
    | true =>
      rw [step?_of_isDigit hc, Option.any_some, accepts_exponentDigits (plain_of_isDigit hc)]
      simp [isNumeral, hc]
    | false => simp [step?, hc, isLetter_of_isSign h, isNumeral]

theorem exponent?_of_sign {b : UInt8} (h : isSign b = true) (ds : List UInt8) :
    (Double.exponent? (b :: ds)).isSome = isNumeral ds := by
  rcases isSign_iff.mp h with rfl | rfl <;> cases hn : isNumeral ds <;>
    simp [Double.exponent?, hn]

theorem exponent?_of_digits {b : UInt8} (h : isSign b = false) (ds : List UInt8) :
    (Double.exponent? (b :: ds)).isSome = isNumeral (b :: ds) := by
  rw [Double.exponent?]
  · cases isNumeral (b :: ds) <;> rfl
  · rintro _ ⟨⟩
    cases h
  · rintro _ ⟨⟩
    cases h

theorem accepts_exponentLetter (point : Bool) {letter : UInt8} (h : isLetter letter = true)
    (b : List UInt8) :
    accepts ⟨true, point, true, letter⟩ b = (Double.exponent? b).isSome := by
  cases b with
  | nil => simp [accepts, isFraction, h, Double.exponent?, isNumeral]
  | cons c rest =>
    rw [accepts_cons]
    cases hsign : isSign c with
    | true =>
      rw [step?_of_isSign hsign h, Option.any_some, accepts_exponentSign hsign,
        exponent?_of_sign hsign]
    | false =>
      rw [exponent?_of_digits hsign]
      cases hc : isDigit c with
      | true =>
        rw [step?_of_isDigit hc, Option.any_some, accepts_exponentDigits (plain_of_isDigit hc)]
        simp [isNumeral, hc]
      | false => simp [step?, hc, hsign, isNumeral]

/-- Behind the digits of a mantissa there is an exponent or nothing. -/
theorem accepts_behindMantissa {digit point : Bool} {previous : UInt8} (h : Plain previous)
    {b : List UInt8} (hdigit : ∀ c ∈ b.head?, isDigit c = false)
    (hpoint : point = true ∨ b.head? ≠ some 0x2E) :
    accepts ⟨digit, point, false, previous⟩ b =
      (digit && (point || !b.isEmpty) && (Double.exponentPart? b).isSome) := by
  cases b with
  | nil => simp [accepts, isFraction, h.isLetter, h.isSign, Double.exponentPart?]
  | cons c rest =>
    have hc : isDigit c = false := hdigit c rfl
    have hmiddle : (c = 0x2E && !point) = false := by
      rcases hpoint with rfl | hpoint
      · exact Bool.and_false _
      · rw [decide_eq_false (fun heq => hpoint (congrArg some heq)), Bool.false_and]
    rw [accepts_cons, Double.exponentPart?]
    cases hletter : isLetter c with
    | true =>
      rw [if_pos (Double.lower_eq_e_iff.mpr (isLetter_iff.mp hletter)),
        ← accepts_exponentLetter point hletter]
      cases digit <;> simp [step?, hc, hmiddle, hletter, h.isLetter]
    | false =>
      rw [if_neg (by rwa [Double.lower_eq_e_iff, ← isLetter_iff, Bool.not_eq_true])]
      simp [step?, hc, hmiddle, hletter, h.isLetter]

theorem exists_accepts_digits (digit point exponent : Bool) {previous : UInt8}
    (h : Plain previous) (ds : List UInt8) (hds : ∀ d ∈ ds, isDigit d = true) :
    ∃ last, Plain last ∧ ∀ rest, accepts ⟨digit, point, exponent, previous⟩ (ds ++ rest) =
      accepts ⟨digit || !ds.isEmpty, point, exponent, last⟩ rest := by
  induction ds generalizing digit previous with
  | nil => exact ⟨previous, h, by simp⟩
  | cons d ds ih =>
    have hd := hds d List.mem_cons_self
    obtain ⟨last, hlast, hrest⟩ :=
      ih true (plain_of_isDigit hd) fun c hc => hds c (List.mem_cons_of_mem d hc)
    refine ⟨last, hlast, fun rest => ?_⟩
    rw [List.cons_append, accepts_cons, step?_of_isDigit hd, Option.any_some, hrest]
    simp

theorem head?_dropWhile_isDigit (b : List UInt8) :
    ∀ c ∈ (b.dropWhile isDigit).head?, isDigit c = false := by
  intro c hc
  have := List.head?_dropWhile_not isDigit b
  rw [hc] at this
  exact this

theorem accepts_behindPoint {digit : Bool} {previous : UInt8} (h : Plain previous)
    (b : List UInt8) : accepts ⟨digit, true, false, previous⟩ b =
      ((digit || !(b.takeWhile isDigit).isEmpty) &&
        (Double.exponentPart? (b.dropWhile isDigit)).isSome) := by
  obtain ⟨last, hlast, hrest⟩ := exists_accepts_digits digit true false h
    (b.takeWhile isDigit) fun d hd => List.mem_takeWhile_imp hd
  rw [← List.takeWhile_append_dropWhile (p := isDigit) (l := b), hrest,
    accepts_behindMantissa hlast (head?_dropWhile_isDigit b) (.inl rfl)]
  simp

theorem accepts_point (digit : Bool) (previous : UInt8) (rest : List UInt8) :
    accepts ⟨digit, false, false, previous⟩ (0x2E :: rest) =
      accepts ⟨digit, true, false, 0x2E⟩ rest := by
  rw [accepts_cons]
  rfl

/-- From the start, a number of which not all are digits is accepted. -/
theorem accepts_start (b : List UInt8) : accepts ⟨false, false, false, 0⟩ b =
    (!b.all isDigit && (Double.decimal? b).isSome) := by
  have hb := List.takeWhile_append_dropWhile (p := isDigit) (l := b)
  have hwhole : ∀ d ∈ b.takeWhile isDigit, isDigit d = true := fun d hd => List.mem_takeWhile_imp hd
  have hhead := head?_dropWhile_isDigit b
  unfold Double.decimal? Double.mantissa
  generalize b.takeWhile isDigit = whole at hb hwhole ⊢
  generalize b.dropWhile isDigit = behind at hb hhead ⊢
  subst hb
  have hstart : Plain 0 := ⟨rfl, rfl⟩
  obtain ⟨last, hlast, hrest⟩ := exists_accepts_digits false false false hstart whole hwhole
  rw [hrest, Bool.false_or, List.all_append, List.all_eq_true.mpr hwhole, Bool.true_and]
  dsimp only
  split
  · rename_i rest
    rw [accepts_point, accepts_behindPoint ⟨rfl, rfl⟩]
    cases whole <;> cases hd : rest.takeWhile isDigit <;> simp [isDigit]
  · rename_i hpoint
    have hne : behind.head? ≠ some 0x2E := by
      intro hp
      obtain ⟨rest, hrest⟩ := List.head?_eq_some_iff.mp hp
      exact hpoint rest hrest
    rw [accepts_behindMantissa hlast hhead (.inr hne)]
    cases whole <;> cases behind <;> simp_all

end Seen

/-! ## The grammar -/

/-- A decimal number with a point or an exponent: a minus sign or none, digits with at most one
point and at least one digit, and then nothing or a letter `e` and digits with a sign or none. -/
inductive FractionalText : List UInt8 → Prop where
  | mk {sign : Sign} {whole fraction decimals exponent : List UInt8} {e : Int}
      (hsign : sign ≠ .plus) (hwhole : ∀ d ∈ whole, isDigit d = true)
      (hfraction : Double.Fraction fraction decimals) (hdigit : whole ++ decimals ≠ [])
      (hexponent : Double.Exponent exponent e) (hmark : fraction ≠ [] ∨ exponent ≠ []) :
      FractionalText (sign.bytes ++ (whole ++ (fraction ++ exponent)))

theorem all_isDigit_iff {whole fraction decimals exponent : List UInt8} {e : Int}
    (hwhole : ∀ d ∈ whole, isDigit d = true) (hfraction : Double.Fraction fraction decimals)
    (hexponent : Double.Exponent exponent e) :
    (whole ++ (fraction ++ exponent)).all isDigit = true ↔ fraction = [] ∧ exponent = [] := by
  rw [List.all_append, List.all_append, List.all_eq_true.mpr hwhole, Bool.true_and,
    Bool.and_eq_true]
  apply and_congr
  · cases hfraction with
    | absent => exact iff_of_true rfl rfl
    | present _ => exact iff_of_false (by simp [isDigit]) (List.cons_ne_nil _ _)
  · rcases hexponent.head with rfl | ⟨c, rest, rfl, hc, -⟩
    · exact iff_of_true rfl rfl
    · exact iff_of_false (by simp [hc]) (List.cons_ne_nil _ _)

theorem exists_sign (b : List UInt8) :
    ∃ sign : Sign, sign ≠ .plus ∧ b = sign.bytes ++ dropMinus b := by
  by_cases h : b.head? = some 0x2D
  · obtain ⟨rest, rfl⟩ := List.head?_eq_some_iff.mp h
    exact ⟨.minus, by simp, rfl⟩
  · rw [dropMinus_of_head h]
    exact ⟨.none, by simp, rfl⟩

theorem dropMinus_bytes_append {sign : Sign} {rest : List UInt8} (hsign : sign ≠ .plus)
    (h : rest.head? ≠ some 0x2D) : dropMinus (sign.bytes ++ rest) = rest := by
  cases sign with
  | none => exact dropMinus_of_head h
  | plus => exact absurd rfl hsign
  | minus => rfl

theorem fractionalText_iff {b : List UInt8} : FractionalText b ↔
    (dropMinus b).all isDigit = false ∧ ∃ m, Double.decimal? (dropMinus b) = some m := by
  constructor
  · rintro ⟨hsign, hwhole, hfraction, hdigit, hexponent, hmark⟩
    rename_i sign whole fraction decimals exponent e
    have hhead : (whole ++ (fraction ++ exponent)).head? ≠ some 0x2D := by
      obtain ⟨c, rest, hb, hc⟩ := Double.exists_head_of_decimal exponent hwhole hfraction hdigit
      rw [hb, List.head?_cons]
      rintro ⟨⟩
      revert hc
      decide
    rw [dropMinus_bytes_append hsign hhead]
    refine ⟨?_, _, Double.decimal?_eq_some_iff.mpr
      ⟨whole, fraction, decimals, exponent, e, hwhole, hfraction, hdigit, hexponent, rfl, rfl⟩⟩
    rw [← Bool.not_eq_true, all_isDigit_iff hwhole hfraction hexponent]
    exact not_and_or.mpr hmark
  · rintro ⟨hall, m, hm⟩
    obtain ⟨sign, hsign, hb⟩ := exists_sign b
    obtain ⟨whole, fraction, decimals, exponent, e, hwhole, hfraction, hdigit, hexponent, hparts,
      -⟩ := Double.decimal?_eq_some_iff.mp hm
    rw [hparts, ← Bool.not_eq_true, all_isDigit_iff hwhole hfraction hexponent] at hall
    rw [hb, hparts]
    exact .mk hsign hwhole hfraction hdigit hexponent (not_and_or.mp hall)

/-- The check passes the grammar's texts and no others. -/
theorem looksFractional_iff {b : List UInt8} : looksFractional b = true ↔ FractionalText b := by
  rw [looksFractional, Seen.accepts_start, fractionalText_iff, Bool.and_eq_true,
    Bool.not_eq_true', Option.isSome_iff_exists]

theorem fractional?_eq_some_iff {b : List UInt8} {x : Double} : fractional? b = some x ↔
    FractionalText b ∧ Double.ofText? b = some x ∧ x.isFinite = true := by
  rw [fractional?, Option.ite_none_right_eq_some, looksFractional_iff, Option.filter_eq_some_iff]

theorem exists_ofText?_of_fractionalText {b : List UInt8} (h : FractionalText b) :
    ∃ x, Double.ofText? b = some x := by
  obtain ⟨-, hwhole, hfraction, hdigit, hexponent, -⟩ := h
  exact ⟨_, Double.ofText?_eq_some_iff.mpr
    ⟨_, _, rfl, .decimal hwhole hfraction hdigit hexponent⟩⟩

end WorkloadReplay.Value
