import WorkloadReplay.Double.Text
import WorkloadReplay.Proofs.SignedNumerals
import WorkloadReplay.Proofs.TextBytes
import Mathlib.Data.List.TakeWhile

/-!
# The texts of numbers

A signed word is read from an optional sign and digits of any number whose value is in range. A
double precision number is read from an optional sign and a word for what is not finite, or digits
with at most one point, of which there is at least one, with an optional exponent. No other text is
read as a number, and none in two ways.
-/

namespace WorkloadReplay

namespace Numeral

inductive Sign where
  | none
  | plus
  | minus
  deriving DecidableEq

namespace Sign

def bytes : Sign → List UInt8
  | none => []
  | plus => [0x2B]
  | minus => [0x2D]

def isNegative : Sign → Bool
  | minus => true
  | none | plus => false

def apply : Sign → Int → Int
  | minus, n => -n
  | none, n | plus, n => n

end Sign

/-- The bytes are the text of a signed word: digits with its value, behind a sign or none. -/
def Spells (b : List UInt8) (v : Int64) : Prop :=
  ∃ (sign : Sign) (ds : List UInt8), b = sign.bytes ++ ds ∧ isNumeral ds = true ∧
    v.toInt = sign.apply (value ds)

theorem lt_of_isDigit {d : UInt8} (h : isDigit d = true) : d < 0x80 := by
  simp only [isDigit, Bool.and_eq_true, decide_eq_true_eq] at h
  exact UInt8.lt_of_le_of_lt h.2 (by decide)

theorem isDigit_of_isNumeral_cons {d : UInt8} {ds : List UInt8} (h : isNumeral (d :: ds) = true) :
    isDigit d = true := (isNumeral_iff.mp h).2 d List.mem_cons_self

/-- The integer that digits with an optional sign stand for, where `number` gives the one of the
digits alone. -/
def readSigned (number : List UInt8 → Nat) : List UInt8 → Option Int
  | 0x2D :: ds => if isNumeral ds then some (-(number ds : Int)) else none
  | 0x2B :: ds => if isNumeral ds then some (number ds) else none
  | ds => if isNumeral ds then some (number ds) else none

theorem readSigned_digits {number : List UInt8 → Nat} {ds : List UInt8}
    (h : isNumeral ds = true) : readSigned number ds = some (number ds : Int) := by
  unfold readSigned
  split
  · exact absurd (isDigit_of_isNumeral_cons h) (by decide)
  · exact absurd (isDigit_of_isNumeral_cons h) (by decide)
  · exact if_pos h

theorem readSigned_eq_some_iff {number : List UInt8 → Nat} {b : List UInt8} {i : Int} :
    readSigned number b = some i ↔
      ∃ (sign : Sign) (ds : List UInt8), b = sign.bytes ++ ds ∧ isNumeral ds = true ∧
        i = sign.apply (number ds) := by
  constructor
  · intro h
    unfold readSigned at h
    split at h
    all_goals
      simp only [Option.ite_none_right_eq_some, Option.some.injEq] at h
      obtain ⟨hn, rfl⟩ := h
    · exact ⟨.minus, _, rfl, hn, rfl⟩
    · exact ⟨.plus, _, rfl, hn, rfl⟩
    · exact ⟨.none, _, rfl, hn, rfl⟩
  · rintro ⟨sign, ds, rfl, hn, rfl⟩
    cases sign with
    | none => exact readSigned_digits hn
    | plus => exact if_pos hn
    | minus => exact if_pos hn

theorem int?_eq_readSigned : int? = readSigned value := by
  rw [← funext number_eq_value]
  rfl

theorem word?_eq_some_iff {i : Int} {v : Int64} : word? i = some v ↔ i = v.toInt := by
  unfold word?
  constructor
  · intro h
    split at h
    · rename_i hrange
      cases h
      exact (Int64.toInt_ofInt_of_le hrange.1 (Int.lt_add_one_of_le hrange.2)).symm
    · cases h
  · rintro rfl
    rw [if_pos ⟨v.minValue_le_toInt, v.toInt_le⟩, Int64.ofInt_toInt]

theorem int64?_eq_some_iff {b : List UInt8} {v : Int64} : int64? b = some v ↔ Spells b v := by
  rw [int64?, Option.bind_eq_some_iff]
  constructor
  · rintro ⟨i, hi, hv⟩
    rw [int?_eq_readSigned] at hi
    obtain ⟨sign, ds, rfl, hn, rfl⟩ := readSigned_eq_some_iff.mp hi
    exact ⟨sign, ds, rfl, hn, (word?_eq_some_iff.mp hv).symm⟩
  · rintro ⟨sign, ds, rfl, hn, hv⟩
    refine ⟨_, ?_, word?_eq_some_iff.mpr hv.symm⟩
    rw [int?_eq_readSigned]
    exact readSigned_eq_some_iff.mpr ⟨sign, ds, rfl, hn, rfl⟩

theorem Sign.lt_of_mem_bytes {sign : Sign} : ∀ c ∈ sign.bytes, c < 0x80 :=
  Text.ascii_of_all (by cases sign <;> decide)

theorem lt_of_isNumeral {ds : List UInt8} (h : isNumeral ds = true) : ∀ d ∈ ds, d < 0x80 :=
  fun d hd => lt_of_isDigit ((isNumeral_iff.mp h).2 d hd)

theorem Spells.ascii {b : List UInt8} {v : Int64} (h : Spells b v) : ∀ c ∈ b, c < 0x80 := by
  obtain ⟨sign, ds, rfl, hn, -⟩ := h
  exact List.forall_mem_append.mpr ⟨sign.lt_of_mem_bytes, lt_of_isNumeral hn⟩

end Numeral

namespace Double
open Numeral

/-- The part of a number behind its whole digits: nothing, or a point and more digits. -/
inductive Fraction : List UInt8 → List UInt8 → Prop where
  | absent : Fraction [] []
  | present {ds : List UInt8} (h : ∀ d ∈ ds, isDigit d = true) : Fraction (0x2E :: ds) ds

/-- The exponent of a number: nothing, or a letter `e` and digits behind a sign or none. -/
inductive Exponent : List UInt8 → Int → Prop where
  | absent : Exponent [] 0
  | present {letter : UInt8} {ds : List UInt8} (hletter : letter = 0x65 ∨ letter = 0x45)
      (sign : Sign) (h : isNumeral ds = true) :
      Exponent (letter :: (sign.bytes ++ ds)) (sign.apply (exponentOfDigits ds))

def infLetters : List UInt8 := [0x69, 0x6E, 0x66]
def infinityLetters : List UInt8 := [0x69, 0x6E, 0x66, 0x69, 0x6E, 0x69, 0x74, 0x79]
def nanLetters : List UInt8 := [0x6E, 0x61, 0x6E]

/-- The bytes behind the sign of a number are its text: letters of either case, or digits. -/
inductive SpellsUnsigned (negative : Bool) : List UInt8 → Double → Prop where
  | infinity {b : List UInt8} (h : b.map lower = infLetters ∨ b.map lower = infinityLetters) :
      SpellsUnsigned negative b (infinity negative)
  | notANumber {b : List UInt8} (h : b.map lower = nanLetters) :
      SpellsUnsigned negative b (notANumber negative)
  | decimal {whole fraction decimals exponent : List UInt8} {e : Int}
      (hwhole : ∀ d ∈ whole, isDigit d = true) (hfraction : Fraction fraction decimals)
      (hdigit : whole ++ decimals ≠ []) (hexponent : Exponent exponent e) :
      SpellsUnsigned negative (whole ++ (fraction ++ exponent))
        (ofMagnitude negative (ofDigits (whole ++ decimals) (e - decimals.length)))

def Spells (b : List UInt8) (x : Double) : Prop :=
  ∃ (sign : Sign) (rest : List UInt8), b = sign.bytes ++ rest ∧
    SpellsUnsigned sign.isNegative rest x

theorem lower_eq_self {b : UInt8} (h : b < 0x41) : lower b = b := by
  have hnot : ¬ (0x41 ≤ b ∧ b ≤ 0x5A) := fun hb => absurd (UInt8.lt_of_lt_of_le h hb.1) (by simp)
  simp [lower, hnot]

theorem lower_eq_e_iff {b : UInt8} : lower b = 0x65 ↔ b = 0x65 ∨ b = 0x45 := by
  unfold lower
  split
  · rename_i h
    have hcapital : b + 0x20 = 0x65 ↔ b = 0x45 := UInt8.add_left_inj (b := 0x45) 0x20
    have hb : b ≠ 0x65 := by
      rintro rfl
      revert h
      decide
    simp [hcapital, hb]
  · rename_i h
    have hb : b ≠ 0x45 := by
      rintro rfl
      revert h
      decide
    simp [hb]

theorem exponent?_eq_readSigned : exponent? = readSigned exponentOfDigits := rfl

theorem exponentPart?_eq_some_iff {b : List UInt8} {e : Int} :
    exponentPart? b = some e ↔ Exponent b e := by
  cases b with
  | nil =>
    simp only [exponentPart?, Option.some.injEq]
    constructor
    · rintro rfl
      exact .absent
    · rintro ⟨⟩
      rfl
  | cons letter rest =>
    simp only [exponentPart?, Option.ite_none_right_eq_some, lower_eq_e_iff,
      exponent?_eq_readSigned, readSigned_eq_some_iff]
    constructor
    · rintro ⟨hletter, sign, ds, rfl, hn, rfl⟩
      exact .present hletter sign hn
    · rintro ⟨⟩
      rename_i ds sign hn hletter
      exact ⟨hletter, sign, ds, rfl, hn, rfl⟩

/-- What stands behind the digits of a number begins with no digit and no point. -/
theorem Exponent.head {b : List UInt8} {e : Int} (h : Exponent b e) :
    b = [] ∨ ∃ c rest, b = c :: rest ∧ isDigit c = false ∧ c ≠ 0x2E := by
  cases h with
  | absent => exact .inl rfl
  | present hletter sign h =>
    refine .inr ⟨_, _, rfl, ?_⟩
    rcases hletter with rfl | rfl <;> decide

theorem takeWhile_digits_append {ds : List UInt8} (rest : List UInt8)
    (hds : ∀ d ∈ ds, isDigit d = true)
    (hrest : rest = [] ∨ ∃ c more, rest = c :: more ∧ isDigit c = false) :
    (ds ++ rest).takeWhile isDigit = ds ∧ (ds ++ rest).dropWhile isDigit = rest := by
  rw [List.takeWhile_append_of_pos hds, List.dropWhile_append_of_pos hds]
  rcases hrest with rfl | ⟨c, more, rfl, hc⟩
  · simp
  · simp [hc]

theorem mantissa_append {whole fraction decimals exponent : List UInt8} {e : Int}
    (hwhole : ∀ d ∈ whole, isDigit d = true) (hfraction : Fraction fraction decimals)
    (hexponent : Exponent exponent e) :
    mantissa (whole ++ (fraction ++ exponent)) = (whole, decimals, exponent) := by
  cases hfraction with
  | absent =>
    obtain ⟨htake, hdrop⟩ := takeWhile_digits_append exponent hwhole <|
      hexponent.head.imp id fun ⟨c, rest, hc, hdigit, _⟩ => ⟨c, rest, hc, hdigit⟩
    simp only [List.nil_append, mantissa, htake, hdrop]
    rcases hexponent.head with rfl | ⟨c, rest, rfl, -, hpoint⟩
    · rfl
    · split
      · rename_i heq
        exact absurd (List.cons_eq_cons.mp heq).1 hpoint
      · rfl
  | present hdecimals =>
    obtain ⟨htake, hdrop⟩ := takeWhile_digits_append _ hwhole
      (.inr ⟨0x2E, decimals ++ exponent, rfl, by decide⟩)
    obtain ⟨htake', hdrop'⟩ := takeWhile_digits_append exponent hdecimals <|
      hexponent.head.imp id fun ⟨c, rest, hc, hdigit, _⟩ => ⟨c, rest, hc, hdigit⟩
    simp only [List.cons_append, mantissa, htake, hdrop, htake', hdrop']

theorem mantissa_spec (b : List UInt8) :
    (∀ d ∈ (mantissa b).1, isDigit d = true) ∧
      ∃ fraction, Fraction fraction (mantissa b).2.1 ∧
        b = (mantissa b).1 ++ (fraction ++ (mantissa b).2.2) := by
  have hb := List.takeWhile_append_dropWhile (p := isDigit) (l := b)
  have hwhole : ∀ d ∈ b.takeWhile isDigit, isDigit d = true := fun d hd => List.mem_takeWhile_imp hd
  unfold mantissa
  dsimp only
  split
  · rename_i rest hd
    refine ⟨hwhole, _, .present fun d hd => List.mem_takeWhile_imp hd, ?_⟩
    rw [List.cons_append, List.takeWhile_append_dropWhile, ← hd, hb]
  · exact ⟨hwhole, [], .absent, hb.symm⟩

theorem decimal?_eq_some_iff {b : List UInt8} {m : Nat} :
    decimal? b = some m ↔ ∃ whole fraction decimals exponent e,
      (∀ d ∈ whole, isDigit d = true) ∧ Fraction fraction decimals ∧ whole ++ decimals ≠ [] ∧
        Exponent exponent e ∧ b = whole ++ (fraction ++ exponent) ∧
          m = ofDigits (whole ++ decimals) (e - decimals.length) := by
  constructor
  · intro h
    obtain ⟨hwhole, fraction, hfraction, hb⟩ := mantissa_spec b
    unfold decimal? at h
    generalize mantissa b = parts at h hwhole hfraction hb
    obtain ⟨whole, decimals, exponent⟩ := parts
    dsimp only at h hwhole hfraction hb
    split at h
    · cases h
    · rename_i hdigit
      obtain ⟨e, he, rfl⟩ := Option.map_eq_some_iff.mp h
      refine ⟨whole, fraction, decimals, exponent, e, hwhole, hfraction, ?_,
        exponentPart?_eq_some_iff.mp he, hb, rfl⟩
      simpa using hdigit
  · rintro ⟨whole, fraction, decimals, exponent, e, hwhole, hfraction, hdigit, hexponent, rfl, rfl⟩
    have hne : (whole.isEmpty && decimals.isEmpty) = false := by
      simpa [← Bool.not_eq_true] using hdigit
    simp [decimal?, mantissa_append hwhole hfraction hexponent, hne,
      exponentPart?_eq_some_iff.mpr hexponent]

theorem lt_letters {c : UInt8} (h : isDigit c = true ∨ c = 0x2E) : c < 0x41 := by
  rcases h with h | rfl
  · simp only [isDigit, Bool.and_eq_true, decide_eq_true_eq] at h
    exact UInt8.lt_of_le_of_lt h.2 (by decide)
  · decide

theorem exists_head_of_decimal {whole fraction decimals : List UInt8} (exponent : List UInt8)
    (hwhole : ∀ d ∈ whole, isDigit d = true) (hfraction : Fraction fraction decimals)
    (hdigit : whole ++ decimals ≠ []) :
    ∃ c rest, whole ++ (fraction ++ exponent) = c :: rest ∧ (isDigit c = true ∨ c = 0x2E) := by
  cases whole with
  | cons d whole => exact ⟨d, _, rfl, .inl (hwhole d List.mem_cons_self)⟩
  | nil =>
    cases hfraction with
    | absent => exact absurd rfl hdigit
    | present _ => exact ⟨0x2E, _, rfl, .inr rfl⟩

theorem decimal?_cons_eq_some {c : UInt8} {rest : List UInt8} {m : Nat}
    (h : decimal? (c :: rest) = some m) : isDigit c = true ∨ c = 0x2E := by
  obtain ⟨whole, fraction, decimals, exponent, e, hwhole, hfraction, hdigit, -, hb, -⟩ :=
    decimal?_eq_some_iff.mp h
  obtain ⟨d, more, hd, hhead⟩ := exists_head_of_decimal exponent hwhole hfraction hdigit
  obtain ⟨rfl, -⟩ := List.cons_eq_cons.mp (hb.trans hd)
  exact hhead

theorem decimal?_of_word {b word : List UInt8} {letter : UInt8} (hletter : 0x41 ≤ letter)
    (h : b.map lower = letter :: word) : decimal? b = none := by
  obtain ⟨c, rest, rfl, hc, -⟩ := List.map_eq_cons_iff.mp h
  cases hd : decimal? (c :: rest) with
  | none => rfl
  | some m =>
    have hlt := lt_letters (decimal?_cons_eq_some hd)
    rw [lower_eq_self hlt] at hc
    exact absurd (UInt8.lt_of_lt_of_le (hc ▸ hlt) hletter) (UInt8.lt_irrefl _)

theorem unsigned?_of_decimal? {b : List UInt8} {m : Nat} (h : decimal? b = some m)
    (negative : Bool) : unsigned? negative b = some (ofMagnitude negative m) := by
  have hword (letter : UInt8) (word : List UInt8) (hletter : 0x41 ≤ letter) :
      b.map lower ≠ letter :: word := by
    intro hw
    rw [decimal?_of_word hletter hw] at h
    cases h
  have hinf := hword 0x69 [0x6E, 0x66] (by decide)
  have hinfinity := hword 0x69 [0x6E, 0x66, 0x69, 0x6E, 0x69, 0x74, 0x79] (by decide)
  have hnan := hword 0x6E [0x61, 0x6E] (by decide)
  simp only [unsigned?, hinf, hinfinity, hnan, h, decide_false, Bool.or_self, Bool.false_eq_true,
    if_false, Option.map_some]

theorem unsigned?_eq_some_iff {negative : Bool} {b : List UInt8} {x : Double} :
    unsigned? negative b = some x ↔ SpellsUnsigned negative b x := by
  constructor
  · intro h
    unfold unsigned? at h
    dsimp only at h
    split_ifs at h with hinf hnan
    · cases h
      simp only [Bool.or_eq_true, decide_eq_true_eq] at hinf
      exact .infinity hinf
    · cases h
      exact .notANumber hnan
    · obtain ⟨m, hm, rfl⟩ := Option.map_eq_some_iff.mp h
      obtain ⟨whole, fraction, decimals, exponent, e, hwhole, hfraction, hdigit, hexponent, rfl,
        rfl⟩ := decimal?_eq_some_iff.mp hm
      exact .decimal hwhole hfraction hdigit hexponent
  · intro h
    cases h with
    | infinity h =>
      rcases h with h | h <;> simp [unsigned?, h, infLetters, infinityLetters]
    | notANumber h => simp [unsigned?, h, nanLetters]
    | decimal hwhole hfraction hdigit hexponent =>
      exact unsigned?_of_decimal? (decimal?_eq_some_iff.mpr
        ⟨_, _, _, _, _, hwhole, hfraction, hdigit, hexponent, rfl, rfl⟩) negative

theorem SpellsUnsigned.head_ne_sign {negative : Bool} {c : UInt8} {rest : List UInt8} {x : Double}
    (h : SpellsUnsigned negative (c :: rest) x) : c ≠ 0x2D ∧ c ≠ 0x2B := by
  generalize hb : c :: rest = b at h
  cases h with
  | infinity h =>
    subst hb
    constructor <;> rintro rfl <;> rcases h with h | h <;> cases h
  | notANumber h =>
    subst hb
    constructor <;> rintro rfl <;> cases h
  | @decimal whole fraction decimals exponent e hwhole hfraction hdigit _ =>
    obtain ⟨d, more, hd, hhead⟩ := exists_head_of_decimal exponent hwhole hfraction hdigit
    obtain ⟨rfl, -⟩ := List.cons_eq_cons.mp (hb.trans hd)
    constructor <;> rintro rfl <;> revert hhead <;> decide

theorem ofText?_eq_some_iff {b : List UInt8} {x : Double} : ofText? b = some x ↔ Spells b x := by
  constructor
  · intro h
    unfold ofText? at h
    split at h
    · exact ⟨.minus, _, rfl, unsigned?_eq_some_iff.mp h⟩
    · exact ⟨.plus, _, rfl, unsigned?_eq_some_iff.mp h⟩
    · exact ⟨.none, _, rfl, unsigned?_eq_some_iff.mp h⟩
  · rintro ⟨sign, rest, rfl, h⟩
    have hread := unsigned?_eq_some_iff.mpr h
    cases sign with
    | minus => exact hread
    | plus => exact hread
    | none =>
      rw [Sign.bytes, List.nil_append]
      unfold ofText?
      split
      · exact absurd rfl h.head_ne_sign.1
      · exact absurd rfl h.head_ne_sign.2
      · exact hread

theorem lt_of_lower_lt {c : UInt8} (h : lower c < 0x80) : c < 0x80 := by
  by_contra hc
  have hnot : ¬ (0x41 ≤ c ∧ c ≤ 0x5A) := fun hb =>
    hc (UInt8.lt_of_le_of_lt hb.2 (by decide))
  have hsame : lower c = c := by simp [lower, hnot]
  exact hc (hsame ▸ h)

theorem lt_of_map_lower {b word : List UInt8} (hword : ∀ c ∈ word, c < 0x80)
    (h : b.map lower = word) : ∀ c ∈ b, c < 0x80 :=
  fun _ hc => lt_of_lower_lt (hword _ (h ▸ List.mem_map_of_mem hc))

theorem Fraction.ascii {b decimals : List UInt8} (h : Fraction b decimals) :
    ∀ c ∈ b, c < 0x80 := by
  cases h with
  | absent => simp
  | present h =>
    exact List.forall_mem_cons.mpr ⟨by decide, fun d hd => lt_of_isDigit (h d hd)⟩

theorem Exponent.ascii {b : List UInt8} {e : Int} (h : Exponent b e) : ∀ c ∈ b, c < 0x80 := by
  cases h with
  | absent => simp
  | present hletter sign h =>
    refine List.forall_mem_cons.mpr
      ⟨?_, List.forall_mem_append.mpr ⟨sign.lt_of_mem_bytes, lt_of_isNumeral h⟩⟩
    rcases hletter with rfl | rfl <;> decide

theorem Spells.ascii {b : List UInt8} {x : Double} (h : Spells b x) : ∀ c ∈ b, c < 0x80 := by
  obtain ⟨sign, rest, rfl, h⟩ := h
  refine List.forall_mem_append.mpr ⟨sign.lt_of_mem_bytes, ?_⟩
  cases h with
  | infinity h =>
    rcases h with h | h
    · exact lt_of_map_lower (Text.ascii_of_all (by decide)) h
    · exact lt_of_map_lower (Text.ascii_of_all (by decide)) h
  | notANumber h => exact lt_of_map_lower (Text.ascii_of_all (by decide)) h
  | decimal hwhole hfraction _ hexponent =>
    exact List.forall_mem_append.mpr ⟨fun d hd => lt_of_isDigit (hwhole d hd),
      List.forall_mem_append.mpr ⟨hfraction.ascii, hexponent.ascii⟩⟩

end Double

end WorkloadReplay
