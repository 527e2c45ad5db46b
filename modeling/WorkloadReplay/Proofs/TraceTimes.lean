import WorkloadReplay.Double.Text
import WorkloadReplay.Proofs.PositionalDigits
import WorkloadReplay.Trace.Format

/-!
# Times read back

The hexadecimal digits of a time read back as that time, negative ones included: a 64-bit word never
has too many of them. A time is read from one to sixteen hexadecimal digits of either case, and from
nothing else. Two such texts are the same time exactly if they are the same in lower case and
without the zeros in front, which is how the time is written.
-/

namespace WorkloadReplay.Trace
open Double (lower)

theorem hexValue_hexDigit : ∀ n < 16, hexValue (hexDigit n) = n := by decide

theorem isHexDigit_hexDigit : ∀ n < 16, isHexDigit (hexDigit n) = true := by decide

theorem positional : Positional 16 hexDigit hexValue hexDigits hexNumber where
  two_le := by omega
  write_eq n := by rw [hexDigits]
  read_eq _ := rfl
  value_digit hn := hexValue_hexDigit _ hn
  digit_zero := rfl

@[simp] theorem hexNumber_hexDigits (n : Nat) : hexNumber (hexDigits n) = n :=
  positional.read_write n

theorem isHexDigit_of_mem_hexDigits {n : Nat} : ∀ b ∈ hexDigits n, isHexDigit b = true := by
  intro b hb
  obtain ⟨m, hm, rfl⟩ := positional.exists_digit_of_mem_write n b hb
  exact isHexDigit_hexDigit m hm

theorem decodeTime_encodeTime (t : Int64) : decodeTime (encodeTime t) = .ok t := by
  have hne := positional.write_ne_nil t.toUInt64.toNat
  have hlen : (hexDigits t.toUInt64.toNat).length ≤ 16 :=
    positional.length_write_le t.toUInt64.toNat_lt
  have hall : (hexDigits t.toUInt64.toNat).all isHexDigit = true :=
    List.all_eq_true.mpr isHexDigit_of_mem_hexDigits
  simp [decodeTime, encodeTime, hne, maxTimeDigits, hlen, hall]

theorem encodeTime_injective {t t' : Int64} (h : encodeTime t = encodeTime t') : t = t' := by
  have hread := decodeTime_encodeTime t
  rw [h, decodeTime_encodeTime] at hread
  exact (Except.ok.inj hread).symm

/-! ## Digits of either case -/

/-- The hexadecimal digits of either case. -/
def hexAlphabet : List UInt8 := Text.bytes "0123456789abcdefABCDEF"

theorem isHexDigit_iff (d : UInt8) : isHexDigit d = true ↔ d ∈ hexAlphabet := by
  have hall : ∀ n < 256, isHexDigit (UInt8.ofNat n) = true ↔ UInt8.ofNat n ∈ hexAlphabet := by
    decide +kernel
  have hd := hall d.toNat d.toNat_lt
  rwa [UInt8.ofNat_toNat] at hd

theorem hexValue_lt : ∀ d ∈ hexAlphabet, hexValue d < 16 := by
  decide +kernel

theorem hexValue_lower : ∀ d ∈ hexAlphabet, hexValue (lower d) = hexValue d := by
  decide +kernel

theorem hexDigit_hexValue : ∀ d ∈ hexAlphabet, hexDigit (hexValue d) = lower d := by
  decide +kernel

section

variable {ds : List UInt8}

theorem hexNumber_map_lower (h : ∀ d ∈ ds, d ∈ hexAlphabet) :
    hexNumber (ds.map lower) = hexNumber ds := by
  induction ds using List.reverseRecOn with
  | nil => rfl
  | append_singleton ds d ih =>
    obtain ⟨hfront, hlast⟩ := List.forall_mem_append.mp h
    rw [List.map_append, List.map_singleton, positional.read_append, positional.read_append,
      ih hfront, hexValue_lower d (hlast d (List.mem_singleton_self d))]

theorem exists_digit_of_mem_map_lower (h : ∀ d ∈ ds, d ∈ hexAlphabet) :
    ∀ d ∈ ds.map lower, ∃ n, n < 16 ∧ hexDigit n = d := by
  intro d hd
  obtain ⟨c, hc, rfl⟩ := List.mem_map.mp hd
  exact ⟨hexValue c, hexValue_lt c (h c hc), hexDigit_hexValue c (h c hc)⟩

theorem hexDigits_hexNumber (h : ∀ d ∈ ds, d ∈ hexAlphabet) :
    hexDigits (hexNumber ds) = withoutZeros (ds.map lower) := by
  rw [← hexNumber_map_lower h]
  exact positional.write_read (exists_digit_of_mem_map_lower h)

theorem hexNumber_lt (h : ∀ d ∈ ds, d ∈ hexAlphabet) : hexNumber ds < 16 ^ ds.length := by
  have hlength : (ds.map lower).length = ds.length := List.length_map lower
  rw [← hexNumber_map_lower h, ← hlength]
  exact positional.read_lt_pow (exists_digit_of_mem_map_lower h)

end

/-! ## What is read -/

structure IsHexText (b : List UInt8) : Prop where
  one_le : 1 ≤ b.length
  le_sixteen : b.length ≤ 16
  digits : ∀ d ∈ b, d ∈ hexAlphabet

theorem isHexText_iff {b : List UInt8} :
    IsHexText b ↔ b ≠ [] ∧ b.length ≤ maxTimeDigits ∧ ∀ d ∈ b, isHexDigit d = true := by
  simp only [isHexDigit_iff]
  constructor
  · intro h
    exact ⟨List.ne_nil_of_length_pos h.one_le, h.le_sixteen, h.digits⟩
  · intro ⟨hne, hlength, hdigits⟩
    exact ⟨List.length_pos_iff.mpr hne, hlength, hdigits⟩

theorem decodeTime_of_isHexText {b : List UInt8} (h : IsHexText b) :
    decodeTime b = .ok (UInt64.ofNat (hexNumber b)).toInt64 := by
  obtain ⟨hne, hlength, hdigits⟩ := isHexText_iff.mp h
  have hall : b.all isHexDigit = true := List.all_eq_true.mpr hdigits
  simp [decodeTime, hne, hlength, hall]

theorem decodeTime_of_not_isHexText {b : List UInt8} (h : ¬ IsHexText b) :
    decodeTime b = .error (.invalidHex (Text.lossy b)) := by
  rw [isHexText_iff] at h
  rw [decodeTime, if_neg]
  simpa [and_assoc] using h

theorem encodeTime_ofNat {b : List UInt8} (h : IsHexText b) :
    encodeTime (UInt64.ofNat (hexNumber b)).toInt64 = withoutZeros (b.map lower) := by
  have hlt : hexNumber b < UInt64.size := calc
    hexNumber b < 16 ^ b.length := hexNumber_lt h.digits
    _ ≤ 16 ^ 16 := Nat.pow_le_pow_right (by omega) h.le_sixteen
  rw [encodeTime, UInt64.toUInt64_toInt64, UInt64.toNat_ofNat_of_lt' hlt,
    hexDigits_hexNumber h.digits]

/-- The answer to bytes that are read as a time, by the text that the time is written with. -/
structure ReadsTime (b : List UInt8) (answer : Except Fault Int64) : Prop where
  accepted : (∃ t, answer = .ok t) ↔ IsHexText b
  time (t : Int64) : answer = .ok t ↔ IsHexText b ∧ encodeTime t = withoutZeros (b.map lower)
  refused : answer = .error (.invalidHex (Text.lossy b)) ↔ ¬ IsHexText b

theorem readsTime (b : List UInt8) : ReadsTime b (decodeTime b) := by
  by_cases h : IsHexText b
  · rw [decodeTime_of_isHexText h]
    refine ⟨iff_of_true ⟨_, rfl⟩ h, fun t => ?_, iff_of_false nofun (not_not_intro h)⟩
    rw [← encodeTime_ofNat h, Except.ok.injEq]
    constructor
    · intro ht
      exact ⟨h, congrArg encodeTime ht.symm⟩
    · intro ht
      exact encodeTime_injective ht.2.symm
  · rw [decodeTime_of_not_isHexText h]
    exact ⟨iff_of_false nofun h, fun t => iff_of_false nofun fun ht => h ht.1, iff_of_true rfl h⟩

/-- Every time is read from its text again. One to sixteen digits are read as the time that is
written with the same digits in lower case, without the zeros in front, and nothing else is read. -/
theorem times_read_and_written :
    (∀ t : Int64, decodeTime (encodeTime t) = .ok t) ∧
      ∀ b : List UInt8, ReadsTime b (decodeTime b) :=
  ⟨decodeTime_encodeTime, readsTime⟩

example : encodeTime (-1) = Text.bytes "ffffffffffffffff" ∧
    decodeTime (Text.bytes "00fF") = .ok 255 ∧ encodeTime 255 = Text.bytes "ff" := by
  decide +kernel

end WorkloadReplay.Trace
