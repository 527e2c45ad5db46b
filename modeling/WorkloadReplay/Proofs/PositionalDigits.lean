import Mathlib.Algebra.Group.Nat.Defs
import Mathlib.Data.List.Induction

/-!
# Positional digits

Numbers are written to the base ten and to the base sixteen. What holds for every base is said once,
of the digits that a number is written with and the number that digits are read as. A number is read
from its digits, of which there are not too many and the first is no zero unless it is the only one.
Digits without a zero in front are those that their number is written with, so writing the number of
any digits leaves out the zeros in front of them.
-/

namespace WorkloadReplay

/-! ## Leading zeros -/

/-- The digits without the zeros in front; a zero if none are left. -/
def withoutZeros (ds : List UInt8) : List UInt8 :=
  match ds.dropWhile (· = 0x30) with
  | [] => [0x30]
  | d :: rest => d :: rest

/-- Digits of which the first is no zero, unless it is the only one. -/
structure IsReduced (ds : List UInt8) : Prop where
  ne_nil : ds ≠ []
  eq_zero : ds.head? = some 0x30 → ds = [0x30]

section

variable {d : UInt8} {ds : List UInt8}

@[simp] theorem withoutZeros_nil : withoutZeros [] = [0x30] := rfl

@[simp] theorem withoutZeros_zero_cons : withoutZeros (0x30 :: ds) = withoutZeros ds := by
  simp [withoutZeros]

theorem withoutZeros_cons (h : d ≠ 0x30) : withoutZeros (d :: ds) = d :: ds := by
  simp [withoutZeros, h]

theorem isReduced_withoutZeros (ds : List UInt8) : IsReduced (withoutZeros ds) := by
  induction ds with
  | nil => exact ⟨by simp, fun _ => rfl⟩
  | cons d ds ih =>
    by_cases h : d = 0x30
    · simpa [h] using ih
    · rw [withoutZeros_cons h]
      exact ⟨by simp, fun hhead => absurd (Option.some.inj hhead) h⟩

theorem mem_of_mem_withoutZeros {c : UInt8} (h : c ∈ withoutZeros ds) : c = 0x30 ∨ c ∈ ds := by
  induction ds with
  | nil => exact .inl (List.mem_singleton.mp h)
  | cons d ds ih =>
    by_cases hd : d = 0x30
    · rw [hd, withoutZeros_zero_cons] at h
      exact (ih h).imp_right (List.mem_cons_of_mem d)
    · rw [withoutZeros_cons hd] at h
      exact .inr h

theorem IsReduced.head?_ne_zero (h : IsReduced (ds ++ [d])) (hds : ds ≠ []) :
    ds.head? ≠ some 0x30 := by
  intro hhead
  have hlast : ds ++ [d] = [0x30] := h.eq_zero (by rw [List.head?_append, hhead, Option.some_or])
  rcases List.append_eq_singleton_iff.mp hlast with ⟨hnil, -⟩ | ⟨-, hd⟩
  · exact hds hnil
  · exact List.cons_ne_nil d [] hd

end

/-! ## Writing and reading -/

/-- Numbers are written and read to a base, from one digit to the next. -/
structure Positional (base : Nat) (digit : Nat → UInt8) (value : UInt8 → Nat)
    (write : Nat → List UInt8) (read : List UInt8 → Nat) : Prop where
  two_le : 2 ≤ base
  write_eq (n : Nat) :
    write n = if n < base then [digit n] else write (n / base) ++ [digit (n % base)]
  read_eq (ds : List UInt8) : read ds = ds.foldl (fun v d => base * v + value d) 0
  value_digit {n : Nat} (hn : n < base) : value (digit n) = n
  digit_zero : digit 0 = 0x30

namespace Positional

variable {base : Nat} {digit : Nat → UInt8} {value : UInt8 → Nat} {write : Nat → List UInt8}
  {read : List UInt8 → Nat}

theorem read_append (h : Positional base digit value write read) (ds : List UInt8) (d : UInt8) :
    read (ds ++ [d]) = base * read ds + value d := by
  simp [h.read_eq, List.foldl_append]

theorem read_nil (h : Positional base digit value write read) : read [] = 0 := h.read_eq []

theorem write_of_lt (h : Positional base digit value write read) {n : Nat} (hn : n < base) :
    write n = [digit n] := by
  rw [h.write_eq, if_pos hn]

theorem write_zero (h : Positional base digit value write read) : write 0 = [0x30] := by
  have htwo := h.two_le
  rw [h.write_of_lt (by omega), h.digit_zero]

theorem value_zero (h : Positional base digit value write read) : value 0x30 = 0 := by
  have htwo := h.two_le
  rw [← h.digit_zero]
  exact h.value_digit (by omega)

theorem write_induction (h : Positional base digit value write read)
    {P : Nat → List UInt8 → Prop} (hdigit : ∀ n, n < base → P n [digit n])
    (hstep : ∀ n, base ≤ n → P (n / base) (write (n / base)) →
      P n (write (n / base) ++ [digit (n % base)])) (n : Nat) : P n (write n) := by
  induction n using Nat.strongRecOn with
  | ind n ih =>
    rw [h.write_eq]
    split
    · rename_i hn
      exact hdigit n hn
    · rename_i hn
      have htwo := h.two_le
      apply hstep n (by omega)
      apply ih
      exact Nat.div_lt_self (by omega) htwo

theorem read_write (h : Positional base digit value write read) (n : Nat) : read (write n) = n := by
  have htwo := h.two_le
  apply h.write_induction (P := fun n ds => read ds = n)
  · intro n hn
    rw [← List.nil_append [digit n], h.read_append, h.read_nil, h.value_digit hn, Nat.mul_zero,
      Nat.zero_add]
  · intro n _ hquotient
    rw [h.read_append, hquotient, h.value_digit (Nat.mod_lt n (by omega)), Nat.div_add_mod]

theorem write_ne_nil (h : Positional base digit value write read) (n : Nat) : write n ≠ [] := by
  apply h.write_induction (P := fun _ ds => ds ≠ [])
  · intro n _
    exact List.cons_ne_nil _ _
  · intro n _ _
    exact List.append_ne_nil_of_right_ne_nil _ (List.cons_ne_nil _ _)

theorem exists_digit_of_mem_write (h : Positional base digit value write read) (n : Nat) :
    ∀ d ∈ write n, ∃ m, m < base ∧ digit m = d := by
  have htwo := h.two_le
  apply h.write_induction (P := fun _ ds => ∀ d ∈ ds, ∃ m, m < base ∧ digit m = d)
  · intro n hn d hd
    exact ⟨n, hn, (List.mem_singleton.mp hd).symm⟩
  · intro n _ hfront d hd
    rcases List.mem_append.mp hd with hd | hd
    · exact hfront d hd
    · exact ⟨n % base, Nat.mod_lt n (by omega), (List.mem_singleton.mp hd).symm⟩

/-- Below a power of the base, a number has not more digits than the exponent. -/
theorem length_write_le (h : Positional base digit value write read) {n k : Nat}
    (hn : n < base ^ (k + 1)) : (write n).length ≤ k + 1 := by
  induction k generalizing n with
  | zero =>
    rw [h.write_of_lt (by simpa using hn)]
    exact Nat.le_refl 1
  | succ k ih =>
    rw [h.write_eq]
    split
    · exact Nat.le_add_left 1 (k + 1)
    · have hquotient : n / base < base ^ (k + 1) := by
        apply Nat.div_lt_of_lt_mul
        rwa [Nat.mul_comm, ← pow_succ]
      have hfront := ih hquotient
      rw [List.length_append, List.length_singleton]
      omega

theorem read_zero_cons (h : Positional base digit value write read) (ds : List UInt8) :
    read (0x30 :: ds) = read ds := by
  simp [h.read_eq, h.value_zero]

theorem read_withoutZeros (h : Positional base digit value write read) (ds : List UInt8) :
    read (withoutZeros ds) = read ds := by
  induction ds with
  | nil => rw [withoutZeros_nil, h.read_zero_cons]
  | cons d ds ih =>
    by_cases hd : d = 0x30
    · rw [hd, withoutZeros_zero_cons, ih, h.read_zero_cons]
    · rw [withoutZeros_cons hd]

theorem write_add (h : Positional base digit value write read) {n d : Nat} (hn : 0 < n)
    (hd : d < base) : write (base * n + d) = write n ++ [digit d] := by
  have hle : base ≤ base * n := Nat.le_mul_of_pos_right base hn
  have hquotient : (base * n + d) / base = n := by
    rw [Nat.mul_add_div (by omega), Nat.div_eq_of_lt hd, Nat.add_zero]
  have hremainder : (base * n + d) % base = d := by
    rw [Nat.mul_add_mod, Nat.mod_eq_of_lt hd]
  rw [h.write_eq, if_neg (by omega), hquotient, hremainder]

/-- Reduced digits are those that their number is written with. -/
theorem write_read_of_isReduced (h : Positional base digit value write read) {ds : List UInt8}
    (hdigits : ∀ d ∈ ds, ∃ n, n < base ∧ digit n = d) (hds : IsReduced ds) :
    write (read ds) = ds := by
  induction ds using List.reverseRecOn with
  | nil => exact absurd rfl hds.ne_nil
  | append_singleton ds d ih =>
    obtain ⟨hfront, hlast⟩ := List.forall_mem_append.mp hdigits
    obtain ⟨n, hn, rfl⟩ := hlast d (List.mem_singleton_self d)
    rw [h.read_append, h.value_digit hn]
    by_cases hnil : ds = []
    · rw [hnil, h.read_nil, Nat.mul_zero, Nat.zero_add, h.write_of_lt hn, List.nil_append]
    · have hhead := hds.head?_ne_zero hnil
      have hwrite : write (read ds) = ds :=
        ih hfront ⟨hnil, fun hzero => absurd hzero hhead⟩
      have hpos : 0 < read ds := by
        apply Nat.pos_of_ne_zero
        intro hzero
        rw [hzero, h.write_zero] at hwrite
        exact hhead (by rw [← hwrite, List.head?_cons])
      rw [h.write_add hpos hn, hwrite]

/-- A number that was read is written without the zeros in front. -/
theorem write_read (h : Positional base digit value write read) {ds : List UInt8}
    (hdigits : ∀ d ∈ ds, ∃ n, n < base ∧ digit n = d) : write (read ds) = withoutZeros ds := by
  have htwo := h.two_le
  rw [← h.read_withoutZeros]
  apply h.write_read_of_isReduced _ (isReduced_withoutZeros ds)
  intro d hd
  rcases mem_of_mem_withoutZeros hd with rfl | hd
  · exact ⟨0, by omega, h.digit_zero⟩
  · exact hdigits d hd

theorem isReduced_write (h : Positional base digit value write read) (n : Nat) :
    IsReduced (write n) := by
  have hwrite := h.write_read (h.exists_digit_of_mem_write n)
  rw [h.read_write] at hwrite
  rw [hwrite]
  exact isReduced_withoutZeros _

/-- Digits are read as a number below the power of the base with their length. -/
theorem read_lt_pow (h : Positional base digit value write read) {ds : List UInt8}
    (hdigits : ∀ d ∈ ds, ∃ n, n < base ∧ digit n = d) : read ds < base ^ ds.length := by
  induction ds using List.reverseRecOn with
  | nil => rw [h.read_nil, List.length_nil, pow_zero]; exact Nat.one_pos
  | append_singleton ds d ih =>
    obtain ⟨hfront, hlast⟩ := List.forall_mem_append.mp hdigits
    obtain ⟨n, hn, rfl⟩ := hlast d (List.mem_singleton_self d)
    have hds : read ds + 1 ≤ base ^ ds.length := ih hfront
    calc read (ds ++ [digit n]) = base * read ds + n := by rw [h.read_append, h.value_digit hn]
      _ < base * read ds + base := by omega
      _ = base * (read ds + 1) := by rw [Nat.mul_add, Nat.mul_one]
      _ ≤ base * base ^ ds.length := Nat.mul_le_mul_left base hds
      _ = base ^ (ds ++ [digit n]).length := by
        rw [List.length_append, List.length_singleton, pow_succ, Nat.mul_comm]

end Positional

end WorkloadReplay
