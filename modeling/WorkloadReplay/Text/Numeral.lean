/-!
# Decimal numerals

Numbers are written with ASCII digits, without leading zeros. Reading a signed word allows one sign
of either kind, any number of leading zeros, and nothing else.
-/

namespace WorkloadReplay.Numeral

def isDigit (b : UInt8) : Bool := 0x30 ≤ b && b ≤ 0x39

def digit (n : Nat) : UInt8 := UInt8.ofNat (0x30 + n)

def digitValue (b : UInt8) : Nat := b.toNat - 0x30

def ofNat (n : Nat) : List UInt8 :=
  if n < 10 then [digit n] else ofNat (n / 10) ++ [digit (n % 10)]

def value (ds : List UInt8) : Nat := ds.foldl (fun v d => 10 * v + digitValue d) 0

/-- Joins neighbours, of which the lower stands first, of a number to the base `b`. -/
def joinPairs (b : Nat) : List Nat → List Nat
  | low :: high :: rest => (low + b * high) :: joinPairs b rest
  | short => short

theorem length_joinPairs_le (b : Nat) (parts : List Nat) :
    (joinPairs b parts).length ≤ parts.length := by
  fun_induction joinPairs b parts with
  | case1 low high rest ih =>
    simp only [List.length_cons]
    omega
  | case2 => exact Nat.le_refl _

def joinAll (b : Nat) : List Nat → Nat
  | [] => 0
  | [part] => part
  | low :: high :: rest => joinAll (b * b) (joinPairs b (low :: high :: rest))
termination_by parts => parts.length
decreasing_by
  have := length_joinPairs_le b rest
  simp only [joinPairs, List.length_cons]
  omega

/-- The number that digits stand for, joined from ever longer parts; it takes less time than `value`
for many digits. -/
def number (ds : List UInt8) : Nat := joinAll 10 (ds.reverse.map digitValue)

def ofInt (i : Int) : List UInt8 := if i < 0 then 0x2D :: ofNat i.natAbs else ofNat i.natAbs

def isNumeral (ds : List UInt8) : Bool := !ds.isEmpty && ds.all isDigit

def int? : List UInt8 → Option Int
  | 0x2D :: ds => if isNumeral ds then some (-(number ds : Int)) else none
  | 0x2B :: ds => if isNumeral ds then some (number ds) else none
  | ds => if isNumeral ds then some (number ds) else none

def word? (i : Int) : Option Int64 :=
  if Int64.minValue.toInt ≤ i ∧ i ≤ Int64.maxValue.toInt then some (Int64.ofInt i) else none

/-- The signed 64-bit word that digits with an optional sign stand for. -/
def int64? (b : List UInt8) : Option Int64 := (int? b).bind word?

def ofInt64 (v : Int64) : List UInt8 := ofInt v.toInt

theorem isDigit_digit {n : Nat} (h : n < 10) : isDigit (digit n) = true := by
  have : n = 0 ∨ n = 1 ∨ n = 2 ∨ n = 3 ∨ n = 4 ∨ n = 5 ∨ n = 6 ∨ n = 7 ∨ n = 8 ∨ n = 9 := by omega
  rcases this with h | h | h | h | h | h | h | h | h | h <;> subst h <;> decide

theorem digitValue_digit {n : Nat} (h : n < 10) : digitValue (digit n) = n := by
  have : n = 0 ∨ n = 1 ∨ n = 2 ∨ n = 3 ∨ n = 4 ∨ n = 5 ∨ n = 6 ∨ n = 7 ∨ n = 8 ∨ n = 9 := by omega
  rcases this with h | h | h | h | h | h | h | h | h | h <;> subst h <;> decide

theorem value_append_digit (ds : List UInt8) (d : UInt8) :
    value (ds ++ [d]) = 10 * value ds + digitValue d := by
  simp [value, List.foldl_append]

/-- The number with these parts to the base `b`, worked out from the highest. -/
def fromParts (b : Nat) (parts : List Nat) : Nat := parts.foldr (fun part n => part + b * n) 0

theorem fromParts_joinPairs (b : Nat) (parts : List Nat) :
    fromParts (b * b) (joinPairs b parts) = fromParts b parts := by
  fun_induction joinPairs b parts with
  | case1 low high rest ih =>
    simp only [fromParts, List.foldr_cons] at ih ⊢
    rw [ih, Nat.mul_add, Nat.mul_assoc, Nat.add_assoc]
  | case2 short h =>
    match short, h with
    | [], _ => rfl
    | [part], _ => simp [fromParts]
    | low :: high :: rest, h => exact absurd rfl (h low high rest)

theorem joinAll_eq (b : Nat) (parts : List Nat) : joinAll b parts = fromParts b parts := by
  fun_induction joinAll b parts with
  | case1 => rfl
  | case2 => simp [fromParts]
  | case3 b low high rest ih => rw [ih, fromParts_joinPairs]

@[simp] theorem number_eq_value (ds : List UInt8) : number ds = value ds := by
  rw [number, joinAll_eq, value, List.foldl_eq_foldr_reverse, fromParts, List.foldr_map]
  congr 1
  funext d n
  exact Nat.add_comm _ _

@[simp] theorem value_ofNat (n : Nat) : value (ofNat n) = n := by
  fun_induction ofNat n with
  | case1 n h => simp [value, digitValue_digit h]
  | case2 n h ih =>
    rw [value_append_digit, ih, digitValue_digit (Nat.mod_lt _ (by omega))]
    omega

theorem ofNat_ne_nil (n : Nat) : ofNat n ≠ [] := by
  unfold ofNat
  split <;> simp

theorem all_isDigit_ofNat (n : Nat) : (ofNat n).all isDigit = true := by
  fun_induction ofNat n with
  | case1 n h => simp [isDigit_digit h]
  | case2 n h ih => simp [ih, isDigit_digit (Nat.mod_lt n (show 0 < 10 by omega))]

@[simp] theorem isNumeral_ofNat (n : Nat) : isNumeral (ofNat n) = true := by
  simp [isNumeral, all_isDigit_ofNat, ofNat_ne_nil]

end WorkloadReplay.Numeral
