import WorkloadReplay.Fault
import WorkloadReplay.Text.Basic
import WorkloadReplay.Text.Quoted
import WorkloadReplay.Value.Inference

/-!
# The statement of a row

The message of a row is `kind: content`. The kinds `statement` and those that start with `execute`
tell of a statement; each placeholder in its text, a dollar sign with digits behind it, is replaced
by a question mark.

A statement opens or closes an explicit transaction by its first words, in any letter case, if it is
short: the white space around it and the semicolons behind it do not count. `ROLLBACK TO SAVEPOINT`
and `COMMIT PREPARED` close nothing.

The detail of a row lists the parameters of its statement as `parameters: $1 = 'text', $2 = NULL`,
with single quotes doubled in the texts. The number of a parameter is not looked at, and any spaces
and commas may stand between parameters. Any other detail has no parameters.
-/

namespace WorkloadReplay.Log

/-! ## Messages -/

/-- The first position at or behind `pos` where a character does not satisfy `p`, or the end. -/
def skipFrom (p : Char → Bool) (cs : Array Char) (pos : Nat) : Nat :=
  if h : pos < cs.size then
    if p cs[pos] then skipFrom p cs (pos + 1) else pos
  else pos
termination_by cs.size - pos

theorem le_skipFrom (p : Char → Bool) (cs : Array Char) (pos : Nat) : pos ≤ skipFrom p cs pos := by
  fun_induction skipFrom p cs pos with
  | case1 pos h hp ih => exact Nat.le_of_succ_le ih
  | case2 => exact Nat.le_refl _
  | case3 => exact Nat.le_refl _

/-- The characters from `copied` on, with a question mark for each placeholder at `pos` or behind.
-/
def replaceFrom (cs : Array Char) (copied pos : Nat) : List Char :=
  let dollar := skipFrom (· ≠ '$') cs pos
  if dollar < cs.size then
    let stop := skipFrom Char.isDigit cs (dollar + 1)
    if dollar + 1 < stop then
      (cs.extract copied dollar).toList ++ '?' :: replaceFrom cs stop stop
    else replaceFrom cs copied stop
  else (cs.extract copied).toList
termination_by cs.size - pos
decreasing_by
  all_goals
    have hdollar := le_skipFrom (· ≠ '$') cs pos
    have hstop := le_skipFrom Char.isDigit cs (skipFrom (· ≠ '$') cs pos + 1)
    omega

/-- What stands before the first colon and space, and what behind, after the characters `before`
(last first). -/
def splitKind (before : List Char) : List Char → Option (List Char × List Char)
  | [] => none
  | c :: rest =>
    match c, rest with
    | ':', ' ' :: content => some (before.reverse, content)
    | _, _ => splitKind (c :: before) rest

def isStatementKind (kind : List Char) : Bool :=
  kind = "statement".toList || "execute".toList.isPrefixOf kind

def withoutPlaceholders (sql : String) : String :=
  String.ofList (replaceFrom sql.toList.toArray 0 0)

def sqlOfMessage? (message : String) : Option String :=
  match splitKind [] message.toList with
  | some (kind, content) =>
    if isStatementKind kind then some (withoutPlaceholders (String.ofList content)) else none
  | none => none

/-! ## Boundaries of transactions -/

inductive Boundary where
  | begin
  | commit
  | rollback
  | statement
  deriving DecidableEq

/-- The greatest number of bytes of a statement that is a boundary. -/
def maxBoundaryLength : Nat := 64

/-- The characters without the semicolons at their end, and without the white space before these. -/
def dropSemicolons (cs : List Char) : List Char :=
  Text.trimEnd (cs.reverse.dropWhile (· = ';')).reverse

def isClosingTail : List String → Bool
  | [] => true
  | [word] => word = "TRANSACTION" || word = "WORK"
  | _ => false

/-- What a statement of these words in capitals means. -/
def boundaryOfWords : List String → Boundary
  | [] => .statement
  | first :: rest =>
    if first = "BEGIN" then .begin
    else if first = "START" ∧ rest.head? = some "TRANSACTION" then .begin
    else if (first = "COMMIT" ∨ first = "END") ∧ isClosingTail rest then .commit
    else if (first = "ROLLBACK" ∨ first = "ABORT") ∧ isClosingTail rest then .rollback
    else .statement

def capitalWords (cs : List Char) : List String :=
  (Text.words ((dropSemicolons cs).map Char.toUpper)).map String.ofList

/-- What a statement means for the transaction of its session. -/
def classify (sql : String) : Boundary :=
  let cs := Text.trim sql.toList
  if maxBoundaryLength < (String.ofList cs).utf8ByteSize then .statement
  else boundaryOfWords (capitalWords cs)

/-! ## Parameters -/

def isGap (c : Char) : Bool := c = ' ' || c = ','

def detailValue (cs : List Char) : Except DetailProblem (Value × List Char) :=
  match cs with
  | 'N' :: 'U' :: 'L' :: 'L' :: rest => .ok (.null, rest)
  | '\'' :: inside =>
    match Quoted.scan '\'' inside with
    | (content, some rest) => .ok (.infer (String.ofList content), rest)
    | (_, none) => .error .notClosed
  | _ => .error .noValue

def detailParam (cs : List Char) : Except DetailProblem (Value × List Char) :=
  match cs with
  | '$' :: rest =>
    if (rest.takeWhile Char.isDigit).isEmpty then .error .noNumber
    else
      match rest.dropWhile Char.isDigit with
      | ' ' :: '=' :: ' ' :: value => detailValue value
      | _ => .error .noEquals
  | _ => .error .noDollar

theorem detailValue_length {cs rest : List Char} {v : Value}
    (h : detailValue cs = .ok (v, rest)) : rest.length < cs.length := by
  unfold detailValue at h
  split at h
  · simp only [Except.ok.injEq, Prod.mk.injEq] at h
    rw [← h.2]
    simp only [List.length_cons]
    omega
  · split at h
    · rename_i hs
      simp only [Except.ok.injEq, Prod.mk.injEq] at h
      have := Quoted.scan_length hs
      rw [← h.2]
      simp only [List.length_cons]
      omega
    · simp at h
  · simp at h

theorem detailParam_length {cs rest : List Char} {v : Value}
    (h : detailParam cs = .ok (v, rest)) : rest.length < cs.length := by
  unfold detailParam at h
  split at h
  · rename_i more
    split at h
    · simp at h
    · split at h
      · rename_i hd
        have h₁ := detailValue_length h
        have h₂ := (List.dropWhile_sublist Char.isDigit (l := more)).length_le
        rw [hd] at h₂
        simp only [List.length_cons] at h₁ h₂ ⊢
        omega
      · simp at h
  · simp at h

def detailParamsFrom (values : List Value) (cs : List Char) :
    Except DetailProblem (List Value) :=
  match _hc : cs.dropWhile isGap with
  | [] => .ok values.reverse
  | c :: more =>
    match _h : detailParam (c :: more) with
    | .ok (v, rest) => detailParamsFrom (v :: values) rest
    | .error problem => .error problem
termination_by cs.length
decreasing_by
  have h₁ := detailParam_length _h
  have h₂ := (List.dropWhile_sublist isGap (l := cs)).length_le
  rw [_hc] at h₂
  omega

def detailMark : List Char := "parameters: ".toList

/-- The parameters that the detail of a row on a line lists. -/
def paramsOfDetail (detail : String) (line : Nat) : Except Fault (List Value) :=
  if detailMark.isPrefixOf detail.toList then
    match detailParamsFrom [] (detail.toList.drop detailMark.length) with
    | .ok values => .ok values
    | .error problem => .error (.malformedLogRow line (.detail problem))
  else .ok []

end WorkloadReplay.Log
