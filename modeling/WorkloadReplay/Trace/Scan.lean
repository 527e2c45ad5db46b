import WorkloadReplay.Fault
import WorkloadReplay.Text.Quoted

/-!
# Scanning the buffered part of a trace

A trace is read through a buffer, so a scan may meet the end of the buffered bytes before it knows
what stands there. It then gives no answer and is started again when more bytes are there
(`Scan.short`). A scan that is done gives what it found and the bytes behind it. A scan does not
know where in the buffer it started, so the offset of a malformed item is added by whoever started
it.
-/

namespace WorkloadReplay.Trace

inductive Scan (α : Type) where
  | done (value : α) (rest : List UInt8)
  | short
  | malformed (problem : TraceProblem)
  | bad (fault : Fault)

namespace Scan

/-- Scans on behind what was found. -/
def bind {α β : Type} (s : Scan α) (next : α → List UInt8 → Scan β) : Scan β :=
  match s with
  | done value rest => next value rest
  | short => short
  | malformed problem => malformed problem
  | bad fault => bad fault

/-- The answer of a scan from `start` to the end of a buffer of so many bytes: what was found with
the position behind it, or nothing yet. -/
def located {α : Type} (start length : Nat) : Scan α → Except Fault (Option (α × Nat))
  | done value rest => .ok (some (value, length - rest.length))
  | short => .ok none
  | malformed problem => .error (.malformedRecord start problem)
  | bad fault => .error fault

theorem bind_eq_done {α β : Type} {s : Scan α} {next : α → List UInt8 → Scan β} {b : β}
    {rest : List UInt8} :
    s.bind next = done b rest ↔ ∃ a more, s = done a more ∧ next a more = done b rest := by
  cases s with
  | done a more =>
    constructor
    · exact fun h => ⟨a, more, rfl, h⟩
    · rintro ⟨_, _, ⟨⟩, h⟩
      exact h
  | short => simp [bind]
  | malformed problem => simp [bind]
  | bad fault => simp [bind]

def byte (expected : UInt8) (problem : TraceProblem) : List UInt8 → Scan Unit
  | [] => short
  | b :: rest => if b = expected then done () rest else malformed problem

theorem byte_eq_done {expected : UInt8} {problem : TraceProblem} {b rest : List UInt8} {u : Unit} :
    byte expected problem b = done u rest ↔ b = expected :: rest := by
  cases b with
  | nil => simp [byte]
  | cons c more =>
    by_cases h : c = expected <;> simp [byte, h]

/-- The bytes up to a closing quote `q`. Only the byte behind it tells that it is not the first of a
doubled one. -/
def quoted (q : UInt8) (b : List UInt8) : Scan (List UInt8) :=
  match Quoted.scan q b with
  | (content, some (c :: rest)) => done content (c :: rest)
  | _ => short

theorem quoted_length {q : UInt8} {b content rest : List UInt8}
    (h : quoted q b = done content rest) : rest.length < b.length := by
  unfold quoted at h
  split at h
  · rename_i found
    simp only [done.injEq] at h
    obtain ⟨-, rfl⟩ := h
    exact Quoted.scan_length found
  · simp at h

end Scan

end WorkloadReplay.Trace
