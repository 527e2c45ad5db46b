import WorkloadReplay.Transaction

/-!
# Replay queues

The transactions that are still to be replayed, first in first out, with the texts of their
statements. Each operation is one step, whoever makes it.
-/

namespace WorkloadReplay

/-- The transactions still to be replayed. -/
structure Queue where
  transactions : List Transaction
  statements : StatementTable
  deriving DecidableEq

namespace Queue

def front? (q : Queue) : Option Transaction := q.transactions.head?

def length (q : Queue) : Nat := q.transactions.length

def pop (q : Queue) : Option Transaction × Queue :=
  (q.front?, { q with transactions := q.transactions.tail })

/-- Takes the next transaction if it meets a condition. -/
def popIf (q : Queue) (condition : Transaction → Bool) : Option Transaction × Queue :=
  match q.front? with
  | some t => if condition t then q.pop else (none, q)
  | none => (none, q)

@[simp] theorem pop_cons (t : Transaction) (ts : List Transaction) (statements : StatementTable) :
    (⟨t :: ts, statements⟩ : Queue).pop = (some t, ⟨ts, statements⟩) := rfl

@[simp] theorem pop_nil (statements : StatementTable) :
    (⟨[], statements⟩ : Queue).pop = (none, ⟨[], statements⟩) := rfl

section

variable {q later : Queue} {condition : Transaction → Bool} {t : Transaction}

theorem pop_append (q : Queue) : q.pop.1.toList ++ q.pop.2.transactions = q.transactions := by
  obtain ⟨transactions, statements⟩ := q
  cases transactions with
  | nil => rfl
  | cons t ts => rfl

theorem popIf_eq_some_iff :
    q.popIf condition = (some t, later) ↔
      condition t = true ∧ q.transactions = t :: later.transactions ∧
        q.statements = later.statements := by
  obtain ⟨transactions, statements⟩ := q
  obtain ⟨transactions', statements'⟩ := later
  cases transactions with
  | nil => simp [popIf, front?]
  | cons first rest =>
    by_cases h : condition first = true
    · simp only [popIf, front?, List.head?_cons, h, if_true, pop_cons, Prod.mk.injEq,
        Option.some.injEq, mk.injEq, List.cons.injEq]
      constructor
      · rintro ⟨rfl, rfl, rfl⟩
        exact ⟨h, ⟨rfl, rfl⟩, rfl⟩
      · rintro ⟨-, ⟨rfl, rfl⟩, rfl⟩
        exact ⟨rfl, rfl, rfl⟩
    · simp only [popIf, front?, List.head?_cons, h, Bool.false_eq_true, if_false, Prod.mk.injEq,
        List.cons.injEq]
      constructor
      · rintro ⟨hnone, -⟩
        cases hnone
      · rintro ⟨ht, ⟨rfl, -⟩, -⟩
        exact absurd ht h

theorem popIf_eq_none_iff :
    q.popIf condition = (none, later) ↔
      later = q ∧ ∀ t, q.front? = some t → condition t = false := by
  obtain ⟨transactions, statements⟩ := q
  cases transactions with
  | nil =>
    simp only [popIf, front?, List.head?_nil, Prod.mk.injEq, true_and]
    exact ⟨fun h => ⟨h.symm, nofun⟩, fun h => h.1.symm⟩
  | cons first rest =>
    by_cases h : condition first = true
    · simp [popIf, front?, h]
    · simp only [popIf, front?, List.head?_cons, h, Bool.false_eq_true, if_false, Prod.mk.injEq,
        true_and]
      refine ⟨fun hlater => ⟨hlater.symm, ?_⟩, fun h => h.1.symm⟩
      rintro t ⟨⟩
      exact Bool.eq_false_iff.mpr h

theorem popIf_append (q : Queue) (condition : Transaction → Bool) :
    (q.popIf condition).1.toList ++ (q.popIf condition).2.transactions = q.transactions := by
  cases h : q.popIf condition with
  | mk taken later =>
    cases taken with
    | none =>
      obtain ⟨rfl, -⟩ := popIf_eq_none_iff.mp h
      rfl
    | some t => exact (popIf_eq_some_iff.mp h).2.1.symm

theorem statements_popIf (q : Queue) (condition : Transaction → Bool) :
    (q.popIf condition).2.statements = q.statements := by
  cases h : q.popIf condition with
  | mk taken later =>
    cases taken with
    | none => rw [(popIf_eq_none_iff.mp h).1]
    | some t => exact (popIf_eq_some_iff.mp h).2.2.symm

end

end Queue

end WorkloadReplay
