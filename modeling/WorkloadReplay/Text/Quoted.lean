/-!
# Quoting by doubling

Inside quotes a quote is written twice. `scan` reads from behind an opening quote to the closing
one, which is the first quote that no other follows, and gives what stands between with each doubled
quote as one. All of it works for bytes and for characters.
-/

namespace WorkloadReplay.Quoted

variable {α : Type} [DecidableEq α]

def doubled (q : α) (b : List α) : List α := b.flatMap fun c => if c = q then [q, q] else [c]

def enclose (q : α) (b : List α) : List α := q :: (doubled q b ++ [q])

/-- Goes on reading after `content` (last first); `half` tells that a quote stands before
`b` which is either the closing one or the first of a doubled one. -/
def scanFrom (q : α) (content : List α) (half : Bool) (b : List α) : List α × Option (List α) :=
  match b with
  | [] => (content.reverse, if half then some [] else none)
  | c :: rest =>
    if half then
      if c = q then scanFrom q (q :: content) false rest else (content.reverse, some (c :: rest))
    else if c = q then scanFrom q content true rest
    else scanFrom q (c :: content) false rest

/-- What stands before the closing quote, and what behind it if there is one. -/
def scan (q : α) (b : List α) : List α × Option (List α) := scanFrom q [] false b

theorem scanFrom_length {q : α} {content b rest found : List α} {half : Bool}
    (h : scanFrom q content half b = (found, some rest)) :
    rest.length + (if half then 0 else 1) ≤ b.length := by
  induction b generalizing content half with
  | nil => cases half <;> simp_all [scanFrom]
  | cons c more ih =>
    cases half <;> simp only [scanFrom, if_true, Bool.false_eq_true, if_false] at h ⊢
    · split at h
      · have := ih h
        simp only [if_true] at this
        simp only [List.length_cons]
        omega
      · have := ih h
        simp only [Bool.false_eq_true, if_false] at this
        simp only [List.length_cons]
        omega
    · split at h
      · have := ih h
        simp only [Bool.false_eq_true, if_false] at this
        simp only [List.length_cons]
        omega
      · simp_all

theorem scan_length {q : α} {b rest found : List α}
    (h : scan q b = (found, some rest)) : rest.length < b.length := scanFrom_length h

theorem scanFrom_doubled (q : α) (content b rest : List α) (h : rest.head? ≠ some q) :
    scanFrom q content false (doubled q b ++ q :: rest) = (content.reverse ++ b, some rest) := by
  induction b generalizing content with
  | nil =>
    cases rest with
    | nil => simp [doubled, scanFrom]
    | cons c more =>
      have hc : c ≠ q := by simpa using h
      simp [doubled, scanFrom, hc]
  | cons b bs ih =>
    have hd : doubled q (b :: bs) = (if b = q then [q, q] else [b]) ++ doubled q bs := by
      simp [doubled]
    by_cases hb : b = q
    · subst hb
      simp [hd, scanFrom, ih (b :: content)]
    · simp [hd, hb, scanFrom, ih (b :: content)]

/-- Reading back what stands between quotes gives it, whatever follows the closing quote, if
it is not another quote. -/
theorem scan_doubled (q : α) (b rest : List α) (h : rest.head? ≠ some q) :
    scan q (doubled q b ++ q :: rest) = (b, some rest) := by
  simpa [scan] using scanFrom_doubled q [] b rest h

end WorkloadReplay.Quoted
