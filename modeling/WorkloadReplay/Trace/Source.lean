/-!
# Sources of bytes

A source delivers its bytes in parts of its own choice, and a read call may fail instead. A call
gives at most the rest of one part, and no bytes only at the end or if none were asked for. `fetch`
makes calls until one is not interrupted.
-/

namespace WorkloadReplay.Trace

/-- What a source delivers, in order: bytes, or a call that fails. -/
inductive Part where
  | bytes (b : List UInt8)
  | interrupted
  | failure (reason : String)
  deriving DecidableEq

abbrev Source := List Part

inductive ReadAnswer where
  | bytes (b : List UInt8)
  | interrupted
  | failure (reason : String)
  deriving DecidableEq

namespace Source

/-- One read call for at most `room` bytes. -/
def read (room : Nat) : Source → ReadAnswer × Source
  | [] => (.bytes [], [])
  | .bytes [] :: rest => read room rest
  | .bytes (b :: bs) :: rest =>
    (.bytes ((b :: bs).take room), .bytes ((b :: bs).drop room) :: rest)
  | .interrupted :: rest => (.interrupted, rest)
  | .failure reason :: rest => (.failure reason, rest)

/-- One for every byte and every part. -/
def size : Source → Nat
  | [] => 0
  | .bytes b :: rest => b.length + 1 + size rest
  | .interrupted :: rest => 1 + size rest
  | .failure _ :: rest => 1 + size rest

def bytes : Source → List UInt8
  | [] => []
  | .bytes b :: rest => b ++ bytes rest
  | .interrupted :: rest => bytes rest
  | .failure _ :: rest => bytes rest

theorem size_read_interrupted {room : Nat} {s t : Source}
    (h : read room s = (.interrupted, t)) : t.size < s.size := by
  fun_induction read room s with
  | case1 => simp at h
  | case2 rest ih =>
    have := ih h
    simp only [size]
    omega
  | case3 => simp at h
  | case4 rest =>
    simp only [Prod.mk.injEq, true_and] at h
    subst h
    simp only [size]
    omega
  | case5 => simp at h

theorem size_read_bytes {room : Nat} {s t : Source} {b : List UInt8}
    (h : read room s = (.bytes b, t)) : t.size + b.length ≤ s.size := by
  fun_induction read room s with
  | case1 => simp_all [size]
  | case2 rest ih =>
    have := ih h
    simp only [size]
    omega
  | case3 c cs rest =>
    simp only [Prod.mk.injEq, ReadAnswer.bytes.injEq] at h
    obtain ⟨rfl, rfl⟩ := h
    simp only [size, List.length_drop, List.length_take]
    omega
  | case4 => simp at h
  | case5 => simp at h

theorem size_read_failure {room : Nat} {s t : Source} {reason : String}
    (h : read room s = (.failure reason, t)) : t.size < s.size := by
  fun_induction read room s with
  | case1 => simp at h
  | case2 rest ih =>
    have := ih h
    simp only [size]
    omega
  | case3 => simp at h
  | case4 => simp at h
  | case5 reason rest =>
    simp only [Prod.mk.injEq] at h
    obtain ⟨-, rfl⟩ := h
    simp only [size]
    omega

/-- Read calls until one is not interrupted: its bytes, or the reason of its failure. -/
def fetch (room : Nat) (s : Source) : Except String (List UInt8) × Source :=
  match _h : read room s with
  | (.interrupted, t) => fetch room t
  | (.bytes b, t) => (.ok b, t)
  | (.failure reason, t) => (.error reason, t)
termination_by s.size
decreasing_by exact size_read_interrupted _h

theorem size_fetch_ok {room : Nat} {s t : Source} {b : List UInt8}
    (h : fetch room s = (.ok b, t)) : t.size + b.length ≤ s.size := by
  fun_induction fetch room s with
  | case1 s u hr ih =>
    have := ih h
    have := size_read_interrupted hr
    omega
  | case2 s c u hr =>
    simp only [Prod.mk.injEq, Except.ok.injEq] at h
    obtain ⟨rfl, rfl⟩ := h
    exact size_read_bytes hr
  | case3 => simp at h

theorem size_fetch_le {room : Nat} {s t : Source} {answer : Except String (List UInt8)}
    (h : fetch room s = (answer, t)) : t.size ≤ s.size := by
  fun_induction fetch room s with
  | case1 s u hr ih =>
    have := ih h
    have := size_read_interrupted hr
    omega
  | case2 s c u hr =>
    simp only [Prod.mk.injEq] at h
    obtain ⟨-, rfl⟩ := h
    have := size_read_bytes hr
    omega
  | case3 s reason u hr =>
    simp only [Prod.mk.injEq] at h
    obtain ⟨-, rfl⟩ := h
    have := size_read_failure hr
    omega

end Source

end WorkloadReplay.Trace
