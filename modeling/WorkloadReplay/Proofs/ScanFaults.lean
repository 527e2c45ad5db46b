import WorkloadReplay.Trace.Entry
import WorkloadReplay.Trace.Record

/-!
# Faults of scans

A scan of bytes refuses them for what they are: a time or a value that cannot be read. The source
they came from has faults of its own, which no scan answers with.
-/

namespace WorkloadReplay

def Fault.ofBytes : Fault → Bool
  | .invalidHex _ | .unknownTypeTag _ | .invalidParamValue _ _ => true
  | _ => false

/-- All faults of an answer are of one kind. -/
def OnlyFaults (p : Fault → Bool) {α : Type} (answer : Except Fault α) : Prop :=
  ∀ fault, answer = .error fault → p fault = true

section

variable {p : Fault → Bool} {α β : Type}

theorem onlyFaults_ok (a : α) : OnlyFaults p (.ok a : Except Fault α) := nofun

theorem onlyFaults_error {fault : Fault} (h : p fault = true) :
    OnlyFaults p (.error fault : Except Fault α) := by
  rintro fault' ⟨⟩
  exact h

theorem OnlyFaults.bind {answer : Except Fault α} {next : α → Except Fault β}
    (h : OnlyFaults p answer) (hnext : ∀ a, OnlyFaults p (next a)) :
    OnlyFaults p (answer >>= next) := by
  cases answer with
  | error fault => exact onlyFaults_error (h fault rfl)
  | ok a => exact hnext a

theorem OnlyFaults.map {answer : Except Fault α} (h : OnlyFaults p answer) (f : α → β) :
    OnlyFaults p (answer.map f) := by
  cases answer with
  | error fault => exact onlyFaults_error (h fault rfl)
  | ok a => exact onlyFaults_ok _

theorem OnlyFaults.of_eq {γ : Type} {x : γ × Except Fault α} {rest : γ} {fault : Fault}
    (h : OnlyFaults p x.2) (hx : x = (rest, .error fault)) :
    OnlyFaults p (.error fault : Except Fault β) := by
  subst hx
  exact onlyFaults_error (h fault rfl)

theorem OnlyFaults.mono {q : Fault → Bool} {answer : Except Fault α} (h : OnlyFaults p answer)
    (hq : ∀ fault, p fault = true → q fault = true) : OnlyFaults q answer :=
  fun fault hfault => hq fault (h fault hfault)

end

namespace Trace

/-! Scanning. -/

def Scan.OnlyFaults (p : Fault → Bool) {α : Type} (s : Scan α) : Prop :=
  ∀ fault, s = .bad fault → p fault = true

section

variable {p : Fault → Bool} {α β : Type}

theorem Scan.onlyFaults_done (a : α) (rest : List UInt8) : (done a rest).OnlyFaults p := nofun

theorem Scan.onlyFaults_short : (short : Scan α).OnlyFaults p := nofun

theorem Scan.onlyFaults_malformed (problem : TraceProblem) :
    (malformed problem : Scan α).OnlyFaults p := nofun

theorem Scan.onlyFaults_bad {fault : Fault} (h : p fault = true) :
    (bad fault : Scan α).OnlyFaults p := by
  rintro fault' ⟨⟩
  exact h

theorem Scan.OnlyFaults.bind {s : Scan α} {next : α → List UInt8 → Scan β}
    (h : s.OnlyFaults p) (hnext : ∀ a rest, (next a rest).OnlyFaults p) :
    (s.bind next).OnlyFaults p := by
  cases s with
  | done a rest => exact hnext a rest
  | short => exact onlyFaults_short
  | malformed problem => exact onlyFaults_malformed problem
  | bad fault => exact onlyFaults_bad (h fault rfl)

theorem Scan.onlyFaults_byte (expected : UInt8) (problem : TraceProblem) (b : List UInt8) :
    (Scan.byte expected problem b).OnlyFaults p := by
  cases b with
  | nil => exact onlyFaults_short
  | cons c rest =>
    rw [Scan.byte]
    split
    · exact onlyFaults_done _ _
    · exact onlyFaults_malformed _

theorem Scan.onlyFaults_quoted (quote : UInt8) (b : List UInt8) :
    (Scan.quoted quote b).OnlyFaults p := by
  unfold Scan.quoted
  split
  · exact onlyFaults_done _ _
  · exact onlyFaults_short

end

theorem onlyFaults_decodeTime (ds : List UInt8) : OnlyFaults Fault.ofBytes (decodeTime ds) := by
  unfold decodeTime
  split
  · exact onlyFaults_ok _
  · exact onlyFaults_error rfl

theorem onlyFaults_decode (b : List UInt8) : OnlyFaults Fault.ofBytes (Params.decode b) := by
  rw [Params.decode]
  generalize ([] : List Value) = values
  fun_induction Params.decodeFrom values b with
  | case1 => exact onlyFaults_ok _
  | case2 => exact onlyFaults_error rfl
  | case3 => exact onlyFaults_error rfl
  | case4 => exact onlyFaults_error rfl
  | case5 => exact onlyFaults_error rfl
  | case6 => exact onlyFaults_error rfl
  | case7 => assumption

theorem onlyFaults_scanTime (b : List UInt8) : (scanTime b).OnlyFaults Fault.ofBytes := by
  unfold scanTime
  dsimp only
  split
  · exact Scan.onlyFaults_bad rfl
  · split
    · exact Scan.onlyFaults_short
    · split
      · exact Scan.onlyFaults_malformed _
      · split
        · exact Scan.onlyFaults_done _ _
        · rename_i htime
          exact Scan.onlyFaults_bad (onlyFaults_decodeTime _ _ htime)

theorem onlyFaults_scanParams {p : Fault → Bool} (b : List UInt8) :
    (scanParams b).OnlyFaults p := by
  unfold scanParams
  generalize false = inValue
  generalize ([] : List UInt8) = taken
  fun_induction scanParamsFrom taken inValue b with
  | case1 => exact Scan.onlyFaults_short
  | case2 => exact Scan.onlyFaults_done _ _
  | case3 => assumption

theorem Record.onlyFaults_scan (b : List UInt8) : (Record.scan b).OnlyFaults Fault.ofBytes := by
  unfold Record.scan
  split
  · exact Scan.onlyFaults_short
  refine .bind ?_ fun ⟨time, tag, params⟩ rest => ?_
  · refine (onlyFaults_scanTime b).bind fun _ b => (Scan.onlyFaults_byte _ _ b).bind fun _ b =>
      (Scan.onlyFaults_quoted _ b).bind fun _ b => (Scan.onlyFaults_byte _ _ b).bind fun _ b =>
      (Scan.onlyFaults_byte _ _ b).bind fun _ b => (onlyFaults_scanParams b).bind fun _ b =>
      (Scan.onlyFaults_byte _ _ b).bind fun _ b => (Scan.onlyFaults_byte _ _ b).bind fun _ b => ?_
    exact Scan.onlyFaults_done _ _
  · change (Record.ofFields time tag params rest).OnlyFaults Fault.ofBytes
    unfold Record.ofFields
    split
    · exact Scan.onlyFaults_malformed _
    · split
      · rename_i hparams
        exact Scan.onlyFaults_bad (onlyFaults_decode _ _ hparams)
      · exact Scan.onlyFaults_done _ _

theorem onlyFaults_scanId {p : Fault → Bool} (b : List UInt8) : (scanId b).OnlyFaults p := by
  unfold scanId
  dsimp only
  split
  · split
    · exact Scan.onlyFaults_malformed _
    · exact Scan.onlyFaults_short
  · split
    · exact Scan.onlyFaults_malformed _
    · split
      · exact Scan.onlyFaults_done _ _
      · exact Scan.onlyFaults_malformed _

theorem Entry.onlyFaults_scan (b : List UInt8) : (Entry.scan b).OnlyFaults Fault.ofBytes := by
  refine (onlyFaults_scanId b).bind fun _ b => (Scan.onlyFaults_byte _ _ b).bind fun _ b =>
    (Scan.onlyFaults_quoted _ b).bind fun _ b => (Scan.onlyFaults_byte _ _ b).bind fun _ b => ?_
  split
  · exact Scan.onlyFaults_done _ _
  · exact Scan.onlyFaults_malformed _

end Trace

end WorkloadReplay
