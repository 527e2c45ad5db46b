import WorkloadReplay.Log.Statement
import WorkloadReplay.Proofs.InferredValues
import WorkloadReplay.Proofs.ValueRoundTrip

/-!
# Parameters of a log

No parameter of a log is a number that is none, so all of them survive being written to a trace.
-/

namespace WorkloadReplay

namespace Double

theorem canonical_of_magnitude_lt {x : Double} (h : x.magnitude < infiniteMagnitude) :
    x.canonical = x := by
  have hnan : x.isNaN = false := by
    simp only [isNaN, decide_eq_false_iff_not]
    omega
  rw [canonical, hnan]
  rfl

end Double

namespace Value

theorem canonical_fractional? {b : List UInt8} {x : Double} (h : fractional? b = some x) :
    x.canonical = x := by
  obtain ⟨-, -, hfinite⟩ := fractional?_eq_some_iff.mp h
  exact Double.canonical_of_magnitude_lt (of_decide_eq_true hfinite)

theorem canonical_infer (s : String) : (infer s).canonical = infer s := by
  have h := infers_infer s
  generalize infer s = v at h
  cases h with
  | double _ h => rw [canonical, canonical_fractional? h]
  | int | timestamp | date | time | text => rfl

end Value

namespace Log

theorem canonical_of_detailValue {cs rest : List Char} {v : Value}
    (h : detailValue cs = .ok (v, rest)) : v.canonical = v := by
  unfold detailValue at h
  split at h
  · cases h
    rfl
  · split at h
    · cases h
      exact Value.canonical_infer _
    · cases h
  · cases h

theorem canonical_of_detailParam {cs rest : List Char} {v : Value}
    (h : detailParam cs = .ok (v, rest)) : v.canonical = v := by
  unfold detailParam at h
  split at h
  · split at h
    · cases h
    · split at h
      · exact canonical_of_detailValue h
      · cases h
  · cases h

theorem canonical_of_detailParamsFrom {values vs : List Value} {cs : List Char}
    (hvalues : ∀ v ∈ values, v.canonical = v) (h : detailParamsFrom values cs = .ok vs) :
    ∀ v ∈ vs, v.canonical = v := by
  fun_induction detailParamsFrom values cs with
  | case1 =>
    cases h
    simpa using hvalues
  | case2 values cs c more hc v rest hparam ih =>
    apply ih _ h
    intro w hw
    cases hw with
    | head => exact canonical_of_detailParam hparam
    | tail _ hw => exact hvalues w hw
  | case3 => cases h

theorem canonical_of_paramsOfDetail {detail : String} {line : Nat} {vs : List Value}
    (h : paramsOfDetail detail line = .ok vs) : vs.map Value.canonical = vs := by
  have hall : ∀ v ∈ vs, v.canonical = v := by
    unfold paramsOfDetail at h
    split at h
    · split at h
      · rename_i hfrom
        cases h
        exact canonical_of_detailParamsFrom (by simp) hfrom
      · cases h
    · cases h
      simp
  rw [List.map_congr_left hall, List.map_id']

end Log

end WorkloadReplay
