import WorkloadReplay.Proofs.DoubleText
import WorkloadReplay.Proofs.SignedNumerals
import WorkloadReplay.Value.Basic

/-!
# Values read back

The text of a value, with the letter of its type, reads back as that value, and so does a list of
values: the text of a value may hold any bytes, since only a quote that no other follows ends it,
and no letter of a type is a quote.
-/

namespace WorkloadReplay

namespace Value
open Numeral

/-- What a value is read back as: itself, but for the numbers that are none. -/
def canonical : Value → Value
  | double x => double x.canonical
  | v => v

theorem ofBody?_body (v : Value) : ofBody? v.tag v.body = some v.canonical := by
  cases v with
  | null => rfl
  | int v => simp [ofBody?, tag, body, canonical, intTag, nullTag]
  | double x =>
    simp [ofBody?, tag, body, canonical, doubleTag, nullTag, intTag, dateTag, timeTag,
      timestampTag, Double.ofText?_text]
  | text s =>
    simp [ofBody?, tag, body, canonical, textTag, doubleTag, nullTag, intTag, dateTag, timeTag,
      timestampTag, Text.ofBytes?_bytes]
  | bool b => cases b <;> rfl
  | date v => simp [ofBody?, tag, body, canonical, dateTag, intTag, nullTag]
  | time v => simp [ofBody?, tag, body, canonical, timeTag, dateTag, intTag, nullTag]
  | timestamp v =>
    simp [ofBody?, tag, body, canonical, timestampTag, timeTag, dateTag, intTag, nullTag]

theorem quote_not_mem_tags : Params.quote ∉ tags := by decide

end Value

namespace Params

theorem decodeFrom_value {values : List Value} {tag : UInt8} {body more : List UInt8}
    (htag : tag ∈ Value.tags) (hmore : more.head? ≠ some quote) :
    decodeFrom values (tag :: (Quoted.enclose quote body ++ more)) =
      match Value.ofBody? tag body with
      | none => .error (.invalidParamValue tag (Text.lossy body))
      | some v => decodeFrom (v :: values) more := by
  have hscan := Quoted.scan_doubled quote body more hmore
  rw [Quoted.enclose, List.cons_append, List.append_assoc, List.singleton_append, decodeFrom]
  simp only [htag, not_true_eq_false, if_false, ne_eq]
  split
  · rename_i h
    rw [hscan] at h
    cases h
  · rename_i h
    rw [hscan] at h
    cases h
    rfl

theorem head?_encode_ne_quote (vs : List Value) : (encode vs).head? ≠ some quote := by
  cases vs with
  | nil => simp [encode]
  | cons v vs =>
    intro h
    have hv : v.tag = quote := by simpa [encode, encodeValue] using h
    exact Value.quote_not_mem_tags (hv ▸ v.tag_mem_tags)

theorem decodeFrom_encode (values vs : List Value) :
    decodeFrom values (encode vs) = .ok (values.reverse ++ vs.map Value.canonical) := by
  induction vs generalizing values with
  | nil => simp [encode, decodeFrom]
  | cons v vs ih =>
    have hcons : encode (v :: vs) = v.tag :: (Quoted.enclose quote v.body ++ encode vs) := by
      simp [encode, encodeValue]
    rw [hcons, decodeFrom_value v.tag_mem_tags (head?_encode_ne_quote vs), Value.ofBody?_body]
    simp [ih]

theorem decode_encode (vs : List Value) : decode (encode vs) = .ok (vs.map Value.canonical) := by
  rw [decode, decodeFrom_encode, List.reverse_nil, List.nil_append]

end Params

end WorkloadReplay
