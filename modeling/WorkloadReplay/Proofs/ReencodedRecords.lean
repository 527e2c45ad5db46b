import WorkloadReplay.Proofs.RecordLines

/-!
# Records written anew

Many lines are read as the same record: their numbers have signs, zeros in front and letters of
either case. A record that was read is written in one way, and what is written is read back as the
record that was read. None of its tags collides, since a text that collides is never read as a
statement. Writing a line anew therefore brings it to a normal form.
-/

namespace WorkloadReplay

theorem Double.text_canonical (x : Double) : x.canonical.text = x.text := by
  unfold canonical
  cases hx : x.isNaN with
  | true =>
    have hnan : (notANumber false).text = [0x4E, 0x61, 0x4E] := by decide
    have hx : x.text = [0x4E, 0x61, 0x4E] := if_pos hx
    exact hnan.trans hx.symm
  | false => rfl

namespace Value

@[simp] theorem tag_canonical (v : Value) : v.canonical.tag = v.tag := by
  cases v <;> rfl

@[simp] theorem body_canonical (v : Value) : v.canonical.body = v.body := by
  cases v with
  | double x => exact x.text_canonical
  | null | int | text | bool | date | time | timestamp => rfl

theorem canonical_eq_self {v : Value} (h : ∀ x, v = .double x → x.isNaN = false) :
    v.canonical = v := by
  cases v with
  | double x => simp [canonical, Double.canonical, h x rfl]
  | null | int | text | bool | date | time | timestamp => rfl

end Value

theorem Params.encode_map_canonical (vs : List Value) :
    encode (vs.map Value.canonical) = encode vs := by
  have hvalue (v : Value) : encodeValue v.canonical = encodeValue v := by simp [encodeValue]
  simp [encode, List.flatMap_map, hvalue]

namespace Trace

/-- No text is read as a tag that collides. -/
theorem Tag.Means.not_collides {b : List UInt8} {tag : Tag} (h : Tag.Means b tag) :
    ¬ tag.Collides := by
  cases h with
  | inline h => exact h
  | begin | commit | rollback | id => exact not_false

namespace Record

/-- What a record is read back as: itself, but for the numbers that are none. -/
def canonical (r : Record) : Record := { r with params := r.params.map Value.canonical }

theorem canonical_eq_self_or (r : Record) :
    r.canonical = r ∨ ∃ x : Double, .double x ∈ r.params ∧ x.isNaN = true := by
  by_cases h : ∃ x : Double, .double x ∈ r.params ∧ x.isNaN = true
  · exact .inr h
  · have hself (v : Value) (hv : v ∈ r.params) : v.canonical = v :=
      Value.canonical_eq_self fun x hx => by simpa using fun hnan => h ⟨x, hx ▸ hv, hnan⟩
    refine .inl ?_
    rw [canonical, List.map_congr_left (g := id) hself, List.map_id]

@[simp] theorem encode_canonical (r : Record) : r.canonical.encode = r.encode := by
  rw [encode_eq_recordLine, encode_eq_recordLine, canonical, Params.encode_map_canonical]

/-- The bytes of the record at a position of a buffer as they are written, if one is found. -/
def reencode (buffer : List UInt8) (start : Nat) : Except Fault (Option (List UInt8)) :=
  (Record.decode buffer start).map (Option.map fun found => found.1.encode)

theorem decode_encode {r : Record} (h : ¬ r.tag.Collides) :
    Record.decode r.encode 0 = .ok (some (r.canonical, r.encode.length)) := by
  have hread := (r.decode_encode_between [] []).1
  rw [(Tag.readBack_eq_self_iff r.tag).mpr h] at hread
  simpa [canonical] using hread

/-- A record that was read is read again from the bytes it is written as, whatever it was read from,
and these bytes stay the same when they are read and written once more. -/
theorem decode_reencode {buffer : List UInt8} {start stop : Nat} {r : Record}
    (h : Record.decode buffer start = .ok (some (r, stop))) :
    Record.decode r.encode 0 = .ok (some (r.canonical, r.encode.length)) ∧
      (r.canonical = r ∨ ∃ x : Double, .double x ∈ r.params ∧ x.isNaN = true) ∧
      reencode buffer start = .ok (some r.encode) ∧
      reencode r.encode 0 = .ok (some r.encode) := by
  obtain ⟨line, -, hmeans⟩ := decode_eq_some_iff.mp h
  have hagain := decode_encode hmeans.tag.not_collides
  refine ⟨hagain, r.canonical_eq_self_or, ?_, ?_⟩
  · rw [reencode, h]
    rfl
  · rw [reencode, hagain, ← r.encode_canonical]
    rfl

/-- Behind another line stand `00fF,"007","i'+05'd'-nan'v'''d'-1E1'"` and the end of the line. -/
theorem decode_reencode_signs :
    let line : List UInt8 :=
      [0x30, 0x30, 0x66, 0x46, 0x2C, 0x22, 0x30, 0x30, 0x37, 0x22, 0x2C, 0x22,
        0x69, 0x27, 0x2B, 0x30, 0x35, 0x27, 0x64, 0x27, 0x2D, 0x6E, 0x61, 0x6E, 0x27,
        0x76, 0x27, 0x27, 0x27, 0x27, 0x64, 0x27, 0x2D, 0x31, 0x45, 0x31, 0x27, 0x22, 0x0A]
    let r : Record :=
      ⟨255, .id 7, [.int 5, .double (Double.notANumber true), .text "'",
        .double ⟨0xC024000000000000⟩]⟩
    Record.decode (0x0A :: line) 1 = .ok (some (r, 40)) ∧
      Record.decode r.encode 0 = .ok (some (r.canonical, r.encode.length)) ∧
      (r.canonical = r ∨ ∃ x : Double, .double x ∈ r.params ∧ x.isNaN = true) ∧
      reencode (0x0A :: line) 1 = .ok (some r.encode) ∧
      reencode r.encode 0 = .ok (some r.encode) := by
  intro line r
  have h : Record.decode (0x0A :: line) 1 = .ok (some (r, 40)) := by decide +kernel
  exact ⟨h, decode_reencode h⟩

end Record

end Trace

end WorkloadReplay
