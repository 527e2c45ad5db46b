import WorkloadReplay.Text.Basic
import Mathlib.Tactic.Common

/-!
# The bytes of a text

The bytes of a text are those of its characters, one after the other. A byte below 128 is a
character of its own, wherever it stands, so any bytes below 128 spell a text.
-/

namespace WorkloadReplay.Text

/-- A byte below 128 spells a character of its own: all bytes of a longer spelling are marked. -/
theorem toNat_eq_of_mem_utf8EncodeChar {c : Char} {b : UInt8} (h : b ∈ String.utf8EncodeChar c)
    (hb : b.toNat < 128) : c.toNat = b.toNat := by
  unfold String.utf8EncodeChar at h
  dsimp only at h
  split_ifs at h with h₁ h₂ h₃
  · rw [List.mem_singleton.mp h, UInt8.toNat_ofNat_of_lt' (show c.val.toNat < 256 by omega)]
    rfl
  all_goals
    exfalso
    simp only [List.mem_cons, List.not_mem_nil, or_false] at h
  · rcases h with rfl | rfl
    all_goals
      rw [UInt8.toNat_ofNat'] at hb
      omega
  · rcases h with rfl | rfl | rfl
    all_goals
      rw [UInt8.toNat_ofNat'] at hb
      omega
  · rcases h with rfl | rfl | rfl | rfl
    all_goals
      rw [UInt8.toNat_ofNat'] at hb
      omega

theorem bytes_eq_flatMap (s : String) : bytes s = s.toList.flatMap String.utf8EncodeChar := by
  rw [bytes, ← String.ofList_toList (s := s), String.toByteArray_ofList, List.utf8Encode]
  simp

theorem exists_char_of_mem_bytes {s : String} {b : UInt8} (h : b ∈ bytes s) (hb : b.toNat < 128) :
    ∃ c ∈ s.toList, c.toNat = b.toNat := by
  rw [bytes_eq_flatMap] at h
  obtain ⟨c, hc, hmem⟩ := List.mem_flatMap.mp h
  exact ⟨c, hc, toNat_eq_of_mem_utf8EncodeChar hmem hb⟩

theorem utf8EncodeChar_ofNat {c : UInt8} (h : c < 0x80) :
    String.utf8EncodeChar (Char.ofNat c.toNat) = [c] := by
  have hlt : c.toNat < 128 := UInt8.lt_iff_toNat_lt.mp h
  have hval : (Char.ofNat c.toNat).val.toNat = c.toNat := by
    have hvalid : c.toNat.isValidChar := .inl (by omega)
    rw [Char.ofNat, dif_pos hvalid]
    rfl
  unfold String.utf8EncodeChar
  dsimp only
  rw [hval, if_pos (by omega), UInt8.ofNat_toNat]

theorem ascii_of_all {b : List UInt8} (h : b.all (· < 0x80) = true) : ∀ c ∈ b, c < 0x80 := by
  simpa using h

theorem exists_bytes_eq_of_ascii {b : List UInt8} (h : ∀ c ∈ b, c < 0x80) :
    ∃ s, bytes s = b := by
  refine ⟨ofAscii b, ?_⟩
  rw [bytes_eq_flatMap, ofAscii, String.toList_ofList]
  induction b with
  | nil => rfl
  | cons c b ih =>
    obtain ⟨hc, hb⟩ := List.forall_mem_cons.mp h
    rw [List.map_cons, List.flatMap_cons, utf8EncodeChar_ofNat hc, ih hb, List.singleton_append]

end WorkloadReplay.Text
