import WorkloadReplay.Text.Basic
import Mathlib.Data.List.DropRight
import Mathlib.Data.List.TakeWhile

/-!
# Splitting at white space

Trimming takes the white space off both ends and nothing else, and the words of a text are what
white space separates: no word is empty or has white space in it, and all else is white space.
Letters in capitals are split as they were before.
-/

namespace WorkloadReplay

/-! ## Taking characters off the ends -/

section

variable {α : Type} {p : α → Bool} {l rest kept : List α}

theorem dropWhile_eq_iff :
    l.dropWhile p = rest ↔
      ∃ front, l = front ++ rest ∧ (∀ a ∈ front, p a = true) ∧ ∀ a ∈ rest.head?, p a = false := by
  constructor
  · rintro rfl
    refine ⟨l.takeWhile p, List.takeWhile_append_dropWhile.symm,
      fun a ha => List.mem_takeWhile_imp ha, ?_⟩
    intro a ha
    have hnot := List.head?_dropWhile_not p l
    rw [Option.mem_def.mp ha] at hnot
    simpa using hnot
  · rintro ⟨front, rfl, hfront, hhead⟩
    rw [List.dropWhile_append_of_pos hfront]
    cases rest with
    | nil => rfl
    | cons a rest => exact List.dropWhile_cons_of_neg (by simp [hhead a rfl])

theorem rdropWhile_eq_iff :
    l.rdropWhile p = kept ↔
      ∃ back, l = kept ++ back ∧ (∀ a ∈ back, p a = true) ∧ ∀ a ∈ kept.getLast?, p a = false := by
  rw [List.rdropWhile, List.reverse_eq_iff, dropWhile_eq_iff, List.head?_reverse]
  constructor
  · rintro ⟨front, hl, hfront, hlast⟩
    refine ⟨front.reverse, ?_, fun a ha => hfront a (List.mem_reverse.mp ha), hlast⟩
    rw [List.reverse_eq_iff.mp hl, List.reverse_append, List.reverse_reverse]
  · rintro ⟨back, rfl, hback, hlast⟩
    exact ⟨back.reverse, List.reverse_append, fun a ha => hback a (List.mem_reverse.mp ha), hlast⟩

end

namespace Text

def IsGap (cs : List Char) : Prop := ∀ c ∈ cs, isBlank c = true

inductive Trims : List Char → List Char → Prop where
  | intro {lead kept tail : List Char} (hlead : IsGap lead) (htail : IsGap tail)
      (hfirst : ∀ c ∈ kept.head?, isBlank c = false)
      (hlast : ∀ c ∈ kept.getLast?, isBlank c = false) : Trims (lead ++ kept ++ tail) kept

theorem trim_eq_iff {cs kept : List Char} : trim cs = kept ↔ Trims cs kept := by
  have htrim : trim cs = (cs.dropWhile isBlank).rdropWhile isBlank := rfl
  rw [htrim, rdropWhile_eq_iff]
  constructor
  · rintro ⟨tail, hmiddle, htail, hlast⟩
    obtain ⟨lead, rfl, hlead, hfirst⟩ := dropWhile_eq_iff.mp hmiddle
    rw [← List.append_assoc]
    refine .intro hlead htail ?_ hlast
    intro c hc
    apply hfirst c
    rw [List.head?_append, Option.mem_def.mp hc, Option.some_or]
    exact rfl
  · rintro ⟨hlead, htail, hfirst, hlast⟩
    rename_i lead tail
    by_cases hkept : kept = []
    · subst hkept
      refine ⟨[], ?_, by simp, hlast⟩
      apply List.dropWhile_eq_nil_iff.mpr
      intro c hc
      rw [List.append_nil] at hc
      exact (List.mem_append.mp hc).elim (hlead c) (htail c)
    · refine ⟨tail, ?_, htail, hlast⟩
      apply dropWhile_eq_iff.mpr
      refine ⟨lead, List.append_assoc lead kept tail, hlead, ?_⟩
      rw [List.head?_append_of_ne_nil _ hkept]
      exact hfirst

/-- Some characters are these words, which no white space stands in, with white space between
them. -/
inductive SplitsInto : List Char → List (List Char) → Prop where
  | nil {gap : List Char} (hgap : IsGap gap) : SplitsInto gap []
  | cons {gap word rest : List Char} {words : List (List Char)} (hgap : IsGap gap)
      (hword : word ≠ []) (hinside : ∀ c ∈ word, isBlank c = false)
      (hbehind : ∀ c ∈ rest.head?, isBlank c = true) (hrest : SplitsInto rest words) :
      SplitsInto (gap ++ word ++ rest) (word :: words)

theorem IsGap.cons {c : Char} {gap : List Char} (hc : isBlank c = true) (h : IsGap gap) :
    IsGap (c :: gap) := List.forall_mem_cons.mpr ⟨hc, h⟩

section

variable {cs : List Char} {ws : List (List Char)}

theorem SplitsInto.cons_blank {c : Char} (hc : isBlank c = true) (h : SplitsInto cs ws) :
    SplitsInto (c :: cs) ws := by
  cases h with
  | nil hgap => exact .nil (hgap.cons hc)
  | cons hgap hword hinside hbehind hrest =>
    exact .cons (hgap.cons hc) hword hinside hbehind hrest

theorem SplitsInto.cons_reverse {word : List Char} (hword : ∀ c ∈ word, isBlank c = false)
    (hne : word.isEmpty ≠ true) (hbehind : ∀ c ∈ cs.head?, isBlank c = true)
    (h : SplitsInto cs ws) : SplitsInto (word.reverse ++ cs) (word.reverse :: ws) := by
  have hgap : IsGap [] := nofun
  refine .cons hgap ?_ (fun c hc => hword c (List.mem_reverse.mp hc)) hbehind h
  simpa using hne

theorem splitsInto_wordsFrom (word : List Char) (hword : ∀ c ∈ word, isBlank c = false) :
    SplitsInto (word.reverse ++ cs) (wordsFrom word cs) := by
  induction cs generalizing word with
  | nil =>
    rw [wordsFrom]
    split
    · rename_i hempty
      rw [List.isEmpty_iff.mp hempty]
      exact .nil nofun
    · rename_i hne
      exact .cons_reverse hword hne nofun (.nil nofun)
  | cons c cs ih =>
    rw [wordsFrom]
    split
    · rename_i hc
      have hrest := (ih [] nofun).cons_blank hc
      split
      · rename_i hempty
        rw [List.isEmpty_iff.mp hempty]
        exact hrest
      · rename_i hne
        refine .cons_reverse hword hne ?_ hrest
        rintro d ⟨⟩
        exact hc
    · rename_i hc
      have hmore := ih (c :: word) (List.forall_mem_cons.mpr ⟨by simpa using hc, hword⟩)
      rwa [List.reverse_cons, List.append_assoc] at hmore

theorem wordsFrom_gap {gap : List Char} (h : IsGap gap) (cs : List Char) :
    wordsFrom [] (gap ++ cs) = wordsFrom [] cs := by
  induction gap with
  | nil => rfl
  | cons c gap ih =>
    obtain ⟨hc, hgap⟩ := List.forall_mem_cons.mp h
    rw [List.cons_append, wordsFrom, if_pos hc]
    exact ih hgap

theorem wordsFrom_inside {before word : List Char} (h : ∀ c ∈ word, isBlank c = false) :
    wordsFrom before (word ++ cs) = wordsFrom (word.reverse ++ before) cs := by
  induction word generalizing before with
  | nil => rfl
  | cons c word ih =>
    obtain ⟨hc, hword⟩ := List.forall_mem_cons.mp h
    rw [List.cons_append, wordsFrom, if_neg (by simp [hc]), ih hword]
    simp

theorem wordsFrom_behind {word : List Char} (hword : word ≠ [])
    (h : ∀ c ∈ cs.head?, isBlank c = true) :
    wordsFrom word cs = word.reverse :: wordsFrom [] cs := by
  have hne : word.isEmpty = false := by simpa using hword
  cases cs with
  | nil => simp [wordsFrom, hne]
  | cons c cs => simp [wordsFrom, hne, h c rfl]

theorem words_eq_iff : words cs = ws ↔ SplitsInto cs ws := by
  constructor
  · rintro rfl
    exact splitsInto_wordsFrom [] nofun
  · intro h
    induction h with
    | nil hgap =>
      have hnone := wordsFrom_gap hgap []
      rwa [List.append_nil] at hnone
    | @cons gap word rest ws hgap hword hinside hbehind _ ih =>
      have hne : word.reverse ≠ [] := by simpa using hword
      rw [words, List.append_assoc, wordsFrom_gap hgap, wordsFrom_inside hinside,
        List.append_nil, wordsFrom_behind hne hbehind, List.reverse_reverse]
      exact congrArg _ ih

/-! Letters in capitals. -/

theorem isBlank_of_letter {c : Char} (h : 65 ≤ c.toNat ∧ c.toNat ≤ 122) : isBlank c = false := by
  have hranges : ∀ r ∈ blankRanges, r.2 < 65 ∨ 122 < r.1 := by decide
  rw [isBlank, List.any_eq_false]
  intro r hr
  have hrange := hranges r hr
  simp only [Bool.and_eq_true, decide_eq_true_eq]
  omega

theorem toNat_toUpper {c : Char} (h : 'a'.val ≤ c.val ∧ c.val ≤ 'z'.val) :
    c.toUpper.toNat = c.toNat - 32 := by
  have hlower : 97 ≤ c.val.toNat ∧ c.val.toNat ≤ 122 := h
  have hoffset : ('A'.val - 'a'.val).toNat = 4294967264 := rfl
  have hadd : (c.val + ('A'.val - 'a'.val)).toNat = c.val.toNat - 32 := by
    rw [UInt32.toNat_add, hoffset]
    omega
  have hupper : c.toUpper = ⟨c.val + ('A'.val - 'a'.val), _⟩ := dif_pos h
  rw [hupper]
  exact hadd

theorem isBlank_toUpper (c : Char) : isBlank c.toUpper = isBlank c := by
  by_cases h : 'a'.val ≤ c.val ∧ c.val ≤ 'z'.val
  · have hlower : 97 ≤ c.toNat ∧ c.toNat ≤ 122 := h
    have hupper := toNat_toUpper h
    rw [isBlank_of_letter (by omega), isBlank_of_letter (by omega)]
  · have hsame : c.toUpper = c := dif_neg h
    rw [hsame]

theorem wordsFrom_map {f : Char → Char} (hf : ∀ c, isBlank (f c) = isBlank c)
    (word cs : List Char) :
    wordsFrom (word.map f) (cs.map f) = (wordsFrom word cs).map (List.map f) := by
  induction cs generalizing word with
  | nil =>
    cases word with
    | nil => rfl
    | cons c word => simp [wordsFrom]
  | cons c cs ih =>
    have hrest := ih []
    have hmore := ih (c :: word)
    rw [List.map_nil] at hrest
    rw [List.map_cons] at hmore
    rw [List.map_cons, wordsFrom, wordsFrom, hf, hmore, hrest, List.isEmpty_map]
    split
    · split
      · rfl
      · rw [List.map_cons, List.map_reverse]
    · rfl

end

end Text

end WorkloadReplay
