import WorkloadReplay.Log.Statement
import WorkloadReplay.Proofs.WordSplitting

/-!
# The words of boundaries

What a statement means for the transaction of its session is a matter of its words in capitals,
without the white space around it and the semicolons behind it, as long as it is short. A longer
statement is no boundary, whatever its words are, so one that opens a transaction of many modes
opens nothing.
-/

namespace WorkloadReplay.Log

/-- Some characters without the semicolons at their end, and without the white space before these.
-/
inductive Sheds : List Char → List Char → Prop where
  | intro {bare gap semicolons : List Char} (hsemicolons : ∀ c ∈ semicolons, c = ';')
      (hall : ∀ c ∈ (bare ++ gap).getLast?, c ≠ ';') (hgap : Text.IsGap gap)
      (hlast : ∀ c ∈ bare.getLast?, Text.isBlank c = false) : Sheds (bare ++ gap ++ semicolons) bare

theorem dropSemicolons_eq_iff {kept bare : List Char} :
    dropSemicolons kept = bare ↔ Sheds kept bare := by
  have hdrop : dropSemicolons kept = (kept.rdropWhile (· = ';')).rdropWhile Text.isBlank := rfl
  rw [hdrop, rdropWhile_eq_iff]
  constructor
  · rintro ⟨gap, hmiddle, hgap, hlast⟩
    obtain ⟨semicolons, rfl, hsemicolons, hall⟩ := rdropWhile_eq_iff.mp hmiddle
    exact .intro (by simpa using hsemicolons) (by simpa using hall) hgap hlast
  · rintro ⟨hsemicolons, hall, hgap, hlast⟩
    rename_i gap semicolons
    refine ⟨gap, rdropWhile_eq_iff.mpr ⟨semicolons, rfl, ?_, ?_⟩, hgap, hlast⟩
    · simpa using hsemicolons
    · simpa using hall

/-- A statement is of this size in bytes without the white space around it, and of these words in
capitals without the semicolons behind them. -/
inductive ReadsAs (sql : String) : Nat → List String → Prop where
  | intro {kept bare : List Char} {words : List (List Char)} (htrims : Text.Trims sql.toList kept)
      (hsheds : Sheds kept bare) (hwords : Text.SplitsInto bare words) :
      ReadsAs sql (String.ofList kept).utf8ByteSize
        (words.map fun word => String.ofList (word.map Char.toUpper))

theorem readsAs_iff {sql : String} {size : Nat} {words : List String} :
    ReadsAs sql size words ↔
      size = (String.ofList (Text.trim sql.toList)).utf8ByteSize ∧
        words = capitalWords (Text.trim sql.toList) := by
  have hcapitals (kept : List Char) : capitalWords kept =
      (Text.words (dropSemicolons kept)).map fun word => String.ofList (word.map Char.toUpper) := by
    rw [capitalWords, Text.words, ← List.map_nil, Text.wordsFrom_map Text.isBlank_toUpper,
      List.map_map]
    rfl
  constructor
  · intro h
    cases h with
    | intro htrims hsheds hwords =>
      obtain rfl := Text.trim_eq_iff.mpr htrims
      obtain rfl := dropSemicolons_eq_iff.mpr hsheds
      obtain rfl := Text.words_eq_iff.mpr hwords
      exact ⟨rfl, (hcapitals _).symm⟩
  · rintro ⟨hsize, hlist⟩
    rw [hsize, hlist, hcapitals]
    exact .intro (Text.trim_eq_iff.mp rfl) (dropSemicolons_eq_iff.mp rfl) (Text.words_eq_iff.mp rfl)

/-- The words open a transaction, whatever modes of it follow. -/
def Opens (words : List String) : Prop := ["BEGIN"] <+: words ∨ ["START", "TRANSACTION"] <+: words

/-- The words are one of some keywords, alone or with one word behind it that says what is ended. -/
def Ends (keywords words : List String) : Prop :=
  ∃ keyword ∈ keywords,
    words = [keyword] ∨ words = [keyword, "TRANSACTION"] ∨ words = [keyword, "WORK"]

/-- What a statement of some words in capitals is for the transaction of its session. -/
inductive Stands (words : List String) : Boundary → Prop where
  | begin (h : Opens words) : Stands words .begin
  | commit (h : Ends ["COMMIT", "END"] words) : Stands words .commit
  | rollback (h : Ends ["ROLLBACK", "ABORT"] words) : Stands words .rollback
  | statement (hopens : ¬ Opens words) (hcommit : ¬ Ends ["COMMIT", "END"] words)
      (hrollback : ¬ Ends ["ROLLBACK", "ABORT"] words) : Stands words .statement

theorem isClosingTail_iff {words : List String} :
    isClosingTail words = true ↔ words = [] ∨ words = ["TRANSACTION"] ∨ words = ["WORK"] := by
  match words with
  | [] => simp [isClosingTail]
  | [word] => simp [isClosingTail]
  | first :: second :: rest => simp [isClosingTail]

theorem ends_cons_iff {keywords rest : List String} {first : String} :
    Ends keywords (first :: rest) ↔ first ∈ keywords ∧ isClosingTail rest = true := by
  rw [isClosingTail_iff]
  constructor
  · rintro ⟨keyword, hkeyword, h⟩
    simp only [List.cons.injEq] at h
    grind
  · rintro ⟨hfirst, h⟩
    exact ⟨first, hfirst, by simpa using h⟩

theorem opens_cons_iff {rest : List String} {first : String} :
    Opens (first :: rest) ↔
      first = "BEGIN" ∨ first = "START" ∧ rest.head? = some "TRANSACTION" := by
  cases rest with
  | nil => simp [Opens, eq_comm]
  | cons second rest => simp [Opens, eq_comm]

theorem not_opens_nil : ¬ Opens [] := by simp [Opens]

theorem not_ends_nil (keywords : List String) : ¬ Ends keywords [] := by simp [Ends]

theorem stands_boundaryOfWords (words : List String) : Stands words (boundaryOfWords words) := by
  cases words with
  | nil => exact .statement not_opens_nil (not_ends_nil _) (not_ends_nil _)
  | cons first rest =>
    rw [boundaryOfWords]
    split
    · rename_i hbegin
      exact .begin (opens_cons_iff.mpr (.inl hbegin))
    rename_i hbegin
    split
    · rename_i hstart
      exact .begin (opens_cons_iff.mpr (.inr hstart))
    rename_i hstart
    split
    · rename_i hcommit
      exact .commit (ends_cons_iff.mpr (by simpa using hcommit))
    rename_i hcommit
    split
    · rename_i hrollback
      exact .rollback (ends_cons_iff.mpr (by simpa using hrollback))
    rename_i hrollback
    refine .statement ?_ ?_ ?_
    · rw [opens_cons_iff]
      exact not_or.mpr ⟨hbegin, hstart⟩
    · rw [ends_cons_iff]
      simpa using hcommit
    · rw [ends_cons_iff]
      simpa using hrollback

/-- Words mean one thing. -/
theorem stands_iff {words : List String} {boundary : Boundary} :
    Stands words boundary ↔ boundaryOfWords words = boundary := by
  constructor
  · intro h
    cases words with
    | nil =>
      cases h with
      | begin h => exact absurd h not_opens_nil
      | commit h => exact absurd h (not_ends_nil _)
      | rollback h => exact absurd h (not_ends_nil _)
      | statement => rfl
    | cons first rest =>
      cases h with
      | begin h =>
        rcases opens_cons_iff.mp h with rfl | ⟨rfl, hrest⟩
        · simp [boundaryOfWords]
        · simp [boundaryOfWords, hrest]
      | commit h =>
        obtain ⟨hfirst, hrest⟩ := ends_cons_iff.mp h
        rcases List.mem_pair.mp hfirst with rfl | rfl
        · simp [boundaryOfWords, hrest]
        · simp [boundaryOfWords, hrest]
      | rollback h =>
        obtain ⟨hfirst, hrest⟩ := ends_cons_iff.mp h
        rcases List.mem_pair.mp hfirst with rfl | rfl
        · simp [boundaryOfWords, hrest]
        · simp [boundaryOfWords, hrest]
      | statement hopens hcommit hrollback =>
        rw [opens_cons_iff, not_or] at hopens
        rw [ends_cons_iff] at hcommit hrollback
        rw [boundaryOfWords, if_neg hopens.1, if_neg hopens.2, if_neg (by simpa using hcommit),
          if_neg (by simpa using hrollback)]
  · rintro rfl
    exact stands_boundaryOfWords words

/-- A statement has one size and one list of words, and is what its words say if its size is at most
64 bytes. Otherwise it is no boundary. -/
theorem classify_eq_by_words (sql : String) :
    ∃ size words boundary,
      (∀ size' words', ReadsAs sql size' words' ↔ size' = size ∧ words' = words) ∧
      (∀ boundary', Stands words boundary' ↔ boundary' = boundary) ∧
      classify sql = if size ≤ 64 then boundary else .statement := by
  let kept := Text.trim sql.toList
  refine ⟨(String.ofList kept).utf8ByteSize, capitalWords kept, boundaryOfWords (capitalWords kept),
    fun size' words' => readsAs_iff, ?_, ?_⟩
  · intro boundary'
    rw [stands_iff, eq_comm]
  · unfold classify
    dsimp only
    split
    · rename_i hlong
      exact (if_neg (Nat.not_le.mpr hlong)).symm
    · rename_i hshort
      exact (if_pos (Nat.not_lt.mp hshort)).symm

/-- A statement that opens a transaction is no boundary, as it has 69 bytes. -/
theorem classify_long_start :
    let sql := "START TRANSACTION ISOLATION LEVEL SERIALIZABLE, READ ONLY, DEFERRABLE"
    let words := ["START", "TRANSACTION", "ISOLATION", "LEVEL", "SERIALIZABLE,", "READ", "ONLY,",
      "DEFERRABLE"]
    ReadsAs sql 69 words ∧ Stands words .begin ∧ classify sql = .statement := by
  refine ⟨readsAs_iff.mpr ⟨?_, ?_⟩, stands_iff.mpr ?_, ?_⟩
  · decide +kernel
  · decide +kernel
  · decide +kernel
  · decide +kernel

end WorkloadReplay.Log
