import WorkloadReplay.Log.Statement
import Mathlib.Data.List.Infix
import Mathlib.Data.List.TakeWhile

/-!
# Placeholders and dollar quoting

The placeholders of a text are replaced by a loop over its positions, which comes to the same as
replacing them from the left. A text is placeholders, each with all of its digits, and other
characters, in one way only. What is shown for it has a question mark for each placeholder, and
every other character as it is. So a text is left as it is exactly if it has no placeholder, a
dollar sign with a digit behind it. In particular text that is quoted by dollar signs is left as it
is if no digit stands behind the sign at the end of either of its delimiters, but one that quotes a
text that starts with a digit is changed.
-/

namespace WorkloadReplay.Log

def startsWithDigit (cs : List Char) : Bool := cs.head?.any Char.isDigit

/-- A dollar sign with a digit behind it stands among the characters. -/
def HasPlaceholder (cs : List Char) : Prop := ∃ digit, digit.isDigit = true ∧ ['$', digit] <:+: cs

/-- The characters with a question mark for each placeholder. -/
def replacePlaceholders : List Char → List Char
  | [] => []
  | c :: rest =>
    if c = '$' ∧ (rest.takeWhile Char.isDigit) ≠ [] then
      '?' :: replacePlaceholders (rest.dropWhile Char.isDigit)
    else c :: replacePlaceholders rest
termination_by cs => cs.length
decreasing_by
  · have := (List.dropWhile_sublist Char.isDigit (l := rest)).length_le
    simp only [List.length_cons]
    omega
  · simp

section

variable {c : Char} {cs rest : List Char}

theorem startsWithDigit_iff :
    startsWithDigit cs = true ↔ ∃ digit, digit.isDigit = true ∧ [digit] <+: cs := by
  cases cs with
  | nil => simp [startsWithDigit]
  | cons c cs => simp [startsWithDigit, List.cons_prefix_cons]

theorem startsWithDigit_eq_false_iff :
    startsWithDigit cs = false ↔ cs.takeWhile Char.isDigit = [] := by
  cases cs with
  | nil => simp [startsWithDigit]
  | cons c cs => simp [startsWithDigit, List.takeWhile_cons]

theorem not_hasPlaceholder_nil : ¬ HasPlaceholder [] := by
  rintro ⟨digit, -, h⟩
  cases List.infix_nil.mp h

theorem hasPlaceholder_cons_iff :
    HasPlaceholder (c :: cs) ↔ (c = '$' ∧ startsWithDigit cs = true) ∨ HasPlaceholder cs := by
  simp only [HasPlaceholder, startsWithDigit_iff, List.infix_cons_iff, List.cons_prefix_cons]
  grind

theorem hasPlaceholder_append_iff (h : '$' ∉ cs) :
    HasPlaceholder (cs ++ rest) ↔ HasPlaceholder rest := by
  induction cs with
  | nil => rfl
  | cons c cs ih =>
    rw [List.mem_cons, not_or] at h
    rw [List.cons_append, hasPlaceholder_cons_iff, ih h.2]
    exact or_iff_right fun hc => h.1 hc.1.symm

/-! ## What is replaced -/

theorem replacePlaceholders_cons_of_not (h : ¬ (c = '$' ∧ startsWithDigit rest = true)) :
    replacePlaceholders (c :: rest) = c :: replacePlaceholders rest := by
  rw [replacePlaceholders, if_neg]
  rwa [ne_eq, ← startsWithDigit_eq_false_iff, Bool.not_eq_false]

theorem startsWithDigit_replacePlaceholders (h : startsWithDigit cs = false) :
    startsWithDigit (replacePlaceholders cs) = false := by
  cases cs with
  | nil => rw [replacePlaceholders]; rfl
  | cons c cs =>
    rw [replacePlaceholders]
    split
    · rfl
    · exact h

/-- No placeholder is left, and none comes of what is left. -/
theorem not_hasPlaceholder_replacePlaceholders (cs : List Char) :
    ¬ HasPlaceholder (replacePlaceholders cs) := by
  fun_induction replacePlaceholders cs with
  | case1 => exact not_hasPlaceholder_nil
  | case2 c rest _ ih =>
    rw [hasPlaceholder_cons_iff]
    exact not_or.mpr ⟨by simp, ih⟩
  | case3 c rest hkeep ih =>
    rw [hasPlaceholder_cons_iff]
    refine not_or.mpr ⟨?_, ih⟩
    rintro ⟨rfl, hdigit⟩
    have hnone : startsWithDigit rest = false := by
      rw [startsWithDigit_eq_false_iff]
      simpa using hkeep
    rw [startsWithDigit_replacePlaceholders hnone] at hdigit
    cases hdigit

/-- Only a text with placeholders is changed. -/
theorem replacePlaceholders_eq_self_iff : replacePlaceholders cs = cs ↔ ¬ HasPlaceholder cs := by
  constructor
  · intro h
    rw [← h]
    exact not_hasPlaceholder_replacePlaceholders cs
  · intro h
    induction cs with
    | nil => rw [replacePlaceholders]
    | cons c cs ih =>
      rw [hasPlaceholder_cons_iff, not_or] at h
      rw [replacePlaceholders_cons_of_not h.1, ih h.2]

end

/-! ## The loop over the positions -/

section

variable {p : Char → Bool} {cs : Array Char} {copied pos : Nat}

theorem drop_toList (h : pos < cs.size) :
    cs.toList.drop pos = cs[pos] :: cs.toList.drop (pos + 1) := by
  rw [← Array.length_toList] at h
  rw [List.drop_eq_getElem_cons h, Array.getElem_toList]

theorem drop_skipFrom (p : Char → Bool) (cs : Array Char) (pos : Nat) :
    cs.toList.drop (skipFrom p cs pos) = (cs.toList.drop pos).dropWhile p := by
  fun_induction skipFrom p cs pos with
  | case1 pos h hp ih => rw [ih, drop_toList h, List.dropWhile_cons_of_pos hp]
  | case2 pos h hp => rw [drop_toList h, List.dropWhile_cons_of_neg hp]
  | case3 pos h =>
    rw [List.drop_eq_nil_of_le (by simpa using h), List.dropWhile_nil]

theorem getElem_skipFrom (h : skipFrom p cs pos < cs.size) : p cs[skipFrom p cs pos] = false := by
  fun_induction skipFrom p cs pos with
  | case1 pos hlt hp ih => exact ih h
  | case2 pos hlt hp => exact Bool.eq_false_iff.mpr hp
  | case3 pos hend => exact absurd h hend

theorem getElem_dollar (h : skipFrom (· ≠ '$') cs pos < cs.size) :
    cs[skipFrom (· ≠ '$') cs pos] = '$' :=
  Decidable.not_not.mp (of_decide_eq_false (getElem_skipFrom h))

theorem lt_skipFrom_iff :
    pos < skipFrom p cs pos ↔ (cs.toList.drop pos).head?.any p = true := by
  unfold skipFrom
  split
  · rename_i h
    rw [drop_toList h]
    split
    · rename_i hp
      have := le_skipFrom p cs (pos + 1)
      simp [hp]
      omega
    · rename_i hp
      simp [hp]
  · rename_i h
    rw [List.drop_eq_nil_of_le (by simpa using h)]
    simp

theorem drop_take_succ (h : copied ≤ pos) (hlt : pos < cs.size) :
    (cs.toList.take (pos + 1)).drop copied = (cs.toList.take pos).drop copied ++ [cs[pos]] := by
  rw [← Array.length_toList] at hlt
  rw [List.take_add_one, List.getElem?_eq_getElem hlt, Option.toList_some,
    List.drop_append_of_le_length (by simp; omega), Array.getElem_toList]

theorem append_skipFrom (h : copied ≤ pos) :
    (cs.toList.take (skipFrom (· ≠ '$') cs pos)).drop copied ++
        replacePlaceholders (cs.toList.drop (skipFrom (· ≠ '$') cs pos)) =
      (cs.toList.take pos).drop copied ++ replacePlaceholders (cs.toList.drop pos) := by
  fun_induction skipFrom (· ≠ '$') cs pos with
  | case1 pos hlt hp ih =>
    have hplain : ¬ (cs[pos] = '$' ∧ startsWithDigit (cs.toList.drop (pos + 1)) = true) :=
      fun hc => by simp [hc.1] at hp
    rw [ih (Nat.le_succ_of_le h), drop_take_succ h hlt, drop_toList hlt,
      replacePlaceholders_cons_of_not hplain, List.append_assoc, List.singleton_append]
  | case2 => rfl
  | case3 => rfl

/-- The loop over positions comes to the same as the replacement in the list of characters. -/
theorem replaceFrom_eq (h : copied ≤ pos) : replaceFrom cs copied pos =
    (cs.toList.take pos).drop copied ++ replacePlaceholders (cs.toList.drop pos) := by
  fun_induction replaceFrom cs copied pos with
  | case1 copied pos dollar hdollar stop hdigits ih =>
    have hsign : cs[dollar] = '$' := getElem_dollar hdollar
    have hne : (cs.toList.drop (dollar + 1)).takeWhile Char.isDigit ≠ [] := by
      rw [ne_eq, ← startsWithDigit_eq_false_iff, Bool.not_eq_false]
      exact lt_skipFrom_iff.mp hdigits
    rw [← append_skipFrom h, drop_toList hdollar, hsign, replacePlaceholders,
      if_pos ⟨rfl, hne⟩, ← drop_skipFrom, ih (Nat.le_refl stop), List.drop_take_self,
      Array.toList_extract, List.extract_eq_take_drop, List.nil_append, List.drop_take]
  | case2 copied pos dollar hdollar stop hnone ih =>
    have hsign : cs[dollar] = '$' := getElem_dollar hdollar
    have hplain : ¬ ('$' = '$' ∧ startsWithDigit (cs.toList.drop (dollar + 1)) = true) :=
      fun hc => hnone (lt_skipFrom_iff.mpr hc.2)
    have hle : copied ≤ dollar := Nat.le_trans h (le_skipFrom _ cs pos)
    have hstop : stop = dollar + 1 :=
      Nat.le_antisymm (Nat.not_lt.mp hnone) (le_skipFrom _ cs (dollar + 1))
    rw [ih (by omega), hstop, drop_take_succ hle hdollar, hsign, ← append_skipFrom h,
      drop_toList hdollar, hsign, replacePlaceholders_cons_of_not hplain, List.append_assoc,
      List.singleton_append]
  | case3 copied pos dollar hend =>
    have hle : cs.toList.length ≤ dollar := by simpa using hend
    rw [← append_skipFrom h, List.drop_eq_nil_of_le hle, List.take_of_length_le hle,
      replacePlaceholders, List.append_nil, Array.toList_extract, List.extract_eq_take_drop,
      List.take_of_length_le (by simp)]

end

theorem withoutPlaceholders_eq (sql : String) :
    withoutPlaceholders sql = String.ofList (replacePlaceholders sql.toList) := by
  rw [withoutPlaceholders, replaceFrom_eq (Nat.le_refl 0), List.take_zero, List.drop_nil,
    List.nil_append, List.drop_zero]

/-! ## The placeholders of a text -/

inductive Token where
  | placeholder (digits : List Char)
  | other (c : Char)

def Token.shown : Token → Char
  | placeholder _ => '?'
  | other c => c

/-- The characters are these tokens, one behind the other. A placeholder has at least one digit and
all that follow its sign, and a sign that digits follow is never another character. -/
inductive Tokens : List Char → List Token → Prop where
  | nil : Tokens [] []
  | placeholder {digits rest : List Char} {tokens : List Token} (hne : digits ≠ [])
      (hdigits : ∀ d ∈ digits, d.isDigit = true) (hlongest : startsWithDigit rest = false)
      (h : Tokens rest tokens) :
      Tokens ('$' :: (digits ++ rest)) (.placeholder digits :: tokens)
  | other {c : Char} {rest : List Char} {tokens : List Token}
      (hplain : c = '$' → startsWithDigit rest = false) (h : Tokens rest tokens) :
      Tokens (c :: rest) (.other c :: tokens)

theorem takeWhile_digits {digits rest : List Char} (hdigits : ∀ d ∈ digits, d.isDigit = true)
    (hrest : startsWithDigit rest = false) :
    (digits ++ rest).takeWhile Char.isDigit = digits ∧
      (digits ++ rest).dropWhile Char.isDigit = rest := by
  have htake := startsWithDigit_eq_false_iff.mp hrest
  have hsplit := List.takeWhile_append_dropWhile (p := Char.isDigit) (l := rest)
  rw [htake, List.nil_append] at hsplit
  rw [List.takeWhile_append_of_pos hdigits, List.dropWhile_append_of_pos hdigits, htake, hsplit,
    List.append_nil]
  exact ⟨rfl, rfl⟩

theorem startsWithDigit_append {digits rest : List Char} (hne : digits ≠ [])
    (hdigits : ∀ d ∈ digits, d.isDigit = true) : startsWithDigit (digits ++ rest) = true := by
  obtain ⟨d, digits, rfl⟩ := List.exists_cons_of_ne_nil hne
  exact hdigits d List.mem_cons_self

theorem startsWithDigit_dropWhile (cs : List Char) :
    startsWithDigit (cs.dropWhile Char.isDigit) = false := by
  have h := List.head?_dropWhile_not Char.isDigit cs
  cases hhead : (cs.dropWhile Char.isDigit).head? with
  | none => rw [startsWithDigit, hhead]; rfl
  | some d =>
    rw [hhead] at h
    rw [startsWithDigit, hhead]
    simpa using h

theorem exists_tokens (cs : List Char) :
    ∃ tokens, Tokens cs tokens ∧ replacePlaceholders cs = tokens.map Token.shown := by
  fun_induction replacePlaceholders cs with
  | case1 => exact ⟨[], .nil, rfl⟩
  | case2 c rest hplaceholder ih =>
    obtain ⟨rfl, hne⟩ := hplaceholder
    obtain ⟨tokens, htokens, hshown⟩ := ih
    refine ⟨.placeholder (rest.takeWhile Char.isDigit) :: tokens, ?_, congrArg _ hshown⟩
    have h := Tokens.placeholder hne (fun d hd => List.mem_takeWhile_imp hd)
      (startsWithDigit_dropWhile rest) htokens
    rwa [List.takeWhile_append_dropWhile] at h
  | case3 c rest hkeep ih =>
    obtain ⟨tokens, htokens, hshown⟩ := ih
    refine ⟨.other c :: tokens, .other (fun hc => ?_) htokens, congrArg _ hshown⟩
    rw [startsWithDigit_eq_false_iff]
    simpa [hc] using hkeep

/-- A text has its tokens in one way only. -/
theorem Tokens.unique {cs : List Char} {tokens others : List Token} (h : Tokens cs tokens)
    (h' : Tokens cs others) : others = tokens := by
  induction h generalizing others with
  | nil => cases h'; rfl
  | @placeholder digits rest tokens hne hdigits hlongest _ ih =>
    generalize hcs : '$' :: (digits ++ rest) = cs at h'
    cases h' with
    | nil => cases hcs
    | @placeholder digits' rest' others hne' hdigits' hlongest' h' =>
      have hsame : digits ++ rest = digits' ++ rest' := List.tail_eq_of_cons_eq hcs
      obtain ⟨htake, hdrop⟩ := takeWhile_digits hdigits hlongest
      obtain ⟨htake', hdrop'⟩ := takeWhile_digits hdigits' hlongest'
      rw [← hsame, htake] at htake'
      rw [← hsame, hdrop] at hdrop'
      subst htake' hdrop'
      rw [ih h']
    | other hplain h' =>
      obtain ⟨rfl, rfl⟩ := List.cons_eq_cons.mp hcs
      rw [startsWithDigit_append hne hdigits] at hplain
      cases hplain rfl
  | @other c rest tokens hplain _ ih =>
    generalize hcs : c :: rest = cs at h'
    cases h' with
    | nil => cases hcs
    | placeholder hne' hdigits' _ h' =>
      obtain ⟨rfl, rfl⟩ := List.cons_eq_cons.mp hcs
      rw [startsWithDigit_append hne' hdigits'] at hplain
      cases hplain rfl
    | other _ h' =>
      obtain ⟨rfl, rfl⟩ := List.cons_eq_cons.mp hcs
      rw [ih h']

/-- Replacing placeholders shows a question mark for each of them and every other character as it
is, in the same order; no placeholder is left, so that replacing again changes nothing. -/
theorem withoutPlaceholders_shows_tokens (sql : String) :
    ∃ tokens, Tokens sql.toList tokens ∧ (∀ others, Tokens sql.toList others → others = tokens) ∧
      withoutPlaceholders sql = String.ofList (tokens.map Token.shown) ∧
      ¬ HasPlaceholder (withoutPlaceholders sql).toList ∧
      withoutPlaceholders (withoutPlaceholders sql) = withoutPlaceholders sql := by
  obtain ⟨tokens, htokens, hshown⟩ := exists_tokens sql.toList
  have hnone : ¬ HasPlaceholder (withoutPlaceholders sql).toList := by
    rw [withoutPlaceholders_eq, String.toList_ofList]
    exact not_hasPlaceholder_replacePlaceholders sql.toList
  refine ⟨tokens, htokens, fun others => htokens.unique, ?_, hnone, ?_⟩
  · rw [withoutPlaceholders_eq, hshown]
  · rw [withoutPlaceholders_eq, replacePlaceholders_eq_self_iff.mpr hnone, String.ofList_toList]

example : withoutPlaceholders "$1$23é$$4x$" = "??é$?x$" := by decide +kernel

/-! ## Dollar quoting -/

/-- A text that is quoted by dollar signs with a tag between them. The tag is an identifier or
empty, so it starts with no digit. -/
structure DollarQuoted where
  tag : List Char
  body : List Char
  tag_start : startsWithDigit tag = false
  dollar_notMem_tag : '$' ∉ tag
  dollar_notMem_body : '$' ∉ body

inductive SqlPiece where
  | plain (text : List Char) (dollar_notMem : '$' ∉ text)
  | quoted (q : DollarQuoted)

def DollarQuoted.delimiter (q : DollarQuoted) : List Char := '$' :: (q.tag ++ ['$'])

def SqlPiece.text : SqlPiece → List Char
  | plain text _ => text
  | quoted q => q.delimiter ++ q.body ++ q.delimiter

def textOfPieces (pieces : List SqlPiece) : List Char := pieces.flatMap SqlPiece.text

theorem startsWithDigit_append_dollar (cs rest : List Char) :
    startsWithDigit (cs ++ '$' :: rest) = startsWithDigit cs := by
  cases cs with
  | nil => rfl
  | cons c cs => rfl

/-- Only the sign at the end of a delimiter can have a digit behind it. -/
theorem hasPlaceholder_delimiter_iff (q : DollarQuoted) (rest : List Char) :
    HasPlaceholder (q.delimiter ++ rest) ↔ startsWithDigit rest = true ∨ HasPlaceholder rest := by
  have htag : startsWithDigit (q.tag ++ '$' :: rest) = false := by
    rw [startsWithDigit_append_dollar, q.tag_start]
  rw [DollarQuoted.delimiter, List.cons_append, List.append_assoc, List.singleton_append,
    hasPlaceholder_cons_iff, htag, hasPlaceholder_append_iff q.dollar_notMem_tag,
    hasPlaceholder_cons_iff]
  simp

theorem hasPlaceholder_quoted_iff (q : DollarQuoted) (rest : List Char) :
    HasPlaceholder ((SqlPiece.quoted q).text ++ rest) ↔
      startsWithDigit q.body = true ∨ startsWithDigit rest = true ∨ HasPlaceholder rest := by
  have hbody : startsWithDigit (q.body ++ (q.delimiter ++ rest)) = startsWithDigit q.body :=
    startsWithDigit_append_dollar q.body _
  rw [SqlPiece.text, List.append_assoc, List.append_assoc, hasPlaceholder_delimiter_iff, hbody,
    hasPlaceholder_append_iff q.dollar_notMem_body, hasPlaceholder_delimiter_iff]

/-- The pieces have a placeholder exactly where a digit stands behind a delimiter. -/
theorem hasPlaceholder_textOfPieces_iff (pieces : List SqlPiece) :
    HasPlaceholder (textOfPieces pieces) ↔
      ∃ q after, SqlPiece.quoted q :: after <:+ pieces ∧
        (startsWithDigit q.body = true ∨ startsWithDigit (textOfPieces after) = true) := by
  induction pieces with
  | nil =>
    refine iff_of_false not_hasPlaceholder_nil ?_
    rintro ⟨q, after, hsuffix, -⟩
    cases List.suffix_nil.mp hsuffix
  | cons piece pieces ih =>
    rw [textOfPieces, List.flatMap_cons, ← textOfPieces]
    simp only [List.suffix_cons_iff, List.cons.injEq]
    cases piece with
    | plain text h =>
      rw [SqlPiece.text, hasPlaceholder_append_iff h, ih]
      simp
    | quoted q =>
      rw [hasPlaceholder_quoted_iff, ← or_assoc, ih]
      constructor
      · rintro (hdigit | ⟨q', after, hsuffix, hdigit⟩)
        · exact ⟨q, pieces, .inl ⟨rfl, rfl⟩, hdigit⟩
        · exact ⟨q', after, .inr hsuffix, hdigit⟩
      · rintro ⟨q', after, ⟨⟨⟩, rfl⟩ | hsuffix, hdigit⟩
        · exact .inl hdigit
        · exact .inr ⟨q', after, hsuffix, hdigit⟩

/-- A statement of some pieces is left as it is exactly if no quoted text of it starts with a digit
and no digit stands directly behind a quoted text. -/
theorem withoutPlaceholders_pieces_eq_self_iff (pieces : List SqlPiece) :
    withoutPlaceholders (String.ofList (textOfPieces pieces)) =
        String.ofList (textOfPieces pieces) ↔
      ∀ q after, SqlPiece.quoted q :: after <:+ pieces →
        startsWithDigit q.body = false ∧ startsWithDigit (textOfPieces after) = false := by
  rw [withoutPlaceholders_eq, String.toList_ofList, String.ofList_inj,
    replacePlaceholders_eq_self_iff, hasPlaceholder_textOfPieces_iff]
  simp

example : withoutPlaceholders "$tag$x$tag$, $$a$$" = "$tag$x$tag$, $$a$$" := by decide +kernel

/-- A quoted text that is a number loses it. -/
theorem withoutPlaceholders_quoted_number :
    let q : DollarQuoted := ⟨[], ['1'], rfl, by simp, by simp⟩
    String.ofList (textOfPieces [.quoted q]) = "$$1$$" ∧
      withoutPlaceholders "$$1$$" = "$?$$" := by
  decide +kernel

end WorkloadReplay.Log
