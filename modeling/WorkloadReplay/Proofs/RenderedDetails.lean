import WorkloadReplay.Log.Statement

/-!
# Rendered details

A server renders the parameters of a statement as a list of items `$1 = 'text'`, numbered from one,
with each quote in a text twice and `NULL` for a parameter that is absent. Reading such a detail
gives the value of each parameter in order, whatever the texts contain: an item ends with the quote
that no other follows, and the next character is a gap or there is none.
-/

namespace WorkloadReplay.Log

/-- The text of a parameter between quotes, or `NULL` for one that is absent. -/
def renderedValue : Option String → String
  | none => "NULL"
  | some text => String.ofList (Quoted.enclose '\'' text.toList)

/-- The item of a parameter with its number. -/
def renderedParam (text : Option String) (number : Nat) : String :=
  "$" ++ number.repr ++ " = " ++ renderedValue text

def renderedParams (first : Nat) (texts : List (Option String)) : List String :=
  (texts.zipIdx first).map fun (text, number) => renderedParam text number

def renderedDetail (texts : List (Option String)) : String :=
  "parameters: " ++ ", ".intercalate (renderedParams 1 texts)

def valueOfText (text : Option String) : Value := text.elim .null .infer

section

variable {values : List Value} {text : Option String} {cs rest : List Char}

/-- A value ends before a character that is no quote. -/
theorem detailValue_rendered (text : Option String) (h : rest.head? ≠ some '\'') :
    detailValue ((renderedValue text).toList ++ rest) = .ok (valueOfText text, rest) := by
  cases text with
  | none => rfl
  | some text =>
    have hscan : Quoted.scan '\'' (Quoted.doubled '\'' text.toList ++ '\'' :: rest) =
        (text.toList, some rest) := Quoted.scan_doubled '\'' text.toList rest h
    have hrendered : (renderedValue (some text)).toList ++ rest =
        '\'' :: (Quoted.doubled '\'' text.toList ++ '\'' :: rest) := by
      simp [renderedValue, Quoted.enclose]
    rw [hrendered, detailValue, hscan]
    simp [valueOfText]

theorem detailParam_rendered (text : Option String) (number : Nat)
    (h : rest.head? ≠ some '\'') :
    detailParam ((renderedParam text number).toList ++ rest) = .ok (valueOfText text, rest) := by
  have hdigits : ∀ c ∈ Nat.toDigits 10 number, c.isDigit = true := fun c hc =>
    Nat.isDigit_of_mem_toDigits (by decide) (by decide) hc
  have hrendered : (renderedParam text number).toList ++ rest = '$' :: (Nat.toDigits 10 number ++
      (' ' :: '=' :: ' ' :: ((renderedValue text).toList ++ rest))) := by
    simp [renderedParam, Nat.repr]
  rw [hrendered]
  simp only [detailParam, List.takeWhile_append_of_pos hdigits,
    List.dropWhile_append_of_pos hdigits]
  rw [if_neg (by simp [Nat.toDigits_ne_nil])]
  exact detailValue_rendered text h

theorem detailParamsFrom_gap {gap : List Char} (hgap : ∀ c ∈ gap, isGap c = true) :
    detailParamsFrom values (gap ++ cs) = detailParamsFrom values cs := by
  rw [detailParamsFrom, detailParamsFrom, List.dropWhile_append_of_pos hgap]

theorem detailParamsFrom_param (text : Option String) (number : Nat)
    (h : rest.head? ≠ some '\'') :
    detailParamsFrom values ((renderedParam text number).toList ++ rest) =
      detailParamsFrom (valueOfText text :: values) rest := by
  have hparam := detailParam_rendered text number h
  obtain ⟨more, hmore⟩ : ∃ more, (renderedParam text number).toList ++ rest = '$' :: more :=
    ⟨_, by simp only [renderedParam, String.toList_append, List.append_assoc]; rfl⟩
  have hdrop : ('$' :: more).dropWhile isGap = '$' :: more := rfl
  rw [hmore] at hparam ⊢
  rw [detailParamsFrom]
  split
  · rename_i hnil
    rw [hdrop] at hnil
    cases hnil
  · rename_i c cs hcons
    rw [hdrop] at hcons
    cases hcons
    split
    · rename_i v found hfound
      rw [hparam] at hfound
      cases hfound
      rfl
    · rename_i problem hfound
      rw [hparam] at hfound
      cases hfound

end

/-! The items of a detail. -/

/-- Items that follow others, each behind a comma and a blank. -/
def furtherItems (items : List String) : List Char :=
  items.flatMap fun item => ", ".toList ++ item.toList

theorem isGap_of_mem_separator : ∀ c ∈ ", ".toList, isGap c = true := by
  have hseparator : ", ".toList = [',', ' '] := rfl
  rw [hseparator]
  simp [isGap]

theorem head?_furtherItems (items : List String) : (furtherItems items).head? ≠ some '\'' := by
  cases items with
  | nil => exact nofun
  | cons item items => exact nofun

theorem furtherItems_cons (item : String) (items : List String) :
    furtherItems (item :: items) = ", ".toList ++ (item.toList ++ furtherItems items) := by
  rw [furtherItems, furtherItems, List.flatMap_cons, List.append_assoc]

theorem toList_intercalate_cons (item : String) (items : List String) :
    (", ".intercalate (item :: items)).toList = item.toList ++ furtherItems items := by
  induction items generalizing item with
  | nil =>
    rw [String.intercalate_singleton, furtherItems, List.flatMap_nil, List.append_nil]
  | cons next items ih =>
    rw [String.intercalate_cons_cons, String.toList_append, String.toList_append, ih,
      List.append_assoc, furtherItems_cons]

theorem detailParamsFrom_intercalate (values : List Value) (items : List String) :
    detailParamsFrom values (", ".intercalate items).toList =
      detailParamsFrom values (furtherItems items) := by
  cases items with
  | nil => rfl
  | cons item items =>
    rw [toList_intercalate_cons, furtherItems_cons, detailParamsFrom_gap isGap_of_mem_separator]

theorem detailParamsFrom_furtherItems (values : List Value) (first : Nat)
    (texts : List (Option String)) :
    detailParamsFrom values (furtherItems (renderedParams first texts)) =
      .ok (values.reverse ++ texts.map valueOfText) := by
  induction texts generalizing values first with
  | nil =>
    have hnone : furtherItems (renderedParams first []) = [] := rfl
    rw [hnone, detailParamsFrom, List.map_nil, List.append_nil]
    rfl
  | cons text texts ih =>
    have hcons : renderedParams first (text :: texts) =
        renderedParam text first :: renderedParams (first + 1) texts := rfl
    rw [hcons, furtherItems_cons, detailParamsFrom_gap isGap_of_mem_separator,
      detailParamsFrom_param text first (head?_furtherItems _), ih, List.reverse_cons,
      List.append_assoc, List.map_cons]
    rfl

/-- Reading the detail that is rendered for some parameters gives the value of each, in order. -/
theorem paramsOfDetail_renderedDetail (texts : List (Option String)) (line : Nat) :
    paramsOfDetail (renderedDetail texts) line = .ok (texts.map valueOfText) := by
  have htoList : (renderedDetail texts).toList =
      detailMark ++ (", ".intercalate (renderedParams 1 texts)).toList := String.toList_append
  have hmark : detailMark.isPrefixOf (renderedDetail texts).toList = true := by
    rw [htoList, List.isPrefixOf_iff_prefix]
    exact List.prefix_append _ _
  rw [paramsOfDetail, if_pos hmark, htoList, List.drop_left, detailParamsFrom_intercalate,
    detailParamsFrom_furtherItems]
  rfl

example : renderedDetail [some "it's", none, some "$2 = NULL, '"] =
    "parameters: $1 = 'it''s', $2 = NULL, $3 = '$2 = NULL, '''" := by decide

end WorkloadReplay.Log
