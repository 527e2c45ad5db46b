import WorkloadReplay.Path
import Mathlib.Data.List.TakeWhile
import Mathlib.Tactic.Common

/-!
# The names on the way along a path

The way along a path is the way to the directory around what it leads to, and then its last name.
-/

namespace WorkloadReplay.Path

def namesOf (path : List Char) : List String :=
  ((componentsFrom [] path).filter fun c => c ≠ [] && c ≠ ['.']).map String.ofList

theorem components_eq_namesOf (path : String) : components path = namesOf path.toList := rfl

theorem componentsFrom_append_slash (part before after : List Char) :
    componentsFrom part (before ++ '/' :: after) =
      componentsFrom part before ++ componentsFrom [] after := by
  induction before generalizing part with
  | nil => simp [componentsFrom]
  | cons c before ih =>
    rw [List.cons_append, componentsFrom, componentsFrom]
    by_cases hc : c = '/'
    · rw [if_pos hc, if_pos hc, ih, List.cons_append]
    · rw [if_neg hc, if_neg hc, ih]

theorem componentsFrom_of_not_mem {path : List Char} (h : '/' ∉ path) (part : List Char) :
    componentsFrom part path = [part.reverse ++ path] := by
  induction path generalizing part with
  | nil => simp [componentsFrom]
  | cons c path ih =>
    rw [List.mem_cons, not_or] at h
    rw [componentsFrom, if_neg (Ne.symm h.1), ih h.2]
    simp

theorem namesOf_append_slash (before after : List Char) :
    namesOf (before ++ '/' :: after) = namesOf before ++ namesOf after := by
  unfold namesOf
  rw [componentsFrom_append_slash, List.filter_append, List.map_append]

theorem namesOf_nil : namesOf [] = [] := rfl

theorem namesOf_dot : namesOf ['.'] = [] := rfl

theorem namesOf_of_not_mem {name : List Char} (hslash : '/' ∉ name) (hnil : name ≠ [])
    (hdot : name ≠ ['.']) : namesOf name = [String.ofList name] := by
  unfold namesOf
  rw [componentsFrom_of_not_mem hslash]
  simp [hnil, hdot]

/-! Slashes and single dots at the end. -/

theorem dropSlashes_suffix (reversed : List Char) : dropSlashes reversed <:+ reversed := by
  induction reversed with
  | nil => exact List.suffix_refl _
  | cons c rest ih =>
    have hrest := ih.trans (List.suffix_cons c rest)
    rw [dropSlashes]
    split
    · exact hrest
    · split
      · exact hrest
      · exact List.suffix_refl _

theorem namesOf_dropSlashes (reversed : List Char) :
    namesOf (dropSlashes reversed).reverse = namesOf reversed.reverse := by
  induction reversed with
  | nil => rfl
  | cons c rest ih =>
    rw [dropSlashes, List.reverse_cons]
    by_cases hslash : c = '/'
    · rw [if_pos hslash, ih, hslash, namesOf_append_slash, namesOf_nil, List.append_nil]
    · rw [if_neg hslash]
      by_cases hdot : c = '.' ∧ rest.head? = some '/'
      · rw [if_pos hdot, ih, hdot.1]
        obtain ⟨after, rfl⟩ := List.head?_eq_some_iff.mp hdot.2
        rw [List.reverse_cons, List.append_assoc]
        show _ = namesOf (after.reverse ++ '/' :: ['.'])
        rw [namesOf_append_slash, namesOf_append_slash, namesOf_nil, namesOf_dot]
      · rw [if_neg hdot, List.reverse_cons]

theorem dropSlashes_eq_self {path : String} (h : namesDirectory path = false) :
    dropSlashes path.toList.reverse = path.toList.reverse := by
  unfold namesDirectory at h
  generalize path.toList.reverse = reversed at h ⊢
  cases reversed with
  | nil => rfl
  | cons c rest =>
    simp only [List.head?_cons, Option.some.injEq, Bool.or_eq_false_iff,
      decide_eq_false_iff_not] at h
    obtain ⟨hslash, hdot⟩ := h
    rw [dropSlashes, if_neg hslash, if_neg]
    rintro ⟨rfl, hhead⟩
    obtain ⟨after, rfl⟩ := List.head?_eq_some_iff.mp hhead
    exact hdot rfl

/-! The directory around. -/

/-- The last name of a path and what stands before it. -/
theorem toList_eq_append (path : String) :
    path.toList = (path.toList.reverse.dropWhile (· ≠ '/')).reverse ++
      (path.toList.reverse.takeWhile (· ≠ '/')).reverse := by
  rw [← List.reverse_append, List.takeWhile_append_dropWhile, List.reverse_reverse]

theorem namesOf_split (path : String) :
    components path = namesOf (path.toList.reverse.dropWhile (· ≠ '/')).reverse ++
      namesOf (path.toList.reverse.takeWhile (· ≠ '/')).reverse := by
  rw [components_eq_namesOf]
  conv_lhs => rw [toList_eq_append]
  cases hbefore : path.toList.reverse.dropWhile (· ≠ '/') with
  | nil => rfl
  | cons c before =>
    have hc : c = '/' := by
      have hhead := List.head?_dropWhile_not (· ≠ '/') path.toList.reverse
      rw [hbefore] at hhead
      simpa using hhead
    rw [hc, List.reverse_cons, List.append_assoc]
    show namesOf (before.reverse ++ '/' :: _) = _
    rw [namesOf_append_slash, namesOf_append_slash, namesOf_nil, List.append_nil]
    rfl

theorem components_directory {path : String} (h : namesDirectory path = false) :
    components (directory path) = namesOf (path.toList.reverse.dropWhile (· ≠ '/')).reverse := by
  unfold directory
  dsimp only
  rw [dropSlashes_eq_self h]
  have hdrop := namesOf_dropSlashes (path.toList.reverse.dropWhile (· ≠ '/'))
  generalize dropSlashes (path.toList.reverse.dropWhile (· ≠ '/')) = above at hdrop ⊢
  rw [← hdrop]
  split
  · rename_i habove
    rw [habove.1]
    rfl
  · rw [components_eq_namesOf, String.toList_ofList]

theorem last_ne {path : String} (hnames : components path ≠ []) (h : namesDirectory path = false) :
    path.toList.reverse.takeWhile (· ≠ '/') ≠ [] ∧
      path.toList.reverse.takeWhile (· ≠ '/') ≠ ['.'] := by
  rw [components_eq_namesOf, ← List.reverse_reverse path.toList] at hnames
  unfold namesDirectory at h
  generalize path.toList.reverse = reversed at hnames h ⊢
  cases reversed with
  | nil => exact absurd namesOf_nil hnames
  | cons c rest =>
    simp only [List.head?_cons, Option.some.injEq, Bool.or_eq_false_iff,
      decide_eq_false_iff_not] at h
    rw [List.takeWhile_cons_of_pos (by simpa using h.1)]
    refine ⟨List.cons_ne_nil _ _, ?_⟩
    intro hdot
    obtain ⟨rfl, htake⟩ := List.cons.inj hdot
    cases rest with
    | nil => exact hnames namesOf_dot
    | cons d rest =>
      have hd : d = '/' := by
        by_contra hne
        rw [List.takeWhile_cons_of_pos (by simpa using hne)] at htake
        cases htake
      exact h.2 (by rw [hd]; rfl)

/-- The way along a path that can be that of a file. -/
theorem components_eq_append {path name : String} (hlast : (components path).getLast? = some name)
    (h : namesDirectory path = false) :
    components path = components (directory path) ++ [name] := by
  have hsplit := namesOf_split path
  rw [← components_directory h] at hsplit
  have hnames : components path ≠ [] := by
    intro hnil
    rw [hnil] at hlast
    cases hlast
  obtain ⟨hnil, hdot⟩ := last_ne hnames h
  have hslash : '/' ∉ path.toList.reverse.takeWhile (· ≠ '/') := by
    intro hmem
    have htake := List.mem_takeWhile_imp hmem
    simp at htake
  generalize path.toList.reverse.takeWhile (· ≠ '/') = last at hsplit hnil hdot hslash
  have hlastNames : namesOf last.reverse = [String.ofList last.reverse] := by
    apply namesOf_of_not_mem
    · rwa [List.mem_reverse]
    · rwa [Ne, List.reverse_eq_nil_iff]
    · rwa [Ne, List.reverse_eq_iff]
  rw [hlastNames] at hsplit
  rw [hsplit, List.getLast?_concat] at hlast
  rw [hsplit, Option.some.inj hlast]

theorem isAbsolute_directory (path : String) : isAbsolute (directory path) = isAbsolute path := by
  unfold directory
  dsimp only
  split
  · rename_i habove
    rw [habove.2]
    rfl
  · rename_i habove
    have hsuffix := (dropSlashes_suffix _).trans
      ((List.dropWhile_suffix (· ≠ '/')).trans (dropSlashes_suffix path.toList.reverse))
    generalize dropSlashes _ = above at habove hsuffix ⊢
    obtain ⟨after, hafter⟩ := List.reverse_prefix.mpr hsuffix
    rw [List.reverse_reverse] at hafter
    unfold isAbsolute at habove ⊢
    rw [String.toList_ofList]
    by_cases hnil : above = []
    · subst hnil
      simpa using habove
    · rw [← hafter, List.head?_append, List.head?_eq_some_head (List.reverse_ne_nil_iff.mpr hnil)]
      rfl

end WorkloadReplay.Path
