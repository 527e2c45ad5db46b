/-!
# Paths

The name of a path is what stands behind its last slash; slashes at its end, and dots alone behind
them, do not count. The extension of a name starts at its last dot, but not at a dot in front. A
path that ends in `..`, or has nothing but slashes and a dot, has no name.
-/

namespace WorkloadReplay.Path

/-- A reversed path without the slashes, and the single dots behind them, in front. -/
def dropSlashes : List Char → List Char
  | [] => []
  | c :: rest =>
    if c = '/' then dropSlashes rest
    else if c = '.' ∧ rest.head? = some '/' then dropSlashes rest
    else c :: rest

/-- What stands before the name of a path, and its name. -/
def splitName? (path : List Char) : Option (List Char × List Char) :=
  let reversed := dropSlashes path.reverse
  let name := (reversed.takeWhile (· ≠ '/')).reverse
  if name = [] || name = ['.'] || name = ['.', '.'] then none
  else some ((reversed.dropWhile (· ≠ '/')).reverse, name)

/-- What stands before the last dot of a name, and what behind it; all of it and nothing if there is
no dot, or none but in front. -/
def splitExtension (name : List Char) : List Char × Option (List Char) :=
  match name.reverse.dropWhile (· ≠ '.') with
  | _ :: c :: stem => ((c :: stem).reverse, some (name.reverse.takeWhile (· ≠ '.')).reverse)
  | _ => (name, none)

def extensionOf? (path : List Char) : Option (List Char) :=
  (splitName? path).bind fun (_, name) => (splitExtension name).2

/-- The path with an extension behind what its name is without one; a path without a name stays as
it is. -/
def setExtension (path extension : List Char) : List Char :=
  match splitName? path with
  | none => path
  | some (before, name) => before ++ (splitExtension name).1 ++ '.' :: extension

/-- The path with another extension. As many characters as its own extension has leave the end of it
first; if no name is left then, as of `..a`, that is all. -/
def replaceExtension (path extension : List Char) : List Char :=
  setExtension (path.take (path.length - ((extensionOf? path).getD []).length)) extension

def extension? (path : String) : Option String := (extensionOf? path.toList).map String.ofList

/-- The path with another extension; a path without a name stays as it is. -/
def withExtension (path extension : String) : String :=
  String.ofList (replaceExtension path.toList extension.toList)

def maxNameLength : Nat := 255

def maxLength : Nat := 4095

def isTooLong (path : String) : Bool := maxLength < path.utf8ByteSize

/-- A character in the path has the number 0, which ends paths. -/
def hasNul (path : String) : Bool := path.toList.any fun c => c.toNat = 0

def isAbsolute (path : String) : Bool := path.toList.head? = some '/'

/-- The path of the directory around what a path leads to, empty if that is where paths start. -/
def directory (path : String) : String :=
  let above := dropSlashes ((dropSlashes path.toList.reverse).dropWhile (· ≠ '/'))
  if above = [] ∧ isAbsolute path then "/" else String.ofList above.reverse

/-- A name like those of files that are still to get their own. -/
def temporaryName : String := ".temporary"

/-- Goes on splitting a path after the characters `part` (last first) of a component. -/
def componentsFrom (part : List Char) : List Char → List (List Char)
  | [] => [part.reverse]
  | c :: rest =>
    if c = '/' then part.reverse :: componentsFrom [] rest else componentsFrom (c :: part) rest

def components (path : String) : List String :=
  ((componentsFrom [] path.toList).filter fun c => c ≠ [] && c ≠ ['.']).map String.ofList

/-- The path can only be that of a directory. -/
def namesDirectory (path : String) : Bool :=
  let reversed := path.toList.reverse
  reversed.head? = some '/' || reversed.take 2 = ['.', '/']

example : withExtension "logs/pg.csv" "rply" = "logs/pg.rply" := by decide +kernel
example : withExtension "..a" "rply" = ".." := by decide +kernel
example : directory "a/b//./c" = "a/b" ∧ directory "./c" = "." := by decide +kernel
example : extension? ".hidden" = none ∧ extension? "a.b.c" = some "c" := by decide +kernel

end WorkloadReplay.Path
