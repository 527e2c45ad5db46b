/-!
# Texts

A text is stored as its UTF-8 bytes: `bytes` gives them and `ofBytes?` finds the text they spell, if
there is one, so a text is determined by its bytes (`ofBytes?_eq_some_iff`). Bytes that spell no
text are shown by `lossy`, with one U+FFFD for each longest run of bytes that starts a character
and is not continued to one.

White space is the property White_Space of the character set: 25 code points, six of them ASCII. A
text is blank when it holds nothing else, and its words are what white space separates.
-/

namespace WorkloadReplay.Text

def bytes (s : String) : List UInt8 := s.toByteArray.data.toList

def ofBytes? (b : List UInt8) : Option String := String.fromUTF8? ⟨b.toArray⟩

theorem ofBytes?_bytes (s : String) : ofBytes? (bytes s) = some s := by
  have h : (⟨(bytes s).toArray⟩ : ByteArray) = s.toByteArray := by simp [bytes]
  unfold ofBytes? String.fromUTF8?
  rw [h, dif_pos s.isValidUTF8]
  rfl

theorem bytes_eq_of_ofBytes? {b : List UInt8} {s : String} (h : ofBytes? b = some s) :
    bytes s = b := by
  unfold ofBytes? String.fromUTF8? at h
  split at h
  · simp only [Option.some.injEq] at h
    subst h
    simp [bytes, String.fromUTF8]
  · simp at h

theorem ofBytes?_eq_some_iff {b : List UInt8} {s : String} : ofBytes? b = some s ↔ bytes s = b :=
  ⟨bytes_eq_of_ofBytes?, fun h => h ▸ ofBytes?_bytes s⟩

theorem bytes_injective {s t : String} (h : bytes s = bytes t) : s = t :=
  Option.some.inj ((ofBytes?_bytes s).symm.trans (h ▸ ofBytes?_bytes t))

/-- The text of ASCII bytes, each taken as the character of its number. -/
def ofAscii (b : List UInt8) : String := String.ofList (b.map fun c => Char.ofNat c.toNat)

/-- What a character's first bytes leave open: the bits they carry, the number of bytes still owed,
and the range of the next one. -/
structure Opening where
  bits : Nat
  owed : Nat
  low : UInt8
  high : UInt8

inductive Start where
  | character (c : Char)
  | opening (o : Opening)
  | nothing

/-- The first byte of a character tells its length, and bounds its second byte so that no character
has two spellings and none is a surrogate or above U+10FFFF. -/
def start (b : UInt8) : Start :=
  if b < 0x80 then .character (Char.ofNat b.toNat)
  else if b < 0xC2 then .nothing
  else if b < 0xE0 then .opening ⟨b.toNat % 0x20, 1, 0x80, 0xBF⟩
  else if b = 0xE0 then .opening ⟨0, 2, 0xA0, 0xBF⟩
  else if b = 0xED then .opening ⟨0xD, 2, 0x80, 0x9F⟩
  else if b < 0xF0 then .opening ⟨b.toNat % 0x10, 2, 0x80, 0xBF⟩
  else if b = 0xF0 then .opening ⟨0, 3, 0x90, 0xBF⟩
  else if b < 0xF4 then .opening ⟨b.toNat % 8, 3, 0x80, 0xBF⟩
  else if b = 0xF4 then .opening ⟨4, 3, 0x80, 0x8F⟩
  else .nothing

def replacement : Char := '\uFFFD'

/-- Shows bytes after the characters `shown` (last first), where `o` is what is open. -/
def showFrom (shown : List Char) (o : Option Opening) : List UInt8 → List Char
  | [] => (if o.isSome then replacement :: shown else shown).reverse
  | b :: rest =>
    match o with
    | some o =>
      if o.low ≤ b ∧ b ≤ o.high then
        let bits := o.bits * 64 + b.toNat % 64
        if o.owed ≤ 1 then showFrom (Char.ofNat bits :: shown) none rest
        else showFrom shown (some ⟨bits, o.owed - 1, 0x80, 0xBF⟩) rest
      else
        match start b with
        | .character c => showFrom (c :: replacement :: shown) none rest
        | .opening o => showFrom (replacement :: shown) (some o) rest
        | .nothing => showFrom (replacement :: replacement :: shown) none rest
    | none =>
      match start b with
      | .character c => showFrom (c :: shown) none rest
      | .opening o => showFrom shown (some o) rest
      | .nothing => showFrom (replacement :: shown) none rest

/-- The text that the bytes spell, or the text that shows them. -/
def lossy (b : List UInt8) : String :=
  match ofBytes? b with
  | some s => s
  | none => String.ofList (showFrom [] none b)

@[simp] theorem lossy_bytes (s : String) : lossy (bytes s) = s := by
  simp [lossy, ofBytes?_bytes]

/-! ## White space -/

def blankRanges : List (Nat × Nat) :=
  [(0x09, 0x0D), (0x20, 0x20), (0x85, 0x85), (0xA0, 0xA0), (0x1680, 0x1680), (0x2000, 0x200A),
    (0x2028, 0x2029), (0x202F, 0x202F), (0x205F, 0x205F), (0x3000, 0x3000)]

def isBlank (c : Char) : Bool := blankRanges.any fun r => r.1 ≤ c.toNat && c.toNat ≤ r.2

example : (blankRanges.map fun r => r.2 + 1 - r.1).sum = 25 := by decide

def blank (s : String) : Bool := s.toList.all isBlank

def trimEnd (cs : List Char) : List Char := (cs.reverse.dropWhile isBlank).reverse

def trim (cs : List Char) : List Char := trimEnd (cs.dropWhile isBlank)

/-- The words of `cs`, the first of which starts with `word` (last character first). -/
def wordsFrom (word : List Char) : List Char → List (List Char)
  | [] => if word.isEmpty then [] else [word.reverse]
  | c :: cs =>
    if isBlank c then
      if word.isEmpty then wordsFrom [] cs else word.reverse :: wordsFrom [] cs
    else wordsFrom (c :: word) cs

/-- The words: the longest runs without white space. -/
def words (cs : List Char) : List (List Char) := wordsFrom [] cs

/-- The blanks that a log pads its zones with: space, tab, line feed, form feed and carriage
return. -/
def isPadding (b : UInt8) : Bool := b = 0x20 || b = 0x09 || b = 0x0A || b = 0x0C || b = 0x0D

def trimPadding (b : List UInt8) : List UInt8 :=
  ((b.dropWhile isPadding).reverse.dropWhile isPadding).reverse

end WorkloadReplay.Text
