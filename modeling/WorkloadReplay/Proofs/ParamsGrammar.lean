import WorkloadReplay.Proofs.NumberTexts
import WorkloadReplay.Proofs.RecordLines
import WorkloadReplay.Proofs.TextBytes

/-!
# The grammar of parameters

A list of values is read exactly where tuples stand one after the other: the letter of a type, and
between single quotes a text that means a value of this type. Nothing separates the tuples, so only
a quote that no other follows ends one. This leaves one way to take the bytes apart, and bytes that
cannot be taken apart are refused for the first tuple that does not fit.
-/

namespace WorkloadReplay

namespace Value

inductive Means : UInt8 → List UInt8 → Value → Prop where
  | null : Means nullTag [] .null
  | int {b : List UInt8} {v : Int64} (h : Numeral.Spells b v) : Means intTag b (.int v)
  | double {b : List UInt8} {x : Double} (h : Double.Spells b x) : Means doubleTag b (.double x)
  | text (s : String) : Means textTag (Text.bytes s) (.text s)
  | isTrue : Means boolTag trueText (.bool true)
  | isFalse : Means boolTag falseText (.bool false)
  | date {b : List UInt8} {v : Int64} (h : Numeral.Spells b v) : Means dateTag b (.date v)
  | time {b : List UInt8} {v : Int64} (h : Numeral.Spells b v) : Means timeTag b (.time v)
  | timestamp {b : List UInt8} {v : Int64} (h : Numeral.Spells b v) :
      Means timestampTag b (.timestamp v)

theorem means_of_ofBody? {tag : UInt8} {b : List UInt8} {v : Value} (h : ofBody? tag b = some v) :
    Means tag b v := by
  unfold ofBody? at h
  obtain ⟨hnull, h⟩ | ⟨-, h⟩ := ite_eq_iff.mp h
  · obtain ⟨hempty, ⟨⟩⟩ := Option.ite_none_right_eq_some.mp h
    rw [hnull, List.isEmpty_iff.mp hempty]
    exact .null
  obtain ⟨hint, h⟩ | ⟨-, h⟩ := ite_eq_iff.mp h
  · obtain ⟨i, hi, rfl⟩ := Option.map_eq_some_iff.mp h
    exact hint ▸ .int (Numeral.int64?_eq_some_iff.mp hi)
  obtain ⟨hdate, h⟩ | ⟨-, h⟩ := ite_eq_iff.mp h
  · obtain ⟨i, hi, rfl⟩ := Option.map_eq_some_iff.mp h
    exact hdate ▸ .date (Numeral.int64?_eq_some_iff.mp hi)
  obtain ⟨htime, h⟩ | ⟨-, h⟩ := ite_eq_iff.mp h
  · obtain ⟨i, hi, rfl⟩ := Option.map_eq_some_iff.mp h
    exact htime ▸ .time (Numeral.int64?_eq_some_iff.mp hi)
  obtain ⟨htimestamp, h⟩ | ⟨-, h⟩ := ite_eq_iff.mp h
  · obtain ⟨i, hi, rfl⟩ := Option.map_eq_some_iff.mp h
    exact htimestamp ▸ .timestamp (Numeral.int64?_eq_some_iff.mp hi)
  obtain ⟨hdouble, h⟩ | ⟨-, h⟩ := ite_eq_iff.mp h
  · obtain ⟨x, hx, rfl⟩ := Option.map_eq_some_iff.mp h
    exact hdouble ▸ .double (Double.ofText?_eq_some_iff.mp hx)
  obtain ⟨htext, h⟩ | ⟨-, h⟩ := ite_eq_iff.mp h
  · obtain ⟨s, hs, rfl⟩ := Option.map_eq_some_iff.mp h
    rw [htext, ← Text.ofBytes?_eq_some_iff.mp hs]
    exact .text s
  obtain ⟨hbool, h⟩ | ⟨-, h⟩ := ite_eq_iff.mp h
  · rw [hbool]
    split_ifs at h with htrue hfalse
    · cases h
      exact htrue ▸ .isTrue
    · cases h
      exact hfalse ▸ .isFalse
  · cases h

theorem ofBody?_eq_some_iff {tag : UInt8} {b : List UInt8} {v : Value} :
    ofBody? tag b = some v ↔ Means tag b v := by
  refine ⟨means_of_ofBody?, fun h => ?_⟩
  cases h with
  | null => rfl
  | int h => exact congrArg (Option.map int) (Numeral.int64?_eq_some_iff.mpr h)
  | double h => exact congrArg (Option.map double) (Double.ofText?_eq_some_iff.mpr h)
  | text s => exact congrArg (Option.map text) (Text.ofBytes?_bytes s)
  | isTrue => rfl
  | isFalse => rfl
  | date h => exact congrArg (Option.map date) (Numeral.int64?_eq_some_iff.mpr h)
  | time h => exact congrArg (Option.map time) (Numeral.int64?_eq_some_iff.mpr h)
  | timestamp h => exact congrArg (Option.map timestamp) (Numeral.int64?_eq_some_iff.mpr h)

theorem Means.exists_text {tag : UInt8} {b : List UInt8} {v : Value} (h : Means tag b v) :
    ∃ s, Text.bytes s = b := by
  cases h with
  | text s => exact ⟨s, rfl⟩
  | null => exact Text.exists_bytes_eq_of_ascii (by simp)
  | isTrue => exact Text.exists_bytes_eq_of_ascii (Text.ascii_of_all (by decide))
  | isFalse => exact Text.exists_bytes_eq_of_ascii (Text.ascii_of_all (by decide))
  | double h => exact Text.exists_bytes_eq_of_ascii h.ascii
  | int h | date h | time h | timestamp h => exact Text.exists_bytes_eq_of_ascii h.ascii

end Value

namespace Params

/-- A value as it stands in a list: the letter of a type and a text. -/
structure Tuple where
  letter : UInt8
  text : String
  known : letter ∈ Value.tags

namespace Tuple

def bytes (t : Tuple) : List UInt8 := t.letter :: Quoted.enclose quote (Text.bytes t.text)

def Means (t : Tuple) (v : Value) : Prop := Value.Means t.letter (Text.bytes t.text) v

theorem letter_ne_quote (t : Tuple) : t.letter ≠ quote :=
  fun h => Value.quote_not_mem_tags (h ▸ t.known)

theorem ext_bytes {t u : Tuple} (hletter : t.letter = u.letter)
    (htext : Text.bytes t.text = Text.bytes u.text) : t = u := by
  obtain ⟨letter, text, known⟩ := t
  obtain ⟨_, _, _⟩ := u
  obtain rfl : letter = _ := hletter
  obtain rfl := Text.bytes_injective htext
  rfl

end Tuple

/-- No tuple that means a value stands in front of the bytes, for the reason that the fault gives:
there is no letter of a type, no quote behind it, no quote that closes the text, or the text is that
of no value of the type. -/
inductive Misfit : List UInt8 → Fault → Prop where
  | letter {c : UInt8} (rest : List UInt8) (h : c ∉ Value.tags) :
      Misfit (c :: rest) (.unknownTypeTag c)
  | opening {c : UInt8} {rest : List UInt8} (hletter : c ∈ Value.tags)
      (h : rest.head? ≠ some quote) : Misfit (c :: rest) (.invalidParamValue c (Text.lossy rest))
  | closing {c : UInt8} (content : List UInt8) (hletter : c ∈ Value.tags) :
      Misfit (c :: quote :: Quoted.doubled quote content)
        (.invalidParamValue c (Text.lossy content))
  | value {c : UInt8} {content rest : List UInt8} (hletter : c ∈ Value.tags)
      (hrest : rest.head? ≠ some quote) (h : ∀ v, ¬ Value.Means c content v) :
      Misfit (c :: (Quoted.enclose quote content ++ rest))
        (.invalidParamValue c (Text.lossy content))

/-- What is read: one tuple after the other, up to the end or to the first misfit. -/
inductive Reads : List UInt8 → Except Fault (List Value) → Prop where
  | nil : Reads [] (.ok [])
  | misfit {b : List UInt8} {fault : Fault} (h : Misfit b fault) : Reads b (.error fault)
  | tuple {t : Tuple} {v : Value} {rest : List UInt8} {answer : Except Fault (List Value)}
      (h : t.Means v) (hrest : rest.head? ≠ some quote) (hreads : Reads rest answer) :
      Reads (t.bytes ++ rest) (answer.map (v :: ·))

theorem decodeFrom_of_misfit {b : List UInt8} {fault : Fault} (h : Misfit b fault)
    (values : List Value) : decodeFrom values b = .error fault := by
  cases h with
  | letter rest h => cases rest <;> rw [decodeFrom, if_pos h]
  | @opening c rest hletter h =>
    cases rest with
    | nil => rw [decodeFrom, if_neg (not_not_intro hletter)]
    | cons q rest =>
      have hq : q ≠ quote := by simpa using h
      rw [decodeFrom, if_neg (not_not_intro hletter), if_pos hq]
  | closing content hletter =>
    rw [decodeFrom, if_neg (not_not_intro hletter), if_neg (not_not_intro rfl)]
    split
    · rename_i h
      cases (Quoted.scan_eq_none_iff.mpr rfl).symm.trans h
      rfl
    · rename_i h
      cases (Quoted.scan_eq_none_iff.mpr rfl).symm.trans h
  | @value c content rest hletter hrest h =>
    have hnone : Value.ofBody? c content = none :=
      Option.eq_none_iff_forall_ne_some.mpr fun v hv => h v (Value.means_of_ofBody? hv)
    rw [decodeFrom_value hletter hrest, hnone]

theorem decodeFrom_of_reads {b : List UInt8} {answer : Except Fault (List Value)}
    (h : Reads b answer) (values : List Value) :
    decodeFrom values b = answer.map (values.reverse ++ ·) := by
  induction h generalizing values with
  | nil => simp [decodeFrom, Except.map]
  | misfit h => exact decodeFrom_of_misfit h values
  | @tuple t v rest answer h hrest _ ih =>
    rw [Tuple.bytes, List.cons_append, decodeFrom_value t.known hrest,
      Value.ofBody?_eq_some_iff.mpr h]
    cases answer <;> simp [ih, Except.map]

/-- There is something to be read in any bytes. -/
theorem exists_reads (b : List UInt8) : ∃ answer, Reads b answer := by
  induction hn : b.length using Nat.strong_induction_on generalizing b with
  | _ n ih =>
    subst hn
    match b with
    | [] => exact ⟨_, .nil⟩
    | c :: rest =>
      by_cases hletter : c ∈ Value.tags
      swap
      · exact ⟨_, .misfit (.letter rest hletter)⟩
      by_cases hquote : rest.head? = some quote
      swap
      · exact ⟨_, .misfit (.opening hletter hquote)⟩
      obtain ⟨inside, rfl⟩ := List.head?_eq_some_iff.mp hquote
      match hscan : Quoted.scan quote inside with
      | (content, none) =>
        obtain rfl := Quoted.scan_eq_none_iff.mp hscan
        exact ⟨_, .misfit (.closing content hletter)⟩
      | (content, some more) =>
        obtain ⟨hmore, rfl⟩ := Quoted.scan_eq_some_iff.mp hscan
        have hbytes : c :: quote :: (Quoted.doubled quote content ++ quote :: more) =
            c :: (Quoted.enclose quote content ++ more) := by simp [Quoted.enclose]
        rw [hbytes]
        by_cases hv : ∃ v, Value.Means c content v
        · obtain ⟨v, hv⟩ := hv
          obtain ⟨s, rfl⟩ := hv.exists_text
          obtain ⟨answer, hreads⟩ := ih more.length (by simp; omega) more rfl
          exact ⟨_, .tuple (t := ⟨c, s, hletter⟩) hv hmore hreads⟩
        · exact ⟨_, .misfit (.value hletter hmore (not_exists.mp hv))⟩

theorem decode_eq_iff_reads {b : List UInt8} {answer : Except Fault (List Value)} :
    decode b = answer ↔ Reads b answer := by
  have hdecode {answer : Except Fault (List Value)} (h : Reads b answer) : decode b = answer := by
    rw [decode, decodeFrom_of_reads h]
    cases answer <;> rfl
  refine ⟨?_, hdecode⟩
  rintro rfl
  obtain ⟨answer, h⟩ := exists_reads b
  exact (hdecode h).symm ▸ h

theorem head?_tuples_append_ne_quote (ts : List Tuple) {rest : List UInt8}
    (hrest : rest.head? ≠ some quote) : (ts.flatMap Tuple.bytes ++ rest).head? ≠ some quote := by
  cases ts with
  | nil => exact hrest
  | cons t ts => simpa [Tuple.bytes] using t.letter_ne_quote

/-- The values of tuples are read in front of anything but a quote, which would double the last
quote of the tuples. -/
theorem Reads.behind_tuples {ts : List Tuple} {vs : List Value} {rest : List UInt8}
    {answer : Except Fault (List Value)} (hmeans : List.Forall₂ Tuple.Means ts vs)
    (hrest : ts ≠ [] → rest.head? ≠ some quote) (hreads : Reads rest answer) :
    Reads (ts.flatMap Tuple.bytes ++ rest) (answer.map (vs ++ ·)) := by
  induction hmeans with
  | nil =>
    cases answer <;> exact hreads
  | @cons t v ts vs hv _ ih =>
    have hrest : rest.head? ≠ some quote := hrest (List.cons_ne_nil t ts)
    have hread := Reads.tuple hv (head?_tuples_append_ne_quote ts hrest) (ih fun _ => hrest)
    rw [List.flatMap_cons, List.append_assoc]
    cases answer <;> exact hread

theorem Reads.exists_tuples {b : List UInt8} {answer : Except Fault (List Value)}
    (h : Reads b answer) :
    ∃ (ts : List Tuple) (vs : List Value) (rest : List UInt8),
      b = ts.flatMap Tuple.bytes ++ rest ∧ List.Forall₂ Tuple.Means ts vs ∧
        (ts ≠ [] → rest.head? ≠ some quote) ∧
          (rest = [] ∧ answer = .ok vs ∨ ∃ fault, Misfit rest fault ∧ answer = .error fault) := by
  induction h with
  | nil => exact ⟨[], [], [], rfl, .nil, fun _ => by simp, .inl ⟨rfl, rfl⟩⟩
  | misfit h => exact ⟨[], [], _, rfl, .nil, fun h => absurd rfl h, .inr ⟨_, h, rfl⟩⟩
  | @tuple t v rest answer hv hrest _ ih =>
    obtain ⟨ts, vs, more, rfl, hmeans, hmore, hend⟩ := ih
    refine ⟨t :: ts, v :: vs, more, by simp, .cons hv hmeans, fun _ => ?_, ?_⟩
    · cases ts with
      | nil => exact hrest
      | cons u ts => exact hmore (List.cons_ne_nil u ts)
    · rcases hend with ⟨rfl, rfl⟩ | ⟨fault, hmisfit, rfl⟩
      · exact .inl ⟨rfl, rfl⟩
      · exact .inr ⟨fault, hmisfit, rfl⟩

/-- Bytes are tuples in one way at most. -/
theorem tuples_unique {ts us : List Tuple}
    (h : ts.flatMap Tuple.bytes = us.flatMap Tuple.bytes) : ts = us := by
  induction ts generalizing us with
  | nil =>
    cases us with
    | nil => rfl
    | cons u us => simp [Tuple.bytes] at h
  | cons t ts ih =>
    cases us with
    | nil => simp [Tuple.bytes] at h
    | cons u us =>
      simp only [List.flatMap_cons, Tuple.bytes, Quoted.enclose, List.cons_append,
        List.append_assoc, List.nil_append, List.cons.injEq, true_and] at h
      obtain ⟨hletter, hinside⟩ := h
      have hhead (ts : List Tuple) : (ts.flatMap Tuple.bytes).head? ≠ some quote := by
        rw [← List.append_nil (ts.flatMap Tuple.bytes)]
        exact head?_tuples_append_ne_quote ts (by simp)
      have hscan := congrArg (Quoted.scan quote) hinside
      rw [Quoted.scan_doubled _ _ _ (hhead ts), Quoted.scan_doubled _ _ _ (hhead us)] at hscan
      simp only [Prod.mk.injEq, Option.some.injEq] at hscan
      rw [Tuple.ext_bytes hletter hscan.1, ih hscan.2]

/-- How the bytes of parameters are answered. -/
structure ReadAsTuples (b : List UInt8) (answer : Except Fault (List Value)) : Prop where
  /-- Values are read where the bytes are tuples, each of which means its value. -/
  accepted (vs : List Value) : answer = .ok vs ↔
    ∃ ts : List Tuple, b = ts.flatMap Tuple.bytes ∧ List.Forall₂ Tuple.Means ts vs
  /-- They are tuples in no other way. -/
  unique (ts us : List Tuple) : b = ts.flatMap Tuple.bytes → b = us.flatMap Tuple.bytes → ts = us
  /-- All else is refused for what stands behind the tuples that mean a value. -/
  refused (fault : Fault) : answer = .error fault ↔
    ∃ (ts : List Tuple) (vs : List Value) (rest : List UInt8),
      b = ts.flatMap Tuple.bytes ++ rest ∧ List.Forall₂ Tuple.Means ts vs ∧
        (ts ≠ [] → rest.head? ≠ some quote) ∧ Misfit rest fault

/-- The bytes of parameters are read by the grammar of tuples alone. -/
theorem decode_readAsTuples (b : List UInt8) : ReadAsTuples b (decode b) := by
  refine ⟨fun vs => ?_, ?_, fun fault => ?_⟩
  · rw [decode_eq_iff_reads]
    constructor
    · intro h
      obtain ⟨ts, vs', rest, rfl, hmeans, -, hend⟩ := h.exists_tuples
      rcases hend with ⟨rfl, hvs⟩ | ⟨fault, -, hfault⟩
      · cases hvs
        exact ⟨ts, List.append_nil _, hmeans⟩
      · cases hfault
    · rintro ⟨ts, rfl, hmeans⟩
      simpa [Except.map] using Reads.behind_tuples hmeans (by simp) .nil
  · rintro ts us rfl h
    exact tuples_unique h
  · rw [decode_eq_iff_reads]
    constructor
    · intro h
      obtain ⟨ts, vs, rest, rfl, hmeans, hrest, hend⟩ := h.exists_tuples
      rcases hend with ⟨-, hvs⟩ | ⟨fault', hmisfit, hfault⟩
      · cases hvs
      · cases hfault
        exact ⟨ts, vs, rest, rfl, hmeans, hrest, hmisfit⟩
    · rintro ⟨ts, vs, rest, rfl, hmeans, hrest, hmisfit⟩
      exact Reads.behind_tuples hmeans hrest (.misfit hmisfit)

end Params

end WorkloadReplay
