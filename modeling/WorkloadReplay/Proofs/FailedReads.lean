import WorkloadReplay.Proofs.ReaderRequests
import WorkloadReplay.Proofs.ScanFaults

/-!
# Read calls that fail

A read call that fails leaves the reader where it was, but for room in its buffer and for bytes that
came before the failure. From there the same operation goes on as it would have gone on at first on
a source that delivers the same parts without any failure.
-/

namespace WorkloadReplay.Trace

namespace Source

def parts : Source → List (List UInt8)
  | [] => []
  | .bytes [] :: rest => parts rest
  | .bytes (b :: bs) :: rest => (b :: bs) :: parts rest
  | .interrupted :: rest => parts rest
  | .failure _ :: rest => parts rest

/-- The bytes that a read call gets of some parts, and the parts that it leaves. -/
def deliver (room : Nat) : List (List UInt8) → List UInt8 × List (List UInt8)
  | [] => ([], [])
  | b :: rest => (b.take room, if b.drop room = [] then rest else b.drop room :: rest)

/-- The first source delivers what the second one does, in the same parts, and no call for them
fails. -/
structure Delivers (u s : Source) : Prop where
  reliable : u.Reliable
  parts : u.parts = s.parts

theorem Delivers.of_parts {u s t : Source} (h : u.Delivers s) (hparts : t.parts = s.parts) :
    u.Delivers t := ⟨h.reliable, h.parts.trans hparts.symm⟩

theorem parts_bytes_cons (b : List UInt8) (rest : Source) :
    parts (.bytes b :: rest) = if b = [] then rest.parts else b :: rest.parts := by
  cases b with
  | nil => rfl
  | cons c b => rfl

theorem bytes_eq_flatten_parts (s : Source) : s.bytes = s.parts.flatten := by
  fun_induction parts s with
  | case1 => rfl
  | case2 rest ih => simpa [bytes] using ih
  | case3 b bs rest ih => simp [bytes, ih]
  | case4 rest ih => simpa [bytes] using ih
  | case5 reason rest ih => simpa [bytes] using ih

theorem parts_map_bytes_parts (s : Source) : parts (s.parts.map .bytes) = s.parts := by
  fun_induction parts s with
  | case1 => rfl
  | case2 rest ih => exact ih
  | case3 b bs rest ih => simp [parts, ih]
  | case4 rest ih => exact ih
  | case5 reason rest ih => exact ih

theorem delivers_map_bytes_parts (s : Source) : Delivers (s.parts.map .bytes) s where
  reliable := by simp [Reliable]
  parts := parts_map_bytes_parts s

theorem parts_read_bytes {room : Nat} {s t : Source} {b : List UInt8}
    (h : read room s = (.bytes b, t)) : deliver room s.parts = (b, t.parts) := by
  fun_induction read room s with
  | case1 =>
    simp only [Prod.mk.injEq, ReadAnswer.bytes.injEq] at h
    obtain ⟨rfl, rfl⟩ := h
    rfl
  | case2 rest ih => exact ih h
  | case3 c cs rest =>
    simp only [Prod.mk.injEq, ReadAnswer.bytes.injEq] at h
    obtain ⟨rfl, rfl⟩ := h
    rw [parts, deliver, parts_bytes_cons]
  | case4 => simp at h
  | case5 => simp at h

theorem parts_read_of_ne {room : Nat} {s t : Source} {answer : ReadAnswer}
    (h : read room s = (answer, t)) (hanswer : ∀ b, answer ≠ .bytes b) : t.parts = s.parts := by
  fun_induction read room s with
  | case1 => exact absurd (congrArg Prod.fst h).symm (hanswer _)
  | case2 rest ih => exact ih h
  | case3 => exact absurd (congrArg Prod.fst h).symm (hanswer _)
  | case4 rest =>
    rw [Prod.mk.injEq] at h
    rw [← h.2, parts]
  | case5 reason rest =>
    rw [Prod.mk.injEq] at h
    rw [← h.2, parts]

theorem parts_read_interrupted {room : Nat} {s t : Source}
    (h : read room s = (.interrupted, t)) : t.parts = s.parts :=
  parts_read_of_ne h fun _ => ReadAnswer.noConfusion

theorem parts_read_failure {room : Nat} {s t : Source} {reason : String}
    (h : read room s = (.failure reason, t)) : t.parts = s.parts :=
  parts_read_of_ne h fun _ => ReadAnswer.noConfusion

theorem parts_fetch_ok {room : Nat} {s t : Source} {b : List UInt8}
    (h : fetch room s = (.ok b, t)) : deliver room s.parts = (b, t.parts) := by
  fun_induction fetch room s with
  | case1 s u hr ih => rw [← parts_read_interrupted hr, ih h]
  | case2 s c u hr =>
    simp only [Prod.mk.injEq, Except.ok.injEq] at h
    obtain ⟨rfl, rfl⟩ := h
    exact parts_read_bytes hr
  | case3 => simp at h

/-- A call that fails takes its failure off the source, and no bytes. -/
theorem parts_fetch_error {room : Nat} {s t : Source} {reason : String}
    (h : fetch room s = (.error reason, t)) : t.parts = s.parts ∧ t.size < s.size := by
  fun_induction fetch room s with
  | case1 s u hr ih =>
    obtain ⟨hparts, hsize⟩ := ih h
    exact ⟨hparts.trans (parts_read_interrupted hr), hsize.trans (size_read_interrupted hr)⟩
  | case2 => simp at h
  | case3 s reason u hr =>
    simp only [Prod.mk.injEq] at h
    obtain ⟨-, rfl⟩ := h
    exact ⟨parts_read_failure hr, size_read_failure hr⟩

theorem Delivers.fetch {u s t : Source} {room : Nat} {b : List UInt8} (h : u.Delivers s)
    (hf : Source.fetch room s = (.ok b, t)) :
    ∃ u' : Source, u'.Delivers t ∧ Source.fetch room u = (.ok b, u') := by
  have hu := fetches_fetch room u
  generalize heq : Source.fetch room u = x at hu
  cases hu with
  | @bytes c u' hleaves =>
    have hdeliver := parts_fetch_ok heq
    rw [h.parts, parts_fetch_ok hf, Prod.mk.injEq] at hdeliver
    obtain ⟨rfl, hparts⟩ := hdeliver
    exact ⟨u', ⟨h.reliable.of_failsWithin hleaves.failsWithin, hparts.symm⟩, rfl⟩
  | failure _ hreason => exact absurd hreason (h.reliable _)

end Source

def ReadFails {α : Type} (answer : Except Fault α) : Prop :=
  ∃ reason, answer = .error (.source reason)

namespace Reader

variable {α β : Type} {r r' r'' : Reader}

def onSource (r : Reader) (u : Source) : Reader := { r with source := u }

@[simp] theorem unread_onSource (r : Reader) (u : Source) : (r.onSource u).unread = r.unread := rfl

@[simp] theorem onSource_onSource (r : Reader) (u v : Source) :
    (r.onSource u).onSource v = r.onSource v := rfl

theorem makeRoom_makeRoom (h : r.Sound) : r.makeRoom.makeRoom = r.makeRoom := by
  have hroom := room_makeRoom h
  have hcursor : r.makeRoom.cursor = 0 := Nat.sub_self _
  conv => lhs; rw [makeRoom]
  rw [if_neg hroom.ne, hcursor]
  rfl

def fetched (r : Reader) : Except String (List UInt8) × Source → Reader × Except Fault Bool
  | (.ok [], source) => ({ r with source := source, ended := true }, .ok false)
  | (.ok (b :: bs), source) =>
    ({ r with
        source := source
        unread := r.unread ++ b :: bs
        filled := r.filled + (b :: bs).length }, .ok true)
  | (.error reason, source) => ({ r with source := source }, .error (.source reason))

theorem refill_of_ended (hended : r.ended = true) : r.refill = (r, .ok false) := if_pos hended

theorem refill_of_not_ended (hended : r.ended = false) :
    r.refill = r.makeRoom.fetched
      (r.source.fetch (r.makeRoom.capacity - r.makeRoom.unread.length)) :=
  if_neg (Bool.eq_false_iff.mp hended)

/-- Room that was made before a call failed need not be made again. -/
theorem refill_makeRoom (h : r.Sound) (hended : r.ended = false) :
    r.makeRoom.refill = r.refill := by
  have hmade : r.makeRoom.ended = false := hended
  rw [refill_of_not_ended hmade, refill_of_not_ended hended, makeRoom_makeRoom h]
  rfl

inductive Refetches (r : Reader) : Reader × Except Fault Bool → Prop where
  | settled {r' : Reader} {more : Bool} (hunread : r.unread <+: r'.unread)
      (hsize : r'.source.size ≤ r.source.size)
      (h : ∀ u, Source.Delivers u r.source → ∃ u', Source.Delivers u' r'.source ∧
        (r.onSource u).refill = (r'.onSource u', .ok more)) :
      Refetches r (r', .ok more)
  | failed {t : Source} {reason : String} (hended : r.ended = false)
      (hparts : t.parts = r.source.parts) (hsize : t.size < r.source.size) :
      Refetches r (r.makeRoom.onSource t, .error (.source reason))

theorem refetches_refill (r : Reader) : r.Refetches r.refill := by
  cases hended : r.ended with
  | true =>
    rw [refill_of_ended hended]
    exact .settled (List.prefix_refl _) le_rfl fun u hu => ⟨u, hu, refill_of_ended hended⟩
  | false =>
    have hleft (u : Source) : (r.onSource u).refill = r.makeRoom.fetched
        (u.fetch (r.makeRoom.capacity - r.makeRoom.unread.length)) :=
      refill_of_not_ended hended
    rw [refill_of_not_ended hended]
    generalize hf : Source.fetch _ r.source = x
    obtain ⟨answer, t⟩ := x
    cases answer with
    | error reason =>
      obtain ⟨hparts, hsize⟩ := Source.parts_fetch_error hf
      exact .failed hended hparts hsize
    | ok b =>
      have hsize : t.size ≤ r.source.size := Source.size_fetch_le hf
      cases b with
      | nil =>
        refine .settled (List.prefix_refl _) hsize fun u hu => ?_
        obtain ⟨u', hu', hfetch⟩ := hu.fetch hf
        exact ⟨u', hu', by rw [hleft, hfetch]; rfl⟩
      | cons c b =>
        refine .settled (List.prefix_append _ _) hsize fun u hu => ?_
        obtain ⟨u', hu', hfetch⟩ := hu.fetch hf
        exact ⟨u', hu', by rw [hleft, hfetch]; rfl⟩

/-- From the second reader, which has used up no more than the first one, `f` goes on to what it
does from the first one where no call fails. -/
structure Resumes (f : Reader → Reader × α) (r r' : Reader) : Prop where
  uses : r.Uses [] r'
  unread : r.unread <+: r'.unread
  size : r'.source.size ≤ r.source.size
  same : ∀ u, Source.Delivers u r.source →
    ∃ u', Source.Delivers u' r'.source ∧ f (r'.onSource u') = f (r.onSource u)

theorem Resumes.trans {f : Reader → Reader × α} (h : Resumes f r r') (h' : Resumes f r' r'') :
    Resumes f r r'' where
  uses := h.uses.trans h'.uses
  unread := h.unread.trans h'.unread
  size := h'.size.trans h.size
  same := by
    intro u hu
    obtain ⟨u', hu', hf⟩ := h.same u hu
    obtain ⟨u'', hu'', hf'⟩ := h'.same u' hu'
    exact ⟨u'', hu'', hf'.trans hf⟩

/-- What one try of an operation does: it answers what it would answer if no call failed, or a call
fails and another try goes on from there. -/
inductive Tries (fails : α → Prop) (f : Reader → Reader × α) (r : Reader) :
    Reader × α → Prop where
  | settled {r' : Reader} {a : α} (ha : ¬fails a)
      (h : ∀ u, Source.Delivers u r.source →
        ∃ u', Source.Delivers u' r'.source ∧ f (r.onSource u) = (r'.onSource u', a)) :
      Tries fails f r (r', a)
  | failed {r' : Reader} {a : α} (ha : fails a) (h : Resumes f r r')
      (hsize : r'.source.size < r.source.size) : Tries fails f r (r', a)

section

variable {fails : α → Prop} {f : Reader → Reader × α}

/-- An answer for which the unread bytes are enough. -/
theorem Tries.of_unread (r' : Reader) (a : α) (ha : ¬fails a)
    (h : ∀ u, f (r.onSource u) = (r'.onSource u, a)) : Tries fails f r (f r) := by
  have hself : f r = (r'.onSource r.source, a) := h r.source
  rw [hself]
  exact .settled ha fun u hu => ⟨u, hu, h u⟩

theorem Tries.of_resumes {x : Reader × α} (h : Resumes f r r') (hx : Tries fails f r' x) :
    Tries fails f r x := by
  cases hx with
  | settled ha hx =>
    refine .settled ha fun u hu => ?_
    obtain ⟨u', hu', hf⟩ := h.same u hu
    rw [← hf]
    exact hx u' hu'
  | failed ha hx hsize => exact .failed ha (h.trans hx) (hsize.trans_le h.size)

theorem Tries.map {fails' : β → Prop} {g : Reader → Reader × β} (h : Tries fails f r (f r))
    (k : α → β) (hk : ∀ a, fails' (k a) ↔ fails a)
    (hg : ∀ r', r.unread <+: r'.unread → g r' = ((f r').1, k (f r').2)) :
    Tries fails' g r (g r) := by
  have hself (u : Source) : g (r.onSource u) = _ := hg (r.onSource u) (List.prefix_refl _)
  rw [hg r (List.prefix_refl _)]
  generalize f r = x at h
  cases h with
  | @settled r' a ha h =>
    refine .settled (mt (hk a).mp ha) fun u hu => ?_
    obtain ⟨u', hu', hf⟩ := h u hu
    exact ⟨u', hu', by rw [hself, hf]⟩
  | @failed r' a ha h hsize =>
    refine .failed ((hk a).mpr ha) ⟨h.uses, h.unread, h.size, fun u hu => ?_⟩ hsize
    obtain ⟨u', hu', hf⟩ := h.same u hu
    exact ⟨u', hu', by rw [hself, hg (r'.onSource u') h.unread, hf]⟩

end

/-- An operation that starts with asking for more bytes wherever the unread bytes are the same. -/
theorem tries_of_refill {f : Reader → Reader × Except Fault α}
    (atEnd : Reader → Except Fault α) (h : r.Sound)
    (hf : ∀ r' : Reader, r'.unread = r.unread → f r' = match r'.refill with
      | (r'', .ok true) => f r''
      | (r'', .ok false) => (r'', atEnd r'')
      | (r'', .error fault) => (r'', .error fault))
    (hend : ∀ r', ¬ReadFails (atEnd r')) (hsame : ∀ r' u, atEnd (r'.onSource u) = atEnd r')
    (hmore : ∀ r', r.refill = (r', .ok true) → Tries ReadFails f r' (f r')) :
    Tries ReadFails f r (f r) := by
  have hr := refetches_refill r
  have hu := refills_refill h
  rw [hf r rfl]
  generalize hx : r.refill = x at hr hu
  cases hr with
  | @settled r' more hunread hsize hsettled =>
    cases more with
    | true =>
      cases hu with
      | more hu =>
        refine .of_resumes ⟨hu, hunread, hsize, fun u hdelivers => ?_⟩ (hmore r' hx)
        obtain ⟨u', hu', hrefill⟩ := hsettled u hdelivers
        exact ⟨u', hu', by rw [hf (r.onSource u) rfl, hrefill]⟩
    | false =>
      refine .settled (hend r') fun u hdelivers => ?_
      obtain ⟨u', hu', hrefill⟩ := hsettled u hdelivers
      exact ⟨u', hu', by rw [hf (r.onSource u) rfl, hrefill, ← hsame r' u']⟩
  | @failed t reason hended hparts hsize =>
    cases hu with
    | failure hu =>
      refine .failed ⟨reason, rfl⟩
        ⟨hu, List.prefix_refl _, hsize.le, fun u hdelivers => ?_⟩ hsize
      have hsound : (r.onSource u).Sound := ⟨h.unread_le, h.filled_le, h.capacity_pos,
        fun hend => absurd (hended.symm.trans hend) nofun⟩
      refine ⟨u, hdelivers.of_parts hparts, ?_⟩
      rw [onSource_onSource, hf (r.onSource u) rfl, ← refill_makeRoom hsound hended]
      exact hf _ rfl

theorem sound_refill {answer : Except Fault Bool} (h : r.Sound) (hr : r.refill = (r', answer)) :
    r'.Sound := by
  have hu := refills_refill h
  rw [hr] at hu
  cases hu with
  | more hu => exact hu.sound
  | ended hu => exact hu.sound
  | failure hu => exact hu.sound

theorem consumed_refill (h : r.Sound) : r.refill.1.consumed = r.consumed := by
  have hr := refills_refill h
  generalize r.refill = x at hr
  cases hr with
  | more hu | ended hu | failure hu => exact hu.consumed

theorem unread_ne_nil_of_refill (hr : r.refill = (r', .ok true)) : r'.unread ≠ [] := by
  unfold refill at hr
  split at hr
  · simp at hr
  · dsimp only at hr
    split at hr
    · simp at hr
    · simp only [Prod.mk.injEq, and_true] at hr
      rw [← hr]
      simp
    · simp at hr

theorem readItem_of_short {scan : List UInt8 → Scan α} (hs : scan r.unread = .short) :
    r.readItem scan = match r.refill with
      | (r', .ok true) => r'.readItem scan
      | (r', .ok false) => (r', .error (.truncatedRecord r'.unread.length))
      | (r', .error fault) => (r', .error fault) := by
  rw [readItem]
  simp only [hs]
  split <;> rename_i hr <;> rw [hr]

theorem tries_readItem {scan : List UInt8 → Scan α}
    (hscan : ∀ b, (scan b).OnlyFaults Fault.ofBytes) (h : r.Sound) :
    Tries ReadFails (readItem scan) r (r.readItem scan) := by
  induction hn : r.source.size using Nat.strong_induction_on generalizing r with
  | _ n ih =>
    cases hs : scan r.unread with
    | done a rest =>
      refine .of_unread (r.advanceTo rest) (.ok a) nofun fun u => ?_
      rw [readItem]
      simp only [unread_onSource, hs]
      rfl
    | malformed problem =>
      refine .of_unread r (.error (.malformedRecord r.cursor problem)) nofun fun u => ?_
      rw [readItem]
      simp only [unread_onSource, hs]
      rfl
    | bad fault =>
      have hfault : ¬ReadFails (.error fault : Except Fault α) := by
        rintro ⟨reason, ⟨⟩⟩
        exact absurd (hscan _ _ hs) nofun
      refine .of_unread r (.error fault) hfault fun u => ?_
      rw [readItem]
      simp only [unread_onSource, hs]
    | short =>
      refine tries_of_refill (fun r' => .error (.truncatedRecord r'.unread.length)) h
        (fun r' hr' => readItem_of_short (hr' ▸ hs)) (fun _ => nofun) (fun _ _ => rfl)
        fun r' hr' => ?_
      exact ih _ (hn ▸ size_refill hr') (sound_refill h hr') rfl

def whenAvailable (atEnd : α) (f : Reader → Reader × Except Fault α) (r : Reader) :
    Reader × Except Fault α :=
  match r.ensureAvailable with
  | (r', .error fault) => (r', .error fault)
  | (r', .ok false) => (r', .ok atEnd)
  | (r', .ok true) => f r'

theorem whenAvailable_of_unread {atEnd : α} {f : Reader → Reader × Except Fault α}
    (hne : r.unread ≠ []) : r.whenAvailable atEnd f = f r := by
  have he : r.ensureAvailable = (r, .ok true) := if_neg (by simpa using hne)
  rw [whenAvailable, he]

theorem whenAvailable_of_empty {atEnd : α} {f : Reader → Reader × Except Fault α}
    (hnil : r.unread = []) : r.whenAvailable atEnd f = match r.refill with
      | (r', .ok true) => r'.whenAvailable atEnd f
      | (r', .ok false) => (r', .ok atEnd)
      | (r', .error fault) => (r', .error fault) := by
  have he : r.ensureAvailable = r.refill := if_pos (by simp [hnil])
  rw [whenAvailable, he]
  split
  · rename_i hr
    rw [hr]
  · rename_i hr
    rw [hr]
  · rename_i hr
    rw [hr]
    exact (whenAvailable_of_unread (unread_ne_nil_of_refill hr)).symm

theorem tries_whenAvailable {f : Reader → Reader × Except Fault α} (atEnd : α) (h : r.Sound)
    (hf : ∀ r' : Reader, r'.Sound → r'.unread ≠ [] → Tries ReadFails f r' (f r')) :
    Tries ReadFails (whenAvailable atEnd f) r (r.whenAvailable atEnd f) := by
  have hthere (r' : Reader) (hr' : r'.Sound) (hne : r'.unread ≠ []) :
      Tries ReadFails (whenAvailable atEnd f) r' (r'.whenAvailable atEnd f) := by
    refine (hf r' hr' hne).map id (fun _ => Iff.rfl) fun r'' hunread => ?_
    have hne' : r''.unread ≠ [] := by
      rintro hnil
      exact hne (List.prefix_nil.mp (hnil ▸ hunread))
    rw [whenAvailable_of_unread hne']
    rfl
  by_cases hne : r.unread = []
  · exact tries_of_refill (fun _ => .ok atEnd) h
      (fun r' hr' => whenAvailable_of_empty (hr' ▸ hne)) (fun _ => nofun) (fun _ _ => rfl)
      fun r' hr' => hthere r' (sound_refill h hr') (unread_ne_nil_of_refill hr')
  · exact hthere r h hne

theorem readFails_map_some (a : Except Fault α) : ReadFails (a.map some) ↔ ReadFails a := by
  cases a with
  | ok _ => exact ⟨nofun, nofun⟩
  | error fault => simp [ReadFails, Except.map]

def recordAt (r : Reader) : Reader × Except Fault (Option Record) :=
  if r.unread.head? = some sectionDelimiter then (r, .ok none)
  else ((r.readItem Record.scan).1, (r.readItem Record.scan).2.map some)

def entryAt (r : Reader) : Reader × Except Fault (Option Entry) :=
  ((r.readItem Entry.scan).1, (r.readItem Entry.scan).2.map some)

def delimiterAt (r : Reader) : Reader × Except Fault Bool :=
  (r, .ok (r.unread.head? = some sectionDelimiter))

theorem readRecord_eq : readRecord = whenAvailable none recordAt := by
  funext r
  unfold readRecord whenAvailable
  congr 1
  funext r'
  unfold recordAt
  generalize r'.readItem Record.scan = x
  obtain ⟨r'', answer⟩ := x
  cases answer <;> rfl

theorem readEntry_eq : readEntry = whenAvailable none entryAt := by
  funext r
  unfold readEntry whenAvailable
  congr 1
  funext r'
  unfold entryAt
  generalize r'.readItem Entry.scan = x
  obtain ⟨r'', answer⟩ := x
  cases answer <;> rfl

theorem atSectionDelimiter_eq : atSectionDelimiter = whenAvailable false delimiterAt := rfl

theorem tries_readRecord (h : r.Sound) : Tries ReadFails readRecord r r.readRecord := by
  rw [readRecord_eq]
  refine tries_whenAvailable none h fun r' hr' hne => ?_
  obtain ⟨c, rest, hc⟩ := List.exists_cons_of_ne_nil hne
  by_cases hd : c = sectionDelimiter
  · subst hd
    refine .of_unread r' (.ok none) nofun fun u => ?_
    simp [recordAt, hc]
  · have hitem := tries_readItem Record.onlyFaults_scan hr'
    refine hitem.map (·.map some) readFails_map_some fun r'' hunread => ?_
    obtain ⟨more, hmore⟩ := hunread
    simp [recordAt, ← hmore, hc, hd]

theorem tries_readEntry (h : r.Sound) : Tries ReadFails readEntry r r.readEntry := by
  rw [readEntry_eq]
  exact tries_whenAvailable none h fun r' hr' _ =>
    (tries_readItem Entry.onlyFaults_scan hr').map (·.map some) readFails_map_some fun _ _ => rfl

theorem tries_atSectionDelimiter (h : r.Sound) :
    Tries ReadFails atSectionDelimiter r r.atSectionDelimiter := by
  rw [atSectionDelimiter_eq]
  exact tries_whenAvailable false h fun r' _ _ =>
    .of_unread r' (.ok (r'.unread.head? = some sectionDelimiter)) nofun fun _ => rfl

end Reader

end WorkloadReplay.Trace
