import WorkloadReplay.Proofs.DelimiterSkipping
import WorkloadReplay.Proofs.EntryLines
import WorkloadReplay.Proofs.ReadCalls
import WorkloadReplay.Proofs.SectionReading

/-!
# The growth of the buffer

The buffer grows with the longest item only. Its capacity is the one at first times a power of two,
and it is at most twice as long as the longest line that was read, or as the longest tail that no
line was found in, unless it has not grown at all.
-/

namespace WorkloadReplay.Trace

/-- An item takes a line, and is found in it whatever comes behind. -/
def FindsLines {α : Type} (scan : List UInt8 → Scan α) : Prop :=
  ∀ b a rest, scan b = .done a rest →
    ∃ line, b = line ++ rest ∧ ∀ more, scan (line ++ more) = .done a more

theorem Record.findsLines_scan : FindsLines Record.scan := by
  intro b record rest h
  obtain ⟨line, hline, rfl⟩ := Record.exists_line h
  exact ⟨line, rfl, fun _ => Record.scan_append hline⟩

theorem Entry.findsLines_scan : FindsLines Entry.scan := by
  intro b entry rest h
  obtain ⟨line, hline, rfl⟩ := Entry.exists_line h
  exact ⟨line, rfl, fun _ => Entry.scan_append hline⟩

theorem FindsLines.length_lt {α : Type} {scan : List UInt8 → Scan α} (hscan : FindsLines scan)
    {b used rest : List UInt8} {a : α} (h : scan (used ++ rest) = .done a rest)
    (hb : b <+: used ++ rest) (hs : scan b = .short) : b.length < used.length := by
  obtain ⟨line, happend, hline⟩ := hscan _ _ _ h
  obtain rfl : used = line := List.append_cancel_right happend
  by_contra hle
  obtain ⟨more, rfl⟩ : used <+: b :=
    List.prefix_of_prefix_length_le (List.prefix_append used rest) hb (Nat.le_of_not_lt hle)
  rw [hline more] at hs
  cases hs

namespace Reader

variable {α β : Type} {few : List UInt8 → Prop} {r r' : Reader}

/-! ### What a request meets -/

/-- The number of bytes that an answer takes, or of the unread bytes that have none. -/
def extent (r : Reader) : Reader × Except Fault α → Nat
  | (r', .ok _) => r'.consumed - r.consumed
  | (r', .error _) => r'.unread.length

/-- The length of the line that a request reads, or of the unread bytes where it finds none. The
delimiter is no such line. -/
def met (r : Reader) : Request → Nat
  | .record => r.extent r.readRecord
  | .next => if r.failed then 0 else r.extent r.readRecord
  | .entry => r.extent r.readEntry
  | .atDelimiter => 0
  | .skipDelimiter => 0

theorem extent_of_consumed (h : r.consumed = r'.consumed) (x : Reader × Except Fault α) :
    r.extent x = r'.extent x := by
  match x with
  | (r'', .ok a) => exact congrArg (r''.consumed - ·) h
  | (r'', .error fault) => rfl

section

variable {scan : List UInt8 → Scan α}

/-- Unread bytes that are too short for an item are no longer than what is met in the end. -/
theorem le_extent_readItem (hscan : FindsLines scan) (h : r.Sound) {b : List UInt8}
    (hb : b <+: r.unread) (hs : scan b = .short) : b.length ≤ r.extent (r.readItem scan) := by
  induction hn : r.source.size using Nat.strong_induction_on generalizing r with
  | _ n ih =>
    cases hr : scan r.unread with
    | done a rest =>
      obtain ⟨used, hused, -⟩ := hscan _ _ _ hr
      have hconsumed := (uses_advanceTo h hused).consumed
      have hlt := hscan.length_lt (hused ▸ hr) (hused ▸ hb) hs
      rw [readItem]
      simp only [hr, extent]
      omega
    | malformed problem =>
      rw [readItem]
      simp only [hr]
      exact hb.length_le
    | bad fault =>
      rw [readItem]
      simp only [hr]
      exact hb.length_le
    | short =>
      have hprefix := hb.trans (unread_prefix_refill r)
      have hconsumed := consumed_refill h
      rw [readItem_of_short hr]
      generalize hx : r.refill = x at hprefix hconsumed
      obtain ⟨r', answer⟩ := x
      cases answer with
      | error fault => exact hprefix.length_le
      | ok more =>
        cases more with
        | false => exact hprefix.length_le
        | true =>
          rw [extent_of_consumed hconsumed.symm]
          exact ih _ (hn ▸ size_refill hx) (sound_refill h hx) hprefix rfl

/-- The calls for an item are made where the bytes so far are those of no item yet, and the buffer
grows to twice the length of the item at most. -/
theorem makes_readItem (hscan : FindsLines scan) (h : r.Sound) :
    Makes (scan · = .short) (r.extent (r.readItem scan)) r (r.itemCalls scan)
      (r.readItem scan).1 := by
  induction hn : r.source.size using Nat.strong_induction_on generalizing r with
  | _ n ih =>
    cases hs : scan r.unread with
    | done a rest =>
      obtain ⟨used, hused, -⟩ := hscan _ _ _ hs
      rw [itemCalls_of_ne_short (by simp [hs]), readItem]
      simp only [hs]
      exact (makes_nil h).advanceTo hused
    | malformed problem =>
      rw [itemCalls_of_ne_short (by simp [hs]), readItem]
      simp only [hs]
      exact makes_nil h
    | bad fault =>
      rw [itemCalls_of_ne_short (by simp [hs]), readItem]
      simp only [hs]
      exact makes_nil h
    | short =>
      have hle := le_extent_readItem hscan h List.prefix_rfl hs
      have hmakes : Makes (scan · = .short) r.unread.length r r.refillCalls r.refill.1 :=
        makes_refill h hs
      have hrefill := hmakes.mono hle
      have hgrows := hmakes.grown
      have hprefix := unread_prefix_refill r
      have hconsumed := consumed_refill h
      rw [readItem_of_short hs] at hrefill ⊢
      rw [itemCalls_of_short hs]
      generalize hx : r.refill = x at hrefill hgrows hprefix hconsumed
      obtain ⟨r', answer⟩ := x
      cases answer with
      | error fault => simpa using hrefill
      | ok more =>
        cases more with
        | false => simpa using hrefill
        | true =>
          have hitem := ih _ (hn ▸ size_refill hx) hrefill.sound rfl
          rw [← extent_of_consumed hconsumed.symm] at hitem
          refine hrefill.append hitem fun m hm => hgrows.mono ?_
          exact hprefix.length_le.trans (unread_le_of_mem_itemCalls hm)

end

theorem consumed_ensureAvailable (h : r.Sound) : r.ensureAvailable.1.consumed = r.consumed := by
  unfold ensureAvailable
  split
  · exact consumed_refill h
  · rfl

theorem makes_whenAvailable {f : Reader → Reader × Except Fault α} {calls : Reader → List Reader}
    (atEnd : α) (h : r.Sound) (hfew : few [])
    (hf : ∀ r' : Reader, r'.Sound → Makes few (r'.extent (f r')) r' (calls r') (f r').1) :
    Makes few (r.extent (r.whenAvailable atEnd f)) r (r.availableCalls calls)
      (r.whenAvailable atEnd f).1 := by
  have hensure := makes_ensure h hfew
  have hconsumed := consumed_ensureAvailable h
  unfold availableCalls whenAvailable
  generalize r.ensureAvailable = x at hensure hconsumed
  match x with
  | (r', .error fault) => simpa using hensure.mono (Nat.zero_le _)
  | (r', .ok false) => simpa using hensure.mono (Nat.zero_le _)
  | (r', .ok true) =>
    have hthen := hf r' hensure.sound
    rw [← extent_of_consumed hconsumed.symm] at hthen
    exact (hensure.mono (Nat.zero_le _)).append hthen fun m _ => hensure.grown.mono (Nat.zero_le _)

theorem extent_map (f : α → β) (r : Reader) (x : Reader × Except Fault α) :
    r.extent (x.1, x.2.map f) = r.extent x := by
  match x with
  | (r', .ok a) => rfl
  | (r', .error fault) => rfl

theorem makes_readRecord (h : r.Sound) :
    Makes (Record.scan · = .short) (r.extent r.readRecord) r r.recordCalls r.readRecord.1 := by
  rw [readRecord_eq]
  refine makes_whenAvailable none h rfl fun r' hr' => ?_
  unfold recordAt
  split
  · exact makes_nil hr'
  · rw [extent_map]
    exact makes_readItem Record.findsLines_scan hr'

theorem makes_readEntry (h : r.Sound) :
    Makes (Entry.scan · = .short) (r.extent r.readEntry) r (r.readCalls .entry)
      r.readEntry.1 := by
  rw [readEntry_eq]
  refine makes_whenAvailable none h rfl fun r' hr' => ?_
  unfold entryAt
  rw [extent_map]
  exact makes_readItem Entry.findsLines_scan hr'

theorem makes_next (h : r.Sound) :
    Makes (Record.scan · = .short) (r.met .next) r (r.readCalls .next) r.next.1 := by
  by_cases hfailed : r.failed = true
  · rw [readCalls, next, if_pos hfailed, if_pos hfailed]
    exact makes_nil h
  · have hrecord := makes_readRecord h
    rw [readCalls, met, next, if_neg hfailed, if_neg hfailed, if_neg hfailed]
    generalize r.extent r.readRecord = n at hrecord
    generalize r.readRecord = x at hrecord
    obtain ⟨r', answer⟩ := x
    cases answer with
    | error fault => exact hrecord.fail
    | ok found => cases found <;> exact hrecord

theorem fst_atSectionDelimiter (r : Reader) : r.atSectionDelimiter.1 = r.ensureAvailable.1 := by
  unfold atSectionDelimiter
  split <;> rename_i he <;> rw [he]

theorem makes_atSectionDelimiter (h : r.Sound) :
    Makes (· = []) 0 r r.ensureCalls r.atSectionDelimiter.1 := by
  rw [fst_atSectionDelimiter]
  exact makes_ensure h rfl

theorem makes_skipSectionDelimiter (h : r.Sound) :
    Makes (· = []) 0 r (r.readCalls .skipDelimiter) r.skipSectionDelimiter.1 := by
  have hfirst := makes_atSectionDelimiter h
  unfold readCalls skipSectionDelimiter
  generalize r.atSectionDelimiter = x at hfirst
  match x with
  | (r', .error fault) => simpa using hfirst
  | (r', .ok false) => simpa using hfirst
  | (r', .ok true) =>
    have hused : r'.unread = r'.unread.take 1 ++ r'.unread.drop 1 :=
      (List.take_append_drop 1 _).symm
    have hsecond : Makes (· = []) 0 (r'.advanceTo (r'.unread.drop 1)) _ _ :=
      makes_ensure (uses_advanceTo hfirst.sound hused).sound rfl
    have hboth := hfirst.append hsecond.of_advanceTo fun m _ => hfirst.grown.mono (Nat.zero_le _)
    dsimp only
    generalize Reader.ensureAvailable _ = y at hboth
    match y with
    | (r'', .error fault) => exact hboth
    | (r'', .ok false) => exact hboth
    | (r'', .ok true) =>
      dsimp only
      split
      · exact hboth.advanceTo (List.take_append_drop 1 _).symm
      · exact hboth

end Reader

def Request.TooFew : Request → List UInt8 → Prop
  | .record, b => Record.scan b = .short
  | .next, b => Record.scan b = .short
  | .entry, b => Entry.scan b = .short
  | .atDelimiter, b => b = []
  | .skipDelimiter, b => b = []

namespace Reader

variable {r : Reader}

theorem makes_ask (h : r.Sound) (request : Request) :
    Makes request.TooFew (r.met request) r (r.readCalls request) (r.ask request).1 := by
  cases request with
  | record => exact makes_readRecord h
  | next => exact makes_next h
  | entry => exact makes_readEntry h
  | atDelimiter => exact makes_atSectionDelimiter h
  | skipDelimiter => exact makes_skipSectionDelimiter h

/-! ### Requests one after the other -/

/-- The length of the longest line or tail that some requests meet. -/
def longest (r : Reader) : List Request → Nat
  | [] => 0
  | request :: requests => max (r.met request) ((r.ask request).1.longest requests)

/-- The read calls that some requests make. -/
def allCalls (r : Reader) : List Request → List Reader
  | [] => []
  | request :: requests => r.readCalls request ++ (r.ask request).1.allCalls requests

theorem grows_after (h : r.Sound) (requests : List Request) :
    r.Grows (r.longest requests) (r.after requests) := by
  induction requests generalizing r with
  | nil => exact .of_eq rfl
  | cons request requests ih =>
    have hfirst := makes_ask h request
    have hrest := ih hfirst.sound
    exact (hfirst.grown.mono (Nat.le_max_left _ _)).trans (hrest.mono (Nat.le_max_right _ _))

/-- However often the reader is asked, the calls are no more than its source can answer. -/
theorem length_allCalls_add_le (h : r.Sound) (requests : List Request) :
    (r.allCalls requests).length + (r.after requests).budget ≤ r.budget := by
  induction requests generalizing r with
  | nil => simp [allCalls, after]
  | cons request requests ih =>
    have hfirst := makes_ask h request
    have hbudget := hfirst.budget
    have hrest := ih hfirst.sound
    rw [allCalls, List.length_append, after, List.foldl_cons, ← after]
    omega

end Reader

/-! ### What the lengths are -/

namespace Whole

theorem eq_of_item_error {α : Type} {scan : List UInt8 → Scan α} {b rest : List UInt8}
    {fault : Fault} (h : item scan b = (.error fault, rest)) : rest = b := by
  unfold item at h
  split at h <;> cases h <;> rfl

private theorem map_some_eq_error {α : Type} {x : Except Fault α × List UInt8} {fault : Fault}
    {rest : List UInt8} (h : (x.1.map some, x.2) = (.error fault, rest)) :
    x = (.error fault, rest) := by
  match x with
  | (.ok a, b) => cases h
  | (.error fault, b) => cases h; rfl

theorem eq_of_record_error {b rest : List UInt8} {fault : Fault}
    (h : record b = (.error fault, rest)) : rest = b := by
  unfold record at h
  split at h
  · cases h
  · exact eq_of_item_error (map_some_eq_error h)

theorem eq_of_entry_error {b rest : List UInt8} {fault : Fault}
    (h : entry b = (.error fault, rest)) : rest = b := by
  unfold entry at h
  split at h
  · cases h
  · exact eq_of_item_error (map_some_eq_error h)

end Whole

inductive Reply.HasLine : Reply → List UInt8 → Prop where
  | record {record : Record} {line : LexicalLine} (h : line.Means record) :
      HasLine (.record (.ok (some record))) line.bytes
  | next {record : Record} {line : LexicalLine} (h : line.Means record) :
      HasLine (.next (some (.ok record))) line.bytes
  | entry {entry : Entry} {line : EntryLine} (h : line.Means entry) :
      HasLine (.entry (.ok (some entry))) line.bytes

inductive Reply.LineFails : Reply → Prop where
  | record (fault : Fault) : LineFails (.record (.error fault))
  | next (fault : Fault) : LineFails (.next (some (.error fault)))
  | entry (fault : Fault) : LineFails (.entry (.error fault))

inductive Reply.Lineless : Reply → Prop where
  | record : Lineless (.record (.ok none))
  | next : Lineless (.next none)
  | entry : Lineless (.entry (.ok none))
  | flag (answer : Except Fault Bool) : Lineless (.flag answer)

namespace Reader

variable {α : Type} {r r' : Reader}

/-- What a request meets, and its length: the line in front of the bytes still to give, or the
unread ones of these, if there is a fault in them or a read call fails behind them. -/
inductive Meets (r : Reader) : Reader × Reply → Nat → Prop where
  | line {r' : Reader} {reply : Reply} {b : List UInt8} (h : reply.HasLine b)
      (hpending : r.pending = b ++ r'.pending) : Meets r (r', reply) b.length
  | tail {r' : Reader} {reply : Reply} (h : reply.LineFails) (hpending : r'.pending = r.pending) :
      Meets r (r', reply) r'.unread.length
  | nothing {r' : Reader} {reply : Reply} (h : reply.Lineless) : Meets r (r', reply) 0

theorem Follows.of_ok {whole : Except Fault α × List UInt8} {a : α}
    (h : r.Follows whole (r', .ok a)) :
    whole = (.ok a, r'.pending) ∧ ∃ used, r.Uses used r' := by
  cases h with
  | answer hu hrest ha => exact ⟨Prod.ext (alike_ok_iff.mp ha.symm) hrest.symm, _, hu⟩

theorem Follows.pending_of_error {whole : Except Fault α × List UInt8} {fault : Fault}
    (h : r.Follows whole (r', .error fault))
    (hwhole : ∀ g rest, whole = (.error g, rest) → rest = r.pending) : r'.pending = r.pending := by
  cases h with
  | answer hu hrest ha =>
    generalize hx : whole.1 = x at ha
    cases ha with
    | error => exact hwhole _ _ (Prod.ext hx hrest.symm)
  | failure hu => exact hu.pending.symm

theorem extent_eq_length {used b : List UInt8} (a : α) (h : r.Uses used r')
    (hb : r.pending = b ++ r'.pending) : r.extent (r', .ok a) = b.length := by
  obtain rfl : used = b := List.append_cancel_right (h.pending.symm.trans hb)
  have hconsumed := h.consumed
  simp only [extent]
  omega

theorem meets_readRecord (h : r.Sound) : r.Meets (r.ask .record) (r.extent r.readRecord) := by
  have hf := follows_readRecord h
  rw [ask]
  generalize r.readRecord = x at hf
  match x with
  | (r', .ok none) =>
    obtain ⟨hwhole, used, hu⟩ := hf.of_ok
    obtain ⟨-, hpending⟩ := Whole.record_eq_none_iff.mp hwhole
    rw [extent_eq_length (b := []) none hu hpending]
    exact .nothing .record
  | (r', .ok (some record)) =>
    obtain ⟨hwhole, used, hu⟩ := hf.of_ok
    obtain ⟨line, hpending, hmeans⟩ :=
      Record.scan_eq_done_iff_line.mp (Whole.record_eq_some_iff.mp hwhole)
    rw [extent_eq_length _ hu hpending]
    exact .line (.record hmeans) hpending
  | (r', .error fault) =>
    exact .tail (.record fault) (hf.pending_of_error fun _ _ => Whole.eq_of_record_error)

theorem meets_readEntry (h : r.Sound) : r.Meets (r.ask .entry) (r.extent r.readEntry) := by
  have hf := follows_readEntry h
  rw [ask]
  generalize r.readEntry = x at hf
  match x with
  | (r', .ok none) =>
    obtain ⟨hwhole, used, hu⟩ := hf.of_ok
    obtain ⟨-, hpending⟩ := Whole.entry_eq_none_iff.mp hwhole
    rw [extent_eq_length (b := []) none hu hpending]
    exact .nothing .entry
  | (r', .ok (some entry)) =>
    obtain ⟨hwhole, used, hu⟩ := hf.of_ok
    obtain ⟨line, hpending, hmeans⟩ :=
      Entry.scan_eq_done_iff_line.mp (Whole.entry_eq_some_iff.mp hwhole)
    rw [extent_eq_length _ hu hpending]
    exact .line (.entry hmeans) hpending
  | (r', .error fault) =>
    exact .tail (.entry fault) (hf.pending_of_error fun _ _ => Whole.eq_of_entry_error)

theorem meets_next (h : r.Sound) : r.Meets (r.ask .next) (r.met .next) := by
  by_cases hfailed : r.failed = true
  · rw [ask, met, next, if_pos hfailed, if_pos hfailed]
    exact .nothing .next
  · have hrecord := meets_readRecord h
    rw [ask] at hrecord
    rw [ask, met, next, if_neg hfailed, if_neg hfailed]
    generalize r.extent r.readRecord = n at hrecord
    generalize r.readRecord = x at hrecord
    obtain ⟨r', answer⟩ := x
    cases hrecord with
    | line h hpending =>
      cases h with
      | record hmeans => exact .line (.next hmeans) hpending
    | tail h hpending =>
      cases h with
      | record fault => exact .tail (.next fault) hpending
    | nothing h =>
      cases h with
      | record => exact .nothing .next

theorem meets_ask (h : r.Sound) (request : Request) : r.Meets (r.ask request) (r.met request) := by
  cases request with
  | record => exact meets_readRecord h
  | next => exact meets_next h
  | entry => exact meets_readEntry h
  | atDelimiter => exact .nothing (.flag _)
  | skipDelimiter => exact .nothing (.flag _)

/-! ### After any requests -/

/-- A read call for a request, where the longest line or tail before is `longest` bytes long, and
the one that the request meets in the end is `met` bytes long. -/
structure CallsFor (request : Request) (capacity longest met : Nat) (m : Reader) : Prop where
  doubled : ∃ k, m.capacity = max capacity minCapacity * 2 ^ k
  /-- The unread bytes are what the request has met by then. -/
  capacity_le : m.capacity ≤ max (max capacity minCapacity) (2 * max longest m.unread.length)
  unread_le : m.unread.length ≤ met
  few : request.TooFew m.unread
  room : m.filled < m.capacity
  ended : (m.source.read (m.capacity - m.filled)).1 = .bytes [] → m.source.bytes = []

/-- How the buffer of a reader grows, up to some requests and at the calls of another one. -/
structure GrowsWithLines (s : Source) (capacity : Nat) (requests : List Request)
    (request : Request) : Prop where
  doubled : ∃ k, ((ofSource s capacity).after requests).capacity = max capacity minCapacity * 2 ^ k
  capacity_le : ((ofSource s capacity).after requests).capacity ≤
    max (max capacity minCapacity) (2 * (ofSource s capacity).longest requests)
  meets : ((ofSource s capacity).after requests).Meets
    (((ofSource s capacity).after requests).ask request)
    (((ofSource s capacity).after requests).met request)
  calls : ∀ m ∈ ((ofSource s capacity).after requests).readCalls request,
    m.CallsFor request capacity ((ofSource s capacity).longest requests)
      (((ofSource s capacity).after requests).met request)
  /-- The calls are all that the request takes off the source. -/
  chain : Chain ((ofSource s capacity).after requests).source
    (((ofSource s capacity).after requests).readCalls request)
    (((ofSource s capacity).after requests).ask request).1.source
  /-- The end of the source is not missed and not made up. -/
  ended : ((ofSource s capacity).after requests).ended = true →
    ((ofSource s capacity).after requests).source = []
  finite : ((ofSource s capacity).allCalls requests).length ≤ s.size + 1

/-- The buffer grows with the longest line only, whatever is asked and however the source delivers
its bytes. -/
theorem growsWithLines (s : Source) (capacity : Nat) (requests : List Request)
    (request : Request) : GrowsWithLines s capacity requests request := by
  have hfirst := sound_ofSource s capacity
  have h := sound_of_requests requests hfirst
  have hgrows := grows_after hfirst requests
  have hmakes := makes_ask h request
  have hbudget := length_allCalls_add_le hfirst requests
  have hsize : (ofSource s capacity).budget = s.size + 1 := rfl
  refine ⟨hgrows.doubled, hgrows.le, meets_ask h request, fun m hm => ?_, hmakes.chain, h.ended,
    by omega⟩
  obtain ⟨hfew, hroom, hunread⟩ := hmakes.asks m hm
  have hcall := (hgrows.mono (Nat.le_max_left _ m.unread.length)).trans
    ((hmakes.grows m hm).mono (Nat.le_max_right _ _))
  exact ⟨hcall.doubled, hcall.le, hunread, hfew, hroom,
    Source.bytes_eq_nil_of_read (Nat.sub_pos_of_lt hroom)⟩

/-- A line of 65 bytes does not fit into the smallest buffer, and one of 64 bytes does. -/
example :
    let line (n : Nat) := Text.bytes "1,\"" ++ List.replicate n 120 ++ Text.bytes "\",\"\"\n"
    ((ofSource [.bytes (line 56)] 0).after [.record]).capacity = 64 ∧
      ((ofSource [.bytes (line 57)] 0).after [.record]).capacity = 128 := by
  decide +kernel

end Reader

end WorkloadReplay.Trace
