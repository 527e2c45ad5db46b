import WorkloadReplay.Proofs.DelimiterSkipping
import WorkloadReplay.Trace.Block

/-!
# The block and the bytes of the source

A reader with a block of cells does what the reader without one does: what it does not show are the
cells outside of its window. At any moment the bytes that are used up, those in the window and those
that the source has still to deliver are the bytes of the source, and asking for more bytes moves
the window or makes it longer, but changes nothing in it.
-/

namespace WorkloadReplay.Trace

section

variable {cells b : List UInt8} {start : Nat}

theorem length_overwrite (h : start + b.length ≤ cells.length) :
    (overwrite cells start b).length = cells.length := by
  simp only [overwrite, List.length_append, List.length_take, List.length_drop]
  omega

theorem take_overwrite (h : start ≤ cells.length) :
    (overwrite cells start b).take (start + b.length) = cells.take start ++ b :=
  List.take_left' (by simp [h])

end

/-- A source delivers no more than was asked for. -/
theorem Source.length_le_of_fetch {room : Nat} {s : Source} {b : List UInt8}
    (h : (fetch room s).1 = .ok b) : b.length ≤ room := by
  have hf := fetches_fetch room s
  generalize fetch room s = x at hf h
  cases hf with
  | bytes _ hroom =>
    obtain rfl := Except.ok.inj h
    exact hroom
  | failure => cases h

theorem Reader.unread_ne_nil_of_ensureAvailable {r r' : Reader}
    (h : r.ensureAvailable = (r', .ok true)) : r'.unread ≠ [] := by
  unfold ensureAvailable at h
  split at h
  · exact unread_ne_nil_of_refill h
  · rename_i hne
    cases h
    exact fun hnil => hne (List.isEmpty_iff.mpr hnil)

/-- What stands behind the delimiter ends its line, or is a fault. -/
def Reader.lineEndAt (r : Reader) : Reader × Except Fault Bool :=
  if r.unread.head? = some lineEnd then (r.advanceTo (r.unread.drop 1), .ok true)
  else (r, .error (.malformedRecord r.cursor .delimiterNotAlone))

theorem Reader.skipSectionDelimiter_eq (r : Reader) :
    r.skipSectionDelimiter = match r.atSectionDelimiter with
      | (r', .ok true) => (r'.advanceTo (r'.unread.drop 1)).whenAvailable true lineEndAt
      | (r', answer) => (r', answer) := by
  unfold skipSectionDelimiter
  generalize r.atSectionDelimiter = x
  match x with
  | (r', .error fault) => rfl
  | (r', .ok false) => rfl
  | (r', .ok true) => rfl

theorem Reader.unread_ne_nil_of_atSectionDelimiter {r r' : Reader}
    (h : r.atSectionDelimiter = (r', .ok true)) : r'.unread ≠ [] := by
  unfold atSectionDelimiter at h
  split at h
  · cases h
  · cases h
  · rename_i he
    obtain rfl : _ = r' := congrArg Prod.fst h
    exact unread_ne_nil_of_ensureAvailable he

namespace BlockReader

/-- The window lies in the filled part of the block. -/
structure Fits (r : BlockReader) : Prop where
  cursor_le : r.cursor ≤ r.filled
  filled_le : r.filled ≤ r.cells.length

/-- What a reader shows of its block: the window alone. -/
def view (r : BlockReader) : Reader where
  source := r.source
  unread := r.window
  filled := r.filled
  discarded := r.discarded
  capacity := r.capacity
  ended := r.ended
  failed := r.failed

/-- The outcome of an operation on a block, and what it shows. -/
inductive Shows {α : Type} : BlockReader × α → Reader × α → Prop where
  | view {r : BlockReader} (h : r.Fits) (a : α) : Shows (r, a) (r.view, a)

variable {α : Type} {r : BlockReader}

theorem shows_of_view {x : BlockReader × α} {y : Reader × α} (h : x.1.Fits)
    (hview : x.1.view = y.1) (hanswer : x.2 = y.2) : Shows x y := by
  obtain ⟨v, b⟩ := y
  obtain rfl : x.1.view = v := hview
  obtain rfl : x.2 = b := hanswer
  exact .view h x.2

theorem fits_ofSource (s : Source) (capacity : Nat) : (ofSource s capacity).Fits :=
  ⟨Nat.le_refl 0, Nat.zero_le _⟩

@[simp] theorem view_ofSource (s : Source) (capacity : Nat) :
    (ofSource s capacity).view = Reader.ofSource s capacity := by
  simp [ofSource, view, window, buffer, BlockReader.capacity, Reader.ofSource]

theorem Fits.length_buffer (h : r.Fits) : r.buffer.length = r.filled :=
  List.length_take_of_le h.filled_le

theorem Fits.length_window (h : r.Fits) : r.window.length = r.filled - r.cursor := by
  rw [window, List.length_drop, h.length_buffer]

theorem Fits.cursor_view (h : r.Fits) : r.view.cursor = r.cursor := by
  have hcursor := h.cursor_le
  simp only [Reader.cursor, view, h.length_window]
  omega

theorem Fits.consumed_view (h : r.Fits) : r.view.consumed = r.consumed := by
  rw [Reader.consumed, h.cursor_view]
  rfl

/-! ### Making room -/

/-- Moving the window to the front leaves the source and the signs alone. -/
theorem compact_eq (r : BlockReader) :
    r.compact = { r with
      cells := r.compact.cells
      cursor := 0
      filled := r.filled - r.cursor
      discarded := r.discarded + r.cursor } := by
  unfold compact
  split
  · rfl
  · have hcursor : r.cursor = 0 := by omega
    cases r
    simp_all

theorem grow_eq (r : BlockReader) : r.grow = { r with cells := r.grow.cells } := by
  unfold grow
  split <;> rfl

theorem window_compact (h : r.Fits) : r.compact.window = r.window := by
  unfold compact
  split
  · have hlen := h.length_window
    have htake := take_overwrite (b := r.window) (Nat.zero_le r.cells.length)
    rw [Nat.zero_add, hlen, List.take_zero, List.nil_append] at htake
    simpa [window, buffer] using htake
  · rfl

theorem length_compact (h : r.Fits) : r.compact.cells.length = r.cells.length := by
  have hlen := h.length_window
  have hfilled := h.filled_le
  unfold compact
  split
  · exact length_overwrite (by omega)
  · rfl

theorem fits_compact (h : r.Fits) : r.compact.Fits := by
  have hfilled := h.filled_le
  have hlen := length_compact h
  rw [compact_eq]
  exact ⟨Nat.zero_le _, by simp only [hlen]; omega⟩

theorem length_grow (r : BlockReader) :
    r.grow.cells.length =
      if r.filled = r.cells.length then r.cells.length * 2 else r.cells.length := by
  unfold grow
  split
  · simp
    omega
  · rfl

theorem window_grow (h : r.Fits) : r.grow.window = r.window := by
  unfold grow
  split
  · simp [window, buffer, List.take_append_of_le_length h.filled_le]
  · rfl

theorem fits_grow (h : r.Fits) : r.grow.Fits := by
  have hfilled := h.filled_le
  have hlen := length_grow r
  rw [grow_eq]
  refine ⟨h.cursor_le, ?_⟩
  simp only [hlen]
  split <;> omega

theorem window_grow_compact (h : r.Fits) : r.compact.grow.window = r.window := by
  rw [window_grow (fits_compact h), window_compact h]

theorem filled_compact (r : BlockReader) : r.compact.filled = r.filled - r.cursor := by
  rw [compact_eq]

/-- Making room in a block shows as making room. -/
theorem view_grow_compact (h : r.Fits) : r.compact.grow.view = r.view.makeRoom := by
  have hunread : r.view.unread.length = r.filled - r.cursor := h.length_window
  rw [view, window_grow_compact h, capacity, length_grow, length_compact h, filled_compact, grow_eq,
    compact_eq, Reader.makeRoom, h.cursor_view, hunread]
  rfl

/-! ### Asking for more -/

theorem window_deliver {b : List UInt8} (h : r.Fits) :
    ((overwrite r.cells r.filled b).take (r.filled + b.length)).drop r.cursor = r.window ++ b := by
  rw [take_overwrite h.filled_le]
  exact List.drop_append_of_le_length (h.cursor_le.trans_eq h.length_buffer.symm)

/-- A source that writes no more than there is room for fills the block behind the window. -/
theorem shows_fetched {x : Except String (List UInt8) × Source} (h : r.Fits)
    (hroom : ∀ b, x.1 = .ok b → r.filled + b.length ≤ r.cells.length) :
    Shows (r.fetched x) (r.view.fetched x) := by
  obtain ⟨answer, t⟩ := x
  match answer with
  | .ok [] => exact shows_of_view ⟨h.cursor_le, h.filled_le⟩ rfl rfl
  | .error reason => exact shows_of_view ⟨h.cursor_le, h.filled_le⟩ rfl rfl
  | .ok (b :: bs) =>
    have hlen := length_overwrite (hroom _ rfl)
    refine shows_of_view
      ⟨h.cursor_le.trans (Nat.le_add_right _ _), (hroom _ rfl).trans_eq hlen.symm⟩ ?_ rfl
    rw [view, window, buffer, capacity, fetched, hlen, window_deliver h]
    rfl

theorem refill_of_ended (hended : r.ended = true) : r.refill = (r, .ok false) := if_pos hended

theorem refill_of_not_ended (hended : r.ended = false) :
    r.refill = r.compact.grow.fetched
      (r.source.fetch (r.compact.grow.cells.length - r.compact.grow.filled)) := by
  have hsource : r.compact.grow.source = r.source := by rw [grow_eq, compact_eq]
  rw [← hsource]
  exact if_neg (Bool.eq_false_iff.mp hended)

theorem room_view (h : r.Fits) :
    r.view.makeRoom.capacity - r.view.makeRoom.unread.length =
      r.compact.grow.cells.length - r.compact.grow.filled := by
  have hmake := view_grow_compact h
  have hcapacity : r.compact.grow.cells.length = r.view.makeRoom.capacity :=
    congrArg Reader.capacity hmake
  have hfilled : r.compact.grow.filled = r.view.makeRoom.unread.length :=
    congrArg Reader.filled hmake
  rw [hcapacity, hfilled]

theorem shows_refill (h : r.Fits) : Shows r.refill r.view.refill := by
  cases hended : r.ended with
  | true =>
    rw [refill_of_ended hended, Reader.refill_of_ended (r := r.view) hended]
    exact .view h _
  | false =>
    have hfits := fits_grow (fits_compact h)
    rw [refill_of_not_ended hended, Reader.refill_of_not_ended (r := r.view) hended, room_view h,
      ← view_grow_compact h]
    refine shows_fetched hfits fun b hb => ?_
    have hlen := Source.length_le_of_fetch hb
    have hfilled := hfits.filled_le
    omega

theorem window_eq_nil_iff (h : r.Fits) : r.window = [] ↔ r.filled ≤ r.cursor := by
  rw [← List.length_eq_zero_iff, h.length_window, Nat.sub_eq_zero_iff_le]

theorem shows_ensureAvailable (h : r.Fits) : Shows r.ensureAvailable r.view.ensureAvailable := by
  by_cases hempty : r.filled ≤ r.cursor
  · have hview : r.view.unread.isEmpty := List.isEmpty_iff.mpr ((window_eq_nil_iff h).mpr hempty)
    rw [ensureAvailable, if_pos hempty, Reader.ensureAvailable, if_pos hview]
    exact shows_refill h
  · have hview : ¬ r.view.unread.isEmpty := by
      rw [List.isEmpty_iff]
      exact mt (window_eq_nil_iff h).mp hempty
    rw [ensureAvailable, if_neg hempty, Reader.ensureAvailable, if_neg hview]
    exact .view h _

/-! ### Reading -/

theorem shows_advance {rest : List UInt8} (h : r.Fits) (hrest : rest <:+ r.window) (a : α) :
    Shows ({ r with cursor := r.filled - rest.length }, a) (r.view.advanceTo rest, a) := by
  have hbuffer : rest <:+ r.buffer := hrest.trans (List.drop_suffix _ _)
  have hdrop := List.suffix_iff_eq_drop.mp hbuffer
  rw [h.length_buffer] at hdrop
  refine shows_of_view ⟨Nat.sub_le _ _, h.filled_le⟩ ?_ rfl
  rw [Reader.advanceTo]
  conv => rhs; rw [hdrop]
  rfl

theorem readItem_of_none {decode : List UInt8 → Nat → Except Fault (Option (α × Nat))}
    (hnone : decode r.buffer r.cursor = Except.ok none) :
    r.readItem decode = match r.refill with
      | (r', .ok true) => r'.readItem decode
      | (r', .ok false) => (r', .error (.truncatedRecord (r'.filled - r'.cursor)))
      | (r', .error fault) => (r', .error fault) := by
  rw [readItem]
  simp only [hnone]
  split <;> rename_i hr <;> rw [hr]

/-- Items are decoded in the block as they are scanned in the window. -/
theorem shows_readItem {decode : List UInt8 → Nat → Except Fault (Option (α × Nat))}
    {scan : List UInt8 → Scan α}
    (hdecode : ∀ buffer start,
      decode buffer start = (scan (buffer.drop start)).located start buffer.length)
    (hsuffix : ∀ b a rest, scan b = .done a rest → rest <:+ b) (h : r.Fits) :
    Shows (r.readItem decode) (r.view.readItem scan) := by
  induction hn : r.source.size using Nat.strong_induction_on generalizing r with
  | _ n ih =>
    have hlocated : decode r.buffer r.cursor = (scan r.window).located r.cursor r.buffer.length :=
      hdecode r.buffer r.cursor
    cases hs : scan r.window with
    | done a rest =>
      have hview : scan r.view.unread = .done a rest := hs
      rw [hs, h.length_buffer] at hlocated
      rw [readItem, Reader.readItem]
      simp only [hlocated, Scan.located, hview]
      exact shows_advance h (hsuffix _ _ _ hs) (Except.ok a)
    | malformed problem =>
      have hview : scan r.view.unread = .malformed problem := hs
      rw [hs] at hlocated
      rw [readItem, Reader.readItem]
      simp only [hlocated, Scan.located, hview, h.cursor_view]
      exact .view h _
    | bad fault =>
      have hview : scan r.view.unread = .bad fault := hs
      rw [hs] at hlocated
      rw [readItem, Reader.readItem]
      simp only [hlocated, Scan.located, hview]
      exact .view h _
    | short =>
      rw [hs] at hlocated
      rw [readItem_of_none hlocated, Reader.readItem_of_short (r := r.view) hs]
      have hshows := shows_refill h
      have hsize (v : BlockReader) (hv : r.refill = (v, .ok true)) := size_refill hv
      generalize r.refill = x at hshows hsize
      generalize r.view.refill = y at hshows
      cases hshows with
      | @view r' hfits answer =>
        cases answer with
        | error fault => exact .view hfits _
        | ok more =>
          cases more with
          | false =>
            have hlen : r'.view.unread.length = r'.filled - r'.cursor := hfits.length_window
            dsimp only
            rw [hlen]
            exact .view hfits _
          | true => exact ih r'.source.size (hn ▸ hsize r' rfl) hfits rfl

theorem cursor_lt_filled (h : r.Fits) (hne : r.window ≠ []) : r.cursor < r.filled :=
  Nat.lt_of_not_le (mt (window_eq_nil_iff h).mpr hne)

theorem head?_view (h : r.Fits) (hne : r.window ≠ []) :
    r.view.unread.head? = r.cells[r.cursor]? := by
  rw [view, window, List.head?_drop, buffer, List.getElem?_take_of_lt (cursor_lt_filled h hne)]

/-- Whatever an operation goes on with once there is an unread byte shows as that of the reader
without a block. -/
theorem shows_whenAvailable {f : BlockReader → BlockReader × Except Fault α}
    {g : Reader → Reader × Except Fault α} (atEnd : α)
    (hfg : ∀ r' : BlockReader, r'.Fits → r'.window ≠ [] → Shows (f r') (g r'.view)) (h : r.Fits) :
    Shows (r.whenAvailable atEnd f) (r.view.whenAvailable atEnd g) := by
  have hshows := shows_ensureAvailable h
  have hne (v : Reader) (hv : r.view.ensureAvailable = (v, .ok true)) :=
    Reader.unread_ne_nil_of_ensureAvailable hv
  unfold whenAvailable Reader.whenAvailable
  generalize r.ensureAvailable = x at hshows
  generalize r.view.ensureAvailable = y at hshows hne
  cases hshows with
  | @view r' hfits answer =>
    match answer with
    | .error fault => exact .view hfits _
    | .ok false => exact .view hfits _
    | .ok true => exact hfg r' hfits (hne _ rfl)

theorem Shows.map {β : Type} {x : BlockReader × α} {y : Reader × α} (h : Shows x y) (k : α → β) :
    Shows (x.1, k x.2) (y.1, k y.2) := by
  cases h with
  | view h a => exact .view h (k a)

theorem shows_readRecord (h : r.Fits) : Shows r.readRecord r.view.readRecord := by
  rw [Reader.readRecord_eq]
  refine shows_whenAvailable none (fun r' hr' hne => ?_) h
  rw [Reader.recordAt, head?_view hr' hne]
  split
  · exact .view hr' _
  · exact (shows_readItem (fun _ _ => rfl) Reader.Record.suffix_of_scan hr').map (·.map some)

theorem shows_readEntry (h : r.Fits) : Shows r.readEntry r.view.readEntry := by
  rw [Reader.readEntry_eq]
  exact shows_whenAvailable none (fun r' hr' _ =>
    (shows_readItem (fun _ _ => rfl) Reader.Entry.suffix_of_scan hr').map (·.map some)) h

theorem shows_atSectionDelimiter (h : r.Fits) :
    Shows r.atSectionDelimiter r.view.atSectionDelimiter := by
  rw [Reader.atSectionDelimiter_eq]
  refine shows_whenAvailable false (fun r' hr' hne => ?_) h
  rw [Reader.delimiterAt, head?_view hr' hne]
  exact .view hr' _

theorem fits_step (h : r.Fits) (hne : r.window ≠ []) : { r with cursor := r.cursor + 1 }.Fits :=
  ⟨cursor_lt_filled h hne, h.filled_le⟩

theorem view_step (r : BlockReader) :
    { r with cursor := r.cursor + 1 }.view = r.view.advanceTo (r.view.unread.drop 1) := by
  have hdrop : r.view.unread.drop 1 = r.buffer.drop (r.cursor + 1) := by
    rw [view, window, List.drop_drop]
  rw [hdrop]
  rfl

theorem shows_skipSectionDelimiter (h : r.Fits) :
    Shows r.skipSectionDelimiter r.view.skipSectionDelimiter := by
  have hshows := shows_atSectionDelimiter h
  have hne (v : Reader) (hv : r.view.atSectionDelimiter = (v, .ok true)) :=
    Reader.unread_ne_nil_of_atSectionDelimiter hv
  rw [Reader.skipSectionDelimiter_eq]
  unfold skipSectionDelimiter
  generalize r.atSectionDelimiter = x at hshows
  generalize r.view.atSectionDelimiter = y at hshows hne
  cases hshows with
  | @view r' hfits answer =>
    match answer with
    | .error fault => exact .view hfits _
    | .ok false => exact .view hfits _
    | .ok true =>
      dsimp only
      rw [← view_step]
      refine shows_whenAvailable true (fun r'' hr'' hne'' => ?_) (fits_step hfits (hne _ rfl))
      rw [Reader.lineEndAt, head?_view hr'' hne'', ← view_step, hr''.cursor_view]
      split
      · exact .view (fits_step hr'' hne'') _
      · exact .view hr'' _

theorem shows_next (h : r.Fits) : Shows r.next r.view.next := by
  have hshows := shows_readRecord h
  unfold next Reader.next
  cases hfailed : r.failed with
  | true =>
    rw [if_pos rfl, if_pos (show r.view.failed = true from hfailed)]
    exact .view h _
  | false =>
    rw [if_neg Bool.false_ne_true, if_neg (show ¬ r.view.failed = true by simp [view, hfailed])]
    generalize r.readRecord = x at hshows
    generalize r.view.readRecord = y at hshows
    cases hshows with
    | @view r' hfits answer =>
      match answer with
      | .ok none => exact .view hfits _
      | .ok (some record) => exact .view hfits _
      | .error fault => exact shows_of_view ⟨hfits.cursor_le, hfits.filled_le⟩ rfl rfl

def ask (r : BlockReader) : Request → BlockReader × Reply
  | .record => (r.readRecord.1, .record r.readRecord.2)
  | .next => (r.next.1, .next r.next.2)
  | .entry => (r.readEntry.1, .entry r.readEntry.2)
  | .atDelimiter => (r.atSectionDelimiter.1, .flag r.atSectionDelimiter.2)
  | .skipDelimiter => (r.skipSectionDelimiter.1, .flag r.skipSectionDelimiter.2)

/-- A reader with a block replies as the reader that it shows. -/
theorem shows_ask (h : r.Fits) (request : Request) :
    Shows (r.ask request) (r.view.ask request) := by
  cases request with
  | record => exact (shows_readRecord h).map Reply.record
  | next => exact (shows_next h).map Reply.next
  | entry => exact (shows_readEntry h).map Reply.entry
  | atDelimiter => exact (shows_atSectionDelimiter h).map Reply.flag
  | skipDelimiter => exact (shows_skipSectionDelimiter h).map Reply.flag

end BlockReader

end WorkloadReplay.Trace
