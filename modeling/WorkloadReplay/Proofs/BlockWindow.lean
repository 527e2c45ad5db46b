import WorkloadReplay.Proofs.BlockReading

/-!
# The window of a block

Whatever is asked of a reader, and whatever read calls of its source are interrupted or fail, the
bytes that are used up, the window of its block and what the source has still to deliver are
together the bytes of the source. Asking for more leaves the window as it is, but for bytes that
come behind it.
-/

namespace WorkloadReplay.Trace

/-- What may be done with a reader: a request, or what requests do any number of times, which is
asking the source for more bytes or only making room for them. -/
inductive Operation where
  | ask (request : Request)
  | refill
  | makeRoom
  deriving DecidableEq

namespace Reader

variable {r r' : Reader} {input : List UInt8}

def operate (r : Reader) : Operation → Reader
  | .ask request => (r.ask request).1
  | .refill => r.refill.1
  | .makeRoom => r.makeRoom

def run (r : Reader) (operations : List Operation) : Reader := operations.foldl operate r

/-- The reader has used up the front of the input and has still to give all the rest. -/
structure Holds (input : List UInt8) (r : Reader) : Prop where
  sound : r.Sound
  input : ∃ used, input = used ++ r.pending ∧ used.length = r.consumed

theorem holds_ofSource (s : Source) (capacity : Nat) : (ofSource s capacity).Holds s.bytes :=
  ⟨sound_ofSource s capacity, [], rfl, rfl⟩

theorem Holds.of_uses {used : List UInt8} (h : r.Holds input) (hu : r.Uses used r') :
    r'.Holds input := by
  obtain ⟨front, rfl, hlen⟩ := h.input
  refine ⟨hu.sound, front ++ used, ?_, ?_⟩
  · rw [hu.pending, List.append_assoc]
  · rw [List.length_append, hlen, hu.consumed]

theorem Holds.fail (h : r.Holds input) : { r with failed := true }.Holds input :=
  ⟨⟨h.sound.unread_le, h.sound.filled_le, h.sound.capacity_pos, h.sound.ended⟩, h.input⟩

theorem Follows.exists_uses {α : Type} {whole : Except Fault α × List UInt8}
    {x : Reader × Except Fault α} (h : r.Follows whole x) : ∃ used, r.Uses used x.1 := by
  cases h with
  | answer h => exact ⟨_, h⟩
  | failure h => exact ⟨[], h⟩

theorem Skips.exists_uses {x : Reader × Except Fault Bool} (h : r.Skips x) :
    ∃ used, r.Uses used x.1 := by
  cases h with
  | line h | atEnd h | other h | nothing h | failed h | cutOff h | crowded h => exact ⟨_, h⟩

theorem holds_next (h : r.Holds input) : r.next.1.Holds input := by
  obtain ⟨used, hu⟩ := (follows_readRecord h.sound).exists_uses
  have hrecord := h.of_uses hu
  unfold next
  split
  · exact h
  · generalize r.readRecord = x at hrecord
    match x with
    | (r', .ok none) => exact hrecord
    | (r', .ok (some record)) => exact hrecord
    | (r', .error fault) => exact hrecord.fail

/-- No operation loses or repeats a byte of the input. -/
theorem holds_operate (h : r.Holds input) (operation : Operation) :
    (r.operate operation).Holds input := by
  cases operation with
  | ask request =>
    cases request with
    | record =>
      obtain ⟨used, hu⟩ := (follows_readRecord h.sound).exists_uses
      exact h.of_uses hu
    | next => exact holds_next h
    | entry =>
      obtain ⟨used, hu⟩ := (follows_readEntry h.sound).exists_uses
      exact h.of_uses hu
    | atDelimiter =>
      obtain ⟨used, hu⟩ := (follows_atSectionDelimiter h.sound).exists_uses
      exact h.of_uses hu
    | skipDelimiter =>
      obtain ⟨used, hu⟩ := (skips_skipSectionDelimiter h.sound).exists_uses
      exact h.of_uses hu
  | refill =>
    have hr := refills_refill h.sound
    unfold operate
    generalize r.refill = x at hr
    cases hr with
    | more hu | ended hu | failure hu => exact h.of_uses hu
  | makeRoom => exact h.of_uses (uses_makeRoom h.sound)

theorem holds_run (h : r.Holds input) (operations : List Operation) :
    (r.run operations).Holds input := by
  induction operations generalizing r with
  | nil => exact h
  | cons operation operations ih => exact ih (holds_operate h operation)

/-- Asking for more bytes adds those that the source gives behind the unread ones. -/
theorem exists_delivered (h : r.Sound) :
    ∃ b, r.refill.1.unread = r.unread ++ b ∧ r.source.bytes = b ++ r.refill.1.source.bytes ∧
      (b ≠ [] ↔ r.refill.2 = .ok true) := by
  have hr := refills_refill h
  generalize r.refill = x at hr
  cases hr with
  | @more r' b hu hne hunread =>
    have hpending := hu.pending
    simp only [pending, hunread, List.nil_append, List.append_assoc, List.append_cancel_left_eq]
      at hpending
    exact ⟨b, hunread, hpending, iff_of_true hne rfl⟩
  | @ended r' hu hunread | @failure r' reason hu hunread =>
    have hpending := hu.pending
    simp only [pending, hunread, List.nil_append, List.append_cancel_left_eq] at hpending
    exact ⟨[], by simpa using hunread, hpending, by simp⟩

end Reader

namespace BlockReader

variable {r : BlockReader} {input : List UInt8}

theorem Shows.fits {α : Type} {x : BlockReader × α} {y : Reader × α} (h : Shows x y) :
    x.1.Fits := by
  cases h with
  | view h => exact h

theorem Shows.view_eq {α : Type} {x : BlockReader × α} {y : Reader × α} (h : Shows x y) :
    x.1.view = y.1 := by
  cases h with
  | view => rfl

theorem Shows.answer_eq {α : Type} {x : BlockReader × α} {y : Reader × α} (h : Shows x y) :
    x.2 = y.2 := by
  cases h with
  | view => rfl

def operate (r : BlockReader) : Operation → BlockReader
  | .ask request => (r.ask request).1
  | .refill => r.refill.1
  | .makeRoom => r.compact.grow

def run (r : BlockReader) (operations : List Operation) : BlockReader :=
  operations.foldl operate r

theorem fits_operate (h : r.Fits) (operation : Operation) : (r.operate operation).Fits := by
  cases operation with
  | ask request => exact (shows_ask h request).fits
  | refill => exact (shows_refill h).fits
  | makeRoom => exact fits_grow (fits_compact h)

theorem view_operate (h : r.Fits) (operation : Operation) :
    (r.operate operation).view = r.view.operate operation := by
  cases operation with
  | ask request => exact (shows_ask h request).view_eq
  | refill => exact (shows_refill h).view_eq
  | makeRoom => exact view_grow_compact h

theorem fits_run (h : r.Fits) (operations : List Operation) : (r.run operations).Fits := by
  induction operations generalizing r with
  | nil => exact h
  | cons operation operations ih => exact ih (fits_operate h operation)

/-- A block makes no difference to any operations. -/
theorem view_run (h : r.Fits) (operations : List Operation) :
    (r.run operations).view = r.view.run operations := by
  induction operations generalizing r with
  | nil => rfl
  | cons operation operations ih =>
    rw [run, List.foldl_cons, ← run, ih (fits_operate h operation), view_operate h]
    rfl

/-- The window lies in the block, and stands in the input behind the bytes that are used up and in
front of those that the source has still to deliver. -/
structure Mirrors (input : List UInt8) (r : BlockReader) : Prop where
  cursor_le : r.cursor ≤ r.filled
  filled_le : r.filled ≤ r.capacity
  consumed_le : r.consumed ≤ input.length
  input : input = input.take r.consumed ++ r.window ++ r.source.bytes

theorem Fits.mirrors (h : r.Fits) (hholds : r.view.Holds input) : r.Mirrors input := by
  obtain ⟨used, hinput, hlen⟩ := hholds.input
  rw [h.consumed_view] at hlen
  have htake : input.take r.consumed = used := by rw [hinput, ← hlen, List.take_left]
  refine ⟨h.cursor_le, h.filled_le, ?_, ?_⟩
  · rw [hinput, ← hlen, List.length_append]
    exact Nat.le_add_right _ _
  · rw [htake, List.append_assoc]
    exact hinput

/-- Asking for more keeps the bytes of the window, where they are moved, where the block grows and
whatever the source answers; only bytes that the source delivers come behind them. -/
structure KeepsWindow (r : BlockReader) : Prop where
  compact : r.compact.window = r.window
  grow : r.compact.grow.window = r.window
  refill : ∃ b, r.refill.1.window = r.window ++ b ∧ r.source.bytes = b ++ r.refill.1.source.bytes ∧
    (b ≠ [] ↔ r.refill.2 = .ok true)
  consumed : r.refill.1.consumed = r.consumed

theorem keepsWindow_of_fits (h : r.Fits) (hsound : r.view.Sound) : r.KeepsWindow where
  compact := window_compact h
  grow := window_grow_compact h
  refill := by
    have hshows := shows_refill h
    have hdelivered := Reader.exists_delivered hsound
    rw [← hshows.view_eq, ← hshows.answer_eq] at hdelivered
    exact hdelivered
  consumed := by
    have hshows := shows_refill h
    rw [← hshows.fits.consumed_view, hshows.view_eq, Reader.consumed_refill hsound,
      h.consumed_view]

/-- What the block of a reader holds after some operations. -/
structure MirrorsSource (s : Source) (capacity : Nat) (operations : List Operation) : Prop where
  mirrors : ((ofSource s capacity).run operations).Mirrors s.bytes
  keeps : ((ofSource s capacity).run operations).KeepsWindow
  /-- The cells outside of the window make no difference to what is replied. -/
  view : ((ofSource s capacity).run operations).view = (Reader.ofSource s capacity).run operations
  reply : ∀ request, (((ofSource s capacity).run operations).ask request).2 =
    (((Reader.ofSource s capacity).run operations).ask request).2
  /-- The reader without a block has used up as much, and has as much still to give. -/
  holds : ((Reader.ofSource s capacity).run operations).Holds s.bytes

/-- The block of a reader mirrors its source, whatever the source does. -/
theorem mirrorsSource_run (s : Source) (capacity : Nat) (operations : List Operation) :
    MirrorsSource s capacity operations := by
  have hfits := fits_run (fits_ofSource s capacity) operations
  have hview := view_run (fits_ofSource s capacity) operations
  rw [view_ofSource] at hview
  have hholds := Reader.holds_run (Reader.holds_ofSource s capacity) operations
  refine ⟨hfits.mirrors (hview ▸ hholds), keepsWindow_of_fits hfits (hview ▸ hholds.sound), hview,
    fun request => ?_, hholds⟩
  rw [(shows_ask hfits request).answer_eq, hview]

end BlockReader

end WorkloadReplay.Trace
