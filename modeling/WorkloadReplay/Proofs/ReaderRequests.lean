import WorkloadReplay.Proofs.ReaderAnswers
import Mathlib.Data.List.Forall2

/-!
# Requests to a reader

Two readers of the same bytes give the same replies to the same requests, whatever the parts in
which the bytes arrive, the read calls that are interrupted and the capacities of the buffers.
-/

namespace WorkloadReplay.Trace

inductive Request where
  | record
  | next
  | entry
  | atDelimiter
  | skipDelimiter
  deriving DecidableEq

inductive Reply where
  | record (answer : Except Fault (Option Record))
  | next (answer : Option (Except Fault Record))
  | entry (answer : Except Fault (Option Entry))
  | flag (answer : Except Fault Bool)

inductive Reply.Alike : Reply → Reply → Prop where
  | record {x y : Except Fault (Option Record)} (h : Trace.Alike x y) :
      Alike (.record x) (.record y)
  | next {x y : Option (Except Fault Record)} (h : Option.Rel Trace.Alike x y) :
      Alike (.next x) (.next y)
  | entry {x y : Except Fault (Option Entry)} (h : Trace.Alike x y) : Alike (.entry x) (.entry y)
  | flag {x y : Except Fault Bool} (h : Trace.Alike x y) : Alike (.flag x) (.flag y)

namespace Reader

def ask (r : Reader) : Request → Reader × Reply
  | .record => (r.readRecord.1, .record r.readRecord.2)
  | .next => (r.next.1, .next r.next.2)
  | .entry => (r.readEntry.1, .entry r.readEntry.2)
  | .atDelimiter => (r.atSectionDelimiter.1, .flag r.atSectionDelimiter.2)
  | .skipDelimiter => (r.skipSectionDelimiter.1, .flag r.skipSectionDelimiter.2)

/-- The replies to some requests, each with the number of bytes used up by then. -/
def replies (r : Reader) : List Request → List (Reply × Nat)
  | [] => []
  | request :: requests =>
    ((r.ask request).2, (r.ask request).1.consumed) :: (r.ask request).1.replies requests

/-- Two readers that have used up as much and have the same bytes still to give. -/
structure Agrees (r s : Reader) : Prop where
  soundLeft : r.Sound
  soundRight : s.Sound
  reliableLeft : r.source.Reliable
  reliableRight : s.source.Reliable
  pending : r.pending = s.pending
  consumed : r.consumed = s.consumed
  failed : r.failed = s.failed

variable {r s : Reader}

theorem agrees_ofSource {s t : Source} (hs : s.Reliable) (ht : t.Reliable) (h : s.bytes = t.bytes)
    (m n : Nat) : (ofSource s m).Agrees (ofSource t n) where
  soundLeft := sound_ofSource s m
  soundRight := sound_ofSource t n
  reliableLeft := hs
  reliableRight := ht
  pending := h
  consumed := rfl
  failed := rfl

/-- Operations that follow the same operation on all bytes keep two readers in agreement. -/
theorem Agrees.follows {α : Type} {whole : Except Fault α × List UInt8} (h : r.Agrees s)
    {x y : Reader × Except Fault α} (hx : r.Follows whole x) (hy : s.Follows whole y) :
    x.1.Agrees y.1 ∧ Alike x.2 y.2 := by
  obtain ⟨used, hr, hrest, ha⟩ := hx.of_reliable h.reliableLeft
  obtain ⟨used', hs, hrest', ha'⟩ := hy.of_reliable h.reliableRight
  have hused : used = used' := by
    have happend : used ++ whole.2 = used' ++ whole.2 := by
      rw [← hrest, ← hr.pending, h.pending, hs.pending, hrest', hrest]
    exact List.append_cancel_right happend
  refine ⟨⟨hr.sound, hs.sound, hr.reliable h.reliableLeft, hs.reliable h.reliableRight,
    hrest.trans hrest'.symm, ?_, ?_⟩, ha.trans ha'.symm⟩
  · rw [hr.consumed, hs.consumed, h.consumed, hused]
  · rw [hr.failed, hs.failed, h.failed]

theorem Agrees.readRecord (h : r.Agrees s) :
    r.readRecord.1.Agrees s.readRecord.1 ∧ Alike r.readRecord.2 s.readRecord.2 :=
  h.follows (follows_readRecord h.soundLeft) (h.pending ▸ follows_readRecord h.soundRight)

theorem Agrees.fail (h : r.Agrees s) :
    Agrees { r with failed := true } { s with failed := true } where
  soundLeft := ⟨h.soundLeft.unread_le, h.soundLeft.filled_le, h.soundLeft.capacity_pos,
    h.soundLeft.ended⟩
  soundRight := ⟨h.soundRight.unread_le, h.soundRight.filled_le, h.soundRight.capacity_pos,
    h.soundRight.ended⟩
  reliableLeft := h.reliableLeft
  reliableRight := h.reliableRight
  pending := h.pending
  consumed := h.consumed
  failed := rfl

theorem Agrees.next (h : r.Agrees s) :
    r.next.1.Agrees s.next.1 ∧ Option.Rel Alike r.next.2 s.next.2 := by
  obtain ⟨hagrees, halike⟩ := h.readRecord
  unfold Reader.next
  rw [h.failed]
  split
  · exact ⟨h, .none⟩
  · generalize r.readRecord = x at hagrees halike
    generalize s.readRecord = y at hagrees halike
    obtain ⟨r', a⟩ := x
    obtain ⟨s', b⟩ := y
    cases halike with
    | ok item =>
      cases item with
      | none => exact ⟨hagrees, .none⟩
      | some record => exact ⟨hagrees, .some (.ok record)⟩
    | error hfault => exact ⟨hagrees.fail, .some (.error hfault)⟩

theorem Agrees.ask (h : r.Agrees s) (request : Request) :
    (r.ask request).1.Agrees (s.ask request).1 ∧
      (r.ask request).2.Alike (s.ask request).2 := by
  cases request with
  | record =>
    obtain ⟨hagrees, halike⟩ := h.readRecord
    exact ⟨hagrees, .record halike⟩
  | next =>
    obtain ⟨hagrees, halike⟩ := h.next
    exact ⟨hagrees, .next halike⟩
  | entry =>
    obtain ⟨hagrees, halike⟩ := h.follows (follows_readEntry h.soundLeft)
      (h.pending ▸ follows_readEntry h.soundRight)
    exact ⟨hagrees, .entry halike⟩
  | atDelimiter =>
    obtain ⟨hagrees, halike⟩ := h.follows (follows_atSectionDelimiter h.soundLeft)
      (h.pending ▸ follows_atSectionDelimiter h.soundRight)
    exact ⟨hagrees, .flag halike⟩
  | skipDelimiter =>
    obtain ⟨hagrees, halike⟩ := h.follows
      (follows_skipSectionDelimiter h.soundLeft h.reliableLeft)
      (h.pending ▸ follows_skipSectionDelimiter h.soundRight h.reliableRight)
    exact ⟨hagrees, .flag halike⟩

theorem Agrees.replies (h : r.Agrees s) (requests : List Request) :
    List.Forall₂ (fun x y => x.1.Alike y.1 ∧ x.2 = y.2) (r.replies requests)
      (s.replies requests) := by
  induction requests generalizing r s with
  | nil => exact .nil
  | cons request requests ih =>
    obtain ⟨hagrees, halike⟩ := h.ask request
    exact .cons ⟨halike, hagrees.consumed⟩ (ih hagrees)

/-- How the bytes of a source arrive makes no difference to any sequence of requests. -/
theorem replies_ofSource_alike {s t : Source} (hs : s.Reliable) (ht : t.Reliable)
    (h : s.bytes = t.bytes) (m n : Nat) (requests : List Request) :
    List.Forall₂ (fun x y => x.1.Alike y.1 ∧ x.2 = y.2) ((ofSource s m).replies requests)
      ((ofSource t n).replies requests) :=
  (agrees_ofSource hs ht h m n).replies requests

/-- A record cut behind the quote of its tag, then the delimiter cut from the end of its line. -/
theorem replies_ofSource_alike_cut :
    List.Forall₂ (fun x y => x.1.Alike y.1 ∧ x.2 = y.2)
      ((ofSource [.bytes (Text.bytes "1f,\"7"), .interrupted, .bytes (Text.bytes "\",\"\"\n#"),
        .interrupted, .bytes (Text.bytes "\n7,\"a")] 1).replies
        [.record, .next, .atDelimiter, .skipDelimiter, .entry, .entry])
      ((ofSource [.bytes (Text.bytes "1f,\"7\",\"\"\n#\n7,\"a")] 4096).replies
        [.record, .next, .atDelimiter, .skipDelimiter, .entry, .entry]) := by
  apply replies_ofSource_alike
  · intro reason h
    simp at h
  · intro reason h
    simp at h
  · decide

end Reader

end WorkloadReplay.Trace
