import WorkloadReplay.Proofs.ScanStability
import WorkloadReplay.Trace.Reader

/-!
# Reading through a buffer

What a reader answers is what a scan of all the bytes that it has still to give would say, however
the source cuts them and whatever the buffer holds at the moment. An answer uses up bytes in front
of these and leaves the others, and a read call that fails uses up none.
-/

namespace WorkloadReplay.Trace

namespace Source

/-- No read call fails for good; it may be interrupted. -/
def Reliable (s : Source) : Prop := ∀ reason, Part.failure reason ∉ s

/-- The failures that are still to come are failures of the source. -/
def FailsWithin (t s : Source) : Prop := ∀ reason, Part.failure reason ∈ t → Part.failure reason ∈ s

theorem FailsWithin.trans {s t u : Source} (h : u.FailsWithin t) (h' : t.FailsWithin s) :
    u.FailsWithin s := fun reason hu => h' reason (h reason hu)

theorem Reliable.of_failsWithin {s t : Source} (hs : s.Reliable) (h : t.FailsWithin s) :
    t.Reliable := fun reason ht => hs reason (h reason ht)

/-- The second source is what is left of the first one behind some bytes. -/
structure Leaves (s : Source) (b : List UInt8) (t : Source) : Prop where
  bytes : s.bytes = b ++ t.bytes
  failsWithin : t.FailsWithin s

theorem leaves_self (s : Source) : s.Leaves [] s := ⟨rfl, fun _ h => h⟩

theorem Leaves.trans {s t u : Source} {b c : List UInt8} (h : s.Leaves b t) (h' : t.Leaves c u) :
    s.Leaves (b ++ c) u :=
  ⟨by rw [h.bytes, h'.bytes, List.append_assoc], h'.failsWithin.trans h.failsWithin⟩

/-- What one read call does: its answer and what is left of the source. -/
inductive Reads (room : Nat) (s : Source) : ReadAnswer × Source → Prop where
  | bytes {b : List UInt8} {t : Source} (h : s.Leaves b t) (hroom : b.length ≤ room)
      (hend : 0 < room → b = [] → t = []) : Reads room s (.bytes b, t)
  | interrupted {t : Source} (h : s.Leaves [] t) : Reads room s (.interrupted, t)
  | failure {reason : String} {t : Source} (h : s.Leaves [] t)
      (hreason : Part.failure reason ∈ s) : Reads room s (.failure reason, t)

theorem Reads.of_leaves {room : Nat} {s t : Source} {x : ReadAnswer × Source}
    (h : s.Leaves [] t) (hx : Reads room t x) : Reads room s x := by
  cases hx with
  | bytes hx hroom hend => exact .bytes (h.trans hx) hroom hend
  | interrupted hx => exact .interrupted (h.trans hx)
  | failure hx hreason => exact .failure (h.trans hx) (h.failsWithin _ hreason)

theorem reads_read (room : Nat) (s : Source) : Reads room s (read room s) := by
  fun_induction read room s with
  | case1 => exact .bytes (leaves_self []) (Nat.zero_le _) fun _ _ => rfl
  | case2 rest ih =>
    exact ih.of_leaves ⟨rfl, fun _ h => List.mem_cons_of_mem _ h⟩
  | case3 c b rest =>
    refine .bytes ⟨?_, ?_⟩ ?_ ?_
    · rw [bytes, bytes, ← List.append_assoc, List.take_append_drop]
    · intro reason h
      cases h with
      | tail _ h => exact List.mem_cons_of_mem _ h
    · exact List.length_take_le _ _
    · intro hroom hnil
      have := List.take_eq_nil_iff.mp hnil
      simp only [reduceCtorEq, or_false] at this
      omega
  | case4 rest => exact .interrupted ⟨rfl, fun _ h => List.mem_cons_of_mem _ h⟩
  | case5 reason rest =>
    exact .failure ⟨rfl, fun _ h => List.mem_cons_of_mem _ h⟩ List.mem_cons_self

inductive Fetches (room : Nat) (s : Source) : Except String (List UInt8) × Source → Prop where
  | bytes {b : List UInt8} {t : Source} (h : s.Leaves b t) (hroom : b.length ≤ room)
      (hend : 0 < room → b = [] → t = []) : Fetches room s (.ok b, t)
  | failure {reason : String} {t : Source} (h : s.Leaves [] t)
      (hreason : Part.failure reason ∈ s) : Fetches room s (.error reason, t)

theorem fetches_fetch (room : Nat) (s : Source) : Fetches room s (fetch room s) := by
  fun_induction fetch room s with
  | case1 s t hr ih =>
    have h := reads_read room s
    rw [hr] at h
    cases h with
    | interrupted h =>
      generalize fetch room t = x at ih
      cases ih with
      | bytes hx hroom hend => exact .bytes (h.trans hx) hroom hend
      | failure hx hreason => exact .failure (h.trans hx) (h.failsWithin _ hreason)
  | case2 s b t hr =>
    have h := reads_read room s
    rw [hr] at h
    cases h with
    | bytes h hroom hend => exact .bytes h hroom hend
  | case3 s reason t hr =>
    have h := reads_read room s
    rw [hr] at h
    cases h with
    | failure h hreason => exact .failure h hreason

end Source

namespace Reader

/-- The bytes that no answer has used up. -/
def pending (r : Reader) : List UInt8 := r.unread ++ r.source.bytes

/-- The unread bytes stand at the end of the filled part of a buffer, and a source that has ended
has nothing more to deliver. -/
structure Sound (r : Reader) : Prop where
  unread_le : r.unread.length ≤ r.filled
  filled_le : r.filled ≤ r.capacity
  capacity_pos : 0 < r.capacity
  ended : r.ended = true → r.source = []

/-- The second reader is the first one after it has used up some bytes. -/
structure Uses (r : Reader) (used : List UInt8) (r' : Reader) : Prop where
  sound : r'.Sound
  pending : r.pending = used ++ r'.pending
  consumed : r'.consumed = r.consumed + used.length
  failed : r'.failed = r.failed
  failsWithin : r'.source.FailsWithin r.source

variable {r r' r'' : Reader}

theorem sound_ofSource (s : Source) (capacity : Nat) : (ofSource s capacity).Sound where
  unread_le := Nat.le_refl 0
  filled_le := Nat.zero_le _
  capacity_pos := by
    simp only [ofSource, minCapacity]
    omega
  ended := by
    intro h
    cases h

theorem Uses.refl (h : r.Sound) : r.Uses [] r := ⟨h, rfl, rfl, rfl, fun _ h => h⟩

theorem Uses.trans {a b : List UInt8} (h : r.Uses a r') (h' : r'.Uses b r'') :
    r.Uses (a ++ b) r'' where
  sound := h'.sound
  pending := by rw [h.pending, h'.pending, List.append_assoc]
  consumed := by rw [h'.consumed, h.consumed, List.length_append, Nat.add_assoc]
  failed := h'.failed.trans h.failed
  failsWithin := h'.failsWithin.trans h.failsWithin

theorem Uses.reliable {used : List UInt8} (h : r.Uses used r') (hr : r.source.Reliable) :
    r'.source.Reliable := hr.of_failsWithin h.failsWithin

theorem uses_advanceTo {used rest : List UInt8} (h : r.Sound) (hb : r.unread = used ++ rest) :
    r.Uses used (r.advanceTo rest) where
  sound := by
    have hle := h.unread_le
    rw [hb, List.length_append] at hle
    exact ⟨by simp only [advanceTo]; omega, h.filled_le, h.capacity_pos, h.ended⟩
  pending := by simp [pending, advanceTo, hb]
  consumed := by
    have hle := h.unread_le
    rw [hb, List.length_append] at hle
    simp only [consumed, cursor, advanceTo, hb, List.length_append]
    omega
  failed := rfl
  failsWithin := fun _ h => h

/-- The used up bytes leave the buffer, and nothing else is lost. -/
theorem uses_makeRoom (h : r.Sound) : r.Uses [] r.makeRoom where
  sound := by
    have hunread := h.unread_le
    have hfilled := h.filled_le
    have hpos := h.capacity_pos
    constructor
    · exact Nat.le_refl _
    · simp only [makeRoom]
      split <;> omega
    · simp only [makeRoom]
      split <;> omega
    · exact h.ended
  pending := rfl
  consumed := by simp [consumed, cursor, makeRoom]
  failed := rfl
  failsWithin := fun _ h => h

/-- A read call is never made for no bytes. -/
theorem room_makeRoom (h : r.Sound) : r.makeRoom.unread.length < r.makeRoom.capacity := by
  have hunread := h.unread_le
  have hfilled := h.filled_le
  have hpos := h.capacity_pos
  simp only [makeRoom]
  split <;> omega

theorem uses_deliver {b : List UInt8} {source : Source} (h : r.Sound)
    (hs : r.source.Leaves b source) (hlen : r.filled + b.length ≤ r.capacity) (ended : Bool)
    (hended : ended = true → source = []) :
    r.Uses [] { r with
      source := source
      unread := r.unread ++ b
      filled := r.filled + b.length
      ended := ended } where
  sound := by
    have hunread := h.unread_le
    constructor
    · simp only [List.length_append]
      omega
    · exact hlen
    · exact h.capacity_pos
    · exact hended
  pending := by simp [pending, hs.bytes]
  consumed := by
    have hunread := h.unread_le
    simp only [consumed, cursor, List.length_append, List.length_nil]
    omega
  failed := rfl
  failsWithin := hs.failsWithin

/-- What asking for more bytes does: the unread bytes grow, or all that is left is unread, or a read
call fails. -/
inductive Refills (r : Reader) : Reader × Except Fault Bool → Prop where
  | more {r' : Reader} {b : List UInt8} (h : r.Uses [] r') (hne : b ≠ [])
      (hunread : r'.unread = r.unread ++ b) : Refills r (r', .ok true)
  | ended {r' : Reader} (h : r.Uses [] r') (hunread : r'.unread = r.unread)
      (hall : r.pending = r.unread) : Refills r (r', .ok false)
  | failure {r' : Reader} {reason : String} (h : r.Uses [] r') (hunread : r'.unread = r.unread)
      (hreason : Part.failure reason ∈ r.source) : Refills r (r', .error (.source reason))

theorem refills_refill (h : r.Sound) : r.Refills r.refill := by
  unfold refill
  split
  · rename_i hended
    exact .ended (.refl h) rfl (by simp [pending, h.ended hended, Source.bytes])
  · rename_i hended
    have hroom := room_makeRoom h
    have hmake := uses_makeRoom h
    have hfilled : r.makeRoom.filled = r.makeRoom.unread.length := rfl
    have hf := Source.fetches_fetch (r.makeRoom.capacity - r.makeRoom.unread.length)
      r.makeRoom.source
    dsimp only
    split
    · rename_i source heq
      rw [heq] at hf
      cases hf with
      | bytes hs hlen hend =>
        have hnil : source = [] := hend (by omega) rfl
        have hall : r.pending = r.unread := by
          have hbytes : r.source.bytes = source.bytes := hs.bytes
          simp [pending, hbytes, hnil, Source.bytes]
        have hdeliver := uses_deliver hmake.sound hs (by omega) true fun _ => hnil
        exact .ended (hmake.trans (by simpa using hdeliver)) rfl hall
    · rename_i b bs source heq
      rw [heq] at hf
      cases hf with
      | bytes hs hlen _ =>
        have hdeliver := uses_deliver hmake.sound hs (by omega) r.makeRoom.ended
          fun h => absurd h hended
        exact .more (hmake.trans hdeliver) (List.cons_ne_nil b bs) rfl
    · rename_i reason source heq
      rw [heq] at hf
      cases hf with
      | failure hs hreason =>
        have hdeliver := uses_deliver hmake.sound hs hmake.sound.filled_le r.makeRoom.ended
          fun h => absurd h hended
        exact .failure (hmake.trans (by simpa using hdeliver)) rfl hreason

inductive Checks (r : Reader) : Reader × Except Fault Bool → Prop where
  | available {r' : Reader} (h : r.Uses [] r') (hne : r'.unread ≠ []) : Checks r (r', .ok true)
  | ended {r' : Reader} (h : r.Uses [] r') (hnil : r.pending = []) : Checks r (r', .ok false)
  | failure {r' : Reader} {reason : String} (h : r.Uses [] r')
      (hreason : Part.failure reason ∈ r.source) : Checks r (r', .error (.source reason))

theorem checks_ensureAvailable (h : r.Sound) : r.Checks r.ensureAvailable := by
  unfold ensureAvailable
  split
  · rename_i hempty
    have hnil := List.isEmpty_iff.mp hempty
    have hr := refills_refill h
    generalize r.refill = x at hr
    cases hr with
    | more hu hne hunread => exact .available hu (by simp [hunread, hne])
    | ended hu _ hall => exact .ended hu (hall.trans hnil)
    | failure hu _ hreason => exact .failure hu hreason
  · rename_i hempty
    exact .available (.refl h) fun hnil => hempty (List.isEmpty_iff.mpr hnil)

theorem pending_ne_nil (hne : r.unread ≠ []) : r.pending ≠ [] := by
  intro h
  exact hne (List.append_eq_nil_iff.mp h).1

theorem Uses.head?_unread (h : r.Uses [] r') (hne : r'.unread ≠ []) :
    r'.unread.head? = r.pending.head? := by
  obtain ⟨c, rest, hc⟩ := List.exists_cons_of_ne_nil hne
  rw [h.pending]
  simp [Reader.pending, hc]

end Reader

end WorkloadReplay.Trace
