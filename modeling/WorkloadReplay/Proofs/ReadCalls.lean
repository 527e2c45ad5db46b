import WorkloadReplay.Proofs.RepeatedReads
import Mathlib.Algebra.Group.Nat.Defs

/-!
# The read calls of a request

A request makes a read call only where its reader has too few unread bytes for an answer. No call is
made for no bytes, so a call that gets none stands at the end of the source, and each call leaves
less of the source or is the last one. The capacity of the buffer doubles only where the unread
bytes fill it.
-/

namespace WorkloadReplay.Trace

namespace Source

/-- What is left of a source at each of the read calls that fetching from it makes. -/
def attempts (room : Nat) (s : Source) : List Source :=
  match _h : read room s with
  | (.interrupted, t) => s :: attempts room t
  | _ => [s]
termination_by s.size
decreasing_by exact size_read_interrupted _h

theorem attempts_of_interrupted {room : Nat} {s t : Source} (h : read room s = (.interrupted, t)) :
    attempts room s = s :: attempts room t := by
  rw [attempts]
  split
  · rename_i u hu
    obtain rfl : t = u := congrArg Prod.snd (h.symm.trans hu)
    rfl
  · rename_i hne
    exact absurd h (hne t)

theorem attempts_of_settled {room : Nat} {s : Source} (h : ∀ t, read room s ≠ (.interrupted, t)) :
    attempts room s = [s] := by
  rw [attempts]
  split
  · rename_i t ht
    exact absurd ht (h t)
  · rfl

/-- Each attempt takes something off the source, but for the last one if it gets no bytes. -/
theorem length_attempts_le {room : Nat} {s t : Source} {answer : Except String (List UInt8)}
    (h : fetch room s = (answer, t)) :
    (attempts room s).length + t.size ≤ s.size + 1 ∧
      (answer ≠ .ok [] → (attempts room s).length + t.size ≤ s.size) := by
  fun_induction fetch room s with
  | case1 s u hr ih =>
    have hsize := size_read_interrupted hr
    obtain ⟨hle, hlt⟩ := ih h
    rw [attempts_of_interrupted hr, List.length_cons]
    refine ⟨by omega, fun hanswer => ?_⟩
    have := hlt hanswer
    omega
  | case2 s b u hr =>
    cases h
    have hsize := size_read_bytes hr
    rw [attempts_of_settled (by simp [hr]), List.length_singleton]
    refine ⟨by omega, fun hanswer => ?_⟩
    have hpos : 0 < b.length := List.length_pos_iff.mpr fun hnil => hanswer (hnil ▸ rfl)
    omega
  | case3 s reason u hr =>
    cases h
    have hsize := size_read_failure hr
    rw [attempts_of_settled (by simp [hr]), List.length_singleton]
    exact ⟨by omega, fun _ => by omega⟩

/-- A call for some bytes that gets none stands at the end. -/
theorem bytes_eq_nil_of_read {room : Nat} {s : Source} (hroom : 0 < room)
    (h : (read room s).1 = .bytes []) : s.bytes = [] := by
  have hr := reads_read room s
  generalize read room s = x at hr h
  cases hr with
  | bytes hleaves _ hend =>
    cases h
    rw [hleaves.bytes, hend hroom rfl]
    rfl
  | interrupted => cases h
  | failure => cases h

end Source

namespace Reader

/-! ### What is called -/

/-- The readers, room made, at the read calls that asking for more bytes makes. -/
def refillCalls (r : Reader) : List Reader :=
  if r.ended then []
  else
    (r.source.attempts (r.makeRoom.capacity - r.makeRoom.unread.length)).map r.makeRoom.onSource

def ensureCalls (r : Reader) : List Reader := if r.unread.isEmpty then r.refillCalls else []

def availableCalls (f : Reader → List Reader) (r : Reader) : List Reader :=
  r.ensureCalls ++
    match r.ensureAvailable with
    | (r', .ok true) => f r'
    | _ => []

def itemCalls {α : Type} (scan : List UInt8 → Scan α) (r : Reader) : List Reader :=
  match scan r.unread with
  | .short =>
    r.refillCalls ++
      match _h : r.refill with
      | (r', .ok true) => itemCalls scan r'
      | _ => []
  | _ => []
termination_by r.source.size
decreasing_by exact size_refill _h

def recordCalls : Reader → List Reader :=
  availableCalls fun r =>
    if r.unread.head? = some sectionDelimiter then [] else r.itemCalls Record.scan

def readCalls (r : Reader) : Request → List Reader
  | .record => r.recordCalls
  | .next => if r.failed then [] else r.recordCalls
  | .entry => r.availableCalls (itemCalls Entry.scan)
  | .atDelimiter => r.ensureCalls
  | .skipDelimiter =>
    r.ensureCalls ++
      match r.atSectionDelimiter with
      | (r', .ok true) => (r'.advanceTo (r'.unread.drop 1)).ensureCalls
      | _ => []

/-! ### What calls do -/

/-- Each call takes the source on from where the one before has left it. -/
inductive Chain : Source → List Reader → Source → Prop where
  | nil (s : Source) : Chain s [] s
  | cons {m : Reader} {calls : List Reader} {t : Source}
      (h : Chain (m.source.read (m.capacity - m.filled)).2 calls t) : Chain m.source (m :: calls) t

/-- The most read calls that can still be made: one for each byte and each part that the source has
still to deliver, and the one that finds its end. -/
def budget (r : Reader) : Nat := if r.ended then 0 else r.source.size + 1

/-- The capacity has doubled any number of times, and no further than to twice `n`. -/
structure Grows (r : Reader) (n : Nat) (r' : Reader) : Prop where
  doubled : ∃ k, r'.capacity = r.capacity * 2 ^ k
  le : r'.capacity ≤ max r.capacity (2 * n)

/-- A read call for at least one byte, made where no more than `n` bytes are unread and these are
too few. -/
structure Asks (few : List UInt8 → Prop) (n : Nat) (m : Reader) : Prop where
  few : few m.unread
  room : m.filled < m.capacity
  unread_le : m.unread.length ≤ n

/-- On the way from one reader to another, the calls are made. For each of them the buffer grows no
further than for the bytes that are unread by then. -/
structure Makes (few : List UInt8 → Prop) (n : Nat) (r : Reader) (calls : List Reader)
    (r' : Reader) : Prop where
  sound : r'.Sound
  chain : Chain r.source calls r'.source
  budget : calls.length + r'.budget ≤ r.budget
  asks : ∀ m ∈ calls, m.Asks few n
  grows : ∀ m ∈ calls, r.Grows m.unread.length m
  grown : r.Grows n r'

variable {α : Type} {few : List UInt8 → Prop} {n : Nat} {r r' r'' : Reader}
  {calls more : List Reader}

theorem Chain.append {s t u : Source} (h : Chain s calls t) (h' : Chain t more u) :
    Chain s (calls ++ more) u := by
  induction h with
  | nil s => exact h'
  | cons _ ih => exact .cons (ih h')

theorem chain_attempts (r : Reader) (s : Source) :
    Chain s ((s.attempts (r.capacity - r.filled)).map r.onSource)
      (s.fetch (r.capacity - r.filled)).2 := by
  generalize hroom : r.capacity - r.filled = room
  have hcons {t : Source} {calls : List Reader} (u : Source) (h : Chain (u.read room).2 calls t) :
      Chain u (r.onSource u :: calls) t := by
    subst hroom
    exact .cons (m := r.onSource u) h
  fun_induction Source.fetch room s with
  | case1 s u hr ih =>
    rw [Source.attempts_of_interrupted hr, List.map_cons]
    exact hcons s (hr ▸ ih)
  | case2 s b u hr =>
    rw [Source.attempts_of_settled (by simp [hr])]
    exact hcons s (hr ▸ .nil u)
  | case3 s reason u hr =>
    rw [Source.attempts_of_settled (by simp [hr])]
    exact hcons s (hr ▸ .nil u)

theorem Grows.of_eq (h : r'.capacity = r.capacity) : r.Grows n r' :=
  ⟨⟨0, by simpa using h⟩, h.trans_le (Nat.le_max_left _ _)⟩

theorem Grows.mono {m : Nat} (h : r.Grows m r') (hmn : m ≤ n) : r.Grows n r' :=
  ⟨h.doubled, h.le.trans (by omega)⟩

theorem Grows.trans (h : r.Grows n r') (h' : r'.Grows n r'') : r.Grows n r'' := by
  obtain ⟨k, hk⟩ := h.doubled
  obtain ⟨l, hl⟩ := h'.doubled
  have hle := h.le
  have hle' := h'.le
  exact ⟨⟨k + l, by rw [hl, hk, Nat.pow_add, Nat.mul_assoc]⟩, by omega⟩

theorem grows_makeRoom (r : Reader) : r.Grows r.unread.length r.makeRoom := by
  by_cases hfull : r.unread.length = r.capacity
  · have hcapacity : r.makeRoom.capacity = r.capacity * 2 := if_pos hfull
    exact ⟨⟨1, hcapacity⟩, by omega⟩
  · exact .of_eq (if_neg hfull)

theorem makes_nil (h : r.Sound) : Makes few n r [] r where
  sound := h
  chain := .nil r.source
  budget := by simp
  asks := by simp
  grows := by simp
  grown := .of_eq rfl

theorem Makes.mono {m : Nat} (h : Makes few m r calls r') (hmn : m ≤ n) :
    Makes few n r calls r' :=
  { h with
    asks := fun c hc => { h.asks c hc with unread_le := (h.asks c hc).unread_le.trans hmn }
    grown := h.grown.mono hmn }

theorem Makes.append (h : Makes few n r calls r') (h' : Makes few n r' more r'')
    (hgrows : ∀ m ∈ more, r.Grows m.unread.length r') : Makes few n r (calls ++ more) r'' where
  sound := h'.sound
  chain := h.chain.append h'.chain
  budget := by
    have hfirst := h.budget
    have hsecond := h'.budget
    rw [List.length_append]
    omega
  asks := List.forall_mem_append.mpr ⟨h.asks, h'.asks⟩
  grows := List.forall_mem_append.mpr
    ⟨h.grows, fun m hm => (hgrows m hm).trans (h'.grows m hm)⟩
  grown := h.grown.trans h'.grown

theorem Makes.fail (h : Makes few n r calls r') : Makes few n r calls { r' with failed := true } :=
  ⟨⟨h.sound.unread_le, h.sound.filled_le, h.sound.capacity_pos, h.sound.ended⟩, h.chain, h.budget,
    h.asks, h.grows, h.grown.trans (.of_eq rfl)⟩

theorem Makes.advanceTo {used rest : List UInt8} (h : Makes few n r calls r')
    (hb : r'.unread = used ++ rest) : Makes few n r calls (r'.advanceTo rest) :=
  { h with
    sound := (uses_advanceTo h.sound hb).sound
    grown := h.grown.trans (.of_eq rfl) }

theorem Makes.of_advanceTo {rest : List UInt8} (h : Makes few n (r.advanceTo rest) calls r') :
    Makes few n r calls r' :=
  have hself : r.Grows 0 (r.advanceTo rest) := .of_eq rfl
  ⟨h.sound, h.chain, h.budget, h.asks,
    fun m hm => (hself.mono (Nat.zero_le _)).trans (h.grows m hm),
    (hself.mono (Nat.zero_le _)).trans h.grown⟩

/-! ### Asking for more -/

theorem source_fetched (r : Reader) (x : Except String (List UInt8) × Source) :
    (r.fetched x).1.source = x.2 := by
  match x with
  | (.ok [], t) => rfl
  | (.ok (b :: bs), t) => rfl
  | (.error reason, t) => rfl

theorem capacity_fetched (r : Reader) (x : Except String (List UInt8) × Source) :
    (r.fetched x).1.capacity = r.capacity := by
  match x with
  | (.ok [], t) => rfl
  | (.ok (b :: bs), t) => rfl
  | (.error reason, t) => rfl

theorem budget_fetched (hended : r.ended = false) {answer : Except String (List UInt8)}
    {t : Source} {size : Nat} (hle : n + t.size ≤ size + 1)
    (hlt : answer ≠ .ok [] → n + t.size ≤ size) :
    n + (r.fetched (answer, t)).1.budget ≤ size + 1 := by
  match answer with
  | .ok [] =>
    have hbudget : (r.fetched (.ok [], t)).1.budget = 0 := rfl
    omega
  | .ok (b :: bs) =>
    have hbudget : (r.fetched (.ok (b :: bs), t)).1.budget = t.size + 1 := by
      simp [fetched, budget, hended]
    have := hlt (by simp)
    omega
  | .error reason =>
    have hbudget : (r.fetched (.error reason, t)).1.budget = t.size + 1 := by
      simp [fetched, budget, hended]
    have := hlt (by simp)
    omega

theorem exists_of_mem_refillCalls {m : Reader} (hm : m ∈ r.refillCalls) :
    ∃ u, m = r.makeRoom.onSource u := by
  unfold refillCalls at hm
  split at hm
  · cases hm
  · obtain ⟨u, -, rfl⟩ := List.mem_map.mp hm
    exact ⟨u, rfl⟩

theorem grows_refill (r : Reader) : r.Grows r.unread.length r.refill.1 := by
  cases hended : r.ended with
  | true =>
    rw [refill_of_ended hended]
    exact .of_eq rfl
  | false =>
    rw [refill_of_not_ended hended]
    exact (grows_makeRoom r).trans (.of_eq (capacity_fetched _ _))

theorem makes_refill (h : r.Sound) (hfew : few r.unread) :
    Makes few r.unread.length r r.refillCalls r.refill.1 := by
  have hsound : r.refill.1.Sound := sound_refill h rfl
  cases hended : r.ended with
  | true =>
    rw [refillCalls, if_pos hended, refill_of_ended hended]
    exact makes_nil h
  | false =>
    have hmade : r.makeRoom.ended = false := hended
    have hcalls : r.refillCalls = (r.source.attempts
        (r.makeRoom.capacity - r.makeRoom.unread.length)).map r.makeRoom.onSource :=
      if_neg (Bool.eq_false_iff.mp hended)
    refine ⟨hsound, ?_, ?_, fun m hm => ?_, fun m hm => ?_, grows_refill r⟩
    · rw [hcalls, refill_of_not_ended hended, source_fetched]
      exact chain_attempts r.makeRoom r.source
    · have hbudget : r.budget = r.source.size + 1 := if_neg (Bool.eq_false_iff.mp hended)
      obtain ⟨hle, hlt⟩ := Source.length_attempts_le
        (rfl : r.source.fetch (r.makeRoom.capacity - r.makeRoom.unread.length) = _)
      rw [hcalls, refill_of_not_ended hended, List.length_map, hbudget]
      exact budget_fetched hmade hle hlt
    · obtain ⟨u, rfl⟩ := exists_of_mem_refillCalls hm
      exact ⟨hfew, room_makeRoom h, le_rfl⟩
    · obtain ⟨u, rfl⟩ := exists_of_mem_refillCalls hm
      exact ⟨(grows_makeRoom r).doubled, (grows_makeRoom r).le⟩

theorem unread_prefix_refill (r : Reader) : r.unread <+: r.refill.1.unread := by
  have hr := refetches_refill r
  generalize r.refill = x at hr
  cases hr with
  | settled hunread => exact hunread
  | failed => exact List.prefix_rfl

theorem makes_ensure (h : r.Sound) (hfew : few []) :
    Makes few 0 r r.ensureCalls r.ensureAvailable.1 := by
  unfold ensureCalls ensureAvailable
  split
  · rename_i hempty
    have hnil := List.isEmpty_iff.mp hempty
    have hrefill : Makes few r.unread.length r r.refillCalls r.refill.1 :=
      makes_refill h (hnil ▸ hfew)
    rwa [hnil] at hrefill
  · exact makes_nil h

/-! ### The calls for an item -/

section

variable {scan : List UInt8 → Scan α}

theorem itemCalls_of_short (hs : scan r.unread = .short) :
    r.itemCalls scan = r.refillCalls ++ match r.refill with
      | (r', .ok true) => r'.itemCalls scan
      | _ => [] := by
  rw [itemCalls]
  simp only [hs]
  split <;> rename_i hr
  · rw [hr]
  · split
    · rename_i hr'
      exact absurd hr' (hr _)
    · rfl

theorem itemCalls_of_ne_short (hs : scan r.unread ≠ .short) : r.itemCalls scan = [] := by
  rw [itemCalls]
  split
  · rename_i h
    exact absurd h hs
  · rfl

/-- The calls for an item are made for the unread bytes and more of them. -/
theorem unread_le_of_mem_itemCalls {m : Reader} (hm : m ∈ r.itemCalls scan) :
    r.unread.length ≤ m.unread.length := by
  induction hn : r.source.size using Nat.strong_induction_on generalizing r with
  | _ n ih =>
    by_cases hs : scan r.unread = .short
    · rw [itemCalls_of_short hs, List.mem_append] at hm
      cases hm with
      | inl hm =>
        obtain ⟨u, rfl⟩ := exists_of_mem_refillCalls hm
        exact le_rfl
      | inr hm =>
        have hprefix := unread_prefix_refill r
        split at hm
        · rename_i r' hr
          rw [hr] at hprefix
          exact hprefix.length_le.trans (ih _ (hn ▸ size_refill hr) hm rfl)
        · cases hm
    · rw [itemCalls_of_ne_short hs] at hm
      cases hm

end

end Reader

end WorkloadReplay.Trace
