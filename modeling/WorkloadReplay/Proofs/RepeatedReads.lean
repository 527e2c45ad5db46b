import WorkloadReplay.Proofs.FailedReads

/-!
# Requests that are repeated after a failure

Requests are repeated until no read call fails. Their replies, and what is used up by then, are
those of a reader whose source delivers the same parts without any failure, and repeating always
comes to an end.
-/

namespace WorkloadReplay.Trace

/-- A request that uses up nothing before it has its answer. -/
inductive Request.Repeatable : Request → Prop where
  | record : Repeatable .record
  | entry : Repeatable .entry
  | atDelimiter : Repeatable .atDelimiter

def Reply.ReadFails : Reply → Prop
  | .record answer => Trace.ReadFails answer
  | .next answer => ∃ failed, answer = some failed ∧ Trace.ReadFails failed
  | .entry answer => Trace.ReadFails answer
  | .flag answer => Trace.ReadFails answer

namespace Reader

variable {r : Reader}

theorem tries_ask {request : Request} (hrequest : request.Repeatable) (h : r.Sound) :
    Tries Reply.ReadFails (ask · request) r (r.ask request) := by
  cases hrequest with
  | record => exact (tries_readRecord h).map .record (fun _ => Iff.rfl) fun _ _ => rfl
  | entry => exact (tries_readEntry h).map .entry (fun _ => Iff.rfl) fun _ _ => rfl
  | atDelimiter => exact (tries_atSectionDelimiter h).map .flag (fun _ => Iff.rfl) fun _ _ => rfl

theorem sound_ask {request : Request} (hrequest : request.Repeatable) (h : r.Sound) :
    (r.ask request).1.Sound := by
  cases hrequest with
  | record => exact (follows_readRecord h).sound
  | entry => exact (follows_readEntry h).sound
  | atDelimiter => exact (follows_atSectionDelimiter h).sound

/-- A request that a failed call leaves without an answer has used up nothing. -/
theorem consumed_ask {request : Request} (hrequest : request.Repeatable) (h : r.Sound)
    (hfails : (r.ask request).2.ReadFails) : (r.ask request).1.consumed = r.consumed := by
  have ht := tries_ask hrequest h
  generalize r.ask request = x at ht hfails
  cases ht with
  | settled hreply => exact absurd hfails hreply
  | failed _ h => exact h.uses.consumed

def after (r : Reader) (requests : List Request) : Reader :=
  requests.foldl (fun r request => (r.ask request).1) r

theorem sound_after {requests : List Request} (hrequests : ∀ q ∈ requests, q.Repeatable)
    (h : r.Sound) : (r.after requests).Sound := by
  induction requests generalizing r with
  | nil => exact h
  | cons request requests ih =>
    rw [List.forall_mem_cons] at hrequests
    exact ih hrequests.2 (sound_ask hrequests.1 h)

/-- The replies to some requests, where each of them is repeated until no read call fails. -/
inductive Insists : Reader → List Request → List (Reply × Nat) → Prop where
  | nil (r : Reader) : Insists r [] []
  | settled {r : Reader} {request : Request} {requests : List Request}
      {replies : List (Reply × Nat)} (hreply : ¬(r.ask request).2.ReadFails)
      (h : Insists (r.ask request).1 requests replies) :
      Insists r (request :: requests)
        (((r.ask request).2, (r.ask request).1.consumed) :: replies)
  | again {r : Reader} {request : Request} {requests : List Request}
      {replies : List (Reply × Nat)} (hreply : (r.ask request).2.ReadFails)
      (h : Insists (r.ask request).1 (request :: requests) replies) :
      Insists r (request :: requests) replies

theorem Insists.eq_replies {requests : List Request} {replies : List (Reply × Nat)} {u : Source}
    (hinsists : r.Insists requests replies) (hrequests : ∀ q ∈ requests, q.Repeatable)
    (h : r.Sound) (hu : u.Delivers r.source) : replies = (r.onSource u).replies requests := by
  induction hinsists generalizing u with
  | nil r => rfl
  | @settled r request requests replies hreply _ ih =>
    rw [List.forall_mem_cons] at hrequests
    have ht := tries_ask hrequests.1 h
    have hsound := sound_ask hrequests.1 h
    generalize r.ask request = x at ht hsound hreply ih
    cases ht with
    | settled _ ht =>
      obtain ⟨u', hu', hask⟩ := ht u hu
      rw [Reader.replies, hask, ih hrequests.2 hsound hu']
      rfl
    | failed hfails => exact absurd hfails hreply
  | @again r request requests replies hreply _ ih =>
    have hrequest : request.Repeatable := hrequests _ List.mem_cons_self
    have ht := tries_ask hrequest h
    have hsound := sound_ask hrequest h
    generalize r.ask request = x at ht hsound hreply ih
    cases ht with
    | settled hfails => exact absurd hreply hfails
    | failed _ ht =>
      obtain ⟨u', hu', hask⟩ := ht.same u hu
      rw [ih hrequests hsound hu', Reader.replies, Reader.replies, hask]

/-- Every call that fails takes something off the source, so repeating comes to an end. -/
theorem exists_insists {requests : List Request} (hrequests : ∀ q ∈ requests, q.Repeatable)
    (h : r.Sound) : ∃ replies, r.Insists requests replies := by
  induction requests generalizing r with
  | nil => exact ⟨[], .nil r⟩
  | cons request requests ih =>
    induction hn : r.source.size using Nat.strong_induction_on generalizing r with
    | _ n ihn =>
      have hrequest : request.Repeatable := hrequests _ List.mem_cons_self
      have hsound := sound_ask hrequest h
      by_cases hfails : (r.ask request).2.ReadFails
      · have hsize : (r.ask request).1.source.size < n := by
          have ht := tries_ask hrequest h
          generalize r.ask request = x at ht hfails
          cases ht with
          | settled hreply => exact absurd hfails hreply
          | failed _ _ hsize => exact hn ▸ hsize
        obtain ⟨replies, hreplies⟩ := ihn _ hsize hsound rfl
        exact ⟨replies, .again hfails hreplies⟩
      · obtain ⟨replies, hreplies⟩ := ih (List.forall_mem_cons.mp hrequests).2 hsound
        exact ⟨_, .settled hfails hreplies⟩

theorem insists_iff {requests : List Request} {replies : List (Reply × Nat)} {u : Source}
    (hrequests : ∀ q ∈ requests, q.Repeatable) (h : r.Sound) (hu : u.Delivers r.source) :
    r.Insists requests replies ↔ replies = (r.onSource u).replies requests := by
  refine ⟨fun hinsists => hinsists.eq_replies hrequests h hu, ?_⟩
  rintro rfl
  obtain ⟨replies, hreplies⟩ := exists_insists hrequests h
  rwa [← hreplies.eq_replies hrequests h hu]

/-- What a reader of a source does with some requests, whatever read calls of the source fail. -/
structure Withstands (s : Source) (capacity : Nat) (requests : List Request) : Prop where
  /-- A request that a failed call leaves without an answer uses up nothing. -/
  kept : ∀ before request rest, requests = before ++ request :: rest →
    (((ofSource s capacity).after before).ask request).2.ReadFails →
    (((ofSource s capacity).after before).ask request).1.consumed =
      ((ofSource s capacity).after before).consumed
  /-- Repeated requests get the replies of a source with the same parts and no failures. -/
  sameParts : ∀ t : Source, t.Delivers s → ∀ replies,
    (ofSource s capacity).Insists requests replies ↔
      replies = (ofSource t capacity).replies requests
  /-- Up to the faults' view of the buffer, they get those of any source of the same bytes. -/
  sameBytes : ∀ (t : Source) (n : Nat), t.Reliable → t.bytes = s.bytes → ∃ replies,
    (ofSource s capacity).Insists requests replies ∧
      List.Forall₂ (fun x y => x.1.Alike y.1 ∧ x.2 = y.2) replies
        ((ofSource t n).replies requests)

/-- Read calls that fail lose no bytes of the source. -/
theorem withstands_ofSource (s : Source) (capacity : Nat) {requests : List Request}
    (hrequests : ∀ q ∈ requests, q.Repeatable) : Withstands s capacity requests where
  kept := by
    rintro before request rest rfl hfails
    have hbefore : ∀ q ∈ before, q.Repeatable := fun q hq =>
      hrequests q (List.mem_append_left _ hq)
    have hrequest : request.Repeatable :=
      hrequests request (List.mem_append_right _ List.mem_cons_self)
    exact consumed_ask hrequest (sound_after hbefore (sound_ofSource s capacity)) hfails
  sameParts := fun t ht replies => insists_iff hrequests (sound_ofSource s capacity) ht
  sameBytes := by
    intro t n ht hbytes
    have hu := Source.delivers_map_bytes_parts s
    refine ⟨_, (insists_iff hrequests (sound_ofSource s capacity) hu).mpr rfl, ?_⟩
    have hsame : Source.bytes (s.parts.map .bytes) = t.bytes := by
      rw [hbytes, Source.bytes_eq_flatten_parts, Source.bytes_eq_flatten_parts s, hu.parts]
    exact (agrees_ofSource hu.reliable ht hsame capacity n).replies requests

/-- A call fails behind the time of a record, another one between two bytes that end it, and two in
a row before the delimiter. -/
theorem withstands_cut_record :
    Withstands [.bytes (Text.bytes "1f,"), .failure "timed out", .bytes (Text.bytes "\"7\",\"\""),
      .interrupted, .failure "timed out", .bytes (Text.bytes "\n"), .failure "timed out",
      .failure "timed out", .bytes (Text.bytes "#")] 1
      [.record, .atDelimiter, .record, .entry] :=
  withstands_ofSource _ _ (by
    simp only [List.mem_cons, List.not_mem_nil, or_false, forall_eq_or_imp, forall_eq]
    exact ⟨.record, .atDelimiter, .record, .entry⟩)

end Reader

end WorkloadReplay.Trace
