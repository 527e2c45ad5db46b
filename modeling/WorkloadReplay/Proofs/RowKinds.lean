import WorkloadReplay.Proofs.InternedStatements

/-!
# Kinds of rows

A row of a log tells of no statement, or of one that opens a transaction of its session, closes one,
or is neither. So the rows alone say which virtual ids are open after them, and which statements
stand alone.
-/

namespace WorkloadReplay

namespace Log

def Row.boundary? (row : Row) : Option Boundary := (sqlOfMessage? row.message).map classify

def Row.isBegin (row : Row) : Bool := row.boundary? = some .begin

def Row.isClosing (row : Row) : Bool :=
  row.boundary? = some .commit ∨ row.boundary? = some .rollback

def Row.isStatement (row : Row) : Bool := row.boundary? = some .statement

def Row.isSilent (row : Row) : Bool := row.boundary? = none

/-- Whether a virtual id is open after some rows, of which the last stands first. -/
def isOpenAfterRows (vxid : String) : List Row → Bool
  | [] => false
  | row :: before =>
    if row.vxid = vxid then
      match row.boundary? with
      | some .begin => true
      | some .commit | some .rollback => false
      | some .statement | none => isOpenAfterRows vxid before
    else isOpenAfterRows vxid before

/-- The number of the statements whose virtual id is not open, among some rows of which the last
stands first. -/
def countAlone : List Row → Nat
  | [] => 0
  | row :: before =>
    countAlone before + if row.isStatement && !isOpenAfterRows row.vxid before then 1 else 0

/-- The virtual ids that are open after some rows, of which the last stands first. -/
def openIds (before : List Row) : List String :=
  (before.map (·.vxid)).dedup.filter (isOpenAfterRows · before)

theorem mem_openIds_iff {before : List Row} {vxid : String} :
    vxid ∈ openIds before ↔ isOpenAfterRows vxid before = true := by
  rw [openIds, List.mem_filter, List.mem_dedup, and_iff_right_iff_imp]
  intro hopen
  induction before with
  | nil => cases hopen
  | cons row before ih =>
    rw [isOpenAfterRows] at hopen
    split at hopen
    · rename_i hvxid
      exact List.mem_map.mpr ⟨row, List.mem_cons_self, hvxid⟩
    · exact List.mem_cons_of_mem _ (ih hopen)

theorem length_eq_kinds (rows : List Row) :
    rows.length = rows.countP (·.isSilent) + rows.countP (·.isBegin) +
      rows.countP (·.isClosing) + rows.countP (·.isStatement) := by
  induction rows with
  | nil => rfl
  | cons row rows ih =>
    have hone : (if row.isSilent then 1 else 0) + (if row.isBegin then 1 else 0) +
        (if row.isClosing then 1 else 0) + (if row.isStatement then 1 else 0) = 1 := by
      unfold Row.isSilent Row.isBegin Row.isClosing Row.isStatement
      cases row.boundary? with
      | none => decide
      | some boundary => cases boundary <;> decide
    simp only [List.length_cons, List.countP_cons]
    omega

def EventKind.boundary : EventKind → Boundary
  | .begin => .begin
  | .close rolledBack => if rolledBack then .rollback else .commit
  | .statement _ _ => .statement

theorem boundary_of_kindOfSql {row : Row} {sql : String} {kind : EventKind}
    (h : kindOfSql row sql = .ok kind) : classify sql = kind.boundary := by
  unfold kindOfSql at h
  split at h
  · rename_i hclass
    cases h
    exact hclass
  · rename_i hclass
    cases h
    exact hclass
  · rename_i hclass
    cases h
    exact hclass
  · rename_i hclass
    rw [← toOption_eq_some_iff, toOption_map, Option.map_eq_some_iff] at h
    obtain ⟨params, -, rfl⟩ := h
    exact hclass

theorem boundary?_of_eventOfRow {row : Row} {event : Option Event}
    (h : eventOfRow row = .ok event) : row.boundary? = event.map (·.kind.boundary) := by
  rcases exists_of_eventOfRow h with ⟨hsql, rfl⟩ | ⟨sql, time, kind, hsql, -, hkind, rfl⟩
  · rw [Row.boundary?, hsql]
    rfl
  · rw [Row.boundary?, hsql, Option.map_some, boundary_of_kindOfSql hkind]
    rfl

/-- Where all rows can be read, a virtual id is open by the rows as by their events. -/
theorem isOpenAfterRows_eq {rows : List Row}
    (h : ∀ row ∈ rows, ∃ event, eventOfRow row = .ok event) (vxid : String) :
    isOpenAfterRows vxid rows = isOpenAfter vxid (rows.filterMap eventOfRow?) := by
  induction rows with
  | nil => rfl
  | cons row rows ih =>
    obtain ⟨⟨event, hevent⟩, hrows⟩ := List.forall_mem_cons.mp h
    have hboundary := boundary?_of_eventOfRow hevent
    have hevent? : eventOfRow? row = event := by
      rw [eventOfRow?, hevent]
      rfl
    rw [isOpenAfterRows, hboundary, ih hrows]
    cases event with
    | none =>
      rw [List.filterMap_cons_none hevent?, Option.map_none, ite_self]
    | some e =>
      rw [List.filterMap_cons_some hevent?, isOpenAfter, vxid_of_eventOfRow hevent,
        Option.map_some]
      cases e.kind with
      | begin => rfl
      | close rolledBack => cases rolledBack <;> rfl
      | statement sql params => rfl

end Log

end WorkloadReplay
