import WorkloadReplay.Proofs.ConvertedTrace
import WorkloadReplay.Proofs.TraceContent

/-!
# Converting all or nothing

A conversion that fails leaves every file as it was, and nothing at all has changed if the log could
not be read or interpreted. One that succeeds changes a single file, which holds the whole trace.
-/

namespace WorkloadReplay

namespace FileSystem

def file? (fs : FileSystem) (place : Place) : Option (List UInt8 × Int) :=
  match fs.node? place with
  | some (.file content modified) => some (content, modified)
  | _ => none

section

variable {fs later : FileSystem} {place : Place} {path : String} {content : List UInt8}

theorem file?_eq_some_iff {modified : Int} :
    fs.file? place = some (content, modified) ↔
      fs.node? place = some (.file content modified) := by
  unfold file?
  split
  · rename_i h
    simp [h]
  · rename_i h
    simpa using h content modified

theorem file?_of_isDirectory (h : fs.IsDirectory place) : fs.file? place = none := by
  obtain ⟨modified, hnode⟩ := h
  rw [file?, hnode]

/-! The files after a change. -/

theorem file?_put_of_ne {other : Place} (h : other ≠ place) (node : FileNode) :
    (fs.put place node).file? other = fs.file? other := by
  rw [file?, file?, node?_put, if_neg h]

theorem file?_put_directory (h : fs.file? place = none) (modified : Int) :
    (fs.put place (.directory modified)).file? = fs.file? := by
  funext other
  by_cases hother : other = place
  · rw [hother, h, file?, node?_put_self]
  · rw [file?_put_of_ne hother]

theorem file?_tick (fs : FileSystem) : fs.tick.file? = fs.file? := rfl

theorem file?_touch (fs : FileSystem) (place : Place) : (fs.touch place).file? = fs.file? := by
  unfold touch
  split
  · rename_i modified hnode
    exact file?_put_directory (file?_of_isDirectory ⟨modified, hnode⟩) _
  · rfl

theorem file?_enter (fs : FileSystem) (place : Place) (name : String) :
    (fs.enter place name).1.file? = fs.file? := by
  unfold enter
  split
  · rfl
  · split
    · rfl
    · rfl
    · rename_i hnode
      have hnone : (fs.touch place).file? (along place name) = none := by
        rw [file?_touch, file?, hnode]
      rw [file?_tick, file?_put_directory hnone, file?_touch]

theorem file?_enterAll (fs : FileSystem) (place : Place) (names : List String) :
    (fs.enterAll place names).1.file? = fs.file? := by
  induction names generalizing fs place with
  | nil => rfl
  | cons name rest ih =>
    have hfirst := file?_enter fs place name
    rw [enterAll]
    split
    · rename_i between next henter
      rw [henter] at hfirst
      rw [ih, hfirst]
    · rename_i between problem henter
      rw [henter] at hfirst
      exact hfirst

theorem file?_createDirectory (fs : FileSystem) (path : String) :
    (fs.createDirectory path).1.file? = fs.file? := by
  unfold createDirectory
  split
  · rfl
  · split
    · rfl
    · exact file?_enterAll _ _ _

/-- No file has changed if a file cannot be replaced. -/
theorem file?_of_replace_error {problem : StorageProblem}
    (h : fs.replace path content = (later, .error problem)) : later.file? = fs.file? := by
  have hcreate := file?_createDirectory fs (Path.directory path)
  unfold replace at h
  split at h
  · rename_i between _ heq
    rw [heq] at hcreate
    cases h
    exact hcreate
  rename_i between around heq
  rw [heq] at hcreate
  split at h
  · cases h
    exact hcreate
  split at h
  · cases h
    rw [file?_tick, file?_touch, hcreate]
  · cases h

/-- One file has changed if it has been replaced. -/
theorem file?_of_replace (h : fs.replace path content = (later, .ok ())) :
    ∃ place, (∀ other, other ≠ place → later.file? other = fs.file? other) ∧
      (∃ modified, later.file? place = some (content, modified)) ∧
      (fs.Rooted → later.place path = .ok place) := by
  obtain ⟨between, around, name, hcreate, htargets, hlater⟩ := replace_eq_ok h
  have hbetween := file?_createDirectory fs (Path.directory path)
  rw [hcreate] at hbetween
  have hfiles : later.file? =
      (between.put (along around name) (.file content between.clock)).file? := by
    rw [hlater, file?_tick, file?_touch, file?_tick]
  refine ⟨along around name, ?_, ⟨between.clock, ?_⟩, ?_⟩
  · intro other hother
    rw [hfiles, file?_put_of_ne hother, hbetween]
  · rw [hfiles, file?_eq_some_iff, node?_put_self]
  · intro hroot
    exact (place_of_replaced hroot hcreate htargets hlater).1

/-! Reading after a change that leaves the files. -/

theorem exists_file_of_read (h : fs.read path = .ok content) :
    ∃ place modified, fs.place path = .ok place ∧ Path.namesDirectory path = false ∧
      fs.node? place = some (.file content modified) := by
  unfold read find at h
  cases hplace : fs.place path with
  | error problem =>
    rw [hplace] at h
    cases h
  | ok place =>
    rw [hplace] at h
    cases hnode : fs.node? place with
    | none => simp [bind, Except.bind, hnode] at h
    | some node =>
      cases node with
      | directory modified => simp [bind, Except.bind, hnode] at h
      | file found modified =>
        cases hdirectory : Path.namesDirectory path with
        | true => simp [bind, Except.bind, hnode, hdirectory] at h
        | false =>
          simp only [bind, Except.bind, hnode, hdirectory] at h
          cases h
          exact ⟨place, modified, rfl, rfl, hnode⟩

theorem place_of_keeps (hkeeps : Keeps fs later) (h : fs.place path = .ok place) :
    later.place path = .ok place := by
  unfold FileSystem.place at h ⊢
  split at h
  · cases h
  rename_i hempty
  split at h
  · cases h
  rename_i hnul
  split at h
  · cases h
  rename_i hlong
  rw [if_neg hempty, if_neg hnul, if_neg hlong]
  exact follow_of_keeps hkeeps h

/-- Where directories and files stay, every file is read as before. -/
theorem read_of_keeps (hkeeps : Keeps fs later) (hfiles : later.file? = fs.file?)
    (h : fs.read path = .ok content) : later.read path = .ok content := by
  obtain ⟨place, modified, hplace, hfile, hnode⟩ := exists_file_of_read h
  have hlater : later.node? place = some (.file content modified) := by
    rw [← file?_eq_some_iff, hfiles, file?_eq_some_iff, hnode]
  exact read_eq_ok (place_of_keeps hkeeps hplace) hfile hlater

theorem readExisting_eq_ok_iff :
    fs.readExisting path = .ok content ↔ fs.read path = .ok content := by
  unfold readExisting
  cases fs.read path with
  | ok found => simp
  | error problem => cases problem <;> simp

end

end FileSystem

namespace Conversion
open Log

/-- How a conversion leaves the files. -/
inductive Leaves (fs : FileSystem) (source dest : String) :
    FileSystem × Except Fault Summary → Prop
  /-- The log cannot be read or interpreted: nothing has changed. -/
  | refused {fault : Fault} (h : (fs.readExisting source >>= ofLog) = .error fault) :
      Leaves fs source dest (fs, .error fault)
  /-- The trace cannot be put in its place: no file has changed, and each is found as before. -/
  | unwritten {log : List UInt8} {c : Conversion} {later : FileSystem} {problem : StorageProblem}
      (hlog : fs.readExisting source = .ok log) (hc : ofLog log = .ok c)
      (hfiles : later.file? = fs.file?)
      (hread : ∀ path content, fs.read path = .ok content → later.read path = .ok content) :
      Leaves fs source dest (later, .error (.storage problem))
  /-- The trace of the log is in its place: no other file has changed. -/
  | written {log : List UInt8} {later : FileSystem} {summary : Summary} {place : Place}
      (hlog : fs.readExisting source = .ok log)
      (hothers : ∀ other, other ≠ place → later.file? other = fs.file? other)
      (hcontent : ∃ modified, later.file? place = some (traceOf log, modified))
      (hplace : fs.Rooted →
        later.place dest = .ok place ∧ later.readExisting dest = .ok (traceOf log)) :
      Leaves fs source dest (later, .ok summary)

/-- A conversion replaces one file by the trace of the log, or leaves all files as they were. -/
theorem leaves_convert (fs : FileSystem) (source dest : String) :
    Leaves fs source dest (convert fs source dest) := by
  unfold convert
  cases hlog : fs.readExisting source with
  | error fault => exact .refused (by rw [hlog]; rfl)
  | ok log =>
    dsimp only
    cases hc : ofLog log with
    | error fault => exact .refused (by rw [hlog]; exact hc)
    | ok c =>
      dsimp only
      split
      · rename_i later problem hreplace
        have hkeeps := FileSystem.keeps_replace fs dest c.trace
        rw [hreplace] at hkeeps
        have hfiles := FileSystem.file?_of_replace_error hreplace
        exact .unwritten hlog hc hfiles fun path content => FileSystem.read_of_keeps hkeeps hfiles
      · rename_i later hreplace
        rw [trace_eq_traceOf hc] at hreplace
        obtain ⟨place, hothers, hcontent, hplace⟩ := FileSystem.file?_of_replace hreplace
        exact .written hlog hothers hcontent fun hroot =>
          ⟨hplace hroot, FileSystem.readExisting_of_replace hroot hreplace⟩

example : (convert interleavedFiles "pg.csv" "pg.rply").1.readExisting "pg.rply" = .ok (Text.bytes
    ("1796e204970e8a40,\"BEGIN\",\"\"\n1796e204972d0ec0,\"1\",\"\"\n" ++
      "1796e204973c5100,\"ROLLBACK\",\"\"\n1796e204971dcc80,\"0\",\"\"\n" ++
      "#\n0,\"SELECT 2\"\n1,\"SELECT 1\"\n")) := by decide +kernel

end Conversion

end WorkloadReplay
