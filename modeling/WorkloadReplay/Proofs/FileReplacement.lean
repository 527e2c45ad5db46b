import WorkloadReplay.FileSystem
import WorkloadReplay.Proofs.PathComponents

/-!
# Reading a file that has been replaced

Directories stay where they are through every change, so the path of a file that has been replaced
leads to it afterwards, on the way on which directories were entered or created.
-/

namespace WorkloadReplay.FileSystem

def IsDirectory (fs : FileSystem) (place : Place) : Prop :=
  ∃ modified, fs.node? place = some (.directory modified)

/-- The directories from which paths start are there. -/
def Rooted (fs : FileSystem) : Prop := fs.IsDirectory [] ∧ fs.IsDirectory home

/-- The directories of a file system are directories of another. -/
def Keeps (fs later : FileSystem) : Prop := ∀ place, fs.IsDirectory place → later.IsDirectory place

variable {fs later : FileSystem} {place : Place}

theorem rooted_empty (clock : Int) : (empty clock).Rooted := ⟨⟨clock, rfl⟩, ⟨clock, rfl⟩⟩

theorem Rooted.origin (h : fs.Rooted) (path : String) : fs.IsDirectory (origin path) := by
  unfold FileSystem.origin
  split
  · exact h.1
  · exact h.2

theorem Rooted.of_keeps (h : fs.Rooted) (hkeeps : Keeps fs later) : later.Rooted :=
  ⟨hkeeps _ h.1, hkeeps _ h.2⟩

theorem Keeps.refl (fs : FileSystem) : Keeps fs fs := fun _ h => h

theorem Keeps.trans {between : FileSystem} (h : Keeps fs between) (h' : Keeps between later) :
    Keeps fs later := fun place hplace => h' place (h place hplace)

/-! What is at a place after a change. -/

theorem lookup_filter_ne {nodes : List (Place × FileNode)} {other : Place} (h : other ≠ place) :
    (nodes.filter (·.1 ≠ place)).lookup other = nodes.lookup other := by
  induction nodes with
  | nil => rfl
  | cons entry nodes ih =>
    obtain ⟨key, node⟩ := entry
    by_cases hat : key = place
    · rw [List.filter_cons_of_neg (by simpa using hat), ih, List.lookup_cons]
      rw [hat, beq_false_of_ne h]
    · rw [List.filter_cons_of_pos (by simpa using hat), List.lookup_cons, List.lookup_cons, ih]

theorem node?_put (fs : FileSystem) (place other : Place) (node : FileNode) :
    (fs.put place node).node? other = if other = place then some node else fs.node? other := by
  unfold node? put
  rw [List.lookup_cons]
  by_cases h : other = place
  · rw [if_pos h, h, beq_self_eq_true]
  · rw [if_neg h, beq_false_of_ne h]
    exact lookup_filter_ne h

theorem node?_put_self (fs : FileSystem) (place : Place) (node : FileNode) :
    (fs.put place node).node? place = some node := by rw [node?_put, if_pos rfl]

theorem node?_tick (fs : FileSystem) (place : Place) : fs.tick.node? place = fs.node? place := rfl

theorem keeps_tick (fs : FileSystem) : Keeps fs fs.tick := fun _ h => h

theorem keeps_put_directory (fs : FileSystem) (place : Place) (modified : Int) :
    Keeps fs (fs.put place (.directory modified)) := by
  intro other h
  unfold IsDirectory
  rw [node?_put]
  split
  · exact ⟨modified, rfl⟩
  · exact h

theorem keeps_put_of_not (h : ¬fs.IsDirectory place) (node : FileNode) :
    Keeps fs (fs.put place node) := by
  intro other hother
  unfold IsDirectory
  rw [node?_put, if_neg]
  · exact hother
  · rintro rfl
    exact h hother

theorem keeps_touch (fs : FileSystem) (place : Place) : Keeps fs (fs.touch place) := by
  unfold touch
  split
  · exact keeps_put_directory _ _ _
  · exact Keeps.refl fs

theorem node?_touch_of_ne (fs : FileSystem) {other : Place} (h : other ≠ place) :
    (fs.touch place).node? other = fs.node? other := by
  unfold touch
  split
  · rw [node?_put, if_neg h]
  · rfl

/-! Going along names. -/

theorem follow_cons (h : fs.IsDirectory place) (name : String) (rest : List String) :
    fs.follow place (name :: rest) =
      if Path.maxNameLength < name.utf8ByteSize then .error .nameTooLong
      else fs.follow (along place name) rest := by
  obtain ⟨modified, hnode⟩ := h
  rw [follow, hnode]

theorem follow_of_keeps (h : Keeps fs later) {names : List String} {reached : Place}
    (hfollow : fs.follow place names = .ok reached) : later.follow place names = .ok reached := by
  induction names generalizing place with
  | nil => exact hfollow
  | cons name rest ih =>
    have hplace : fs.IsDirectory place := by
      rw [follow] at hfollow
      split at hfollow
      · cases hfollow
      · cases hfollow
      · rename_i modified hnode
        exact ⟨modified, hnode⟩
    rw [follow_cons hplace] at hfollow
    rw [follow_cons (h place hplace)]
    split at hfollow
    · cases hfollow
    · rename_i hlength
      rw [if_neg hlength]
      exact ih hfollow

theorem follow_append {names : List String} {reached : Place}
    (h : fs.follow place names = .ok reached) (rest : List String) :
    fs.follow place (names ++ rest) = fs.follow reached rest := by
  induction names generalizing place with
  | nil =>
    cases h
    rfl
  | cons name names ih =>
    rw [List.cons_append]
    rw [follow] at h ⊢
    split at h
    · cases h
    · cases h
    · split at h
      · cases h
      · rename_i hlength
        rw [if_neg hlength]
        exact ih h

/-! Entering directories. -/

theorem keeps_enter (fs : FileSystem) (place : Place) (name : String) :
    Keeps fs (fs.enter place name).1 := by
  unfold enter
  split
  · exact Keeps.refl fs
  · split
    · exact Keeps.refl fs
    · exact Keeps.refl fs
    · exact ((keeps_touch fs place).trans (keeps_put_directory _ _ _)).trans (keeps_tick _)

theorem keeps_enterAll (fs : FileSystem) (place : Place) (names : List String) :
    Keeps fs (fs.enterAll place names).1 := by
  induction names generalizing fs place with
  | nil => exact Keeps.refl fs
  | cons name rest ih =>
    have hfirst := keeps_enter fs place name
    rw [enterAll]
    split
    · rename_i between next henter
      rw [henter] at hfirst
      exact hfirst.trans (ih between next)
    · rename_i between problem henter
      rw [henter] at hfirst
      exact hfirst

theorem keeps_createDirectory (fs : FileSystem) (path : String) :
    Keeps fs (fs.createDirectory path).1 := by
  unfold createDirectory
  split
  · exact Keeps.refl fs
  · split
    · exact Keeps.refl fs
    · exact keeps_enterAll _ _ _

/-- From a directory along names to another that is there later, with all those before. -/
structure Enters (fs : FileSystem) (place : Place) (names : List String) (later : FileSystem)
    (reached : Place) : Prop where
  keeps : Keeps fs later
  isDirectory : later.IsDirectory reached
  follows : later.follow place names = .ok reached

theorem enters_enter {name : String} {reached : Place} (hplace : fs.IsDirectory place)
    (h : fs.enter place name = (later, .ok reached)) : Enters fs place [name] later reached := by
  have hkeeps := keeps_enter fs place name
  rw [h] at hkeeps
  have hfollows (hlength : ¬Path.maxNameLength < name.utf8ByteSize) :
      later.follow place [name] = .ok (along place name) := by
    rw [follow_cons (hkeeps place hplace), if_neg hlength]
    rfl
  unfold enter at h
  split at h
  · cases h
  rename_i hlength
  split at h
  · rename_i modified hnode
    cases h
    exact ⟨hkeeps, ⟨modified, hnode⟩, hfollows hlength⟩
  · cases h
  · cases h
    exact ⟨hkeeps, ⟨fs.clock, node?_put_self _ _ _⟩, hfollows hlength⟩

theorem enters_enterAll {names : List String} {reached : Place} (hplace : fs.IsDirectory place)
    (h : fs.enterAll place names = (later, .ok reached)) :
    Enters fs place names later reached := by
  induction names generalizing fs place with
  | nil =>
    cases h
    exact ⟨Keeps.refl _, hplace, rfl⟩
  | cons name rest ih =>
    rw [enterAll] at h
    split at h
    · rename_i between next henter
      have hfirst := enters_enter hplace henter
      have hrest := ih hfirst.isDirectory h
      refine ⟨hfirst.keeps.trans hrest.keeps, hrest.isDirectory, ?_⟩
      rw [← List.singleton_append,
        follow_append (follow_of_keeps hrest.keeps hfirst.follows)]
      exact hrest.follows
    · cases h

theorem enters_createDirectory {path : String} {reached : Place}
    (horigin : fs.IsDirectory (origin path))
    (h : fs.createDirectory path = (later, .ok reached)) :
    Enters fs (origin path) (Path.components path) later reached := by
  unfold createDirectory at h
  split at h
  · cases h
  · split at h
    · cases h
    · exact enters_enterAll horigin h

/-! Where a file can be put. -/

/-- Where a file can be put, as its path tells. -/
structure Targets (fs : FileSystem) (around : Place) (path name : String) : Prop where
  last : (Path.components path).getLast? = some name
  noNul : Path.hasNul path = false
  notLong : Path.isTooLong path = false
  nameNotLong : ¬Path.maxNameLength < name.utf8ByteSize
  file : Path.namesDirectory path = false
  free : ¬fs.IsDirectory (along around name)

theorem targets_target {around : Place} {path : String} (h : fs.target around path = .ok place) :
    ∃ name, place = along around name ∧ Targets fs around path name := by
  unfold target at h
  split at h
  · cases h
  rename_i name hlast
  split at h
  · cases h
  rename_i hnul
  split at h
  · cases h
  rename_i hlong
  split at h
  · cases h
  rename_i hdirectory
  rw [not_or] at hlong
  split at h
  · cases h
  · rename_i hnode
    cases h
    refine ⟨name, rfl, hlast, by simpa using hnul, by simpa using hlong.1, hlong.2,
      by simpa using hdirectory, ?_⟩
    rintro ⟨modified, hmodified⟩
    exact hnode modified hmodified

/-! Every change keeps the directories. -/

theorem keeps_putFile (h : ¬fs.IsDirectory place) (content : List UInt8) (modified : Int) :
    Keeps fs (fs.putFile place content modified) := by
  unfold putFile
  split
  · exact keeps_put_of_not h _
  · rename_i hnode
    by_cases haround : place = place.dropLast
    · have htouch : fs.touch place.dropLast = fs := by
        rw [← haround, touch, hnode]
      rw [htouch]
      exact keeps_put_of_not h _
    · refine (keeps_touch fs place.dropLast).trans (keeps_put_of_not ?_ _)
      rintro ⟨changed, hchanged⟩
      rw [node?_touch_of_ne fs haround] at hchanged
      exact h ⟨changed, hchanged⟩

/-- A file that is put at a place at once, before its directory is marked as changed. -/
theorem keeps_putOver (h : ¬fs.IsDirectory place) (content : List UInt8) (modified : Int)
    (around : Place) :
    Keeps fs (((fs.put place (.file content modified)).tick.touch around).tick) :=
  (keeps_put_of_not h _).trans (((keeps_tick _).trans (keeps_touch _ around)).trans (keeps_tick _))

theorem keeps_write (fs : FileSystem) (path : String) (content : List UInt8)
    (modified : Option Int) : Keeps fs (fs.write path content modified).1 := by
  have hcreate := keeps_createDirectory fs (Path.directory path)
  unfold write
  split
  · rename_i between problem h
    rw [h] at hcreate
    exact hcreate
  · rename_i between around h
    rw [h] at hcreate
    split
    · exact hcreate
    · rename_i place htarget
      obtain ⟨name, rfl, htargets⟩ := targets_target htarget
      exact hcreate.trans ((keeps_putFile htargets.free _ _).trans (keeps_tick _))

theorem keeps_replace (fs : FileSystem) (path : String) (content : List UInt8) :
    Keeps fs (fs.replace path content).1 := by
  have hcreate := keeps_createDirectory fs (Path.directory path)
  unfold replace
  split
  · rename_i between problem h
    rw [h] at hcreate
    exact hcreate
  · rename_i between around h
    rw [h] at hcreate
    split
    · exact hcreate
    · split
      · exact hcreate.trans ((keeps_touch _ _).trans (keeps_tick _))
      · rename_i place htarget
        obtain ⟨name, rfl, htargets⟩ := targets_target htarget
        exact hcreate.trans (keeps_putOver htargets.free _ _ _)

theorem Rooted.write (h : fs.Rooted) (path : String) (content : List UInt8)
    (modified : Option Int) : (fs.write path content modified).1.Rooted :=
  h.of_keeps (keeps_write fs path content modified)

/-! The way to the file that has replaced another. -/

theorem place_eq_ok {around : Place} {path name : String} (h : Targets fs around path name)
    (haround : later.IsDirectory around)
    (hfollow : later.follow (origin path) (Path.components (Path.directory path)) = .ok around) :
    later.place path = .ok (along around name) := by
  have hempty : path.isEmpty = false := by
    rw [Bool.eq_false_iff]
    intro hempty
    have hlast := h.last
    rw [String.isEmpty_iff.mp hempty] at hlast
    cases hlast
  unfold FileSystem.place
  rw [hempty, h.noNul, h.notLong, Path.components_eq_append h.last h.file,
    follow_append hfollow, follow_cons haround, if_neg h.nameNotLong]
  rfl

theorem read_eq_ok {path : String} {content : List UInt8} {modified : Int}
    (hplace : fs.place path = .ok place) (hfile : Path.namesDirectory path = false)
    (hnode : fs.node? place = some (.file content modified)) : fs.read path = .ok content := by
  have hfind : fs.find path = .ok (.file content modified) := by
    unfold find
    rw [hplace]
    simp [bind, Except.bind, hnode, hfile]
  unfold read
  rw [hfind]
  rfl

/-- What a file has been replaced in: the directory around it is there, and then the file. -/
theorem replace_eq_ok {path : String} {content : List UInt8}
    (h : fs.replace path content = (later, .ok ())) :
    ∃ between around name, fs.createDirectory (Path.directory path) = (between, .ok around) ∧
      Targets between around path name ∧
      later = ((between.put (along around name) (.file content between.clock)).tick.touch
        around).tick := by
  unfold replace at h
  split at h
  · cases h
  rename_i between around hcreate
  split at h
  · cases h
  split at h
  · cases h
  rename_i place htarget
  cases h
  obtain ⟨name, rfl, htargets⟩ := targets_target htarget
  exact ⟨between, around, name, hcreate, htargets, rfl⟩

theorem place_of_replaced {between : FileSystem} {around : Place} {path name : String}
    {content : List UInt8} (hroot : fs.Rooted)
    (hcreate : fs.createDirectory (Path.directory path) = (between, .ok around))
    (htargets : Targets between around path name)
    (hlater : later = ((between.put (along around name) (.file content between.clock)).tick.touch
      around).tick) :
    later.place path = .ok (along around name) ∧
      later.node? (along around name) = some (.file content between.clock) := by
  subst hlater
  have horigin : origin (Path.directory path) = origin path := by
    unfold origin
    rw [Path.isAbsolute_directory]
  have henters := enters_createDirectory (hroot.origin _) hcreate
  rw [horigin] at henters
  have hkeeps := keeps_putOver htargets.free content between.clock around
  have hne : along around name ≠ around := by
    intro heq
    apply htargets.free
    rw [heq]
    exact henters.isDirectory
  refine ⟨place_eq_ok htargets (hkeeps around henters.isDirectory)
    (follow_of_keeps hkeeps henters.follows), ?_⟩
  rw [node?_tick, node?_touch_of_ne _ hne, node?_tick, node?_put_self]

/-- A file that has been replaced is read as it was written. -/
theorem readExisting_of_replace {path : String} {content : List UInt8} (hroot : fs.Rooted)
    (h : fs.replace path content = (later, .ok ())) : later.readExisting path = .ok content := by
  obtain ⟨between, around, name, hcreate, htargets, hlater⟩ := replace_eq_ok h
  obtain ⟨hplace, hnode⟩ := place_of_replaced hroot hcreate htargets hlater
  unfold readExisting
  rw [read_eq_ok hplace htargets.file hnode]

end WorkloadReplay.FileSystem
