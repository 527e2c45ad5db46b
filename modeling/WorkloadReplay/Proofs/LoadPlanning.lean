import WorkloadReplay.Proofs.AtomicConversion
import WorkloadReplay.Proofs.FaultOrigins

/-!
# What loading does with the files

A manager that has not been loaded converts the log if that is newer than the trace or there is no
trace, uses the trace that is there otherwise, and finds nothing to load only if there is neither. A
conversion that fails ends the loading, with the trace that was there as it was.
-/

namespace WorkloadReplay

/-- The log is there, and there is no trace that is as new. -/
def Outdated (log trace : Option Int) : Prop := ∃ l, log = some l ∧ ∀ t, trace = some t → t < l

/-- The trace is there, and there is no log that is newer. -/
def Usable (log trace : Option Int) : Prop := ∃ t, trace = some t ∧ ∀ l, log = some l → l ≤ t

/-! The plan. -/

section

variable {fs : FileSystem} {logPath tracePath : String} {log trace : Option Int}

/-- What the plan is made of. -/
theorem planTrace_eq (hlog : fs.modified? logPath = .ok log)
    (htrace : fs.modified? tracePath = .ok trace) :
    (Outdated log trace ∧ planTrace fs logPath tracePath = .ok .convert) ∨
      (Usable log trace ∧ planTrace fs logPath tracePath = .ok .reuse) ∨
      (log = none ∧ trace = none) ∧
        planTrace fs logPath tracePath = .error (.missingInputs logPath tracePath) := by
  unfold planTrace
  rw [hlog, htrace]
  cases log with
  | none =>
    cases trace with
    | none => exact .inr (.inr ⟨⟨rfl, rfl⟩, rfl⟩)
    | some t => exact .inr (.inl ⟨⟨t, rfl, nofun⟩, rfl⟩)
  | some l =>
    cases trace with
    | none => exact .inl ⟨⟨l, rfl, nofun⟩, rfl⟩
    | some t =>
      by_cases hlt : t < l
      · refine .inl ⟨⟨l, rfl, ?_⟩, congrArg Except.ok (if_pos hlt)⟩
        rintro t' ⟨⟩
        exact hlt
      · refine .inr (.inl ⟨⟨t, rfl, ?_⟩, congrArg Except.ok (if_neg hlt)⟩)
        rintro l' ⟨⟩
        exact Int.not_lt.mp hlt

theorem Outdated.not_usable (h : Outdated log trace) : ¬Usable log trace := by
  rintro ⟨t, rfl, ht⟩
  obtain ⟨l, rfl, hl⟩ := h
  exact absurd (hl t rfl) (Int.not_lt.mpr (ht l rfl))

theorem planTrace_eq_convert_iff (hlog : fs.modified? logPath = .ok log)
    (htrace : fs.modified? tracePath = .ok trace) :
    planTrace fs logPath tracePath = .ok .convert ↔ Outdated log trace := by
  rcases planTrace_eq hlog htrace with ⟨h, hplan⟩ | ⟨h, hplan⟩ | ⟨⟨rfl, rfl⟩, hplan⟩
  · exact iff_of_true hplan h
  · rw [hplan]
    exact iff_of_false nofun fun houtdated => houtdated.not_usable h
  · rw [hplan]
    exact iff_of_false nofun nofun

theorem planTrace_eq_reuse_iff (hlog : fs.modified? logPath = .ok log)
    (htrace : fs.modified? tracePath = .ok trace) :
    planTrace fs logPath tracePath = .ok .reuse ↔ Usable log trace := by
  rcases planTrace_eq hlog htrace with ⟨h, hplan⟩ | ⟨h, hplan⟩ | ⟨⟨rfl, rfl⟩, hplan⟩
  · rw [hplan]
    exact iff_of_false nofun h.not_usable
  · exact iff_of_true hplan h
  · rw [hplan]
    exact iff_of_false nofun nofun

end

namespace Manager

def loadTrace (m : Manager) (fs : FileSystem) : FileSystem × Except Fault (Manager × Queue) :=
  (fs, (loadPath fs m.tracePath m.config.capacity).map fun queue =>
    ({ m with queue := some queue }, queue))

/-- The loading of a manager by the times of the last changes of the log and of the trace. -/
structure LoadsByTimes (m : Manager) (fs : FileSystem) (log trace : Option Int) : Prop where
  /-- It is planned to convert exactly if the log is there and no trace is as new. -/
  plansConvert : planTrace fs m.config.logPath m.tracePath = .ok .convert ↔ Outdated log trace
  /-- It is planned to use the trace exactly if that is there and no log is newer. -/
  plansReuse : planTrace fs m.config.logPath m.tracePath = .ok .reuse ↔ Usable log trace
  /-- The answer is that the inputs are missing exactly if there is neither. -/
  missing : (∃ logPath tracePath, (m.load fs).2 = .error (.missingInputs logPath tracePath)) ↔
    log = none ∧ trace = none
  neither : log = none → trace = none →
    m.load fs = (fs, .error (.missingInputs m.config.logPath m.tracePath))
  reused : Usable log trace → m.load fs = m.loadTrace fs
  converted : Outdated log trace → ∀ later summary,
    Conversion.convert fs m.config.logPath m.tracePath = (later, .ok summary) →
      m.load fs = m.loadTrace later
  /-- A conversion that fails changes no file, so a trace that was there keeps its content. -/
  unconverted : Outdated log trace → ∀ later fault,
    Conversion.convert fs m.config.logPath m.tracePath = (later, .error fault) →
      m.load fs = (later, .error fault) ∧ later.file? = fs.file? ∧
        ∀ content, fs.readExisting m.tracePath = .ok content →
          later.readExisting m.tracePath = .ok content

section

variable {m : Manager} {fs later : FileSystem} {fault : Fault}

theorem load_eq (h : m.queue = none) (fs : FileSystem) :
    m.load fs =
      match m.prepare fs with
      | (later, .error fault) => (later, .error fault)
      | (later, .ok ()) => m.loadTrace later := by
  unfold load isLoaded
  rw [h, if_neg nofun]
  cases m.prepare fs with
  | mk later answer =>
    cases answer with
    | error fault => rfl
    | ok done =>
      dsimp only [loadTrace]
      cases loadPath later m.tracePath m.config.capacity with
      | error fault => rfl
      | ok queue => rfl

theorem load_of_reuse (h : m.queue = none)
    (hplan : planTrace fs m.config.logPath m.tracePath = .ok .reuse) :
    m.load fs = m.loadTrace fs := by
  rw [load_eq h, prepare, hplan]

theorem load_of_converted (h : m.queue = none) {summary : Conversion.Summary}
    (hplan : planTrace fs m.config.logPath m.tracePath = .ok .convert)
    (hconvert : Conversion.convert fs m.config.logPath m.tracePath = (later, .ok summary)) :
    m.load fs = m.loadTrace later := by
  rw [load_eq h, prepare, hplan]
  simp only [hconvert]

theorem load_of_unconverted (h : m.queue = none)
    (hplan : planTrace fs m.config.logPath m.tracePath = .ok .convert)
    (hconvert : Conversion.convert fs m.config.logPath m.tracePath = (later, .error fault)) :
    m.load fs = (later, .error fault) := by
  rw [load_eq h, prepare, hplan]
  simp only [hconvert]

theorem load_of_plan_error (h : m.queue = none)
    (hplan : planTrace fs m.config.logPath m.tracePath = .error fault) :
    m.load fs = (fs, .error fault) := by
  rw [load_eq h, prepare, hplan]

theorem loadTrace_ne_missingInputs (m : Manager) (fs : FileSystem) (logPath tracePath : String) :
    (m.loadTrace fs).2 ≠ .error (.missingInputs logPath tracePath) := by
  intro h
  cases (onlyFaults_loadPath fs m.tracePath m.config.capacity).map _ _ h

theorem load_ne_missingInputs (h : m.queue = none)
    (hplan : planTrace fs m.config.logPath m.tracePath = .ok .convert)
    (logPath tracePath : String) :
    (m.load fs).2 ≠ .error (.missingInputs logPath tracePath) := by
  cases hconvert : Conversion.convert fs m.config.logPath m.tracePath with
  | mk later answer =>
    cases answer with
    | ok summary =>
      rw [load_of_converted h hplan hconvert]
      exact m.loadTrace_ne_missingInputs later logPath tracePath
    | error fault =>
      rw [load_of_unconverted h hplan hconvert]
      rintro ⟨⟩
      have hfault := Conversion.onlyFaults_convert fs m.config.logPath m.tracePath
      rw [hconvert] at hfault
      cases hfault _ rfl

theorem loadsByTimes {log trace : Option Int} (h : m.queue = none)
    (hlog : fs.modified? m.config.logPath = .ok log)
    (htrace : fs.modified? m.tracePath = .ok trace) : m.LoadsByTimes fs log trace where
  plansConvert := planTrace_eq_convert_iff hlog htrace
  plansReuse := planTrace_eq_reuse_iff hlog htrace
  missing := by
    rcases planTrace_eq hlog htrace with ⟨houtdated, hplan⟩ | ⟨husable, hplan⟩ | ⟨hnone, hplan⟩
    · refine iff_of_false ?_ ?_
      · rintro ⟨logPath, tracePath, hmissing⟩
        exact load_ne_missingInputs h hplan _ _ hmissing
      · rintro ⟨rfl, -⟩
        obtain ⟨_, hnone, -⟩ := houtdated
        cases hnone
    · refine iff_of_false ?_ ?_
      · rintro ⟨logPath, tracePath, hmissing⟩
        rw [load_of_reuse h hplan] at hmissing
        exact m.loadTrace_ne_missingInputs fs _ _ hmissing
      · rintro ⟨-, rfl⟩
        obtain ⟨_, hnone, -⟩ := husable
        cases hnone
    · exact iff_of_true ⟨_, _, congrArg Prod.snd (load_of_plan_error h hplan)⟩ hnone
  neither := by
    rintro rfl rfl
    rcases planTrace_eq hlog htrace with ⟨⟨_, hnone, -⟩, -⟩ | ⟨⟨_, hnone, -⟩, -⟩ | ⟨-, hplan⟩
    · cases hnone
    · cases hnone
    · exact load_of_plan_error h hplan
  reused husable := load_of_reuse h ((planTrace_eq_reuse_iff hlog htrace).mpr husable)
  converted houtdated later summary :=
    load_of_converted h ((planTrace_eq_convert_iff hlog htrace).mpr houtdated)
  unconverted := by
    intro houtdated later fault hconvert
    have hplan := (planTrace_eq_convert_iff hlog htrace).mpr houtdated
    refine ⟨load_of_unconverted h hplan hconvert, ?_⟩
    have hleaves := Conversion.leaves_convert fs m.config.logPath m.tracePath
    rw [hconvert] at hleaves
    cases hleaves with
    | refused => exact ⟨rfl, fun content hcontent => hcontent⟩
    | unwritten _ _ hfiles hread =>
      refine ⟨hfiles, fun content hcontent => ?_⟩
      rw [FileSystem.readExisting_eq_ok_iff] at hcontent ⊢
      exact hread _ _ hcontent

end

end Manager

end WorkloadReplay
