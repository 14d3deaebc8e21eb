import WhatsappTester.Entries

namespace WhatsappTester.Startup

open Schema Atomic.Program Migration Entries

def nextId (uuid : Id) (s : Json) : Id := if truthy (field s "id") then uuid else uuid + 1

def entryRow (rt : Runtime) (now : Ms) (uuid : Id) (k : Nat) (s : Json) : Row :=
  { importedRow rt now (idOf uuid s) s with entry := some k }

def importedRows (rt : Runtime) (now : Ms) : Id → Nat → List Json → List Row
  | _, _, [] => []
  | uuid, k, s :: rest =>
    entryRow rt now uuid k s :: importedRows rt now (nextId uuid s) (k + 1) rest

def storedIds (rt : Runtime) : Id → List Json → List SqlValue
  | _, [] => []
  | uuid, s :: rest => stored rt .text (idOf uuid s) :: storedIds rt (nextId uuid s) rest

/-- The table is empty, or it has one row for every entry of the file. -/
def Whole (file : Option (Except String Json)) (rows : List Row) : Prop :=
  rows = [] ∨ ∃ raw, file = some (.ok (.array raw)) ∧
    rows.map (·.entry) = (List.range raw.length).map some

/-- If the file holds an array, a row can be made of every entry, and no two rows have
the same id. -/
def Loadable (rt : Runtime) (uuid : Id) : Option (Except String Json) → Prop
  | some (.ok (.array raw)) => (∀ s ∈ raw, Importable s) ∧ (storedIds rt uuid raw).Nodup
  | _ => True

variable {rt : Runtime} {now : Ms} {w : Site}

def rows (w : Site) : List Row := w.working.getD w.schedules

theorem map_id (uuid : Id) (k : Nat) (raw : List Json) :
    (importedRows rt now uuid k raw).map (·.id) = storedIds rt uuid raw := by
  induction raw generalizing uuid k with
  | nil => rfl
  | cons s rest ih => rw [importedRows, List.map_cons, ih, storedIds]; rfl

theorem map_entry (uuid : Id) (k : Nat) (raw : List Json) :
    (importedRows rt now uuid k raw).map (·.entry) = (List.range' k raw.length).map some := by
  induction raw generalizing uuid k with
  | nil => rfl
  | cons s rest ih => rw [importedRows, List.map_cons, ih, List.length_cons, List.range'_succ]; rfl

theorem entryId_run (s : Json) (w : Site) :
    (entryId (field s "id")).run w = (idOf w.uuid s, { w with uuid := nextId w.uuid s }) := by
  unfold entryId idOf nextId
  split
  case isTrue => rfl
  case isFalse => rfl

theorem insertEntry_eq {s : Json} (h : s ≠ .null) (k : Nat) :
    (insertEntry rt now k s).run w =
      (match rowOf rt now (idOf w.uuid s) s with
        | .error err => (.error err, { w with uuid := nextId w.uuid s })
        | .ok row => (insertRow { row with entry := some k }).run
            { w with uuid := nextId w.uuid s }) := by
  rw [insertEntry, get_eq h]
  simp only [run_bind, entryId_run]
  cases rowOf rt now (idOf w.uuid s) s <;> rfl

def Fits (rt : Runtime) (w : Site) (s : Json) : Prop :=
  Importable s ∧ ∀ r ∈ rows w, r.id ≠ stored rt .text (idOf w.uuid s)

theorem clash_iff {k : Nat} {s : Json} :
    clash (entryRow rt now w.uuid k s) { w with uuid := nextId w.uuid s } = true ↔
      ∃ r ∈ rows w, r.id = stored rt .text (idOf w.uuid s) := by
  rw [clash, List.any_eq_true]
  exact exists_congr (fun r => and_congr_right (fun _ => decide_eq_true_iff))

theorem insertEntry_ok {s : Json} (h : Fits rt w s) (k : Nat) :
    (insertEntry rt now k s).run w =
      (.ok (), { w with
        uuid := nextId w.uuid s
        working := some (rows w ++ [entryRow rt now w.uuid k s]) }) := by
  have hrow : rowOf rt now (idOf w.uuid s) s = .ok _ :=
    (rowOf_ok h.1.object).mpr ⟨((importable_iff w.uuid).mp h.1).2, rfl⟩
  have hclash : clash (entryRow rt now w.uuid k s) { w with uuid := nextId w.uuid s } = false := by
    rw [Bool.eq_false_iff, ne_eq, clash_iff]
    rintro ⟨r, hr, hid⟩
    exact h.2 r hr hid
  rw [insertEntry_eq h.1.object, hrow]
  change (insertRow (entryRow rt now w.uuid k s)).run _ = _
  rw [insertRow, run_update, hclash]
  rfl

theorem insertEntry_error {s : Json} (h : ¬ Fits rt w s) (now : Ms) (k : Nat) :
    ∃ err w', (insertEntry rt now k s).run w = (.error err, w') ∧ w'.schedules = w.schedules := by
  by_cases hnull : s = .null
  · subst hnull
    exact ⟨_, w, rfl, rfl⟩
  · rw [insertEntry_eq hnull]
    cases hrow : rowOf rt now (idOf w.uuid s) s with
    | error err => exact ⟨err, _, rfl, rfl⟩
    | ok row =>
      obtain ⟨hall, rfl⟩ := (rowOf_ok hnull).mp hrow
      have himportable : Importable s := (importable_iff w.uuid).mpr ⟨hnull, hall⟩
      have hclash : clash (entryRow rt now w.uuid k s) { w with uuid := nextId w.uuid s } =
          true := by
        rw [clash_iff]
        by_contra hnew
        push Not at hnew
        exact h ⟨himportable, hnew⟩
      refine ⟨.sql (.unique "schedules.id"), { w with uuid := nextId w.uuid s }, ?_, rfl⟩
      change (insertRow (entryRow rt now w.uuid k s)).run _ = _
      rw [insertRow, run_update, hclash]
      rfl

/-- Rows can be made of all entries, and their ids are new and differ from each other. -/
def AllFit (rt : Runtime) (w : Site) (raw : List Json) : Prop :=
  (∀ s ∈ raw, Importable s) ∧ (storedIds rt w.uuid raw).Nodup ∧
    ∀ r ∈ rows w, r.id ∉ storedIds rt w.uuid raw

theorem allFit_cons {s : Json} {rest : List Json} (now : Ms) (k : Nat) :
    AllFit rt w (s :: rest) ↔ Fits rt w s ∧ AllFit rt { w with
        uuid := nextId w.uuid s
        working := some (rows w ++ [entryRow rt now w.uuid k s]) } rest := by
  constructor
  · rintro ⟨himportable, hnodup, hnew⟩
    obtain ⟨hs, hrest⟩ := List.forall_mem_cons.mp himportable
    obtain ⟨hfresh, hnodup⟩ := List.nodup_cons.mp hnodup
    refine ⟨⟨hs, fun r hr hid => hnew r hr (hid ▸ List.mem_cons_self)⟩, hrest, hnodup, ?_⟩
    refine List.forall_mem_append.mpr ⟨fun r hr hlater => ?_, List.forall_mem_singleton.mpr hfresh⟩
    exact hnew r hr (List.mem_cons_of_mem _ hlater)
  · rintro ⟨⟨hs, hnew⟩, hrest, hnodup, hlater⟩
    obtain ⟨hold, hfresh⟩ := List.forall_mem_append.mp hlater
    refine ⟨List.forall_mem_cons.mpr ⟨hs, hrest⟩, List.nodup_cons.mpr
      ⟨hfresh _ (List.mem_singleton_self _), hnodup⟩, fun r hr hmem => ?_⟩
    obtain hid | hmem := List.mem_cons.mp hmem
    · exact hnew r hr hid
    · exact hold r hr hmem

theorem insertAll_ok {raw : List Json} (h : AllFit rt w raw) (now : Ms) (k : Nat) :
    ∃ w', (insertAll rt now k raw).run w = (.ok (), w') ∧
      rows w' = rows w ++ importedRows rt now w.uuid k raw := by
  induction raw generalizing w k with
  | nil => exact ⟨w, rfl, (List.append_nil _).symm⟩
  | cons s rest ih =>
    obtain ⟨hs, hrest⟩ := (allFit_cons now k).mp h
    obtain ⟨w', hrun, hrows⟩ := ih hrest (k + 1)
    refine ⟨w', ?_, ?_⟩
    · rw [insertAll, run_bind, insertEntry_ok hs]
      exact hrun
    · exact hrows.trans (List.append_assoc _ _ _)

theorem insertAll_error {raw : List Json} (h : ¬ AllFit rt w raw) (now : Ms) (k : Nat) :
    ∃ err w', (insertAll rt now k raw).run w = (.error err, w') ∧ w'.schedules = w.schedules := by
  induction raw generalizing w k with
  | nil => exact absurd ⟨by simp, by simp [storedIds], by simp [storedIds]⟩ h
  | cons s rest ih =>
    rw [insertAll, run_bind]
    by_cases hs : Fits rt w s
    · have hrest := mt (fun h' => (allFit_cons now k).mpr ⟨hs, h'⟩) h
      rw [insertEntry_ok hs]
      exact ih hrest (k + 1)
    · obtain ⟨err, w', hrun, hschedules⟩ := insertEntry_error hs now k
      rw [hrun]
      exact ⟨err, w', rfl, hschedules⟩

/-- What the import of an array comes to. -/
theorem importEntries_run (rt : Runtime) (raw : List Json) (hempty : w.schedules = []) :
    (Loadable rt w.uuid (some (.ok (.array raw))) ∧
      ((importEntries rt raw).run w).1.isOk = true ∧
      ((importEntries rt raw).run w).2.schedules = importedRows rt w.now w.uuid 0 raw) ∨
    (¬ Loadable rt w.uuid (some (.ok (.array raw))) ∧
      ((importEntries rt raw).run w).1.isOk = false ∧
      ((importEntries rt raw).run w).2.schedules = []) := by
  have hfit : AllFit rt { w with working := some w.schedules } raw ↔
      Loadable rt w.uuid (some (.ok (.array raw))) := by
    simp [AllFit, Loadable, rows, hempty]
  rw [← hfit]
  by_cases h : AllFit rt { w with working := some w.schedules } raw
  · obtain ⟨w', hrun, hrows⟩ := insertAll_ok h w.now 0
    left
    refine ⟨h, ?_⟩
    simp only [importEntries, dateNow, beginImmediate, run_bind, run_query, run_exec, hrun, commit,
      renameFile, run_pure]
    refine ⟨rfl, ?_⟩
    change rows w' = _
    rw [hrows]
    simp [rows, hempty]
  · obtain ⟨err, w', hrun, hschedules⟩ := insertAll_error h w.now 0
    right
    refine ⟨h, ?_⟩
    simp only [importEntries, dateNow, beginImmediate, run_bind, run_query, run_exec, hrun,
      rollback, run_pure]
    exact ⟨rfl, hschedules.trans hempty⟩

theorem whole_importedRows (rt : Runtime) (now : Ms) (raw : List Json) (uuid : Id) :
    Whole (some (.ok (.array raw))) (importedRows rt now uuid 0 raw) := by
  refine .inr ⟨raw, rfl, ?_⟩
  rw [map_entry, List.range_eq_range']

def Idle (file : Option (Except String Json)) : Prop :=
  ∀ raw, file = some (.ok (.array raw)) → raw = []

theorem loadable_of_idle {file : Option (Except String Json)} (h : Idle file) (uuid : Id) :
    Loadable rt uuid file := by
  unfold Loadable
  split
  case h_1 raw =>
    rw [h raw rfl]
    exact ⟨by simp, by simp [storedIds]⟩
  case h_2 => trivial

theorem migrate_run (rt : Runtime) (hempty : w.schedules = []) :
    (∃ raw, w.file = some (.ok (.array raw)) ∧
      (migrateSchedulesJsonIfNeeded rt).run w = (importEntries rt raw).run w) ∨
    Idle w.file ∧ ((migrateSchedulesJsonIfNeeded rt).run w).1.isOk = true ∧
      ((migrateSchedulesJsonIfNeeded rt).run w).2 = w := by
  simp only [migrateSchedulesJsonIfNeeded, run_bind, run_query]
  cases hfile : w.file with
  | none => exact .inr ⟨by simp [Idle], rfl, rfl⟩
  | some contents =>
    simp only [run_bind, run_query, hempty, List.length_nil, Nat.lt_irrefl, ↓reduceIte]
    cases contents with
    | error message => exact .inr ⟨by simp [Idle], rfl, rfl⟩
    | ok value =>
      cases value with
      | array raw =>
        cases raw with
        | nil => exact .inr ⟨by simp [Idle], rfl, rfl⟩
        | cons s rest => exact .inl ⟨s :: rest, rfl, rfl⟩
      | _ => exact .inr ⟨by simp [Idle], rfl, rfl⟩

/-- A startup on an empty table never leaves half of the file behind, and it comes through
if and only if the file can be loaded. -/
theorem starts_up_iff (rt : Runtime) {w : Site} (hempty : w.schedules = []) :
    Whole w.file (startup rt w none).site.schedules ∧
      ((startup rt w none).up = true ∧ Whole w.file (startup rt w none).site.schedules ↔
        Loadable rt w.uuid w.file) := by
  have hup : (startup rt w none).up = ((migrateSchedulesJsonIfNeeded rt).run w).1.isOk := rfl
  have hrows : (startup rt w none).site.schedules =
      ((migrateSchedulesJsonIfNeeded rt).run w).2.schedules := rfl
  rw [hup, hrows]
  obtain ⟨raw, hfile, hrun⟩ | ⟨hidle, hok, hrun⟩ := migrate_run rt hempty
  · rw [hrun, hfile]
    obtain ⟨hloadable, hok, hschedules⟩ | ⟨hloadable, hok, hschedules⟩ :=
      importEntries_run rt raw hempty
    · have hwhole := whole_importedRows rt w.now raw w.uuid
      rw [hok, hschedules]
      exact ⟨hwhole, iff_of_true ⟨rfl, hwhole⟩ hloadable⟩
    · rw [hok, hschedules]
      exact ⟨.inl rfl, iff_of_false (fun h => nomatch h.1) hloadable⟩
  · rw [hok, hrun, hempty]
    exact ⟨.inl rfl, iff_of_true ⟨rfl, .inl rfl⟩ (loadable_of_idle hidle w.uuid)⟩

theorem starts_up_iff_ann :
    Whole (some (.ok (.array [annJson])))
        (startup annRuntime ⟨some (.ok (.array [annJson])), [], [], none, 0, 0, []⟩
          none).site.schedules ∧
      ((startup annRuntime ⟨some (.ok (.array [annJson])), [], [], none, 0, 0, []⟩ none).up = true ∧
        Whole (some (.ok (.array [annJson])))
          (startup annRuntime ⟨some (.ok (.array [annJson])), [], [], none, 0, 0, []⟩
            none).site.schedules ↔
        Loadable annRuntime 0 (some (.ok (.array [annJson])))) :=
  starts_up_iff annRuntime rfl

/-- An entry that is `null` keeps the server from starting. -/
theorem null_entry_aborts :
    ¬ ∀ w : Site, w.schedules = [] → (startup annRuntime w none).up = true ∧
      Whole w.file (startup annRuntime w none).site.schedules := by
  intro h
  have hup := (h ⟨some (.ok (.array [.null])), [], [], none, 0, 0, []⟩ rfl).1
  exact absurd hup (by decide)

end WhatsappTester.Startup
