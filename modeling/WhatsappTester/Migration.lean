import WhatsappTester.Atomic.Runs
import WhatsappTester.Scheduler

namespace WhatsappTester.Migration

open Schema Atomic.Program Atomic.Runs

inductive Json
  | null
  | bool (b : Bool)
  | number (x : Rat)
  | string (s : String)
  | array (elements : List Json)
  | object (fields : List (String × Json))

inductive SqlValue
  | null
  | number (x : Rat)
  | text (s : String)
  deriving DecidableEq, Repr

inductive Affinity
  | text
  | integer
  deriving DecidableEq, Repr

/-- `JSON.stringify`, `toISOString`, and what SQLite stores of a value in a
column of an affinity. -/
structure Runtime where
  stringify : Json → String
  toISOString : Ms → String
  convert : Affinity → SqlValue → SqlValue

inductive Failure
  | nullProperty (key : String)
  | notBindable (parameter : Nat)
  | sql (err : SqlError)
  deriving DecidableEq, Repr

/-- `s[key]`, with `none` for `undefined`. A string inherits a function `repeat`
that has no property of interest. -/
def Json.get (s : Json) (key : String) : Except Failure (Option Json) :=
  match s with
  | .null => .error (.nullProperty key)
  | .object fields => .ok ((fields.reverse.find? (fun f => decide (f.1 = key))).map (·.2))
  | .string _ => .ok (if key = "repeat" then some (.object []) else none)
  | _ => .ok none

def truthy : Option Json → Bool
  | none | some .null => false
  | some (.bool b) => b
  | some (.number x) => decide (x ≠ 0)
  | some (.string s) => decide (s ≠ "")
  | some (.array _) | some (.object _) => true

/-- `value || other` -/
def orElse (value : Option Json) (other : Json) : Option Json :=
  if truthy value then value else some other

def within (value : Option Json) (key : String) : Except Failure (Option Json) :=
  match value with
  | some v => if truthy value then v.get key else .ok (some .null)
  | none => .ok (some .null)

structure Row where
  id : SqlValue
  message : SqlValue
  recipients : SqlValue
  delaySeconds : SqlValue
  repeatEveryValue : SqlValue
  repeatEveryUnit : SqlValue
  repeatEndAt : SqlValue
  status : SqlValue
  nextRunAt : SqlValue
  lastRunAt : SqlValue
  lastResult : SqlValue
  createdBy : SqlValue
  createdAt : SqlValue
  updatedAt : SqlValue
  entry : Option Nat := none
  deriving DecidableEq, Repr

/-- The database file, `schedules.json` as reading and parsing it turns out, and
the history of the imports that were committed. -/
structure Site where
  file : Option (Except String Json)
  backups : List String := []
  schedules : List Row := []
  working : Option (List Row) := none
  now : Ms := 0
  uuid : Id := 0
  imported : List Nat := []

def dateNow : Prog Site Ms := query (·.now)

def randomUUID : Prog Site Id := update (fun w => { w with uuid := w.uuid + 1 }) (·.uuid)

def bind (rt : Runtime) (parameter : Nat) (column : Affinity) :
    Option Json → Except Failure SqlValue
  | some .null => .ok .null
  | some (.number x) => .ok (rt.convert column (.number x))
  | some (.string s) => .ok (rt.convert column (.text s))
  | _ => .error (.notBindable parameter)

/-- The values of the `INSERT`. All arguments are evaluated before the first is
bound; an object in the first place would name parameters that do not exist. -/
def rowOf (rt : Runtime) (now : Ms) (id : Option Json) (s : Json) : Except Failure Row := do
  let message ← s.get "message"
  let recipients ← s.get "recipients"
  let delaySeconds ← s.get "delaySeconds"
  let rule ← s.get "repeat"
  let everyValue ← within rule "everyValue"
  let everyUnit ← within rule "everyUnit"
  let endAt ← within rule "endAt"
  let status ← s.get "status"
  let runAt ← s.get "runAt"
  let lastResult ← s.get "lastResult"
  let ranAt ← within lastResult "ranAt"
  let createdAt ← s.get "createdAt"
  return {
    id := ← bind rt 1 .text id
    message := ← bind rt 2 .text (orElse message (.string ""))
    recipients :=
      ← bind rt 3 .text ((orElse recipients (.array [])).map (fun v => .string (rt.stringify v)))
    delaySeconds := ← bind rt 4 .integer (orElse delaySeconds (.number 0))
    repeatEveryValue := ← bind rt 5 .integer everyValue
    repeatEveryUnit := ← bind rt 6 .text everyUnit
    repeatEndAt := ← bind rt 7 .integer endAt
    status := ← bind rt 8 .text (orElse status (.string "scheduled"))
    nextRunAt := ← bind rt 9 .integer (orElse runAt (.number now))
    lastRunAt := ← bind rt 10 .integer ranAt
    lastResult := ← bind rt 11 .text
      (if truthy lastResult then lastResult.map (fun v => .string (rt.stringify v)) else some .null)
    createdBy := .null
    createdAt := ← bind rt 13 .integer (orElse createdAt (.number now))
    updatedAt := ← bind rt 14 .integer (some (.number now)) }

def clash (row : Row) (w : Site) : Bool :=
  (w.working.getD w.schedules).any (fun r => decide (r.id = row.id))

def insertRow (row : Row) : Prog Site (Except Failure Unit) :=
  update
    (fun w => if clash row w then w
      else { w with working := some (w.working.getD w.schedules ++ [row]) })
    (fun w => if clash row w then .error (.sql (.unique "schedules.id")) else .ok ())

/-- `s.id || crypto.randomUUID()` -/
def entryId (id : Option Json) : Prog Site (Option Json) :=
  if truthy id then pure id else (fun uuid => some (.string (toString uuid))) <$> randomUUID

def insertEntry (rt : Runtime) (now : Ms) (k : Nat) (s : Json) : Prog Site (Except Failure Unit) :=
  match s.get "id" with
  | .error err => pure (.error err)
  | .ok id => do
    let id ← entryId id
    match rowOf rt now id s with
    | .error err => pure (.error err)
    | .ok row => insertRow { row with entry := some k }

def insertAll (rt : Runtime) (now : Ms) : Nat → List Json → Prog Site (Except Failure Unit)
  | _, [] => pure (.ok ())
  | k, s :: rest => do
    match ← insertEntry rt now k s with
    | .error err => pure (.error err)
    | .ok () => insertAll rt now (k + 1) rest

def beginImmediate : Prog Site Unit := exec (fun w => { w with working := some w.schedules })

def commit (count : Nat) : Prog Site Unit :=
  exec (fun w =>
    { w with
      schedules := w.working.getD w.schedules
      working := none
      imported := w.imported ++ List.range count })

def rollback : Prog Site Unit := exec (fun w => { w with working := none })

/-- `fs.renameSync(file, backupPath)` -/
def renameFile (backupPath : String) : Prog Site Unit :=
  exec (fun w => { w with file := none, backups := w.backups ++ [backupPath] })

structure Report where
  migrated : Nat
  skipped : Option String := none
  error : Option String := none
  backupPath : Option String := none
  deriving DecidableEq, Repr

def importEntries (rt : Runtime) (raw : List Json) : Prog Site (Except Failure Report) := do
  let now ← dateNow
  beginImmediate
  match ← insertAll rt now 0 raw with
  | .error err => do
    rollback
    pure (.error err)
  | .ok () => do
    commit raw.length
    let renamedAt ← dateNow
    let backupPath := "schedules.json.migrated-" ++
      (rt.toISOString renamedAt).map (fun c => if c = ':' ∨ c = '.' then '-' else c)
    renameFile backupPath
    pure (.ok ⟨raw.length, none, none, some backupPath⟩)

def migrateSchedulesJsonIfNeeded (rt : Runtime) : Prog Site (Except Failure Report) := do
  match ← query (·.file) with
  | none => pure (.ok ⟨0, none, none, none⟩)
  | some contents => do
    let existingCount ← query (·.schedules.length)
    if existingCount > 0 then pure (.ok ⟨0, some "schedules table already has data", none, none⟩)
    else
      match contents with
      | .error message => pure (.ok ⟨0, none, some message, none⟩)
      | .ok (.array []) => pure (.ok ⟨0, none, none, none⟩)
      | .ok (.array raw) => importEntries rt raw
      | .ok _ => pure (.ok ⟨0, none, none, none⟩)

def unitName : RepeatUnit → String
  | .minutes => "minutes"
  | .hours => "hours"
  | .days => "days"
  | .weeks => "weeks"
  | .other name => name

def recipientsJson (recipients : List Recipient) : Json :=
  .array
    (recipients.map (fun r => .object [("number", .string r.number), ("name", .string r.name)]))

def createdRow (rt : Runtime) (s : Schedule) : Row where
  id := .text s.id
  message := .text s.message
  recipients := .text (rt.stringify (recipientsJson s.recipients))
  delaySeconds := .number s.delaySeconds
  repeatEveryValue := s.repeatEveryValue.elim .null (fun v => .number v)
  repeatEveryUnit := s.repeatEveryUnit.elim .null (fun unit => .text (unitName unit))
  repeatEndAt := s.repeatEndAt.elim .null (fun t => .number t)
  status := .text "scheduled"
  nextRunAt := .number s.nextRunAt
  lastRunAt := .null
  lastResult := .null
  createdBy := s.createdBy.elim .null .text
  createdAt := .number s.createdAt
  updatedAt := .number s.updatedAt

def create (rt : Runtime) (a : Scheduler.CreateInput) (w : Site) : Site :=
  match Scheduler.normalize a with
  | .error _ => w
  | .ok args =>
    let row := createdRow rt (Scheduler.newSchedule w.uuid w.now args)
    if clash row w then { w with uuid := w.uuid + 1 }
    else { w with uuid := w.uuid + 1, schedules := w.schedules ++ [row] }

def remove (id : String) (w : Site) : Site :=
  { w with schedules := w.schedules.filter (fun r => decide (r.id ≠ .text id)) }

structure Service where
  site : Site
  up : Bool := false

inductive Action
  | startup (crash : Option Nat)
  | crash
  | create (a : Scheduler.CreateInput)
  | remove (id : String)
  | wait (ms : Nat)

def startup (rt : Runtime) (w : Site) : Option Nat → Service
  | some n => ⟨{ (migrateSchedulesJsonIfNeeded rt).cut n w with working := none }, false⟩
  | none =>
    let (report, w') := (migrateSchedulesJsonIfNeeded rt).run w
    ⟨{ w' with working := none }, report.isOk⟩

def step (rt : Runtime) (s : Service) : Action → Service
  | .startup crash => startup rt s.site crash
  | .crash => { s with up := false }
  | .create a => if s.up then { s with site := create rt a s.site } else s
  | .remove id => if s.up then { s with site := remove id s.site } else s
  | .wait ms => { s with site.now := s.site.now + ms }

def init (file : Option (Except String Json)) (rows : List Row) (now : Ms) (uuid : Id) :
    Service where
  site := { file, schedules := rows.map (fun r => { r with entry := none }), now, uuid }

/-- No entry is imported twice, and none comes back whose row is gone. -/
def Sound (rt : Runtime) (s : Service) (a : Action) : Prop :=
  (step rt s a).site.imported.Nodup ∧
    ∀ k ∈ s.site.imported, (∀ r ∈ s.site.schedules, r.entry ≠ some k) →
      ∀ r ∈ (step rt s a).site.schedules, r.entry ≠ some k

instance (rt : Runtime) (s : Service) (a : Action) : Decidable (Sound rt s a) :=
  inferInstanceAs (Decidable (_ ∧ _))

/-- The server does not start on an empty table next to a file that was imported
but not renamed. -/
def Guarded (s : Service) : Action → Prop
  | .startup _ => s.site.file.isSome = true → s.site.imported ≠ [] → s.site.schedules ≠ []
  | _ => True

instance (s : Service) : (a : Action) → Decidable (Guarded s a)
  | .startup _ => inferInstanceAs (Decidable (_ → _ → _))
  | .crash | .create _ | .remove _ | .wait _ => inferInstanceAs (Decidable True)

structure Importing (n : Nat) (w : Site) : Prop where
  first : w.imported = []
  empty : w.schedules = []
  rows : ∀ r ∈ w.working.getD w.schedules, ∀ k, r.entry = some k → k < n

structure Tracked (w : Site) : Prop where
  nodup : w.imported.Nodup
  rows : ∀ r ∈ w.schedules, ∀ k, r.entry = some k → k ∈ w.imported

theorem tracked_of_importing {n : Nat} {w : Site} (h : Importing n w) : Tracked w :=
  ⟨by simp [h.first], by simp [h.empty]⟩

theorem importing_insertRow {n : Nat} {row : Row} (hrow : ∀ k, row.entry = some k → k < n) :
    Always (fun w w' => Importing n w → Importing n w') (insertRow row) := by
  refine always_update _ (fun w h => ?_)
  split
  · exact h
  · refine ⟨h.first, h.empty, fun r hr => ?_⟩
    obtain hr | hr := List.mem_append.mp hr
    · exact h.rows r hr
    · rw [List.mem_singleton.mp hr]
      exact hrow

theorem importing_insertEntry (rt : Runtime) (now : Ms) {n k : Nat} (hk : k < n) (s : Json) :
    Always (fun w w' => Importing n w → Importing n w') (insertEntry rt now k s) := by
  unfold insertEntry
  split
  · exact always_pure _
  · refine always_bind ?_ (fun id => ?_)
    · unfold entryId
      split
      · exact always_pure _
      · exact always_bind (always_update _ (fun w h => ⟨h.first, h.empty, h.rows⟩))
          (fun uuid => always_pure _)
    · split
      · exact always_pure _
      · apply importing_insertRow
        rintro k' ⟨⟩
        exact hk

theorem importing_insertAll (rt : Runtime) (now : Ms) {n k : Nat} {entries : List Json}
    (hn : k + entries.length ≤ n) :
    Always (fun w w' => Importing n w → Importing n w') (insertAll rt now k entries) := by
  induction entries generalizing k with
  | nil => exact always_pure _
  | cons s rest ih =>
    rw [List.length_cons] at hn
    refine always_bind (importing_insertEntry rt now (by omega) s) (fun result => ?_)
    cases result with
    | error err => exact always_pure _
    | ok _ => exact ih (by omega)

theorem tracked_commit {n : Nat} {w : Site} (h : Importing n w) :
    Tracked { w with
      schedules := w.working.getD w.schedules
      working := none
      imported := w.imported ++ List.range n } := by
  rw [h.first, List.nil_append]
  exact ⟨List.nodup_range, fun r hr k hk => List.mem_range.mpr (h.rows r hr k hk)⟩

theorem tracked_importEntries (rt : Runtime) (raw : List Json) {w : Site} (hfirst : w.imported = [])
    (hempty : w.schedules = []) :
    Wp Eq (fun _ t => Tracked t) (importEntries rt raw) (fun _ => Tracked) w := by
  have hstart : Importing raw.length { w with working := some w.schedules } :=
    ⟨hfirst, hempty, by simp [hempty]⟩
  have hloop (now : Ms) : Wp Eq (fun _ t => Tracked t) (insertAll rt now 0 raw)
      (fun _ => Importing raw.length) { w with working := some w.schedules } :=
    wp_alone (importing_insertAll rt now (Nat.le_of_eq (Nat.zero_add _)))
      (fun _ t h hst => ⟨tracked_of_importing (hst h), hst h⟩) hstart
  simp only [importEntries, dateNow, beginImmediate, wp_bind, wp_query, wp_exec, forall_eq']
  refine ⟨⟨by simp [hfirst], by simp [hempty]⟩, tracked_of_importing hstart,
    wp_mono (fun result t ht => ?_) (hloop _)⟩
  cases result with
  | error err =>
    simp only [rollback, wp_bind, wp_exec, wp_pure, forall_eq']
    have hback : Tracked { t with working := none } := ⟨by simp [ht.first], by simp [ht.empty]⟩
    exact ⟨hback, hback⟩
  | ok _ =>
    simp only [commit, renameFile, wp_bind, wp_exec, wp_query, wp_pure, forall_eq']
    have hdone := tracked_commit ht
    have hrenamed := fun file backups => (show Tracked { t with
      file := file, backups := backups, schedules := t.working.getD t.schedules, working := none,
      imported := t.imported ++ List.range raw.length } from ⟨hdone.nodup, hdone.rows⟩)
    exact ⟨hdone, hdone, hrenamed _ _, hrenamed _ _⟩

theorem migrate_idle (rt : Runtime) {w : Site} (h : w.file.isSome = true → w.schedules ≠ []) :
    Wp Eq (fun _ t => t = w) (migrateSchedulesJsonIfNeeded rt) (fun _ t => t = w) w := by
  simp only [migrateSchedulesJsonIfNeeded, wp_bind, wp_query, forall_eq', true_and]
  cases hfile : w.file with
  | none => rfl
  | some contents =>
    have hpos : 0 < w.schedules.length := List.length_pos_iff.mpr (h (by simp [hfile]))
    simp [hpos]

theorem tracked_migrate (rt : Runtime) {w : Site} (h : Tracked w) (hfirst : w.imported = [])
    (hempty : w.schedules = []) :
    Wp Eq (fun _ t => Tracked t) (migrateSchedulesJsonIfNeeded rt) (fun _ => Tracked) w := by
  simp only [migrateSchedulesJsonIfNeeded, wp_bind, wp_query, forall_eq']
  refine ⟨h, ?_⟩
  cases w.file with
  | none => exact h
  | some contents =>
    simp only [wp_bind, wp_query, forall_eq', hempty, List.length_nil, Nat.lt_irrefl, ↓reduceIte]
    refine ⟨h, ?_⟩
    split
    · exact h
    · exact h
    · exact tracked_importEntries rt _ hfirst hempty
    · exact h

def Held (w w' : Site) : Prop :=
  Tracked w' ∧ ∀ k ∈ w.imported, (∀ r ∈ w.schedules, r.entry ≠ some k) →
  ∀ r ∈ w'.schedules, r.entry ≠ some k

theorem held_of_rows {w w' : Site} (h : Tracked w) (himported : w'.imported = w.imported)
    (hrows : ∀ r ∈ w'.schedules, r ∈ w.schedules ∨ r.entry = none) : Held w w' := by
  refine ⟨⟨himported ▸ h.nodup, fun r hr k hk => ?_⟩, fun k _ hgone r hr hk => ?_⟩
  · obtain hold | hnone := hrows r hr
    · rw [himported]
      exact h.rows r hold k hk
    · simp [hnone] at hk
  · obtain hold | hnone := hrows r hr
    · exact hgone r hold hk
    · simp [hnone] at hk

theorem held_of_first {w w' : Site} (hfirst : w.imported = []) (h : Tracked w') : Held w w' :=
  ⟨h, by simp [hfirst]⟩

theorem held_create (rt : Runtime) (a : Scheduler.CreateInput) {w : Site} (h : Tracked w) :
    Held w (create rt a w) := by
  unfold create
  split
  · exact held_of_rows h rfl (fun r hr => .inl hr)
  · simp only
    split
    · exact held_of_rows h rfl (fun r hr => .inl hr)
    · refine held_of_rows h rfl (fun r hr => ?_)
      obtain hr | hr := List.mem_append.mp hr
      · exact .inl hr
      · rw [List.mem_singleton.mp hr]
        exact .inr rfl

theorem held_startup (rt : Runtime) {w : Site} (h : Tracked w)
    (hguard : w.file.isSome = true → w.imported ≠ [] → w.schedules ≠ []) (crash : Option Nat) :
    Held w (startup rt w crash).site := by
  by_cases hstart : w.imported = [] ∧ w.schedules = []
  · have hwp := tracked_migrate rt h hstart.1 hstart.2
    cases crash with
    | some n =>
      have hcut := wp_cut h hwp n
      exact held_of_first hstart.1 ⟨hcut.nodup, hcut.rows⟩
    | none =>
      have hrun := wp_run hwp
      exact held_of_first hstart.1 ⟨hrun.nodup, hrun.rows⟩
  · have hidle : w.file.isSome = true → w.schedules ≠ [] := by
      intro hfile hempty
      by_cases hfirst : w.imported = []
      · exact hstart ⟨hfirst, hempty⟩
      · exact hguard hfile hfirst hempty
    have hwp := migrate_idle rt hidle
    cases crash with
    | some n =>
      have hcut := wp_cut (I := fun t => t = w) rfl hwp n
      rw [startup, hcut]
      exact held_of_rows h rfl (fun r hr => .inl hr)
    | none =>
      have hrun : ((migrateSchedulesJsonIfNeeded rt).run w).2 = w := wp_run hwp
      simp only [startup, hrun]
      exact held_of_rows h rfl (fun r hr => .inl hr)

theorem held_step (rt : Runtime) {s : Service} (h : Tracked s.site) {a : Action}
    (ha : Guarded s a) :
    Held s.site (step rt s a).site := by
  have hsame : Held s.site s.site := held_of_rows h rfl (fun r hr => .inl hr)
  cases a with
  | startup crash => exact held_startup rt h ha crash
  | crash => exact hsame
  | create a =>
    simp only [step]
    split
    · exact held_create rt a h
    · exact hsame
  | remove id =>
    simp only [step]
    split
    · exact held_of_rows h rfl (fun r hr => .inl (List.mem_filter.mp hr).1)
    · exact hsame
  | wait ms => exact held_of_rows h rfl (fun r hr => .inl hr)

theorem tracked_init (file : Option (Except String Json)) (rows : List Row) (now : Ms) (uuid : Id) :
    Tracked (init file rows now uuid).site := by
  refine ⟨by simp [init], fun r hr k hk => ?_⟩
  obtain ⟨row, -, rfl⟩ := List.mem_map.mp hr
  simp at hk

/-- The file is imported at most once, as long as the server never starts on an
empty table while a file is in place that was imported but not renamed. -/
theorem imported_once (rt : Runtime) (file : Option (Except String Json)) (rows : List Row)
    (now : Ms) (uuid : Id) {as : List Action}
    (h : Along Guarded (step rt) (init file rows now uuid) as) :
    Along (Sound rt) (step rt) (init file rows now uuid) as :=
  along_invariant (fun s : Service => Tracked s.site)
    (fun _ _ htracked hguard =>
      have hheld := held_step rt htracked hguard
      ⟨⟨hheld.1.nodup, hheld.2⟩, hheld.1⟩)
    (tracked_init file rows now uuid) h

def annJson : Json :=
  .object
    [("id", .string "a"), ("message", .string "Hello"), ("runAt", .number 1767225600000),
      ("recipients", recipientsJson [⟨"15550001", "Ann"⟩])]

def annRuntime : Runtime :=
  ⟨fun _ => "[\x7b\"number\":\"15550001\",\"name\":\"Ann\"\x7d]",
    fun _ => "2026-01-01T00:00:00.000Z", fun _ v => v⟩

theorem imported_once_removed :
    Along (Sound annRuntime) (step annRuntime) (init (some (.ok (.array [annJson]))) [] 0 0)
      [.startup none, .remove "a", .crash, .startup none] :=
  imported_once annRuntime (some (.ok (.array [annJson]))) [] 0 0 (by decide +kernel)

/-- A crash between the `COMMIT` and the rename leaves the file to a later startup,
which brings the schedule back that the user has removed. -/
theorem removed_returns :
    ¬ Along (Sound annRuntime) (step annRuntime) (init (some (.ok (.array [annJson]))) [] 0 0)
      [.startup (some 6), .startup none, .remove "a", .crash, .startup none] := by
  decide +kernel

theorem keeps_insertAll (rt : Runtime) (now : Ms) (k : Nat) (entries : List Json) :
    Always (fun w w' => w'.imported = w.imported) (insertAll rt now k entries) := by
  induction entries generalizing k with
  | nil => exact always_pure _
  | cons s rest ih =>
    refine always_bind ?_ (fun result => ?_)
    · unfold insertEntry
      split
      · exact always_pure _
      · refine always_bind ?_ (fun id => ?_)
        · unfold entryId
          split
          · exact always_pure _
          · exact always_bind (always_update _ (fun w => rfl)) (fun uuid => always_pure _)
        · split
          · exact always_pure _
          · exact always_update _ (fun w => by split <;> rfl)
    · cases result with
      | error err => exact always_pure _
      | ok _ => exact ih (k + 1)

theorem imported_migrate (rt : Runtime) {raw : List Json} {w : Site}
    (hfile : w.file = some (.ok (.array raw))) (hsome : raw ≠ []) (hempty : w.schedules = []) :
    Ends (migrateSchedulesJsonIfNeeded rt)
      (fun report t => report.isOk = true → t.imported = w.imported ++ List.range raw.length ∧
        t.file = none) w := by
  simp only [Ends, migrateSchedulesJsonIfNeeded, importEntries, dateNow, beginImmediate, wp_bind,
    wp_query, forall_eq', hfile, hempty, List.length_nil, Nat.lt_irrefl, ↓reduceIte, true_and]
  cases raw with
  | nil => exact absurd rfl hsome
  | cons s rest =>
    simp only [wp_bind, wp_exec, forall_eq', true_and]
    refine wp_mono (fun result t ht => ?_) (ends_always (P := fun t => t.imported = w.imported)
      (fun _ t h hst => hst.trans h) (keeps_insertAll rt w.now 0 (s :: rest)) rfl)
    cases result with
    | error err =>
      simp [rollback, Except.isOk, Except.toBool]
    | ok _ =>
      simp [commit, renameFile, ht]

end WhatsappTester.Migration
