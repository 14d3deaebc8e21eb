import WhatsappTester.Jobs.Firing
import WhatsappTester.JsonText
import WhatsappTester.Startup

namespace WhatsappTester.Continuation

open Schema State Atomic.Program Migration Entries Jobs.Occurrences Jobs.Firing

def ofSql : SqlValue → Json
  | .null => .null
  | .number x => .number x
  | .text s => .string s

/-- `JSON.parse` of a column, with `none` where it throws -/
def parseColumn : SqlValue → Option Json
  | .null => some .null
  | .number x => some (.number x)
  | .text s => JsonText.parse s

def ruleOf (row : Row) : Json :=
  if truthy (some (ofSql row.repeatEveryValue)) then
    .object
      [("everyValue", ofSql row.repeatEveryValue), ("everyUnit", ofSql row.repeatEveryUnit),
        ("endAt", ofSql row.repeatEndAt)]
  else .null

def lastResultOf (row : Row) : Option Json :=
  if truthy (some (ofSql row.lastResult)) then parseColumn row.lastResult else some .null

def scheduleJson (row : Row) (recipients lastResult : Json) : Json :=
  .object
    [("id", ofSql row.id), ("recipients", recipients), ("message", ofSql row.message),
      ("delaySeconds", ofSql row.delaySeconds), ("runAt", ofSql row.nextRunAt),
      ("repeat", ruleOf row), ("status", ofSql row.status), ("lastResult", lastResult),
      ("createdAt", ofSql row.createdAt)]

def rowToSchedule (row : Row) : Option Json := do
  let recipients ← parseColumn row.recipients
  let lastResult ← lastResultOf row
  some (scheduleJson row recipients lastResult)

/-- The order of SQLite: nulls, numbers, texts. -/
def before : SqlValue → SqlValue → Bool
  | .null, _ => true
  | .number _, .null => false
  | .number x, .number y => decide (x ≤ y)
  | .number _, .text _ => true
  | .text s, .text t => decide (s ≤ t)
  | .text _, _ => false

/-- `Scheduler.list` -/
def list (w : Site) : Option (List Json) :=
  (w.schedules.insertionSort (fun r r' => before r.nextRunAt r'.nextRunAt)).mapM rowToSchedule

def Time (t : Int) : Prop := 0 < t ∧ t ≤ 8640000000000000

structure Rule (v : Json) : Prop where
  everyValue : ∃ x : Rat, 1 ≤ x ∧ x < 2 ^ 53 ∧ field v "everyValue" = some (.number x)
  everyUnit : ∃ unit ∈ ["minutes", "hours", "days", "weeks"],
    field v "everyUnit" = some (.string unit)
  endAt : field v "endAt" = some .null ∨ ∃ t, Time t ∧ field v "endAt" = some (.number t)

def Names (v : Json) (r : Recipient) : Prop :=
  field v "number" = some (.string r.number) ∧ field v "name" = some (.string r.name)

/-- An entry as the old scheduler wrote it. -/
structure WellFormed (s : Json) : Prop where
  id : ∃ id, id ≠ "" ∧ field s "id" = some (.string id)
  recipients : ∃ vs rs, field s "recipients" = some (.array vs) ∧ List.Forall₂ Names vs rs ∧
    ∀ v ∈ vs, JsonText.Plain v
  message : ∃ message, field s "message" = some (.string message)
  delaySeconds : ∃ x : Rat, 0 ≤ x ∧ x < 2 ^ 53 ∧ field s "delaySeconds" = some (.number x)
  runAt : ∃ t, Time t ∧ field s "runAt" = some (.number t)
  rule : truthy (field s "repeat") = false ∨ ∃ v, field s "repeat" = some v ∧ Rule v
  status : ∃ status ∈ ["scheduled", "sending", "done"], field s "status" = some (.string status)
  lastResult : truthy (field s "lastResult") = false ∨
    ∃ v t, field s "lastResult" = some v ∧ JsonText.Plain v ∧ Time t ∧
      field v "ranAt" = some (.number t)
  createdAt : ∃ t, Time t ∧ field s "createdAt" = some (.number t)

structure Shows (view s : Json) : Prop where
  fields : ∀ key ∈ ["id", "recipients", "message", "delaySeconds", "runAt", "status", "createdAt"],
    field view key = field s key
  repeated : truthy (field view "repeat") = truthy (field s "repeat")
  rule : ∀ key ∈ ["everyValue", "everyUnit", "endAt"],
    inner (field view "repeat") key = inner (field s "repeat") key
  lastResult : field view "lastResult" = orElse (field s "lastResult") .null

def statusName : ScheduleStatus → String
  | .scheduled => "scheduled"
  | .sending => "sending"
  | .done => "done"

structure Reads (row : Row) (r : Schedule) : Prop where
  id : row.id = .text r.id
  message : row.message = .text r.message
  recipients : ∃ vs, parseColumn row.recipients = some (.array vs) ∧
    List.Forall₂ Names vs r.recipients
  delaySeconds : row.delaySeconds = .number r.delaySeconds
  status : row.status = .text (statusName r.status)
  nextRunAt : row.nextRunAt = .number r.nextRunAt
  createdBy : row.createdBy = r.createdBy.elim .null .text

/-- The schedule is in the database, its time has come, and no job has been created for it. -/
structure Awaited (r : Schedule) (v : World) : Prop where
  sane : Sane v.shared
  stored : r ∈ v.shared.db.schedules
  reached : r.nextRunAt ≤ v.shared.now
  unfired : ∀ j ∈ v.shared.db.jobs, j.idempotencyKey ≠ currentKey r

/-- Whenever the time of the row has come, a tick in a ready process fires it. -/
def Live (row : Row) : Prop :=
  (∃ r, Reads row r) ∧ ∀ r, Reads row r → ∀ v, Awaited r v →
    Underway r ((Scheduler.runTickIfReady true).run v).2

def Shown (raw : List Json) (w : Site) : Prop :=
  ∃ views entries, list w = some views ∧ entries.Perm raw ∧ List.Forall₂ Shows views entries

def Alive (raw : List Json) (w : Site) : Prop :=
  List.Forall₂ (fun row s => field s "status" ≠ some (.string "done") → Live row) w.schedules raw

/-- What SQLite keeps as it is: texts in a column for texts, and numbers that JavaScript can
count to in one for integers. -/
structure Faithful (print : Rat → List Char) (rt : Runtime) : Prop where
  stringify : rt.stringify = JsonText.stringify print
  text : ∀ s, rt.convert .text (.text s) = .text s
  number : ∀ x : Rat, |x| < 2 ^ 53 → rt.convert .integer (.number x) = .number x

theorem orElse_eq {value : Option Json} {other : Json}
    (h : truthy value = true ∨ value = some other) : orElse value other = value := by
  obtain h | rfl := h
  · exact if_pos h
  · unfold orElse
    split <;> rfl

theorem truthy_string {value : Option Json} {t : String} (h : value = some (.string t))
    (ht : t ≠ "") : truthy value = true := by
  rw [h]
  exact decide_eq_true ht

theorem truthy_number {value : Option Json} {x : Rat} (h : value = some (.number x)) (hx : x ≠ 0) :
    truthy value = true := by
  rw [h]
  exact decide_eq_true hx

/-- The default of a text is the only falsy text. -/
theorem orElse_string {value : Option Json} {t : String} (h : value = some (.string t)) :
    orElse value (.string "") = value := by
  by_cases hempty : t = ""
  · exact orElse_eq (.inr (hempty ▸ h))
  · exact orElse_eq (.inl (truthy_string h hempty))

theorem orElse_number {value : Option Json} {x : Rat} (h : value = some (.number x)) :
    orElse value (.number 0) = value := by
  by_cases hzero : x = 0
  · exact orElse_eq (.inr (hzero ▸ h))
  · exact orElse_eq (.inl (truthy_number h hzero))

/-- Only an object has a property that is a number. -/
theorem truthy_of_field {v : Json} {key : String} {x : Rat} (h : field v key = some (.number x)) :
    truthy (some v) = true := by
  cases v with
  | object fields => rfl
  | array elements => rfl
  | string t =>
    simp only [field, Json.get] at h
    split at h <;> cases h
  | _ => cases h

theorem inner_of_falsy {value : Option Json} (h : truthy value = false) (key : String) :
    Entries.inner value key = some .null := if_neg (Bool.eq_false_iff.mp h)

theorem inner_of_field {value : Option Json} {v : Json} {x : Rat} {key : String}
    (hvalue : value = some v) (hfield : field v key = some (.number x)) (key' : String) :
    Entries.inner value key' = field v key' := by
  rw [hvalue, Entries.inner, if_pos (truthy_of_field hfield)]
  rfl

theorem time_le {t : Int} (h : Time t) : |(t : Rat)| < 2 ^ 53 ∧ (0 : Rat) < t := by
  have hpos : (0 : Rat) < t := Int.cast_pos.mpr h.1
  have hle : (t : Rat) ≤ (8640000000000000 : Int) := Int.cast_le.mpr h.2
  refine ⟨?_, hpos⟩
  rw [abs_of_pos hpos]
  exact hle.trans_lt (by norm_num)

section Columns

variable {print : Rat → List Char} {rt : Runtime} (hrt : Faithful print rt)
include hrt

theorem stored_text {value : Option Json} {t : String} (h : value = some (.string t)) :
    stored rt .text value = .text t := by
  rw [h]
  exact hrt.text t

theorem stored_number {value : Option Json} {x : Rat} (h : value = some (.number x))
    (hx : |x| < 2 ^ 53) : stored rt .integer value = .number x := by
  rw [h]
  exact hrt.number x hx

theorem stored_time {value : Option Json} {t : Int} (h : value = some (.number t)) (ht : Time t)
    (other : Json) : stored rt .integer (orElse value other) = .number t := by
  obtain ⟨hsmall, hpos⟩ := time_le ht
  rw [orElse_eq (.inl (truthy_number h hpos.ne'))]
  exact stored_number hrt h hsmall

/-- What is written of a value is read again. -/
theorem parse_stored {v : Json} (hv : JsonText.Plain v) :
    ∃ t, t ≠ "" ∧ stored rt .text (some (.string (rt.stringify v))) = .text t ∧
      JsonText.parse t = some v := by
  refine ⟨rt.stringify v, ?_, hrt.text _, ?_⟩
  · obtain ⟨c, rest, htext, -⟩ := JsonText.text_cons print hv
    rw [hrt.stringify, JsonText.stringify, htext]
    simp
  · rw [hrt.stringify]
    exact JsonText.parse_stringify hv

variable (now : Ms) (uuid : Schema.Id) (k : Nat) {s : Json}

theorem rule_shown (h : truthy (field s "repeat") = false ∨
    ∃ v, field s "repeat" = some v ∧ Rule v) :
    let row := Startup.entryRow rt now uuid k s
    truthy (some (ruleOf row)) = truthy (field s "repeat") ∧
      ∀ key ∈ ["everyValue", "everyUnit", "endAt"],
        inner (some (ruleOf row)) key = inner (field s "repeat") key := by
  intro row
  obtain hnone | ⟨v, hv, hrule⟩ := h
  · have hinner := inner_of_falsy hnone
    have hvalue : row.repeatEveryValue = .null := by
      change stored rt .integer (inner (field s "repeat") "everyValue") = .null
      rw [hinner]
      rfl
    have hnull : ruleOf row = .null := by
      rw [ruleOf, hvalue]
      rfl
    rw [hnull]
    exact ⟨hnone.symm, fun key _ => (hinner key).symm⟩
  · obtain ⟨x, hx, hxle, hvalue⟩ := hrule.everyValue
    obtain ⟨unit, -, hunit⟩ := hrule.everyUnit
    have htruthy : truthy (field s "repeat") = true := hv ▸ truthy_of_field hvalue
    have hinner := inner_of_field hv hvalue
    have hvalueColumn : row.repeatEveryValue = .number x := by
      change stored rt .integer (Entries.inner (field s "repeat") "everyValue") = _
      rw [hinner]
      exact stored_number hrt hvalue (by rw [abs_of_pos (by linarith)]; exact hxle)
    have hunitColumn : row.repeatEveryUnit = .text unit := by
      change stored rt .text (Entries.inner (field s "repeat") "everyUnit") = _
      rw [hinner]
      exact stored_text hrt hunit
    have hendColumn : some (ofSql row.repeatEndAt) = field v "endAt" := by
      change some (ofSql (stored rt .integer (Entries.inner (field s "repeat") "endAt"))) = _
      rw [hinner]
      obtain hnull | ⟨t, ht, hend⟩ := hrule.endAt
      · rw [hnull]
        rfl
      · rw [stored_number hrt hend (time_le ht).1, hend]
        rfl
    have hrule : ruleOf row = .object [("everyValue", .number x), ("everyUnit", .string unit),
        ("endAt", ofSql row.repeatEndAt)] := by
      have hsome : truthy (some (ofSql (.number x))) = true :=
        truthy_number rfl (lt_of_lt_of_le one_pos hx).ne'
      rw [ruleOf, hvalueColumn, if_pos hsome, hunitColumn]
      rfl
    refine ⟨by rw [hrule, htruthy]; rfl, ?_⟩
    simp only [List.forall_mem_cons, List.not_mem_nil, false_implies, implies_true, and_true,
      hinner, hrule]
    exact ⟨hvalue.symm, hunit.symm, hendColumn⟩

theorem lastResult_shown (h : truthy (field s "lastResult") = false ∨
    ∃ v t, field s "lastResult" = some v ∧ JsonText.Plain v ∧ Time t ∧
      field v "ranAt" = some (.number t)) :
    let row := Startup.entryRow rt now uuid k s
    ∃ v, lastResultOf row = some v ∧ some v = orElse (field s "lastResult") .null := by
  intro row
  have hcolumn : row.lastResult = stored rt .text (stringified rt (field s "lastResult")) := rfl
  obtain hnone | ⟨v, t, hv, hplain, -, hranAt⟩ := h
  · refine ⟨.null, ?_, ?_⟩
    · rw [lastResultOf, hcolumn, stringified, if_neg (Bool.eq_false_iff.mp hnone)]
      rfl
    · rw [orElse, if_neg (Bool.eq_false_iff.mp hnone)]
  · have htruthy : truthy (field s "lastResult") = true := hv ▸ truthy_of_field hranAt
    obtain ⟨text, hne, hstored, hparse⟩ := parse_stored hrt hplain
    have htext : row.lastResult = .text text := by
      rw [hcolumn, stringified, if_pos htruthy, hv]
      exact hstored
    refine ⟨v, ?_, ?_⟩
    · have hsome : truthy (some (ofSql (.text text))) = true := truthy_string rfl hne
      rw [lastResultOf, htext, if_pos hsome]
      exact hparse
    · rw [orElse_eq (.inl htruthy), hv]

structure Columns (s : Json) (row : Row) : Prop where
  id : ∃ id, field s "id" = some (.string id) ∧ row.id = .text id
  message : ∃ message, field s "message" = some (.string message) ∧ row.message = .text message
  recipients : ∃ vs rs, field s "recipients" = some (.array vs) ∧ List.Forall₂ Names vs rs ∧
    parseColumn row.recipients = some (.array vs)
  delaySeconds : ∃ x, field s "delaySeconds" = some (.number x) ∧ row.delaySeconds = .number x
  runAt : ∃ t : Int, field s "runAt" = some (.number t) ∧ row.nextRunAt = .number t
  status : ∃ status, field s "status" = some (.string status) ∧ row.status = .text status
  createdAt : ∃ t : Int, field s "createdAt" = some (.number t) ∧ row.createdAt = .number t
  createdBy : row.createdBy = .null

theorem columns_entryRow (h : WellFormed s) :
    Columns s (Startup.entryRow rt now uuid k s) := by
  obtain ⟨id, hne, hid⟩ := h.id
  obtain ⟨vs, rs, hvs, hnames, hplain⟩ := h.recipients
  obtain ⟨message, hmessage⟩ := h.message
  obtain ⟨x, hx, hxle, hdelay⟩ := h.delaySeconds
  obtain ⟨t, ht, hrunAt⟩ := h.runAt
  obtain ⟨status, hstatus, hstatusField⟩ := h.status
  obtain ⟨c, hc, hcreatedAt⟩ := h.createdAt
  obtain ⟨text, -, hstored, hparse⟩ := parse_stored hrt (JsonText.Plain.array hplain)
  refine ⟨⟨id, hid, ?_⟩, ⟨message, hmessage, ?_⟩, ⟨vs, rs, hvs, hnames, ?_⟩, ⟨x, hdelay, ?_⟩,
    ⟨t, hrunAt, stored_time hrt hrunAt ht _⟩, ⟨status, hstatusField, ?_⟩,
    ⟨c, hcreatedAt, stored_time hrt hcreatedAt hc _⟩, rfl⟩
  · change stored rt .text (idOf uuid s) = _
    rw [idOf, if_pos (truthy_string hid hne)]
    exact stored_text hrt hid
  · change stored rt .text (orElse (field s "message") (.string "")) = _
    rw [orElse_string hmessage]
    exact stored_text hrt hmessage
  · change parseColumn (stored rt .text ((orElse (field s "recipients") (.array [])).map
      (fun v => .string (rt.stringify v)))) = _
    rw [orElse_eq (.inl (by rw [hvs]; rfl)), hvs, Option.map_some, hstored]
    exact hparse
  · change stored rt .integer (orElse (field s "delaySeconds") (.number 0)) = _
    rw [orElse_number hdelay]
    exact stored_number hrt hdelay (by rwa [abs_of_nonneg hx])
  · change stored rt .text (orElse (field s "status") (.string "scheduled")) = _
    have hne : status ≠ "" := by
      rintro rfl
      exact absurd hstatus (by decide)
    rw [orElse_eq (.inl (truthy_string hstatusField hne))]
    exact stored_text hrt hstatusField

theorem shows_entryRow (h : WellFormed s) :
    ∃ view, rowToSchedule (Startup.entryRow rt now uuid k s) = some view ∧ Shows view s := by
  have hcolumns := columns_entryRow hrt now uuid k h
  obtain ⟨hrepeated, hrule⟩ := rule_shown hrt now uuid k h.rule
  obtain ⟨result, hresult, hsame⟩ := lastResult_shown hrt now uuid k h.lastResult
  generalize Startup.entryRow rt now uuid k s = row at *
  obtain ⟨id, hid, hidColumn⟩ := hcolumns.id
  obtain ⟨message, hmessage, hmessageColumn⟩ := hcolumns.message
  obtain ⟨vs, rs, hvs, -, hrecipients⟩ := hcolumns.recipients
  obtain ⟨x, hdelay, hdelayColumn⟩ := hcolumns.delaySeconds
  obtain ⟨t, hrunAt, hrunAtColumn⟩ := hcolumns.runAt
  obtain ⟨status, hstatus, hstatusColumn⟩ := hcolumns.status
  obtain ⟨c, hcreatedAt, hcreatedAtColumn⟩ := hcolumns.createdAt
  refine ⟨scheduleJson row (.array vs) result, ?_, ?_, hrepeated, hrule, hsame⟩
  · rw [rowToSchedule, hrecipients, hresult]
    rfl
  · simp only [List.forall_mem_cons, List.not_mem_nil, false_implies, implies_true, and_true, hid,
      hmessage, hvs, hdelay, hrunAt, hstatus, hcreatedAt, scheduleJson, hidColumn, hmessageColumn,
      hdelayColumn, hrunAtColumn, hstatusColumn, hcreatedAtColumn]
    exact ⟨rfl, rfl, rfl, rfl, rfl, rfl, rfl⟩

omit hrt in
theorem importable_of_wellFormed (h : WellFormed s) : Importable s := by
  obtain ⟨id, -, hid⟩ := h.id
  obtain ⟨message, hmessage⟩ := h.message
  obtain ⟨x, -, -, hdelay⟩ := h.delaySeconds
  obtain ⟨t, -, hrunAt⟩ := h.runAt
  obtain ⟨status, -, hstatus⟩ := h.status
  obtain ⟨c, -, hcreatedAt⟩ := h.createdAt
  refine ⟨?_, ?_, ?_, ?_⟩
  · rintro rfl
    cases hid
  · simp only [List.forall_mem_cons, List.not_mem_nil, false_implies, implies_true, and_true, hid,
      hmessage, hdelay, hstatus, hrunAt, hcreatedAt, bindable]
  · obtain hnone | ⟨v, hv, hrule⟩ := h.rule
    · intro key _
      rw [inner_of_falsy hnone]
      rfl
    · obtain ⟨x, -, -, hvalue⟩ := hrule.everyValue
      obtain ⟨unit, -, hunit⟩ := hrule.everyUnit
      simp only [List.forall_mem_cons, List.not_mem_nil, false_implies, implies_true, and_true,
        inner_of_field hv hvalue, hvalue, hunit]
      refine ⟨rfl, rfl, ?_⟩
      obtain hend | ⟨t, -, hend⟩ := hrule.endAt
      · rw [hend]
        rfl
      · rw [hend]
        rfl
  · obtain hnone | ⟨v, t, hv, -, -, hranAt⟩ := h.lastResult
    · rw [inner_of_falsy hnone]
      rfl
    · rw [inner_of_field hv hranAt, hranAt]
      rfl

omit hrt in
theorem storedIds_eq {raw : List Json} (h : ∀ s ∈ raw, WellFormed s) (uuid : Schema.Id) :
    Startup.storedIds rt uuid raw = (raw.map (fun s => field s "id")).map (stored rt .text) := by
  induction raw generalizing uuid with
  | nil => rfl
  | cons s rest ih =>
    obtain ⟨hs, hrest⟩ := List.forall_mem_cons.mp h
    obtain ⟨id, hne, hid⟩ := hs.id
    rw [Startup.storedIds, ih hrest, idOf, if_pos (truthy_string hid hne), List.map_cons,
      List.map_cons]

theorem loadable_of_wellFormed {raw : List Json} (h : ∀ s ∈ raw, WellFormed s)
    (hdistinct : (raw.map (fun s => field s "id")).Nodup) :
    Startup.Loadable rt uuid (some (.ok (.array raw))) := by
  refine ⟨fun s hs => importable_of_wellFormed (h s hs), ?_⟩
  rw [storedIds_eq h]
  refine hdistinct.map_on (fun a ha b hb hab => ?_)
  obtain ⟨s, hs, rfl⟩ := List.mem_map.mp ha
  obtain ⟨s', hs', rfl⟩ := List.mem_map.mp hb
  obtain ⟨id, -, hid⟩ := (h s hs).id
  obtain ⟨id', -, hid'⟩ := (h s' hs').id
  rw [stored_text hrt hid, stored_text hrt hid', SqlValue.text.injEq] at hab
  simp only [hid, hid', hab]

/-- What a startup on an empty table makes of the file. -/
theorem schedules_startup {raw : List Json} (h : ∀ s ∈ raw, WellFormed s)
    (hdistinct : (raw.map (fun s => field s "id")).Nodup) {w : Site} (hempty : w.schedules = [])
    (hfile : w.file = some (.ok (.array raw))) :
    (startup rt w none).site.schedules = Startup.importedRows rt w.now w.uuid 0 raw := by
  have hloadable : Startup.Loadable rt w.uuid (some (.ok (.array raw))) :=
    loadable_of_wellFormed hrt w.uuid h hdistinct
  have hrows : (startup rt w none).site.schedules =
      ((migrateSchedulesJsonIfNeeded rt).run w).2.schedules := rfl
  rw [hrows]
  obtain ⟨raw', hfile', hrun⟩ | ⟨hidle, -, hrun⟩ := Startup.migrate_run rt hempty
  · obtain rfl : raw = raw' := by simpa using hfile.symm.trans hfile'
    rw [hrun]
    obtain ⟨-, -, hschedules⟩ | ⟨hbad, -, -⟩ := Startup.importEntries_run rt raw hempty
    · exact hschedules
    · exact absurd hloadable hbad
  · obtain rfl := hidle raw hfile
    rw [hrun, hempty]
    rfl

omit hrt in
/-- What holds of the row of each entry. -/
theorem forall₂_importedRows {P : Row → Json → Prop} {raw : List Json}
    (h : ∀ s ∈ raw, ∀ uuid k, P (Startup.entryRow rt now uuid k s) s) :
    List.Forall₂ P (Startup.importedRows rt now uuid k raw) raw := by
  induction raw generalizing uuid k with
  | nil => exact .nil
  | cons s rest ih =>
    obtain ⟨hs, hrest⟩ := List.forall_mem_cons.mp h
    exact .cons (hs uuid k) (ih _ _ hrest)

end Columns

theorem mapM_forall₂ {α β γ : Type} {f : α → Option β} {R : β → γ → Prop} {as : List α}
    {cs : List γ} (h : List.Forall₂ (fun a c => ∃ b, f a = some b ∧ R b c) as cs) :
    ∃ bs, as.mapM f = some bs ∧ List.Forall₂ R bs cs := by
  induction h with
  | nil => exact ⟨[], rfl, .nil⟩
  | cons hac _ ih =>
    obtain ⟨b, hb, hbc⟩ := hac
    obtain ⟨bs, hbs, hrest⟩ := ih
    exact ⟨b :: bs, by simp [hb, hbs], .cons hbc hrest⟩

theorem shown_of_rows {w : Site} {raw : List Json}
    (h : List.Forall₂ (fun row s => ∃ view, rowToSchedule row = some view ∧ Shows view s)
      w.schedules raw) : Shown raw w := by
  have hsorted := List.perm_insertionSort
    (fun r r' : Row => before r.nextRunAt r'.nextRunAt) w.schedules
  obtain ⟨entries, hentries, hperm⟩ := List.perm_comp_forall₂ hsorted h
  obtain ⟨views, hviews, hshows⟩ := mapM_forall₂ hentries
  exact ⟨views, entries, hviews, hperm, hshows⟩

section Firing

theorem statusName_inj {a b : ScheduleStatus} (h : statusName a = statusName b) : a = b := by
  cases a <;> cases b <;> first | rfl | exact absurd h (by decide)

theorem statusName_of_mem {status : String} (h : status ∈ ["scheduled", "sending", "done"]) :
    ∃ a, statusName a = status := by
  simp only [List.mem_cons, List.not_mem_nil, or_false] at h
  obtain rfl | rfl | rfl := h
  · exact ⟨.scheduled, rfl⟩
  · exact ⟨.sending, rfl⟩
  · exact ⟨.done, rfl⟩

theorem reads_of_columns {s : Json} {row : Row} (h : WellFormed s) (hcolumns : Columns s row) :
    ∃ r, Reads row r := by
  obtain ⟨id, -, hid⟩ := hcolumns.id
  obtain ⟨message, -, hmessage⟩ := hcolumns.message
  obtain ⟨vs, rs, -, hnames, hrecipients⟩ := hcolumns.recipients
  obtain ⟨x, -, hdelay⟩ := hcolumns.delaySeconds
  obtain ⟨t, -, hrunAt⟩ := hcolumns.runAt
  obtain ⟨status, hstatus, hstatusColumn⟩ := hcolumns.status
  obtain ⟨name, hname, hfield⟩ := h.status
  have hsame : status = name := by
    rw [hstatus, Option.some.injEq, Json.string.injEq] at hfield
    exact hfield
  obtain ⟨a, ha⟩ := statusName_of_mem (hsame ▸ hname)
  let r : Schedule :=
    { id, message, recipients := rs, delaySeconds := x, repeatEveryValue := none
      repeatEveryUnit := none, repeatEndAt := none, status := a, nextRunAt := t, lastRunAt := none
      lastResult := none, createdBy := none, createdAt := 0, updatedAt := 0 }
  exact ⟨r, hid, hmessage, ⟨vs, hrecipients, hnames⟩, hdelay, ha ▸ hstatusColumn, hrunAt,
    hcolumns.createdBy⟩

def alone (r : Schedule) : World where
  shared := { now := r.nextRunAt, db := { schedules := [r] } }
  mem := { pid := 0, semaphore := ⟨1, 0⟩ }

theorem awaited_alone (r : Schedule) : Awaited r (alone r) where
  sane :=
    { jobs := fun _ h => nomatch h
      items := fun _ h => nomatch h
      schedules := List.nodup_singleton _ }
  stored := List.mem_singleton_self r
  reached := le_refl r.nextRunAt
  unfired := fun _ h => nomatch h

/-- A tick leaves a schedule alone that does not have the status `scheduled`. -/
theorem run_alone {r : Schedule} (h : r.status ≠ .scheduled) :
    ((Scheduler.runTickIfReady true).run (alone r)).2 = alone r := by
  have hdue : [r].filter (Scheduler.due r.nextRunAt) = [] := by
    simp [Scheduler.due, h]
  simp only [Scheduler.runTickIfReady, Bool.not_true, Bool.false_eq_true, ↓reduceIte,
    State.dateNow, run_bind, run_query]
  change ((each Scheduler.fireDue ([r].filter (Scheduler.due r.nextRunAt))).run (alone r)).2 = _
  rw [hdue]
  rfl

theorem live_iff {s : Json} {row : Row} (h : WellFormed s) (hcolumns : Columns s row) :
    Live row ↔ field s "status" = some (.string "scheduled") := by
  obtain ⟨status, hstatus, hcolumn⟩ := hcolumns.status
  have hname {r : Schedule} (hr : Reads row r) : statusName r.status = status := by
    have hsame := hr.status
    rw [hcolumn, SqlValue.text.injEq] at hsame
    exact hsame.symm
  rw [hstatus, Option.some.injEq, Json.string.injEq]
  constructor
  · rintro ⟨⟨r, hr⟩, hlive⟩
    by_contra hne
    have hidle : r.status ≠ .scheduled := by
      intro hscheduled
      rw [← hname hr, hscheduled] at hne
      exact hne rfl
    obtain ⟨j, hj, -⟩ := (hlive r hr _ (awaited_alone r)).job
    rw [run_alone hidle] at hj
    cases hj
  · rintro rfl
    refine ⟨reads_of_columns h hcolumns, fun r hr v hv => ?_⟩
    have hscheduled : r.status = .scheduled := statusName_inj (hname hr)
    exact ends_iff.mp (underway_runTickIfReady hv.sane hv.stored
      (decide_eq_true ⟨hscheduled, hv.reached⟩) hv.unfired)

end Firing

section Startup

variable {print : Rat → List Char} {rt : Runtime}

/-- An entry is not done, and its row is not live, if and only if it was being sent. -/
theorem pending_iff (hrt : Faithful print rt) {now : Ms} {uuid : Schema.Id} {k : Nat} {s : Json}
    (h : WellFormed s) :
    (field s "status" ≠ some (.string "done") → Live (Startup.entryRow rt now uuid k s)) ↔
      field s "status" ≠ some (.string "sending") := by
  rw [live_iff h (columns_entryRow hrt now uuid k h)]
  obtain ⟨status, hstatus, hfield⟩ := h.status
  simp only [List.mem_cons, List.not_mem_nil, or_false] at hstatus
  obtain rfl | rfl | rfl := hstatus <;> simp [hfield]

theorem alive_importedRows (hrt : Faithful print rt) {now : Ms} {uuid : Schema.Id} {k : Nat}
    {raw : List Json} (h : ∀ s ∈ raw, WellFormed s) :
    List.Forall₂ (fun row s => field s "status" ≠ some (.string "done") → Live row)
        (Startup.importedRows rt now uuid k raw) raw ↔
      ∀ s ∈ raw, field s "status" ≠ some (.string "sending") := by
  induction raw generalizing uuid k with
  | nil => simp [Startup.importedRows]
  | cons s rest ih =>
    obtain ⟨hs, hrest⟩ := List.forall_mem_cons.mp h
    rw [Startup.importedRows, List.forall₂_cons, pending_iff hrt hs, ih hrest,
      List.forall_mem_cons]

/-- After the import every schedule is shown as it was, and those that were not done are live
if and only if none was being sent. -/
theorem alive_iff (hrt : Faithful print rt) {w : Site} {raw : List Json}
    (hempty : w.schedules = []) (hfile : w.file = some (.ok (.array raw)))
    (h : ∀ s ∈ raw, WellFormed s) (hdistinct : (raw.map (fun s => field s "id")).Nodup) :
    Shown raw (startup rt w none).site ∧
      (Shown raw (startup rt w none).site ∧ Alive raw (startup rt w none).site ↔
        ∀ s ∈ raw, field s "status" ≠ some (.string "sending")) := by
  have hrows := schedules_startup hrt h hdistinct hempty hfile
  have hshown : Shown raw (startup rt w none).site := by
    refine shown_of_rows ?_
    rw [hrows]
    exact forall₂_importedRows _ _ _ (fun s hs uuid k => shows_entryRow hrt w.now uuid k (h s hs))
  refine ⟨hshown, ?_⟩
  rw [and_iff_right hshown, Alive, hrows]
  exact alive_importedRows hrt h

def annEntry (status : String) : Json :=
  .object
    [("id", .string "ann"),
      ("recipients", .array
        [.object [("number", .string "972501234567"), ("name", .string "Ann")]]),
      ("message", .string "Hi"), ("delaySeconds", .number 0), ("runAt", .number 1767225600000),
      ("repeat", .object
        [("everyValue", .number 1), ("everyUnit", .string "days"), ("endAt", .null)]),
      ("status", .string status), ("lastResult", .null), ("createdAt", .number 1767222000000)]

theorem wellFormed_annEntry {status : String} (h : status ∈ ["scheduled", "sending", "done"]) :
    WellFormed (annEntry status) where
  id := ⟨"ann", by decide, rfl⟩
  recipients := by
    refine ⟨_, [⟨"972501234567", "Ann"⟩], rfl, .cons ⟨rfl, rfl⟩ .nil, ?_⟩
    refine List.forall_mem_singleton.mpr (.object ?_)
    exact List.forall_mem_cons.mpr ⟨.string _, List.forall_mem_singleton.mpr (.string _)⟩
  message := ⟨"Hi", rfl⟩
  delaySeconds := ⟨0, le_refl _, by norm_num, rfl⟩
  runAt := ⟨1767225600000, ⟨by decide, by decide⟩, rfl⟩
  rule := by
    refine .inr ⟨_, rfl, ⟨1, le_refl _, by norm_num, rfl⟩, ⟨"days", by decide, rfl⟩, .inl rfl⟩
  status := ⟨status, h, rfl⟩
  lastResult := .inl rfl
  createdAt := ⟨1767222000000, ⟨by decide, by decide⟩, rfl⟩

def plainRuntime : Runtime := ⟨JsonText.stringify (fun _ => []), fun _ => "", fun _ v => v⟩

theorem faithful_plain : Faithful (fun _ => []) plainRuntime :=
  ⟨rfl, fun _ => rfl, fun _ _ => rfl⟩

def annSite (status : String) : Site := { file := some (.ok (.array [annEntry status])) }

theorem alive_iff_ann :
    Shown [annEntry "scheduled"] (startup plainRuntime (annSite "scheduled") none).site ∧
      Alive [annEntry "scheduled"] (startup plainRuntime (annSite "scheduled") none).site :=
  (alive_iff faithful_plain (w := annSite "scheduled") rfl rfl
    (List.forall_mem_singleton.mpr (wellFormed_annEntry (by decide)))
    (List.nodup_singleton _)).2.mpr
    (List.forall_mem_singleton.mpr (by simp [annEntry, field, Json.get]))

/-- A schedule that was being sent when the file was written is never fired again. -/
theorem sending_is_stuck :
    ¬ ∀ (print : Rat → List Char) (rt : Runtime), Faithful print rt →
      ∀ (w : Site) (raw : List Json), w.schedules = [] → w.file = some (.ok (.array raw)) →
        (∀ s ∈ raw, WellFormed s) → (raw.map (fun s => field s "id")).Nodup →
          Shown raw (startup rt w none).site ∧ Alive raw (startup rt w none).site := by
  intro h
  have hformed : ∀ s ∈ [annEntry "sending"], WellFormed s :=
    List.forall_mem_singleton.mpr (wellFormed_annEntry (by decide))
  have hdistinct : ([annEntry "sending"].map (fun s => field s "id")).Nodup :=
    List.nodup_singleton _
  have hrows := schedules_startup faithful_plain hformed hdistinct (w := annSite "sending") rfl rfl
  have halive := (h _ _ faithful_plain (annSite "sending") _ rfl rfl hformed hdistinct).2
  rw [Alive, hrows] at halive
  exact (alive_importedRows faithful_plain hformed).mp halive _ (List.mem_singleton_self _) rfl

end Startup

end WhatsappTester.Continuation
