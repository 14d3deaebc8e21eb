import WhatsappTester.State

namespace WhatsappTester.KillSwitch

open Schema State Atomic.Program

def settingKey : String := "outbound_disabled"
def reasonKey : String := "outbound_disabled_reason"

def setting (db : Db) (key : String) : Option Setting := Atomic.Table.find (·.key) key db.settings

def outboundDisabled (db : Db) : Bool :=
  (setting db settingKey).any (fun row => row.value == "true")

def isOutboundDisabled : Code Bool := query (fun w => outboundDisabled w.shared.db)

/-- `INSERT … ON CONFLICT(key) DO UPDATE` -/
def upsertSetting (s : Setting) (rows : List Setting) : List Setting :=
  if rows.any (fun row => decide (row.key = s.key)) then
    Atomic.Table.update (fun row => decide (row.key = s.key)) (fun _ => s) rows
  else rows ++ [s]

def recordAudit (row : Ms → AuditRow) : Code Unit := do
  let ts ← dateNow
  exec (fun w => { w with shared.db.auditLog := w.shared.db.auditLog ++ [row ts] })

/-- `String(disabled)` -/
def switchValue (disabled : Bool) : String := if disabled then "true" else "false"

/-- The history dates the switching off from the first statement and the
switching on from the return. -/
def setOutboundDisabled (disabled : Bool) (actor reason : Option String) (requestId : Option Id) :
    Code Unit := do
  let now ← dateNow
  exec (fun w =>
    { w with
      shared.db.settings :=
        upsertSetting ⟨settingKey, switchValue disabled, now, actor⟩ w.shared.db.settings
      shared.trace := if disabled then w.shared.trace else .outbound false :: w.shared.trace })
  exec (fun w =>
    { w with
      shared.db.settings :=
        upsertSetting ⟨reasonKey, reason.getD "", now, actor⟩ w.shared.db.settings })
  recordAudit (fun ts =>
    ⟨ts, actor, if disabled then "kill_switch_enabled" else "kill_switch_disabled", none, "success",
      requestId, (reason.filter (· ≠ "")).map (fun r => ("reason", r))⟩)
  if disabled then record (fun _ => .outbound true) else pure ()

theorem find_upsert (s : Setting) (key : String) (rows : List Setting) :
    Atomic.Table.find (·.key) key (upsertSetting s rows) =
      if s.key = key then some s else Atomic.Table.find (·.key) key rows := by
  simp only [upsertSetting]
  split
  case isTrue hany =>
    rw [Atomic.Table.find_update (by simp +contextual [eq_comm])]
    cases hfind : Atomic.Table.find (·.key) key rows with
    | none =>
      obtain ⟨row, hrow, hkey⟩ := List.any_eq_true.mp hany
      have hne : s.key ≠ key := fun heq =>
        Atomic.Table.find_none.mp hfind row hrow ((of_decide_eq_true hkey).trans heq)
      simp [hne]
    | some row =>
      by_cases hkey : s.key = key
      · simp [hkey, (Atomic.Table.find_mem hfind).2]
      · simp [hkey, (Atomic.Table.find_mem hfind).2, Ne.symm hkey]
  case isFalse hnone =>
    rw [Atomic.Table.find_append]
    by_cases hkey : s.key = key
    · have hfind : Atomic.Table.find (·.key) key rows = none :=
        Atomic.Table.find_none.mpr (fun row hrow heq =>
          hnone (List.any_eq_true.mpr ⟨row, hrow, decide_eq_true (heq.trans hkey.symm)⟩))
      rw [hfind]
      simp [hkey, Atomic.Table.find]
    · simp [hkey, Atomic.Table.find]

/-- A setting written is a setting read. -/
theorem outboundDisabled_upsert (disabled : Bool) (now : Ms) (actor : Option String) (db : Db) :
    outboundDisabled { db with
      settings := upsertSetting ⟨settingKey, switchValue disabled, now, actor⟩ db.settings } =
      disabled := by
  rw [outboundDisabled, setting, find_upsert]
  cases disabled <;> rfl

/-- The reason is kept under a key of its own. -/
theorem outboundDisabled_reason (value : String) (now : Ms) (actor : Option String) (db : Db) :
    outboundDisabled { db with
      settings := upsertSetting ⟨reasonKey, value, now, actor⟩ db.settings } =
      outboundDisabled db := by
  have hne : reasonKey ≠ settingKey := by decide
  rw [outboundDisabled, setting, find_upsert, if_neg hne, outboundDisabled, setting]

theorem ends_setOutboundDisabled (disabled : Bool) (actor reason : Option String)
    (requestId : Option Id) (w : World) : Ends (setOutboundDisabled disabled actor reason requestId)
      (fun _ w' => outboundDisabled w'.shared.db = disabled) w := by
  have hswitch := outboundDisabled_upsert disabled w.shared.now actor w.shared.db
  have hreason := fun db => outboundDisabled_reason (reason.getD "") w.shared.now actor db
  simp only [Ends, setOutboundDisabled, recordAudit, dateNow, wp_bind, wp_query, wp_exec,
    forall_eq', true_and]
  split
  · rintro _ rfl
    exact ⟨trivial, (hreason _).trans hswitch⟩
  · exact (hreason _).trans hswitch

end WhatsappTester.KillSwitch
