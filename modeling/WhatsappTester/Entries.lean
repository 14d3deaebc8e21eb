import WhatsappTester.Migration

namespace WhatsappTester.Entries

open Schema Atomic.Program Migration

def field (s : Json) (key : String) : Option Json :=
  match s.get key with
  | .ok v => v
  | .error _ => none

/-- A property of a value that is only looked at when the value is truthy. -/
def inner (value : Option Json) (key : String) : Option Json :=
  if truthy value then value.bind (fun v => field v key) else some .null

def bindable : Option Json → Bool
  | some .null | some (.number _) | some (.string _) => true
  | _ => false

section Values

variable (rt : Runtime) (now : Ms)

def stored (column : Affinity) : Option Json → SqlValue
  | some (.number x) => rt.convert column (.number x)
  | some (.string s) => rt.convert column (.text s)
  | _ => .null

def parameters (id : Option Json) (s : Json) : List (Option Json) :=
  [id, orElse (field s "message") (.string ""), orElse (field s "delaySeconds") (.number 0),
    inner (field s "repeat") "everyValue", inner (field s "repeat") "everyUnit",
    inner (field s "repeat") "endAt", orElse (field s "status") (.string "scheduled"),
    orElse (field s "runAt") (.number now), inner (field s "lastResult") "ranAt",
    orElse (field s "createdAt") (.number now)]

/-- `JSON.stringify(value)`, if the value is truthy, and else `null` -/
def stringified (value : Option Json) : Option Json :=
  if truthy value then value.map (fun v => .string (rt.stringify v)) else some .null

def importedRow (id : Option Json) (s : Json) : Row where
  id := stored rt .text id
  message := stored rt .text (orElse (field s "message") (.string ""))
  recipients := stored rt .text
    ((orElse (field s "recipients") (.array [])).map (fun v => .string (rt.stringify v)))
  delaySeconds := stored rt .integer (orElse (field s "delaySeconds") (.number 0))
  repeatEveryValue := stored rt .integer (inner (field s "repeat") "everyValue")
  repeatEveryUnit := stored rt .text (inner (field s "repeat") "everyUnit")
  repeatEndAt := stored rt .integer (inner (field s "repeat") "endAt")
  status := stored rt .text (orElse (field s "status") (.string "scheduled"))
  nextRunAt := stored rt .integer (orElse (field s "runAt") (.number now))
  lastRunAt := stored rt .integer (inner (field s "lastResult") "ranAt")
  lastResult := stored rt .text (stringified rt (field s "lastResult"))
  createdBy := .null
  createdAt := stored rt .integer (orElse (field s "createdAt") (.number now))
  updatedAt := stored rt .integer (some (.number now))

end Values

/-- An entry of which a row can be made. A missing or falsy value has a default; any
other is a number or a text, but for `repeat` and `lastResult`, which have to have the
properties that are stored of them. -/
structure Importable (s : Json) : Prop where
  object : s ≠ .null
  plain : ∀ key ∈ ["id", "message", "delaySeconds", "status", "runAt", "createdAt"],
    truthy (field s key) = true → bindable (field s key) = true
  rule : ∀ key ∈ ["everyValue", "everyUnit", "endAt"],
    bindable (inner (field s "repeat") key) = true
  result : bindable (inner (field s "lastResult") "ranAt") = true

variable {rt : Runtime} {now : Ms} {s : Json}

theorem get_eq (h : s ≠ .null) (key : String) : s.get key = .ok (field s key) := by
  cases s with
  | null => exact absurd rfl h
  | bool b => rfl
  | number x => rfl
  | string s => rfl
  | array elements => rfl
  | object fields => rfl

theorem within_eq (value : Option Json) (key : String) :
    within value key = .ok (inner value key) := by
  cases value with
  | none => rfl
  | some v =>
    by_cases htrue : truthy (some v) = true
    · have hobject : v ≠ .null := by
        rintro rfl
        cases htrue
      simp [within, inner, htrue, get_eq hobject]
    · simp [within, inner, htrue]

theorem bind_eq (parameter : Nat) (column : Affinity) (value : Option Json) :
    bind rt parameter column value =
      if bindable value then .ok (stored rt column value) else .error (.notBindable parameter) := by
  cases value with
  | none => rfl
  | some v => cases v <;> rfl

theorem bind_ok {α : Type} {parameter : Nat} {column : Affinity} {value : Option Json}
    {next : SqlValue → Except Failure α} {a : α} :
    (bind rt parameter column value >>= next) = .ok a ↔
      bindable value = true ∧ next (stored rt column value) = .ok a := by
  rw [bind_eq]
  by_cases h : bindable value = true
  · rw [if_pos h]
    exact Iff.intro (fun hnext => ⟨h, hnext⟩) (fun hnext => hnext.2)
  · rw [if_neg h]
    exact Iff.intro (fun herror => nomatch herror) (fun hnext => absurd hnext.1 h)

theorem orElse_eq_some (value : Option Json) (other : Json) : ∃ v, orElse value other = some v := by
  cases value with
  | none => exact ⟨other, rfl⟩
  | some v =>
    by_cases htrue : truthy (some v) = true
    · exact ⟨v, if_pos htrue⟩
    · exact ⟨other, if_neg htrue⟩

theorem bindable_stringify (value : Option Json) (other : Json) :
    bindable ((orElse value other).map (fun v => .string (rt.stringify v))) = true := by
  obtain ⟨v, hv⟩ := orElse_eq_some value other
  rw [hv]
  rfl

theorem bindable_stringified (value : Option Json) : bindable (stringified rt value) = true := by
  unfold stringified
  split
  case isTrue htrue =>
    cases value with
    | none => cases htrue
    | some v => rfl
  case isFalse => rfl

theorem bindable_orElse {other : Json} (h : bindable (some other) = true) (value : Option Json) :
    bindable (orElse value other) = true ↔ (truthy value = true → bindable value = true) := by
  unfold orElse
  split
  case isTrue htrue => simp [htrue]
  case isFalse hfalse => simp [hfalse, h]

theorem rowOf_ok {id : Option Json} {row : Row} (h : s ≠ .null) :
    rowOf rt now id s = .ok row ↔
      (∀ v ∈ parameters now id s, bindable v = true) ∧ row = importedRow rt now id s := by
  have hok : ∀ {α β : Type} (a : α) (next : α → Except Failure β),
      (Except.ok a >>= next) = next a := fun _ _ => rfl
  simp only [rowOf, get_eq h, within_eq, hok, bind_ok]
  constructor
  · rintro ⟨hid, hmessage, -, hdelay, hvalue, hunit, hend, hstatus, hrun, hran, -, hcreated, -,
      hrow⟩
    refine ⟨?_, (Except.ok.inj hrow).symm⟩
    simp [parameters, hid, hmessage, hdelay, hvalue, hunit, hend, hstatus, hrun, hran, hcreated]
  · rintro ⟨hall, rfl⟩
    simp only [parameters, List.forall_mem_cons] at hall
    obtain ⟨hid, hmessage, hdelay, hvalue, hunit, hend, hstatus, hrun, hran, hcreated, -⟩ := hall
    exact ⟨hid, hmessage, bindable_stringify _ _, hdelay, hvalue, hunit, hend, hstatus, hrun, hran,
      bindable_stringified _, hcreated, rfl, rfl⟩

def idOf (uuid : Id) (s : Json) : Option Json :=
  if truthy (field s "id") then field s "id" else some (.string (toString uuid))

theorem importable_iff (uuid : Id) :
    Importable s ↔ s ≠ .null ∧ ∀ v ∈ parameters now (idOf uuid s) s, bindable v = true := by
  have hid : bindable (idOf uuid s) = true ↔
      (truthy (field s "id") = true → bindable (field s "id") = true) := by
    unfold idOf
    split
    case isTrue htrue => simp [htrue]
    case isFalse hfalse => simp [hfalse, bindable]
  have hplain : (∀ v ∈ parameters now (idOf uuid s) s, bindable v = true) ↔
      (∀ key ∈ ["id", "message", "delaySeconds", "status", "runAt", "createdAt"],
        truthy (field s key) = true → bindable (field s key) = true) ∧
      (∀ key ∈ ["everyValue", "everyUnit", "endAt"],
        bindable (inner (field s "repeat") key) = true) ∧
      bindable (inner (field s "lastResult") "ranAt") = true := by
    have htext (t : String) := bindable_orElse (show bindable (some (.string t)) = true from rfl)
    have hnumber (x : Rat) := bindable_orElse (show bindable (some (.number x)) = true from rfl)
    simp only [parameters, List.forall_mem_cons, List.not_mem_nil, false_implies, implies_true,
      and_true, hid, hnumber, htext]
    tauto
  rw [hplain]
  exact ⟨fun h => ⟨h.object, h.plain, h.rule, h.result⟩, fun h => ⟨h.1, h.2.1, h.2.2.1, h.2.2.2⟩⟩

end WhatsappTester.Entries
