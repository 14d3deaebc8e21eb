import WhatsappTester.Atomic.Expiring
import WhatsappTester.Atomic.Mirror
import WhatsappTester.Auth.Session

namespace WhatsappTester.Auth.Sweeping

open Schema Session Atomic Atomic.Runs Atomic.Expiring

abbrev Same (now : Ms) (rows rows' : List Row) : Prop :=
  Alike (fun row => row.sid) (fun row => row.expiresAt) now rows rows'

/-- The same server but for sessions that have expired. -/
def Unswept (s t : Site) : Prop :=
  ∃ rows, t = { s with sessions := rows } ∧ Same s.now s.sessions rows

variable {cfg : Config} {s t : Site} {now : Ms} {rows rows' : List Row} {sid : Sid}
  {data : SessionData} {r : Request}

theorem get_live (now : Ms) (sid : Sid) (rows : List Row) : get now sid rows =
    (live (fun row => row.sid) (fun row => row.expiresAt) now sid rows).map
      (fun row => row.data) := by
  rw [Session.get, live, Table.find]
  cases rows.find? (fun row => decide (row.sid = sid)) with
  | none => rfl
  | some row =>
    by_cases h : row.expiresAt < now
    · simp [Option.filter, fresh, h]
    · simp [Option.filter, fresh, h]

theorem load_same (h : Same s.now s.sessions rows) (presented : Option Sid) :
    load { s with sessions := rows } presented = load s presented := by
  rw [load, load]
  congr 1
  funext sid
  rw [get_live, get_live, h.live]

def written (now : Ms) (sid : Sid) (data : SessionData) : Row :=
  ⟨sid, data, now + if data.maxAge ≠ 0 then data.maxAge else 30 * 60 * 1000⟩

theorem set_written (now : Ms) (sid : Sid) (data : SessionData) (rows : List Row) :
    Session.set now sid data rows =
      if rows.any (fun row => decide (row.sid = sid)) then
        Table.update (fun row => decide (row.sid = sid)) (fun _ => written now sid data) rows
      else rows ++ [written now sid data] := rfl

theorem nodup_set (hn : (rows.map (fun row => row.sid)).Nodup) :
    ((Session.set now sid data rows).map (fun row => row.sid)).Nodup := by
  rw [set_written]
  split
  · rw [Table.map_update (fun row hrow => (of_decide_eq_true hrow).symm)]
    exact hn
  · next hnone =>
    rw [List.map_append, List.nodup_append]
    refine ⟨hn, List.nodup_singleton _, fun a ha b hb hab => hnone ?_⟩
    obtain ⟨row, hrow, rfl⟩ := List.mem_map.mp ha
    exact List.any_eq_true.mpr ⟨row, hrow, decide_eq_true (hab.trans (List.mem_singleton.mp hb))⟩

theorem find_set (now : Ms) (sid : Sid) (data : SessionData) (rows : List Row) (j : Sid) :
    Table.find (fun row : Row => row.sid) j (Session.set now sid data rows) =
      if j = sid then some (written now sid data) else Table.find (fun row => row.sid) j rows := by
  rw [set_written]
  split
  · next hany =>
    rw [Table.find_update (fun row hrow => (of_decide_eq_true hrow).symm)]
    by_cases hj : j = sid
    · subst hj
      cases hfind : Table.find (fun row : Row => row.sid) j rows with
      | none =>
        obtain ⟨row, hrow, hsid⟩ := List.any_eq_true.mp hany
        exact absurd (of_decide_eq_true hsid) (Table.find_none.mp hfind row hrow)
      | some row => simp [(Table.find_mem hfind).2]
    · cases hfind : Table.find (fun row : Row => row.sid) j rows with
      | none => simp [hj]
      | some row =>
        obtain ⟨-, rfl⟩ := Table.find_mem hfind
        simp [hj]
  · next hnone =>
    rw [Table.find_append]
    by_cases hj : j = sid
    · subst hj
      have hfind : Table.find (fun row : Row => row.sid) j rows = none :=
        Table.find_none.mpr (fun row hrow hsid =>
          hnone (List.any_eq_true.mpr ⟨row, hrow, decide_eq_true hsid⟩))
      rw [hfind, Option.none_or]
      simp [Table.find, written]
    · simp [hj, Table.find, written, Ne.symm hj]

theorem same_set (h : Same now rows rows') :
    Same now (Session.set now sid data rows) (Session.set now sid data rows') :=
  alike_write h (nodup_set h.left) (nodup_set h.right) (find_set now sid data rows)
    (find_set now sid data rows')

theorem same_destroy (h : Same now rows rows') (sid : Sid) :
    Same now (destroy sid rows) (destroy sid rows') :=
  alike_write h (h.left.sublist (List.filter_sublist.map _))
    (h.right.sublist (List.filter_sublist.map _)) (fun j => Mirror.find_filter_ne j sid rows)
    (fun j => Mirror.find_filter_ne j sid rows')

theorem unswept_runGuard (h : Unswept s t) (r : Request) (v : Verdict) :
    Unswept (runGuard s r v) (runGuard t r v) := by
  obtain ⟨rows, rfl, hrows⟩ := h
  cases v with
  | expired => exact ⟨_, rfl, same_destroy hrows r.sid⟩
  | anonymous | mismatched sess | forbidden sess | passed sess => exact ⟨_, rfl, hrows⟩

theorem unswept_actOn (h : Unswept s t) (r : Request) :
    Unswept (actOn cfg s r) (actOn cfg t r) := by
  obtain ⟨rows, rfl, hrows⟩ := h
  have hguard := unswept_runGuard ⟨rows, rfl, hrows⟩ r (verdict cfg s.now r)
  unfold actOn
  split
  · exact hguard
  · cases hverdict : verdict cfg s.now r with
    | passed sess => exact ⟨_, rfl, same_destroy hrows r.sid⟩
    | _ =>
      rw [hverdict] at hguard
      exact hguard
  · exact ⟨_, rfl, same_destroy hrows r.sid⟩
  all_goals exact ⟨_, rfl, hrows⟩

theorem same_save (h : Same s.now s.sessions rows) (r : Request) :
    Same s.now (save s r) (save { s with sessions := rows } r) := by
  unfold save
  split
  · exact h
  · split
    · exact same_set h
    · exact same_set h

theorem unswept_act (h : Unswept s t) (id : Nat) : Unswept (act cfg s id) (act cfg t id) := by
  obtain ⟨rows, rfl, hrows⟩ := h
  have hrequest : request { s with sessions := rows } id = request s id := rfl
  rw [act, act, hrequest]
  cases request s id with
  | none => exact ⟨rows, rfl, hrows⟩
  | some r =>
    by_cases hacted : r.acted = true
    · simp only [hacted, if_true]
      exact ⟨rows, rfl, hrows⟩
    · simp only [hacted]
      exact unswept_actOn ⟨rows, rfl, hrows⟩ r

theorem unswept_finish (h : Unswept s t) (id : Nat) : Unswept (finish s id) (finish t id) := by
  obtain ⟨rows, rfl, hrows⟩ := h
  have hrequest : request { s with sessions := rows } id = request s id := rfl
  rw [finish, finish, hrequest]
  cases request s id with
  | none => exact ⟨rows, rfl, hrows⟩
  | some r => exact ⟨_, rfl, same_save hrows r⟩

theorem unswept_step (h : Unswept s t) (a : Session.Action) :
    Unswept (step cfg s a) (step cfg t a) := by
  cases a with
  | act id => exact unswept_act h id
  | finish id => exact unswept_finish h id
  | arrive presented route =>
    obtain ⟨rows, rfl, hrows⟩ := h
    refine ⟨rows, ?_, hrows⟩
    simp only [step, arrive, load_same hrows]
  | sweep =>
    obtain ⟨rows, rfl, hrows⟩ := h
    exact ⟨_, rfl, alike_symm (alike_sweep (alike_symm (alike_sweep hrows)))⟩
  | restart =>
    obtain ⟨rows, rfl, hrows⟩ := h
    exact ⟨rows, rfl, hrows⟩
  | wait ms =>
    obtain ⟨rows, rfl, hrows⟩ := h
    exact ⟨rows, rfl, alike_later hrows (Int.le.intro ms rfl)⟩

theorem unswept_sweep (h : Unswept s t) : Unswept (step cfg s .sweep) t := by
  obtain ⟨rows, rfl, hrows⟩ := h
  exact ⟨rows, rfl, alike_sweep hrows⟩

def isSweep : Session.Action → Bool
  | .sweep => true
  | _ => false

theorem unswept_play (h : Unswept s t) (as : List Session.Action) :
    Unswept (play (step cfg) s as) (play (step cfg) t (as.filter (fun a => !isSweep a))) := by
  induction as generalizing s t with
  | nil => exact h
  | cons a as ih =>
    cases a with
    | sweep => exact ih (unswept_sweep h)
    | _ => exact ih (unswept_step h _)

/-- Whenever `sweepExpiredSessions` runs and however often, all requests are served as if it
never ran: they hold the same sessions, get the same verdicts and leave the same history. -/
theorem sweeps_unnoticed (cfg : Config) (now : Ms) (as : List Session.Action) :
    let s := play (step cfg) { now } as
    let t := play (step cfg) { now } (as.filter (fun a => !isSweep a))
    { s with sessions := [] } = { t with sessions := [] } ∧
      (∀ presented, load s presented = load t presented) ∧
      ∀ id, (request s id).map (verdict cfg s.now) = (request t id).map (verdict cfg t.now) := by
  intro s t
  have hstart : Unswept { now } { now } := ⟨[], rfl, ⟨List.nodup_nil, List.nodup_nil, fun _ => rfl⟩⟩
  obtain ⟨rows, ht, hrows⟩ : Unswept s t := unswept_play hstart as
  clear_value s t
  subst ht
  exact ⟨rfl, fun presented => (load_same hrows presented).symm, fun id => rfl⟩

end WhatsappTester.Auth.Sweeping
