import WhatsappTester.Atomic.Runs
import WhatsappTester.Schema

namespace WhatsappTester.Auth.Session

open Schema

inductive Role
  | owner
  | admin
  | operator
  | viewer
  | other (name : String)
  deriving DecidableEq, Repr

inductive Permission
  | viewChats
  | sendMessage
  | bulkSend
  | sendGroups
  | manageSchedules
  | uploadSheet
  | exportSheet
  | viewLogs
  | viewAudit
  | manageSession
  | manageSecurity
  deriving DecidableEq, Repr

def roleHasPermission : Role → Permission → Bool
  | .viewer, permission => [Permission.viewChats, .viewLogs].contains permission
  | .operator, permission =>
    [Permission.viewChats, .sendMessage, .bulkSend, .sendGroups, .manageSchedules,
      .uploadSheet, .exportSheet, .viewLogs].contains permission
  | .admin, _ | .owner, _ => true
  | .other _, _ => false

abbrev Sid := Nat

structure Config where
  sessionIdleTimeoutMs : Ms
  sessionAbsoluteTimeoutMs : Ms

def defaultConfig : Config := ⟨30 * 60 * 1000, 8 * 60 * 60 * 1000⟩

/-- What a login writes into `req.session`. Only such a session is ever stored. -/
structure SessionData where
  userId : Nat
  username : String
  role : Role
  lastActivityAt : Ms
  absoluteExpiresAt : Ms
  csrfToken : String
  maxAge : Ms
  deriving DecidableEq, Repr

structure Row where
  sid : Sid
  data : SessionData
  expiresAt : Ms
  deriving DecidableEq, Repr

/-! `SqliteSessionStore` -/

def get (now : Ms) (sid : Sid) (rows : List Row) : Option SessionData :=
  (rows.find? (fun row => decide (row.sid = sid))).bind (fun row =>
    if row.expiresAt < now then none else some row.data)

/-- `INSERT … ON CONFLICT(sid) DO UPDATE` -/
def set (now : Ms) (sid : Sid) (data : SessionData) (rows : List Row) : List Row :=
  let maxAge := if data.maxAge ≠ 0 then data.maxAge else 30 * 60 * 1000
  if rows.any (fun row => decide (row.sid = sid)) then
    Atomic.Table.update (fun row => decide (row.sid = sid))
      (fun _ => ⟨sid, data, now + maxAge⟩) rows
  else rows ++ [⟨sid, data, now + maxAge⟩]

def destroy (sid : Sid) (rows : List Row) : List Row :=
  rows.filter (fun row => decide (row.sid ≠ sid))

def touch (now : Ms) (sid : Sid) (data : SessionData) (rows : List Row) : List Row :=
  set now sid data rows

def sweepExpiredSessions (now : Ms) (rows : List Row) : List Row :=
  rows.filter (fun row => decide (¬ row.expiresAt < now))

/-! `requireAuth` and `requirePermission` -/

/-- `expired` destroys the session; the others come with the session as they leave it. -/
inductive Verdict
  | anonymous
  | expired
  | mismatched (sess : SessionData)
  | forbidden (sess : SessionData)
  | passed (sess : SessionData)
  deriving DecidableEq, Repr

def Verdict.session : Verdict → Option SessionData
  | .anonymous | .expired => none
  | .mismatched sess | .forbidden sess | .passed sess => some sess

def Verdict.authenticated : Verdict → Bool
  | .passed _ | .forbidden _ => true
  | _ => false

/-- `stateChanging` is the test for one of the methods that need a CSRF token,
and `supplied` is the token that comes with the request. -/
def requireAuth (cfg : Config) (now : Ms) (stateChanging : Bool) (supplied : Option String) :
    Option SessionData → Verdict
  | none => .anonymous
  | some sess =>
    if sess.absoluteExpiresAt ≠ 0 ∧ now > sess.absoluteExpiresAt then .expired
    else if sess.lastActivityAt ≠ 0 ∧ now - sess.lastActivityAt >
      cfg.sessionIdleTimeoutMs then .expired
    else if stateChanging ∧ supplied.filter (· ≠ "") ≠ some sess.csrfToken then
      .mismatched { sess with lastActivityAt := now }
    else .passed { sess with lastActivityAt := now }

def requirePermission (cfg : Config) (now : Ms) (permission : Permission) (stateChanging : Bool)
    (supplied : Option String) (session : Option SessionData) : Verdict :=
  match requireAuth cfg now stateChanging supplied session with
  | .passed sess => if roleHasPermission sess.role permission then .passed sess else .forbidden sess
  | verdict => verdict

structure User where
  id : Nat
  username : String
  role : Role
  deriving DecidableEq, Repr

/-- Where a request goes. A login is one of a user, or it is refused; `other` is
whatever asks nothing of the session, as a static file or a request that the rate
limit turns away. -/
inductive Route
  | guarded (permission : Option Permission) (stateChanging : Bool) (supplied : Option String)
  | logout (supplied : Option String)
  | login (user : Option User)
  | index
  | handshake
  | other
  deriving DecidableEq, Repr

/-- A request that is being served. `loaded` is the session as the store gave it,
and `session` is `req.session`, if a login has set it up and nothing has destroyed
it. `revoked` remembers that the session it presents had been destroyed before. -/
structure Request where
  id : Nat
  presented : Option Sid
  route : Route
  sid : Sid
  loaded : Option SessionData
  session : Option SessionData
  acted : Bool
  revoked : Bool
  deriving DecidableEq, Repr

/-- The server with the history of its sessions: those that a logout or an expiry
destroyed, the expiry that each login set, the times at which a login or
`requireAuth` has authenticated a request, those at which a CSRF token was wrong, and
those at which a request on a session ended, with `none` where the session was destroyed. -/
structure Site where
  sessions : List Row := []
  requests : List Request := []
  now : Ms := 0
  nextSid : Sid := 0
  nextRequest : Nat := 0
  uuid : Id := 0
  destroyed : List Sid := []
  expiries : List (Sid × Ms) := []
  auths : List (Sid × Ms) := []
  mismatches : List (Sid × Ms) := []
  ends : List (Sid × Option Ms) := []
  deriving DecidableEq, Repr

def load (s : Site) (presented : Option Sid) : Option SessionData :=
  presented.bind (fun sid => get s.now sid s.sessions)

/-- The session middleware at the start of a request. Without a stored session it
generates a new one. -/
def arrive (s : Site) (presented : Option Sid) (route : Route) : Site :=
  let loaded := load s presented
  { s with
    nextRequest := s.nextRequest + 1
    nextSid := s.nextSid + 1
    requests := s.requests ++
      [{ id := s.nextRequest
         presented
         route
         sid := if loaded.isSome then presented.getD s.nextSid else s.nextSid
         loaded
         session := loaded
         acted := false
         revoked := presented.any (fun sid => s.destroyed.contains sid) }] }

def put (s : Site) (r : Request) : Site :=
  { s with requests := Atomic.Table.update (fun x => decide (x.id = r.id)) (fun _ => r) s.requests }

/-- `req.session.destroy` -/
def destroySession (s : Site) (r : Request) : Site :=
  put
    { s with
      sessions := destroy r.sid s.sessions
      destroyed := r.sid :: s.destroyed
      ends := (r.sid, none) :: s.ends }
    { r with session := none, acted := true }

def runGuard (s : Site) (r : Request) : Verdict → Site
  | .anonymous => put s { r with acted := true }
  | .expired => destroySession s r
  | .mismatched sess =>
    put { s with mismatches := (r.sid, s.now) :: s.mismatches } { r with session := some sess, acted := true }
  | .forbidden sess | .passed sess =>
    put { s with auths := (r.sid, s.now) :: s.auths } { r with session := some sess, acted := true }

def login (cfg : Config) (s : Site) (r : Request) (user : User) : Site :=
  let absoluteExpiresAt := s.now + cfg.sessionAbsoluteTimeoutMs
  put
    { s with
      sessions := destroy r.sid s.sessions
      nextSid := s.nextSid + 1
      uuid := s.uuid + 1
      expiries := (s.nextSid, absoluteExpiresAt) :: s.expiries
      auths := (s.nextSid, s.now) :: s.auths
      ends := (r.sid, none) :: s.ends }
    { r with
      sid := s.nextSid
      session := some ⟨user.id, user.username, user.role, s.now, absoluteExpiresAt, toString s.uuid,
        cfg.sessionIdleTimeoutMs⟩
      acted := true }

def verdict (cfg : Config) (now : Ms) (r : Request) : Verdict :=
  match r.route with
  | .guarded (some permission) stateChanging supplied =>
    requirePermission cfg now permission stateChanging supplied r.session
  | .guarded none stateChanging supplied => requireAuth cfg now stateChanging supplied r.session
  | .logout supplied => requireAuth cfg now true supplied r.session
  | _ => .anonymous

/-- A request comes to the guard of its route, and past it to `/login` or `/logout`. -/
def actOn (cfg : Config) (s : Site) (r : Request) : Site :=
  match r.route with
  | .guarded .. => runGuard s r (verdict cfg s.now r)
  | .logout _ =>
    match verdict cfg s.now r with
    | .passed sess => destroySession { s with auths := (r.sid, s.now) :: s.auths }
        { r with session := some sess }
    | verdict => runGuard s r verdict
  | .login (some user) => login cfg s r user
  | .login none | .index | .handshake | .other => put s { r with acted := true }

def request (s : Site) (id : Nat) : Option Request := s.requests.find? (fun r => decide (r.id = id))

def act (cfg : Config) (s : Site) (id : Nat) : Site :=
  match request s id with
  | some r => if r.acted then s else actOn cfg s r
  | none => s

/-- The session middleware at the end of a request: a session that was changed is
saved and any other is touched. -/
def save (s : Site) (r : Request) : List Row :=
  match r.session with
  | none => s.sessions
  | some data => if r.loaded = some data then touch s.now r.sid data s.sessions
      else set s.now r.sid data s.sessions

def finish (s : Site) (id : Nat) : Site :=
  match request s id with
  | some r =>
    { s with
      sessions := save s r
      requests := s.requests.filter (fun x => decide (x.id ≠ id))
      ends := if r.session.isSome then (r.sid, some s.now) :: s.ends else s.ends }
  | none => s

inductive Action
  | arrive (presented : Option Sid) (route : Route)
  | act (id : Nat)
  | finish (id : Nat)
  | sweep
  | restart
  | wait (ms : Nat)
  deriving DecidableEq, Repr

def step (cfg : Config) (s : Site) : Action → Site
  | .arrive presented route => arrive s presented route
  | .act id => act cfg s id
  | .finish id => finish s id
  | .sweep => { s with sessions := sweepExpiredSessions s.now s.sessions }
  | .restart => { s with requests := [] }
  | .wait ms => { s with now := s.now + ms }

theorem get_some {now : Ms} {sid : Sid} {rows : List Row} {data : SessionData}
    (h : get now sid rows = some data) :
    ∃ row ∈ rows, row.sid = sid ∧ row.data = data ∧ now ≤ row.expiresAt := by
  obtain ⟨row, hfind, hrow⟩ := Option.bind_eq_some_iff.mp h
  split at hrow
  · simp at hrow
  · next hlive =>
    exact ⟨row, List.mem_of_find?_eq_some hfind,
      by simpa using List.find?_some hfind, by simpa using hrow, Int.not_lt.mp hlive⟩

theorem mem_set_iff {now : Ms} {sid : Sid} {data : SessionData} {rows : List Row} {row : Row} :
    row ∈ set now sid data rows ↔ (row ∈ rows ∧ row.sid ≠ sid) ∨
      row = ⟨sid, data, now + if data.maxAge ≠ 0 then data.maxAge else 30 * 60 * 1000⟩ := by
  simp only [set]
  split
  case isTrue hany =>
    obtain ⟨old, hold, hsid⟩ := List.any_eq_true.mp hany
    rw [Atomic.Table.mem_update]
    constructor
    · rintro ⟨x, hx, rfl⟩
      by_cases hxsid : x.sid = sid
      · exact .inr (if_pos (decide_eq_true hxsid))
      · rw [if_neg (by simpa using hxsid)]
        exact .inl ⟨hx, hxsid⟩
    · rintro (⟨hrow, hne⟩ | rfl)
      · exact ⟨row, hrow, if_neg (by simpa using hne)⟩
      · exact ⟨old, hold, if_pos hsid⟩
  case isFalse hnone =>
    have hothers : ∀ x ∈ rows, x.sid ≠ sid :=
      fun x hx hsid => hnone (List.any_eq_true.mpr ⟨x, hx, decide_eq_true hsid⟩)
    rw [List.mem_append, List.mem_singleton]
    exact or_congr_left ⟨fun hrow => ⟨hrow, hothers row hrow⟩, And.left⟩

theorem mem_set {now : Ms} {sid : Sid} {data : SessionData} {rows : List Row} {row : Row}
    (h : row ∈ set now sid data rows) : row ∈ rows ∨ row.sid = sid ∧ row.data = data := by
  obtain ⟨hrow, -⟩ | rfl := mem_set_iff.mp h
  · exact .inl hrow
  · exact .inr ⟨rfl, rfl⟩

theorem mem_destroy {sid : Sid} {rows : List Row} {row : Row} (h : row ∈ destroy sid rows) :
    row ∈ rows ∧ row.sid ≠ sid := by
  obtain ⟨hmem, hne⟩ := List.mem_filter.mp h
  exact ⟨hmem, of_decide_eq_true hne⟩

theorem load_some {s : Site} {presented : Option Sid} {data : SessionData}
    (h : load s presented = some data) :
    ∃ sid, presented = some sid ∧ ∃ row ∈ s.sessions, row.sid = sid ∧ row.data = data ∧
    s.now ≤ row.expiresAt := by
  obtain ⟨sid, hsid, hget⟩ := Option.bind_eq_some_iff.mp h
  exact ⟨sid, hsid, get_some hget⟩

theorem mem_put {s : Site} {r x : Request} (h : x ∈ (put s r).requests) :
    x ∈ s.requests ∨ x = r := by
  obtain ⟨old, hold, rfl⟩ := Atomic.Table.mem_update.mp h
  split
  · exact .inr rfl
  · exact .inl hold

theorem save_set {s : Site} {r : Request} {data : SessionData} (h : r.session = some data) :
    save s r = set s.now r.sid data s.sessions := by
  simp only [save, h]
  split <;> rfl

theorem mem_save {s : Site} {r : Request} {row : Row} (h : row ∈ save s r) :
    row ∈ s.sessions ∨ ∃ data, r.session = some data ∧ row.sid = r.sid ∧ row.data = data := by
  cases hsession : r.session with
  | none =>
    rw [save, hsession] at h
    exact .inl h
  | some data =>
    rw [save_set hsession] at h
    exact (mem_set h).imp id (fun hrow => ⟨data, rfl, hrow⟩)

theorem request_mem {s : Site} {id : Nat} {r : Request} (h : request s id = some r) :
    r ∈ s.requests :=
  List.mem_of_find?_eq_some h

/-- What the guard leaves of a session is the session with the time of the request. -/
theorem requireAuth_session {cfg : Config} {now : Ms} {stateChanging : Bool}
    {supplied : Option String} {session : Option SessionData} {sess : SessionData}
    (h : (requireAuth cfg now stateChanging supplied session).session = some sess) :
    ∃ data, session = some data ∧ sess = { data with lastActivityAt := now } := by
  cases session with
  | none => simp [requireAuth, Verdict.session] at h
  | some data =>
    simp only [requireAuth] at h
    split at h
    · simp [Verdict.session] at h
    · split at h
      · simp [Verdict.session] at h
      · split at h <;> exact ⟨data, rfl, (Option.some.inj h).symm⟩

/-- The guard lets a request past only within both time limits. -/
theorem requireAuth_authenticated {cfg : Config} {now : Ms} {stateChanging : Bool}
    {supplied : Option String} {session : Option SessionData}
    (h : (requireAuth cfg now stateChanging supplied session).authenticated = true) :
    ∃ data, session = some data ∧ (data.absoluteExpiresAt ≠ 0 → now ≤ data.absoluteExpiresAt) ∧
      (data.lastActivityAt ≠ 0 → now - data.lastActivityAt ≤ cfg.sessionIdleTimeoutMs) := by
  cases session with
  | none => simp [requireAuth, Verdict.authenticated] at h
  | some data =>
    simp only [requireAuth] at h
    split at h
    · simp [Verdict.authenticated] at h
    · next habsolute =>
      split at h
      · simp [Verdict.authenticated] at h
      · next hidle =>
        refine ⟨data, rfl, fun hne => ?_, fun hne => ?_⟩
        · exact Int.not_lt.mp (fun hlt => habsolute ⟨hne, hlt⟩)
        · exact Int.not_lt.mp (fun hlt => hidle ⟨hne, hlt⟩)

/-- A permission that is missing changes nothing in what the guard did. -/
theorem requirePermission_session (cfg : Config) (now : Ms) (permission : Permission)
    (stateChanging : Bool) (supplied : Option String) (session : Option SessionData) :
    (requirePermission cfg now permission stateChanging supplied session).session =
      (requireAuth cfg now stateChanging supplied session).session ∧
    (requirePermission cfg now permission stateChanging supplied session).authenticated =
      (requireAuth cfg now stateChanging supplied session).authenticated := by
  unfold requirePermission
  split
  · next sess h =>
    rw [h]
    split <;> exact ⟨rfl, rfl⟩
  · exact ⟨rfl, rfl⟩

theorem verdict_session {cfg : Config} {now : Ms} {r : Request} {sess : SessionData}
    (h : (verdict cfg now r).session = some sess) :
    ∃ data, r.session = some data ∧ sess = { data with lastActivityAt := now } := by
  unfold verdict at h
  split at h
  · rw [(requirePermission_session ..).1] at h
    exact requireAuth_session h
  · exact requireAuth_session h
  · exact requireAuth_session h
  · simp [Verdict.session] at h

theorem verdict_authenticated {cfg : Config} {now : Ms} {r : Request}
    (h : (verdict cfg now r).authenticated = true) :
    ∃ data, r.session = some data ∧ (data.absoluteExpiresAt ≠ 0 → now ≤ data.absoluteExpiresAt) ∧
      (data.lastActivityAt ≠ 0 → now - data.lastActivityAt ≤ cfg.sessionIdleTimeoutMs) := by
  unfold verdict at h
  split at h
  · rw [(requirePermission_session ..).2] at h
    exact requireAuth_authenticated h
  · exact requireAuth_authenticated h
  · exact requireAuth_authenticated h
  · simp [Verdict.authenticated] at h

end WhatsappTester.Auth.Session
