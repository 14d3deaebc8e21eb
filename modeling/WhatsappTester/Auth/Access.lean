import Mathlib
import WhatsappTester.Atomic.History
import WhatsappTester.Auth.Session

namespace WhatsappTester.Auth.Access

open Schema Session Atomic.Runs Atomic.History

inductive Method
  | get
  | post
  | put
  | patch
  | delete
  deriving DecidableEq, Repr

/-- `UNSAFE_METHODS` -/
def Method.stateChanging : Method → Bool
  | .get => false
  | .post | .put | .patch | .delete => true

inductive Endpoint
  | me
  | logout
  | status
  | contacts
  | chats
  | chatMessages
  | chatSend
  | send
  | sendGroups
  | parseSheet
  | sendBulk
  | buildSheet
  | schedules
  | createSchedule
  | removeSchedule
  | killSwitch
  | setKillSwitch
  deriving DecidableEq, Repr

namespace Endpoint

def method : Endpoint → Method
  | .me | .status | .contacts | .chats | .chatMessages | .schedules | .killSwitch => .get
  | .removeSchedule => .delete
  | .logout | .chatSend | .send | .sendGroups | .parseSheet | .sendBulk | .buildSheet
  | .createSchedule | .setKillSwitch => .post

/-- `requireAuth` alone stands before the first two. -/
def permission : Endpoint → Option Permission
  | .me | .logout => none
  | .status | .contacts | .chats | .chatMessages => some .viewChats
  | .chatSend | .send => some .sendMessage
  | .sendGroups => some .sendGroups
  | .parseSheet => some .uploadSheet
  | .sendBulk => some .bulkSend
  | .buildSheet => some .exportSheet
  | .schedules | .createSchedule | .removeSchedule => some .manageSchedules
  | .killSwitch | .setKillSwitch => some .manageSecurity

def route (e : Endpoint) (supplied : Option String) : Route :=
  if e = .logout then .logout supplied
  else .guarded e.permission e.method.stateChanging supplied

end Endpoint

def LogsIn (user : User) (s : Site) : Session.Action → Prop
  | .act id => ∃ r ∈ request s id, r.acted = false ∧ r.route = .login (some user)
  | _ => False

structure Issued (cfg : Config) (s : Site) (user : User) (sid : Sid) (data : SessionData) :
    Prop where
  sid : sid = s.nextSid
  userId : data.userId = user.id
  username : data.username = user.username
  role : data.role = user.role
  csrfToken : data.csrfToken = toString s.uuid
  absoluteExpiresAt : data.absoluteExpiresAt = s.now + cfg.sessionAbsoluteTimeoutMs

variable {cfg : Config} {start s t : Site} {as : List Session.Action} {a : Session.Action}
  {user : User} {r : Request} {row : Row} {sid : Sid} {data sess : SessionData}

def Stems (cfg : Config) (start : Site) (as : List Session.Action) (sid : Sid)
    (data : SessionData) : Prop :=
  ∃ user before a, At (LogsIn user) (step cfg) start as before a ∧
    Issued cfg (play (step cfg) start before) user sid data

theorem stems_append (h : Stems cfg start as sid data) (bs : List Session.Action) :
    Stems cfg start (as ++ bs) sid data := by
  obtain ⟨user, before, a, hat, hissued⟩ := h
  exact ⟨user, before, a, at_append hat bs, hissued⟩

theorem issued_active (h : Issued cfg s user sid data) (now : Ms) :
    Issued cfg s user sid { data with lastActivityAt := now } :=
  ⟨h.sid, h.userId, h.username, h.role, h.csrfToken, h.absoluteExpiresAt⟩

theorem stems_active (h : Stems cfg start as sid data) (now : Ms) :
    Stems cfg start as sid { data with lastActivityAt := now } := by
  obtain ⟨user, before, a, hat, hissued⟩ := h
  exact ⟨user, before, a, hat, issued_active hissued now⟩

/-- Every session that is stored or held stems from a login, and one that a request
has brought with it stems from a login that came before the request. -/
structure Traced (cfg : Config) (start : Site) (as : List Session.Action) (s : Site) : Prop where
  rows : ∀ row ∈ s.sessions, Stems cfg start as row.sid row.data
  copies : ∀ r ∈ s.requests, ∀ data ∈ r.session, Stems cfg start as r.sid data
  fresh : ∀ r ∈ s.requests, r.acted = false → ∃ earlier presented later,
    as = earlier ++ .arrive presented r.route :: later ∧
      (play (step cfg) start earlier).nextRequest = r.id ∧
      ∀ data ∈ r.session, presented = some r.sid ∧ Stems cfg start earlier r.sid data

theorem rows_runGuard {v : Verdict} (h : row ∈ (runGuard s r v).sessions) : row ∈ s.sessions := by
  cases v with
  | expired => exact (mem_destroy h).1
  | anonymous | mismatched sess | forbidden sess | passed sess => exact h

theorem rows_actOn (h : row ∈ (actOn cfg s r).sessions) : row ∈ s.sessions := by
  unfold actOn at h
  split at h
  · exact rows_runGuard h
  · split at h
    · exact (mem_destroy h).1
    · exact rows_runGuard h
  · exact (mem_destroy h).1
  all_goals exact h

theorem rows_step (h : row ∈ (step cfg s a).sessions) : row ∈ s.sessions ∨
    ∃ r ∈ s.requests, ∃ data, r.session = some data ∧ row.sid = r.sid ∧ row.data = data := by
  cases a with
  | act id =>
    left
    simp only [step, act] at h
    split at h
    · split at h
      · exact h
      · exact rows_actOn h
    · exact h
  | finish id =>
    simp only [step, finish] at h
    split at h
    · next r hr =>
      obtain hold | ⟨data, hdata, hsid, hrow⟩ := mem_save h
      · exact .inl hold
      · exact .inr ⟨r, request_mem hr, data, hdata, hsid, hrow⟩
    · exact .inl h
  | arrive presented route => exact .inl h
  | sweep => exact .inl (List.mem_filter.mp h).1
  | restart => exact .inl h
  | wait ms => exact .inl h

/-- What a request holds after it has come to its guard: the session it had, with the
time of the request, or the one that its login has set up. -/
structure Acted (cfg : Config) (s : Site) (r r' : Request) : Prop where
  acted : r'.acted = true
  session : ∀ data ∈ r'.session, (r'.sid = r.sid ∧ ∃ data₀ ∈ r.session,
      data = data₀ ∨ data = { data₀ with lastActivityAt := s.now }) ∨
    ∃ user, r.route = .login (some user) ∧ Issued cfg s user r'.sid data

theorem acted_same (hacted : r.acted = true) {r₀ : Request} (hsid : r.sid = r₀.sid)
    (hsession : r.session = r₀.session) : Acted cfg s r₀ r :=
  ⟨hacted, fun data hdata => .inl ⟨hsid, data, hsession ▸ hdata, .inl rfl⟩⟩

theorem acted_runGuard {x : Request} {v : Verdict} (hv : verdict cfg s.now r = v)
    (h : x ∈ (runGuard s r v).requests) : x ∈ s.requests ∨ Acted cfg s r x := by
  have hactive : ∀ {s' : Site} {sess : SessionData}, s'.requests = s.requests →
      v.session = some sess → x ∈ (put s' { r with session := some sess, acted := true }).requests →
      x ∈ s.requests ∨ Acted cfg s r x := by
    intro s' sess hrequests hsess hx
    obtain hold | rfl := mem_put hx
    · exact .inl (hrequests ▸ hold)
    · obtain ⟨data, hdata, hactive⟩ := verdict_session (hv ▸ hsess)
      refine .inr ⟨rfl, fun data' hdata' => .inl ⟨rfl, data, hdata, .inr ?_⟩⟩
      exact (Option.some.inj hdata').symm.trans hactive
  cases v with
  | anonymous =>
    obtain hold | rfl := mem_put h
    · exact .inl hold
    · exact .inr (acted_same rfl rfl rfl)
  | expired =>
    obtain hold | rfl := mem_put h
    · exact .inl hold
    · exact .inr ⟨rfl, by simp⟩
  | mismatched sess => exact @hactive { s with mismatches := _ } sess rfl rfl h
  | forbidden sess => exact @hactive { s with auths := _ } sess rfl rfl h
  | passed sess => exact @hactive { s with auths := _ } sess rfl rfl h

theorem acted_actOn {x : Request} (h : x ∈ (actOn cfg s r).requests) :
    x ∈ s.requests ∨ Acted cfg s r x := by
  have hplain : x ∈ (put s { r with acted := true }).requests →
      x ∈ s.requests ∨ Acted cfg s r x := by
    intro hx
    obtain hold | rfl := mem_put hx
    · exact .inl hold
    · exact .inr (acted_same rfl rfl rfl)
  unfold actOn at h
  split at h
  · exact acted_runGuard rfl h
  · split at h
    · obtain hold | rfl := mem_put h
      · exact .inl hold
      · exact .inr ⟨rfl, by simp⟩
    · exact acted_runGuard rfl h
  · next user hroute =>
    obtain hold | rfl := mem_put h
    · exact .inl hold
    · refine .inr ⟨rfl, fun data hdata => .inr ⟨user, hroute, ?_⟩⟩
      rw [← Option.some.inj hdata]
      exact ⟨rfl, rfl, rfl, rfl, rfl, rfl⟩
  all_goals exact hplain h

theorem requests_step (h : r ∈ (step cfg s a).requests) : r ∈ s.requests ∨
    (∃ presented, a = .arrive presented r.route ∧ r.id = s.nextRequest ∧ r.acted = false ∧
      ∀ data ∈ r.session, presented = some r.sid ∧ load s presented = some data) ∨
    ∃ id, a = .act id ∧ ∃ r₀ ∈ request s id, r₀.acted = false ∧ Acted cfg s r₀ r := by
  cases a with
  | arrive presented route =>
    obtain hold | hnew := List.mem_append.mp h
    · exact .inl hold
    · right; left
      rw [List.mem_singleton.mp hnew]
      refine ⟨presented, rfl, rfl, rfl, fun data hdata => ?_⟩
      have hload : load s presented = some data := hdata
      obtain ⟨sid, rfl, -⟩ := load_some hload
      simp [hload]
  | act id =>
    simp only [step, act] at h
    split at h
    · next r₀ hr₀ =>
      split at h
      · exact .inl h
      · next hacted =>
        obtain hold | hnew := acted_actOn h
        · exact .inl hold
        · exact .inr (.inr ⟨id, rfl, r₀, hr₀, Bool.eq_false_iff.mpr hacted, hnew⟩)
    · exact .inl h
  | finish id =>
    simp only [step, finish] at h
    split at h
    · exact .inl (List.mem_filter.mp h).1
    · exact .inl h
  | sweep => exact .inl h
  | restart => exact absurd h List.not_mem_nil
  | wait ms => exact .inl h

theorem traced_step (h : Traced cfg start as (play (step cfg) start as)) (a : Session.Action) :
    Traced cfg start (as ++ [a]) (step cfg (play (step cfg) start as) a) := by
  constructor
  · intro row hrow
    obtain hold | ⟨r, hr, data, hdata, hsid, rfl⟩ := rows_step hrow
    · exact stems_append (h.rows row hold) [a]
    · rw [hsid]
      exact stems_append (h.copies r hr _ hdata) [a]
  · intro r hr data hdata
    obtain hold | ⟨presented, rfl, -, -, hnew⟩ | ⟨id, rfl, r₀, hr₀, hacted, hnew⟩ :=
      requests_step hr
    · exact stems_append (h.copies r hold data hdata) [a]
    · obtain ⟨hpresented, hload⟩ := hnew data hdata
      obtain ⟨sid, hsid, row, hrow, rfl, rfl, -⟩ := load_some hload
      rw [← Option.some.inj (hsid.symm.trans hpresented)]
      exact stems_append (h.rows row hrow) _
    · obtain ⟨hsid, data₀, hdata₀, rfl | rfl⟩ | ⟨user, hroute, hissued⟩ := hnew.session data hdata
      · rw [hsid]
        exact stems_append (h.copies r₀ (request_mem hr₀) _ hdata₀) _
      · rw [hsid]
        exact stems_active (stems_append (h.copies r₀ (request_mem hr₀) _ hdata₀) _) _
      · exact ⟨user, as, .act id, at_last ⟨r₀, hr₀, hacted, hroute⟩, hissued⟩
  · intro r hr hfresh
    obtain hold | ⟨presented, rfl, hid, -, hnew⟩ | ⟨id, rfl, r₀, hr₀, -, hnew⟩ := requests_step hr
    · obtain ⟨earlier, presented, later, has, hpresented⟩ := h.fresh r hold hfresh
      refine ⟨earlier, presented, later ++ [a], ?_, hpresented⟩
      rw [has, List.append_assoc]
      rfl
    · refine ⟨as, presented, [], rfl, hid.symm, fun data hdata => ?_⟩
      obtain ⟨hpresented, hload⟩ := hnew data hdata
      obtain ⟨sid, hsid, row, hrow, rfl, rfl, -⟩ := load_some hload
      have hrow' : row.sid = r.sid := Option.some.inj (hsid.symm.trans hpresented)
      refine ⟨hpresented, ?_⟩
      rw [← hrow']
      exact h.rows row hrow
    · rw [hnew.acted] at hfresh
      cases hfresh

theorem traced (cfg : Config) (now : Ms) (as : List Session.Action) :
    Traced cfg { now } as (play (step cfg) { now } as) :=
  play_history (Traced cfg { now }) ⟨by simp, by simp, by simp⟩ (fun _ a h => traced_step h a) as

structure Issues (s t : Site) : Prop where
  sid : s.nextSid ≤ t.nextSid
  uuid : s.uuid ≤ t.uuid
  request : s.nextRequest ≤ t.nextRequest

theorem issues_same (hsid : s.nextSid = t.nextSid) (huuid : s.uuid = t.uuid)
    (hrequest : s.nextRequest = t.nextRequest) : Issues s t :=
  ⟨Nat.le_of_eq hsid, Nat.le_of_eq huuid, Nat.le_of_eq hrequest⟩

theorem issues_runGuard (s : Site) (r : Request) (v : Verdict) : Issues s (runGuard s r v) := by
  cases v <;> exact issues_same rfl rfl rfl

theorem issues_actOn (cfg : Config) (s : Site) (r : Request) : Issues s (actOn cfg s r) := by
  unfold actOn
  split
  · exact issues_runGuard s r _
  · split
    · exact issues_same rfl rfl rfl
    · exact issues_runGuard s r _
  · exact ⟨Nat.le_succ _, Nat.le_succ _, Nat.le_refl _⟩
  all_goals exact issues_same rfl rfl rfl

theorem issues_step (cfg : Config) (s : Site) (a : Session.Action) : Issues s (step cfg s a) := by
  cases a with
  | act id =>
    simp only [step, act]
    split
    · split
      · exact issues_same rfl rfl rfl
      · exact issues_actOn cfg s _
    · exact issues_same rfl rfl rfl
  | finish id =>
    simp only [step, finish]
    split <;> exact issues_same rfl rfl rfl
  | arrive presented route => exact ⟨Nat.le_succ _, Nat.le_refl _, Nat.le_succ _⟩
  | sweep | restart | wait ms => exact issues_same rfl rfl rfl

theorem issues_login (h : LogsIn user s a) :
    s.nextSid < (step cfg s a).nextSid ∧ s.uuid < (step cfg s a).uuid := by
  cases a with
  | act id =>
    obtain ⟨r, hr, hacted, hroute⟩ := h
    have hstep : step cfg s (.act id) = login cfg s r user := by
      have hrequest : request s id = some r := hr
      simp [step, act, hrequest, hacted, actOn, hroute]
    rw [hstep]
    exact ⟨Nat.lt_succ_self _, Nat.lt_succ_self _⟩
  | arrive presented route => exact h.elim
  | finish id => exact h.elim
  | sweep => exact h.elim
  | restart => exact h.elim
  | wait ms => exact h.elim

theorem logsIn_user {user' : User} (h : LogsIn user s a) (h' : LogsIn user' s a) :
    user = user' := by
  cases a with
  | act id =>
    obtain ⟨r, hr, -, hroute⟩ := h
    obtain ⟨r', hr', -, hroute'⟩ := h'
    obtain rfl : r' = r := Option.mem_unique hr' hr
    exact Option.some.inj (Route.login.inj (hroute.symm.trans hroute'))
  | arrive presented route => exact h.elim
  | finish id => exact h.elim
  | sweep => exact h.elim
  | restart => exact h.elim
  | wait ms => exact h.elim

/-- No two logins set up the same session or give out the same token. -/
theorem login_unique {user user' : User} {before before' : List Session.Action}
    {a a' : Session.Action} (h : At (LogsIn user) (step cfg) start as before a)
    (h' : At (LogsIn user') (step cfg) start as before' a')
    (hsame : (play (step cfg) start before').nextSid = (play (step cfg) start before).nextSid ∨
      (play (step cfg) start before').uuid = (play (step cfg) start before).uuid) :
    before' = before := by
  have hany : ∀ {user : User} {before : List Session.Action} {a : Session.Action},
      At (LogsIn user) (step cfg) start as before a →
      At (fun s a => ∃ user, LogsIn user s a) (step cfg) start as before a :=
    fun h => ⟨h.1, _, h.2⟩
  obtain hsid | huuid := hsame
  · exact count_inj (fun s => s.nextSid) (fun s a => (issues_step cfg s a).sid)
      (fun s a ⟨_, ha⟩ => (issues_login ha).1) (hany h') (hany h) hsid
  · exact count_inj (fun s => s.uuid) (fun s a => (issues_step cfg s a).uuid)
      (fun s a ⟨_, ha⟩ => (issues_login ha).2) (hany h') (hany h) huuid

theorem stems_same {sid' : Sid} {data' : SessionData} (h : Stems cfg start as sid data)
    (h' : Stems cfg start as sid' data')
    (hsame : sid' = sid ∨ data'.csrfToken = data.csrfToken) :
    sid' = sid ∧ data'.csrfToken = data.csrfToken ∧ data'.username = data.username ∧
      data'.role = data.role := by
  obtain ⟨user, before, a, hat, hissued⟩ := h
  obtain ⟨user', before', a', hat', hissued'⟩ := h'
  have hbefore : before' = before := by
    refine login_unique hat hat' ?_
    obtain hsid | htoken := hsame
    · exact .inl (hissued'.sid.symm.trans (hsid.trans hissued.sid))
    · rw [hissued.csrfToken, hissued'.csrfToken] at htoken
      exact .inr (Nat.repr_injective htoken)
  subst hbefore
  obtain ⟨⟨after, has⟩, hlogin⟩ := hat
  obtain ⟨⟨after', has'⟩, hlogin'⟩ := hat'
  obtain rfl := (List.cons.inj (List.append_cancel_left (has.symm.trans has'))).1
  obtain rfl := logsIn_user hlogin hlogin'
  refine ⟨hissued'.sid.trans hissued.sid.symm, ?_, ?_, ?_⟩
  · exact hissued'.csrfToken.trans hissued.csrfToken.symm
  · exact hissued'.username.trans hissued.username.symm
  · exact hissued'.role.trans hissued.role.symm

theorem requireAuth_passed {now : Ms} {stateChanging : Bool} {supplied : Option String}
    {session : Option SessionData}
    (h : requireAuth cfg now stateChanging supplied session = .passed sess) :
    ∃ data, session = some data ∧ sess = { data with lastActivityAt := now } ∧
      (stateChanging = true → supplied = some sess.csrfToken) ∧
      (sess.absoluteExpiresAt ≠ 0 → now ≤ sess.absoluteExpiresAt) := by
  obtain ⟨data, hdata, hsess⟩ := requireAuth_session (by rw [h]; rfl)
  obtain ⟨data', hdata', hexpiry, -⟩ := requireAuth_authenticated (by rw [h]; rfl)
  obtain rfl : data' = data := Option.some.inj (hdata'.symm.trans hdata)
  subst hdata hsess
  refine ⟨data', rfl, rfl, fun hchanging => ?_, hexpiry⟩
  simp only [requireAuth] at h
  split at h
  · cases h
  · split at h
    · cases h
    · split at h
      · cases h
      · next htoken =>
        have hfilter := not_not.mp (fun hne => htoken ⟨hchanging, hne⟩)
        exact (Option.filter_eq_some_iff.mp hfilter).1

theorem requirePermission_passed {now : Ms} {permission : Permission} {stateChanging : Bool}
    {supplied : Option String} {session : Option SessionData}
    (h : requirePermission cfg now permission stateChanging supplied session = .passed sess) :
    requireAuth cfg now stateChanging supplied session = .passed sess ∧
      roleHasPermission sess.role permission = true := by
  unfold requirePermission at h
  split at h
  · next sess' hauth =>
    split at h
    · next hrole =>
      cases h
      exact ⟨hauth, hrole⟩
    · cases h
  · next hother => exact absurd h (hother sess)

theorem verdict_passed {e : Endpoint} {supplied : Option String} {now : Ms}
    (hroute : r.route = e.route supplied) (h : verdict cfg now r = .passed sess) :
    requireAuth cfg now e.method.stateChanging supplied r.session = .passed sess ∧
      ∀ p ∈ e.permission, roleHasPermission sess.role p = true := by
  by_cases hlogout : e = .logout
  · subst hlogout
    simp only [verdict, hroute, Endpoint.route, if_pos] at h
    exact ⟨h, by simp [Endpoint.permission]⟩
  · simp only [verdict, hroute, Endpoint.route, if_neg hlogout] at h
    cases hpermission : e.permission with
    | none =>
      rw [hpermission] at h
      exact ⟨h, by simp⟩
    | some p =>
      rw [hpermission] at h
      obtain ⟨hauth, hrole⟩ := requirePermission_passed h
      exact ⟨hauth, by simpa using hrole⟩

theorem reads_of_viewer {e : Endpoint}
    (h : ∀ p ∈ e.permission, roleHasPermission .viewer p = true) :
    e.method = .get ∨ e = .logout := by
  cases e <;> simp [Endpoint.permission, roleHasPermission, Endpoint.method] at h ⊢

/-- If the session of a request stems from a login before it came, and it gets past the guard of its
route, then this login was by a user who may use the route. -/
theorem login_of_passed {e : Endpoint} {supplied : Option String} {now : Ms} {presented : Option Sid}
    (hroute : r.route = e.route supplied) (hpassed : verdict cfg now r = .passed sess)
    (hfresh : ∀ data ∈ r.session, presented = some r.sid ∧ Stems cfg start as r.sid data) :
    presented = some r.sid ∧ ∃ user before a, At (LogsIn user) (step cfg) start as before a ∧
      Issued cfg (play (step cfg) start before) user r.sid sess ∧
      (∀ p ∈ e.permission, roleHasPermission user.role p = true) ∧
      (e.method.stateChanging = true → supplied = some sess.csrfToken) := by
  obtain ⟨hauth, hpermission⟩ := verdict_passed hroute hpassed
  obtain ⟨data, hdata, rfl, htoken, -⟩ := requireAuth_passed hauth
  obtain ⟨hpresented, user, before, a, hat, hissued⟩ := hfresh data hdata
  exact ⟨hpresented, user, before, a, hat, issued_active hissued _,
    fun p hp => hissued.role ▸ hpermission p hp, htoken⟩

/-- A request that gets past the guard of its route presents a session that was set up before it
came, by a login of a user who may use the route; what changes something has brought the token
that this login gave out, and no other login gave out that session or that token. -/
theorem granted_by_login (cfg : Config) (now : Ms) (as : List Session.Action) {id : Nat}
    {e : Endpoint} {supplied : Option String}
    (hr : request (play (step cfg) { now } as) id = some r) (hacted : r.acted = false)
    (hroute : r.route = e.route supplied)
    (hpassed : verdict cfg (play (step cfg) { now } as).now r = .passed sess) :
    ∃ user before k mid later,
      as = before ++ .act k :: mid ++ .arrive (some r.sid) r.route :: later ∧
      (let t := play (step cfg) { now } before
      LogsIn user t (.act k) ∧ Issued cfg t user r.sid sess ∧
      (∀ p ∈ e.permission, roleHasPermission user.role p = true) ∧
      (user.role = .viewer → e.method = .get ∨ e = .logout) ∧
      (e.method.stateChanging = true → supplied = some (toString t.uuid)) ∧
      ∀ user' before' a', At (LogsIn user') (step cfg) { now } as before' a' →
        (play (step cfg) { now } before').nextSid = t.nextSid ∨
          (play (step cfg) { now } before').uuid = t.uuid → before' = before) := by
  obtain ⟨earlier, presented, later, has, -, hfresh⟩ :=
    (traced cfg now as).fresh r (request_mem hr) hacted
  obtain ⟨rfl, user, before, a, hat, hissued, hrole, htoken⟩ :=
    login_of_passed hroute hpassed hfresh
  obtain ⟨k, rfl⟩ : ∃ k, a = .act k := by
    cases a with
    | act k => exact ⟨k, rfl⟩
    | _ => exact hat.2.elim
  obtain ⟨⟨mid, rfl⟩, hlogin⟩ := hat
  refine ⟨user, before, k, mid, later, has, hlogin, hissued, hrole,
    fun hviewer => reads_of_viewer (hviewer ▸ hrole),
    fun hchanging => (htoken hchanging).trans (congrArg some hissued.csrfToken), ?_⟩
  have hat : At (LogsIn user) (step cfg) { now } as before (.act k) :=
    ⟨⟨mid ++ .arrive (some r.sid) r.route :: later, by rw [has, List.append_assoc]; rfl⟩, hlogin⟩
  exact fun user' before' a' hat' hsame => login_unique hat hat' hsame

def sentOnce : List Session.Action :=
  [.arrive none (.login (some ⟨1, "owner", .owner⟩)), .act 0, .finish 0,
    .arrive (some 1) (Endpoint.send.route (some "0"))]

theorem granted_by_login_sentOnce :
    let s := play (step defaultConfig) { now := 1000 } sentOnce
    ∃ r, request s 1 = some r ∧ ∃ user before k mid later,
      sentOnce = before ++ .act k :: mid ++ .arrive (some r.sid) r.route :: later ∧
      LogsIn user (play (step defaultConfig) { now := 1000 } before) (.act k) := by
  refine ⟨_, rfl, ?_⟩
  obtain ⟨user, before, k, mid, later, has, hlogin, -⟩ :=
    @granted_by_login _ ⟨1, "owner", .owner, 1000, 28801000, "0", 1800000⟩ defaultConfig 1000
      sentOnce 1 .send (some "0") rfl rfl rfl rfl
  exact ⟨user, before, k, mid, later, has, hlogin⟩

end WhatsappTester.Auth.Access
