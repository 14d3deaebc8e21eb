import WhatsappTester.Atomic.Projecting
import WhatsappTester.Auth.Access
import WhatsappTester.Limits
import WhatsappTester.Provenance

namespace WhatsappTester.Authority

open Schema State Atomic.Runs Atomic.History Atomic.Projecting Process
open Auth Auth.Session Auth.Access Provenance

inductive Ask
  | send (idempotencyKey : Option String) (body : Routes.Body)
  | createSchedule (input : Scheduler.CreateInput)
  | removeSchedule (id : String)
  | setKillSwitch (disabled : Bool) (reason : Option String)

namespace Ask

def endpoint : Ask → Endpoint
  | .send _ (.send ..) => .send
  | .send _ (.sendGroups ..) => .sendGroups
  | .send _ (.sendBulk ..) => .sendBulk
  | .send _ (.chatSend ..) => .chatSend
  | .createSchedule _ => .createSchedule
  | .removeSchedule _ => .removeSchedule
  | .setKillSwitch .. => .setKillSwitch

/-- What is left of the route behind its guard, for `req.user`. A send route checks the body after
the kill switch and the idempotency key, every other one at once. -/
def call (username : String) (ready : Bool) : Ask → Option Call
  | .send idempotencyKey body => some (.request ⟨username, idempotencyKey, body⟩ ready)
  | .createSchedule input =>
    if Limits.createScheduleBody input then
      some (.createSchedule { input with createdBy := some username })
    else none
  | .removeSchedule id => if Routes.lengthIn 1 300 id then some (.removeSchedule id) else none
  | .setKillSwitch disabled reason =>
    if reason.all (Routes.lengthIn 0 500) then
      some (.setOutboundDisabled disabled (some username) (some (reason.getD "")))
    else none

end Ask

/-- What the event loop does without being asked. -/
inductive Work
  | tick
  | complete (itemId : Id) (outcome : Jobs.Worker.SendOutcome) (random : Nat)
  | runTickIfReady (ready : Bool)
  | answered (id : Id) (answer : Routes.Answer) (ready : Bool)
  | delayOver (id : Id) (ready : Bool)
  | drainAndStop
  | sweepExpiredIdempotencyKeys

def Work.call : Work → Call
  | .tick => .tick
  | .complete itemId outcome random => .complete itemId outcome random
  | .runTickIfReady ready => .runTickIfReady ready
  | .answered id answer ready => .answered id answer ready
  | .delayOver id ready => .delayOver id ready
  | .drainAndStop => .drainAndStop
  | .sweepExpiredIdempotencyKeys => .sweepExpiredIdempotencyKeys

/-- The two sides of the one process, its sessions and its job system, and what the requests that
have come ask for. -/
structure Installation where
  site : Site
  server : Server
  asks : List (Nat × Ask) := []

inductive Errand
  | ask (supplied : Option String) (a : Ask)
  | other (route : Route)

def Errand.route : Errand → Route
  | .ask supplied a => a.endpoint.route supplied
  | .other route => route

inductive Action
  | wait (ms : Nat)
  | visit (presented : Option Sid) (errand : Errand)
  /-- A request comes to its guard, and goes on behind it. If there is a `cut`, the process dies
  after so many statements. -/
  | act (id : Nat) (ready : Bool) (cut : Option Nat)
  | finish (id : Nat)
  | sweep
  | work (w : Work) (cut : Option Nat)
  | restart

def serving (c : Call) : Option Nat → Process.Action
  | none => .call c
  | some n => .crash c n

/-- What a request goes on with when its guard lets it pass. -/
def called (cfg : Config) (s : Installation) (id : Nat) (ready : Bool) : Option Call := do
  let r ← request s.site id
  let ask ← s.asks.find? (fun x => decide (x.1 = id))
  if r.acted then none
  else
    match verdict cfg s.site.now r with
    | .passed sess => ask.2.call sess.username ready
    | _ => none

def siteAction (s : Installation) (a : Action) : Option Session.Action :=
  match a with
  | .wait ms => some (.wait ms)
  | .restart => if s.server.up then none else some .restart
  | .visit presented errand => if s.server.up then some (.arrive presented errand.route) else none
  | .act id _ _ => if s.server.up then some (.act id) else none
  | .finish id => if s.server.up then some (.finish id) else none
  | .sweep => if s.server.up then some .sweep else none
  | .work .. => none

def serverAction (cfg : Config) (s : Installation) (a : Action) : Option Process.Action :=
  match a with
  | .wait ms => some (.advance ms)
  | .restart => some .restart
  | .act id ready cut => (called cfg s id ready).map (fun c => serving c cut)
  | .work w cut => some (serving w.call cut)
  | .visit .. | .finish _ | .sweep => none

def noted (s : Installation) (a : Action) : List (Nat × Ask) :=
  match a with
  | .visit _ (.ask _ ask) =>
    if s.server.up then s.asks ++ [(s.site.nextRequest, ask)] else s.asks
  | _ => s.asks

def step (cfg : Config) (s : Installation) (a : Action) : Installation where
  site := (siteAction s a).elim s.site (Session.step cfg s.site)
  server := (serverAction cfg s a).elim s.server (Process.step s.server)
  asks := noted s a

def install (concurrency : Nat) (now : Ms) : Installation := ⟨{ now }, initial concurrency now, []⟩

def LogsIn (user : User) (s : Installation) (a : Action) : Prop :=
  ∃ x, siteAction s a = some x ∧ Access.LogsIn user s.site x

def Serves (cfg : Config) (ask : Ask) (sess : SessionData) (s : Installation) (a : Action) : Prop :=
  ∃ id ready cut c r, a = .act id ready cut ∧ called cfg s id ready = some c ∧
    ask.call sess.username ready = some c ∧ request s.site id = some r ∧
    verdict cfg s.site.now r = .passed sess

/-- The ask came in a session that a login of the user had set up, with the token of this login,
and its request got past the guard; the user may use the route. -/
def Granted (cfg : Config) (start : Installation) (as : List Action) (user : User) (ask : Ask) :
    Prop :=
  ∃ sess sid earlier mid a,
    At (Serves cfg ask sess) (step cfg) start as
      (earlier ++ .visit (some sid) (.ask (some sess.csrfToken) ask) :: mid) a ∧
    (∃ before b, At (LogsIn user) (step cfg) start earlier before b ∧
      Issued cfg (play (step cfg) start before).site user sid sess) ∧
    ∀ p ∈ ask.endpoint.permission, roleHasPermission user.role p = true

variable {cfg : Config} {start s : Installation} {as before : List Action} {a : Action}
  {user : User} {ask : Ask} {sess : SessionData}

theorem changes (ask : Ask) : ask.endpoint.method.stateChanging = true := by
  cases ask with
  | send key body => cases body <;> rfl
  | createSchedule input => rfl
  | removeSchedule id => rfl
  | setKillSwitch disabled reason => rfl

theorem site_play (start : Installation) (as : List Action) :
    (play (step cfg) start as).site =
      play (Session.step cfg) start.site (project siteAction (step cfg) start as) :=
  view_play (fun s : Installation => s.site) (fun _ _ => rfl) start as

theorem server_play (start : Installation) (as : List Action) :
    (play (step cfg) start as).server =
      play Process.step start.server (project (serverAction cfg) (step cfg) start as) :=
  view_play (fun s : Installation => s.server) (fun _ _ => rfl) start as

def Arrives (s : Installation) (a : Action) : Prop :=
  ∃ presented route, siteAction s a = some (.arrive presented route)

theorem nextRequest_step (s : Installation) (a : Action) :
    s.site.nextRequest ≤ (step cfg s a).site.nextRequest := by
  simp only [step]
  cases siteAction s a with
  | none => exact Nat.le_refl _
  | some x => exact (issues_step cfg s.site x).request

theorem nextRequest_arrives (h : Arrives s a) :
    s.site.nextRequest < (step cfg s a).site.nextRequest := by
  obtain ⟨presented, route, h⟩ := h
  simp only [step, h]
  exact Nat.lt_succ_self _

/-- Requests with one number are one. -/
theorem arrives_unique {before' : List Action} {a' : Action}
    (h : At Arrives (step cfg) start as before a) (h' : At Arrives (step cfg) start as before' a')
    (hid : (play (step cfg) start before).site.nextRequest =
      (play (step cfg) start before').site.nextRequest) : before = before' ∧ a = a' := by
  have hbefore : before = before' :=
    count_inj (fun s : Installation => s.site.nextRequest) nextRequest_step
      (fun _ _ => nextRequest_arrives) h h' hid
  obtain ⟨⟨after, has⟩, -⟩ := h
  obtain ⟨⟨after', has'⟩, -⟩ := h'
  subst hbefore
  exact ⟨rfl, (List.cons.inj (List.append_cancel_left (has.symm.trans has'))).1⟩

/-- Every ask came with the request of its number. -/
def Asked (cfg : Config) (start : Installation) (as : List Action) (s : Installation) : Prop :=
  ∀ x ∈ s.asks, ∃ before presented supplied,
    At (fun s _ => s.server.up = true ∧ s.site.nextRequest = x.1) (step cfg) start as before
      (.visit presented (.ask supplied x.2))

theorem asked_step (h : Asked cfg start as (play (step cfg) start as)) (a : Action) :
    Asked cfg start (as ++ [a]) (step cfg (play (step cfg) start as) a) := by
  intro x hx
  have hold : x ∈ (play (step cfg) start as).asks → ∃ before presented supplied,
      At (fun s _ => s.server.up = true ∧ s.site.nextRequest = x.1) (step cfg) start (as ++ [a])
        before (.visit presented (.ask supplied x.2)) := by
    intro hx
    obtain ⟨before, presented, supplied, hat⟩ := h x hx
    exact ⟨before, presented, supplied, at_append hat [a]⟩
  simp only [step, noted] at hx
  split at hx
  · split at hx
    · next hup =>
      obtain hx | hx := List.mem_append.mp hx
      · exact hold hx
      · rw [List.mem_singleton.mp hx]
        exact ⟨as, _, _, at_last ⟨hup, rfl⟩⟩
    · exact hold hx
  · exact hold hx

theorem asked (cfg : Config) (concurrency : Nat) (now : Ms) (as : List Action) :
    Asked cfg (install concurrency now) as (play (step cfg) (install concurrency now) as) :=
  play_history (Asked cfg (install concurrency now)) (fun _ hx => absurd hx List.not_mem_nil)
    (fun _ a h => asked_step h a) as

/-- What goes on behind a guard has an ask, and a session with which the guard has let it pass. -/
theorem called_some {id : Nat} {ready : Bool} {c : Call} (h : called cfg s id ready = some c) :
    ∃ r ask sess, request s.site id = some r ∧ (id, ask) ∈ s.asks ∧ r.acted = false ∧
      verdict cfg s.site.now r = .passed sess ∧ ask.call sess.username ready = some c := by
  simp only [called, Option.bind_eq_bind, Option.bind_eq_some_iff] at h
  obtain ⟨r, hr, ⟨id', ask⟩, hask, h⟩ := h
  obtain rfl : id' = id := by simpa using List.find?_some hask
  split at h
  · cases h
  · next hacted =>
    split at h
    · next sess hpassed =>
      exact ⟨r, ask, sess, hr, List.mem_of_find?_eq_some hask, Bool.eq_false_iff.mpr hacted,
        hpassed, h⟩
    · cases h

theorem siteAction_visit {presented : Option Sid} {errand : Errand} (hup : s.server.up = true) :
    siteAction s (.visit presented errand) = some (.arrive presented errand.route) := if_pos hup

/-- Whatever is called behind a guard has been granted. -/
theorem granted_of_called {concurrency : Nat} {now : Ms} {id : Nat} {ready : Bool} {c : Call}
    {cut : Option Nat}
    (hat : At (fun s _ => called cfg s id ready = some c) (step cfg) (install concurrency now) as
      before (.act id ready cut)) :
    ∃ user ask, Granted cfg (install concurrency now) as user ask ∧
      ask.call user.username ready = some c := by
  obtain ⟨⟨after, has⟩, hcalled⟩ := hat
  obtain ⟨r, ask, sess, hr, hask, hacted, hpassed, hcall⟩ := called_some hcalled
  have hsite : (play (step cfg) (install concurrency now) before).site =
      play (Session.step cfg) { now } (project siteAction (step cfg) (install concurrency now)
        before) := site_play (install concurrency now) before
  -- the request came with a visit, and the ask was noted at the same one
  obtain ⟨earlier, presented, later, hearlier, hnumber, hfresh⟩ :=
    (traced cfg now (project siteAction (step cfg) (install concurrency now) before)).fresh r
      (hsite ▸ request_mem hr) hacted
  obtain ⟨before₁, a₁, after₁, hbefore, rfl, harrive⟩ := project_split hearlier
  obtain ⟨before₂, presented₂, supplied, ⟨⟨after₂, hbefore₂⟩, hup, hnumber₂⟩⟩ :=
    asked cfg concurrency now before _ hask
  have hid : r.id = id := by simpa using List.find?_some hr
  have hcome : At Arrives (step cfg) (install concurrency now) before before₁ a₁ :=
    ⟨⟨after₁, hbefore⟩, _, _, harrive⟩
  have hnoted : At Arrives (step cfg) (install concurrency now) before before₂
      (.visit presented₂ (.ask supplied ask)) :=
    ⟨⟨after₂, hbefore₂⟩, _, _, siteAction_visit hup⟩
  have hsame : (play (step cfg) (install concurrency now) before₁).site.nextRequest =
      (play (step cfg) (install concurrency now) before₂).site.nextRequest := by
    rw [hnumber₂, site_play, ← hid]
    exact hnumber
  obtain ⟨rfl, rfl⟩ := arrives_unique hcome hnoted hsame
  rw [siteAction_visit hup] at harrive
  obtain ⟨rfl, hroute⟩ := Session.Action.arrive.inj (Option.some.inj harrive)
  obtain ⟨rfl, user, login, b, hlogin, hissued, hrole, htoken⟩ :=
    login_of_passed (e := ask.endpoint) hroute.symm hpassed hfresh
  obtain rfl := htoken (changes ask)
  obtain ⟨login', b', hlogin', rfl⟩ :=
    at_project (fun s : Installation => s.site) (fun _ _ => rfl) hlogin
  refine ⟨user, ask, ⟨sess, r.sid, before₁, after₁, _, ⟨⟨after, ?_⟩, id, ready, cut, c, r, rfl,
    ?_⟩, ⟨login', b', ⟨hlogin'.1, b, hlogin'.2⟩, ?_⟩, hrole⟩, hissued.username ▸ hcall⟩
  · rw [← hbefore]
    exact has
  · rw [← hbefore]
    exact ⟨hcalled, hcall, hr, hpassed⟩
  · rw [site_play]
    exact hissued

/-- What is called was granted to a user, or the event loop does it by itself. -/
theorem calls_cases {concurrency : Nat} {now : Ms} {x : Process.Action} {c : Call}
    (hx : x ∈ project (serverAction cfg) (step cfg) (install concurrency now) as)
    (hc : x.calls = some c) :
    (∃ user ask ready, Granted cfg (install concurrency now) as user ask ∧
      ask.call user.username ready = some c) ∨ ∃ w : Work, c = w.call := by
  have hserving : ∀ {c' : Call} {cut : Option Nat}, (serving c' cut).calls = some c → c' = c := by
    intro c' cut h
    cases cut <;> exact Option.some.inj h
  obtain ⟨before, a, hafter, hpart⟩ := mem_project hx
  cases a with
  | act id ready cut =>
    left
    obtain ⟨c', hcalled, rfl⟩ := Option.map_eq_some_iff.mp hpart
    obtain rfl := hserving hc
    obtain ⟨user, ask, hgranted⟩ := granted_of_called ⟨hafter, hcalled⟩
    exact ⟨user, ask, ready, hgranted⟩
  | work w cut =>
    right
    obtain rfl := Option.some.inj hpart
    exact ⟨w, (hserving hc).symm⟩
  | wait ms =>
    obtain rfl := Option.some.inj hpart
    cases hc
  | restart =>
    obtain rfl := Option.some.inj hpart
    cases hc
  | visit presented errand => cases hpart
  | finish id => cases hpart
  | sweep => cases hpart

def Ordered (cfg : Config) (start : Installation) (as : List Action) (l : Letter) : Prop :=
  ∃ user input, Granted cfg start as user (.createSchedule input) ∧
    Limits.createScheduleBody input = true ∧ l ∈ ordered input

def Dictated (cfg : Config) (start : Installation) (as : List Action) (l : Letter) : Prop :=
  ∃ user key body, Granted cfg start as user (.send key body) ∧ body.valid = true ∧
    l ∈ addressed body.todo

theorem orders_call {username : String} {ready : Bool} {c : Call} {l : Letter}
    (h : ask.call username ready = some c) (hl : l ∈ orders c) :
    ∃ input, ask = .createSchedule input ∧ Limits.createScheduleBody input = true ∧
      l ∈ ordered input := by
  cases ask with
  | createSchedule input =>
    obtain ⟨hvalid, hcall⟩ := Option.ite_none_right_eq_some.mp h
    obtain rfl := Option.some.inj hcall
    exact ⟨input, rfl, hvalid, hl⟩
  | send key body =>
    obtain rfl := Option.some.inj h
    cases hl
  | removeSchedule id =>
    obtain ⟨-, hcall⟩ := Option.ite_none_right_eq_some.mp h
    obtain rfl := Option.some.inj hcall
    cases hl
  | setKillSwitch disabled reason =>
    obtain ⟨-, hcall⟩ := Option.ite_none_right_eq_some.mp h
    obtain rfl := Option.some.inj hcall
    cases hl

theorem dictates_call {username : String} {ready : Bool} {c : Call} {l : Letter}
    (h : ask.call username ready = some c) (hl : l ∈ dictates c) :
    ∃ key body, ask = .send key body ∧ body.valid = true ∧ l ∈ addressed body.todo := by
  cases ask with
  | send key body =>
    obtain rfl := Option.some.inj h
    simp only [dictates] at hl
    split at hl
    · next hvalid => exact ⟨key, body, rfl, hvalid, hl⟩
    · cases hl
  | createSchedule input =>
    obtain ⟨-, hcall⟩ := Option.ite_none_right_eq_some.mp h
    obtain rfl := Option.some.inj hcall
    cases hl
  | removeSchedule id =>
    obtain ⟨-, hcall⟩ := Option.ite_none_right_eq_some.mp h
    obtain rfl := Option.some.inj hcall
    cases hl
  | setKillSwitch disabled reason =>
    obtain ⟨-, hcall⟩ := Option.ite_none_right_eq_some.mp h
    obtain rfl := Option.some.inj hcall
    cases hl

theorem orders_work (w : Work) : orders w.call = [] := by cases w <;> rfl

theorem dictates_work (w : Work) : dictates w.call = [] := by cases w <;> rfl

variable {concurrency : Nat} {now : Ms} {x : Process.Action} {c : Call} {l : Letter}

theorem ordered_of_call
    (hx : x ∈ project (serverAction cfg) (step cfg) (install concurrency now) as)
    (hc : x.calls = some c) (hl : l ∈ orders c) :
    Ordered cfg (install concurrency now) as l := by
  obtain ⟨user, ask, ready, hgranted, hcall⟩ | ⟨w, rfl⟩ := calls_cases hx hc
  · obtain ⟨input, rfl, hinput⟩ := orders_call hcall hl
    exact ⟨user, input, hgranted, hinput⟩
  · rw [orders_work] at hl
    cases hl

theorem dictated_of_call
    (hx : x ∈ project (serverAction cfg) (step cfg) (install concurrency now) as)
    (hc : x.calls = some c) (hl : l ∈ dictates c) :
    Dictated cfg (install concurrency now) as l := by
  obtain ⟨user, ask, ready, hgranted, hcall⟩ | ⟨w, rfl⟩ := calls_cases hx hc
  · obtain ⟨key, body, rfl, hbody⟩ := dictates_call hcall hl
    exact ⟨user, key, body, hgranted, hbody⟩
  · rw [dictates_work] at hl
    cases hl

/-- Nothing is sent but what a user was let to send, or to schedule, with that text for that
recipient: the user had logged in, may use the route, and the request brought the token of this
login in its session. -/
theorem sent_for_user (cfg : Config) (concurrency : Nat) (now : Ms) (as : List Action) :
    let start := install concurrency now
    let shared := (play (step cfg) start as).server.world.shared
    (∀ id recipient message, .sendStarted id recipient message ∈ shared.trace →
      ∃ user key body, Granted cfg start as user (.send key body) ∧ body.valid = true ∧
        (recipient, message) ∈ addressed body.todo) ∧
    ∀ pid i n, .sent pid i n ∈ shared.trace → ∃ r ∈ shared.db.items, r.id = i ∧
      ∃ user input, Granted cfg start as user (.createSchedule input) ∧
        Limits.createScheduleBody input = true ∧
        (r.recipientNumber, r.message) ∈ ordered input := by
  intro start shared
  have hserver : (play (step cfg) start as).server = run (initial concurrency now)
      (project (serverAction cfg) (step cfg) start as) := server_play start as
  have hvoiced := voiced_run concurrency now (Q := Dictated cfg start as)
    (fun x hx c hc l hl => dictated_of_call hx hc hl)
  have hbacked := backed_run concurrency now (P := Ordered cfg start as)
    (fun x hx c hc l hl => ordered_of_call hx hc hl)
  rw [← hserver] at hvoiced hbacked
  refine ⟨fun id recipient message hmem => hvoiced.handed id recipient message hmem,
    fun pid i n hmem => ?_⟩
  obtain ⟨r, hr, hid⟩ := hbacked.sent pid i n hmem
  exact ⟨r, hr, hid, hbacked.items r hr⟩

end WhatsappTester.Authority
