import WhatsappTester.Atomic.Projecting
import WhatsappTester.Auth.Access

namespace WhatsappTester.Browser.Tabs

open Schema Atomic.Runs Atomic.History Atomic.Projecting Auth Auth.Session Auth.Access

structure Me where
  username : String
  role : Role
  csrfToken : String
  deriving DecidableEq, Repr

def me (sess : SessionData) : Me := ⟨sess.username, sess.role, sess.csrfToken⟩

/-- How far the request of `bootstrapSession` for `/me` has come. -/
inductive Bootstrap
  | sent
  | asked (id : Nat)
  | answered (sid : Sid) (me : Me)
  | over
  deriving DecidableEq, Repr

/-- The app as a tab has loaded it. `session` remembers in which session its `/me` was answered. -/
structure Tab where
  bootstrap : Bootstrap := .sent
  csrfToken : Option String := none
  sidebarUser : Option (String × Role) := none
  session : Option Sid := none
  deriving DecidableEq, Repr

structure Sent where
  tab : Nat
  endpoint : Endpoint
  supplied : Option String
  deriving DecidableEq, Repr

def Sent.route (x : Sent) : Route := x.endpoint.route x.supplied

/-- The tabs that were ever loaded, their requests that are on the way to the server, and by their
numbers those that have come. -/
structure Browsing where
  site : Site
  tabs : List Tab := []
  sent : List Sent := []
  come : List (Nat × Sent) := []

inductive Action
  | load
  | ask (k : Nat) (presented : Option Sid)
  | bootstrapped (k : Nat)
  | fetch (k : Nat) (e : Endpoint)
  | arrive (n : Nat) (presented : Option Sid)
  | serve (a : Session.Action)

def apiFetch (k : Nat) (tab : Tab) (e : Endpoint) : Sent where
  tab := k
  endpoint := e
  supplied := if e.method.stateChanging then tab.csrfToken.filter (· ≠ "") else none

namespace Tab

def ask (id : Nat) (tab : Tab) : Tab :=
  if tab.bootstrap = .sent then { tab with bootstrap := .asked id } else tab

/-- The server comes to the guard of a request, which may be the one for `/me`. -/
def hear (cfg : Config) (s : Site) (id : Nat) (tab : Tab) : Tab :=
  if tab.bootstrap = .asked id then
    match request s id with
    | some r =>
      match verdict cfg s.now r with
      | .passed sess => { tab with bootstrap := .answered r.sid (me sess) }
      | _ => { tab with bootstrap := .over }
    | none => tab
  else tab

def bootstrapSession (tab : Tab) : Tab :=
  match tab.bootstrap with
  | .answered sid me =>
    { bootstrap := .over
      csrfToken := some me.csrfToken
      sidebarUser := some (me.username, me.role)
      session := some sid }
  | _ => tab

end Tab

def siteAction (s : Browsing) (a : Action) : Option Session.Action :=
  match a with
  | .ask k presented =>
    (s.tabs[k]?.filter (fun tab => tab.bootstrap = .sent)).map
      (fun _ => .arrive presented (Endpoint.me.route none))
  | .arrive n presented => s.sent[n]?.map (fun x => .arrive presented x.route)
  | .serve a => some a
  | .load | .bootstrapped _ | .fetch .. => none

def tabs (cfg : Config) (s : Browsing) (a : Action) : List Tab :=
  match a with
  | .load => s.tabs ++ [{}]
  | .ask k _ => s.tabs.modify k (Tab.ask s.site.nextRequest)
  | .serve (.act id) => s.tabs.map (Tab.hear cfg s.site id)
  | .bootstrapped k => s.tabs.modify k Tab.bootstrapSession
  | .fetch .. | .arrive .. | .serve _ => s.tabs

/-- Only `bootstrapSession` asks for `/me`. -/
def sent (s : Browsing) (a : Action) : List Sent :=
  match a with
  | .fetch k e => if e = .me then s.sent else s.sent ++ (s.tabs[k]?.map (apiFetch k · e)).toList
  | .arrive n _ => s.sent.eraseIdx n
  | .load | .ask .. | .bootstrapped _ | .serve _ => s.sent

def come (s : Browsing) (a : Action) : List (Nat × Sent) :=
  match a with
  | .arrive n _ => s.come ++ (s.sent[n]?.map (fun x => (s.site.nextRequest, x))).toList
  | .load | .ask .. | .bootstrapped _ | .fetch .. | .serve _ => s.come

/-- Whatever is not done by a tab, such as the logins, is among what the server does. -/
def step (cfg : Config) (s : Browsing) (a : Action) : Browsing where
  site := (siteAction s a).elim s.site (Session.step cfg s.site)
  tabs := tabs cfg s a
  sent := sent s a
  come := come s a

def opened (now : Ms) : Browsing := { site := { now } }

structure Alive (cfg : Config) (now : Ms) (data : SessionData) : Prop where
  absolute : data.absoluteExpiresAt ≠ 0 → now ≤ data.absoluteExpiresAt
  idle : data.lastActivityAt ≠ 0 → now - data.lastActivityAt ≤ cfg.sessionIdleTimeoutMs

variable {cfg : Config} {now : Ms} {s : Browsing} {as : List Action} {a : Action} {tab : Tab}
  {x : Sent} {k id : Nat} {start : Site} {bs : List Session.Action}

/-- What a tab shows, and the answer that it is to get, stem from a login. -/
structure Sound (cfg : Config) (start : Site) (bs : List Session.Action) (tab : Tab) : Prop where
  answered : ∀ sid m, tab.bootstrap = .answered sid m →
    ∃ data, Stems cfg start bs sid data ∧ m = me data
  shown : ∀ token, tab.csrfToken = some token → tab.bootstrap = .over ∧
    ∃ sid data, Stems cfg start bs sid data ∧ data.csrfToken = token ∧ tab.session = some sid ∧
      tab.sidebarUser = some (data.username, data.role)

theorem sound_append (h : Sound cfg start bs tab) (cs : List Session.Action) :
    Sound cfg start (bs ++ cs) tab := by
  refine ⟨fun sid m hanswered => ?_, fun token htoken => ?_⟩
  · obtain ⟨data, hstems, rfl⟩ := h.answered sid m hanswered
    exact ⟨data, stems_append hstems cs, rfl⟩
  · obtain ⟨hover, sid, data, hstems, hdata⟩ := h.shown token htoken
    exact ⟨hover, sid, data, stems_append hstems cs, hdata⟩

theorem sound_new : Sound cfg start bs {} := ⟨nofun, nofun⟩

theorem sound_ask (h : Sound cfg start bs tab) : Sound cfg start bs (tab.ask id) := by
  unfold Tab.ask
  split
  · next hsent =>
    refine ⟨nofun, fun token htoken => ?_⟩
    rw [(h.shown token htoken).1] at hsent
    cases hsent
  · exact h

theorem sound_hear {t : Site} (h : Sound cfg start bs tab)
    (hcopies : ∀ r ∈ t.requests, ∀ data ∈ r.session, Stems cfg start bs r.sid data) :
    Sound cfg start bs (tab.hear cfg t id) := by
  unfold Tab.hear
  split
  · next hasked =>
    have hnone : tab.csrfToken = none := by
      refine Option.eq_none_iff_forall_ne_some.mpr (fun token htoken => ?_)
      rw [(h.shown token htoken).1] at hasked
      cases hasked
    split
    · next r hr =>
      split
      · next sess hpassed =>
        have hsession : (verdict cfg t.now r).session = some sess := by
          rw [hpassed]
          rfl
        obtain ⟨data, hdata, rfl⟩ := verdict_session hsession
        refine ⟨fun sid m hanswered => ?_, fun token htoken => ?_⟩
        · obtain ⟨rfl, rfl⟩ := Bootstrap.answered.inj hanswered
          exact ⟨_, stems_active (hcopies r (request_mem hr) data hdata) _, rfl⟩
        · cases hnone.symm.trans htoken
      · exact ⟨nofun, fun token htoken => by cases hnone.symm.trans htoken⟩
    · exact h
  · exact h

theorem sound_bootstrapSession (h : Sound cfg start bs tab) :
    Sound cfg start bs tab.bootstrapSession := by
  unfold Tab.bootstrapSession
  split
  · next sid m hanswered =>
    obtain ⟨data, hstems, rfl⟩ := h.answered sid m hanswered
    refine ⟨nofun, fun token htoken => ⟨rfl, sid, data, hstems, ?_, rfl, rfl⟩⟩
    exact Option.some.inj htoken
  · exact h

/-- A tab is new, or what was done to it was done to one of before. -/
theorem mem_tabs (h : tab ∈ tabs cfg s a) : tab = {} ∨ ∃ old ∈ s.tabs, tab = old ∨
    tab = old.ask s.site.nextRequest ∨ tab = old.bootstrapSession ∨
    ∃ id, tab = old.hear cfg s.site id := by
  have hmodify : ∀ {k : Nat} {f : Tab → Tab}, tab ∈ s.tabs.modify k f →
      ∃ old ∈ s.tabs, tab = old ∨ tab = f old := by
    intro k f hmem
    obtain ⟨n, hn⟩ := List.mem_iff_getElem?.mp hmem
    rw [List.getElem?_modify] at hn
    obtain ⟨old, hold, rfl⟩ := Option.map_eq_some_iff.mp hn
    refine ⟨old, List.mem_of_getElem? hold, ?_⟩
    split
    · exact .inr rfl
    · exact .inl rfl
  unfold tabs at h
  split at h
  · obtain hold | hnew := List.mem_append.mp h
    · exact .inr ⟨tab, hold, .inl rfl⟩
    · exact .inl (List.mem_singleton.mp hnew)
  · obtain ⟨old, hold, heq | heq⟩ := hmodify h
    · exact .inr ⟨old, hold, .inl heq⟩
    · exact .inr ⟨old, hold, .inr (.inl heq)⟩
  · next id =>
    obtain ⟨old, hold, rfl⟩ := List.mem_map.mp h
    exact .inr ⟨old, hold, .inr (.inr (.inr ⟨id, rfl⟩))⟩
  · obtain ⟨old, hold, heq | heq⟩ := hmodify h
    · exact .inr ⟨old, hold, .inl heq⟩
    · exact .inr ⟨old, hold, .inr (.inr (.inl heq))⟩
  all_goals exact .inr ⟨tab, h, .inl rfl⟩

theorem tabs_get (cfg : Config) (a : Action) (h : s.tabs[k]? = some tab) :
    ∃ tab', (tabs cfg s a)[k]? = some tab' ∧ (tab.bootstrap = .over → tab' = tab) := by
  unfold tabs
  split
  · exact ⟨tab, by rw [List.getElem?_append_left (List.getElem?_eq_some_iff.mp h).1, h],
      fun _ => rfl⟩
  · refine ⟨_, by rw [List.getElem?_modify, h]; rfl, fun hover => ?_⟩
    simp [Tab.ask, hover]
  · refine ⟨_, by rw [List.getElem?_map, h]; rfl, fun hover => ?_⟩
    simp [Tab.hear, hover]
  · refine ⟨_, by rw [List.getElem?_modify, h]; rfl, fun hover => ?_⟩
    simp [Tab.bootstrapSession, hover]
  all_goals exact ⟨tab, h, fun _ => rfl⟩

/-- The request is one of a tab, and it brings the token that the tab has. -/
def Backed (tabs : List Tab) (x : Sent) : Prop :=
  ∃ tab, tabs[x.tab]? = some tab ∧
    ∀ token, x.supplied = some token → tab.csrfToken = some token ∧ token ≠ ""

theorem backed_apiFetch (h : s.tabs[k]? = some tab) (e : Endpoint) :
    Backed s.tabs (apiFetch k tab e) := by
  refine ⟨tab, h, fun token htoken => ?_⟩
  obtain ⟨-, hfilter⟩ := Option.ite_none_right_eq_some.mp htoken
  obtain ⟨hhas, hne⟩ := Option.filter_eq_some_iff.mp hfilter
  exact ⟨hhas, of_decide_eq_true hne⟩

theorem backed_step (hsound : ∀ tab ∈ s.tabs, Sound cfg start bs tab) (h : Backed s.tabs x)
    (a : Action) : Backed (tabs cfg s a) x := by
  obtain ⟨tab, htab, htoken⟩ := h
  obtain ⟨tab', htab', hsame⟩ := tabs_get cfg a htab
  refine ⟨tab', htab', fun token hsupplied => ?_⟩
  have hover := ((hsound tab (List.mem_of_getElem? htab)).shown token
    (htoken token hsupplied).1).1
  rw [hsame hover]
  exact htoken token hsupplied

abbrev served (cfg : Config) (now : Ms) (as : List Action) : List Session.Action :=
  project siteAction (step cfg) (opened now) as

theorem site_play (cfg : Config) (now : Ms) (as : List Action) :
    (play (step cfg) (opened now) as).site =
      play (Session.step cfg) { now } (served cfg now as) :=
  view_play (fun s : Browsing => s.site) (fun _ _ => rfl) (opened now) as

structure Kept (cfg : Config) (now : Ms) (as : List Action) (s : Browsing) : Prop where
  tabs : ∀ tab ∈ s.tabs, Sound cfg { now } (served cfg now as) tab
  sent : ∀ x ∈ s.sent, Backed s.tabs x
  come : ∀ x ∈ s.come, x.1 < s.site.nextRequest ∧ Backed s.tabs x.2 ∧
    ∀ r ∈ s.site.requests, r.acted = false → r.id = x.1 → r.route = x.2.route
  requests : ∀ r ∈ s.site.requests, r.acted = false → r.id < s.site.nextRequest

theorem nextRequest_step (cfg : Config) (s : Browsing) (a : Action) :
    s.site.nextRequest ≤ (step cfg s a).site.nextRequest := by
  simp only [step]
  cases siteAction s a with
  | none => exact Nat.le_refl _
  | some b => exact (issues_step cfg s.site b).request

theorem fresh_step {r : Request} (h : r ∈ (step cfg s a).site.requests) (hacted : r.acted = false) :
    r ∈ s.site.requests ∨ ∃ presented, siteAction s a = some (.arrive presented r.route) ∧
      r.id = s.site.nextRequest ∧ (step cfg s a).site.nextRequest = s.site.nextRequest + 1 := by
  simp only [step] at h ⊢
  cases hsite : siteAction s a with
  | none =>
    rw [hsite] at h
    exact .inl h
  | some b =>
    rw [hsite] at h
    obtain hold | ⟨presented, rfl, hid, -⟩ | ⟨id, rfl, r₀, -, -, hnew⟩ := requests_step h
    · exact .inl hold
    · exact .inr ⟨presented, rfl, hid, rfl⟩
    · rw [hnew.acted] at hacted
      cases hacted

theorem mem_come {x : Nat × Sent} (h : x ∈ come s a) : x ∈ s.come ∨ ∃ n presented y,
    a = .arrive n presented ∧ s.sent[n]? = some y ∧ x = (s.site.nextRequest, y) := by
  unfold come at h
  split at h
  · next n presented =>
    obtain hold | hnew := List.mem_append.mp h
    · exact .inl hold
    · obtain ⟨y, hy, rfl⟩ := Option.map_eq_some_iff.mp (Option.mem_toList.mp hnew)
      exact .inr ⟨n, presented, y, rfl, hy, rfl⟩
  all_goals exact .inl h

theorem kept_step (h : Kept cfg now as (play (step cfg) (opened now) as)) (a : Action) :
    Kept cfg now (as ++ [a]) (step cfg (play (step cfg) (opened now) as) a) := by
  generalize hs : play (step cfg) (opened now) as = s at h
  have hserved : served cfg now (as ++ [a]) =
      served cfg now as ++ project siteAction (step cfg) s [a] := by
    rw [← hs]
    exact project_append _ as [a]
  have hcopies : ∀ r ∈ s.site.requests, ∀ data ∈ r.session,
      Stems cfg { now } (served cfg now as) r.sid data := by
    rw [← hs, site_play]
    exact (traced cfg now (served cfg now as)).copies
  have hnext := nextRequest_step cfg s a
  refine ⟨fun tab htab => ?_, fun x hx => ?_, fun x hx => ?_, fun r hr hacted => ?_⟩
  · rw [hserved]
    refine sound_append ?_ _
    obtain rfl | ⟨old, hold, rfl | rfl | rfl | ⟨id, rfl⟩⟩ := mem_tabs htab
    · exact sound_new
    · exact h.tabs _ hold
    · exact sound_ask (h.tabs old hold)
    · exact sound_bootstrapSession (h.tabs old hold)
    · exact sound_hear (h.tabs old hold) hcopies
  · refine backed_step h.tabs ?_ a
    simp only [step, sent] at hx
    split at hx
    · next k e =>
      split at hx
      · exact h.sent x hx
      · obtain hold | hnew := List.mem_append.mp hx
        · exact h.sent x hold
        · obtain ⟨tab, htab, rfl⟩ := Option.map_eq_some_iff.mp (Option.mem_toList.mp hnew)
          exact backed_apiFetch htab e
    · exact h.sent x (List.mem_of_mem_eraseIdx hx)
    all_goals exact h.sent x hx
  · obtain hold | ⟨n, presented, y, rfl, hy, rfl⟩ := mem_come hx
    · obtain ⟨hlt, hbacked, hroute⟩ := h.come x hold
      refine ⟨Nat.lt_of_lt_of_le hlt hnext, backed_step h.tabs hbacked a, fun r hr hacted hid => ?_⟩
      obtain hr | ⟨-, -, hnew, -⟩ := fresh_step hr hacted
      · exact hroute r hr hacted hid
      · exact absurd (hid.symm.trans hnew) (Nat.ne_of_lt hlt)
    · have hsite : siteAction s (.arrive n presented) = some (.arrive presented y.route) := by
        simp [siteAction, hy]
      refine ⟨?_, backed_step h.tabs (h.sent y (List.mem_of_getElem? hy)) (.arrive n presented),
        fun r hr hacted hid => ?_⟩
      · simp only [step, hsite]
        exact Nat.lt_succ_self _
      · obtain hr | ⟨presented', hroute, -⟩ := fresh_step hr hacted
        · exact absurd hid (Nat.ne_of_lt (h.requests r hr hacted))
        · rw [hsite] at hroute
          exact (Session.Action.arrive.inj (Option.some.inj hroute)).2.symm
  · obtain hold | ⟨presented, -, hid, hnumber⟩ := fresh_step hr hacted
    · exact Nat.lt_of_lt_of_le (h.requests r hold hacted) hnext
    · rw [hid, hnumber]
      exact Nat.lt_succ_self _

theorem kept (cfg : Config) (now : Ms) (as : List Action) :
    Kept cfg now as (play (step cfg) (opened now) as) :=
  play_history (Kept cfg now) ⟨fun _ h => absurd h List.not_mem_nil,
    fun _ h => absurd h List.not_mem_nil, fun _ h => absurd h List.not_mem_nil,
    fun _ h => absurd h List.not_mem_nil⟩ (fun _ a h => kept_step h a) as

/-- With the token of a session that is alive, a request gets past its guard if the role may use
the route. -/
theorem verdict_alive {r : Request} {e : Endpoint} {supplied : Option String} {data : SessionData}
    (hroute : r.route = e.route supplied) (hdata : r.session = some data)
    (halive : Alive cfg now data) (htoken : supplied.filter (· ≠ "") = some data.csrfToken)
    (hrole : ∀ p ∈ e.permission, roleHasPermission data.role p = true) :
    verdict cfg now r = .passed { data with lastActivityAt := now } := by
  have hauth : ∀ stateChanging, requireAuth cfg now stateChanging supplied r.session =
      .passed { data with lastActivityAt := now } := by
    intro stateChanging
    have habsolute : ¬(data.absoluteExpiresAt ≠ 0 ∧ now > data.absoluteExpiresAt) :=
      fun ⟨hne, hlt⟩ => Int.not_lt.mpr (halive.absolute hne) hlt
    have hidle : ¬(data.lastActivityAt ≠ 0 ∧
        now - data.lastActivityAt > cfg.sessionIdleTimeoutMs) :=
      fun ⟨hne, hlt⟩ => Int.not_lt.mpr (halive.idle hne) hlt
    have hmatch : ¬(stateChanging = true ∧ supplied.filter (· ≠ "") ≠ some data.csrfToken) :=
      fun ⟨_, hne⟩ => hne htoken
    simp only [hdata, requireAuth, if_neg habsolute, if_neg hidle, if_neg hmatch]
  unfold Endpoint.route at hroute
  split at hroute
  · simp only [verdict, hroute, hauth]
  · cases hpermission : e.permission with
    | none => simp only [verdict, hroute, hpermission, hauth]
    | some p =>
      have hp := hrole p hpermission
      simp only [verdict, hroute, hpermission, requirePermission, hauth, hp, if_true]

/-- A session and the token of a tab that belong together belong to the user whom it shows. -/
theorem shown_same {token : String} {sid : Sid} {data : SessionData}
    (h : Sound cfg start bs tab) (htoken : tab.csrfToken = some token)
    (hstems : Stems cfg start bs sid data)
    (hsame : tab.session = some sid ∨ token = data.csrfToken) :
    tab.session = some sid ∧ token = data.csrfToken ∧
      tab.sidebarUser = some (data.username, data.role) := by
  obtain ⟨-, sid', data', hstems', rfl, hsession, huser⟩ := h.shown token htoken
  obtain ⟨rfl, hcsrf, husername, hrole⟩ := stems_same hstems hstems' (by
    rw [hsession] at hsame
    exact hsame.imp_left Option.some.inj)
  exact ⟨hsession, hcsrf, by rw [huser, husername, hrole]⟩

/-- What a tab changes, it changes as the user whom it shows: a request of a tab that changes
something gets past its guard exactly if the tab had its token when it sent the request, the
session that comes with the request is alive, it is the one in which the tab was told whom it
shows, and the role that it shows may use the route. -/
theorem acts_as_shown (cfg : Config) (now : Ms) (as : List Action) {id : Nat} {x : Sent}
    {r : Request} :
    let s := play (step cfg) (opened now) as
    (id, x) ∈ s.come → request s.site id = some r → r.acted = false →
      x.endpoint.method.stateChanging = true →
      ∃ tab, s.tabs[x.tab]? = some tab ∧
        (∀ sess, verdict cfg s.site.now r = .passed sess →
          tab.sidebarUser = some (sess.username, sess.role)) ∧
        ((∃ sess, verdict cfg s.site.now r = .passed sess) ↔
          x.supplied.isSome ∧ tab.session = some r.sid ∧
            (∃ data, r.session = some data ∧ Alive cfg s.site.now data) ∧
            ∃ username role, tab.sidebarUser = some (username, role) ∧
              ∀ p ∈ x.endpoint.permission, roleHasPermission role p = true) := by
  intro s hx hr hacted hchanging
  have hkept : Kept cfg now as s := kept cfg now as
  obtain ⟨-, ⟨tab, htab, hbacked⟩, hroute⟩ := hkept.come _ hx
  have hid : r.id = id := by simpa using List.find?_some hr
  have hroute : r.route = x.endpoint.route x.supplied := hroute r (request_mem hr) hacted hid
  have hsound := hkept.tabs tab (List.mem_of_getElem? htab)
  have hcopies : ∀ data ∈ r.session, Stems cfg { now } (served cfg now as) r.sid data :=
    (traced cfg now (served cfg now as)).copies r (site_play cfg now as ▸ request_mem hr)
  have hpassed : ∀ sess, verdict cfg s.site.now r = .passed sess → ∃ data,
      r.session = some data ∧ sess = { data with lastActivityAt := s.site.now } ∧
      x.supplied = some data.csrfToken ∧ tab.session = some r.sid ∧
      tab.sidebarUser = some (data.username, data.role) ∧
      ∀ p ∈ x.endpoint.permission, roleHasPermission data.role p = true := by
    intro sess hverdict
    obtain ⟨hauth, hrole⟩ := verdict_passed hroute hverdict
    obtain ⟨data, hdata, rfl, htoken, -⟩ := requireAuth_passed hauth
    have htoken := htoken hchanging
    obtain ⟨hsession, -, huser⟩ :=
      shown_same hsound (hbacked _ htoken).1 (hcopies data hdata) (.inr rfl)
    exact ⟨data, hdata, rfl, htoken, hsession, huser, hrole⟩
  refine ⟨tab, htab, fun sess hverdict => ?_, fun ⟨sess, hverdict⟩ => ?_, ?_⟩
  · obtain ⟨data, -, rfl, -, -, huser, -⟩ := hpassed sess hverdict
    exact huser
  · obtain ⟨data, hdata, -, htoken, hsession, huser, hrole⟩ := hpassed sess hverdict
    have hauth : (verdict cfg s.site.now r).authenticated = true := by
      rw [hverdict]
      rfl
    obtain ⟨data', hdata', habsolute, hidle⟩ := verdict_authenticated hauth
    exact ⟨by rw [htoken]; rfl, hsession, ⟨data', hdata', habsolute, hidle⟩, data.username,
      data.role, huser, hrole⟩
  · rintro ⟨hsupplied, hsession, ⟨data, hdata, halive⟩, username, role, huser, hrole⟩
    obtain ⟨token, htoken⟩ := Option.isSome_iff_exists.mp hsupplied
    obtain ⟨hhas, hne⟩ := hbacked token htoken
    obtain ⟨-, rfl, huser'⟩ := shown_same hsound hhas (hcopies data hdata) (.inl hsession)
    obtain ⟨-, rfl⟩ := Prod.mk.inj (Option.some.inj (huser.symm.trans huser'))
    have hfilter : x.supplied.filter (· ≠ "") = some data.csrfToken := by
      rw [htoken]
      exact Option.filter_eq_some_iff.mpr ⟨rfl, decide_eq_true hne⟩
    exact ⟨_, verdict_alive hroute hdata halive hfilter hrole⟩

def sentOnce : List Action :=
  [.serve (.arrive none (.login (some ⟨1, "owner", .owner⟩))), .serve (.act 0), .serve (.finish 0),
    .load, .ask 0 (some 1), .serve (.act 1), .serve (.finish 1), .bootstrapped 0, .fetch 0 .send,
    .arrive 0 (some 1)]

theorem acts_as_shown_sentOnce :
    let s := play (step defaultConfig) (opened 1000) sentOnce
    ∃ r tab, request s.site 2 = some r ∧ s.tabs[0]? = some tab ∧
      tab.sidebarUser = some ("owner", .owner) ∧
      ∃ sess, verdict defaultConfig s.site.now r = .passed sess := by
  refine ⟨_, _, rfl, rfl, rfl, ?_⟩
  obtain ⟨tab, htab, -, hpassed⟩ :=
    @acts_as_shown defaultConfig 1000 sentOnce 2 ⟨0, .send, some "0"⟩ _ (by decide) rfl rfl rfl
  obtain rfl := Option.some.inj htab
  refine hpassed.mpr ⟨rfl, rfl, ⟨_, rfl, ?_, ?_⟩, "owner", .owner, rfl, ?_⟩
  · decide
  · decide
  · decide

end WhatsappTester.Browser.Tabs
