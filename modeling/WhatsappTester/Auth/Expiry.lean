import WhatsappTester.Auth.Session

namespace WhatsappTester.Auth.Expiry

open Schema Session Atomic.Runs

def Expired (s : Site) (sid : Sid) : Prop := ∃ x ∈ s.expiries, x.1 = sid ∧ x.2 < s.now

def Idle (cfg : Config) (s : Site) (sid : Sid) : Prop :=
  ∀ x ∈ s.auths, x.1 = sid → s.now - x.2 > cfg.sessionIdleTimeoutMs

def Lapsed (cfg : Config) (s : Site) (sid : Sid) : Prop := Expired s sid ∨ Idle cfg s sid

instance (s : Site) (sid : Sid) : Decidable (Expired s sid) :=
  inferInstanceAs (Decidable (∃ x ∈ s.expiries, _ ∧ _))

instance (cfg : Config) (s : Site) (sid : Sid) : Decidable (Idle cfg s sid) :=
  inferInstanceAs (Decidable (∀ x ∈ s.auths, _ → _))

instance (cfg : Config) (s : Site) (sid : Sid) : Decidable (Lapsed cfg s sid) :=
  inferInstanceAs (Decidable (_ ∨ _))

/-- When the last request on a session has ended, if it was not destroyed after that. -/
def lastEnd (s : Site) (sid : Sid) : Option Ms :=
  (s.ends.find? (fun x => decide (x.1 = sid))).bind (fun x => x.2)

/-- How long the store keeps a session after that. -/
def lifetime (cfg : Config) : Ms :=
  if cfg.sessionIdleTimeoutMs ≠ 0 then cfg.sessionIdleTimeoutMs else 30 * 60 * 1000

/-- Neither the Socket.IO handshake nor a guarded route accepts a lapsed session. -/
def Within (cfg : Config) (s : Site) : Action → Prop
  | .arrive (some sid) .handshake => (load s (some sid)).isSome = true → ¬ Lapsed cfg s sid
  | .act id => ∀ r ∈ request s id, r.acted = false → (verdict cfg s.now r).authenticated = true →
      ¬ Lapsed cfg s r.sid
  | _ => True

/-- A guarded request on a session that is idle does not come within the idle timeout
of one with a wrong CSRF token, and no login sets an absolute expiry of 0. -/
def Ready (cfg : Config) (s : Site) (r : Request) : Prop :=
  match r.route with
  | .guarded .. | .logout _ =>
    Idle cfg s r.sid → ∀ x ∈ s.mismatches, x.1 = r.sid → s.now - x.2 > cfg.sessionIdleTimeoutMs
  | .login (some _) => s.now + cfg.sessionAbsoluteTimeoutMs ≠ 0
  | .login none | .index | .handshake | .other => True

/-- A handshake with a lapsed session comes when no request on it at all has ended within
its lifetime, and a request that comes to its guard is ready for it. -/
def Timely (cfg : Config) (s : Site) : Action → Prop
  | .arrive (some sid) .handshake => Lapsed cfg s sid → ∀ ended ∈ lastEnd s sid,
      s.now - ended > lifetime cfg
  | .act id => ∀ r ∈ request s id, r.acted = false → Ready cfg s r
  | _ => True

instance (cfg : Config) (s : Site) : (a : Action) → Decidable (Within cfg s a)
  | .arrive (some _) .handshake => inferInstanceAs (Decidable (_ → ¬ _))
  | .act id => inferInstanceAs (Decidable (∀ r ∈ request s id, _ → _ → ¬ _))
  | .arrive none _ | .arrive (some _) (.guarded ..) | .arrive (some _) (.logout _) |
      .arrive (some _) (.login _)
  | .arrive (some _) .index | .arrive (some _) .other | .finish _ | .sweep | .restart | .wait _ =>
    inferInstanceAs (Decidable True)

instance (cfg : Config) (s : Site) (r : Request) : Decidable (Ready cfg s r) :=
  match h : r.route with
  | .guarded .. => decidable_of_iff (Idle cfg s r.sid → _) (by rw [Ready, h])
  | .logout _ => decidable_of_iff (Idle cfg s r.sid → _) (by rw [Ready, h])
  | .login (some _) => decidable_of_iff (s.now + cfg.sessionAbsoluteTimeoutMs ≠ 0)
      (by rw [Ready, h])
  | .login none | .index | .handshake | .other => .isTrue (by simp [Ready, h])

instance (cfg : Config) (s : Site) : (a : Action) → Decidable (Timely cfg s a)
  | .arrive (some sid) .handshake =>
    inferInstanceAs (Decidable (_ → ∀ ended ∈ lastEnd s sid, s.now - ended > lifetime cfg))
  | .act id => inferInstanceAs (Decidable (∀ r ∈ request s id, _ → Ready cfg s r))
  | .arrive none _ | .arrive (some _) (.guarded ..) | .arrive (some _) (.logout _) |
      .arrive (some _) (.login _)
  | .arrive (some _) .index | .arrive (some _) .other | .finish _ | .sweep | .restart | .wait _ =>
    inferInstanceAs (Decidable True)

/-- What a copy of a session says was set by its login and by the requests on it. -/
structure Known (s : Site) (sid : Sid) (data : SessionData) : Prop where
  expiry : (sid, data.absoluteExpiresAt) ∈ s.expiries
  nonzero : data.absoluteExpiresAt ≠ 0
  active : 0 < data.lastActivityAt
  stamped : (sid, data.lastActivityAt) ∈ s.auths ∨ (sid, data.lastActivityAt) ∈ s.mismatches

structure Kept (s : Site) : Prop where
  clock : 0 < s.now
  rows : ∀ row ∈ s.sessions, Known s row.sid row.data
  copies : ∀ r ∈ s.requests, ∀ data ∈ r.session, Known s r.sid data
  fresh : ∀ x ∈ s.expiries, x.1 < s.nextSid
  single : ∀ x ∈ s.expiries, ∀ y ∈ s.expiries, x.1 = y.1 → x.2 = y.2

variable {cfg : Config} {s : Site}

theorem known_grow {s' : Site} {sid : Sid} {data : SessionData} (h : Known s sid data)
    (hexpiries : s.expiries ⊆ s'.expiries) (hauths : s.auths ⊆ s'.auths)
    (hmismatches : s.mismatches ⊆ s'.mismatches) :
    Known s' sid data :=
  ⟨hexpiries h.expiry, h.nonzero, h.active,
    h.stamped.imp (fun h => hauths h) (fun h => hmismatches h)⟩

structure Longer (s s' : Site) : Prop where
  now : s'.now = s.now
  expiries : s'.expiries = s.expiries
  nextSid : s.nextSid ≤ s'.nextSid
  auths : s.auths ⊆ s'.auths
  mismatches : s.mismatches ⊆ s'.mismatches

theorem known_longer {s' : Site} {sid : Sid} {data : SessionData} (h : Known s sid data)
    (hl : Longer s s') :
    Known s' sid data :=
  known_grow h (fun _ hx => hl.expiries ▸ hx) hl.auths hl.mismatches

theorem kept_longer {s' : Site} (h : Kept s) (hl : Longer s s')
    (hrows : ∀ row ∈ s'.sessions, row ∈ s.sessions ∨ Known s' row.sid row.data)
    (hcopies : ∀ r ∈ s'.requests, r ∈ s.requests ∨ ∀ data ∈ r.session, Known s' r.sid data) :
    Kept s' where
  clock := hl.now ▸ h.clock
  rows row hrow := (hrows row hrow).elim (fun hold => known_longer (h.rows row hold) hl) id
  copies r hr :=
    (hcopies r hr).elim (fun hold data hdata => known_longer (h.copies r hold data hdata) hl) id
  fresh x hx := Nat.lt_of_lt_of_le (h.fresh x (hl.expiries ▸ hx)) hl.nextSid
  single x hx y hy := h.single x (hl.expiries ▸ hx) y (hl.expiries ▸ hy)

theorem kept_put (h : Kept s) {r : Request} (hr : ∀ data ∈ r.session, Known s r.sid data) :
    Kept (put s r) := by
  have hlonger : Longer s (put s r) := ⟨rfl, rfl, Nat.le_refl _, fun _ hx => hx, fun _ hx => hx⟩
  refine kept_longer h hlonger (fun row hrow => .inl hrow) (fun x hx => ?_)
  obtain hold | rfl := mem_put hx
  · exact .inl hold
  · exact .inr (fun data hdata => known_longer (hr data hdata) hlonger)

theorem kept_destroySession (h : Kept s) (r : Request) : Kept (destroySession s r) := by
  apply kept_put
  · exact kept_longer h ⟨rfl, rfl, Nat.le_refl _, fun _ hx => hx, fun _ hx => hx⟩
      (fun row hrow => .inl (mem_destroy hrow).1) (fun x hx => .inl hx)
  · simp

theorem kept_note {s' : Site} (h : Kept s) (hl : Longer s s') (hsessions : s'.sessions = s.sessions)
    (hrequests : s'.requests = s.requests) : Kept s' :=
  kept_longer h hl (fun _ hrow => .inl (hsessions ▸ hrow)) (fun _ hx => .inl (hrequests ▸ hx))

theorem known_stamp {s' : Site} {sid : Sid} {data : SessionData} (h : Known s sid data)
    (hl : Longer s s') (hclock : 0 < s.now)
    (hnow : (sid, s.now) ∈ s'.auths ∨ (sid, s.now) ∈ s'.mismatches) :
    Known s' sid { data with lastActivityAt := s.now } :=
  ⟨hl.expiries ▸ h.expiry, h.nonzero, hclock, hnow⟩

theorem longer_auth (s : Site) (sid : Sid) : Longer s { s with auths := (sid, s.now) :: s.auths } :=
  ⟨rfl, rfl, Nat.le_refl _, List.subset_cons_self _ _, fun _ hx => hx⟩

theorem longer_mismatch (s : Site) (sid : Sid) :
    Longer s { s with mismatches := (sid, s.now) :: s.mismatches } :=
  ⟨rfl, rfl, Nat.le_refl _, fun _ hx => hx, List.subset_cons_self _ _⟩

theorem kept_stamp {s' : Site} (h : Kept s) (hl : Longer s s')
    (hsessions : s'.sessions = s.sessions) (hrequests : s'.requests = s.requests) {r : Request}
    (hr : r ∈ s.requests) {sess : SessionData}
    (hsess : ∃ data, r.session = some data ∧ sess = { data with lastActivityAt := s.now })
    (hnow : (r.sid, s.now) ∈ s'.auths ∨ (r.sid, s.now) ∈ s'.mismatches) :
    Kept (put s' { r with session := some sess, acted := true }) := by
  obtain ⟨data, hdata, rfl⟩ := hsess
  apply kept_put (kept_note h hl hsessions hrequests)
  rintro _ ⟨⟩
  exact known_stamp (h.copies r hr data hdata) hl h.clock hnow

theorem kept_runGuard (h : Kept s) {r : Request} (hr : r ∈ s.requests) {v : Verdict}
    (hv : ∀ sess, v.session = some sess → ∃ data, r.session = some data ∧
      sess = { data with lastActivityAt := s.now }) :
    Kept (runGuard s r v) := by
  cases v with
  | anonymous => exact kept_put h (h.copies r hr)
  | expired => exact kept_destroySession h r
  | mismatched sess =>
    exact kept_stamp h (longer_mismatch s r.sid) rfl rfl hr (hv sess rfl) (.inr List.mem_cons_self)
  | forbidden sess =>
    exact kept_stamp h (longer_auth s r.sid) rfl rfl hr (hv sess rfl) (.inl List.mem_cons_self)
  | passed sess =>
    exact kept_stamp h (longer_auth s r.sid) rfl rfl hr (hv sess rfl) (.inl List.mem_cons_self)

theorem kept_login (h : Kept s) (r : Request) (user : User)
    (hne : s.now + cfg.sessionAbsoluteTimeoutMs ≠ 0) :
    Kept (login cfg s r user) := by
  apply kept_put
  · constructor
    · exact h.clock
    · exact fun row hrow => known_grow (h.rows row (mem_destroy hrow).1) (List.subset_cons_self _ _)
        (List.subset_cons_self _ _) (fun _ hx => hx)
    · exact fun x hx data hdata => known_grow (h.copies x hx data hdata) (List.subset_cons_self _ _)
        (List.subset_cons_self _ _) (fun _ hx => hx)
    · intro x hx
      obtain rfl | hx := List.mem_cons.mp hx
      · exact Nat.lt_succ_self _
      · exact Nat.lt_succ_of_lt (h.fresh x hx)
    · intro x hx y hy hxy
      obtain rfl | hx := List.mem_cons.mp hx
      · obtain rfl | hy := List.mem_cons.mp hy
        · rfl
        · exact absurd hxy.symm (Nat.ne_of_lt (h.fresh y hy))
      · obtain rfl | hy := List.mem_cons.mp hy
        · exact absurd hxy (Nat.ne_of_lt (h.fresh x hx))
        · exact h.single x hx y hy hxy
  · rintro _ ⟨⟩
    exact ⟨List.mem_cons_self, hne, h.clock, .inl List.mem_cons_self⟩

theorem kept_actOn (h : Kept s) {r : Request} (hr : r ∈ s.requests)
    (hlogin : ∀ user, r.route = .login (some user) → s.now + cfg.sessionAbsoluteTimeoutMs ≠ 0) :
    Kept (actOn cfg s r) := by
  have hguard : Kept (runGuard s r (verdict cfg s.now r)) :=
    kept_runGuard h hr (fun sess hsess => verdict_session hsess)
  unfold actOn
  split
  · exact hguard
  · split
    · exact kept_destroySession (kept_note h (longer_auth s r.sid) rfl rfl) _
    · exact hguard
  · next user hroute => exact kept_login h r user (hlogin user hroute)
  · exact kept_put h (h.copies r hr)
  · exact kept_put h (h.copies r hr)
  · exact kept_put h (h.copies r hr)
  · exact kept_put h (h.copies r hr)

theorem kept_arrive (h : Kept s) (presented : Option Sid) (route : Route) :
    Kept (arrive s presented route) := by
  have hlonger : Longer s (arrive s presented route) :=
    ⟨rfl, rfl, Nat.le_succ _, fun _ hx => hx, fun _ hx => hx⟩
  refine kept_longer h hlonger (fun row hrow => .inl hrow) (fun x hx => ?_)
  obtain hold | hnew := List.mem_append.mp hx
  · exact .inl hold
  · refine .inr (fun data hdata => ?_)
    rw [List.mem_singleton.mp hnew] at hdata ⊢
    have hload : load s presented = some data := hdata
    obtain ⟨sid, rfl, row, hrow, rfl, rfl, -⟩ := load_some hload
    simp only [hload, Option.isSome_some, if_true, Option.getD_some]
    exact known_longer (h.rows row hrow) hlonger

theorem kept_finish (h : Kept s) (id : Nat) : Kept (finish s id) := by
  unfold finish
  split
  · next r hr =>
    refine kept_longer h ⟨rfl, rfl, Nat.le_refl _, fun _ hx => hx, fun _ hx => hx⟩
      (fun row hrow => ?_)
      (fun x hx => .inl (List.mem_filter.mp hx).1)
    obtain hold | ⟨data, hdata, hsid, rfl⟩ := mem_save hrow
    · exact .inl hold
    · rw [hsid]
      exact .inr (known_grow (h.copies r (request_mem hr) row.data hdata) (fun _ hx => hx)
        (fun _ hx => hx)
        (fun _ hx => hx))
  · exact h

theorem kept_step (h : Kept s) {a : Action} (ha : Timely cfg s a) : Kept (step cfg s a) := by
  cases a with
  | arrive presented route => exact kept_arrive h presented route
  | act id =>
    simp only [step, act]
    split
    · next r hr =>
      split
      · exact h
      · next hacted =>
        apply kept_actOn h (request_mem hr)
        intro user hroute
        have hlogin := ha r hr (Bool.eq_false_iff.mpr hacted)
        rwa [Ready, hroute] at hlogin
    · exact h
  | finish id => exact kept_finish h id
  | sweep =>
    exact kept_longer h ⟨rfl, rfl, Nat.le_refl _, fun _ hx => hx, fun _ hx => hx⟩
      (fun row hrow => .inl (List.mem_filter.mp hrow).1) (fun x hx => .inl hx)
  | restart =>
    exact kept_longer h ⟨rfl, rfl, Nat.le_refl _, fun _ hx => hx, fun _ hx => hx⟩
      (fun row hrow => .inl hrow)
      (fun x hx => absurd hx List.not_mem_nil)
  | wait ms =>
    refine ⟨Int.add_pos_of_pos_of_nonneg h.clock (Int.natCast_nonneg ms), fun row hrow => ?_,
      fun r hr data hdata => ?_, h.fresh, h.single⟩
    · exact known_grow (h.rows row hrow) (fun _ hx => hx) (fun _ hx => hx) (fun _ hx => hx)
    · exact known_grow (h.copies r hr data hdata) (fun _ hx => hx) (fun _ hx => hx) (fun _ hx => hx)

section Stored

/-- The store has the sessions on which a request has ended, each with the time up to which
it lives from then on. -/
structure Stored (cfg : Config) (s : Site) : Prop where
  rows : ∀ row ∈ s.sessions, row.data.maxAge = cfg.sessionIdleTimeoutMs
  copies : ∀ r ∈ s.requests, ∀ data ∈ r.session, data.maxAge = cfg.sessionIdleTimeoutMs
  expiry : ∀ row ∈ s.sessions, ∃ ended ∈ lastEnd s row.sid, row.expiresAt = ended + lifetime cfg
  found : ∀ sid, ∀ ended ∈ lastEnd s sid, s.now ≤ ended + lifetime cfg →
    ∃ row ∈ s.sessions, row.sid = sid

variable {s' : Site} {sid sid' : Sid} {ended : Option Ms} {r : Request}

theorem lastEnd_cons (h : s'.ends = (sid, ended) :: s.ends) :
    lastEnd s' sid' = if sid = sid' then ended else lastEnd s sid' := by
  rw [lastEnd, h, List.find?_cons]
  by_cases heq : sid = sid'
  · simp [heq]
  · simp [heq, lastEnd]

theorem lastEnd_same (h : s'.ends = s.ends) : lastEnd s' sid' = lastEnd s sid' := by
  rw [lastEnd, h, lastEnd]

theorem stored_same (h : Stored cfg s) (hends : s'.ends = s.ends) (hnow : s.now ≤ s'.now)
    (hsub : s'.sessions ⊆ s.sessions)
    (hlive : ∀ row ∈ s.sessions, s.now ≤ row.expiresAt → row ∈ s'.sessions)
    (hcopies : ∀ r ∈ s'.requests, ∀ data ∈ r.session,
      data.maxAge = cfg.sessionIdleTimeoutMs) : Stored cfg s' := by
  refine ⟨fun row hrow => h.rows row (hsub hrow), hcopies, fun row hrow => ?_,
    fun sid ended hended hlater => ?_⟩
  · rw [lastEnd_same hends]
    exact h.expiry row (hsub hrow)
  · rw [lastEnd_same hends] at hended
    have hbefore := Int.le_trans hnow hlater
    obtain ⟨row, hrow, rfl⟩ := h.found sid ended hended hbefore
    obtain ⟨ended', hended', hexpires⟩ := h.expiry row hrow
    obtain rfl := Option.some.inj (hended.symm.trans hended')
    exact ⟨row, hlive row hrow (hexpires ▸ hbefore), rfl⟩

theorem copies_put (h : Stored cfg s) (hr : ∀ data ∈ r.session,
    data.maxAge = cfg.sessionIdleTimeoutMs) :
    ∀ x ∈ (put s r).requests, ∀ data ∈ x.session, data.maxAge = cfg.sessionIdleTimeoutMs := by
  intro x hx
  obtain hold | rfl := mem_put hx
  · exact h.copies x hold
  · exact hr

theorem stored_put (h : Stored cfg s) (hr : ∀ data ∈ r.session,
    data.maxAge = cfg.sessionIdleTimeoutMs) : Stored cfg (put s r) :=
  stored_same h rfl (Int.le_refl _) (fun _ hrow => hrow) (fun _ hrow _ => hrow) (copies_put h hr)

theorem stored_destroy (h : Stored cfg s) (hends : s'.ends = (sid, none) :: s.ends)
    (hnow : s'.now = s.now) (hsessions : s'.sessions = destroy sid s.sessions)
    (hrequests : s'.requests = s.requests) : Stored cfg s' := by
  refine ⟨fun row hrow => ?_, hrequests ▸ h.copies, fun row hrow => ?_,
    fun sid' ended hended hlater => ?_⟩
  · rw [hsessions] at hrow
    exact h.rows row (mem_destroy hrow).1
  · rw [hsessions] at hrow
    obtain ⟨hold, hne⟩ := mem_destroy hrow
    rw [lastEnd_cons hends, if_neg hne.symm]
    exact h.expiry row hold
  · rw [lastEnd_cons hends] at hended
    by_cases heq : sid = sid'
    · rw [if_pos heq] at hended
      cases hended
    · rw [if_neg heq] at hended
      obtain ⟨row, hrow, rfl⟩ := h.found sid' ended hended (hnow ▸ hlater)
      refine ⟨row, ?_, rfl⟩
      rw [hsessions]
      exact List.mem_filter.mpr ⟨hrow, decide_eq_true (Ne.symm heq)⟩

theorem stored_destroySession (h : Stored cfg s) (r : Request) :
    Stored cfg (destroySession s r) :=
  stored_put (stored_destroy h rfl rfl rfl rfl) nofun

theorem stored_ended (h : Stored cfg s) {data : SessionData}
    (hmaxAge : data.maxAge = cfg.sessionIdleTimeoutMs)
    (hends : s'.ends = (sid, some s.now) :: s.ends)
    (hnow : s'.now = s.now) (hsessions : s'.sessions = set s.now sid data s.sessions)
    (hcopies : ∀ r ∈ s'.requests, ∀ data ∈ r.session,
      data.maxAge = cfg.sessionIdleTimeoutMs) : Stored cfg s' := by
  have hmem : ∀ row, row ∈ s'.sessions ↔ (row ∈ s.sessions ∧ row.sid ≠ sid) ∨
      row = ⟨sid, data, s.now + lifetime cfg⟩ := by
    intro row
    rw [hsessions, mem_set_iff, hmaxAge, lifetime]
  refine ⟨fun row hrow => ?_, hcopies, fun row hrow => ?_, fun sid' ended hended hlater => ?_⟩
  · obtain ⟨hold, -⟩ | rfl := (hmem row).mp hrow
    · exact h.rows row hold
    · exact hmaxAge
  · rw [lastEnd_cons hends]
    obtain ⟨hold, hne⟩ | rfl := (hmem row).mp hrow
    · rw [if_neg hne.symm]
      exact h.expiry row hold
    · exact ⟨s.now, if_pos rfl, rfl⟩
  · rw [lastEnd_cons hends] at hended
    by_cases heq : sid = sid'
    · exact ⟨_, (hmem _).mpr (.inr rfl), heq⟩
    · rw [if_neg heq] at hended
      obtain ⟨row, hrow, rfl⟩ := h.found sid' ended hended (hnow ▸ hlater)
      exact ⟨row, (hmem row).mpr (.inl ⟨hrow, Ne.symm heq⟩), rfl⟩

theorem stored_finish (h : Stored cfg s) (id : Nat) : Stored cfg (finish s id) := by
  unfold finish
  split
  · next r hr =>
    have hcopies : ∀ x ∈ s.requests.filter (fun x => decide (x.id ≠ id)), ∀ data ∈ x.session,
        data.maxAge = cfg.sessionIdleTimeoutMs :=
      fun x hx => h.copies x (List.mem_filter.mp hx).1
    cases hsession : r.session with
    | none =>
      have hsave : save s r = s.sessions := by simp only [save, hsession]
      rw [hsave]
      exact stored_same h rfl (Int.le_refl _) (fun _ hrow => hrow) (fun _ hrow _ => hrow) hcopies
    | some data =>
      rw [save_set hsession]
      exact stored_ended h (h.copies r (request_mem hr) data hsession) rfl rfl rfl hcopies
  · exact h

theorem stored_runGuard (h : Stored cfg s) {r : Request} (hr : r ∈ s.requests) {v : Verdict}
    (hv : ∀ sess, v.session = some sess → ∃ data, r.session = some data ∧
      sess = { data with lastActivityAt := s.now }) : Stored cfg (runGuard s r v) := by
  have hstamped : ∀ sess, v.session = some sess → sess.maxAge = cfg.sessionIdleTimeoutMs := by
    intro sess hsess
    obtain ⟨data, hdata, rfl⟩ := hv sess hsess
    exact h.copies r hr data hdata
  have hnoted : ∀ {s' : Site}, s'.ends = s.ends → s'.now = s.now → s'.sessions = s.sessions →
      s'.requests = s.requests → Stored cfg s' :=
    fun hends hnow hsessions hrequests => stored_same h hends (Int.le_of_eq hnow.symm)
      (hsessions ▸ fun _ hrow => hrow) (fun _ hrow _ => hsessions ▸ hrow) (hrequests ▸ h.copies)
  cases v with
  | anonymous => exact stored_put h (h.copies r hr)
  | expired => exact stored_destroySession h r
  | mismatched sess | forbidden sess | passed sess =>
    refine stored_put (hnoted rfl rfl rfl rfl) ?_
    rintro _ ⟨⟩
    exact hstamped sess rfl

theorem stored_actOn (h : Stored cfg s) {r : Request} (hr : r ∈ s.requests) :
    Stored cfg (actOn cfg s r) := by
  have hguard : Stored cfg (runGuard s r (verdict cfg s.now r)) :=
    stored_runGuard h hr (fun sess hsess => verdict_session hsess)
  unfold actOn
  split
  · exact hguard
  · split
    · refine stored_destroySession (stored_same h ?_ ?_ ?_ ?_ ?_) _
      · rfl
      · exact Int.le_refl _
      · exact fun _ hrow => hrow
      · exact fun _ hrow _ => hrow
      · exact h.copies
    · exact hguard
  · next user hroute =>
    refine stored_put (stored_destroy h rfl rfl rfl rfl) ?_
    rintro _ ⟨⟩
    rfl
  · exact stored_put h (h.copies r hr)
  · exact stored_put h (h.copies r hr)
  · exact stored_put h (h.copies r hr)
  · exact stored_put h (h.copies r hr)

theorem stored_arrive (h : Stored cfg s) (presented : Option Sid) (route : Route) :
    Stored cfg (arrive s presented route) := by
  refine stored_same h rfl (Int.le_refl _) (fun _ hrow => hrow) (fun _ hrow _ => hrow)
    (fun x hx data hdata => ?_)
  obtain hold | hnew := List.mem_append.mp hx
  · exact h.copies x hold data hdata
  · rw [List.mem_singleton.mp hnew] at hdata
    obtain ⟨sid, -, row, hrow, -, rfl, -⟩ := load_some hdata
    exact h.rows row hrow

theorem stored_step (h : Stored cfg s) (a : Action) : Stored cfg (step cfg s a) := by
  cases a with
  | arrive presented route => exact stored_arrive h presented route
  | act id =>
    simp only [step, act]
    split
    · next r hr =>
      split
      · exact h
      · exact stored_actOn h (request_mem hr)
    · exact h
  | finish id => exact stored_finish h id
  | sweep =>
    exact stored_same h rfl (Int.le_refl _) (fun _ hrow => (List.mem_filter.mp hrow).1)
      (fun row hrow hlive => List.mem_filter.mpr
        ⟨hrow, decide_eq_true (Int.not_lt.mpr hlive)⟩) h.copies
  | restart =>
    exact stored_same h rfl (Int.le_refl _) (fun _ hrow => hrow) (fun _ hrow _ => hrow)
      (fun x hx => absurd hx List.not_mem_nil)
  | wait ms =>
    exact stored_same h rfl (Int.le_add_of_nonneg_right (Int.natCast_nonneg ms))
      (fun _ hrow => hrow) (fun _ hrow _ => hrow) h.copies

/-- The store gives a session as long as a request on it has ended within its lifetime, and no
longer. -/
theorem loads_iff (h : Stored cfg s) (sid : Sid) :
    (load s (some sid)).isSome = true ↔
      ∃ ended ∈ lastEnd s sid, s.now - ended ≤ lifetime cfg := by
  constructor
  · intro hsome
    obtain ⟨data, hload⟩ := Option.isSome_iff_exists.mp hsome
    obtain ⟨_, ⟨⟩, row, hrow, rfl, -, hlive⟩ := load_some hload
    obtain ⟨ended, hended, hexpires⟩ := h.expiry row hrow
    exact ⟨ended, hended, Int.sub_left_le_of_le_add (hexpires ▸ hlive)⟩
  · rintro ⟨ended, hended, hlive⟩
    have hlater := Int.le_add_of_sub_left_le hlive
    obtain ⟨row, hrow, hsid⟩ := h.found sid ended hended hlater
    have hsome : (s.sessions.find? (fun row => decide (row.sid = sid))).isSome = true :=
      List.find?_isSome.mpr ⟨row, hrow, decide_eq_true hsid⟩
    obtain ⟨first, hfirst⟩ := Option.isSome_iff_exists.mp hsome
    have hfirstSid : first.sid = sid := by simpa using List.find?_some hfirst
    obtain ⟨ended', hended', hexpires⟩ := h.expiry first (List.mem_of_find?_eq_some hfirst)
    rw [hfirstSid, Option.mem_def.mp hended] at hended'
    obtain rfl := Option.some.inj hended'
    simp only [load, Session.get, Option.bind_some, hfirst]
    rw [if_neg (Int.not_lt.mpr (hexpires ▸ hlater))]
    rfl

end Stored

/-- The route of a request that gets past the guard is guarded, or it is `/logout`. -/
theorem route_of_authenticated {r : Request} {now : Ms}
    (h : (verdict cfg now r).authenticated = true) :
    (∃ permission stateChanging supplied, r.route = .guarded permission stateChanging supplied) ∨
      ∃ supplied, r.route = .logout supplied := by
  unfold verdict at h
  split at h
  · next hroute => exact .inl ⟨_, _, _, hroute⟩
  · next hroute => exact .inl ⟨_, _, _, hroute⟩
  · next hroute => exact .inr ⟨_, hroute⟩
  · simp [Verdict.authenticated] at h

/-- The guard knows when a session expires, and it knows of the last request that
was authenticated or had a wrong CSRF token. -/
theorem within_guard (h : Kept s) {id : Nat} (ha : Timely cfg s (.act id)) :
    Within cfg s (.act id) := by
  intro r hr hacted hpassed
  obtain ⟨data, hdata, habsolute, hidle⟩ := verdict_authenticated hpassed
  have hknown := h.copies r (request_mem hr) data hdata
  have hlive := habsolute hknown.nonzero
  have hactive := hidle (Int.ne_of_gt hknown.active)
  rintro (⟨x, hx, hsid, hlate⟩ | hgap)
  · have hsame := h.single x hx _ hknown.expiry hsid
    rw [hsame] at hlate
    exact absurd hlive (Int.not_le.mpr hlate)
  · obtain hauth | hmismatch := hknown.stamped
    · exact absurd hactive (Int.not_le.mpr (hgap _ hauth rfl))
    · have htimely := ha r hr hacted
      obtain ⟨permission, stateChanging, supplied, hroute⟩ | ⟨supplied, hroute⟩ :=
        route_of_authenticated hpassed
      · rw [Ready, hroute] at htimely
        exact absurd hactive (Int.not_le.mpr (htimely hgap _ hmismatch rfl))
      · rw [Ready, hroute] at htimely
        exact absurd hactive (Int.not_le.mpr (htimely hgap _ hmismatch rfl))

theorem within_of_kept (h : Kept s) (hstored : Stored cfg s) {a : Action} (ha : Timely cfg s a) :
    Within cfg s a := by
  cases a with
  | arrive presented route =>
    cases presented with
    | none => trivial
    | some sid =>
      cases route with
      | handshake =>
        intro hsome hlapsed
        obtain ⟨ended, hended, hlive⟩ := (loads_iff hstored sid).mp hsome
        exact absurd hlive (Int.not_le.mpr (ha hlapsed ended hended))
      | _ => trivial
  | act id => exact within_guard h ha
  | finish id => trivial
  | sweep => trivial
  | restart => trivial
  | wait ms => trivial

/-- No entry point accepts a session past its absolute expiry or after an idle gap,
in a run that is timely. -/
theorem accepted_within (cfg : Config) (start : Nat) {as : List Action}
    (h : Along (Timely cfg) (step cfg) { now := start + 1 } as) :
    Along (Within cfg) (step cfg) { now := start + 1 } as := by
  have hstart : Kept { now := start + 1 } ∧ Stored cfg { now := start + 1 } :=
    ⟨⟨Int.lt_add_one_of_le (Int.natCast_nonneg start), by simp, by simp, by simp, by simp⟩,
      ⟨by simp, by simp, by simp, by simp [lastEnd]⟩⟩
  refine along_invariant (fun s => Kept s ∧ Stored cfg s) (fun s a h hok => ?_) hstart h
  exact ⟨within_of_kept h.1 h.2 hok, kept_step h.1 hok, stored_step h.2 a⟩

def owner : User := ⟨1, "owner", .owner⟩

theorem accepted_within_idle :
    Along (Within defaultConfig) (step defaultConfig) { now := (0 : Nat) + 1 }
      [.arrive none (.login (some owner)), .act 0, .finish 0, .wait 1200000,
      .arrive (some 1) .handshake, .finish 1, .wait 1800001, .arrive (some 1) .handshake, .finish 2,
      .arrive (some 1) (.guarded (some .viewChats) false none), .act 3, .finish 3] :=
  accepted_within defaultConfig 0 (by decide +kernel)

/-- A static file renews the stored expiry of a session, which is all that the
handshake goes by. -/
theorem handshake_after_idle :
    ¬ Along (Within defaultConfig) (step defaultConfig) { now := (0 : Nat) + 1 }
      [.arrive none (.login (some owner)), .act 0, .finish 0, .wait 1200000,
      .arrive (some 1) .other, .finish 1, .wait 1200000, .arrive (some 1) .handshake] := by
  decide +kernel

end WhatsappTester.Auth.Expiry
