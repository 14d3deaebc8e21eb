import WhatsappTester.Atomic.Runs
import WhatsappTester.Atomic.Window
import WhatsappTester.Auth.Passwords

namespace WhatsappTester.Auth.Throttling

open Schema Atomic.Runs Atomic.Window Passwords

def windowMs : Ms := 15 * 60 * 1000
def maxFailures : Nat := 5

structure User where
  id : Nat
  username : String
  passwordHash : String
  lastLoginAt : Option Ms

structure LoginAttempt where
  username : String
  ts : Ms
  success : Bool
  ip : Option String

structure Request where
  id : Option Id
  ip : Option String
  username : String
  password : String

inductive Verdict
  | passed (user : User)
  | failed
  | threw

def Verdict.isFailed : Verdict → Bool
  | .failed => true
  | _ => false

structure Check where
  username : String
  time : Ms
  verdict : Verdict

/-- The clock, the tables that a login works on, the logins that await the regeneration of
their session, and the checks of passwords so far. -/
structure Site where
  now : Ms
  users : List User
  attempts : List LoginAttempt
  audit : List AuditRow := []
  pending : List (Request × User) := []
  checks : List Check := []

def elapse (ms : Nat) (s : Site) : Site := { s with now := s.now + ms }

def isLockedOut (username : String) (s : Site) : Bool :=
  decide (maxFailures ≤ s.attempts.countP (fun t =>
    decide (t.username = username ∧ t.success = false ∧ s.now - windowMs < t.ts)))

def recordLoginAttempt (r : Request) (success : Bool) (s : Site) : Site :=
  { s with attempts := s.attempts ++ [⟨r.username, s.now, success, r.ip.filter (· ≠ "")⟩] }

def recordAudit (r : Request) (result : String) (s : Site) : Site :=
  { s with
    audit := s.audit ++
      [⟨s.now, (some r.username).filter (· ≠ ""), "login", none, result, r.id, none⟩] }

/-- `!user || !verifyPassword(password, user.password_hash)` -/
def checkPassword (scrypt : Scrypt) (r : Request) (users : List User) : Verdict :=
  match users.find? (fun user => decide (user.username = r.username)) with
  | none => .failed
  | some user =>
    match verifyPassword scrypt r.password user.passwordHash with
    | .error _ => .threw
    | .ok true => .passed user
    | .ok false => .failed

/-- How `/login` comes to its first `await`, or to its end without one. -/
inductive Answer
  | lockedOut | refused | error | awaiting
  deriving DecidableEq

/-- `/login` up to its `await`, where some time goes by before the check of the password and
some after it. -/
def login (scrypt : Scrypt) (r : Request) (before after : Nat) (s : Site) : Answer × Site :=
  if isLockedOut r.username s then
    (.lockedOut, recordAudit r "locked_out"
      (recordLoginAttempt r false (elapse (before + after) s)))
  else
    let verdict := checkPassword scrypt r s.users
    let s := elapse before s
    let s := elapse after { s with checks := s.checks ++ [⟨r.username, s.now, verdict⟩] }
    match verdict with
    | .failed => (.refused, recordAudit r "failure" (recordLoginAttempt r false s))
    | .threw => (.error, s)
    | .passed user => (.awaiting, { s with pending := s.pending ++ [(r, user)] })

/-- `/login` from its `await` on, with the session regenerated or not. -/
def regenerated (k : Nat) (ok : Bool) (s : Site) : Site :=
  match s.pending[k]? with
  | none => s
  | some (r, user) =>
    let s := { s with pending := s.pending.eraseIdx k }
    if ok then
      let users := Atomic.Table.update (fun u : User => decide (u.id = user.id))
        (fun u => { u with lastLoginAt := some s.now }) s.users
      recordAudit r "success" (recordLoginAttempt r true { s with users := users })
    else s

inductive Action
  | wait (ms : Nat)
  | login (r : Request) (before after : Nat)
  | regenerated (k : Nat) (ok : Bool)
  /-- Others write to the table of users. -/
  | others (users : List User)

def step (scrypt : Scrypt) (s : Site) : Action → Site
  | .wait ms => elapse ms s
  | .login r before after => (login scrypt r before after s).2
  | .regenerated k ok => regenerated k ok s
  | .others users => { s with users := users }

def failures (username : String) (s : Site) : List Ms :=
  (s.checks.filter (fun c => decide (c.username = username) && c.verdict.isFailed)).map (·.time)

def recorded (username : String) (s : Site) : List Ms :=
  (s.attempts.filter (fun t => decide (t.username = username ∧ t.success = false))).map (·.ts)

structure Throttled (s : Site) : Prop where
  limited : ∀ username, Limited windowMs maxFailures (failures username s)
  logged : ∀ username, Logged (failures username s) (recorded username s)

section Tables

variable {s s' : Site} {username : String}

/-- A username is locked out by the failures of it that the table has in the last window. -/
theorem isLockedOut_iff : isLockedOut username s = true ↔
    maxFailures ≤ (recorded username s).countP (fun t => decide (s.now - windowMs < t)) := by
  have hcount : (recorded username s).countP (fun t => decide (s.now - windowMs < t)) =
      s.attempts.countP (fun t =>
        decide (t.username = username ∧ t.success = false ∧ s.now - windowMs < t.ts)) := by
    rw [recorded, List.countP_map, List.countP_filter]
    refine List.countP_congr (fun t _ => ?_)
    simp only [Function.comp_apply, Bool.and_eq_true, decide_eq_true_eq]
    tauto
  rw [isLockedOut, decide_eq_true_eq, hcount]

theorem failures_check {c : Check} (h : s'.checks = s.checks ++ [c]) :
    failures username s' = failures username s ++
      if c.username = username ∧ c.verdict.isFailed then [c.time] else [] := by
  rw [failures, h, List.filter_append, List.map_append, failures, List.filter_singleton]
  by_cases hc : c.username = username ∧ c.verdict.isFailed
  · simp [hc]
  · have hno : (decide (c.username = username) && c.verdict.isFailed) = false := by simpa using hc
    rw [if_neg hc, hno, cond_false, List.map_nil]

theorem recorded_attempt {t : LoginAttempt} (h : s'.attempts = s.attempts ++ [t]) :
    recorded username s' = recorded username s ++
      if t.username = username ∧ t.success = false then [t.ts] else [] := by
  rw [recorded, h, List.filter_append, List.map_append, recorded, List.filter_singleton]
  by_cases ht : t.username = username ∧ t.success = false
  · simp [ht]
  · rw [if_neg ht, decide_eq_false ht, cond_false, List.map_nil]

/-- More attempts in the table do no harm. -/
theorem throttled_attempts (hchecks : s'.checks = s.checks)
    (hattempts : s.attempts <+: s'.attempts) (h : Throttled s) : Throttled s' := by
  obtain ⟨more, hmore⟩ := hattempts
  refine ⟨fun username => ?_, fun username => ?_⟩
  · rw [failures, hchecks]
    exact h.limited username
  · rw [failures, hchecks, recorded, ← hmore, List.filter_append, List.map_append]
    exact logged_append (h.logged username) _

theorem throttled_unfailed {c : Check} (hc : c.verdict.isFailed = false)
    (hchecks : s'.checks = s.checks ++ [c]) (hattempts : s'.attempts = s.attempts)
    (h : Throttled s) : Throttled s' := by
  have hsame : ∀ username, failures username s' = failures username s := by
    intro username
    rw [failures_check hchecks, if_neg (by simp [hc]), List.append_nil]
  refine ⟨fun username => hsame username ▸ h.limited username, fun username => ?_⟩
  rw [hsame, recorded, hattempts]
  exact h.logged username

/-- A failed check for a username that is not locked out is within the limit. -/
theorem throttled_failed {time ts : Ms} {ip : Option String}
    (hopen : isLockedOut username s = false) (htime : s.now ≤ time) (hts : time ≤ ts)
    (hchecks : s'.checks = s.checks ++ [⟨username, time, .failed⟩])
    (hattempts : s'.attempts = s.attempts ++ [⟨username, ts, false, ip⟩]) (h : Throttled s) :
    Throttled s' := by
  have hroom : (recorded username s).countP (fun t => decide (s.now - windowMs < t)) <
      maxFailures := by
    by_contra hfull
    rw [isLockedOut_iff.mpr (Nat.le_of_not_lt hfull)] at hopen
    cases hopen
  refine ⟨fun other => ?_, fun other => ?_⟩
  · rw [failures_check hchecks]
    by_cases hother : username = other
    · subst hother
      rw [if_pos ⟨rfl, rfl⟩]
      exact limited_concat (h.logged username) (h.limited username) hroom htime
    · rw [if_neg (fun hboth => hother hboth.1), List.append_nil]
      exact h.limited other
  · rw [failures_check hchecks, recorded_attempt hattempts]
    by_cases hother : username = other
    · subst hother
      rw [if_pos ⟨rfl, rfl⟩, if_pos ⟨rfl, rfl⟩]
      exact logged_concat (h.logged username) hts
    · rw [if_neg (fun hboth => hother hboth.1), if_neg (fun hboth => hother hboth.1),
        List.append_nil, List.append_nil]
      exact h.logged other

end Tables

section Login

variable {scrypt : Scrypt} {s : Site} {r : Request} {before after : Nat}

theorem login_locked (h : isLockedOut r.username s = true) : login scrypt r before after s =
    (.lockedOut, recordAudit r "locked_out"
      (recordLoginAttempt r false (elapse (before + after) s))) := if_pos h

/-- It is the lockout that refuses a request, or its password is checked. -/
theorem login_open (h : isLockedOut r.username s = false) :
    (login scrypt r before after s).1 ≠ .lockedOut ∧
      (login scrypt r before after s).2.checks =
        s.checks ++ [⟨r.username, s.now + before, checkPassword scrypt r s.users⟩] := by
  rw [login, if_neg (by simp [h])]
  cases checkPassword scrypt r s.users <;> exact ⟨by simp, rfl⟩

theorem throttled_login (h : Throttled s) : Throttled (login scrypt r before after s).2 := by
  cases hopen : isLockedOut r.username s with
  | true =>
    rw [login_locked hopen]
    exact throttled_attempts (s := s) rfl (List.prefix_append _ _) h
  | false =>
    obtain ⟨_, hchecks⟩ := @login_open scrypt s r before after hopen
    cases hverdict : checkPassword scrypt r s.users with
    | passed user =>
      rw [hverdict] at hchecks
      refine throttled_unfailed rfl hchecks ?_ h
      simp only [login, hopen, hverdict]
      rfl
    | threw =>
      rw [hverdict] at hchecks
      refine throttled_unfailed rfl hchecks ?_ h
      simp only [login, hopen, hverdict]
      rfl
    | failed =>
      rw [hverdict] at hchecks
      have hbefore : s.now ≤ s.now + before := Int.le_add_of_nonneg_right (Int.natCast_nonneg _)
      have hafter : s.now + before ≤ s.now + before + after :=
        Int.le_add_of_nonneg_right (Int.natCast_nonneg _)
      have hattempts : (login scrypt r before after s).2.attempts =
          s.attempts ++ [⟨r.username, s.now + before + after, false, r.ip.filter (· ≠ "")⟩] := by
        simp only [login, hopen, hverdict]
        rfl
      exact throttled_failed hopen hbefore hafter hchecks hattempts h

theorem throttled_regenerated (k : Nat) (ok : Bool) (h : Throttled s) :
    Throttled (regenerated k ok s) := by
  unfold regenerated
  split
  · exact h
  · cases ok with
    | true => exact throttled_attempts (s := s) rfl (List.prefix_append _ _) h
    | false => exact throttled_attempts (s := s) rfl (List.prefix_refl _) h

theorem throttled_step (a : Action) (h : Throttled s) : Throttled (step scrypt s a) := by
  cases a with
  | wait ms => exact throttled_attempts (s := s) rfl (List.prefix_refl _) h
  | login r before after => exact throttled_login h
  | regenerated k ok => exact throttled_regenerated k ok h
  | others users => exact throttled_attempts (s := s) rfl (List.prefix_refl _) h

end Login

def initial (now : Ms) (users : List User) (attempts : List LoginAttempt) : Site where
  now := now
  users := users
  attempts := attempts

abbrev run (scrypt : Scrypt) (s : Site) (as : List Action) : Site := play (step scrypt) s as

/-- In every window there are at most `maxFailures` failed checks for a username, and a request
that the lockout refuses goes the same way with any password, user table and `scryptSync`. -/
theorem failures_limited (scrypt : Scrypt) (now : Ms) (users : List User)
    (attempts : List LoginAttempt) (as : List Action) :
    let s := run scrypt (initial now users attempts) as
    (∀ username a, (failures username s).countP (fun t => decide (a ≤ t ∧ t < a + windowMs)) ≤
      maxFailures) ∧
    ∀ r before after, (login scrypt r before after s).1 = .lockedOut →
      (login scrypt r before after s).2.checks = s.checks ∧
      ∀ scrypt' password users',
        login scrypt' { r with password := password } before after { s with users := users' } =
          (.lockedOut, { (login scrypt r before after s).2 with users := users' }) := by
  intro s
  have hinitial : Throttled (initial now users attempts) :=
    ⟨fun _ => limited_nil _ _, fun _ => logged_nil _⟩
  have hthrottled : Throttled s :=
    play_invariant_all Throttled (fun _ a h => throttled_step a h) hinitial as
  refine ⟨fun username => hthrottled.limited username, fun r before after hlocked => ?_⟩
  have hlockedOut : isLockedOut r.username s = true := by
    by_contra hopen
    exact (login_open (Bool.eq_false_iff.mpr hopen)).1 hlocked
  rw [login_locked hlockedOut]
  exact ⟨rfl, fun scrypt' password users' => login_locked hlockedOut⟩

def guess : Request := ⟨none, none, "owner", "guess"⟩

/-- After five guesses the sixth is refused unchecked. -/
theorem failures_limited_sixth :
    let s := run zeros (initial 0 [] []) (List.replicate 5 (.login guess 0 100))
    (login zeros guess 0 0 s).2.checks = s.checks ∧
      (failures "owner" s).countP (fun t => decide (0 ≤ t ∧ t < 0 + windowMs)) ≤ maxFailures := by
  obtain ⟨hlimited, hrefused⟩ :=
    failures_limited zeros 0 [] [] (List.replicate 5 (.login guess 0 100))
  exact ⟨(hrefused guess 0 0 (by decide +kernel)).1, hlimited "owner" 0⟩

end WhatsappTester.Auth.Throttling
