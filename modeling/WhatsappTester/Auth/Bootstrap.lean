import WhatsappTester.Atomic.History
import WhatsappTester.Auth.Throttling

namespace WhatsappTester.Auth.Bootstrap

open Schema Atomic.Runs Atomic.History Atomic.Hex Passwords Throttling

/-- The tables, and the number of the runs of the script that have found no account and await
their credentials. -/
structure Office where
  site : Site
  awaiting : Nat := 0

/-- `SELECT COUNT(*) AS n FROM users` -/
def count (s : Office) : Office :=
  if 0 < s.site.users.length then s else { s with awaiting := s.awaiting + 1 }

def goodCredentials (username password : String) : Bool :=
  decide (3 ≤ Routes.length username ∧ 12 ≤ Routes.length password)

/-- A run of the script goes on with its credentials, and exits. No account is ever deleted, so the
next id is one more than their number. -/
def create (scrypt : Scrypt) (username password : String) (salt : Bytes) (s : Office) : Office :=
  if s.awaiting = 0 then s
  else
    let s := { s with awaiting := s.awaiting - 1 }
    if goodCredentials username password then
      match hashPassword scrypt salt password with
      | .error _ => s
      | .ok passwordHash =>
        if s.site.users.any (fun u => decide (u.username = username)) then s
        else
          { s with
            site.users := s.site.users ++
              [⟨s.site.users.length + 1, username, passwordHash, none⟩] }
    else s

inductive Action
  | wait (ms : Nat)
  | count
  | create (username password : String) (salt : Bytes)
  | login (r : Request) (before after : Nat)
  | regenerated (k : Nat) (ok : Bool)

def step (scrypt : Scrypt) (s : Office) : Action → Office
  | .wait ms => { s with site := elapse ms s.site }
  | .count => count s
  | .create username password salt => create scrypt username password salt s
  | .login r before after => { s with site := (login scrypt r before after s.site).2 }
  | .regenerated k ok => { s with site := regenerated k ok s.site }

def accounts (s : Office) : List (String × String) :=
  s.site.users.map (fun u => (u.username, u.passwordHash))

variable {scrypt : Scrypt} {s : Office} {a : Action} {password : String} {salt : Bytes}

section Accounts

theorem accounts_login (r : Request) (before after : Nat) :
    accounts (step scrypt s (.login r before after)) = accounts s := by
  have husers : (login scrypt r before after s.site).2.users = s.site.users := by
    rw [login]
    split
    · rfl
    · cases checkPassword scrypt r s.site.users <;> rfl
  rw [accounts, step, husers, accounts]

theorem accounts_regenerated (k : Nat) (ok : Bool) :
    accounts (step scrypt s (.regenerated k ok)) = accounts s := by
  simp only [step, regenerated]
  split
  · rfl
  · split
    · exact Atomic.Table.map_update
        (f := fun u : User => { u with lastLoginAt := some s.site.now }) (fun _ _ => rfl)
        s.site.users
    · rfl

def Distinct (s : Office) : Prop := ((accounts s).map Prod.fst).Nodup

/-- Once there is an account, and no run of the script awaits its credentials, that is so for
ever, with the accounts as they are. -/
theorem settled_step (scrypt : Scrypt) (hsome : accounts s ≠ []) (hnone : s.awaiting = 0)
    (a : Action) :
    accounts (step scrypt s a) = accounts s ∧ (step scrypt s a).awaiting = 0 := by
  cases a with
  | create username password salt =>
    rw [step, create, if_pos hnone]
    exact ⟨rfl, hnone⟩
  | count =>
    have hpos : 0 < s.site.users.length := by
      rw [← List.length_map (fun u : User => (u.username, u.passwordHash))]
      exact List.length_pos_iff.mpr hsome
    rw [step, count, if_pos hpos]
    exact ⟨rfl, hnone⟩
  | wait ms => exact ⟨rfl, hnone⟩
  | login r before after => exact ⟨accounts_login r before after, hnone⟩
  | regenerated k ok => exact ⟨accounts_regenerated k ok, hnone⟩

theorem awaiting_step (s : Office) (a : Action) :
    (step scrypt s a).awaiting ≤ s.awaiting ∨ a = .count ∧ s.site.users = [] := by
  cases a with
  | create username password salt =>
    left
    simp only [step, create]
    split
    · exact Nat.le_refl _
    · split
      · split
        · exact Nat.sub_le _ _
        · split <;> exact Nat.sub_le _ _
      · exact Nat.sub_le _ _
  | count =>
    simp only [step, count]
    split
    · exact .inl (Nat.le_refl _)
    · next hnone => exact .inr ⟨trivial, List.length_eq_zero_iff.mp (Nat.eq_zero_of_not_pos hnone)⟩
  | wait ms => exact .inl (Nat.le_refl _)
  | login r before after => exact .inl (Nat.le_refl _)
  | regenerated k ok => exact .inl (Nat.le_refl _)

end Accounts

section Login

variable {username : String} {stored : String}

end Login

section Run

variable {start : Office} {as : List Action}

/-- A run of the script awaits its credentials only if it has found no account. -/
theorem counted (hstart : start.awaiting = 0) (as : List Action) :
    0 < (play (step scrypt) start as).awaiting →
      ∃ first, At (fun s _ => s.site.users = []) (step scrypt) start as first .count := by
  refine play_history (fun as (s : Office) => 0 < s.awaiting →
    ∃ first, At (fun s _ => s.site.users = []) (step scrypt) start as first .count)
    (fun hpos => absurd hstart (Nat.ne_of_gt hpos)) (fun as a ih hpos => ?_) as
  obtain hle | ⟨rfl, hnone⟩ := awaiting_step (play (step scrypt) start as) a
  · obtain ⟨first, hat⟩ := ih (Nat.lt_of_lt_of_le hpos hle)
    exact ⟨first, at_append hat [a]⟩
  · exact ⟨as, at_last hnone⟩

end Run

end WhatsappTester.Auth.Bootstrap
