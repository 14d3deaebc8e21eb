import WhatsappTester.Auth.Session

namespace WhatsappTester.Auth.Revocation

open Schema Session Atomic.Runs

def gated : Route → Bool
  | .index | .handshake => true
  | _ => false

/-- The action authenticates a request with a session that had been destroyed
before the request came. -/
def revives (cfg : Config) (s : Site) : Action → Bool
  | .arrive presented route =>
    gated route && (load s presented).isSome && presented.any (fun sid => s.destroyed.contains sid)
  | .act id =>
    (request s id).any (fun r => !r.acted && r.revoked && (verdict cfg s.now r).authenticated)
  | _ => false

def Final (cfg : Config) (s : Site) (a : Action) : Prop := revives cfg s a = false

instance (cfg : Config) (s : Site) (a : Action) : Decidable (Final cfg s a) :=
  inferInstanceAs (Decidable (_ = _))

/-- No request ends that still holds a session which has been destroyed while it ran. -/
def Released (s : Site) : Action → Prop
  | .finish id => ∀ r ∈ request s id, r.session.isSome = true → r.sid ∉ s.destroyed
  | _ => True

instance (s : Site) : (a : Action) → Decidable (Released s a)
  | .finish id =>
    inferInstanceAs (Decidable (∀ r ∈ request s id, r.session.isSome = true → r.sid ∉ s.destroyed))
  | .arrive .. | .act _ | .sweep | .restart | .wait _ => inferInstanceAs (Decidable True)

/-- A destroyed session is not in the store, and what came after that has not found it. -/
structure Gone (s : Site) : Prop where
  rows : ∀ row ∈ s.sessions, row.sid ∉ s.destroyed
  late : ∀ r ∈ s.requests, r.revoked = true → r.acted = false → r.session = none

variable {cfg : Config} {s : Site}

theorem gone_put (h : Gone s) {r : Request} (hr : r.acted = true) : Gone (put s r) := by
  refine ⟨h.rows, fun x hx hrevoked hfresh => ?_⟩
  obtain hold | rfl := mem_put hx
  · exact h.late x hold hrevoked hfresh
  · simp [hr] at hfresh

theorem gone_destroySession (h : Gone s) (r : Request) : Gone (destroySession s r) := by
  apply gone_put
  · refine ⟨fun row hrow hmem => ?_, h.late⟩
    obtain ⟨hold, hne⟩ := mem_destroy hrow
    obtain heq | hmem := List.mem_cons.mp hmem
    · exact hne heq
    · exact h.rows row hold hmem
  · rfl

theorem gone_runGuard (h : Gone s) (r : Request) (v : Verdict) : Gone (runGuard s r v) := by
  unfold runGuard
  split
  · exact gone_put h rfl
  · exact gone_destroySession h r
  · apply gone_put
    · exact ⟨h.rows, h.late⟩
    · rfl
  · apply gone_put
    · exact ⟨h.rows, h.late⟩
    · rfl
  · apply gone_put
    · exact ⟨h.rows, h.late⟩
    · rfl

theorem gone_actOn (h : Gone s) (r : Request) : Gone (actOn cfg s r) := by
  unfold actOn
  split
  · exact gone_runGuard h r _
  · split
    · exact gone_destroySession (s := { s with auths := (r.sid, s.now) :: s.auths })
        ⟨h.rows, h.late⟩ _
    · exact gone_runGuard h r _
  · apply gone_put
    · exact ⟨fun row hrow => h.rows row (mem_destroy hrow).1, h.late⟩
    · rfl
  · exact gone_put h rfl
  · exact gone_put h rfl
  · exact gone_put h rfl
  · exact gone_put h rfl

/-- Who presents a destroyed session loads nothing. -/
theorem load_destroyed (h : Gone s) {presented : Option Sid}
    (hdestroyed : presented.any (fun sid => s.destroyed.contains sid) = true) :
    load s presented = none := by
  cases hload : load s presented with
  | none => rfl
  | some data =>
    obtain ⟨sid, rfl, row, hrow, rfl, -, -⟩ := load_some hload
    exact absurd (by simpa using hdestroyed) (h.rows row hrow)

theorem gone_step (h : Gone s) {a : Action} (ha : Released s a) : Gone (step cfg s a) := by
  cases a with
  | arrive presented route =>
    refine ⟨h.rows, fun r hr hrevoked hfresh => ?_⟩
    obtain hold | hnew := List.mem_append.mp hr
    · exact h.late r hold hrevoked hfresh
    · rw [List.mem_singleton.mp hnew] at hrevoked ⊢
      exact load_destroyed h hrevoked
  | act id =>
    simp only [step, act]
    split
    · split
      · exact h
      · exact gone_actOn h _
    · exact h
  | finish id =>
    simp only [step, finish]
    split
    · next r hr =>
      refine ⟨fun row hrow => ?_, fun x hx => h.late x (List.mem_filter.mp hx).1⟩
      obtain hold | ⟨data, hdata, hsid, -⟩ := mem_save hrow
      · exact h.rows row hold
      · rw [hsid]
        exact ha r hr (by simp [hdata])
    · exact h
  | sweep => exact ⟨fun row hrow => h.rows row (List.mem_filter.mp hrow).1, h.late⟩
  | restart => exact ⟨h.rows, by simp [step]⟩
  | wait ms => exact ⟨h.rows, h.late⟩

theorem verdict_anonymous {r : Request} (hr : r.session = none) (now : Ms) :
    (verdict cfg now r).authenticated = false := by
  rw [Bool.eq_false_iff]
  intro h
  obtain ⟨data, hdata, -⟩ := verdict_authenticated h
  simp [hr] at hdata

theorem final_of_gone (h : Gone s) (a : Action) : Final cfg s a := by
  cases a with
  | arrive presented route =>
    by_cases hdestroyed : presented.any (fun sid => s.destroyed.contains sid) = true
    · simp [Final, revives, load_destroyed h hdestroyed]
    · rw [Final, revives, Bool.eq_false_iff.mpr hdestroyed, Bool.and_false]
  | act id =>
    cases hr : request s id with
    | none => simp [Final, revives, hr]
    | some r =>
      have hlate := h.late r (request_mem hr)
      cases hacted : r.acted with
      | true => simp [Final, revives, hr, hacted]
      | false =>
        cases hrevoked : r.revoked with
        | false => simp [Final, revives, hr, hrevoked]
        | true => simp [Final, revives, hr, verdict_anonymous (hlate hrevoked hacted)]
  | finish id => rfl
  | sweep => rfl
  | restart => rfl
  | wait ms => rfl

/-- No request is authenticated with a session that was destroyed before it came,
as long as no request outlives the session it holds. -/
theorem revoked_for_good (cfg : Config) (now : Ms) {as : List Action}
    (h : Along Released (step cfg) { now } as) : Along (Final cfg) (step cfg) { now } as :=
  along_invariant Gone (fun _ a hgone hok => ⟨final_of_gone hgone a, gone_step hgone hok⟩)
    ⟨by simp, by simp⟩ h

def owner : User := ⟨1, "owner", .owner⟩

theorem revoked_for_good_logout : Along (Final defaultConfig) (step defaultConfig) { now := 1000 }
    [.arrive none (.login (some owner)), .act 0, .finish 0, .arrive (some 1) (.logout (some "0")),
      .act 1, .finish 1, .arrive (some 1) .handshake, .finish 2] :=
  revoked_for_good defaultConfig 1000 (by decide +kernel)

/-- A send that is running at the logout puts the session back when it ends. -/
theorem logout_undone : ¬ Along (Final defaultConfig) (step defaultConfig) { now := 1000 }
    [.arrive none (.login (some owner)), .act 0, .finish 0,
      .arrive (some 1) (.guarded (some .sendMessage) true (some "0")), .act 1,
      .arrive (some 1) (.logout (some "0")), .act 2, .finish 2, .finish 1,
      .arrive (some 1) (.guarded (some .viewChats) false none), .act 3] := by
  decide +kernel

end WhatsappTester.Auth.Revocation
