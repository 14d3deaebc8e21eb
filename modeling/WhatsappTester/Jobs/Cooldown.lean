import WhatsappTester.Jobs.Probe

namespace WhatsappTester.Jobs.Cooldown

open Schema State Atomic.Program Atomic.Runs Statements Claiming Worker Ledger Custody
  Process Solo Standing
open Sending Probe
open Breaker hiding tryAcquire release recordSuccess recordFailure canAttempt

/-- What a breaker is for, told by the sends and their reports alone. -/
inductive Phase
  /-- So many transient failures in a row. -/
  | closed (failures : Nat)
  /-- No send until then, and at most one after that. -/
  | cooling (deadline : Ms)
  /-- No send until this one has reported. -/
  | probing (item : Id)
  deriving DecidableEq

def Phase.started (item : Id) : Phase → Phase
  | .cooling _ => .probing item
  | phase => phase

/-- Only the probe's report counts once the breaker is open. -/
def Phase.reported (failureThreshold : Nat) (cooldownMs : Int) (now : Ms) (item : Id)
    (category : Option Category) :
    Phase → Phase
  | .closed failures =>
    match category with
    | none => .closed 0
    | some .transient =>
      if failures + 1 ≥ failureThreshold then .cooling (now + cooldownMs)
        else .closed (failures + 1)
    | some _ => .closed failures
  | .cooling deadline => .cooling deadline
  | .probing probe =>
    if item = probe then
      match category with
      | none => .closed 0
      | some .transient => .cooling (now + cooldownMs)
      | some _ => .cooling now
    else .probing probe

/-- What a report may be: while the breaker cools no success, and after that only the probe's
report is a success or a transient failure. -/
def Phase.Prompt (item : Id) (category : Option Category) : Phase → Prop
  | .closed _ => True
  | .cooling _ => category ≠ none
  | .probing probe => item = probe ∨ category ≠ none ∧ category ≠ some .transient

def Phase.Matches (now : Ms) (b : CircuitBreaker) : Phase → Prop
  | .closed failures => b.state = .closed ∧ b.consecutiveFailures = failures
  | .cooling deadline =>
    (∃ t, b.state = .open ∧ b.openedAt = some t ∧ t ≤ now ∧
      (deadline ≤ t ∨ deadline ≤ t + b.cooldownMs)) ∨ b.state = .halfOpen ∧
      b.halfOpenProbeInFlight = true ∧ deadline ≤ now
  | .probing _ => b.state = .halfOpen ∧ b.halfOpenProbeInFlight = true

section Phase

variable {now now' : Ms} {b : CircuitBreaker} {phase : Phase}

theorem matches_closed (h : phase.Matches now b) :
    b.state = .closed ↔ ∃ failures, phase = .closed failures := by
  cases phase with
  | closed failures => exact iff_of_true h.1 ⟨failures, rfl⟩
  | cooling deadline =>
    refine iff_of_false (fun hclosed => ?_) (by simp)
    obtain ⟨_, hopen, _⟩ | ⟨hhalf, _⟩ := h
    · exact absurd (hclosed.symm.trans hopen) (by simp)
    · exact absurd (hclosed.symm.trans hhalf) (by simp)
  | probing probe =>
    exact iff_of_false (fun hclosed => absurd (hclosed.symm.trans h.1) (by simp)) (by simp)

theorem matches_later (h : phase.Matches now b) (hle : now ≤ now') : phase.Matches now' b := by
  cases phase with
  | closed failures => exact h
  | cooling deadline =>
    exact h.imp (fun ⟨t, hopen, ht, hnow, hover⟩ => ⟨t, hopen, ht, le_trans hnow hle, hover⟩)
      (fun ⟨hhalf, hprobe, hover⟩ => ⟨hhalf, hprobe, le_trans hover hle⟩)
  | probing probe => exact h

theorem matches_granted (h : phase.Matches now b) (hgranted : (Breaker.canAttempt now b).1 = true) :
    (∃ failures, phase = .closed failures) ∧ (Breaker.canAttempt now b).2 = b ∨
      ∃ deadline, phase = .cooling deadline ∧ deadline ≤ now ∧ (Breaker.canAttempt now b).2 =
        { b with state := .halfOpen, halfOpenProbeInFlight := true } := by
  cases phase with
  | closed failures =>
    refine Or.inl ⟨⟨failures, rfl⟩, ?_⟩
    simp [Breaker.canAttempt, takeProbe, h.1]
  | cooling deadline =>
    obtain ⟨t, hopen, ht, hnow, hover⟩ | ⟨hhalf, hprobe, _⟩ := h
    · have hcooled : ¬ now - t < b.cooldownMs := by
        intro hlt
        simp [Breaker.canAttempt, hopen, ht, hlt] at hgranted
      have hend : t + b.cooldownMs ≤ now := Int.add_le_of_le_sub_left (Int.not_lt.mp hcooled)
      refine Or.inr ⟨deadline, rfl,
        hover.elim (fun hle => le_trans hle hnow) (fun hle => le_trans hle hend), ?_⟩
      simp [Breaker.canAttempt, takeProbe, hopen, ht, hcooled]
    · simp [Breaker.canAttempt, takeProbe, hhalf, hprobe] at hgranted
  | probing probe =>
    obtain ⟨hhalf, hprobe⟩ := h
    simp [Breaker.canAttempt, takeProbe, hhalf, hprobe] at hgranted

theorem judged_neutral {category : Category} (h : category ≠ .transient) :
    judged (some category) now b = b :=
  if_pos h

theorem matches_reported (h : phase.Matches now b) {item : Id} {category : Option Category}
    (hprompt : phase.Prompt item category) :
    (phase.reported b.failureThreshold b.cooldownMs now item category).Matches now
      (judged category now b) := by
  cases phase with
  | closed failures =>
    obtain ⟨hclosed, rfl⟩ := h
    obtain _ | category := category
    · exact ⟨rfl, rfl⟩
    by_cases htransient : category = .transient
    · subst htransient
      by_cases hmany : b.consecutiveFailures + 1 ≥ b.failureThreshold
      · simp only [Phase.reported, judged, Breaker.recordFailure, hclosed, hmany]
        exact Or.inl ⟨now, rfl, rfl, le_refl _, Or.inr (le_refl _)⟩
      · simp only [Phase.reported, judged, Breaker.recordFailure, hclosed, hmany]
        exact ⟨rfl, rfl⟩
    · rw [judged_neutral htransient]
      simp only [Phase.reported]
      exact ⟨hclosed, rfl⟩
  | cooling deadline =>
    obtain _ | category := category
    · exact absurd rfl hprompt
    by_cases htransient : category = .transient
    · subst htransient
      obtain ⟨t, hopen, ht, hnow, hlast⟩ | ⟨hhalf, hprobe, hlast⟩ := h
      · by_cases hmany : b.consecutiveFailures + 1 ≥ b.failureThreshold
        · simp only [Phase.reported, judged, Breaker.recordFailure, hopen, hmany]
          exact Or.inl ⟨now, rfl, rfl, le_refl _, hlast.imp (fun hle => le_trans hle hnow)
            (fun hle => le_trans hle (Int.add_le_add_right hnow _))⟩
        · simp only [Phase.reported, judged, Breaker.recordFailure, hopen, hmany]
          exact Or.inl ⟨t, rfl, ht, hnow, hlast⟩
      · simp only [Phase.reported, judged, Breaker.recordFailure, hhalf]
        exact Or.inl ⟨now, rfl, rfl, le_refl _, Or.inl hlast⟩
    · rw [judged_neutral htransient]
      exact h
  | probing probe =>
    obtain ⟨hhalf, hprobe⟩ := h
    obtain _ | category := category
    · obtain rfl | hother := hprompt
      · simp only [Phase.reported, ↓reduceIte]
        exact ⟨rfl, rfl⟩
      · exact absurd rfl hother.1
    by_cases htransient : category = .transient
    · subst htransient
      obtain rfl | hother := hprompt
      · simp only [Phase.reported, ↓reduceIte, judged, Breaker.recordFailure, hhalf]
        exact Or.inl ⟨now, rfl, rfl, le_refl _, Or.inr (le_refl _)⟩
      · exact absurd rfl hother.2
    · rw [judged_neutral htransient]
      simp only [Phase.reported]
      split
      · exact Or.inr ⟨hhalf, hprobe, le_refl _⟩
      · exact ⟨hhalf, hprobe⟩

end Phase

structure Watched where
  server : Server
  phase : Phase

def report (s : Server) : Action → Option (Id × Option Category)
  | .call (.complete i outcome _) =>
    if s.up ∧ ∃ t ∈ s.world.mem.inFlight, t.item.id =
      i then some (i, (classify outcome).2.1) else none
  | _ => none

def nextPhase (w : Watched) (a : Action) : Phase :=
  let b := w.server.world.mem.breaker
  match a, report w.server a with
  | .restart, _ => if w.server.up then w.phase else .closed 0
  | _, some (i, category) =>
    w.phase.reported b.failureThreshold b.cooldownMs w.server.world.shared.now i category
  | _, none => (started w.server.world.shared (step w.server a).world.shared).foldr
      Phase.started w.phase

def watch (w : Watched) (a : Action) : Watched := ⟨step w.server a, nextPhase w a⟩

def unwatched (concurrency : Nat) (now : Ms) : Watched := ⟨initial concurrency now, .closed 0⟩

/-- No report of an earlier send counts against an open breaker. -/
def Prompt (w : Watched) (a : Action) : Prop :=
  ∀ r, report w.server a = some r → w.phase.Prompt r.1 r.2

instance (i : Id) (category : Option Category) (phase : Phase) :
    Decidable (phase.Prompt i category) := by
  cases phase <;> unfold Phase.Prompt <;> infer_instance

instance (w : Watched) (a : Action) : Decidable (Prompt w a) := by
  unfold Prompt
  cases report w.server a with
  | none => exact isTrue (fun _ h => by cases h)
  | some r => exact decidable_of_iff (w.phase.Prompt r.1 r.2) ⟨fun h _ hr => Option.some.inj hr ▸ h,
      fun h => h r rfl⟩

/-- The sends that a phase allows at a time, and the phase that they lead to. -/
def Phase.Allows (now : Ms) (new : List Id) : Phase → Prop
  | .closed _ => True
  | .cooling deadline => (now < deadline → new = []) ∧ new.length ≤ 1
  | .probing _ => new = []

section Tick

variable {v : World} {phase : Phase}

theorem allows_nil (now : Ms) (phase : Phase) : phase.Allows now [] := by
  cases phase with
  | closed failures => trivial
  | cooling deadline => exact ⟨fun _ => rfl, Nat.zero_le _⟩
  | probing probe => rfl

theorem allows_suffix {now : Ms} {new new' : List Id} (h : phase.Allows now new)
    (hsuffix : new' <:+ new) :
    phase.Allows now new' := by
  cases phase with
  | closed failures => trivial
  | cooling deadline =>
    exact ⟨fun hlt => List.suffix_nil.mp (h.1 hlt ▸ hsuffix), le_trans hsuffix.length_le h.2⟩
  | probing probe =>
    obtain rfl : new = [] := h
    exact List.suffix_nil.mp hsuffix

theorem matches_tickLoop (rounds : Nat) (hn : Distinct v.shared)
    (h : phase.Matches v.shared.now v.mem.breaker) :
    Ends (tickLoop rounds) (fun _ v' => ∃ new, sends v'.shared = new ++ sends v.shared ∧
      phase.Allows v.shared.now new ∧
      (new.foldr Phase.started phase).Matches v.shared.now v'.mem.breaker) v := by
  induction rounds generalizing v phase with
  | zero => exact ⟨[], rfl, allows_nil _ _, h⟩
  | succ rounds ih =>
    refine ends_tickLoop hn (fun _ => ⟨[], rfl, allows_nil _ _, h⟩) (fun _ hgranted => ?_)
      (fun row u hgranted hround => ?_)
    · refine ⟨[], rfl, allows_nil _ _, ?_⟩
      obtain ⟨_, hsame⟩ | ⟨deadline, rfl, hover, hprobe⟩ := matches_granted h hgranted
      · simp only [hsame]
        exact h
      · simp only [hprobe]
        exact Or.inr ⟨rfl, rfl, hover⟩
    · have hnow : u.shared.now = v.shared.now := hround.ticked.now
      have hround' : (phase.started row.id).Matches u.shared.now u.mem.breaker := by
        rw [hnow, hround.breaker]
        obtain ⟨⟨failures, rfl⟩, hsame⟩ | ⟨deadline, rfl, _, hprobe⟩ := matches_granted h hgranted
        · rw [hsame]
          exact h
        · rw [hprobe]
          exact ⟨rfl, rfl⟩
      refine wp_mono (fun _ v' hv' => ?_) (ih hround.distinct hround')
      obtain ⟨new, hnew, hallows, hmatches⟩ := hv'
      rw [hnow] at hallows hmatches
      refine ⟨new ++ [row.id], ?_, ?_, ?_⟩
      · rw [hnew, hround.sends, List.append_assoc, List.singleton_append]
      · obtain ⟨⟨failures, rfl⟩, _⟩ | ⟨deadline, rfl, hover, _⟩ := matches_granted h hgranted
        · trivial
        · obtain rfl : new = [] := hallows
          exact ⟨fun hlt => absurd hover (Int.not_le.mpr hlt), le_refl _⟩
      · rw [List.foldr_append]
        exact hmatches

theorem matches_tick (hn : Distinct v.shared) (h : phase.Matches v.shared.now v.mem.breaker) :
    Ends tick (fun _ v' => ∃ new, sends v'.shared = new ++ sends v.shared ∧
      phase.Allows v.shared.now new ∧
      (new.foldr Phase.started phase).Matches v.shared.now v'.mem.breaker) v :=
  ends_tick (fun _ => ⟨[], rfl, allows_nil _ _, h⟩) (fun _ _ => matches_tickLoop _ hn h)

end Tick

theorem ends_complete (i : Id) (outcome : SendOutcome) (random : Nat) (v : World) :
    Ends (complete i outcome random) (fun _ v' => v'.mem.breaker =
      if ∃ t ∈ v.mem.inFlight, t.item.id =
      i then judged (classify outcome).2.1 v.shared.now v.mem.breaker
      else v.mem.breaker) v := by
  refine Probe.wp_complete i outcome random trivial (fun hnone => ?_) ?_
  · exact (if_neg (by simpa using hnone)).symm
  · rintro task htask rfl
    refine wp_seq (Probe.ends_recordOutcome task outcome random) (fun _ u hu => ?_)
    refine wp_seq (ends_always (fun _ _ ha hab => Eq.trans hab ha) (rest_settle _) hu)
      (fun _ u hu => ?_)
    rintro _ rfl
    refine ⟨trivial, ?_⟩
    rw [if_pos ⟨task, htask, rfl⟩]
    exact congrArg Bench.breaker hu

section Server

variable {w : Watched} {a : Action}

structure Faithful (w : Watched) : Prop where
  kept : Kept w.server
  phase : w.server.up → w.phase.Matches w.server.world.shared.now w.server.world.mem.breaker

theorem faithful_call {c : Call} (h : Faithful w) (hup : w.server.up)
    (hprompt : Prompt w (.call c)) :
    (nextPhase w (.call c)).Matches (c.code.run w.server.world).2.shared.now
      (c.code.run w.server.world).2.mem.breaker := by
  have hnow : (c.code.run w.server.world).2.shared.now = w.server.world.shared.now :=
    (always_run any_refl (fun _ _ _ => any_trans) (any_call c) w.server.world).now
  have hmatches := h.phase hup
  have hstep : (step w.server (.call c)).world = (c.code.run w.server.world).2 := by
    simp only [step, hup, ↓reduceIte]
  rw [hnow]
  by_cases htick : c = .tick
  · subst htick
    obtain ⟨new, hnew, _, hafter⟩ := wp_run (matches_tick h.kept.inv.1 hmatches)
    have hstarted : started w.server.world.shared (step w.server (.call .tick)).world.shared =
        new :=
      started_eq (hstep ▸ hnew)
    simp only [nextPhase, report, hstarted]
    exact hafter
  have hstarted : started w.server.world.shared (step w.server (.call c)).world.shared = [] := by
    rw [hstep]
    exact started_eq (always_run (T := Unsent) (fun _ => rfl) (fun _ _ _ => unsent_trans)
      (unsent_call htick) _)
  by_cases hcomplete : ∃ i outcome random, c = .complete i outcome random
  · obtain ⟨i, outcome, random, rfl⟩ := hcomplete
    have hbreaker : ((Call.complete i outcome random).code.run w.server.world).2.mem.breaker = _ :=
      wp_run (ends_complete i outcome random w.server.world)
    by_cases hflight : ∃ t ∈ w.server.world.mem.inFlight, t.item.id = i
    · have hreport : report w.server (.call (.complete i outcome random)) =
          some (i, (classify outcome).2.1) :=
        if_pos ⟨hup, hflight⟩
      rw [if_pos hflight] at hbreaker
      simp only [nextPhase, hreport, hbreaker]
      exact matches_reported hmatches (hprompt _ hreport)
    · have hreport : report w.server (.call (.complete i outcome random)) = none :=
        if_neg (fun hr => hflight hr.2)
      rw [if_neg hflight] at hbreaker
      simp only [nextPhase, hreport, hstarted, hbreaker]
      exact hmatches
  · have hrest := always_run (T := Rest) (fun _ => rfl) (fun _ _ _ h h' => Eq.trans h' h)
      (rest_call htick (fun i o r h => hcomplete ⟨i, o, r, h⟩)) w.server.world
    have hbreaker : (c.code.run w.server.world).2.mem.breaker = w.server.world.mem.breaker :=
      congrArg Bench.breaker hrest
    have hreport : report w.server (.call c) = none := by
      cases c <;> first | rfl | exact absurd ⟨_, _, _, rfl⟩ hcomplete
    simp only [nextPhase, hreport, hstarted, hbreaker]
    exact hmatches

theorem faithful_watch (h : Faithful w) (hprompt : Prompt w a) : Faithful (watch w a) := by
  refine ⟨kept_step h.kept a, ?_⟩
  cases a with
  | advance ms =>
    have hstarted : started w.server.world.shared (step w.server (.advance ms)).world.shared = [] :=
      started_eq rfl
    intro hup
    simp only [watch, nextPhase, report, hstarted]
    exact matches_later (h.phase hup) (Int.le_add_of_nonneg_right (Int.natCast_nonneg ms))
  | call c =>
    by_cases hup : w.server.up
    · have hcall := faithful_call h hup hprompt
      intro _
      simpa only [watch, step, hup, ↓reduceIte] using hcall
    · intro hup'
      simp only [watch, step, hup] at hup'
      exact absurd hup' hup
  | crash c n =>
    intro hup'
    by_cases hup : w.server.up
    · simp only [watch, step, hup, ↓reduceIte] at hup'
      exact absurd hup' (by simp)
    · simp only [watch, step, hup] at hup'
      exact absurd hup' hup
  | restart =>
    intro _
    by_cases hup : w.server.up
    · simp only [watch, nextPhase, step, hup, ↓reduceIte]
      exact h.phase hup
    · simp only [watch, nextPhase, step, hup]
      exact ⟨rfl, rfl⟩

theorem faithful_run {concurrency : Nat} {now : Ms} {as : List Action}
    (h : Along Prompt watch (unwatched concurrency now) as) :
    Faithful (play watch (unwatched concurrency now) as) :=
  play_invariant Faithful (fun _ _ hw ha => faithful_watch hw ha)
    ⟨kept_initial concurrency now, fun _ => ⟨rfl, rfl⟩⟩ h

theorem server_play (w : Watched) (as : List Action) :
    (play watch w as).server = run w.server as := by
  induction as generalizing w with
  | nil => rfl
  | cons a as ih => exact ih (watch w a)

theorem allows_call {c : Call} (h : Faithful w) (hup : w.server.up) :
    w.phase.Allows w.server.world.shared.now
      (started w.server.world.shared (c.code.run w.server.world).2.shared) := by
  by_cases htick : c = .tick
  · subst htick
    obtain ⟨new, hnew, hallows, _⟩ := wp_run (matches_tick h.kept.inv.1 (h.phase hup))
    have hstarted : started w.server.world.shared ((Call.tick).code.run w.server.world).2.shared =
        new :=
      started_eq hnew
    rw [hstarted]
    exact hallows
  · have hunsent :=
      always_run (T := Unsent) (fun _ => rfl) (fun _ _ _ => unsent_trans) (unsent_call htick)
      w.server.world
    rw [started_of_unsent hunsent]
    exact allows_nil _ _

theorem allows_step (h : Faithful w) (a : Action) :
    w.phase.Allows w.server.world.shared.now
      (started w.server.world.shared (step w.server a).world.shared) := by
  have hnone : ∀ {s : Shared}, sends s = sends w.server.world.shared →
      w.phase.Allows w.server.world.shared.now (started w.server.world.shared s) := by
    intro s hs
    rw [started_of_unsent hs]
    exact allows_nil _ _
  cases a with
  | advance ms => exact hnone rfl
  | call c =>
    simp only [step]
    split
    case isTrue hup => exact allows_call h hup
    case isFalse => exact hnone rfl
  | crash c n =>
    simp only [step]
    split
    case isTrue hup => exact allows_suffix (allows_call h hup) (started_cut c n w.server.world)
    case isFalse => exact hnone rfl
  | restart =>
    simp only [step]
    split
    · exact hnone rfl
    · exact hnone (unsent_boot w.server.world)

theorem reported_closed {failureThreshold : Nat} {cooldownMs now : Ms} {item : Id}
    {category : Option Category} {phase : Phase} {failures : Nat} (hopen : ∀ n, phase ≠ .closed n)
    (h : phase.reported failureThreshold cooldownMs now item category = .closed failures) :
    phase = .probing item ∧ category = none := by
  cases phase with
  | closed n => exact absurd rfl (hopen n)
  | cooling deadline => cases h
  | probing probe =>
    simp only [Phase.reported] at h
    split at h
    case isFalse => cases h
    case isTrue hitem =>
      subst hitem
      cases category with
      | none => exact ⟨rfl, rfl⟩
      | some category => cases category <;> cases h

theorem started_closed {phase : Phase} {new : List Id} {failures : Nat}
    (hopen : ∀ n, phase ≠ .closed n) :
    new.foldr Phase.started phase ≠ .closed failures := by
  induction new generalizing failures with
  | nil => exact hopen failures
  | cons i new ih =>
    rw [List.foldr_cons]
    cases hphase : new.foldr Phase.started phase with
    | closed n => exact absurd hphase ih
    | cooling deadline => exact nofun
    | probing probe => exact nofun

theorem closed_by_probe (h : Faithful w) (hprompt : Prompt w a) (hup : w.server.up)
    (hup' : (step w.server a).up) (hopen : w.server.world.mem.breaker.state ≠ .closed)
    (hclosed : (step w.server a).world.mem.breaker.state = .closed) :
    ∃ item outcome random, a = .call (.complete item outcome random) ∧ w.phase = .probing item ∧
      (classify outcome).2.1 = none := by
  have hphase : ∀ n, w.phase ≠ .closed n :=
    fun n hn => hopen ((matches_closed (h.phase hup)).mpr ⟨n, hn⟩)
  obtain ⟨failures, hnext⟩ := (matches_closed ((faithful_watch h hprompt).phase hup')).mp hclosed
  cases hreport : report w.server a with
  | none =>
    cases a with
    | restart =>
      simp only [watch, nextPhase, hup, ↓reduceIte] at hnext
      exact absurd hnext (hphase failures)
    | _ =>
      simp only [watch, nextPhase, hreport] at hnext
      exact absurd hnext (started_closed hphase)
  | some r =>
    cases a with
    | call c =>
      cases c with
      | complete item outcome random =>
        have hr := hreport
        simp only [report] at hr
        split at hr
        case isFalse => cases hr
        case isTrue =>
          cases hr
          simp only [watch, nextPhase, hreport] at hnext
          obtain ⟨hprobe, hsuccess⟩ := reported_closed hphase hnext
          exact ⟨item, outcome, random, rfl, hprobe, hsuccess⟩
      | _ => cases hreport
    | _ => cases hreport

end Server

/-- As long as reports are prompt, an open breaker lets no send start before its cool-down is
over and then one at a time, and only the success of that probe closes it. -/
theorem breaker_keeps_cooldown (concurrency : Nat) (now : Ms) (as : List Action) (a : Action)
    (h : Along Prompt watch (unwatched concurrency now) (as ++ [a])) :
    let w := play watch (unwatched concurrency now) as
    let s := run (initial concurrency now) as
    w.server = s ∧
      (s.up → (s.world.mem.breaker.state = .closed ↔ ∃ failures, w.phase = .closed failures)) ∧
      w.phase.Allows s.world.shared.now (started s.world.shared (step s a).world.shared) ∧
      (s.up → s.world.mem.breaker.state ≠ .closed → (step s a).up →
        (step s a).world.mem.breaker.state = .closed →
          ∃ item outcome random, a = .call (.complete item outcome random) ∧
            w.phase = .probing item ∧ (classify outcome).2.1 = none) := by
  intro w s
  have hserver : w.server = s := server_play (unwatched concurrency now) as
  obtain ⟨has, ha, _⟩ := (along_append _ _ _).mp h
  have hfaithful : Faithful w := faithful_run has
  rw [← hserver]
  exact ⟨rfl, fun hup => matches_closed (hfaithful.phase hup), allows_step hfaithful a,
    fun hup hopen hup' hclosed => closed_by_probe hfaithful ha hup hup' hopen hclosed⟩

/-- The probe's success closes the breaker. -/
theorem breaker_keeps_cooldown_probe :
    let as := opened ++ [.advance 30000, .call .tick]
    let a : Action := .call (.complete 1 (.results [(.sent, none)]) 0)
    let w := play watch (unwatched 5 0) as
    let s := run (initial 5 0) as
    w.server = s ∧
      (s.up → (s.world.mem.breaker.state = .closed ↔ ∃ failures, w.phase = .closed failures)) ∧
      w.phase.Allows s.world.shared.now (started s.world.shared (step s a).world.shared) ∧
      (s.up → s.world.mem.breaker.state ≠ .closed → (step s a).up →
        (step s a).world.mem.breaker.state = .closed →
          ∃ item outcome random, a = .call (.complete item outcome random) ∧
            w.phase = .probing item ∧ (classify outcome).2.1 = none) :=
  breaker_keeps_cooldown 5 0 _ _ (by decide +kernel)

def overtaken : List Action :=
  [.call (.createJob { type := "bulk", items := List.replicate 7 ⟨some "1", none, some "hello"⟩ }),
    .call .tick] ++ (List.range 5).map (fun i => .call
      (.complete (i + 1) (.results [(.error, none)]) 0)) ++
    [.call (.complete 6 (.results [(.sent, none)]) 0)]

theorem breaker_keeps_cooldown_fails :
    let w := play watch (unwatched 6 0) overtaken
    let s := run (initial 6 0) overtaken
    w.phase = .cooling 30000 ∧ s.world.shared.now = 0 ∧
      started s.world.shared (step s (.call .tick)).world.shared = [7] ∧
      ¬ w.phase.Allows s.world.shared.now
        (started s.world.shared (step s (.call .tick)).world.shared) := by
  have hphase : (play watch (unwatched 6 0) overtaken).phase = .cooling 30000 := by decide +kernel
  have hnow : (run (initial 6 0) overtaken).world.shared.now = 0 := by decide +kernel
  have hstarted : started (run (initial 6 0) overtaken).world.shared
      (step (run (initial 6 0) overtaken) (.call .tick)).world.shared = [7] := by decide +kernel
  refine ⟨hphase, hnow, hstarted, fun hallows => ?_⟩
  rw [hphase, hnow, hstarted] at hallows
  exact absurd (hallows.1 (by decide)) (by decide)

end WhatsappTester.Jobs.Cooldown
