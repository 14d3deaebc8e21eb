import WhatsappTester.Atomic.Retrying
import WhatsappTester.Jobs.Trails

namespace WhatsappTester.Jobs.Outcomes

open Schema State Atomic Atomic.Program Atomic.Runs Atomic.Retrying Statements JobService Claiming
  Worker Process
open Ledger Solo Attempts Trails

def sendStatus : SendOutcome → SendStatus
  | .results ((status, _) :: _) => status
  | .results [] => .error
  | .threw _ => .error

def retryable : SendStatus → Bool
  | .error | .other _ => true
  | .sent | .notOnWhatsapp | .skipped => false

def policy : Policy SendOutcome where
  final outcome := !retryable (sendStatus outcome)
  limit := 5

def endStatus : SendStatus → ItemStatus
  | .sent => .succeeded
  | .skipped => .skipped
  | _ => .failed

structure Entry where
  jobItemId : Id
  attemptNumber : Nat
  outcome : Option SendStatus
  errorCategory : Option Category
  errorMessage : Option String

def entry (t : JobAttempt) : Entry :=
  ⟨t.jobItemId, t.attemptNumber, t.outcome, t.errorCategory, t.errorMessage⟩

def entryOf (i : Id) (n : Nat) (outcome : SendOutcome) : Entry :=
  ⟨i, n, some (sendStatus outcome), (classify outcome).2.1, (classify outcome).2.2⟩

/-- The wait after attempt `n`, without jitter. -/
def gap (n : Nat) : Ms := min 60000 (1000 * 2 ^ (n - 1))

/-- After the last attempt there was the wait up to that time. -/
def Rested (ts : List JobAttempt) (time : Ms) : Prop :=
  ∀ t ∈ ts.getLast?, ∀ finishedAt ∈ t.finishedAt, finishedAt + gap t.attemptNumber ≤ time

def Apart (t t' : JobAttempt) : Prop :=
  ∀ finishedAt ∈ t.finishedAt, finishedAt + gap t.attemptNumber ≤ t'.startedAt

structure Logged (i : Id) (os : List SendOutcome) (ts : List JobAttempt) : Prop where
  entries : ts.map entry = os.mapIdx (fun k outcome => entryOf i (k + 1) outcome)
  finished : ∀ t ∈ ts, t.finishedAt.isSome
  apart : ts.IsChain Apart

inductive Stage (i : Id) (os : List SendOutcome) : Trail → Prop
  | absent : os = [] → Stage i os ⟨[], [], [], 0⟩
  | waiting (r : JobItem) (ts : List JobAttempt) :
      policy.Goes os → r.status = .queued → r.attemptCount = os.length →
    Logged i os ts → Rested ts r.nextAttemptAt → Stage i os ⟨[r], ts, [], os.length⟩
  | busy (r : JobItem) (ts : List JobAttempt) (startedAt : Ms) (task : Task) :
      policy.Goes os → r.status = .running →
    r.attemptCount = os.length + 1 → Logged i os ts → Rested ts startedAt →
    task.attemptNumber = os.length + 1 →
    Stage i os ⟨[r], ts ++ [⟨i, os.length + 1, startedAt, none, none, none, none⟩], [task],
      os.length + 1⟩
  | ended (r : JobItem) (ts : List JobAttempt) (outcome : SendOutcome) :
      policy.Ends os → os.getLast? = some outcome →
    r.status = endStatus (sendStatus outcome) → r.lastErrorCategory = (classify outcome).2.1 →
    r.attemptCount = os.length → Logged i os ts → Stage i os ⟨[r], ts, [], os.length⟩

variable {i : Id} {os : List SendOutcome} {v w : World}

theorem gap_le (n random : Nat) : gap n ≤ (Retry.computeBackoffMs n random : Nat) := by
  have hgap : gap n = (Retry.exponentialMs n : Int) := by
    simp [gap, Retry.exponentialMs, Retry.maxDelayMs, Retry.baseDelayMs]
  rw [hgap]
  exact Int.ofNat_le.mpr (Retry.exponentialMs_le_computeBackoffMs n random)

theorem classify_status (outcome : SendOutcome) : (classify outcome).1 = sendStatus outcome := by
  unfold classify sendStatus
  split <;> rfl

/-- Success has no category, and what is retried has one that says so. -/
theorem classify_category (outcome : SendOutcome) : match (classify outcome).2.1 with
    | none => sendStatus outcome = .sent
    | some category => sendStatus outcome ≠ .sent ∧
      Retry.isRetryable category = retryable (sendStatus outcome) ∧
      failureStatus category = endStatus (sendStatus outcome) := by
  cases outcome with
  | threw err =>
    simp only [classify, sendStatus, Retry.classifyException]
    split <;> exact ⟨by simp, rfl, rfl⟩
  | results results =>
    cases results with
    | nil =>
      simp only [classify, sendStatus, Retry.classifyException]
      split <;> exact ⟨by simp, rfl, rfl⟩
    | cons result rest =>
      obtain ⟨status, detail⟩ := result
      cases status with
      | sent => rfl
      | notOnWhatsapp => exact ⟨by simp [sendStatus], rfl, rfl⟩
      | error => exact ⟨by simp [sendStatus], rfl, rfl⟩
      | skipped => exact ⟨by simp [sendStatus], rfl, rfl⟩
      | other name => exact ⟨by simp [sendStatus], rfl, rfl⟩

theorem logged_number {ts : List JobAttempt} (h : Logged i os ts) {t : JobAttempt} (ht : t ∈ ts) :
    t.jobItemId = i ∧ t.attemptNumber ≤ os.length := by
  have hmem : entry t ∈ os.mapIdx (fun k outcome => entryOf i (k + 1) outcome) :=
    h.entries ▸ List.mem_map_of_mem ht
  obtain ⟨k, hk, hentry⟩ := List.mem_mapIdx.mp hmem
  have hid : t.jobItemId = i := (congrArg Entry.jobItemId hentry).symm
  have hnumber : t.attemptNumber = k + 1 := (congrArg Entry.attemptNumber hentry).symm
  exact ⟨hid, by omega⟩

theorem logged_nil (i : Id) : Logged i [] [] := ⟨rfl, by simp, List.isChain_nil⟩

theorem logged_finish {ts : List JobAttempt} (h : Logged i os ts) {startedAt : Ms}
    (hrested : Rested ts startedAt) (outcome : SendOutcome) (now : Ms) :
    Logged i (os ++ [outcome]) (ts ++ [finishedAttempt (classify outcome).1 (classify outcome).2.1
      (classify outcome).2.2 now ⟨i, os.length + 1, startedAt, none, none, none, none⟩]) := by
  refine ⟨?_, ?_, ?_⟩
  · rw [List.map_append, h.entries, List.mapIdx_concat, classify_status]
    rfl
  · exact List.forall_mem_append.mpr ⟨h.finished, by simp [finishedAttempt]⟩
  · refine List.isChain_append.mpr ⟨h.apart, List.isChain_singleton _, fun t ht t' ht' => ?_⟩
    obtain rfl := Option.some.inj ht'
    exact hrested t ht

theorem update_attempts {ts : List JobAttempt} (h : Logged i os ts) (f : JobAttempt → JobAttempt)
    (t : JobAttempt) (ht : t.jobItemId = i ∧ t.attemptNumber = os.length + 1) :
    Table.update (fun t => decide (t.jobItemId = i ∧ t.attemptNumber = os.length + 1)) f
      (ts ++ [t]) = ts ++ [f t] := by
  have hothers : Table.update (fun t => decide (t.jobItemId = i ∧ t.attemptNumber = os.length + 1))
      f ts = ts := by
    refine Table.update_eq_self (fun t' ht' hnumber => ?_)
    have hle := (logged_number h ht').2
    have heq := (of_decide_eq_true hnumber).2
    omega
  rw [Table.update] at hothers ⊢
  rw [List.map_append, hothers, List.map_singleton, if_pos (decide_eq_true ht)]

theorem stage_answered {r : JobItem} {ts : List JobAttempt} {startedAt now : Ms}
    (hgoes : policy.Goes os) (hcount : r.attemptCount = os.length + 1) (hlogged : Logged i os ts)
    (hrested : Rested ts startedAt) (outcome : SendOutcome) (random : Nat) :
    Stage i (os ++ [outcome]) ⟨[writtenItem (os.length + 1) outcome random now r],
      ts ++ [finishedAttempt (classify outcome).1 (classify outcome).2.1 (classify outcome).2.2 now
        ⟨i, os.length + 1, startedAt, none, none, none, none⟩], [], os.length + 1⟩ := by
  have hlogged' := logged_finish hlogged hrested outcome now
  have hlength : (os ++ [outcome]).length = os.length + 1 := List.length_append
  have hlast : (os ++ [outcome]).getLast? = some outcome := List.getLast?_concat
  have hover : policy.final outcome = true ∨ os.length + 1 = policy.limit →
      policy.Ends (os ++ [outcome]) :=
    fun h => ⟨os, outcome, rfl, hgoes, by rwa [hlength]⟩
  have hcategory := classify_category outcome
  refine Eq.mp (congrArg (fun n => Stage i (os ++ [outcome]) ⟨_, _, [], n⟩) hlength) ?_
  obtain heq | ⟨category, heq⟩ := Option.eq_none_or_eq_some (classify outcome).2.1
  · rw [heq] at hcategory
    have hwritten : writtenItem (os.length + 1) outcome random now r =
        terminalItem .succeeded none none now r := by
      simp only [writtenItem, heq]
    rw [hwritten]
    refine .ended _ _ outcome (hover (.inl ?_)) hlast ?_ heq.symm
      (hcount.trans hlength.symm) hlogged'
    · simp [policy, hcategory, retryable]
    · rw [hcategory]
      rfl
  · rw [heq] at hcategory
    obtain ⟨hsent, hretryable, hstatus⟩ := hcategory
    have hwritten : writtenItem (os.length + 1) outcome random now r =
        if Retry.isRetryable category && decide (os.length + 1 < Retry.maxAttempts) then
          retriedItem (now + Retry.computeBackoffMs (os.length + 1) random) category
            (classify outcome).2.2 now r
        else terminalItem (failureStatus category) (some category)
          (classify outcome).2.2 now r := by
      simp only [writtenItem, heq]
      split <;> rfl
    rw [hwritten]
    split
    case isTrue hretry =>
      obtain ⟨hretry, hlimit⟩ := Bool.and_eq_true_iff.mp hretry
      refine .waiting _ _ ⟨?_, ?_⟩ rfl (hcount.trans hlength.symm) hlogged' ?_
      · rw [hlength]
        exact of_decide_eq_true hlimit
      · refine List.forall_mem_append.mpr ⟨hgoes.2, List.forall_mem_singleton.mpr ?_⟩
        simp [policy, ← hretryable, hretry]
      · intro t ht finishedAt hfinished
        rw [List.getLast?_concat] at ht
        obtain rfl := Option.some.inj ht
        obtain rfl := Option.some.inj hfinished
        exact Int.add_le_add_left (gap_le _ random) _
    case isFalse hretry =>
      refine .ended _ _ outcome (hover ?_) hlast hstatus heq.symm
        (hcount.trans hlength.symm) hlogged'
      rw [Bool.and_eq_true, not_and_or, Bool.not_eq_true, decide_eq_true_eq] at hretry
      refine hretry.imp (fun hretry => ?_) (fun hlimit => ?_)
      · simp [policy, ← hretryable, hretry]
      · have hle := hgoes.1
        simp only [policy, Retry.maxAttempts] at hle hlimit ⊢
        omega

theorem mem_tasks {t : Task} : t ∈ (trail i v).tasks ↔ t ∈ v.mem.inFlight ∧ t.item.id = i := by
  simp [trail]

theorem ends_answered {task : Task} (htask : task ∈ v.mem.inFlight) (hid : task.item.id = i)
    (h : Stage i os (trail i v)) (outcome : SendOutcome) (random : Nat) :
    Ends (do
      recordOutcome task outcome random
      settle task.item.jobId
      finish task.item.id) (fun _ u => Stage i (os ++ [outcome]) (trail i u)) v := by
  have hmem : task ∈ (trail i v).tasks := mem_tasks.mpr ⟨htask, hid⟩
  generalize htrail : trail i v = T at h hmem
  cases h with
  | absent => cases hmem
  | waiting => cases hmem
  | ended => cases hmem
  | busy r ts startedAt task' hgoes hstatus hcount hlogged hrested hnumber =>
    obtain rfl := List.mem_singleton.mp hmem
    subst hid
    refine wp_seq (ends_recordOutcome task outcome random) (fun _ u hu => ?_)
    rw [htrail, hnumber, update_attempts hlogged _ _ ⟨rfl, rfl⟩] at hu
    refine wp_seq (ends_off (off_settle _) hu) (fun _ u hu => ?_)
    refine wp_mono (fun _ w hw => ?_) (ends_finish task.item.id)
    rw [hw.1, hu.1]
    simpa using stage_answered hgoes hcount hlogged hrested outcome random

theorem ends_complete (h : Stage i os (trail i v)) (outcome : SendOutcome) (random : Nat) :
    Ends (complete i outcome random) (fun _ u =>
      Stage i (os ++ if ∃ t ∈ v.mem.inFlight, t.item.id = i then [outcome] else [])
        (trail i u)) v := by
  refine Probe.wp_complete i outcome random trivial (fun hnone => ?_) (fun task htask hid => ?_)
  · rw [if_neg (by simpa using hnone), List.append_nil]
    exact h
  · rw [if_pos ⟨task, htask, hid⟩]
    exact ends_answered htask hid h outcome random

theorem ends_taken {row : JobItem} (hrow : nextClaimable v.shared.db v.shared.now = some row)
    (hid : row.id = i) (h : Stage i os (trail i v)) :
    Ends (processItem (claimedItem v.mem.pid v.shared.now row)) (fun _ u => Stage i os (trail i u))
      (claimRow row v.shared.now v) := by
  obtain ⟨hmem, hclaimable⟩ := nextClaimable_mem hrow
  have hqueued := claimable_queued hclaimable
  have hmine : row ∈ (trail i v).rows := List.mem_filter.mpr ⟨hmem, decide_eq_true hid⟩
  generalize htrail : trail i v = T at h hmine
  cases h with
  | absent => cases hmine
  | busy r ts startedAt task hgoes hstatus =>
    obtain rfl := List.mem_singleton.mp hmine
    cases hqueued.symm.trans hstatus
  | ended r ts outcome hends hlast hstatus =>
    obtain rfl := List.mem_singleton.mp hmine
    rw [hqueued] at hstatus
    cases hsent : sendStatus outcome <;> simp [hsent, endStatus] at hstatus
  | waiting r ts hgoes hstatus hcount hlogged hrested =>
    obtain rfl := List.mem_singleton.mp hmine
    subst hid
    refine wp_mono (fun _ u hu => ?_) (ends_processItem (claimedItem v.mem.pid v.shared.now row))
    have hclaimed : trail row.id (claimRow row v.shared.now v) =
        ⟨[claimedItem v.mem.pid v.shared.now row], ts, [], os.length⟩ := by
      have hrows : (claimRow row v.shared.now v).shared.db.items.filter
          (fun r => decide (r.id = row.id)) = [claimedItem v.mem.pid v.shared.now row] := by
        have hbefore : v.shared.db.items.filter (fun r => decide (r.id = row.id)) = [row] :=
          congrArg Trail.rows htrail
        simp only [claimRow]
        rw [Table.filter_update_comm (by exact fun _ _ => rfl), hbefore]
        simp [Table.update, hqueued]
      have hattempts : v.shared.db.attempts.filter (fun t => decide (t.jobItemId = row.id)) = ts :=
        congrArg Trail.attempts htrail
      have htasks : v.mem.inFlight.filter (fun t => decide (t.item.id = row.id)) = [] :=
        congrArg Trail.tasks htrail
      have hsends : sendCount row.id (claimRow row v.shared.now v).shared.trace = os.length :=
        (sendCount_cons (by simp) v.shared.trace).trans (congrArg Trail.sends htrail)
      rw [trail, hrows, hsends]
      simp only [claimRow, hattempts, htasks]
    have hu := hu.1
    rw [show (claimedItem v.mem.pid v.shared.now row).id = row.id from rfl, hclaimed] at hu
    rw [hu]
    have hdue : Rested ts v.shared.now := by
      intro t ht finishedAt hfinished
      exact le_trans (hrested t ht finishedAt hfinished) (claimable_due hclaimable)
    have hcount' : (claimedItem v.mem.pid v.shared.now row).attemptCount = os.length := hcount
    simp only [hcount']
    exact .busy _ ts v.shared.now _ hgoes rfl rfl hlogged hdue rfl

theorem ends_tick (hn : Distinct v.shared) (h : Stage i os (trail i v)) :
    Ends tick (fun _ u => Stage i os (trail i u)) v := by
  refine wp_mono (fun _ _ hu => hu.2)
    (Statements.wp_tick (P := fun u => Distinct u.shared ∧ Stage i os (trail i u))
    (fun f u hu => ?_) (fun hmemo u hu => ?_) (fun u hu => ?_) ⟨hn, h⟩)
  · rintro _ rfl
    exact ⟨trivial, hu⟩
  · refine ends_always (fun a b ha hab => ⟨?_, ?_⟩) hmemo hu
    · exact hab.shared ▸ ha.1
    · rw [(off_memo hab).1]
      exact ha.2
  · refine wp_claimNextItem hu.1 trivial (fun _ => hu) (fun row hrow => ⟨trivial, ?_⟩)
    have hclaimed : Distinct (claimRow row u.shared.now u).shared := by
      rw [Distinct, claimRow, Table.map_update (by exact fun _ _ => rfl)]
      exact hu.1
    have hstage : Ends (processItem (claimedItem u.mem.pid u.shared.now row))
        (fun _ w => Stage i os (trail i w))
        (claimRow row u.shared.now u) := by
      by_cases hid : row.id = i
      · exact ends_taken hrow hid hu.2
      · have hprocess : Always (Off i) (processItem (claimedItem u.mem.pid u.shared.now row)) :=
          off_processItem hid rfl
        refine wp_mono (fun _ w hw => ?_) (ends_off hprocess (off_claimRow hid u.shared.now))
        rw [hw.1]
        exact hu.2
    exact wp_mono (fun _ w hw => ⟨hw.1.1, hw.2⟩) (wp_and (Probe.ends_processItem _ hclaimed) hstage)

theorem rows_one (hn : Distinct v.shared) : (trail i v).rows.length ≤ 1 := by
  have hnodup : ((trail i v).rows.map (·.id)).Nodup := hn.sublist (List.filter_sublist.map _)
  have hsame : (trail i v).rows.map (·.id) = List.replicate (trail i v).rows.length i :=
    List.map_eq_replicate_iff.mpr (fun r hr => of_decide_eq_true (List.mem_filter.mp hr).2)
  rw [hsame] at hnodup
  exact List.nodup_replicate.mp hnodup

theorem stage_enters (h : Stage i os (trail i v)) (hn : Distinct w.shared)
    (henters : Enters i v w) :
    Stage i os (trail i w) := by
  obtain ⟨new, hnew, hw⟩ := henters
  have hone := rows_one (i := i) hn
  rw [hw] at hone ⊢
  match new, hnew with
  | [], _ => simpa using h
  | r :: rest, hnew =>
    have hlength : (trail i v).rows = [] ∧ rest = [] := by
      simp only [List.length_append, List.length_cons] at hone
      exact ⟨List.length_eq_zero_iff.mp (by omega), List.length_eq_zero_iff.mp (by omega)⟩
    obtain ⟨hrows, rfl⟩ := hlength
    generalize trail i v = T at h hrows
    cases h with
    | absent hos =>
      obtain ⟨hstatus, hcount⟩ := hnew r List.mem_cons_self
      subst hos
      exact .waiting r [] ⟨by decide, by simp⟩ hstatus hcount (logged_nil i) (by simp [Rested])
    | waiting => cases hrows
    | busy => cases hrows
    | ended => cases hrows

def Calm : Action → Prop
  | .crash .. | .call (.cancelJob ..) => False
  | _ => True

instance : DecidablePred Calm
  | .crash .. | .call (.cancelJob ..) => inferInstanceAs (Decidable False)
  | .advance _ | .restart | .call .tick | .call (.complete ..) | .call (.createJob _)
  | .call (.pauseJob ..) | .call (.resumeJob ..) | .call (.createSchedule _)
  | .call (.removeSchedule _) | .call (.runTickIfReady _) | .call (.setOutboundDisabled ..)
  | .call .drainAndStop | .call (.request ..) | .call (.answered ..) | .call (.delayOver ..)
  | .call .sweepExpiredIdempotencyKeys => inferInstanceAs (Decidable True)

def answers (i : Id) (s : Server) : Action → List SendOutcome
  | .call (.complete j outcome _) =>
    if s.up ∧ j = i ∧ ∃ t ∈ s.world.mem.inFlight, t.item.id = i then [outcome] else []
  | _ => []

def outcomes (i : Id) : Server → List Action → List SendOutcome
  | _, [] => []
  | s, a :: as => answers i s a ++ outcomes i (step s a) as

structure Staged (i : Id) (os : List SendOutcome) (s : Server) : Prop where
  kept : Kept s
  up : s.up = true
  stage : Stage i os (trail i s.world)

theorem staged_step {s : Server} (h : Staged i os s) {a : Action} (ha : Calm a) :
    Staged i (os ++ answers i s a) (step s a) := by
  have hkept := kept_step h.kept a
  cases a with
  | advance ms =>
    rw [answers, List.append_nil]
    · exact ⟨hkept, h.up, h.stage⟩
    · simp
  | restart => exact ⟨hkept, by simp [step, h.up], by simpa [answers, step, h.up] using h.stage⟩
  | crash c n => cases ha
  | call c =>
    have hstep := step_call h.up c
    have hquiet : c ≠ .tick → (∀ j o r, c ≠ .complete j o r) →
        (∀ id actor, c ≠ .cancelJob id actor) → Stage i os (trail i (step s (.call c)).world) := by
      intro htick hcomplete hcancel
      refine stage_enters h.stage hkept.inv.1 ?_
      rw [hstep]
      exact always_run (fun v => enters_off ⟨rfl, rfl⟩) (fun _ _ _ => enters_trans)
        (enters_call htick hcomplete hcancel) s.world
    refine ⟨hkept, by simp [step, h.up], ?_⟩
    cases c with
    | cancelJob id actor => cases ha
    | tick =>
      rw [hstep, answers, List.append_nil]
      exact wp_run (ends_tick h.kept.inv.1 h.stage)
      simp
    | complete j outcome random =>
      rw [hstep]
      by_cases hj : j = i
      · subst hj
        simp only [answers, h.up, true_and]
        exact wp_run (ends_complete h.stage outcome random)
      · have hother := (wp_run (ends_completeOther hj outcome random (v := s.world))).1
        simp only [answers, hj, false_and, and_false, ↓reduceIte, List.append_nil]
        exact Eq.mpr (congrArg (Stage i os) hother) h.stage
    | _ =>
      rw [answers, List.append_nil]
      · exact hquiet (by simp) (by simp) (by simp)
      · simp

theorem staged_run {s : Server} (h : Staged i os s) {as : List Action} (has : ∀ a ∈ as, Calm a) :
    Staged i (os ++ outcomes i s as) (run s as) := by
  induction as generalizing s os with
  | nil => simpa [outcomes] using h
  | cons a as ih =>
    have hstep := staged_step h (has a List.mem_cons_self)
    have hrest := ih hstep (fun b hb => has b (List.mem_cons_of_mem a hb))
    rwa [List.append_assoc] at hrest

theorem staged_initial (i : Id) (concurrency : Nat) (now : Ms) :
    Staged i [] (initial concurrency now) :=
  ⟨kept_initial concurrency now, rfl, .absent rfl⟩

theorem endStatus_terminal (status : SendStatus) : (endStatus status).terminal = true := by
  cases status <;> rfl

/-- An item at its end, as a sequence of outcomes calls for. -/
structure Concluded (σ : Nat → SendOutcome) (r : JobItem) (v : World) : Prop where
  sends : sendCount r.id v.shared.trace = policy.attempts σ
  status : r.status = endStatus (sendStatus (σ (policy.attempts σ)))
  attemptCount : r.attemptCount = policy.attempts σ
  attempts : (v.shared.db.attempts.filter (fun t => decide (t.jobItemId = r.id))).map entry =
    (List.range' 1 (policy.attempts σ)).map (fun k => entryOf r.id k (σ k))

theorem mem_rows {r : JobItem} (hr : r ∈ v.shared.db.items) : r ∈ (trail r.id v).rows :=
  List.mem_filter.mpr ⟨hr, decide_eq_true rfl⟩

theorem stage_sends {T : Trail} {σ : Nat → SendOutcome} (h : Stage i os T) (hσ : Follows σ os) :
    T.sends ≤ policy.attempts σ := by
  cases h with
  | absent => exact Nat.zero_le _
  | waiting r ts hgoes => exact Nat.le_of_lt (goes_lt hgoes hσ)
  | busy r ts startedAt task hgoes => exact goes_lt hgoes hσ
  | ended r ts outcome hends => exact Nat.le_of_eq (ends_eq hends hσ)

theorem stage_apart {T : Trail} (h : Stage i os T) : T.attempts.IsChain Apart := by
  cases h with
  | absent => exact List.isChain_nil
  | waiting r ts _ _ _ hlogged => exact hlogged.apart
  | ended r ts _ _ _ _ _ _ hlogged => exact hlogged.apart
  | busy r ts startedAt task _ _ _ hlogged hrested =>
    refine List.isChain_append.mpr ⟨hlogged.apart, List.isChain_singleton _, fun t ht t' ht' => ?_⟩
    obtain rfl := Option.some.inj ht'
    exact hrested t ht

theorem stage_open {r : JobItem} (h : Stage r.id os (trail r.id v)) (hr : r ∈ v.shared.db.items)
    (hopen : ¬ r.status.terminal) :
    policy.Goes os ∧ (r.status = .queued ∨ ∃ task ∈ v.mem.inFlight, task.item.id = r.id) := by
  have hmem := mem_rows hr
  have htasks : ∀ task ∈ (trail r.id v).tasks, task ∈ v.mem.inFlight ∧ task.item.id = r.id :=
    fun _ htask => mem_tasks.mp htask
  generalize trail r.id v = T at h hmem htasks
  cases h with
  | absent => cases hmem
  | waiting r' ts hgoes hstatus =>
    obtain rfl := List.mem_singleton.mp hmem
    exact ⟨hgoes, .inl hstatus⟩
  | busy r' ts startedAt task hgoes =>
    exact ⟨hgoes, .inr ⟨task, htasks task List.mem_cons_self⟩⟩
  | ended r' ts outcome hends hlast hstatus =>
    obtain rfl := List.mem_singleton.mp hmem
    exact absurd (by rw [hstatus, endStatus_terminal]) hopen

theorem stage_ended {r : JobItem} (h : Stage r.id os (trail r.id v)) (hr : r ∈ v.shared.db.items)
    (hterminal : r.status.terminal) : ∃ outcome, policy.Ends os ∧ os.getLast? = some outcome ∧
      r.status = endStatus (sendStatus outcome) ∧ r.lastErrorCategory = (classify outcome).2.1 ∧
      r.attemptCount = os.length ∧ (trail r.id v).sends = os.length ∧
      Logged r.id os (trail r.id v).attempts := by
  have hmem := mem_rows hr
  generalize trail r.id v = T at h hmem ⊢
  cases h with
  | absent => cases hmem
  | waiting r' ts hgoes hstatus =>
    obtain rfl := List.mem_singleton.mp hmem
    rw [hstatus] at hterminal
    cases hterminal
  | busy r' ts startedAt task hgoes hstatus =>
    obtain rfl := List.mem_singleton.mp hmem
    rw [hstatus] at hterminal
    cases hterminal
  | ended r' ts outcome hends hlast hstatus hcategory hcount hlogged =>
    obtain rfl := List.mem_singleton.mp hmem
    exact ⟨outcome, hends, hlast, hstatus, hcategory, hcount, rfl, hlogged⟩

theorem attempts_called_for (σ : Nat → SendOutcome) (i : Id) (concurrency : Nat) (now : Ms)
    {as : List Action} (h : ∀ a ∈ as, Calm a)
    (hσ : Follows σ (outcomes i (initial concurrency now) as)) :
    let v := (run (initial concurrency now) as).world
    sendCount i v.shared.trace ≤ policy.attempts σ ∧
      (v.shared.db.attempts.filter (fun t => decide (t.jobItemId = i))).IsChain Apart ∧
      ∀ r ∈ v.shared.db.items, r.id = i →
        (r.status.terminal ↔ (outcomes i (initial concurrency now) as).length = policy.attempts σ) ∧
        (r.status.terminal → Concluded σ r v) ∧
        (¬ r.status.terminal → r.status = .queued ∨ ∃ task ∈ v.mem.inFlight, task.item.id = i) := by
  intro v
  have hstage : Stage i (outcomes i (initial concurrency now) as) (trail i v) :=
    (staged_run (staged_initial i concurrency now) h).stage
  generalize outcomes i (initial concurrency now) as = os at hσ hstage ⊢
  refine ⟨stage_sends hstage hσ, stage_apart hstage, fun r hr hid => ?_⟩
  subst hid
  by_cases hterminal : r.status.terminal
  · obtain ⟨outcome, hends, hlast, hstatus, _, hcount, hsends, hlogged⟩ :=
      stage_ended hstage hr hterminal
    have heq := ends_eq hends hσ
    refine ⟨⟨fun _ => heq, fun _ => hterminal⟩,
      fun _ => ⟨hsends.trans heq, ?_, hcount.trans heq, ?_⟩, fun hopen => absurd hterminal hopen⟩
    · rw [hstatus, follows_last hσ hlast, heq]
    · rw [← heq, ← follows_mapIdx hσ (entryOf r.id)]
      exact hlogged.entries
  · obtain ⟨hgoes, hwaits⟩ := stage_open hstage hr hterminal
    have hlt := goes_lt hgoes hσ
    exact ⟨⟨fun hover => absurd hover hterminal, fun hlength => by omega⟩,
      fun hover => absurd hover hterminal, fun _ => hwaits⟩

def secondSent (k : Nat) : SendOutcome := .results [(if k = 1 then .error else .sent, none)]

def retriedOnce : List Action :=
  [.call (.createJob oneItem), .call .tick, .call (.complete 1 (secondSent 1) 0),
    .advance 1000, .call .tick, .call (.complete 1 (secondSent 2) 0)]

theorem attempts_called_for_retriedOnce :
    let v := (run (initial 1 0) retriedOnce).world
    (∃ r ∈ v.shared.db.items, r.id = 1 ∧ r.status.terminal) ∧
      ∀ r ∈ v.shared.db.items, r.id = 1 → r.status.terminal → Concluded secondSent r v := by
  refine ⟨by decide +kernel, fun r hr hid => ?_⟩
  have hcalm : ∀ a ∈ retriedOnce, Calm a := by decide +kernel
  have hfollows : Follows secondSent (outcomes 1 (initial 1 0) retriedOnce) := by decide +kernel
  exact ((attempts_called_for secondSent 1 1 0 hcalm hfollows).2.2 r hr hid).2.1

end WhatsappTester.Jobs.Outcomes
