import WhatsappTester.Atomic.History
import WhatsappTester.Jobs.Draining

namespace WhatsappTester.Shutdown

open Schema State Atomic.Program Atomic.Runs Atomic.History Statements Process
open Jobs Jobs.Solo Jobs.Draining

inductive Source
  | request | interval | signal | event
  deriving DecidableEq

def source : Call → Source
  | .request .. | .createSchedule _ | .removeSchedule _ | .setOutboundDisabled .. => .request
  | .tick | .sweepExpiredIdempotencyKeys => .interval
  | .drainAndStop => .signal
  | _ => .event

/-- The calls that the history knows by an id. -/
def isSendRequest : Call → Bool
  | .request .. => true
  | _ => false

inductive Phase
  | serving
  /-- `drainAndStop` is awaited. -/
  | draining
  /-- `server.close` waits for the connections. -/
  | closing
  /-- `transport.shutdown` is awaited. -/
  | disconnecting
  /-- The exit code, which a killed process has not. -/
  | exited (code : Option Nat)
  deriving DecidableEq

structure Program where
  server : Server
  phase : Phase := .serving
  /-- When `shutdown` was called, and started its two timers. -/
  signalledAt : Ms := 0
  /-- When `drainAndStop` returned. -/
  drainedAt : Ms := 0
  /-- The open connections, out of those with a smaller number than `next`. -/
  connections : List Nat := []
  next : Nat := 0
  /-- The requests to the send routes, each with the connection it came by. -/
  opened : List (Id × Nat) := []
  /-- The connections that the other side has closed. -/
  hungUp : List Nat := []

def start (s : Server) : Program where
  server := s

abbrev Program.world (p : Program) : World := p.server.world

abbrev Program.now (p : Program) : Ms := p.world.shared.now

inductive Action
  | advance (ms : Nat)
  | connect
  /-- A connection with nothing to answer is closed. -/
  | disconnect (k : Nat)
  | hangUp (k : Nat)
  /-- A request comes by an open connection. -/
  | http (k : Nat) (c : Call)
  | call (c : Call)
  /-- `SIGINT` or `SIGTERM` -/
  | signal
  /-- An item in flight has finished, or the loop of `drainAndStop` has slept. -/
  | wake
  /-- The callback of `server.close`. -/
  | closed
  /-- `transport.shutdown` has come to its end, or has thrown. -/
  | transportDown
  | forceExit
  /-- An exception escapes a call after `n` statements. -/
  | uncaughtException (c : Call) (n : Nat)
  | kill (c : Call) (n : Nat)

def drainTimeoutMs : Ms := 8000

def forceExitMs : Ms := 10000

def openedBy (p : Program) (k : Nat) (c : Call) : List (Id × Nat) :=
  if isSendRequest c then (p.world.shared.uuid, k) :: p.opened else p.opened

def Program.with (p : Program) (a : Process.Action) : Program :=
  { p with server := Process.step p.server a }

def exit (p : Program) (code : Nat) : Program :=
  { p.with (.crash .drainAndStop 0) with phase := .exited (some code) }

/-- The condition of the loop in `drainAndStop`. -/
def poll (p : Program) : Program :=
  if !p.world.mem.inFlight.isEmpty ∧ p.now - p.signalledAt < drainTimeoutMs then p
  else { p with phase := .closing, drainedAt := p.now }

def act (p : Program) : Action → Program
  | .advance ms => p.with (.advance ms)
  | .connect =>
    if p.phase = .serving ∨ p.phase = .draining then
      { p with connections := p.next :: p.connections, next := p.next + 1 }
    else p
  | .disconnect k =>
    if p.world.mem.handlers.any (fun h => decide ((h.request, k) ∈ p.opened)) then p
    else { p with connections := p.connections.filter (· ≠ k) }
  | .hangUp k =>
    if k ∈ p.connections then
      { p with connections := p.connections.filter (· ≠ k), hungUp := k :: p.hungUp }
    else p
  | .http k c =>
    if k ∈ p.connections ∧ source c = .request then
      { p.with (.call c) with opened := openedBy p k c }
    else p
  | .call c =>
    if source c = .event ∨ source c = .interval ∧ p.phase = .serving then p.with (.call c) else p
  | .signal =>
    if p.phase = .serving then
      poll { p.with (.call .drainAndStop) with phase := .draining, signalledAt := p.now }
    else p
  | .wake => if p.phase = .draining then poll p else p
  | .closed =>
    if p.phase = .closing ∧ p.connections = [] then { p with phase := .disconnecting } else p
  | .transportDown => if p.phase = .disconnecting then exit p 0 else p
  | .forceExit =>
    if p.phase ≠ .serving ∧ forceExitMs ≤ p.now - p.signalledAt then exit p 1 else p
  | .uncaughtException c n => { p.with (.crash c n) with phase := .exited (some 1) }
  | .kill c n => { p.with (.crash c n) with phase := .exited none }

def step (p : Program) (a : Action) : Program :=
  match p.phase with
  | .exited _ => p
  | _ => act p a

abbrev run (p : Program) (as : List Action) : Program := play step p as

section Handlers

open Routes KillSwitch

variable {id : Id} {v v' : World}

def Handles (id : Id) (v v' : World) : Prop :=
  ∀ h' ∈ v'.mem.handlers, h'.request = id ∨ ∃ h ∈ v.mem.handlers, h.request = h'.request

theorem handles_subset (h : v'.mem.handlers ⊆ v.mem.handlers) : Handles id v v' :=
  fun h' hh => .inr ⟨h', h hh, rfl⟩

theorem handles_same {f : World → World} (hf : ∀ v, (f v).mem.handlers = v.mem.handlers) :
    Always (Handles id) (exec f) :=
  always_exec (fun v => handles_subset (hf v ▸ List.Subset.refl _))

theorem handles_read {α : Type} (f : World → α) : Always (Handles id) (query f) :=
  always_query _ (fun _ => handles_subset (List.Subset.refl _))

theorem handles_put {f : World → World} {h : Handler} (hid : h.request = id)
    (hf : ∀ v, (f v).mem.handlers =
      v.mem.handlers.filter (fun x => decide (x.request ≠ h.request)) ++ [h]) :
    Always (Handles id) (exec f) := by
  refine always_exec (fun v h' hh' => ?_)
  rw [hf] at hh'
  obtain hold | hnew := List.mem_append.mp hh'
  · exact .inr ⟨h', (List.mem_filter.mp hold).1, rfl⟩
  · exact .inl ((congrArg Handler.request (List.mem_singleton.mp hnew)).trans hid)

theorem handles_save {h : Handler} (hid : h.request = id) : Always (Handles id) (save h) :=
  handles_put hid (fun _ => rfl)

theorem handles_recordAudit (row : Ms → AuditRow) : Always (Handles id) (recordAudit row) :=
  always_bind (handles_read _) (fun _ => handles_same (fun _ => rfl))

theorem handles_respond (h : Handler) (status : Nat) (response : Response) :
    Always (Handles id) (respond h status response) := by
  have hanswer : Always (Handles id) (do
      record (fun _ => .answered h.request status)
      updateMemory (fun m =>
        { m with handlers := m.handlers.filter (fun x => decide (x.request ≠ h.request)) })) := by
    apply always_bind (handles_same (fun _ => rfl))
    intro _
    exact always_exec (fun _ => handles_subset (List.filter_subset_self _))
  simp only [respond]
  split
  · split
    · refine always_bind (handles_same (fun v => ?_)) (fun _ => hanswer)
      split <;> rfl
    · exact hanswer
  · exact hanswer

theorem handles_proceed (ready : Bool) {h : Handler} (hid : h.request = id) (todo : List Todo) :
    Always (Handles id) (proceed ready h todo) := by
  induction todo generalizing h with
  | nil => exact always_bind (handles_recordAudit _) (fun _ => handles_respond _ _ _)
  | cons next rest ih =>
    cases next with
    | skip result => exact ih hid
    | send recipient label message =>
      simp only [proceed]
      split
      · exact handles_respond _ _ _
      · exact handles_put (h := { h with todo := rest, current := some (recipient, label) }) hid
          (fun _ => rfl)

theorem handles_validateAndHandle (ready : Bool) (r : Request) {h : Handler}
    (hid : h.request = id) : Always (Handles id) (validateAndHandle ready r h) := by
  simp only [validateAndHandle, handle]
  split
  · split
    · exact handles_respond _ _ _
    · exact handles_proceed ready hid _
  · exact handles_respond _ _ _

theorem handles_idempotent (ready : Bool) (r : Request) :
    Always (Handles id) (idempotent ready r id) := by
  simp only [idempotent]
  split
  · apply always_bind (handles_read _)
    intro now
    apply always_bind (handles_same (fun _ => rfl))
    intro _
    apply always_bind (handles_read _)
    intro cached
    cases cached with
    | some row => exact handles_same (fun _ => rfl)
    | none => exact handles_validateAndHandle ready r rfl
  · exact handles_validateAndHandle ready r rfl

theorem handles_chatAnswered (h : Handler) (chatId : String) (answer : Answer) :
    Always (Handles id) (chatAnswered h chatId answer) := by
  cases answer with
  | result status detail =>
    exact always_bind (handles_recordAudit _) (fun _ => handles_respond _ _ _)
  | threw err =>
    simp only [chatAnswered]
    split
    · exact handles_respond _ _ _
    · exact always_bind (handles_recordAudit _) (fun _ => handles_respond _ _ _)

theorem handles_run {p : Code Unit} (h : Always (Handles id) p) (v : World) :
    Handles id v (p.run v).2 := by
  refine always_run (fun v => handles_subset (List.Subset.refl _)) (fun u v w huv hvw => ?_) h v
  intro h' hh'
  obtain hid | ⟨h, hh, heq⟩ := hvw h' hh'
  · exact .inl hid
  · exact (huv h hh).imp heq.symm.trans (fun ⟨h₀, hh₀, heq₀⟩ => ⟨h₀, hh₀, heq₀.trans heq⟩)

theorem handles_select {k : Option Handler → Code Unit} (hnone : k none = pure ())
    (hsome : ∀ h : Handler, h.request = id → Always (Handles id) (k (some h)))
    (v : World) : ∀ h' ∈ ((selectHandler id >>= k).run v).2.mem.handlers,
      ∃ h ∈ v.mem.handlers, h.request = h'.request := by
  intro h' hh'
  simp only [selectHandler, run_bind, run_query] at hh'
  cases hfind : v.mem.handlers.find? (fun h => decide (h.request = id)) with
  | none =>
    rw [hfind, hnone] at hh'
    exact ⟨h', hh', rfl⟩
  | some h =>
    rw [hfind] at hh'
    have hid : h.request = id := by simpa using List.find?_some hfind
    obtain hnew | hold := handles_run (hsome h hid) v h' hh'
    · exact ⟨h, List.mem_of_find?_eq_some hfind, hid.trans hnew.symm⟩
    · exact hold

theorem handles_request (r : Request) (ready : Bool) (v : World) :
    Handles v.shared.uuid v ((request r ready).run v).2 := by
  have h : Always (Handles v.shared.uuid) (do
      if ← isOutboundDisabled then record (fun _ => .answered v.shared.uuid 423)
      else idempotent ready r v.shared.uuid) := by
    refine always_bind (handles_read _) (fun disabled => ?_)
    split
    · exact handles_same (fun _ => rfl)
    · exact handles_idempotent ready r
  exact handles_run h { v with shared.uuid := v.shared.uuid + 1 }

theorem handlers_back {p : Code Unit} (h : Always Back p) (v : World) :
    (p.run v).2.mem.handlers = v.mem.handlers := by
  have hweb : webSide (p.run v).2 = webSide v :=
    always_run (T := fun v v' => webSide v' = webSide v)
    (fun _ => rfl) (fun _ _ _ h h' => h'.trans h) (always_mono (fun _ _ h => h.webSide) h) v
  exact congrArg WebSide.handlers hweb

theorem handlers_call (c : Call) (v : World) : ∀ h' ∈ (c.code.run v).2.mem.handlers,
    (isSendRequest c ∧ h'.request = v.shared.uuid) ∨
      ∃ h ∈ v.mem.handlers, h.request = h'.request := by
  intro h' hh'
  have hsame : (c.code.run v).2.mem.handlers = v.mem.handlers →
      (isSendRequest c ∧ h'.request = v.shared.uuid) ∨
        ∃ h ∈ v.mem.handlers, h.request = h'.request := fun h => .inr ⟨h', h ▸ hh', rfl⟩
  have hwrite : ∀ {p : Code Unit}, Always Write p → (p.run v).2.mem.handlers = v.mem.handlers :=
    fun h => handlers_back (always_mono (fun _ _ h => h.toBack) h) v
  have hitemless : ∀ {p : Code Unit}, Always Itemless p →
      (p.run v).2.mem.handlers = v.mem.handlers :=
    fun h => hwrite (always_mono (fun _ _ h => h.toWrite) h)
  cases c with
  | tick => exact hsame (hwrite write_tick)
  | complete i outcome random => exact hsame (hwrite (write_complete i outcome random))
  | createJob args =>
    exact hsame (handlers_back (always_bind (back_callCreateJob args) (fun _ => always_pure ())) v)
  | cancelJob i actor =>
    exact hsame (hwrite (always_bind (write_cancelJob i actor) (fun _ => always_pure ())))
  | pauseJob i actor =>
    exact hsame (hitemless (always_bind (itemless_pauseJob i actor) (fun _ => always_pure ())))
  | resumeJob i actor =>
    exact hsame (hitemless (always_bind (itemless_resumeJob i actor) (fun _ => always_pure ())))
  | createSchedule input => exact hsame (hitemless (itemless_create input))
  | removeSchedule i => exact hsame rfl
  | runTickIfReady ready => exact hsame (handlers_back (back_runTickIfReady ready) v)
  | setOutboundDisabled disabled actor reason =>
    apply hsame
    cases disabled <;> rfl
  | drainAndStop => exact hsame rfl
  | request r ready => exact (handles_request r ready v h' hh').imp (fun hid => ⟨rfl, hid⟩) id
  | answered i answer ready =>
    refine .inr (handles_select rfl (fun h hid => ?_) v h' hh')
    simp only
    split
    · exact always_pure ()
    · split
      · exact handles_chatAnswered _ _ _
      · split
        · exact handles_save hid
        · apply handles_proceed
          exact hid
  | delayOver i ready =>
    refine .inr (handles_select rfl (fun h hid => ?_) v h' hh')
    simp only
    split
    · exact handles_proceed ready hid _
    · exact always_pure ()
  | sweepExpiredIdempotencyKeys => exact hsame rfl

end Handlers

/-- A draining process with nothing in flight takes nothing into flight. -/
theorem idle_call {v : World} (c : Call) (hdraining : v.mem.draining = true)
    (hflight : v.mem.inFlight = []) : (c.code.run v).2.mem.inFlight = [] := by
  by_cases htick : c = .tick
  · subst htick
    simp [Call.code, Worker.tick, hdraining, hflight]
  by_cases hcomplete : ∃ i outcome random, c = .complete i outcome random
  · obtain ⟨i, outcome, random, rfl⟩ := hcomplete
    simp [Call.code, Worker.complete, hflight]
  · have hpassive := passive_call htick (fun i o r hc => hcomplete ⟨i, o, r, hc⟩)
    exact ends_iff.mp (ends_always (P := fun v => v.mem.inFlight = [])
      (fun a b ha hab => hab.flight.trans ha) hpassive hflight)

section Life

variable {s : Server} {p q : Program} {as : List Action}

def Attended (p : Program) : Prop :=
  ∀ h ∈ p.world.mem.handlers, ∃ k, (h.request, k) ∈ p.opened ∧ (k ∈ p.connections ∨ k ∈ p.hungUp)

structure Sound (s : Server) (p : Program) : Prop where
  kept : Kept p.server
  up : p.server.up
  left : Left s.world.shared.db.items none p.world
  attended : Attended p

structure Leaving (q p : Program) : Prop where
  drained : Drained q.world p.world
  since : p.signalledAt = q.now
  waited : p.phase ≠ .draining →
    q.now + drainTimeoutMs ≤ p.drainedAt ∨ p.world.mem.inFlight = []
  closed : p.phase = .disconnecting → p.connections = []

theorem attended_call (h : Attended p) (hup : p.server.up) {c : Call} (hc : source c ≠ .request) :
    Attended (p.with (.call c)) := by
  intro h' hh'
  simp only [Program.with, Program.world, step_call hup] at hh'
  obtain ⟨hrequest, -⟩ | ⟨h₀, hh₀, hid⟩ := handlers_call c _ h' hh'
  · cases c <;> first | exact absurd rfl hc | cases hrequest
  · rw [← hid]
    exact h h₀ hh₀

theorem attended_http (h : Attended p) (hup : p.server.up) {c : Call} {k : Nat}
    (hk : k ∈ p.connections) :
    Attended { p.with (.call c) with opened := openedBy p k c } := by
  intro h' hh'
  simp only [Program.with, Program.world, step_call hup] at hh'
  obtain ⟨hrequest, hid⟩ | ⟨h₀, hh₀, hid⟩ := handlers_call c _ h' hh'
  · refine ⟨k, ?_, .inl hk⟩
    simp only [openedBy, hrequest, if_true, hid]
    exact List.mem_cons_self
  · obtain ⟨k₀, hopened, hk₀⟩ := h h₀ hh₀
    refine ⟨k₀, ?_, hk₀⟩
    rw [← hid, openedBy]
    split
    · exact List.mem_cons_of_mem _ hopened
    · exact hopened

theorem attended_disconnect (h : Attended p) {k : Nat}
    (hk : ¬ p.world.mem.handlers.any (fun h => decide ((h.request, k) ∈ p.opened))) :
    Attended { p with connections := p.connections.filter (· ≠ k) } := by
  intro h' hh'
  obtain ⟨k', hopened, hopen⟩ := h h' hh'
  refine ⟨k', hopened, hopen.imp (fun hmem => ?_) id⟩
  refine List.mem_filter.mpr ⟨hmem, decide_eq_true (fun heq => hk ?_)⟩
  subst heq
  exact List.any_eq_true.mpr ⟨h', hh', decide_eq_true hopened⟩

theorem attended_hangUp (h : Attended p) (k : Nat) :
    Attended { p with connections := p.connections.filter (· ≠ k), hungUp := k :: p.hungUp } := by
  intro h' hh'
  obtain ⟨k', hopened, hopen⟩ := h h' hh'
  refine ⟨k', hopened, ?_⟩
  by_cases heq : k' = k
  · exact .inr (heq ▸ List.mem_cons_self)
  · refine hopen.imp (fun hmem => ?_) (List.mem_cons_of_mem _)
    exact List.mem_filter.mpr ⟨hmem, decide_eq_true heq⟩

theorem sound_with (h : Sound s p) {a : Process.Action} (ha : a.isCrash = false)
    (hattended : Attended (p.with a)) : Sound s (p.with a) := by
  obtain ⟨hkept, hup, hleft⟩ := left_run h.kept h.up h.left [a]
    (List.forall_mem_singleton.mpr ha)
  exact ⟨hkept, hup, hleft, hattended⟩

theorem sound_call (h : Sound s p) {c : Call} (hc : source c ≠ .request) :
    Sound s (p.with (.call c)) :=
  sound_with h rfl (attended_call h.attended h.up hc)

theorem leaving_with (h : Leaving q p) (hup : p.server.up) {a : Process.Action}
    (ha : a.isCrash = false) : Leaving q (p.with a) := by
  refine ⟨(drained_step hup h.drained ha).2, h.since, fun hphase => ?_, h.closed⟩
  cases a with
  | crash c n => cases ha
  | restart =>
    simp only [Program.with, Program.world, step_restart_up hup]
    exact h.waited hphase
  | advance ms => exact h.waited hphase
  | call c =>
    simp only [Program.with, Program.world, step_call hup]
    exact (h.waited hphase).imp id (idle_call c h.drained.draining)

theorem leaving_poll (hdrained : Drained q.world p.world) (hsince : p.signalledAt = q.now)
    (hphase : p.phase = .draining) : Leaving q (poll p) := by
  simp only [poll]
  split
  · exact ⟨hdrained, hsince, fun hne => absurd hphase hne, fun hdown => by simp [hphase] at hdown⟩
  · next hloop =>
    refine ⟨hdrained, hsince, fun _ => ?_, fun hdown => by cases hdown⟩
    by_cases hflight : p.world.mem.inFlight = []
    · exact .inr hflight
    · left
      have hbusy : !p.world.mem.inFlight.isEmpty := by simpa using hflight
      have hlate : drainTimeoutMs ≤ p.now - p.signalledAt :=
        Int.not_lt.mp (fun hearly => hloop ⟨hbusy, hearly⟩)
      rw [hsince] at hlate
      exact Int.add_le_of_le_sub_left hlate

theorem sound_poll (h : Sound s p) : Sound s (poll p) := by
  simp only [poll]
  split
  · exact h
  · exact ⟨h.kept, h.up, h.left, h.attended⟩

structure Graceful (s : Server) (q p : Program) : Prop where
  closed : p.connections = []
  work : p.world.shared.trace.filter isWork = q.world.shared.trace.filter isWork
  answered : ∀ h ∈ p.world.mem.handlers, ∃ k ∈ p.hungUp, (h.request, k) ∈ p.opened
  settled : q.now + drainTimeoutMs ≤ p.drainedAt ∨
    (∀ r ∈ p.world.shared.db.items, r.status ∈ [ItemStatus.claimed, .running] →
      r ∈ s.world.shared.db.items) ∧
    ((∀ r ∈ s.world.shared.db.items, r.status ∉ [ItemStatus.claimed, .running]) → ∀ ms : Nat,
      (boot { p.world with shared.now := p.now + ms }).shared.db = p.world.shared.db)

theorem exit_world (hup : p.server.up) (code : Nat) :
    (exit p code).world = { p.world with shared := die p.world.mem.pid p.world.shared } :=
  congrArg Server.world (if_pos hup)

theorem exit_graceful (h : Sound s p) (hq : Leaving q p) (hphase : p.phase = .disconnecting) :
    Graceful s q (exit p 0) := by
  have hclosed : p.connections = [] := hq.closed hphase
  refine ⟨hclosed, ?_, ?_, ?_⟩
  · rw [exit_world h.up]
    exact hq.drained.work
  · rw [exit_world h.up]
    intro h' hh'
    obtain ⟨k, hopened, hopen | hgone⟩ := h.attended h' hh'
    · rw [hclosed] at hopen
      exact absurd hopen List.not_mem_nil
    · exact ⟨k, hgone, hopened⟩
  · simp only [exit_world h.up]
    refine (hq.waited (by simp [hphase])).imp id (fun hflight => ?_)
    have hrows : ∀ r ∈ p.world.shared.db.items, r.status ∈ [ItemStatus.claimed, .running] →
        r ∈ s.world.shared.db.items := by
      intro r hr hstatus
      obtain ⟨task, htask, -⟩ | hmem := h.left r hr hstatus (by simp)
      · rw [hflight] at htask
        exact absurd htask List.not_mem_nil
      · exact hmem
    refine ⟨hrows, fun hnone ms => ?_⟩
    exact boot_untaken (fun r hr hstatus => hnone r (hrows r hr hstatus) hstatus)

def Signalled (s : Server) (as before : List Action) : Prop :=
  At (fun q _ => q.phase = .serving) step (start s) as before .signal

def isException : Action → Bool
  | .uncaughtException .. => true
  | _ => false

def Ended (s : Server) (as : List Action) (p : Program) : Option Nat → Prop
  | none => True
  | some 0 => ∃ before, Signalled s as before ∧ Graceful s (run (start s) before) p
  | some 1 => (∃ a ∈ as, isException a) ∨
      ∃ before, Signalled s as before ∧ (run (start s) before).now + forceExitMs ≤ p.now
  | some _ => False

def Life (s : Server) (as : List Action) (p : Program) : Prop :=
  (p.phase = .serving ∧ Sound s p) ∨
  (p.phase ∈ [Phase.draining, .closing, .disconnecting] ∧ Sound s p ∧
    ∃ before, Signalled s as before ∧ Leaving (run (start s) before) p) ∨
  ∃ code, p.phase = .exited code ∧ Ended s as p code

theorem signalled_append {before : List Action} (h : Signalled s as before) (a : Action) :
    Signalled s (as ++ [a]) before := at_append h [a]

def isOrdinary : Action → Bool
  | .advance _ | .connect | .disconnect _ | .hangUp _ | .http .. | .call _ => true
  | _ => false

theorem act_phase {a : Action} (ha : isOrdinary a) : (act p a).phase = p.phase := by
  cases a with
  | advance ms => rfl
  | connect | disconnect k | hangUp k | http k c | call c =>
    simp only [act]
    split <;> rfl
  | signal | wake | closed | transportDown | forceExit | uncaughtException c n | kill c n =>
    cases ha

theorem sound_act (h : Sound s p) {a : Action} (ha : isOrdinary a) : Sound s (act p a) := by
  have hsame : ∀ {p' : Program}, p'.server = p.server → Attended p' → Sound s p' := by
    intro p' hserver hattended
    refine ⟨hserver ▸ h.kept, hserver ▸ h.up, ?_, hattended⟩
    simp only [Program.world, hserver]
    exact h.left
  cases a with
  | advance ms => exact sound_with h rfl h.attended
  | connect =>
    simp only [act]
    split
    · refine hsame rfl (fun h' hh' => ?_)
      obtain ⟨k, hopened, hopen⟩ := h.attended h' hh'
      exact ⟨k, hopened, hopen.imp (List.mem_cons_of_mem _) id⟩
    · exact h
  | disconnect k =>
    simp only [act]
    split
    · exact h
    · next hk => exact hsame rfl (attended_disconnect h.attended hk)
  | hangUp k =>
    simp only [act]
    split
    · exact hsame rfl (attended_hangUp h.attended k)
    · exact h
  | http k c =>
    simp only [act]
    split
    · next hk =>
      obtain ⟨hkept, hup, hleft⟩ := left_run h.kept h.up h.left [.call c]
        (List.forall_mem_singleton.mpr rfl)
      exact ⟨hkept, hup, hleft, attended_http h.attended h.up hk.1⟩
    · exact h
  | call c =>
    simp only [act]
    split
    · next hc =>
      refine sound_call h (fun hrequest => ?_)
      simp [hrequest] at hc
    · exact h
  | signal | wake | closed | transportDown | forceExit | uncaughtException c n | kill c n =>
    cases ha

theorem leaving_act (h : Leaving q p) (hup : p.server.up) {a : Action} (ha : isOrdinary a) :
    Leaving q (act p a) := by
  have hwith : ∀ {c : Call} (opened : List (Id × Nat)),
      Leaving q { p.with (.call c) with opened := opened } := by
    intro c opened
    obtain ⟨hdrained, hsince, hwaited, hclosed⟩ := leaving_with h hup (a := .call c) rfl
    exact ⟨hdrained, hsince, hwaited, hclosed⟩
  cases a with
  | advance ms => exact leaving_with h hup rfl
  | connect =>
    simp only [act]
    split
    · next hphase =>
      refine ⟨h.drained, h.since, h.waited, fun hdown => ?_⟩
      rw [show p.phase = .disconnecting from hdown] at hphase
      simp at hphase
    · exact h
  | disconnect k =>
    simp only [act]
    split
    · exact h
    · refine ⟨h.drained, h.since, h.waited, fun hdown => ?_⟩
      rw [h.closed hdown]
      rfl
  | hangUp k =>
    simp only [act]
    split
    · refine ⟨h.drained, h.since, h.waited, fun hdown => ?_⟩
      rw [h.closed hdown]
      rfl
    · exact h
  | http k c =>
    simp only [act]
    split
    · exact hwith _
    · exact h
  | call c =>
    simp only [act]
    split
    · exact leaving_with h hup rfl
    · exact h
  | signal | wake | closed | transportDown | forceExit | uncaughtException c n | kill c n =>
    cases ha

theorem life_exception (as : List Action) (p : Program) (c : Call) (n : Nat) :
    Life s (as ++ [.uncaughtException c n]) (act p (.uncaughtException c n)) := by
  refine .inr (.inr ⟨some 1, rfl, .inl ⟨_, List.mem_append_right _ List.mem_cons_self, rfl⟩⟩)

theorem life_kill (as : List Action) (p : Program) (c : Call) (n : Nat) :
    Life s (as ++ [.kill c n]) (act p (.kill c n)) :=
  .inr (.inr ⟨none, rfl, trivial⟩)

theorem life_serving (h : Sound s (run (start s) as)) (hphase : (run (start s) as).phase = .serving)
    (a : Action) : Life s (as ++ [a]) (act (run (start s) as) a) := by
  have hkeep : Life s (as ++ [a]) (run (start s) as) := .inl ⟨hphase, h⟩
  by_cases ha : isOrdinary a
  · exact .inl ⟨(act_phase ha).trans hphase, sound_act h ha⟩
  cases a with
  | advance ms | connect | disconnect k | hangUp k | http k c | call c => exact absurd rfl ha
  | signal =>
    simp only [act, hphase, if_true]
    have hup : (run (start s) as).server.up := h.up
    have hsound := sound_call h (c := .drainAndStop) (by decide)
    refine .inr (.inl ⟨?_, sound_poll ?_, as, at_last hphase, leaving_poll ?_ ?_ rfl⟩)
    · simp only [poll]
      split <;> simp
    · exact ⟨hsound.kept, hsound.up, hsound.left, hsound.attended⟩
    · simp only [Program.with, Program.world, step_call hup]
      exact ⟨rfl, rfl⟩
    · rfl
  | wake | closed | transportDown | forceExit =>
    simp only [act, hphase, reduceCtorEq, false_and, if_false, ne_eq, not_true_eq_false]
    exact hkeep
  | uncaughtException c n => exact life_exception as _ c n
  | kill c n => exact life_kill as _ c n

theorem life_leaving {before : List Action} (h : Sound s p)
    (hphase : p.phase ∈ [Phase.draining, .closing, .disconnecting])
    (hbefore : Signalled s as before) (hq : Leaving (run (start s) before) p) (a : Action) :
    Life s (as ++ [a]) (act p a) := by
  have hlast := signalled_append hbefore a
  have hkeep : Life s (as ++ [a]) p := .inr (.inl ⟨hphase, h, before, hlast, hq⟩)
  by_cases ha : isOrdinary a
  · refine .inr (.inl ⟨?_, sound_act h ha, before, hlast, leaving_act hq h.up ha⟩)
    rw [act_phase ha]
    exact hphase
  cases a with
  | advance ms | connect | disconnect k | hangUp k | http k c | call c => exact absurd rfl ha
  | signal =>
    simp only [act]
    split
    · next hserving => simp [hserving] at hphase
    · exact hkeep
  | wake =>
    simp only [act]
    split
    · next hdraining =>
      refine .inr (.inl ⟨?_, sound_poll h, before, hlast,
        leaving_poll hq.drained hq.since hdraining⟩)
      simp only [poll]
      split
      · exact hphase
      · simp
    · exact hkeep
  | closed =>
    simp only [act]
    split
    · next hclosed =>
      refine .inr (.inl ⟨by simp, ⟨h.kept, h.up, h.left, h.attended⟩, before, hlast, ?_⟩)
      refine ⟨hq.drained, hq.since, fun _ => hq.waited ?_, fun _ => hclosed.2⟩
      simp [hclosed.1]
    · exact hkeep
  | transportDown =>
    simp only [act]
    split
    · next hdown => exact .inr (.inr ⟨some 0, rfl, before, hlast, exit_graceful h hq hdown⟩)
    · exact hkeep
  | forceExit =>
    simp only [act]
    split
    · next hforce =>
      refine .inr (.inr ⟨some 1, rfl, .inr ⟨before, hlast, ?_⟩⟩)
      rw [hq.since] at hforce
      simp only [Program.now, exit_world h.up]
      exact Int.add_le_of_le_sub_left hforce.2
    · exact hkeep
  | uncaughtException c n => exact life_exception as _ c n
  | kill c n => exact life_kill as _ c n

theorem ended_append {code : Option Nat} (h : Ended s as p code) (a : Action) :
    Ended s (as ++ [a]) p code := by
  match code with
  | none => exact trivial
  | some 0 => exact h.imp (fun before hb => ⟨signalled_append hb.1 a, hb.2⟩)
  | some 1 =>
    refine Or.imp (fun hb => ?_) (fun hb => ?_) h
    · obtain ⟨b, hb, hexception⟩ := hb
      exact ⟨b, List.mem_append_left _ hb, hexception⟩
    · exact hb.imp (fun before hb => ⟨signalled_append hb.1 a, hb.2⟩)
  | some (_ + 2) => exact h

theorem life_run (hkept : Kept s) (hup : s.up) (hidle : s.world.mem.handlers = [])
    (as : List Action) : Life s as (run (start s) as) := by
  refine play_history (Life s) ?_ (fun as a h => ?_) as
  · refine .inl ⟨rfl, hkept, hup, fun r hr _ _ => .inr hr, fun h' hh' => ?_⟩
    rw [show (start s).world.mem.handlers = [] from hidle] at hh'
    exact absurd hh' List.not_mem_nil
  obtain ⟨hphase, hsound⟩ | ⟨hphase, hsound, before, hbefore, hq⟩ | ⟨code, hphase, hended⟩ := h
  · have hstep : step (run (start s) as) a = act (run (start s) as) a := by simp [step, hphase]
    rw [hstep]
    exact life_serving hsound hphase a
  · have hstep : step (run (start s) as) a = act (run (start s) as) a := by
      simp only [List.mem_cons, List.not_mem_nil, or_false] at hphase
      obtain hphase | hphase | hphase := hphase <;> simp [step, hphase]
    rw [hstep]
    exact life_leaving hsound hphase hbefore hq a
  · have hstep : step (run (start s) as) a = run (start s) as := by simp [step, hphase]
    rw [hstep]
    exact .inr (.inr ⟨code, hphase, ended_append hended a⟩)

end Life

/-- A process that leaves with code 0 was signalled, its worker has taken up no item since, it has no
connection left, and it cuts off no handler whose client still waits. If `drainAndStop` did not run
out of time, the next process finds nothing to recover that it did not find itself. It leaves with
code 1 when an exception has escaped, or ten seconds after the signal. -/
theorem exit_codes (concurrency : Nat) (now : Ms) (bs : List Process.Action)
    (hup : (Process.run (initial concurrency now) bs).up)
    (hidle : (Process.run (initial concurrency now) bs).world.mem.handlers = [])
    (as : List Action) (code : Nat) :
    let s := Process.run (initial concurrency now) bs
    let p := run (start s) as
    p.phase = .exited (some code) →
      (code = 0 ∧ ∃ before, Signalled s as before ∧ Graceful s (run (start s) before) p) ∨
      (code = 1 ∧ ((∃ a ∈ as, isException a) ∨
        ∃ before, Signalled s as before ∧ (run (start s) before).now + forceExitMs ≤ p.now)) := by
  intro s p hexit
  have hkept : Kept s :=
    play_invariant_all Kept (fun _ a h => kept_step h a) (kept_initial concurrency now) bs
  obtain ⟨hphase, -⟩ | ⟨hphase, -⟩ | ⟨code', hphase, hended⟩ := life_run hkept hup hidle as
  · cases hexit.symm.trans hphase
  · rw [hexit] at hphase
    simp at hphase
  · cases hexit.symm.trans hphase
    match code with
    | 0 => exact .inl ⟨rfl, hended⟩
    | 1 => exact .inr ⟨rfl, hended⟩
    | _ + 2 => exact hended.elim

def stoppedOnce : List Action :=
  [.call (.createJob ⟨"send", none, [⟨some "1", some "", some "hello"⟩], none, none, none, none⟩),
    .call .tick, .connect, .signal, .call (.complete 1 (.results [(.sent, none)]) 0), .wake,
    .hangUp 0, .closed, .transportDown]

theorem exit_codes_stoppedOnce :
    ∃ before, Signalled (initial 1 0) stoppedOnce before ∧
      Graceful (initial 1 0) (run (start (initial 1 0)) before)
        (run (start (initial 1 0)) stoppedOnce) := by
  obtain ⟨-, h⟩ | ⟨hcode, -⟩ := exit_codes 1 0 [] rfl rfl stoppedOnce 0 (by decide)
  · exact h
  · cases hcode

end WhatsappTester.Shutdown
