import WhatsappTester.Atomic.Runs
import WhatsappTester.Jobs.Worker
import WhatsappTester.Routes

namespace WhatsappTester.Process

open Schema State Atomic.Program Atomic.Runs Jobs

/-- What the event loop, the HTTP server and the timers call. Each is one
synchronous stretch of code. -/
inductive Call
  | tick
  | complete (itemId : Id) (outcome : Worker.SendOutcome) (random : Nat)
  | createJob (args : CreateJobArgs)
  | cancelJob (id : Id) (actor : Option String)
  | pauseJob (id : Id) (actor : Option String)
  | resumeJob (id : Id) (actor : Option String)
  | createSchedule (input : Scheduler.CreateInput)
  | removeSchedule (id : String)
  | runTickIfReady (ready : Bool)
  | setOutboundDisabled (disabled : Bool) (actor reason : Option String)
  | drainAndStop
  | request (r : Routes.Request) (ready : Bool)
  | answered (id : Id) (answer : Routes.Answer) (ready : Bool)
  | delayOver (id : Id) (ready : Bool)
  | sweepExpiredIdempotencyKeys

def Call.code : Call → Code Unit
  | .tick => Worker.tick
  | .complete itemId outcome random => Worker.complete itemId outcome random
  | .createJob args => do let _ ← JobService.callCreateJob args
  | .cancelJob id actor => do let _ ← JobService.cancelJob id actor
  | .pauseJob id actor => do let _ ← JobService.pauseJob id actor
  | .resumeJob id actor => do let _ ← JobService.resumeJob id actor
  | .createSchedule input => Scheduler.create input
  | .removeSchedule id => Scheduler.remove id
  | .runTickIfReady ready => Scheduler.runTickIfReady ready
  | .setOutboundDisabled disabled actor reason =>
    KillSwitch.setOutboundDisabled disabled actor reason none
  | .drainAndStop => Worker.drainAndStop
  | .request r ready => Routes.request r ready
  | .answered id answer ready => Routes.answered id answer ready
  | .delayOver id ready => Routes.delayOver id ready
  | .sweepExpiredIdempotencyKeys => Routes.sweepExpiredIdempotencyKeys

/-- The one process of the program, running or dead, with its database. A dead
process still shows the memory it died with. -/
structure Server where
  up : Bool
  world : World

inductive Action
  /-- Time passes. -/
  | advance (ms : Nat)
  /-- The event loop makes one step. -/
  | call (c : Call)
  /-- The process dies after `n` statements of a step. -/
  | crash (c : Call) (n : Nat)
  /-- The process is started again with no `schedules.json` to import, and recovers before it does
  anything else. -/
  | restart

def Action.isRestart : Action → Bool
  | .restart => true
  | _ => false

def Action.isCrash : Action → Bool
  | .crash .. => true
  | _ => false

def fresh (pid : Nat) (m : Memory) : Memory where
  pid := pid
  semaphore := { maxConcurrent := m.semaphore.maxConcurrent }

def die (pid : Nat) (s : Shared) : Shared := { s with trace := .died pid :: s.trace }

def boot (w : World) : World :=
  (Claiming.recoverStaleClaims.run { w with mem := fresh w.mem.pid w.mem }).2

def step (s : Server) : Action → Server
  | .advance ms => { s with world.shared.now := s.world.shared.now + ms }
  | .call c => if s.up then { s with world := (c.code.run s.world).2 } else s
  | .crash c n =>
    if s.up then
      let w := c.code.cut n s.world
      ⟨false, { w with shared := die w.mem.pid w.shared }⟩
    else s
  | .restart => if s.up then s else ⟨true, boot s.world⟩

section Step

variable {s : Server}

theorem step_call (h : s.up) (c : Call) :
    step s (.call c) = { s with world := (c.code.run s.world).2 } := if_pos h

theorem step_restart (h : ¬ s.up) : step s .restart = ⟨true, boot s.world⟩ := if_neg h

theorem step_call_down (h : ¬ s.up) (c : Call) : step s (.call c) = s := if_neg h

theorem step_crash_down (h : ¬ s.up) (c : Call) (n : Nat) : step s (.crash c n) = s := if_neg h

theorem step_restart_up (h : s.up) : step s .restart = s := if_pos h

end Step

def initial (concurrency : Nat) (now : Ms) : Server where
  up := true
  world := ⟨{ now := now }, { pid := 0, semaphore := { maxConcurrent := concurrency } }⟩

abbrev run (s : Server) (as : List Action) : Server := play step s as

/-- The call that an action runs, to its end or up to the death of the process. -/
def Action.calls : Action → Option Call
  | .call c => some c
  | .crash c _ => some c
  | _ => none

/-- What holds at every point of a call, and survives waiting, dying and starting, every action keeps. -/
theorem step_keeps {I : World → Prop} {s : Server} {a : Action}
    (hcall : ∀ c, a.calls = some c → Wp Eq (fun _ t => I t) c.code (fun _ t => I t) s.world)
    (hadvance : ∀ v (ms : Nat), I v → I { v with shared.now := v.shared.now + ms })
    (hdie : ∀ v, I v → I { v with shared := die v.mem.pid v.shared })
    (hboot : ∀ v, I v → I (boot v)) (h : I s.world) : I (step s a).world := by
  cases a with
  | advance ms => exact hadvance _ ms h
  | call c =>
    simp only [step]
    split
    · exact wp_run (hcall c rfl)
    · exact h
  | crash c n =>
    simp only [step]
    split
    · exact hdie _ (wp_cut h (hcall c rfl) n)
    · exact h
  | restart =>
    simp only [step]
    split
    · exact h
    · exact hboot _ h

end WhatsappTester.Process
