import WhatsappTester.Atomic.Watch
import WhatsappTester.Process

namespace WhatsappTester.Cluster

open Schema State Atomic.Program Atomic.Runs Atomic.Interleaving Jobs

/-- What a process of a cluster may be doing: any call of its event loop, or
the recovery with which it starts. -/
inductive Work
  | call (c : Process.Call)
  | recover

def Work.code : Work → Code Unit
  | .call c => c.code
  | .recover => do let _ ← Claiming.recoverStaleClaims

def rules : Rules Nat Shared Memory Work where
  code := Work.code
  wait ms s := { s with now := s.now + ms }
  die := Process.die
  reset := Process.fresh

abbrev Processes := Cluster Nat Shared Memory

abbrev Step := Action Nat Work

abbrev Watching := Atomic.Watch.Watched Nat Shared Memory Work

def initial (concurrency : Nat → Nat) (now : Ms) : Processes where
  shared := { now := now }
  process pid := ⟨{ pid := pid, semaphore := { maxConcurrent := concurrency pid } }, .ret ()⟩

abbrev run (C : Processes) (as : List Step) : Processes := play rules.step C as

/-- A process makes a call and runs it for `n` statements. -/
def steps (w : Nat) (work : Work) (n : Nat) : List Step :=
  .start w work :: List.replicate n (.exec w)

end WhatsappTester.Cluster
