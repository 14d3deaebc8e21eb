import WhatsappTester.Jobs.Solo

namespace WhatsappTester.Jobs.Attempts

open Schema State Atomic.Runs Atomic.Lease Retry Ledger Custody Process Solo

def sendCount (i : Id) (t : List Event) : Nat :=
  t.countP (fun e => match e with
    | .sent _ k _ => decide (k = i)
    | _ => false)

/-- The start-up recovery takes no item back that has used all its attempts. -/
def Unexhausted (s : Server) (a : Action) : Prop :=
  a.isRestart → ∀ r ∈ s.world.shared.db.items, r.status ∈ [ItemStatus.claimed, .running] →
    r.leaseExpiresAt.any (fun l => decide (l < s.world.shared.now)) → r.attemptCount < maxAttempts

instance (s : Server) (a : Action) : Decidable (Unexhausted s a) :=
  inferInstanceAs (Decidable (_ → _))

theorem sends_eq_sendCount (i : Id) (t : List Event) :
    sends (t.filterMap markOf) i = sendCount i t := by
  induction t with
  | nil => rfl
  | cons e t ih =>
    rw [sendCount] at ih ⊢
    rw [List.countP_cons, ← ih]
    cases e with
    | sent w k n => simp [markOf, sends, eq_comm]
    | _ => simp [markOf, sends, List.filterMap_cons]

theorem bounded_stable : Stable (fun s => Bounded maxAttempts (ledger s)) := by
  intro w s t hs hb hd
  obtain ⟨m, hm⟩ := hd.move
  rw [hm.ledger]
  refine bounded_apply hs.2 hm.enabled (by decide) ?_ hb
  rintro ⟨now, i, e, hrecover, _⟩
  exact (hm.recover now hrecover).1

theorem bounded_step {s : Server} {a : Action} (ha : Unexhausted s a)
    (h : Kept s ∧ Bounded maxAttempts (ledger s.world.shared)) :
    Kept (step s a) ∧ Bounded maxAttempts (ledger (step s a).world.shared) := by
  obtain ⟨hkept, hbounded⟩ := h
  refine ⟨kept_step hkept a, ?_⟩
  by_cases hup : s.up
  · cases a with
    | advance ms => exact hbounded
    | call c => exact (kept_call bounded_stable hkept hup hbounded c).2
    | crash c n =>
      obtain ⟨hinv, _, hcut⟩ := kept_cut bounded_stable hkept hup hbounded c n
      simp only [step, hup, ↓reduceIte, ledger_die]
      exact bounded_apply hinv.2 trivial (by decide) (by rintro ⟨_, _, _, ⟨⟩, _⟩) hcut
    | restart => simpa [step, hup] using hbounded
  · cases a with
    | advance ms => exact hbounded
    | call c => simpa [step, hup] using hbounded
    | crash c n => simpa [step, hup] using hbounded
    | restart =>
      simp only [step, hup, Bool.false_eq_true, ↓reduceIte, ledger_boot]
      refine bounded_apply hkept.inv.2 trivial (by decide) ?_ hbounded
      rintro ⟨now, i, e, hnow, hentry, hbusy, hlate, hlimit⟩
      cases hnow
      obtain ⟨r, hr, _, rfl⟩ := item_of_entry hentry
      have hstatus : r.status ∈ [ItemStatus.claimed, .running] := by
        have := phaseOf_isBusy r.status
        rw [show phaseOf r.status = .busy from hbusy] at this
        exact of_decide_eq_true this.symm
      exact absurd hlimit (Nat.not_le_of_lt (ha rfl r hr hstatus hlate))

theorem bounded_initial (concurrency : Nat) (now : Ms) :
    Bounded maxAttempts (ledger (initial concurrency now).world.shared) :=
  ⟨fun _ => Nat.zero_le _, fun _ _ h => absurd h
    (by simp [ledger, initial, Db.item, Atomic.Table.find]), fun _ hh => absurd hh List.not_mem_nil⟩

theorem sends_within_limit (concurrency : Nat) (now : Ms) (as : List Action)
    (h : Along Unexhausted step (initial concurrency now) as) (i : Id) :
    sendCount i (run (initial concurrency now) as).world.shared.trace ≤ maxAttempts := by
  obtain ⟨hkept, hbounded⟩ := play_invariant
    (fun s => Kept s ∧ Bounded maxAttempts (ledger s.world.shared))
    (fun s a hs ha => bounded_step ha hs)
    ⟨kept_initial concurrency now, bounded_initial concurrency now⟩ h
  rw [← sends_eq_sendCount]
  exact sends_le hkept.inv.2 hbounded i

def oneItem : CreateJobArgs := { type := "bulk", items := [⟨some "1", none, some "hello"⟩] }

def failedAttempt : List Action :=
  [.call .tick, .call (.complete 1 (.results [(.error, none)]) 0), .advance 60000]

def crashedAttempt : List Action := [.call .tick, .crash .tick 0, .advance 60001, .restart]

/-- Four failed attempts, a fifth that ends in a crash, and a sixth after the restart. -/
theorem sends_within_limit_fails :
    maxAttempts < sendCount 1 (run (initial 1 0) (.call (.createJob oneItem) ::
      (List.replicate 4 failedAttempt).flatten ++ crashedAttempt ++
        [.call .tick])).world.shared.trace := by
  decide +kernel

theorem sends_within_limit_crash :
    sendCount 1 (run (initial 1 0) (.call (.createJob oneItem) ::
      (List.replicate 3 failedAttempt).flatten ++ crashedAttempt ++
      [.call .tick])).world.shared.trace ≤
      maxAttempts :=
  sends_within_limit 1 0 _ (by decide +kernel) 1

end WhatsappTester.Jobs.Attempts
