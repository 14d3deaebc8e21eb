import WhatsappTester.State

namespace WhatsappTester.Jobs.Claiming

open Schema State Atomic.Program

def leaseMs : Ms := 60000

def claimable (db : Db) (now : Ms) (r : JobItem) : Bool :=
  decide (r.status = .queued ∧ r.nextAttemptAt ≤ now) &&
    db.jobs.any (fun j => decide (j.id = r.jobId ∧ j.status ∈ [.queued, .running]))

def nextClaimable (db : Db) (now : Ms) : Option JobItem :=
  Atomic.Table.earliest (·.nextAttemptAt) (db.items.filter (claimable db now))

theorem nextClaimable_mem {db : Db} {now : Ms} {row : JobItem}
    (h : nextClaimable db now = some row) :
    row ∈ db.items ∧ claimable db now row = true := by
  simpa [nextClaimable] using Atomic.Table.earliest_mem h

theorem claimable_queued {db : Db} {now : Ms} {r : JobItem} (h : claimable db now r = true) :
    r.status = .queued := by
  simp only [claimable, Bool.and_eq_true, decide_eq_true_eq] at h
  exact h.1.1

theorem claimable_due {db : Db} {now : Ms} {r : JobItem} (h : claimable db now r = true) :
    r.nextAttemptAt ≤ now := by
  simp only [claimable, Bool.and_eq_true, decide_eq_true_eq] at h
  exact h.1.2

theorem claimable_job {db : Db} {now : Ms} {r : JobItem} (h : claimable db now r = true) :
    ∃ j ∈ db.jobs, j.id = r.jobId ∧ j.status ∈ [.queued, .running] := by
  simp only [claimable, Bool.and_eq_true, List.any_eq_true, decide_eq_true_eq] at h
  exact h.2

theorem nextClaimable_none {db : Db} {now : Ms} :
    nextClaimable db now = none ↔ ∀ r ∈ db.items, claimable db now r = false := by
  simp [nextClaimable, Atomic.Table.earliest_none]

def workerId (pid : Nat) : String := "worker-" ++ toString pid

def claimedItem (pid : Nat) (now : Ms) (r : JobItem) : JobItem :=
  { r with
    status := .claimed, claimedBy := some (workerId pid), claimedAt := some now,
    leaseExpiresAt := some (now + leaseMs), updatedAt := now }

def claimRow (row : JobItem) (now : Ms) (w : World) : World :=
  { w with
    shared.db.items := Atomic.Table.update (fun r => decide (r.id = row.id ∧ r.status = .queued))
      (claimedItem w.mem.pid now) w.shared.db.items
    shared.trace := .claimed w.mem.pid row.id (now + leaseMs) :: w.shared.trace }

/-- Everything between `BEGIN IMMEDIATE` and `COMMIT`. It reports the selected
row's id and the number of rows its update changed. -/
def claimTransaction (now : Ms) : Code (Option (Id × Nat)) :=
  update
    (fun w =>
      match nextClaimable w.shared.db now with
      | none => w
      | some row => claimRow row now w)
    (fun w => (nextClaimable w.shared.db now).map (fun row =>
      (row.id, Atomic.Table.changes (fun r => decide (r.id = row.id ∧ r.status = .queued))
        w.shared.db.items)))

def claimNextItem : Code (Option JobItem) := do
  let now ← dateNow
  match ← claimTransaction now with
  | none => pure none
  | some (id, changes) => if changes ≠ 1 then pure none else selectItem id

theorem wp_claimNextItem {w : World} {I : World → Prop} {Q : Option JobItem → World → Prop}
    (hn : (w.shared.db.items.map (·.id)).Nodup) (hI : I w)
    (hnone : nextClaimable w.shared.db w.shared.now = none → Q none w)
    (hsome : ∀ row, nextClaimable w.shared.db w.shared.now = some row →
      I (claimRow row w.shared.now w) ∧
        Q (some (claimedItem w.mem.pid w.shared.now row)) (claimRow row w.shared.now w)) :
    Wp Eq (fun _ t => I t) claimNextItem Q w := by
  simp only [claimNextItem, dateNow, claimTransaction, wp_bind, wp_query, wp_update,
    forall_eq', hI, true_and]
  cases hrow : nextClaimable w.shared.db w.shared.now with
  | none => exact ⟨hI, hnone hrow⟩
  | some row =>
    obtain ⟨hmem, hclaimable⟩ := nextClaimable_mem hrow
    have hqueued := claimable_queued hclaimable
    have hone : Atomic.Table.changes (fun r => decide (r.id = row.id ∧ r.status = .queued))
        w.shared.db.items = 1 :=
      Atomic.Table.changes_one hn hmem (by simp [hqueued]) (by simp +contextual)
    have hitem : (claimRow row w.shared.now w).shared.db.item row.id =
        some (claimedItem w.mem.pid w.shared.now row) := by
      simp only [claimRow, Db.item]
      rw [Atomic.Table.find_update (by exact fun _ _ => rfl), Atomic.Table.find_eq_some hn hmem]
      simp [hqueued]
    obtain ⟨hI', hQ⟩ := hsome row hrow
    simp only [Option.map_some, hone, ne_eq, not_true_eq_false, ↓reduceIte, selectItem, wp_query,
      forall_eq', hI', true_and, hitem]
    exact hQ

def stale (now : Ms) (r : JobItem) : Bool :=
  decide (r.status ∈ [.claimed, .running]) && r.leaseExpiresAt.any (fun l => decide (l < now))

def recoveredItem (now : Ms) (r : JobItem) : JobItem :=
  { r with
    status := .queued, claimedBy := none, claimedAt := none, leaseExpiresAt := none,
    updatedAt := now }

def recoverStaleClaims : Code Nat := do
  let now ← dateNow
  updateItems (stale now) (recoveredItem now)

end WhatsappTester.Jobs.Claiming
