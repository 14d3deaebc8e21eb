import WhatsappTester.Jobs.Custody

namespace WhatsappTester.Jobs.Exclusion

open Schema State Atomic.Runs Atomic.Lease Atomic.Interleaving Ledger Custody Cluster

variable {recovering : Prop} {C : Processes}

theorem honoured_initial (concurrency : Nat → Nat) (now : Ms) :
    (contract recovering).Honoured (initial concurrency now) := by
  refine ⟨⟨List.nodup_nil, sound_initial now⟩, ?_⟩
  intro w
  exact ⟨rfl, rfl, List.Perm.nil, fun _ ht => absurd ht List.not_mem_nil⟩

theorem honoured_kill (h : (contract recovering).Honoured C) (w : Nat) :
    (contract recovering).Honoured (rules.kill C w) := by
  have hm : (Move.die w : JobMove).Enabled Retry.maxAttempts (ledger C.shared) := trivial
  refine Contract.honoured_kill h w ⟨h.inv.1, ?_⟩ ?_ ?_
  · exact sound_apply h.inv.2 hm (by simp)
  · intro u hu
    refine ⟨keeps_apply h.inv.2 hm ?_, List.Subset.refl _, le_refl _⟩
    simpa [Move.worker] using hu.symm
  · refine ⟨rfl, rfl, ?_, fun _ ht => absurd ht List.not_mem_nil⟩
    have hnone : mine w (rules.die w C.shared) = [] := by
      have hlog : (ledger (rules.die w C.shared)).log = .died w :: (ledger C.shared).log := rfl
      rw [mine, hlog, holdsOf_died, List.filter_eq_nil_iff.mpr, List.map_nil]
      exact fun x hx => by simp [(mem_holdsOf.mp hx).2]
    rw [hnone]
    exact List.Perm.nil

theorem honoured_wait (h : (contract recovering).Honoured C) (ms : Nat) :
    (contract recovering).Honoured { C with shared := rules.wait ms C.shared } := by
  refine Contract.honoured_wait h ms h.inv (fun u => ⟨Keeps.refl u _, List.Subset.refl _, ?_⟩)
  exact Int.le_add_of_nonneg_right (Int.natCast_nonneg ms)

/-- Every outcome is recorded in time: no lease of an item that is being
processed has run out. -/
def InTime (C : Processes) (_ : Step) : Prop := Timely C.shared.now (ledger C.shared)

instance (C : Processes) (a : Step) : Decidable (InTime C a) :=
  inferInstanceAs (Decidable (∀ h ∈ holds (ledger C.shared).log, C.shared.now ≤ h.lease))

theorem honoured_step (h : (contract True).Honoured C) (a : Step) (ha : InTime C a) :
    (contract True).Honoured (rules.step C a) := by
  cases a with
  | start w work =>
    refine Contract.honoured_start ?_ h
    cases work with
    | call c => exact meets_call w c
    | recover => exact meets_recover w
  | exec w => exact Contract.honoured_exec h w (fun hd => does_sound h.inv hd (fun _ => ha))
  | kill w => exact honoured_kill h w
  | wait ms => exact honoured_wait h ms

theorem honoured_run {concurrency : Nat → Nat} {now : Ms} {as : List Step}
    (h : Along InTime rules.step (initial concurrency now) as) :
    (contract True).Honoured (run (initial concurrency now) as) := by
  refine play_invariant _ ?_ (honoured_initial concurrency now) h
  exact fun C a hC ha => honoured_step hC a ha

def processing (C : Processes) : List (Nat × Id) :=
  (holds (ledger C.shared).log).map (fun h => (h.worker, h.item))

def sentByClaimant (C : Processes) : Prop := rightful (ledger C.shared).log

theorem exclusive_processing (concurrency : Nat → Nat) (now : Ms) (as : List Step)
    (h : Along InTime rules.step (initial concurrency now) as) :
    ((processing (run (initial concurrency now) as)).map (·.2)).Nodup ∧
      sentByClaimant (run (initial concurrency now) as) := by
  have hsound := (honoured_run h).inv.2
  refine ⟨?_, hsound.rightful⟩
  simpa [processing, Function.comp_def] using hsound.exclusive

def race : List Step :=
  let args : CreateJobArgs :=
    { type := "bulk", items := [⟨some "1", none, some "hello"⟩, ⟨some "2", none, some "hello"⟩] }
  steps 0 (.call (.createJob args)) 12 ++ [.start 0 (.call .tick), .start 1 (.call .tick)] ++
    (List.replicate 25 [Action.exec 0, .exec 1]).flatten ++ [.wait 60000] ++ steps 0 .recover 3

theorem exclusive_processing_race :
    ((processing (run (initial (fun _ => 1) 0) race)).map (·.2)).Nodup ∧
      sentByClaimant (run (initial (fun _ => 1) 0) race) :=
  exclusive_processing (fun _ => 1) 0 race (by decide +kernel)

end WhatsappTester.Jobs.Exclusion
