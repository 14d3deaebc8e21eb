import WhatsappTester.Jobs.Custody

namespace WhatsappTester.Jobs.Solo

open Schema State Atomic.Program Atomic.Runs Atomic.Lease Atomic.Interleaving Statements
  Ledger Custody
open Process

/-- The single process as a cluster of one: between two steps it honours the
contract about the custody of items, and only it holds any. -/
structure Kept (s : Server) : Prop where
  inv : (contract False).inv s.world.shared
  idle : s.up → idle s.world.mem.pid s.world
  own : ∀ h ∈ holds (ledger s.world.shared).log, s.up ∧ h.worker = s.world.mem.pid

def heldBy (w : Nat) (s : Shared) : Prop := ∀ h ∈ holds (ledger s).log, h.worker = w

def Stable (I : Shared → Prop) : Prop :=
  ∀ w s t, (contract False).inv s → I s → Does False w s t → I t

variable {s : Server} {I : Shared → Prop}

theorem heldBy_does {w : Nat} {a b : Shared} (h : heldBy w a) (hd : Does False w a b) :
    heldBy w b := by
  obtain ⟨m, hm⟩ := hd.move
  intro x hx
  rw [hm.ledger] at hx
  obtain ⟨x₀, hx₀, hw, _⟩ | hclaim := holds_apply hx
  · exact hw.trans (h x₀ hx₀)
  · exact hm.worker _ (by rw [hclaim]; rfl)

theorem alone_call (hI : Stable I) (h : Kept s) (hup : s.up) (hi : I s.world.shared) (c : Call) :
    Wp Eq (fun _ t => (contract False).inv t.shared ∧ heldBy s.world.mem.pid t.shared ∧ I t.shared)
      c.code (fun _ t => idle s.world.mem.pid t ∧ (contract False).inv t.shared ∧
        heldBy s.world.mem.pid t.shared ∧ I t.shared) s.world := by
  refine Contract.alone (I := fun t => heldBy s.world.mem.pid t ∧ I t) ?_
    ⟨h.inv, fun x hx => (h.own x hx).2, hi⟩ (meets_call s.world.mem.pid c s.world (h.idle hup))
  intro a b ha hab hd
  exact ⟨(does_sound ha hd (fun hfalse => hfalse.elim)).1, heldBy_does hab.1 hd,
    hI _ a b ha hab.2 hd⟩

theorem pid_call (c : Call) (w : World) : (c.code.run w).2.mem.pid = w.mem.pid :=
  (always_run any_refl (fun _ _ _ => any_trans) (any_call c) w).pid

theorem pid_cut (c : Call) (n : Nat) (w : World) : (c.code.cut n w).mem.pid = w.mem.pid :=
  (always_cut any_refl (fun _ _ _ => any_trans) (any_call c) w n).pid

theorem kept_call (hI : Stable I) (h : Kept s) (hup : s.up) (hi : I s.world.shared) (c : Call) :
    Kept (step s (.call c)) ∧ I (step s (.call c)).world.shared := by
  have hend := wp_run (alone_call hI h hup hi c)
  have hstep := step_call hup c
  rw [hstep]
  refine ⟨⟨hend.2.1, fun _ => ?_, fun x hx => ⟨hup, ?_⟩⟩, hend.2.2.2⟩
  · simpa only [pid_call] using hend.1
  · simpa only [pid_call] using hend.2.2.1 x hx

theorem kept_cut (hI : Stable I) (h : Kept s) (hup : s.up) (hi : I s.world.shared)
    (c : Call) (n : Nat) :
    (contract False).inv (c.code.cut n s.world).shared ∧
      heldBy s.world.mem.pid (c.code.cut n s.world).shared ∧ I (c.code.cut n s.world).shared := by
  refine wp_cut (I := fun t : World => (contract False).inv t.shared ∧
    heldBy s.world.mem.pid t.shared ∧ I t.shared) ?_ (alone_call hI h hup hi c) n
  exact ⟨h.inv, fun x hx => (h.own x hx).2, hi⟩

theorem ledger_die (pid : Nat) (t : Shared) :
    ledger (die pid t) = (Move.die pid : JobMove).apply (ledger t) := rfl

theorem ledger_boot (w : World) :
    ledger (boot w).shared = (Move.recover w.shared.now : JobMove).apply (ledger w.shared) :=
  ledger_recover w.shared w.shared.now

theorem stable_true : Stable (fun _ => True) := fun _ _ _ _ _ _ => trivial

theorem kept_crash (h : Kept s) (c : Call) (n : Nat) : Kept (step s (.crash c n)) := by
  by_cases hup : s.up
  · obtain ⟨hinv, hown, _⟩ := kept_cut stable_true h hup trivial c n
    have hpid := pid_cut c n s.world
    have hm : (Move.die (c.code.cut n s.world).mem.pid : JobMove).Enabled Retry.maxAttempts
        (ledger (c.code.cut n s.world).shared) := trivial
    have hstep : step s (.crash c n) = ⟨false, { c.code.cut n s.world with
        shared := die (c.code.cut n s.world).mem.pid (c.code.cut n s.world).shared }⟩ := by
      simp [step, hup]
    rw [hstep]
    refine ⟨⟨hinv.1, sound_apply hinv.2 hm (by simp)⟩, fun hfalse => absurd hfalse (by simp), ?_⟩
    intro x hx
    obtain ⟨hx, hne⟩ := List.mem_filter.mp hx
    exact absurd ((hown x hx).trans hpid.symm) (by simpa using hne)
  · rwa [step_crash_down hup c n]

theorem kept_restart (h : Kept s) : Kept (step s .restart) := by
  by_cases hup : s.up
  · rwa [step_restart_up hup]
  · have hstep := step_restart hup
    have hnone : holds (ledger s.world.shared).log = [] :=
      List.eq_nil_iff_forall_not_mem.mpr (fun x hx => hup (h.own x hx).1)
    have hm : (Move.recover s.world.shared.now : JobMove).Enabled Retry.maxAttempts
        (ledger s.world.shared) := trivial
    have htimely : ∀ now, (Move.recover s.world.shared.now : JobMove) = .recover now →
        Timely now (ledger s.world.shared) := fun now _ x hx => by simp [hnone] at hx
    have hlog : (ledger (boot s.world).shared).log = (ledger s.world.shared).log := rfl
    rw [hstep]
    refine ⟨⟨?_, ?_⟩, fun _ => ⟨rfl, rfl, ?_, ?_⟩, ?_⟩
    · change ((Atomic.Table.update _ _ s.world.shared.db.items).map (·.id)).Nodup
      rw [Atomic.Table.map_update (by exact fun _ _ => rfl)]
      exact h.inv.1
    · rw [ledger_boot]
      exact sound_apply h.inv.2 hm htimely
    · have : mine (boot s.world).mem.pid (boot s.world).shared = [] := by
        simp [mine, holdsOf, hlog, hnone]
      rw [this]
      exact List.Perm.nil
    · exact fun _ ht => absurd ht List.not_mem_nil
    · intro x hx
      rw [hlog, hnone] at hx
      exact absurd hx List.not_mem_nil

theorem kept_step (h : Kept s) (a : Action) : Kept (step s a) := by
  cases a with
  | advance ms =>
    have hnow : s.world.shared.now ≤ s.world.shared.now + ms :=
      Int.le_add_of_nonneg_right (Int.natCast_nonneg ms)
    exact ⟨h.inv, fun hup => idle_calm (h.idle hup)
      ⟨rfl, rfl, Keeps.refl _ _, List.Subset.refl _, hnow⟩, h.own⟩
  | call c =>
    by_cases hup : s.up
    · exact (kept_call stable_true h hup trivial c).1
    · rwa [step_call_down hup c]
  | crash c n => exact kept_crash h c n
  | restart => exact kept_restart h

theorem kept_initial (concurrency : Nat) (now : Ms) : Kept (initial concurrency now) := by
  refine ⟨⟨List.nodup_nil, sound_initial now⟩, fun _ => ⟨rfl, rfl, List.Perm.nil, ?_⟩, ?_⟩
  · exact fun _ ht => absurd ht List.not_mem_nil
  · exact fun _ hx => absurd hx List.not_mem_nil

end WhatsappTester.Jobs.Solo
