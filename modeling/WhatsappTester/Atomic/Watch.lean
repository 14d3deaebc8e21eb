import WhatsappTester.Atomic.Interleaving
import WhatsappTester.Atomic.Runs

namespace WhatsappTester.Atomic.Watch

open Program Interleaving Runs

variable {ω Sh Mem Γ : Type}

structure Errand (Γ Mem : Type) where
  work : Γ
  mem : Mem

structure Watched (ω Sh Mem Γ : Type) where
  cluster : Cluster ω Sh Mem
  errands : List (ω × Errand Γ Mem) := []

def idle (p : Process Sh Mem) : Bool :=
  match p.code with
  | .ret _ => true
  | .stmt .. => false

variable [DecidableEq ω]

def others (w : ω) (errands : List (ω × Errand Γ Mem)) : List (ω × Errand Γ Mem) :=
  errands.filter (fun x => decide (x.1 ≠ w))

def watch (rules : Rules ω Sh Mem Γ) (W : Watched ω Sh Mem Γ) (a : Action ω Γ) :
    Watched ω Sh Mem Γ where
  cluster := rules.step W.cluster a
  errands :=
    match a with
    | .start w c =>
      if idle (W.cluster.process w) then (w, ⟨c, (W.cluster.process w).mem⟩) :: others w W.errands
        else W.errands
    | .exec w => if idle ((Rules.exec W.cluster w).process w) then others w W.errands else W.errands
    | .kill w => others w W.errands
    | .wait _ => W.errands

def Keeping (P : ω → Errand Γ Mem → Prog (View Sh Mem) Unit → View Sh Mem → Prop)
    (W : Watched ω Sh Mem Γ) : Prop :=
  ∀ w e, (w, e) ∈ W.errands → P w e (W.cluster.process w).code (W.cluster.view w)

def Covered (W : Watched ω Sh Mem Γ) : Prop :=
  ∀ w, idle (W.cluster.process w) = false → ∃ e, (w, e) ∈ W.errands

def Single (W : Watched ω Sh Mem Γ) : Prop :=
  ∀ w e e', (w, e) ∈ W.errands → (w, e') ∈ W.errands → e = e'

def executes (w : ω) : Action ω Γ → Bool
  | .exec u => decide (u = w)
  | _ => false

def foreign (w : ω) : Action ω Γ → Bool
  | .exec u => decide (u ≠ w)
  | .kill u => decide (u ≠ w)
  | _ => true

section Keeping

variable {rules : Rules ω Sh Mem Γ} {W : Watched ω Sh Mem Γ} {w : ω}
  {P P' : ω → Errand Γ Mem → Prog (View Sh Mem) Unit → View Sh Mem → Prop}

theorem mem_others {x : ω × Errand Γ Mem} : x ∈ others w W.errands ↔ x ∈ W.errands ∧ x.1 ≠ w := by
  simp [others]

/-- Watching changes nothing. -/
theorem watch_cluster (as : List (Action ω Γ)) :
    (play (watch rules) W as).cluster = play rules.step W.cluster as := by
  induction as generalizing W with
  | nil => rfl
  | cons a as ih => exact ih

theorem along_watch {ok : Cluster ω Sh Mem → Action ω Γ → Prop} {as : List (Action ω Γ)} :
    Along (fun W a => ok W.cluster a) (watch rules) W as ↔ Along ok rules.step W.cluster as := by
  induction as generalizing W with
  | nil => exact Iff.rfl
  | cons a as ih => exact and_congr_right (fun _ => ih)

theorem code_of_idle {p : Process Sh Mem} (h : idle p = true) : p.code = .ret () := by
  unfold idle at h
  split at h
  · assumption
  · cases h

theorem start_busy {C : Cluster ω Sh Mem} {c : Γ} (hbusy : idle (C.process w) = false) :
    rules.start C w c = C := by
  simp only [Rules.start]
  split
  case h_1 hcode => simp [idle, hcode] at hbusy
  case h_2 => rfl

theorem start_idle {C : Cluster ω Sh Mem} {c : Γ} (hidle : idle (C.process w) = true) :
    rules.start C w c =
    { C with process := Function.update C.process w ⟨(C.process w).mem, rules.code c⟩ } := by
  rw [Rules.start, code_of_idle hidle]

theorem exec_other {C : Cluster ω Sh Mem} {u : ω} (hne : u ≠ w) :
    (Rules.exec C w).process u = C.process u := by
  unfold Rules.exec
  split
  · rfl
  · exact Function.update_of_ne hne _ _

/-- A process that is busy stays as it is until it goes on. -/
theorem process_foreign {C : Cluster ω Sh Mem} {as : List (Action ω Γ)}
    (h : ∀ a ∈ as, foreign w a = true) (hbusy : idle (C.process w) = false) :
    (play rules.step C as).process w = C.process w := by
  induction as generalizing C with
  | nil => rfl
  | cons a as ih =>
    obtain ⟨ha, has⟩ := List.forall_mem_cons.mp h
    have hsame : (rules.step C a).process w = C.process w := by
      cases a with
      | start u c =>
        simp only [Rules.step]
        by_cases hu : w = u
        · subst hu
          rw [start_busy hbusy]
        · simp only [Rules.start]
          split
          · exact Function.update_of_ne hu _ _
          · rfl
      | exec u => exact exec_other (Ne.symm (by simpa [foreign] using ha))
      | kill u => exact Function.update_of_ne (Ne.symm (by simpa [foreign] using ha)) _ _
      | wait ms => rfl
    rw [play_cons, ih has (by rw [hsame]; exact hbusy), hsame]

theorem covered_step (h : Covered W) (a : Action ω Γ) : Covered (watch rules W a) := by
  intro u hu
  cases a with
  | start w c =>
    simp only [watch, Rules.step] at hu ⊢
    cases hidle : idle (W.cluster.process w) with
    | false =>
      rw [start_busy hidle] at hu
      exact h u hu
    | true =>
      rw [if_pos rfl]
      by_cases hne : u = w
      · subst hne
        exact ⟨_, List.mem_cons_self⟩
      · simp only [start_idle hidle, Function.update_of_ne hne] at hu
        obtain ⟨e, he⟩ := h u hu
        exact ⟨e, List.mem_cons_of_mem _ (mem_others.mpr ⟨he, hne⟩)⟩
  | exec w =>
    simp only [watch, Rules.step] at hu ⊢
    by_cases hne : u = w
    · subst hne
      rw [hu]
      refine h u ?_
      unfold Rules.exec at hu
      split at hu
      case h_1 hcode => exact hu
      case h_2 hcode => simp [idle, hcode]
    · rw [exec_other hne] at hu
      obtain ⟨e, he⟩ := h u hu
      split
      · exact ⟨e, mem_others.mpr ⟨he, hne⟩⟩
      · exact ⟨e, he⟩
  | kill w =>
    simp only [watch, Rules.step, Rules.kill] at hu ⊢
    by_cases hne : u = w
    · subst hne
      simp [idle] at hu
    · rw [Function.update_of_ne hne] at hu
      obtain ⟨e, he⟩ := h u hu
      exact ⟨e, mem_others.mpr ⟨he, hne⟩⟩
  | wait ms => exact h u hu

theorem single_step (h : Single W) (a : Action ω Γ) : Single (watch rules W a) := by
  have hothers : ∀ v : ω, ∀ u e e', (u, e) ∈ others v W.errands →
      (u, e') ∈ others v W.errands → e = e' :=
    fun _ u e e' he he' => h u e e' (mem_others.mp he).1 (mem_others.mp he').1
  intro u e e' he he'
  cases a with
  | start w c =>
    simp only [watch] at he he'
    split at he
    case isFalse hbusy =>
      rw [if_neg hbusy] at he'
      exact h u e e' he he'
    case isTrue hidle =>
      rw [if_pos hidle] at he'
      obtain he | he := List.mem_cons.mp he <;> obtain he' | he' := List.mem_cons.mp he'
      · exact (congrArg Prod.snd he).trans (congrArg Prod.snd he').symm
      · exact absurd (congrArg Prod.fst he) (mem_others.mp he').2
      · exact absurd (congrArg Prod.fst he') (mem_others.mp he).2
      · exact hothers w u e e' he he'
  | exec w =>
    simp only [watch] at he he'
    split at he
    case isFalse hbusy =>
      rw [if_neg hbusy] at he'
      exact h u e e' he he'
    case isTrue hidle =>
      rw [if_pos hidle] at he'
      exact hothers w u e e' he he'
  | kill w => exact hothers w u e e' he he'
  | wait ms => exact h u e e' he he'

theorem keeping_start {c : Γ} (h : Keeping P W) (hstart : idle (W.cluster.process w) = true →
    P w ⟨c, (W.cluster.process w).mem⟩ (rules.code c) (W.cluster.view w)) :
    Keeping P (watch rules W (.start w c)) := by
  cases hidle : idle (W.cluster.process w) with
  | false =>
    simp only [Keeping, watch, Rules.step, start_busy hidle, hidle, Bool.false_eq_true, ↓reduceIte]
    exact h
  | true =>
    intro u e hu
    simp only [watch, hidle, ↓reduceIte] at hu ⊢
    simp only [Rules.step, start_idle hidle, Cluster.view]
    obtain hu | hu := List.mem_cons.mp hu
    · cases hu
      simpa [Cluster.view] using hstart hidle
    · obtain ⟨hold, hne⟩ := mem_others.mp hu
      simpa [Function.update_of_ne hne, Cluster.view] using h u e hold

/-- A statement of one process: its own errand goes on, and those of the others bear it. -/
theorem keeping_exec (h : Keeping P W) (hown : ∀ e act next, (w, e) ∈ W.errands →
      (W.cluster.process w).code = .stmt act next → P w e (.stmt act next) (W.cluster.view w) →
      P' w e (next (W.cluster.view w)) (act (W.cluster.view w)))
    (hothers : ∀ u e, (u, e) ∈ W.errands → u ≠ w →
      P u e (W.cluster.process u).code (W.cluster.view u) →
      P' u e (W.cluster.process u).code ⟨(Rules.exec W.cluster w).shared,
        (W.cluster.process u).mem⟩) :
    Keeping P' (watch rules W (.exec w)) := by
  intro u e hu
  have hrest : (u, e) ∈ W.errands ∧ u ≠ w → P' u e ((Rules.exec W.cluster w).process u).code
      ((Rules.exec W.cluster w).view u) := by
    rintro ⟨hold, hne⟩
    rw [Cluster.view, exec_other hne]
    exact hothers u e hold hne (h u e hold)
  by_cases hne : u = w
  case neg =>
    refine hrest ⟨?_, hne⟩
    simp only [watch] at hu
    split at hu
    · exact (mem_others.mp hu).1
    · exact hu
  case pos =>
    subst hne
    simp only [watch] at hu
    split at hu
    · exact absurd rfl (mem_others.mp hu).2
    case isFalse hbusy =>
      cases hcode : (W.cluster.process u).code with
      | ret a => simp [Rules.exec, hcode, idle] at hbusy
      | stmt act next =>
        have hold := h u e hu
        rw [hcode] at hold
        simpa [watch, Rules.step, Rules.exec, hcode, Cluster.view]
          using hown e act next hu hcode hold

theorem keeping_kill (h : Keeping P W) (hothers : ∀ u e, (u, e) ∈ W.errands → u ≠ w →
      P u e (W.cluster.process u).code (W.cluster.view u) →
      P u e (W.cluster.process u).code ⟨rules.die w W.cluster.shared, (W.cluster.process u).mem⟩) :
    Keeping P (watch rules W (.kill w)) := by
  intro u e hu
  obtain ⟨hold, hne⟩ := mem_others.mp hu
  simpa [watch, Rules.step, Rules.kill, Cluster.view, Function.update_of_ne hne] using
    hothers u e hold hne (h u e hold)

theorem keeping_wait {ms : Nat} (h : Keeping P W) (hothers : ∀ u e, (u, e) ∈ W.errands →
      P u e (W.cluster.process u).code (W.cluster.view u) →
      P u e (W.cluster.process u).code ⟨rules.wait ms W.cluster.shared,
        (W.cluster.process u).mem⟩) :
    Keeping P (watch rules W (.wait ms)) := fun u e hu => hothers u e hu (h u e hu)

end Keeping

end WhatsappTester.Atomic.Watch
