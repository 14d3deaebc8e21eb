import Mathlib.Data.List.Chain
import Mathlib.Order.Defs.LinearOrder

namespace WhatsappTester.Atomic.Calendar

variable {ω ρ T : Type}

/-- One occurrence of a recurring task: the work done for it, when it was due,
when it was fired, and when it settled, if it has. -/
structure Occurrence (ω T : Type) where
  work : ω
  due : T
  firedAt : T
  settledAt : Option T

/-- What a recurring task waits for, and by which rule it goes on. -/
structure Plan (ρ T : Type) where
  next : T
  rule : ρ
  finished : Bool

/-- A recurring task: its occurrences so far, and its plan until it is withdrawn. -/
structure Diary (ω ρ T : Type) where
  past : List (Occurrence ω T)
  plan : Option (Plan ρ T)

/-- By rule `r`, `after r t s` is the occurrence that follows the one that was due
at `t` and settled at `s`, unless that was the last. -/
def Plan.advance (after : ρ → T → T → Option T) (s : T) (p : Plan ρ T) : Plan ρ T :=
  match after p.rule p.next s with
  | some t => { p with next := t, finished := false }
  | none => { p with finished := true }

@[simp] theorem advance_rule (after : ρ → T → T → Option T) (s : T) (p : Plan ρ T) :
    (p.advance after s).rule = p.rule := by
  simp only [Plan.advance]
  split <;> rfl

def Occurrence.settle (s : T) (o : Occurrence ω T) : Occurrence ω T :=
  { o with settledAt := some s }

@[simp] theorem settle_due (s : T) (o : Occurrence ω T) : (o.settle s).due = o.due := rfl

@[simp] theorem settle_settledAt (s : T) (o : Occurrence ω T) :
    (o.settle s).settledAt = some s := rfl

@[simp] theorem settle_firedAt (s : T) (o : Occurrence ω T) :
    (o.settle s).firedAt = o.firedAt := rfl

section Step

variable [LE T]

inductive Step (after : ρ → T → T → Option T) : Diary ω ρ T → Diary ω ρ T → Prop
  /-- The occurrence that the task waits for is fired once it is due. -/
  | fire {past : List (Occurrence ω T)} {p : Plan ρ T} (work : ω) (now : T)
      (hopen : p.finished = false) (hdue : p.next ≤ now) (hfresh : ∀ o ∈ past, o.due ≠ p.next) :
      Step after ⟨past, some p⟩ ⟨past ++ [⟨work, p.next, now, none⟩], some p⟩
  | settle {past : List (Occurrence ω T)} {o : Occurrence ω T} {plan : Option (Plan ρ T)} (now : T)
      (hopen : o.settledAt = none) : Step after ⟨past ++ [o], plan⟩ ⟨past ++ [o.settle now], plan⟩
  /-- After an occurrence has settled the task goes on to the next. -/
  | move {past : List (Occurrence ω T)} {o : Occurrence ω T} {p : Plan ρ T} {s : T}
      (hsettled : o.settledAt = some s) (hdue : o.due = p.next) (hopen : p.finished = false) :
      Step after ⟨past ++ [o], some p⟩ ⟨past ++ [o], some (p.advance after s)⟩
  | withdraw (c : Diary ω ρ T) : Step after c ⟨c.past, none⟩

/-- One occurrence at a time: all but the last have settled, none was fired before
it was due, and the one that has not settled is the one the task waits for. -/
structure InOrder (c : Diary ω ρ T) : Prop where
  settled : c.past.Pairwise (fun o _ => o.settledAt.isSome)
  due : ∀ o ∈ c.past, o.due ≤ o.firedAt
  current : ∀ p ∈ c.plan, ∀ o ∈ c.past, o.settledAt = none → o.due = p.next ∧ p.finished = false

variable {after : ρ → T → T → Option T} {c c' : Diary ω ρ T}

theorem inOrder_last {past : List (Occurrence ω T)} {o : Occurrence ω T} {plan : Option (Plan ρ T)}
    (h : InOrder ⟨past ++ [o], plan⟩) : ∀ o' ∈ past, o'.settledAt.isSome := by
  intro o' ho'
  exact (List.pairwise_append.mp h.settled).2.2 o' ho' o (List.mem_singleton_self o)

theorem inOrder_step (h : InOrder c) (hs : Step after c c') : InOrder c' := by
  cases hs with
  | @fire past p work now hopen hdue hfresh =>
    have hsettled : ∀ o ∈ past, o.settledAt.isSome := by
      intro o ho
      by_contra hnone
      exact hfresh o ho (h.current _ rfl o ho (by simpa using hnone)).1
    refine ⟨List.pairwise_append.mpr ⟨h.settled, List.pairwise_singleton _ _, ?_⟩, ?_, ?_⟩
    · exact fun o ho _ _ => hsettled o ho
    · exact List.forall_mem_append.mpr ⟨h.due, List.forall_mem_singleton.mpr hdue⟩
    · rintro _ ⟨⟩
      exact List.forall_mem_append.mpr ⟨h.current _ rfl,
        List.forall_mem_singleton.mpr (fun _ => ⟨rfl, hopen⟩)⟩
  | @settle past o plan now hopen =>
    have hlast := inOrder_last h
    refine ⟨List.pairwise_append.mpr ⟨(List.pairwise_append.mp h.settled).1,
      List.pairwise_singleton _ _, ?_⟩, ?_, ?_⟩
    · exact fun o' ho' _ _ => hlast o' ho'
    · obtain ⟨hpast, hdue⟩ := List.forall_mem_append.mp h.due
      exact List.forall_mem_append.mpr
        ⟨hpast, List.forall_mem_singleton.mpr (hdue o (List.mem_singleton_self o))⟩
    · intro p hp
      refine List.forall_mem_append.mpr ⟨(List.forall_mem_append.mp (h.current p hp)).1, ?_⟩
      exact List.forall_mem_singleton.mpr (fun hnone => by cases hnone)
  | @move past o p s hsettled hdue hopen =>
    refine ⟨h.settled, h.due, fun p' _ => List.forall_mem_append.mpr ⟨fun o' ho' hnone => ?_, ?_⟩⟩
    · have := inOrder_last h o' ho'
      simp [hnone] at this
    · exact List.forall_mem_singleton.mpr (fun hnone => by simp [hsettled] at hnone)
  | withdraw => exact ⟨h.settled, h.due, fun p hp => by cases hp⟩

/-- At most one occurrence has not settled. -/
theorem open_le_one (h : InOrder c) : (c.past.filter (fun o => o.settledAt.isNone)).length ≤ 1 := by
  have hopen : (c.past.filter (fun o => o.settledAt.isNone)).Pairwise (fun _ _ => False) := by
    refine (h.settled.sublist List.filter_sublist).imp_of_mem (fun ho _ hsettled => ?_)
    have := (List.mem_filter.mp ho).2
    rw [Option.isNone_iff_eq_none.mp this] at hsettled
    cases hsettled
  generalize c.past.filter (fun o => o.settledAt.isNone) = os at hopen ⊢
  cases hopen with
  | nil => exact Nat.zero_le 1
  | @cons o os hnone =>
    cases os with
    | nil => exact le_refl 1
    | cons o' os => exact (hnone o' List.mem_cons_self).elim

/-- A task that has come to its end, or was withdrawn, with these occurrences behind it. -/
structure Over (past : List (Occurrence ω T)) (c : Diary ω ρ T) : Prop where
  past : c.past = past
  settled : ∀ o ∈ c.past, o.settledAt.isSome
  finished : ∀ p ∈ c.plan, p.finished = true

theorem over_step {past : List (Occurrence ω T)} (h : Over past c) (hs : Step after c c') :
    Over past c' := by
  cases hs with
  | fire work now hopen hdue hfresh => exact absurd (h.finished _ rfl) (by simp [hopen])
  | settle now hopen =>
    have := h.settled _ (List.mem_append_right _ (List.mem_singleton_self _))
    simp [hopen] at this
  | move hsettled hdue hopen => exact absurd (h.finished _ rfl) (by simp [hopen])
  | withdraw => exact ⟨h.past, h.settled, fun p hp => by cases hp⟩

structure Withdrawn (works : List ω) (c : Diary ω ρ T) : Prop where
  works : c.past.map (·.work) = works
  plan : c.plan = none

theorem withdrawn_step {works : List ω} (h : Withdrawn works c) (hs : Step after c c') :
    Withdrawn works c' := by
  cases hs with
  | fire work now hopen hdue hfresh => cases h.plan
  | settle now hopen => exact ⟨by simpa [Occurrence.settle] using h.works, h.plan⟩
  | move hsettled hdue hopen => cases h.plan
  | withdraw => exact ⟨h.works, rfl⟩

/-- By one rule throughout, where only admitted times occur and each follows from
its predecessor and the moment that settled. -/
structure Regular (rule : ρ) (admits : T → Prop) (follows : T → T → T → Prop) (c : Diary ω ρ T) :
    Prop where
  rule : ∀ p ∈ c.plan, p.rule = rule ∧ admits p.next
  admitted : ∀ o ∈ c.past, admits o.due
  chain : c.past.IsChain (fun o o' => ∃ s, o.settledAt = some s ∧ follows o.due s o'.due)
  next : ∀ p ∈ c.plan, ∀ o ∈ c.past.getLast?,
    o.due = p.next ∨ ∃ s, o.settledAt = some s ∧ follows o.due s p.next

theorem regular_step {rule : ρ} {admits : T → Prop} {follows : T → T → T → Prop}
    (hafter : ∀ t s u, admits t → after rule t s = some u → admits u ∧ follows t s u)
    (h : Regular rule admits follows c) (hs : Step after c c') :
    Regular rule admits follows c' := by
  cases hs with
  | @fire past p work now hopen hdue hfresh =>
    obtain ⟨hrule, hnext⟩ := h.rule p rfl
    refine ⟨h.rule, List.forall_mem_append.mpr ⟨h.admitted, List.forall_mem_singleton.mpr hnext⟩,
      ?_, ?_⟩
    · refine h.chain.append (.singleton _) ?_
      rintro o ho _ ⟨⟩
      exact (h.next p rfl o ho).resolve_left (hfresh o (List.mem_of_getLast? ho))
    · rintro _ ⟨⟩ o ho
      rw [List.getLast?_concat] at ho
      obtain rfl := Option.some.inj ho
      exact Or.inl rfl
  | @settle past o plan now hopen =>
    obtain ⟨hpast, hlast⟩ := List.forall_mem_append.mp h.admitted
    refine ⟨h.rule, List.forall_mem_append.mpr ⟨hpast, ?_⟩, ?_, ?_⟩
    · exact List.forall_mem_singleton.mpr (hlast o (List.mem_singleton_self o))
    · obtain ⟨hchain, _, hfollow⟩ := List.isChain_append.mp h.chain
      refine hchain.append (.singleton _) ?_
      rintro o' ho' _ ⟨⟩
      exact hfollow o' ho' o rfl
    · intro p hp o' ho'
      rw [List.getLast?_concat] at ho'
      obtain rfl := Option.some.inj ho'
      obtain hdue | ⟨s, hsettled, _⟩ := h.next p hp o List.getLast?_concat
      · exact Or.inl hdue
      · simp [hopen] at hsettled
  | @move past o p s hsettled hdue hopen =>
    obtain ⟨rfl, hnext⟩ := h.rule p rfl
    refine ⟨?_, h.admitted, h.chain, ?_⟩
    · rintro _ ⟨⟩
      refine ⟨advance_rule .., ?_⟩
      simp only [Plan.advance]
      cases hnew : after p.rule p.next s with
      | none => exact hnext
      | some u => exact (hafter p.next s u hnext hnew).1
    · rintro _ ⟨⟩ o' ho'
      rw [List.getLast?_concat] at ho'
      obtain rfl := Option.some.inj ho'
      simp only [Plan.advance]
      cases hnew : after p.rule p.next s with
      | none => exact Or.inl hdue
      | some u => exact Or.inr ⟨s, hsettled, hdue ▸ (hafter p.next s u hnext hnew).2⟩
  | withdraw => exact ⟨fun _ hp => absurd hp (by simp), h.admitted, h.chain,
      fun _ hp => absurd hp (by simp)⟩

end Step

/-- Occurrences that each follow a predecessor strictly increase. -/
theorem due_increasing [Preorder T] {follows : T → T → T → Prop}
    (hfollows : ∀ t s u, follows t s u → t < u) {past : List (Occurrence ω T)}
    (h : past.IsChain (fun o o' => ∃ s, o.settledAt = some s ∧ follows o.due s o'.due)) :
    past.Pairwise (fun o o' => o.due < o'.due) := by
  have hlt : (past.map Occurrence.due).IsChain (· < ·) := by
    refine (List.isChain_map _).mpr (h.imp ?_)
    rintro o o' ⟨s, _, hfollow⟩
    exact hfollows _ _ _ hfollow
  exact List.pairwise_map.mp hlt.pairwise

end WhatsappTester.Atomic.Calendar
