import WhatsappTester.Atomic.History

namespace WhatsappTester.Atomic.Projecting

open Runs History

variable {S A S' A' : Type} {part : S → A → Option A'} {step : S → A → S} {step' : S' → A' → S'}
  {s : S} {as : List A} {x : A'}

def project (part : S → A → Option A') (step : S → A → S) : S → List A → List A'
  | _, [] => []
  | s, a :: as => (part s a).toList ++ project part step (step s a) as

theorem project_append (s : S) (as bs : List A) :
    project part step s (as ++ bs) =
      project part step s as ++ project part step (play step s as) bs := by
  induction as generalizing s with
  | nil => rfl
  | cons a as ih =>
    rw [List.cons_append, project, project, ih, List.append_assoc]
    rfl

/-- The part runs by itself through what it does in the whole. -/
theorem view_play (view : S → S')
    (h : ∀ s a, view (step s a) = (part s a).elim (view s) (step' (view s))) (s : S)
    (as : List A) : view (play step s as) = play step' (view s) (project part step s as) := by
  induction as generalizing s with
  | nil => rfl
  | cons a as ih =>
    rw [play_cons, ih, h, project, play_append]
    cases part s a with
    | none => rfl
    | some x => rfl

/-- Each thing that the part does is done by an action of the whole. -/
theorem project_split {b c : List A'} (h : project part step s as = b ++ x :: c) :
    ∃ before a after, as = before ++ a :: after ∧ project part step s before = b ∧
      part (play step s before) a = some x := by
  induction as generalizing s b with
  | nil => simp [project] at h
  | cons a as ih =>
    rw [project] at h
    cases hpart : part s a with
    | none =>
      rw [hpart] at h
      obtain ⟨before, a', after, rfl, hb, hx⟩ := ih h
      refine ⟨a :: before, a', after, rfl, ?_, hx⟩
      rw [project, hpart, hb]
      rfl
    | some y =>
      rw [hpart] at h
      cases b with
      | nil =>
        obtain ⟨rfl, -⟩ := List.cons.inj h
        exact ⟨[], a, as, rfl, rfl, hpart⟩
      | cons z b =>
        obtain ⟨rfl, hrest⟩ := List.cons.inj h
        obtain ⟨before, a', after, rfl, hb, hx⟩ := ih hrest
        refine ⟨a :: before, a', after, rfl, ?_, hx⟩
        rw [project, hpart, hb]
        rfl

theorem mem_project (h : x ∈ project part step s as) :
    ∃ before a, At (fun s a => part s a = some x) step s as before a := by
  obtain ⟨b, c, hsplit⟩ := List.append_of_mem h
  obtain ⟨before, a, after, has, -, hx⟩ := project_split hsplit
  exact ⟨before, a, ⟨after, has⟩, hx⟩

/-- What has happened in the part has happened in the whole. -/
theorem at_project {p : S' → A' → Prop} (view : S → S')
    (h : ∀ s a, view (step s a) = (part s a).elim (view s) (step' (view s)))
    {b : List A'} (hat : At p step' (view s) (project part step s as) b x) :
    ∃ before a, At (fun s a => part s a = some x ∧ p (view s) x) step s as before a ∧
      project part step s before = b := by
  obtain ⟨⟨c, hsplit⟩, hp⟩ := hat
  obtain ⟨before, a, after, has, rfl, hx⟩ := project_split hsplit
  exact ⟨before, a, ⟨⟨after, has⟩, hx, view_play view h s before ▸ hp⟩, rfl⟩

end WhatsappTester.Atomic.Projecting
