import WhatsappTester.Atomic.Program

namespace WhatsappTester.Atomic.Transaction

open Program

/-- What becomes of a statement: it works as it should, or it raises an error, with which the
database may end the open transaction of its own accord. -/
inductive Fate (ε : Type)
  | works
  | fails (err : ε) (aborts : Bool)

/-- A connection to a database: what the database holds, the copy that an open transaction works
on, the fates of the statements to come, and the number of transactions committed so far. -/
structure Session (D ε : Type) where
  stored : D
  working : Option D := none
  fates : List (Fate ε) := []
  commits : Nat := 0

variable {D ε α β : Type}

/-- A program that talks to the database and may throw. -/
abbrev Script (D ε : Type) := ExceptT ε (Prog (Session D ε))

def Session.attempt (s : Session D ε) (f : Session D ε → Except ε α × Session D ε) :
    Except ε α × Session D ε :=
  match s.fates with
  | [] => f s
  | .works :: fates => f { s with fates := fates }
  | .fails err aborts :: fates =>
    (.error err, { s with fates := fates, working := if aborts then none else s.working })

def perform (f : Session D ε → Except ε α × Session D ε) : Script D ε α :=
  ExceptT.mk (update (fun s => (s.attempt f).2) (fun s => (s.attempt f).1))

def statement (f : D → Except ε (α × D)) : Script D ε α :=
  perform (fun s =>
    match s.working, f (s.working.getD s.stored) with
    | _, .error err => (.error err, s)
    | none, .ok (a, d) => (.ok a, { s with stored := d })
    | some _, .ok (a, d) => (.ok a, { s with working := some d }))

def select (f : D → α) : Script D ε α := statement (fun d => .ok (f d, d))

/-- `BEGIN IMMEDIATE`, which raises `misplaced` inside a transaction. -/
def beginImmediate (misplaced : ε) : Script D ε Unit :=
  perform (fun s =>
    match s.working with
    | none => (.ok (), { s with working := some s.stored })
    | some _ => (.error misplaced, s))

/-- `COMMIT`, which raises `misplaced` outside a transaction. -/
def commit (misplaced : ε) : Script D ε Unit :=
  perform (fun s =>
    match s.working with
    | none => (.error misplaced, s)
    | some d => (.ok (), { s with stored := d, working := none, commits := s.commits + 1 }))

/-- `ROLLBACK`, which fails if and only if there is no transaction. -/
def rollback (misplaced : ε) : Script D ε Unit :=
  ExceptT.mk (update (fun s => { s with working := none })
    (fun s => if s.working.isSome then .ok () else .error misplaced))

/-- `try { ROLLBACK } catch {}` -/
def rollbackQuietly (misplaced : ε) : Script D ε Unit :=
  tryCatch (rollback misplaced) (fun _ => pure ())

/-- Alone on the database, the script keeps `K` true of what is stored, and ends with `Q` if it
returns and with `E` if it throws. -/
def Leads (K : D → Prop) (p : Script D ε α) (Q : α → Session D ε → Prop)
    (E : ε → Session D ε → Prop) (s : Session D ε) : Prop :=
  Wp Eq (fun _ t => K t.stored) p.run
    (fun r t => match r with
      | .ok a => Q a t
      | .error e => E e t) s

section Rules

variable {K : D → Prop} {Q Q' : α → Session D ε → Prop} {E F : ε → Session D ε → Prop}
  {s : Session D ε} {p : Script D ε α}

theorem leads_pure {a : α} (h : Q a s) : Leads K (pure a) Q E s := h

theorem leads_throw {err : ε} (h : E err s) : Leads K (throw err : Script D ε α) Q E s := h

theorem leads_mono (hQ : ∀ a t, Q a t → Q' a t) (hE : ∀ e t, E e t → F e t)
    (h : Leads K p Q E s) : Leads K p Q' F s := by
  refine wp_mono (fun r t ht => ?_) h
  cases r with
  | ok a => exact hQ a t ht
  | error e => exact hE e t ht

theorem leads_bind {k : α → Script D ε β} {Q' : β → Session D ε → Prop} (hp : Leads K p Q F s)
    (hk : ∀ a t, Q a t → Leads K (k a) Q' E t) (hE : ∀ e t, F e t → E e t) :
    Leads K (p >>= k) Q' E s := by
  refine wp_seq hp (fun r t ht => ?_)
  cases r with
  | ok a => exact hk a t ht
  | error e => exact hE e t ht

theorem leads_catch {handle : ε → Script D ε α} (hp : Leads K p Q F s)
    (hE : ∀ e t, F e t → Leads K (handle e) Q E t) :
    Leads K (tryCatch p handle) Q E s := by
  refine wp_seq hp (fun r t ht => ?_)
  cases r with
  | ok a => exact ht
  | error e => exact hE e t ht

/-- Where the script ends, whether it returns or throws. -/
theorem leads_end {P : Session D ε → Prop} (h : Leads K p (fun _ t => P t) (fun _ t => P t) s) :
    P (p.run.run s).2 := by
  have hend := wp_run h
  split at hend <;> exact hend

/-- At every point where the script may be cut off the database holds what `K` allows. -/
theorem leads_cut (hs : K s.stored) (h : Leads K p Q E s) (n : Nat) :
    K (p.run.cut n s).stored :=
  wp_cut (I := fun t : Session D ε => K t.stored) hs h n

end Rules

structure At (d : D) (w : Option D) (n : Nat) (s : Session D ε) : Prop where
  stored : s.stored = d
  working : s.working = w
  commits : s.commits = n

def Within (d : D) (n : Nat) (s : Session D ε) : Prop := ∃ w, At d w n s

section Statements

variable {K : D → Prop} {E : ε → Session D ε → Prop} {s : Session D ε} {d w : D} {n : Nat}
  {misplaced : ε}

theorem leads_perform {w : Option D} {f : Session D ε → Except ε α × Session D ε}
    {Q : α → Session D ε → Prop} (hs : At d w n s) (hK : K d)
    (hworks : ∀ t, At d w n t → K (f t).2.stored ∧ match (f t).1 with
      | .ok a => Q a (f t).2
      | .error e => E e (f t).2)
    (hfails : ∀ e t, At d w n t ∨ At d none n t → E e t) : Leads K (perform f) Q E s := by
  have hend : K (s.attempt f).2.stored ∧ match (s.attempt f).1 with
      | .ok a => Q a (s.attempt f).2
      | .error e => E e (s.attempt f).2 := by
    rcases hfates : s.fates with _ | ⟨fate, fates⟩
    · rw [Session.attempt, hfates]
      exact hworks s hs
    · cases fate with
      | works =>
        rw [Session.attempt, hfates]
        exact hworks _ ⟨hs.stored, hs.working, hs.commits⟩
      | fails err aborts =>
        rw [Session.attempt, hfates]
        refine ⟨by rw [hs.stored]; exact hK, hfails err _ ?_⟩
        cases aborts with
        | true => exact Or.inr ⟨hs.stored, rfl, hs.commits⟩
        | false => exact Or.inl ⟨hs.stored, hs.working, hs.commits⟩
  rintro _ rfl
  exact hend

theorem within_of {t : Session D ε} (h : At d (some w) n t ∨ At d none n t) : Within d n t :=
  h.elim (fun ht => ⟨_, ht⟩) (fun ht => ⟨_, ht⟩)

/-- A statement inside a transaction works on the copy. -/
theorem leads_inside {f : D → Except ε (α × D)} {Q : α → Session D ε → Prop}
    (hs : At d (some w) n s) (hK : K d)
    (hQ : ∀ a w' t, f w = .ok (a, w') → At d (some w') n t → Q a t)
    (hE : ∀ e t, Within d n t → E e t) : Leads K (statement f) Q E s := by
  refine leads_perform hs hK (fun t ht => ?_) (fun e t ht => hE e t (within_of ht))
  obtain ⟨_, _, fates, _⟩ := t
  obtain ⟨rfl, rfl, rfl⟩ := ht
  cases hf : f w with
  | error e =>
    simp only [Option.getD_some, hf]
    exact ⟨hK, hE e _ ⟨_, rfl, rfl, rfl⟩⟩
  | ok r =>
    simp only [Option.getD_some, hf]
    exact ⟨hK, hQ r.1 r.2 _ hf ⟨rfl, rfl, rfl⟩⟩

/-- A statement outside a transaction works on the database. -/
theorem leads_outside {f : D → Except ε (α × D)} {Q : α → Session D ε → Prop}
    (hs : At d none n s) (hK : K d) (hK' : ∀ a d', f d = .ok (a, d') → K d')
    (hQ : ∀ a d' t, f d = .ok (a, d') → At d' none n t → Q a t)
    (hE : ∀ e t, At d none n t → E e t) : Leads K (statement f) Q E s := by
  refine leads_perform hs hK (fun t ht => ?_) (fun e t ht => hE e t (ht.elim id id))
  obtain ⟨_, _, fates, _⟩ := t
  obtain ⟨rfl, rfl, rfl⟩ := ht
  cases hf : f _ with
  | error e =>
    simp only
    exact ⟨hK, hE e _ ⟨rfl, rfl, rfl⟩⟩
  | ok r =>
    simp only
    exact ⟨hK' r.1 r.2 hf, hQ r.1 r.2 _ hf ⟨rfl, rfl, rfl⟩⟩

theorem leads_select {f : D → α} {Q : α → Session D ε → Prop} (hs : At d none n s) (hK : K d)
    (hQ : ∀ t, At d none n t → Q (f d) t) (hE : ∀ e t, At d none n t → E e t) :
    Leads K (select f) Q E s := by
  refine leads_outside hs hK (fun a d' h => ?_) (fun a d' t h ht => ?_) hE
  · cases h
    exact hK
  · cases h
    exact hQ t ht

theorem leads_select_inside {f : D → α} {Q : α → Session D ε → Prop} (hs : At d (some w) n s)
    (hK : K d) (hQ : ∀ t, At d (some w) n t → Q (f w) t) (hE : ∀ e t, Within d n t → E e t) :
    Leads K (select f) Q E s := by
  refine leads_inside hs hK (fun a w' t h ht => ?_) hE
  cases h
  exact hQ t ht

theorem leads_begin {Q : Unit → Session D ε → Prop} (hs : At d none n s) (hK : K d)
    (hQ : ∀ t, At d (some d) n t → Q () t) (hE : ∀ e t, At d none n t → E e t) :
    Leads K (beginImmediate misplaced) Q E s := by
  refine leads_perform hs hK (fun t ht => ?_) (fun e t ht => hE e t (ht.elim id id))
  obtain ⟨_, _, fates, _⟩ := t
  obtain ⟨rfl, rfl, rfl⟩ := ht
  exact ⟨hK, hQ _ ⟨rfl, rfl, rfl⟩⟩

theorem leads_commit {Q : Unit → Session D ε → Prop} (hs : At d (some w) n s) (hK : K d)
    (hK' : K w) (hQ : ∀ t, At w none (n + 1) t → Q () t) (hE : ∀ e t, Within d n t → E e t) :
    Leads K (commit misplaced) Q E s := by
  refine leads_perform hs hK (fun t ht => ?_) (fun e t ht => hE e t (within_of ht))
  obtain ⟨_, _, fates, _⟩ := t
  obtain ⟨rfl, rfl, rfl⟩ := ht
  exact ⟨hK', hQ _ ⟨rfl, rfl, rfl⟩⟩

/-- Whether there is a transaction to roll back or not, there is none afterwards. -/
theorem leads_rollbackQuietly {Q : Unit → Session D ε → Prop} (hs : Within d n s) (hK : K d)
    (hQ : ∀ t, At d none n t → Q () t) : Leads K (rollbackQuietly misplaced) Q E s := by
  have hrollback : Leads K (rollback misplaced) (fun _ t => At d none n t)
      (fun _ t => At d none n t) s := by
    obtain ⟨_, working, fates, _⟩ := s
    obtain ⟨_, rfl, rfl, rfl⟩ := hs
    rintro _ rfl
    cases working with
    | none => exact ⟨hK, rfl, rfl, rfl⟩
    | some w => exact ⟨hK, rfl, rfl, rfl⟩
  exact leads_catch (leads_mono (fun _ => hQ) (fun _ _ h => h) hrollback) (fun _ t ht => hQ t ht)

end Statements

end WhatsappTester.Atomic.Transaction
