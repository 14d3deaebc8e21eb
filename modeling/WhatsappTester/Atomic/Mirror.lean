import Mathlib.Logic.Function.Basic
import WhatsappTester.Atomic.Table

namespace WhatsappTester.Atomic.Mirror

variable {κ ν : Type} [DecidableEq κ]

/-- What is now under a key; `none` if nothing is. -/
structure Change (κ ν : Type) where
  key : κ
  value : Option ν

def apply (m : κ → Option ν) (c : Change κ ν) : κ → Option ν := Function.update m c.key c.value

def replay (m : κ → Option ν) (cs : List (Change κ ν)) : κ → Option ν := cs.foldl apply m

variable {m m' : κ → Option ν} {cs ds : List (Change κ ν)} {k : κ}

@[simp] theorem replay_nil (m : κ → Option ν) : replay m [] = m := rfl

@[simp] theorem replay_cons (m : κ → Option ν) (c : Change κ ν) (cs : List (Change κ ν)) :
    replay m (c :: cs) = replay (apply m c) cs := rfl

theorem replay_append (m : κ → Option ν) (cs ds : List (Change κ ν)) :
    replay m (cs ++ ds) = replay (replay m cs) ds := List.foldl_append

theorem apply_eq (m : κ → Option ν) (c : Change κ ν) (k : κ) :
    apply m c k = if k = c.key then c.value else m k :=
  Function.update_apply ..

theorem apply_self (m : κ → Option ν) (c : Change κ ν) : apply m c c.key = c.value :=
  Function.update_self ..

theorem apply_other {c : Change κ ν} (h : k ≠ c.key) : apply m c k = m k :=
  Function.update_of_ne h ..

/-- What the changes do not touch stays. -/
theorem replay_untouched (h : ∀ c ∈ cs, c.key ≠ k) : replay m cs k = m k := by
  induction cs generalizing m with
  | nil => rfl
  | cons c cs ih =>
    obtain ⟨hc, hcs⟩ := List.forall_mem_cons.mp h
    rw [replay_cons, ih hcs, apply_other hc.symm]

/-- What they do touch is the same afterwards, wherever they started. -/
theorem replay_touched (h : m k = m' k ∨ ∃ c ∈ cs, c.key = k) :
    replay m cs k = replay m' cs k := by
  induction cs generalizing m m' with
  | nil =>
    obtain h | ⟨c, hc, _⟩ := h
    · exact h
    · cases hc
  | cons c cs ih =>
    rw [replay_cons, replay_cons]
    by_cases hk : k = c.key
    · subst hk
      exact ih (.inl (by rw [apply_self, apply_self]))
    · refine ih ?_
      rw [apply_other hk, apply_other hk]
      refine h.imp id (fun ⟨d, hd, hdk⟩ => ⟨d, ?_, hdk⟩)
      obtain rfl | hd := List.mem_cons.mp hd
      · exact absurd hdk.symm hk
      · exact hd

/-- The last changes can be made once more. -/
theorem replay_again (m : κ → Option ν) (cs ds : List (Change κ ν)) :
    replay (replay m (cs ++ ds)) ds = replay m (cs ++ ds) := by
  funext k
  rw [replay_append]
  by_cases h : ∃ d ∈ ds, d.key = k
  · exact replay_touched (.inr h)
  · exact replay_untouched (fun d hd hk => h ⟨d, hd, hk⟩)

section Rows

variable {ρ : Type} {key : ρ → κ}

def put (key : ρ → κ) (r : ρ) : List ρ → List ρ
  | [] => [r]
  | a :: rows => if key a = key r then r :: rows else a :: put key r rows

theorem find_put (r : ρ) (k : κ) (rows : List ρ) :
    Table.find key k (put key r rows) = if k = key r then some r else Table.find key k rows := by
  induction rows with
  | nil =>
    by_cases h : k = key r
    · simp [put, Table.find, h]
    · simp [put, Table.find, h, Ne.symm h]
  | cons a rows ih =>
    rw [put]
    by_cases ha : key a = key r
    · by_cases h : k = key r
      · simp [ha, Table.find, h]
      · have hne : key r ≠ k := Ne.symm h
        rw [if_pos ha, if_neg h, Table.find_cons_of_ne hne, Table.find_cons_of_ne (ha ▸ hne)]
    · rw [if_neg ha]
      by_cases h : key a = k
      · have hne : k ≠ key r := fun hk => ha (h.trans hk)
        simp [Table.find, h, hne]
      · rw [Table.find_cons_of_ne h, Table.find_cons_of_ne h, ih]

theorem mem_put {r a : ρ} {rows : List ρ} (h : a ∈ put key r rows) : a = r ∨ a ∈ rows := by
  induction rows with
  | nil => exact .inl (List.mem_singleton.mp h)
  | cons b rows ih =>
    rw [put] at h
    split at h
    · exact (List.mem_cons.mp h).imp id (List.mem_cons_of_mem b)
    · obtain rfl | h := List.mem_cons.mp h
      · exact .inr List.mem_cons_self
      · exact (ih h).imp id (List.mem_cons_of_mem b)

theorem nodup_put {r : ρ} {rows : List ρ} (h : (rows.map key).Nodup) :
    ((put key r rows).map key).Nodup := by
  induction rows with
  | nil => exact List.nodup_singleton _
  | cons a rows ih =>
    rw [List.map_cons, List.nodup_cons] at h
    rw [put]
    split
    case isTrue hkey =>
      rw [List.map_cons, List.nodup_cons, ← hkey]
      exact h
    case isFalse hkey =>
      rw [List.map_cons, List.nodup_cons]
      refine ⟨fun hmem => ?_, ih h.2⟩
      obtain ⟨b, hb, hba⟩ := List.mem_map.mp hmem
      obtain rfl | hb := mem_put hb
      · exact hkey hba.symm
      · exact h.1 (List.mem_map.mpr ⟨b, hb, hba⟩)

theorem find_filter_ne (k k' : κ) (rows : List ρ) :
    Table.find key k (rows.filter (fun r => decide (key r ≠ k'))) =
      if k = k' then none else Table.find key k rows := by
  induction rows with
  | nil => simp [Table.find]
  | cons a rows ih =>
    rw [List.filter_cons]
    by_cases ha : key a = k'
    · simp only [ha, ne_eq, not_true_eq_false, decide_false, Bool.false_eq_true, ↓reduceIte, ih]
      by_cases h : k = k'
      · simp [h]
      · rw [if_neg h, if_neg h, Table.find_cons_of_ne (fun hk => h (hk.symm.trans ha))]
    · simp only [ne_eq, ha, not_false_eq_true, decide_true, ↓reduceIte]
      by_cases h : key a = k
      · have hne : k ≠ k' := fun hk => ha (h.trans hk)
        simp [Table.find, h, hne]
      · rw [Table.find_cons_of_ne h, Table.find_cons_of_ne h, ih]

theorem find_perm {rows rows' : List ρ}
    (h : rows.Perm rows') (hn : (rows.map key).Nodup) (k : κ) :
    Table.find key k rows = Table.find key k rows' := by
  have hn' := (h.map key).nodup_iff.mp hn
  cases hfind : Table.find key k rows with
  | none =>
    exact (Table.find_none.mpr (fun r hr => Table.find_none.mp hfind r (h.mem_iff.mpr hr))).symm
  | some r =>
    obtain ⟨hr, rfl⟩ := Table.find_mem hfind
    exact (Table.find_eq_some hn' (h.mem_iff.mp hr)).symm

end Rows

end WhatsappTester.Atomic.Mirror
