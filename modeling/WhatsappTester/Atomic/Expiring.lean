import WhatsappTester.Atomic.Table

namespace WhatsappTester.Atomic.Expiring

variable {ρ κ : Type} [DecidableEq κ] {key : ρ → κ} {expiry : ρ → Int} {now : Int}
  {rows rows' : List ρ}

def fresh (expiry : ρ → Int) (now : Int) (r : ρ) : Bool := decide (¬ expiry r < now)

def live (key : ρ → κ) (expiry : ρ → Int) (now : Int) (k : κ) (rows : List ρ) : Option ρ :=
  (Table.find key k rows).filter (fresh expiry now)

def sweep (expiry : ρ → Int) (now : Int) (rows : List ρ) : List ρ :=
  rows.filter (fresh expiry now)

theorem find_filter (hn : (rows.map key).Nodup) (p : ρ → Bool) (k : κ) :
    Table.find key k (rows.filter p) = (Table.find key k rows).filter p := by
  have hsub : (rows.filter p).Sublist rows := List.filter_sublist
  have hn' := hn.sublist (hsub.map key)
  cases hfind : Table.find key k rows with
  | none => exact Table.find_none.mpr (fun r hr => Table.find_none.mp hfind r (hsub.subset hr))
  | some r =>
    obtain ⟨hr, rfl⟩ := Table.find_mem hfind
    by_cases hp : p r
    · rw [Option.filter_some_pos hp]
      exact Table.find_eq_some hn' (List.mem_filter.mpr ⟨hr, hp⟩)
    · rw [Option.filter_some_neg (Bool.eq_false_iff.mpr hp)]
      apply Table.find_none.mpr
      intro r' hr' hkey
      obtain ⟨hmem, hp'⟩ := List.mem_filter.mp hr'
      exact hp (Table.eq_of_key hn hmem hr hkey ▸ hp')

/-- Two tables that differ only in rows that have expired. -/
structure Alike (key : ρ → κ) (expiry : ρ → Int) (now : Int) (rows rows' : List ρ) : Prop where
  left : (rows.map key).Nodup
  right : (rows'.map key).Nodup
  live : ∀ k, live key expiry now k rows = live key expiry now k rows'

theorem alike_symm (h : Alike key expiry now rows rows') : Alike key expiry now rows' rows :=
  ⟨h.right, h.left, fun k => (h.live k).symm⟩

/-- What has expired does not come back. -/
theorem alike_later {now' : Int} (h : Alike key expiry now rows rows') (hle : now ≤ now') :
    Alike key expiry now' rows rows' := by
  have hlater : ∀ k rows, Expiring.live key expiry now' k rows =
      (Expiring.live key expiry now k rows).filter (fresh expiry now') := by
    intro k rows
    rw [Expiring.live, Expiring.live, Option.filter_filter]
    congr 1
    funext r
    simp only [fresh, Int.not_lt]
    by_cases hr : now' ≤ expiry r
    · simp [hr, Int.le_trans hle hr]
    · simp [hr]
  refine ⟨h.left, h.right, fun k => ?_⟩
  rw [hlater, hlater, h.live]

theorem alike_sweep (h : Alike key expiry now rows rows') :
    Alike key expiry now (sweep expiry now rows) rows' := by
  refine ⟨h.left.sublist (List.filter_sublist.map key), h.right, fun k => ?_⟩
  rw [← h.live, Expiring.live, Expiring.live, sweep, find_filter h.left, Option.filter_filter]
  simp

/-- The same write on both. -/
theorem alike_write {new new' : List ρ} {k : κ} {x : Option ρ}
    (h : Alike key expiry now rows rows') (hn : (new.map key).Nodup) (hn' : (new'.map key).Nodup)
    (hnew : ∀ j, Table.find key j new = if j = k then x else Table.find key j rows)
    (hnew' : ∀ j, Table.find key j new' = if j = k then x else Table.find key j rows') :
    Alike key expiry now new new' := by
  refine ⟨hn, hn', fun j => ?_⟩
  have hlive := h.live j
  simp only [Expiring.live, hnew, hnew'] at hlive ⊢
  by_cases hj : j = k
  · rw [if_pos hj, if_pos hj]
  · rw [if_neg hj, if_neg hj, hlive]

end WhatsappTester.Atomic.Expiring
