import Mathlib.Data.List.Count
import Mathlib.Data.List.Nodup

namespace WhatsappTester.Atomic.Table

variable {ρ κ : Type}

/-- `UPDATE … SET f WHERE p` on a table kept as its list of rows. -/
def update (p : ρ → Bool) (f : ρ → ρ) (rows : List ρ) : List ρ :=
  rows.map (fun r => if p r then f r else r)

def changes (p : ρ → Bool) (rows : List ρ) : Nat := rows.countP p

/-- A row with the least value of `f`, the earliest inserted one among equals:
`ORDER BY f ASC, rowid ASC LIMIT 1`. -/
def earliest (f : ρ → Int) : List ρ → Option ρ
  | [] => none
  | r :: rs =>
    match earliest f rs with
    | none => some r
    | some m => if f m < f r then some m else some r

theorem mem_update {p : ρ → Bool} {f : ρ → ρ} {rows : List ρ} {r : ρ} :
    r ∈ update p f rows ↔ ∃ a ∈ rows, (if p a then f a else a) = r := by
  simp [update]

theorem forall_update {p : ρ → Bool} {f : ρ → ρ} {rows : List ρ} {P : ρ → Prop} :
    (∀ r ∈ update p f rows, P r) ↔ ∀ r ∈ rows, P (if p r then f r else r) := by
  simp [update]

theorem update_eq_self {p : ρ → Bool} {f : ρ → ρ} {rows : List ρ} (h : ∀ r ∈ rows, ¬ p r) :
    update p f rows = rows := by
  rw [update]
  conv_rhs => rw [← List.map_id rows]
  exact List.map_congr_left (fun r hr => by simp [h r hr])

theorem map_update_mem {β : Type} {p : ρ → Bool} {f : ρ → ρ} {g : ρ → β} {rows : List ρ}
    (h : ∀ r ∈ rows, p r → g (f r) = g r) : (update p f rows).map g = rows.map g := by
  rw [update, List.map_map]
  apply List.map_congr_left
  intro r hmem
  by_cases hr : p r
  · simp [hr, h r hmem hr]
  · simp [hr]

theorem map_update {β : Type} {p : ρ → Bool} {f : ρ → ρ} {g : ρ → β}
    (h : ∀ r, p r → g (f r) = g r) (rows : List ρ) : (update p f rows).map g = rows.map g :=
  map_update_mem (fun r _ hr => h r hr)

/-- An update of rows outside a selection leaves the selection alone. -/
theorem filter_update {p q : ρ → Bool} {f : ρ → ρ} {rows : List ρ}
    (h : ∀ r ∈ rows, p r → q r = false ∧ q (f r) = false) :
    (update p f rows).filter q = rows.filter q := by
  induction rows with
  | nil => rfl
  | cons r rows ih =>
    have hrest := ih (fun a ha => h a (List.mem_cons_of_mem r ha))
    rw [update] at hrest
    rw [update, List.map_cons, List.filter_cons, List.filter_cons, hrest]
    by_cases hp : p r
    · obtain ⟨hbefore, hafter⟩ := h r List.mem_cons_self hp
      simp [hp, hbefore, hafter]
    · simp [hp]

/-- An update that leaves the rows in their selections can be made in the selection. -/
theorem filter_update_comm {p q : ρ → Bool} {f : ρ → ρ} (h : ∀ r, p r → q (f r) = q r)
    (rows : List ρ) :
    (update p f rows).filter q = update p f (rows.filter q) := by
  rw [update, update, List.filter_map]
  congr 1
  refine List.filter_congr (fun r _ => ?_)
  by_cases hr : p r
  · simp [hr, h r hr]
  · simp [hr]

def find [DecidableEq κ] (key : ρ → κ) (k : κ) (rows : List ρ) : Option ρ :=
  rows.find? (fun r => decide (key r = k))

variable [DecidableEq κ] {key : ρ → κ}

theorem find_mem {k : κ} {rows : List ρ} {r : ρ} (h : find key k rows = some r) :
    r ∈ rows ∧ key r = k := by
  refine ⟨List.mem_of_find?_eq_some h, ?_⟩
  simpa using List.find?_some h

theorem find_none {k : κ} {rows : List ρ} : find key k rows = none ↔ ∀ r ∈ rows, key r ≠ k := by
  simp [find]

theorem find_cons_of_ne {k : κ} {rows : List ρ} {a : ρ} (h : key a ≠ k) :
    find key k (a :: rows) = find key k rows := List.find?_cons_of_neg (by simpa using h)

theorem find_eq_some {rows : List ρ} (hn : (rows.map key).Nodup) {r : ρ} (hr : r ∈ rows) :
    find key (key r) rows = some r := by
  induction rows with
  | nil => simp at hr
  | cons a rows ih =>
    rw [List.map_cons, List.nodup_cons] at hn
    rcases List.mem_cons.mp hr with rfl | hr
    · simp [find]
    · have hne : key a ≠ key r := fun h => hn.1 (h ▸ List.mem_map_of_mem hr)
      rw [find_cons_of_ne hne]
      exact ih hn.2 hr

theorem find_update {p : ρ → Bool} {f : ρ → ρ} (hf : ∀ r, p r → key (f r) = key r) (k : κ)
    (rows : List ρ) :
    find key k (update p f rows) = (find key k rows).map (fun r => if p r then f r else r) := by
  have hkey : ∀ r, key (if p r then f r else r) = key r := by
    intro r
    by_cases h : p r
    · rw [if_pos h, hf r h]
    · rw [if_neg h]
  induction rows with
  | nil => rfl
  | cons a rows ih =>
    by_cases h : key a = k
    · simp [find, update, hkey, h]
    · rw [update, List.map_cons, find_cons_of_ne (by rwa [hkey]), find_cons_of_ne h]
      exact ih

theorem find_append {k : κ} {rows new : List ρ} :
    find key k (rows ++ new) = (find key k rows).or (find key k new) := List.find?_append

theorem eq_of_key {rows : List ρ} (hn : (rows.map key).Nodup) {r r' : ρ} (hr : r ∈ rows)
    (hr' : r' ∈ rows) (h : key r = key r') : r = r' := by
  have := find_eq_some hn hr
  rw [h, find_eq_some hn hr'] at this
  exact (Option.some.inj this).symm

/-- An update of one row moves a count by what the row itself counts before and after. -/
theorem countP_update_one {rows : List ρ} (hn : (rows.map key).Nodup) {r : ρ} (hr : r ∈ rows)
    {f : ρ → ρ} (q : ρ → Bool) :
    (update (fun a => decide (key a = key r)) f rows).countP q + (if q r then 1 else 0) =
      rows.countP q + (if q (f r) then 1 else 0) := by
  induction rows with
  | nil => simp at hr
  | cons a rows ih =>
    rw [List.map_cons, List.nodup_cons] at hn
    rcases List.mem_cons.mp hr with rfl | hr
    · have hrest : update (fun b => decide (key b = key r)) f rows = rows :=
        update_eq_self (fun b hb => by
          simpa using fun h : key b = key r => hn.1 (h ▸ List.mem_map_of_mem hb))
      rw [update] at hrest
      simp only [update, List.map_cons, List.countP_cons, decide_true, ↓reduceIte, hrest]
      omega
    · have hne : key a ≠ key r := fun h => hn.1 (h ▸ List.mem_map_of_mem hr)
      have := ih hn.2 hr
      simp only [update, List.map_cons, List.countP_cons] at this ⊢
      simp only [hne, decide_false, Bool.false_eq_true, ↓reduceIte]
      omega

omit [DecidableEq κ] in
theorem changes_one {rows : List ρ} (hn : (rows.map key).Nodup) {r : ρ} (hr : r ∈ rows)
    {p : ρ → Bool} (hp : p r) (hkey : ∀ a, p a → key a = key r) : changes p rows = 1 := by
  induction rows with
  | nil => simp at hr
  | cons a rows ih =>
    rw [List.map_cons, List.nodup_cons] at hn
    rw [changes, List.countP_cons]
    cases hr with
    | head =>
      have hrest : rows.countP p = 0 := by
        rw [List.countP_eq_zero]
        intro b hb hpb
        exact hn.1 (hkey b hpb ▸ List.mem_map_of_mem hb)
      simp [hrest, hp]
    | tail _ hr =>
      have hne : ¬ p a := fun hpa => hn.1 (hkey a hpa ▸ List.mem_map_of_mem hr)
      simpa [hne, changes] using ih hn.2 hr

theorem earliest_mem {f : ρ → Int} {rows : List ρ} {r : ρ} (h : earliest f rows = some r) :
    r ∈ rows := by
  induction rows generalizing r with
  | nil => simp [earliest] at h
  | cons a rows ih =>
    cases hm : earliest f rows with
    | none => simp_all [earliest]
    | some m =>
      simp only [earliest, hm] at h
      split at h
      · cases h
        exact List.mem_cons_of_mem a (ih hm)
      · cases h
        exact List.mem_cons_self

theorem earliest_none {f : ρ → Int} {rows : List ρ} : earliest f rows = none ↔ rows = [] := by
  cases rows with
  | nil => simp [earliest]
  | cons a rows =>
    simp only [earliest, reduceCtorEq, iff_false]
    split
    · simp
    · split <;> simp

/-- The earliest of the selected rows comes before all others with its value. -/
theorem earliest_filter {f : ρ → Int} {p : ρ → Bool} {rows : List ρ} {r : ρ}
    (h : earliest f (rows.filter p) = some r) :
    ∃ pre post, rows = pre ++ r :: post ∧ (∀ a ∈ pre, p a → f r < f a) ∧
      ∀ a ∈ post, p a → f r ≤ f a := by
  induction rows generalizing r with
  | nil => cases h
  | cons a rows ih =>
    by_cases ha : p a
    case neg =>
      rw [List.filter_cons_of_neg ha] at h
      obtain ⟨pre, post, rfl, hpre, hpost⟩ := ih h
      exact ⟨a :: pre, post, rfl, List.forall_mem_cons.mpr ⟨fun hp => absurd hp ha, hpre⟩, hpost⟩
    case pos =>
      rw [List.filter_cons_of_pos ha, earliest] at h
      cases hm : earliest f (rows.filter p) with
      | none =>
        rw [hm] at h
        cases h
        refine ⟨[], rows, rfl, fun _ hb => absurd hb List.not_mem_nil, fun b hb hp => ?_⟩
        have hmem : b ∈ rows.filter p := List.mem_filter.mpr ⟨hb, hp⟩
        rw [earliest_none.mp hm] at hmem
        cases hmem
      | some m =>
        rw [hm] at h
        obtain ⟨pre, post, rfl, hpre, hpost⟩ := ih hm
        simp only at h
        split at h
        case isTrue hlt =>
          cases h
          exact ⟨a :: pre, post, rfl, List.forall_mem_cons.mpr ⟨fun _ => hlt, hpre⟩, hpost⟩
        case isFalse hle =>
          cases h
          have hle : f a ≤ f m := Int.not_lt.mp hle
          refine ⟨[], _, rfl, fun _ hb => absurd hb List.not_mem_nil, fun b hb hp => ?_⟩
          obtain hb | hb := List.mem_append.mp hb
          · exact Int.le_trans hle (Int.le_of_lt (hpre b hb hp))
          · obtain rfl | hb := List.mem_cons.mp hb
            · exact hle
            · exact Int.le_trans hle (hpost b hb hp)

end WhatsappTester.Atomic.Table
