import WhatsappTester.Atomic.Replacement

namespace WhatsappTester.Atomic.Escape

open Replacement

variable {α : Type}

/-- Elements that are not to stand for themselves, each with its entity. A marker stands
at the start of every entity and nowhere else in it, and has itself an entity. -/
structure Code (α : Type) where
  marker : α
  entities : List (α × List α)
  closed : ∃ entity, (marker, entity) ∈ entities
  marked : ∀ e ∈ entities, ∃ name, e.2 = marker :: name ∧ marker ∉ name
  prefixFree : ∀ e ∈ entities, ∀ e' ∈ entities, e.2 <+: e'.2 → e = e'

/-- An element without an entity is not the marker. -/
theorem ne_marker {c : Code α} {a : α} (h : ∀ e ∈ c.entities, e.1 ≠ a) : a ≠ c.marker := by
  rintro rfl
  obtain ⟨entity, hentity⟩ := c.closed
  exact h _ hentity rfl

variable [DecidableEq α] (c : Code α)

def Code.escapeOne (a : α) : List α :=
  match c.entities.find? (fun e => decide (e.1 = a)) with
  | some e => e.2
  | none => [a]

def Code.escape (l : List α) : List α := l.flatMap c.escapeOne

def Code.entityAt (l : List α) : Option (α × Nat) :=
  (c.entities.find? (fun e => e.2.isPrefixOf l)).map (fun e => (e.1, e.2.length - 1))

def Code.unescape (l : List α) : List α := replace c.entityAt (fun a => [a]) l

variable {c}

theorem escapeOne_cases (a : α) :
    (a, c.escapeOne a) ∈ c.entities ∨
      (∀ e ∈ c.entities, e.1 ≠ a) ∧ c.escapeOne a = [a] := by
  unfold Code.escapeOne
  cases hfind : c.entities.find? (fun e => decide (e.1 = a)) with
  | none =>
    right
    refine ⟨fun e he heq => ?_, rfl⟩
    have := List.find?_eq_none.mp hfind e he
    simp [heq] at this
  | some e =>
    left
    have hname : e.1 = a := by simpa using List.find?_some hfind
    exact hname ▸ List.mem_of_find?_eq_some hfind

theorem entityAt_of_mem {a : α} {entity : List α} (h : (a, entity) ∈ c.entities) (rest : List α) :
    c.entityAt (entity ++ rest) = some (a, entity.length - 1) := by
  have hfind : c.entities.find? (fun e => e.2.isPrefixOf (entity ++ rest)) = some (a, entity) := by
    cases hsome : c.entities.find? (fun e => e.2.isPrefixOf (entity ++ rest)) with
    | none =>
      have := List.find?_eq_none.mp hsome _ h
      simp at this
    | some e =>
      have he := List.mem_of_find?_eq_some hsome
      have hprefix : e.2 <+: entity ++ rest := by simpa using List.find?_some hsome
      obtain hle | hle := List.prefix_or_prefix_of_prefix hprefix (List.prefix_append entity rest)
      · rw [c.prefixFree e he _ h hle]
      · rw [c.prefixFree _ h e he hle]
  rw [Code.entityAt, hfind]
  rfl

theorem entityAt_eq_none {a : α} (h : a ≠ c.marker) (rest : List α) :
    c.entityAt (a :: rest) = none := by
  have hfind : c.entities.find? (fun e => e.2.isPrefixOf (a :: rest)) = none := by
    refine List.find?_eq_none.mpr (fun e he => ?_)
    obtain ⟨name, heq, -⟩ := c.marked e he
    simp [heq, Ne.symm h]
  rw [Code.entityAt, hfind]
  rfl

theorem unescape_cons (a : α) (rest : List α) :
    c.unescape (c.escapeOne a ++ rest) = a :: c.unescape rest := by
  obtain hentity | ⟨hplain, hone⟩ := escapeOne_cases (c := c) a
  · obtain ⟨name, heq, -⟩ : ∃ name, c.escapeOne a = c.marker :: name ∧ c.marker ∉ name :=
      c.marked _ hentity
    have hat := entityAt_of_mem hentity rest
    simp only [heq, List.cons_append, List.length_cons, Nat.add_sub_cancel] at hat ⊢
    rw [Code.unescape, replace_cons_some hat, List.drop_left]
    rfl
  · rw [hone, List.singleton_append, Code.unescape,
      replace_cons_none (entityAt_eq_none (ne_marker hplain) rest)]
    rfl

theorem unescape_escape (l : List α) : c.unescape (c.escape l) = l := by
  induction l with
  | nil => rfl
  | cons a l ih =>
    rw [Code.escape, List.flatMap_cons, unescape_cons]
    exact congrArg (a :: ·) ih

/-- An escaped element is gone, unless it is needed for the entities. -/
theorem not_mem_escape {a : α} (hescaped : ∃ e ∈ c.entities, e.1 = a)
    (hentities : ∀ e ∈ c.entities, a ∉ e.2) (l : List α) : a ∉ c.escape l := by
  intro ha
  obtain ⟨x, -, hx⟩ := List.mem_flatMap.mp ha
  obtain hentity | ⟨hplain, hone⟩ := escapeOne_cases (c := c) x
  · exact hentities _ hentity hx
  · rw [hone, List.mem_singleton] at hx
    obtain ⟨e, he, heq⟩ := hescaped
    exact hplain e he (heq.trans hx)

/-- Every marker begins an entity. -/
theorem marker_begins {l before rest : List α} (h : c.escape l = before ++ c.marker :: rest) :
    ∃ e ∈ c.entities, e.2 <+: c.marker :: rest := by
  induction l generalizing before with
  | nil => simp [Code.escape] at h
  | cons a l ih =>
    rw [Code.escape, List.flatMap_cons, List.append_eq_append_iff] at h
    obtain ⟨between, -, hlater⟩ | ⟨within, hone, hrest⟩ := h
    · exact ih hlater
    · cases within with
      | nil => exact @ih [] hrest.symm
      | cons x within =>
        obtain ⟨rfl, rfl⟩ := List.cons.inj hrest
        obtain hentity | ⟨hplain, heq⟩ := escapeOne_cases (c := c) a
        · obtain ⟨name, hname, hunmarked⟩ : ∃ name, c.escapeOne a = c.marker :: name ∧
              c.marker ∉ name := c.marked _ hentity
          rw [hname] at hone
          cases before with
          | nil =>
            obtain ⟨-, rfl⟩ := List.cons.inj hone
            exact ⟨_, hentity, hname ▸ List.prefix_append _ _⟩
          | cons y before =>
            have hmem : c.marker ∈ name := by simp [(List.cons.inj hone).2]
            exact absurd hmem hunmarked
        · have hmem : c.marker ∈ [a] := by rw [← heq, hone]; simp
          exact absurd (List.mem_singleton.mp hmem).symm (ne_marker hplain)

end WhatsappTester.Atomic.Escape
