import Mathlib.Data.List.Infix

namespace WhatsappTester.Atomic.Tailing

/-- Someone who starts from what is known of a log, and shows what it picks of the entries that come
after. Those on their way come in order, if they come. -/
structure Reader (α β : Type) where
  base : List β
  shown : List β
  way : List α
  /-- The entries that had come, or were lost, at the start. -/
  reached : Nat
  /-- The entries since then, each with whether it came. -/
  past : List (α × Bool)

variable {α β : Type}

def came (past : List (α × Bool)) : List α := (past.filter (·.2)).map (·.1)

def start (base : List β) (log way : List α) : Reader α β :=
  ⟨base, base, way, log.length - way.length, []⟩

/-- What the reader shows is what it started from and what it has picked since. -/
structure Tails (pick : α → Option β) (log : List α) (r : Reader α β) : Prop where
  reached : r.reached ≤ log.length
  split : r.past.map (·.1) ++ r.way = log.drop r.reached
  shown : r.shown = r.base ++ (came r.past).filterMap pick

variable {pick : α → Option β} {log way : List α} {r : Reader α β}

theorem came_append (past past' : List (α × Bool)) :
    came (past ++ past') = came past ++ came past' := by
  rw [came, List.filter_append, List.map_append]
  rfl

theorem came_lost (lost : List α) : came (lost.map (·, false)) = [] := by
  rw [came, List.filter_eq_nil_iff.mpr (fun x hx => ?_), List.map_nil]
  obtain ⟨a, -, rfl⟩ := List.mem_map.mp hx
  exact Bool.false_ne_true

/-- If all that is picked has come, then what is lost does not matter. -/
theorem came_of_picked {past : List (α × Bool)}
    (h : ∀ x ∈ past, x.2 = false → pick x.1 = none) :
    (came past).filterMap pick = (past.map (·.1)).filterMap pick := by
  induction past with
  | nil => rfl
  | cons x past ih =>
    obtain ⟨hx, hpast⟩ := List.forall_mem_cons.mp h
    obtain ⟨a, heard⟩ := x
    cases heard with
    | true => rw [came, List.filter_cons_of_pos rfl, List.map_cons, List.map_cons,
        List.filterMap_cons, List.filterMap_cons, ← ih hpast, came]
    | false => rw [came, List.filter_cons_of_neg Bool.false_ne_true, List.map_cons,
        List.filterMap_cons_none (hx rfl), ← ih hpast, came]

theorem way_suffix (h : Tails pick log r) : r.way <:+ log :=
  (List.suffix_append _ r.way).trans (h.split ▸ List.drop_suffix _ _)

theorem tails_start (pick : α → Option β) (h : way <:+ log) (base : List β) :
    Tails pick log (start base log way) :=
  ⟨Nat.sub_le _ _, List.suffix_iff_eq_drop.mp h, (List.append_nil base).symm⟩

theorem tails_hear {e : α} {rest : List α} (h : Tails pick log r) (hway : r.way = e :: rest) :
    Tails pick log { r with
      shown := r.shown ++ (pick e).toList
      way := rest
      past := r.past ++ [(e, true)] } := by
  refine ⟨h.reached, ?_, ?_⟩
  · rw [← h.split, hway, List.map_append, List.append_assoc]
    rfl
  · have hlast : (came [(e, true)]).filterMap pick = (pick e).toList := by
      rw [came, List.filter_cons_of_pos rfl, List.map_cons, List.filterMap_cons]
      cases pick e <;> rfl
    rw [h.shown, came_append, List.filterMap_append, hlast, List.append_assoc]

theorem tails_lose {lost rest : List α} (h : Tails pick log r) (hway : r.way = lost ++ rest) :
    Tails pick log { r with way := rest, past := r.past ++ lost.map (·, false) } := by
  refine ⟨h.reached, ?_, ?_⟩
  · rw [← h.split, hway, List.map_append, List.map_map, List.append_assoc]
    congr 2
    exact List.map_id lost
  · rw [h.shown, came_append, came_lost, List.append_nil]

theorem tails_grow (h : Tails pick log r) (es : List α) :
    Tails pick (log ++ es) { r with way := r.way ++ es } := by
  refine ⟨?_, ?_, h.shown⟩
  · rw [List.length_append]
    exact Nat.le_add_right_of_le h.reached
  · rw [List.drop_append_of_le_length h.reached, ← h.split, List.append_assoc]

end WhatsappTester.Atomic.Tailing
