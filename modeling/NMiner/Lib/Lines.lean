import Mathlib

/-! Lines ended by a separator, and how a list of them is split. -/

namespace Lines

variable {α : Type*} {a : α}

/-- The lines one after another, each with the separator at its end. -/
def ended (a : α) (ls : List (List α)) : List α := ls.flatMap (· ++ [a])

theorem ended_concat (ls : List (List α)) (l : List α) :
    ended a (ls ++ [l]) = ended a ls ++ (l ++ [a]) := by
  rw [ended, List.flatMap_append, List.flatMap_singleton, ended]

variable [DecidableEq α]

theorem splitOn_ended {ls : List (List α)} (h : ∀ l ∈ ls, a ∉ l) (rest : List α) :
    (ended a ls ++ rest).splitOn a = ls ++ rest.splitOn a := by
  induction ls with
  | nil => rfl
  | cons l ls ih =>
    have hl : a ∉ l := h l List.mem_cons_self
    have hsplit : ended a (l :: ls) ++ rest = l ++ a :: (ended a ls ++ rest) := by
      simp only [ended, List.flatMap_cons, List.append_assoc, List.cons_append, List.nil_append]
    rw [hsplit, List.splitOn_append_cons_self_of_not_mem hl,
      ih fun l' hl' => h l' (List.mem_cons_of_mem _ hl'), List.cons_append]

/-- What comes before the first separator starts the first piece. -/
theorem splitOn_prefix {p : List α} (hp : a ∉ p) (rest : List α) :
    ∃ q ls, (p ++ rest).splitOn a = (p ++ q) :: ls := by
  induction p with
  | nil =>
    obtain ⟨q, ls, h⟩ := List.exists_cons_of_ne_nil (List.splitOn_ne_nil a rest)
    exact ⟨q, ls, h⟩
  | cons x p ih =>
    obtain ⟨q, ls, h⟩ := ih fun hmem => hp (List.mem_cons_of_mem _ hmem)
    have hx : (x == a) = false := by
      rw [beq_eq_false_iff_ne]
      rintro rfl
      exact hp List.mem_cons_self
    refine ⟨q, ls, ?_⟩
    rw [List.cons_append, List.splitOn_cons_eq_if_modifyHead, hx, h]
    rfl

end Lines
