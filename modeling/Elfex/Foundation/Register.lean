import Mathlib.Data.List.Basic

/-!
# Registers in a run of commands

A run of commands is a left fold over the state they act on. A register of the state that
each command overwrites or leaves alone holds the last value given, and a register that
each command extends holds all that was added, in order.
-/

namespace Foundation

variable {σ α β : Type*}

/-- The last value the commands give, or the initial one. -/
def latest (initial : β) (given : α → Option β) (commands : List α) : β :=
  (commands.filterMap given).getLast?.getD initial

@[simp] theorem latest_nil (initial : β) (given : α → Option β) :
    latest initial given [] = initial := rfl

theorem latest_cons (initial : β) (given : α → Option β) (command : α) (commands : List α) :
    latest initial given (command :: commands) =
      latest ((given command).getD initial) given commands := by
  rw [latest, latest, List.filterMap_cons]
  cases given command with
  | none => rfl
  | some value =>
      dsimp only
      rw [List.getLast?_cons, Option.getD_some, Option.getD_some]

/-- A register that the commands overwrite holds the last value given. -/
theorem foldl_latest {step : σ → α → σ} {register : σ → β} {given : α → Option β}
    (h : ∀ s command, register (step s command) = (given command).getD (register s))
    (commands : List α) (s : σ) :
    register (commands.foldl step s) = latest (register s) given commands := by
  induction commands generalizing s with
  | nil => rfl
  | cons command commands ih => rw [List.foldl_cons, ih, h, latest_cons]

/-- A register that the commands extend holds everything added. -/
theorem foldl_collected {step : σ → α → σ} {register : σ → List β} {added : α → List β}
    (h : ∀ s command, register (step s command) = register s ++ added command)
    (commands : List α) (s : σ) :
    register (commands.foldl step s) = register s ++ commands.flatMap added := by
  induction commands generalizing s with
  | nil => exact (List.append_nil _).symm
  | cons command commands ih =>
      rw [List.foldl_cons, ih, h, List.flatMap_cons, List.append_assoc]

/-- The last of some lists is all of them exactly when the ones before it are empty. -/
theorem getLast?_getD_eq_flatten_iff (parts : List (List β)) :
    parts.getLast?.getD [] = parts.flatten ↔ ∀ part ∈ parts.dropLast, part = [] := by
  rcases List.eq_nil_or_concat parts with rfl | ⟨before, last, rfl⟩
  · exact iff_of_true rfl (by simp)
  · rw [List.concat_eq_append, List.getLast?_concat, Option.getD_some, List.flatten_concat,
      List.dropLast_concat, ← List.flatten_eq_nil_iff]
    exact ⟨fun h => by simpa using h, fun h => by rw [h, List.nil_append]⟩

end Foundation
