import Mathlib.Data.List.Induction
import Mathlib.Logic.Function.Basic

/-!
# Maps by their writes

A map from keys to values, and a list of writes to it.

* `writes` is the map in which the last write of a key wins.
* `toggles` is a map that forgets a key when it is written again: a write of a
  key that is there removes it.

`toggles_eq_writes_iff` says when the two hold the same value.  The number of
writes of the key decides, the value that it had at the start counted as one.
-/

namespace LastWrite

variable {κ β : Type*} [DecidableEq κ]

/-- Write the pairs in turn. -/
def writes (m : κ → Option β) (ps : List (κ × β)) : κ → Option β :=
  ps.foldl (fun m p => Function.update m p.1 (some p.2)) m

/-- Write a value, or remove the one that is there. -/
def toggle (m : κ → Option β) (k : κ) (v : β) : κ → Option β :=
  Function.update m k (if (m k).isSome then none else some v)

/-- Toggle the pairs in turn. -/
def toggles (m : κ → Option β) (ps : List (κ × β)) : κ → Option β :=
  ps.foldl (fun m p => toggle m p.1 p.2) m

/-- How often a key was written, its value at the start included. -/
def count (m : κ → Option β) (ps : List (κ × β)) (k : κ) : Nat :=
  ps.countP (fun p => p.1 = k) + if (m k).isSome then 1 else 0

@[simp] theorem toggle_of_ne (m : κ → Option β) {k k' : κ} (h : k' ≠ k)
    (v : β) : toggle m k v k' = m k' :=
  Function.update_of_ne h _ _

@[simp] theorem toggle_self (m : κ → Option β) (k : κ) (v : β) :
    toggle m k v k = if (m k).isSome then none else some v :=
  Function.update_self ..

theorem writes_concat (m : κ → Option β) (ps : List (κ × β)) (p : κ × β) :
    writes m (ps ++ [p]) = Function.update (writes m ps) p.1 (some p.2) := by
  simp [writes]

theorem toggles_concat (m : κ → Option β) (ps : List (κ × β)) (p : κ × β) :
    toggles m (ps ++ [p]) = toggle (toggles m ps) p.1 p.2 := by
  simp [toggles]

theorem count_concat_self (m : κ → Option β) (ps : List (κ × β)) (p : κ × β) :
    count m (ps ++ [p]) p.1 = count m ps p.1 + 1 := by
  unfold count
  rw [List.countP_append, List.countP_singleton, if_pos (by simp)]
  omega

theorem count_concat_of_ne (m : κ → Option β) (ps : List (κ × β)) {p : κ × β}
    {k : κ} (h : p.1 ≠ k) : count m (ps ++ [p]) k = count m ps k := by
  unfold count
  rw [List.countP_append, List.countP_singleton, if_neg (by simpa using h),
    Nat.add_zero]

/-- A key that was written is in the map. -/
theorem isSome_writes (m : κ → Option β) (ps : List (κ × β)) (k : κ) :
    (writes m ps k).isSome = true ↔ count m ps k ≠ 0 := by
  induction ps using List.reverseRecOn with
  | nil =>
    show (m k).isSome = true ↔ count m [] k ≠ 0
    unfold count
    cases m k <;> simp
  | append_singleton ps p ih =>
    rw [writes_concat]
    by_cases hk : p.1 = k
    · subst hk
      rw [Function.update_self, count_concat_self]
      simp
    · rw [Function.update_of_ne (Ne.symm hk), count_concat_of_ne m ps hk]
      exact ih

/-- After an odd number of writes a key is there, with the value of the last
one. -/
theorem toggles_eq (m : κ → Option β) (ps : List (κ × β)) (k : κ) :
    toggles m ps k = if count m ps k % 2 = 1 then writes m ps k else none := by
  induction ps using List.reverseRecOn with
  | nil =>
    show m k = if count m [] k % 2 = 1 then m k else none
    unfold count
    cases m k <;> simp
  | append_singleton ps p ih =>
    rw [toggles_concat, writes_concat]
    by_cases hk : p.1 = k
    · subst hk
      have hsome := isSome_writes m ps p.1
      rw [toggle_self, Function.update_self, count_concat_self, ih]
      by_cases hodd : count m ps p.1 % 2 = 1
      · have heven : ¬ (count m ps p.1 + 1) % 2 = 1 := by omega
        rw [if_pos hodd, if_pos (hsome.2 (by omega)), if_neg heven]
      · have hnext : (count m ps p.1 + 1) % 2 = 1 := by omega
        rw [if_neg hodd, if_neg (by simp), if_pos hnext]
    · rw [toggle_of_ne _ (Ne.symm hk), count_concat_of_ne m ps hk,
        Function.update_of_ne (Ne.symm hk)]
      exact ih

theorem toggles_eq_writes_iff (m : κ → Option β) (ps : List (κ × β)) (k : κ) :
    toggles m ps k = writes m ps k
      ↔ count m ps k = 0 ∨ count m ps k % 2 = 1 := by
  have hsome := isSome_writes m ps k
  rw [toggles_eq]
  by_cases hodd : count m ps k % 2 = 1
  · simp [hodd]
  · rw [if_neg hodd, eq_comm, ← Option.not_isSome_iff_eq_none, hsome]
    omega

end LastWrite
