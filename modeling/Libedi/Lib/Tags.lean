import Mathlib.Data.List.Basic

/-!
# Nested tags

Sequences of opening and closing tags, run on a stack of names, innermost first.
A sequence is nested if the stack is empty before and behind it.  Nested
sequences do not touch the stack that is there, so they can be put together and
be put between two tags.

A document has one element around all others.  `rootRun` takes account of that,
and `rootRun_eq_iff` says what it accepts.
-/

namespace Tags

variable {α β : Type*}

/-- An opening or a closing tag. -/
inductive Tag (α : Type*) where
  | opening (name : α)
  | closing (name : α)
  deriving DecidableEq, Repr

/-- The same tag with another name. -/
def Tag.map (f : α → β) : Tag α → Tag β
  | opening a => opening (f a)
  | closing a => closing (f a)

/-- The open names behind a sequence of tags, `none` if a closing tag does not
carry the innermost one. -/
def run [DecidableEq α] (stack : List α) : List (Tag α) → Option (List α)
  | [] => some stack
  | .opening a :: ts => run (a :: stack) ts
  | .closing a :: ts =>
    match stack with
    | [] => none
    | b :: stack => if b = a then run stack ts else none

/-- Each closing tag carries the name of the tag that it closes, and all are
closed. -/
def Nested [DecidableEq α] (ts : List (Tag α)) : Prop := run [] ts = some []

instance [DecidableEq α] (ts : List (Tag α)) : Decidable (Nested ts) :=
  inferInstanceAs (Decidable (_ = _))

section Run

variable [DecidableEq α]

theorem run_append (stack : List α) (ss ts : List (Tag α)) :
    run stack (ss ++ ts) = (run stack ss).bind (run · ts) := by
  fun_induction run stack ss with
  | case1 stack => rfl
  | case2 stack a ss ih => exact ih
  | case3 a ss => rfl
  | case4 b ss stack ih => simpa [run] using ih
  | case5 a ss b stack hne => simp [run, hne]

/-- What is below on the stack does not matter for a run that succeeds. -/
theorem run_append_stack {stack rest : List α} {ts : List (Tag α)}
    (h : run stack ts = some rest) (below : List α) :
    run (stack ++ below) ts = some (rest ++ below) := by
  fun_induction run stack ts with
  | case1 stack =>
    obtain rfl := Option.some.inj h
    rfl
  | case2 stack a ts ih => exact ih h
  | case3 a ts => simp at h
  | case4 b ts stack ih => simpa [run] using ih h
  | case5 a ts b stack hne => simp at h

theorem nested_nil : Nested ([] : List (Tag α)) := rfl

/-- A nested sequence leaves the stack as it is. -/
theorem Nested.run_eq {ts : List (Tag α)} (h : Nested ts) (stack : List α) :
    run stack ts = some stack :=
  run_append_stack h stack

theorem Nested.append {ss ts : List (Tag α)} (hs : Nested ss)
    (ht : Nested ts) : Nested (ss ++ ts) := by
  rw [Nested, run_append, hs, Option.bind_some]
  exact ht

theorem Nested.wrap {ts : List (Tag α)} (h : Nested ts) (a : α) :
    Nested (.opening a :: (ts ++ [.closing a])) := by
  rw [Nested, run, run_append, h.run_eq]
  simp [run]

/-- The same tags with nested sequences put in between. -/
theorem run_flatMap_congr {ι : Type*} {f g : ι → List (Tag α)} {l : List ι}
    (h : ∀ i ∈ l, ∀ stack, run stack (f i) = run stack (g i))
    (stack : List α) : run stack (l.flatMap f) = run stack (l.flatMap g) := by
  induction l generalizing stack with
  | nil => rfl
  | cons i l ih =>
    rw [List.forall_mem_cons] at h
    rw [List.flatMap_cons, List.flatMap_cons, run_append, run_append, h.1 stack]
    exact congrArg _ (funext (ih h.2))

end Run

/-! ## One root -/

section Root

variable [DecidableEq α]

/-- The sequence is one element. -/
def OneRoot (ts : List (Tag α)) : Prop :=
  ∃ a inner, ts = .opening a :: (inner ++ [.closing a]) ∧ Nested inner

/-- The open names behind a sequence of tags, and whether there was a tag.
Outside of all elements there may be one opening tag only. -/
def rootRun (stack : List α) (root : Bool) :
    List (Tag α) → Option (List α × Bool)
  | [] => some (stack, root)
  | .opening a :: ts =>
    if stack = [] ∧ root = true then none else rootRun (a :: stack) true ts
  | .closing a :: ts =>
    match stack with
    | [] => none
    | b :: stack => if b = a then rootRun stack root ts else none

theorem rootRun_append (stack : List α) (root : Bool) (ss ts : List (Tag α)) :
    rootRun stack root (ss ++ ts)
      = (rootRun stack root ss).bind fun r => rootRun r.1 r.2 ts := by
  fun_induction rootRun stack root ss with
  | case1 stack root => rfl
  | case2 stack root a ss hover => simp [rootRun, hover]
  | case3 stack root a ss hover ih =>
    rw [List.cons_append, rootRun, if_neg hover]
    exact ih
  | case4 root a ss => rfl
  | case5 root a ss stack ih => simpa [rootRun] using ih
  | case6 root a ss b stack hne => simp [rootRun, hne]

/-- Where an element is open there was a tag. -/
theorem rootRun_root {stack rest : List α} {root last : Bool}
    {ts : List (Tag α)} (h : rootRun stack root ts = some (rest, last))
    (hroot : stack ≠ [] → root = true) : rest ≠ [] → last = true := by
  fun_induction rootRun stack root ts with
  | case1 stack root =>
    obtain ⟨rfl, rfl⟩ := Prod.mk.inj (Option.some.inj h)
    exact hroot
  | case2 stack root a ts hover => simp at h
  | case3 stack root a ts hover ih => exact ih h fun _ => rfl
  | case4 root a ts => simp at h
  | case5 root a ts stack ih =>
    exact ih h fun _ => hroot (List.cons_ne_nil _ _)
  | case6 root a ts b stack hne => simp at h

/-- Above an open element there is nothing but nesting. -/
theorem rootRun_above {stack rest below : List α} {ts : List (Tag α)}
    (h : run stack ts = some rest) (hbelow : below ≠ []) :
    rootRun (stack ++ below) true ts = some (rest ++ below, true) := by
  have hopen : ∀ stack : List α, ¬ (stack ++ below = [] ∧ true = true) :=
    fun stack hand => hbelow (List.append_eq_nil_iff.1 hand.1).2
  fun_induction run stack ts with
  | case1 stack =>
    obtain rfl := Option.some.inj h
    rfl
  | case2 stack a ts ih =>
    rw [rootRun, if_neg (hopen stack)]
    exact ih h
  | case3 a ts => simp at h
  | case4 a ts stack ih => simpa [rootRun] using ih h
  | case5 a ts b stack hne => simp at h

/-- The last open element is closed by the last tag. -/
theorem rootRun_last {stack : List α} {a : α} {ts : List (Tag α)}
    (h : rootRun (stack ++ [a]) true ts = some ([], true)) :
    ∃ inner, ts = inner ++ [.closing a] ∧ run stack inner = some [] := by
  induction ts generalizing stack with
  | nil => simp [rootRun] at h
  | cons t ts ih =>
    cases t with
    | opening b =>
      rw [rootRun, if_neg (by simp)] at h
      obtain ⟨inner, rfl, hrun⟩ := @ih (b :: stack) h
      exact ⟨.opening b :: inner, rfl, hrun⟩
    | closing b =>
      cases stack with
      | nil =>
        simp only [rootRun, List.nil_append] at h
        split_ifs at h with hab
        subst hab
        cases ts with
        | nil => exact ⟨[], rfl, rfl⟩
        | cons t ts => cases t <;> simp [rootRun] at h
      | cons c stack =>
        simp only [rootRun, List.cons_append] at h
        split_ifs at h with hcb
        subst hcb
        obtain ⟨inner, rfl, hrun⟩ := ih h
        exact ⟨.closing c :: inner, rfl, by simpa [run] using hrun⟩

/-- The run tells the sequences that are one element. -/
theorem rootRun_eq_iff {ts : List (Tag α)} :
    rootRun [] false ts = some ([], true) ↔ OneRoot ts := by
  constructor
  · intro h
    cases ts with
    | nil => simp [rootRun] at h
    | cons t ts =>
      cases t with
      | opening a =>
        rw [rootRun, if_neg (by simp)] at h
        obtain ⟨inner, rfl, hrun⟩ := @rootRun_last _ _ [] a ts h
        exact ⟨a, inner, rfl, hrun⟩
      | closing a => simp [rootRun] at h
  · rintro ⟨a, inner, rfl, hinner⟩
    have habove := rootRun_above hinner (List.cons_ne_nil a [])
    rw [List.nil_append] at habove
    rw [rootRun, if_neg (by simp), rootRun_append, habove]
    simp [rootRun]

instance (ts : List (Tag α)) : Decidable (OneRoot ts) :=
  decidable_of_iff _ rootRun_eq_iff

end Root

/-- Names may be changed. -/
theorem run_map [DecidableEq α] [DecidableEq β] (f : α → β)
    {stack rest : List α} {ts : List (Tag α)} (h : run stack ts = some rest) :
    run (stack.map f) (ts.map (Tag.map f)) = some (rest.map f) := by
  fun_induction run stack ts with
  | case1 stack =>
    obtain rfl := Option.some.inj h
    rfl
  | case2 stack a ts ih => exact ih h
  | case3 a ts => simp at h
  | case4 b ts stack ih => simpa [run, Tag.map] using ih h
  | case5 a ts b stack hne => simp at h

end Tags
