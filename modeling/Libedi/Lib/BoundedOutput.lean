import Mathlib.Data.List.Basic
import Mathlib.Logic.Function.Basic

/-!
# Output into a bounded buffer

A writer emits symbols at a cursor and may step the cursor back.  What it wants
to write is a *script*, a list of `Op`.  This module relates three readings of a
script.

* `run` is the text that the script writes when there is room for all of it.
* `runTo limit` is the text of a writer that looks at its cursor in front of
  each operation and stops once the cursor has reached `limit`.
* `peak` is the highest cursor position that `run` passes through.  It is not
  the length of the text, because of the steps back.

`runTo_length_lt_iff` says that the stopping writer reaches the limit exactly
when the peak does, and `runTo_eq_run` that below the limit nothing is lost.

`Writer` is a cursor into a `Buffer`, the memory that is written, with the
indices of all stores.  `At` is the invariant that ties a writer to a text: the
memory in front of the cursor holds the text, and no store went behind the
limit, other than a terminator stored at a cursor that stands at the limit.
-/

namespace BoundedOutput

variable {α : Type*}

/-! ## Scripts -/

/-- One step of a writer. -/
inductive Op (α : Type*) where
  /-- Store a symbol at the cursor and move the cursor forward. -/
  | put (a : α)
  /-- Move the cursor back, unless it is at the start. -/
  | back

/-- The text in front of the cursor after one step. -/
def Op.apply : Op α → List α → List α
  | .put a, t => t ++ [a]
  | .back, t => t.dropLast

/-- The script that writes `l`. -/
def puts (l : List α) : List (Op α) := l.map .put

/-- The text after all steps. -/
def run (ops : List (Op α)) (t : List α) : List α :=
  ops.foldl (fun t op => op.apply t) t

/-- The text of a writer that stops once the cursor has reached `limit`. -/
def runTo (limit : Nat) : List (Op α) → List α → List α
  | [], t => t
  | op :: ops, t =>
    if t.length < limit then runTo limit ops (op.apply t) else t

/-- The highest position of a cursor that starts at `n`. -/
def peak : List (Op α) → Nat → Nat
  | [], n => n
  | .put _ :: ops, n => peak ops (n + 1)
  | .back :: ops, n => max n (peak ops (n - 1))

@[simp] theorem puts_nil : puts ([] : List α) = [] := rfl

@[simp] theorem puts_cons (a : α) (l : List α) :
    puts (a :: l) = .put a :: puts l := rfl

theorem puts_append (l l' : List α) : puts (l ++ l') = puts l ++ puts l' :=
  List.map_append

@[simp] theorem run_nil (t : List α) : run [] t = t := rfl

@[simp] theorem run_cons (op : Op α) (ops : List (Op α)) (t : List α) :
    run (op :: ops) t = run ops (op.apply t) := rfl

theorem run_append (ops ops' : List (Op α)) (t : List α) :
    run (ops ++ ops') t = run ops' (run ops t) :=
  List.foldl_append

@[simp] theorem run_puts (l t : List α) : run (puts l) t = t ++ l := by
  induction l generalizing t with
  | nil => simp
  | cons a l ih => simp [ih, Op.apply]

theorem le_peak (ops : List (Op α)) (n : Nat) : n ≤ peak ops n := by
  induction ops generalizing n with
  | nil => exact Nat.le_refl n
  | cons op ops ih =>
    cases op with
    | put a => exact Nat.le_of_succ_le (ih (n + 1))
    | back => exact Nat.le_max_left _ _

@[simp] theorem peak_puts_append (l : List α) (ops : List (Op α)) (n : Nat) :
    peak (puts l ++ ops) n = peak ops (n + l.length) := by
  induction l generalizing n with
  | nil => rfl
  | cons a l ih =>
    rw [puts_cons, List.cons_append, peak, ih, List.length_cons]
    congr 1
    omega

theorem peak_puts (l : List α) (n : Nat) : peak (puts l) n = n + l.length := by
  simpa [peak] using peak_puts_append l [] n

/-- At the limit the writer does nothing. -/
theorem runTo_of_le {limit : Nat} {t : List α} (h : limit ≤ t.length)
    (ops : List (Op α)) : runTo limit ops t = t := by
  cases ops with
  | nil => rfl
  | cons op ops => rw [runTo, if_neg (by omega)]

theorem runTo_append (limit : Nat) (ops ops' : List (Op α)) (t : List α) :
    runTo limit (ops ++ ops') t = runTo limit ops' (runTo limit ops t) := by
  induction ops generalizing t with
  | nil => rfl
  | cons op ops ih =>
    rw [List.cons_append, runTo, runTo]
    split
    · exact ih _
    · rw [runTo_of_le (by omega)]

/-- The writer reaches the limit exactly when the peak of the script does. -/
theorem runTo_length_lt_iff (limit : Nat) (ops : List (Op α)) (t : List α) :
    (runTo limit ops t).length < limit ↔ peak ops t.length < limit := by
  induction ops generalizing t with
  | nil => rfl
  | cons op ops ih =>
    rw [runTo]
    cases op with
    | put a =>
      have hlen : (t ++ [a]).length = t.length + 1 := by simp
      rw [peak]
      split
      · rw [Op.apply, ih, hlen]
      · have hle := le_peak ops (t.length + 1)
        omega
    | back =>
      rw [peak, Nat.max_lt]
      split
      · next hlt =>
        rw [Op.apply, ih, List.length_dropLast]
        exact ⟨fun h => ⟨hlt, h⟩, fun h => h.2⟩
      · next hge => exact ⟨fun h => absurd h hge, fun h => h.1⟩

/-- Below the limit nothing is lost. -/
theorem runTo_eq_run {limit : Nat} {ops : List (Op α)} {t : List α}
    (h : peak ops t.length < limit) : runTo limit ops t = run ops t := by
  induction ops generalizing t with
  | nil => rfl
  | cons op ops ih =>
    have hlt : t.length < limit := Nat.lt_of_le_of_lt (le_peak _ _) h
    rw [runTo, if_pos hlt, run_cons]
    refine ih ?_
    cases op with
    | put a =>
      rw [Op.apply, List.length_append, List.length_singleton]
      exact h
    | back =>
      rw [Op.apply, List.length_dropLast]
      exact (Nat.max_lt.1 h).2

theorem back_notMem_puts (l : List α) : Op.back ∉ puts l := by
  simp [puts]

/-- A script without steps back writes its text symbol by symbol. -/
theorem eq_puts_run {ops : List (Op α)} (h : Op.back ∉ ops) :
    ops = puts (run ops []) := by
  have hputs : ∃ l, ops = puts l := by
    induction ops with
    | nil => exact ⟨[], rfl⟩
    | cons op ops ih =>
      rw [List.mem_cons, not_or] at h
      obtain ⟨l, hl⟩ := ih h.2
      cases op with
      | put a => exact ⟨a :: l, by rw [hl, puts_cons]⟩
      | back => exact absurd rfl h.1
  obtain ⟨l, rfl⟩ := hputs
  rw [run_puts, List.nil_append]

/-- Without steps back, the writer that stops has written a part of the text
from its start on. -/
theorem runTo_puts (limit : Nat) (l t : List α) :
    runTo limit (puts l) t = t ++ l.take (limit - t.length) := by
  induction l generalizing t with
  | nil => simp [runTo]
  | cons a l ih =>
    rw [puts_cons, runTo]
    split
    · next hlt =>
      have hsub : limit - t.length = limit - (t ++ [a]).length + 1 := by
        rw [List.length_append, List.length_singleton]
        omega
      rw [Op.apply, ih, hsub, List.take_succ_cons, List.append_assoc]
      rfl
    · next hge =>
      have hzero : limit - t.length = 0 := by omega
      rw [hzero, List.take_zero, List.append_nil]

/-! ## Writers -/

/-- A piece of memory, and the indices of all stores into it, the latest one
first. -/
structure Buffer (α : Type*) where
  mem : Nat → α
  stores : List Nat

/-- Store a symbol. -/
def Buffer.store (b : Buffer α) (i : Nat) (a : α) : Buffer α :=
  ⟨Function.update b.mem i a, i :: b.stores⟩

@[simp] theorem Buffer.store_mem_self (b : Buffer α) (i : Nat) (a : α) :
    (b.store i a).mem i = a :=
  Function.update_self ..

/-- A buffer and a cursor into it. -/
structure Writer (α : Type*) where
  buf : Buffer α
  pos : Nat

namespace Writer

/-- Store a symbol at the cursor and move the cursor forward. -/
def put (w : Writer α) (a : α) : Writer α := ⟨w.buf.store w.pos a, w.pos + 1⟩

/-- Move the cursor back. -/
def back (w : Writer α) : Writer α := { w with pos := w.pos - 1 }

/-- Store a symbol at the cursor, which stays. -/
def terminate (w : Writer α) (a : α) : Writer α :=
  { w with buf := w.buf.store w.pos a }

@[simp] theorem put_pos (w : Writer α) (a : α) : (w.put a).pos = w.pos + 1 :=
  rfl

@[simp] theorem back_pos (w : Writer α) : w.back.pos = w.pos - 1 := rfl

@[simp] theorem terminate_pos (w : Writer α) (a : α) :
    (w.terminate a).pos = w.pos := rfl

end Writer

/-- The writer stands behind the text `t`, in front of `limit` or at it. -/
structure At (limit : Nat) (w : Writer α) (t : List α) : Prop where
  pos : w.pos = t.length
  le : t.length ≤ limit
  holds : ∀ i, i < t.length → t[i]? = some (w.buf.mem i)
  stores : ∀ k ∈ w.buf.stores, k < limit ∨ (k = limit ∧ t.length = limit)

namespace At

variable {limit : Nat} {w : Writer α} {t : List α}

theorem start (limit : Nat) (mem : Nat → α) : At limit ⟨⟨mem, []⟩, 0⟩ [] where
  pos := rfl
  le := Nat.zero_le limit
  holds := fun _ hi => absurd hi (Nat.not_lt_zero _)
  stores := fun _ hk => absurd hk List.not_mem_nil

theorem put (h : At limit w t) (hlt : w.pos < limit) (a : α) :
    At limit (w.put a) (t ++ [a]) where
  pos := by simp [h.pos]
  le := by
    have hpos := h.pos
    rw [List.length_append, List.length_singleton]
    omega
  holds := by
    intro i hi
    rw [List.length_append, List.length_singleton] at hi
    simp only [Writer.put, Buffer.store, h.pos]
    rcases Nat.lt_succ_iff_lt_or_eq.1 hi with hi | rfl
    · rw [List.getElem?_append_left hi, h.holds i hi,
        Function.update_of_ne (by omega)]
    · simp
  stores := by
    intro k hk
    rcases List.mem_cons.1 hk with rfl | hk
    · exact Or.inl hlt
    · have hpos := h.pos
      rcases h.stores k hk with hk | ⟨-, hk⟩
      · exact Or.inl hk
      · omega

theorem back (h : At limit w t) (hlt : w.pos < limit) :
    At limit w.back t.dropLast where
  pos := by rw [Writer.back_pos, List.length_dropLast, h.pos]
  le := by
    have hle := h.le
    rw [List.length_dropLast]
    omega
  holds := by
    intro i hi
    rw [List.length_dropLast] at hi
    rw [List.getElem?_dropLast, if_pos hi]
    exact h.holds i (by omega)
  stores := by
    intro k hk
    have hpos := h.pos
    rcases h.stores k hk with hk | ⟨-, hk⟩
    · exact Or.inl hk
    · omega

/-- A terminator may go behind the limit. -/
theorem terminate (h : At limit w t) (a : α) : At limit (w.terminate a) t where
  pos := h.pos
  le := h.le
  holds := by
    intro i hi
    have hpos := h.pos
    simp only [Writer.terminate, Buffer.store]
    rw [Function.update_of_ne (by omega)]
    exact h.holds i hi
  stores := by
    intro k hk
    have hpos := h.pos
    have hle := h.le
    rcases List.mem_cons.1 hk with rfl | hk
    · omega
    · exact h.stores k hk

/-- At the limit the script has no more effect. -/
theorem runTo_stop (h : At limit w t) (hle : limit ≤ w.pos)
    (ops : List (Op α)) : runTo limit ops t = t :=
  runTo_of_le (h.pos ▸ hle) ops

theorem runTo_put (h : At limit w t) (hlt : w.pos < limit) (a : α)
    (ops : List (Op α)) :
    runTo limit (.put a :: ops) t = runTo limit ops (t ++ [a]) := by
  rw [runTo, if_pos (h.pos ▸ hlt)]
  rfl

theorem runTo_back (h : At limit w t) (hlt : w.pos < limit)
    (ops : List (Op α)) :
    runTo limit (.back :: ops) t = runTo limit ops t.dropLast := by
  rw [runTo, if_pos (h.pos ▸ hlt)]
  rfl

/-- The rule for a writer that looks at its cursor. -/
theorem guard {w' : Writer α} {ops : List (Op α)} (h : At limit w t)
    (hw' : w.pos < limit → At limit w' (runTo limit ops t)) :
    At limit (if limit ≤ w.pos then w else w') (runTo limit ops t) := by
  by_cases hle : limit ≤ w.pos
  · rw [if_pos hle, h.runTo_stop hle]
    exact h
  · rw [if_neg hle]
    exact hw' (by omega)

/-- In front of the limit no store went behind it. -/
theorem stores_lt (h : At limit w t) (hlt : t.length < limit) :
    ∀ k ∈ w.buf.stores, k < limit := by
  intro k hk
  rcases h.stores k hk with hk | ⟨-, hk⟩
  · exact hk
  · omega

end At

/-- No store went behind the cursor.  A step back breaks this. -/
def Ahead (w : Writer α) : Prop := ∀ k ∈ w.buf.stores, k ≤ w.pos

namespace Ahead

variable {w : Writer α}

theorem start (mem : Nat → α) : Ahead ⟨⟨mem, []⟩, 0⟩ :=
  fun _ hk => absurd hk List.not_mem_nil

theorem put (h : Ahead w) (a : α) : Ahead (w.put a) := by
  intro k hk
  rcases List.mem_cons.1 hk with rfl | hk
  · exact Nat.le_succ _
  · exact Nat.le_succ_of_le (h k hk)

theorem terminate (h : Ahead w) (a : α) : Ahead (w.terminate a) := by
  intro k hk
  rcases List.mem_cons.1 hk with rfl | hk
  · exact Nat.le_refl _
  · exact h k hk

end Ahead

end BoundedOutput
