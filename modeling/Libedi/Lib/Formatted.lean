import Mathlib.Data.List.Basic

/-!
# Formatted output into memory

A format is a list of texts and conversions.  A conversion prints one argument.
The arguments of a call are a list that a formatter takes them from, first to
last (`expand`).  What is left of the list is what a second formatter finds, and
a conversion that finds nothing has no result.

`Block` is a piece of memory that was allocated.  A store behind its end has no
result either.  `Block.Holds` is what all lemmas of the block are about: the
bytes that the block starts with.
-/

namespace Formatted

/-! ## Formats -/

/-- A part of a format. -/
inductive Item (κ : Type*) where
  | text (t : List UInt8)
  | conv (spec : κ)

variable {κ α : Type*}

/-- How many arguments a format takes. -/
def arity : List (Item κ) → Nat
  | [] => 0
  | .text _ :: format => arity format
  | .conv _ :: format => arity format + 1

variable (print : κ → α → List UInt8)

/-- The text of a format, and the arguments behind those that it took. -/
def expand : List (Item κ) → List α → Option (List UInt8 × List α)
  | [], ap => some ([], ap)
  | .text t :: format, ap =>
    (expand format ap).map fun r => (t ++ r.1, r.2)
  | .conv _ :: _, [] => none
  | .conv spec :: format, a :: ap =>
    (expand format ap).map fun r => (print spec a ++ r.1, r.2)

/-- A format with the arguments that it takes. -/
structure Call (κ α : Type*) where
  format : List (Item κ)
  args : List α
  arity_eq : arity format = args.length

/-- The expanded format of a call. -/
def Call.text (c : Call κ α) : List UInt8 :=
  ((expand print c.format c.args).map Prod.fst).getD []

theorem expand_arity (format : List (Item κ)) (ap : List α)
    (h : arity format = ap.length) :
    ∃ text, expand print format ap = some (text, []) := by
  fun_induction expand print format ap with
  | case1 ap =>
    have hnil : ap = [] := List.eq_nil_of_length_eq_zero h.symm
    exact ⟨[], by rw [hnil]⟩
  | case2 t format ap ih =>
    obtain ⟨text, htext⟩ := ih h
    exact ⟨t ++ text, by rw [htext]; rfl⟩
  | case3 => simp [arity] at h
  | case4 spec format a ap ih =>
    obtain ⟨text, htext⟩ := ih (by simpa [arity] using h)
    exact ⟨print spec a ++ text, by rw [htext]; rfl⟩

/-- The first formatter takes all arguments of its call. -/
theorem Call.expand_eq (c : Call κ α) :
    expand print c.format c.args = some (c.text print, []) := by
  obtain ⟨text, htext⟩ := expand_arity print c.format c.args c.arity_eq
  rw [Call.text, htext]
  rfl

/-- The second finds none of them. -/
theorem expand_nil_eq_none {format : List (Item κ)} (h : arity format ≠ 0) :
    expand print format [] = none := by
  induction format with
  | nil => exact absurd rfl h
  | cons item format ih =>
    cases item with
    | text t =>
      have hrest : expand print format [] = none := ih h
      rw [expand, hrest]
      rfl
    | conv spec => rfl

theorem Call.args_eq_nil {c : Call κ α} (h : arity c.format = 0) :
    c.args = [] :=
  List.eq_nil_of_length_eq_zero (by rw [← c.arity_eq, h])

/-! ## Blocks of memory -/

/-- A block and its bytes. -/
structure Block where
  room : Nat
  bytes : Nat → UInt8

namespace Block

/-- Stores bytes from an offset on. -/
def store (b : Block) (offset : Nat) (s : List UInt8) : Option Block :=
  if offset + s.length ≤ b.room then
    some { b with bytes := fun i =>
      if offset ≤ i then (s[i - offset]?).getD (b.bytes i) else b.bytes i }
  else none

/-- The block of another size that `realloc` makes of it.  Behind the end of the
old one is what the memory held before. -/
def resize (stale : Nat → UInt8) (b : Block) (size : Nat) : Block where
  room := size
  bytes i := if i < b.room then b.bytes i else stale i

/-- `vsnprintf` at an offset of the block, with the text that it prints: as much
of it as there is space for, and a terminator. -/
def vsnprintf (b : Block) (offset space : Nat) (text : List UInt8) :
    Option Block :=
  if space = 0 then some b
  else b.store offset (text.take (space - 1) ++ [0])

/-- The block starts with these bytes. -/
structure Holds (b : Block) (t : List UInt8) : Prop where
  length_le : t.length ≤ b.room
  eq : ∀ i < t.length, t[i]? = some (b.bytes i)

variable {b b' : Block} {t s : List UInt8} {stale : Nat → UInt8} {size : Nat}

theorem Holds.nil (b : Block) : b.Holds [] where
  length_le := Nat.zero_le _
  eq _ hi := absurd hi (Nat.not_lt_zero _)

theorem Holds.left (h : b.Holds (t ++ s)) : b.Holds t where
  length_le := by
    have hle := h.length_le
    rw [List.length_append] at hle
    omega
  eq i hi := by
    have heq := h.eq i (by rw [List.length_append]; omega)
    rwa [List.getElem?_append_left hi] at heq

theorem Holds.resize (h : b.Holds t) (hsize : t.length ≤ size) :
    (b.resize stale size).Holds t where
  length_le := hsize
  eq i hi := by
    have hroom : i < b.room := Nat.lt_of_lt_of_le hi h.length_le
    simp only [Block.resize, if_pos hroom]
    exact h.eq i hi

theorem store_eq_some_iff {offset : Nat} :
    (∃ b', b.store offset s = some b') ↔ offset + s.length ≤ b.room := by
  unfold store
  split
  · next h => exact ⟨fun _ => h, fun _ => ⟨_, rfl⟩⟩
  · next h => exact ⟨fun ⟨_, he⟩ => (nomatch he), fun he => absurd he h⟩

theorem room_store {offset : Nat} (h : b.store offset s = some b') :
    b'.room = b.room := by
  unfold store at h
  split at h
  · cases h
    rfl
  · cases h

/-- What is stored behind the bytes that a block starts with prolongs them. -/
theorem Holds.store (ht : b.Holds t) (h : b.store t.length s = some b') :
    b'.Holds (t ++ s) := by
  unfold Block.store at h
  split at h
  · next hroom =>
    cases h
    refine ⟨by rw [List.length_append]; exact hroom, fun i hi => ?_⟩
    rw [List.length_append] at hi
    by_cases hlt : i < t.length
    · have hge : ¬ t.length ≤ i := by omega
      rw [List.getElem?_append_left hlt, ht.eq i hlt]
      simp only [if_neg hge]
    · have hge : t.length ≤ i := by omega
      have hs : i - t.length < s.length := by omega
      rw [List.getElem?_append_right hge]
      simp only [if_pos hge, List.getElem?_eq_getElem hs, Option.getD_some]
  · cases h

/-- With space up to the end of the block, nothing is stored outside, and what
the block held in front of the offset stays. -/
theorem Holds.vsnprintf (ht : b.Holds t) (space : Nat)
    (hspace : t.length + space ≤ b.room) (text : List UInt8) :
    ∃ b', b.vsnprintf t.length space text = some b' ∧ b'.room = b.room ∧
      b'.Holds t ∧ (text.length < space → b'.Holds (t ++ text ++ [0])) := by
  by_cases hzero : space = 0
  · refine ⟨b, by rw [Block.vsnprintf, if_pos hzero], rfl, ht, fun h => ?_⟩
    omega
  have hroom : t.length + (text.take (space - 1) ++ [0]).length ≤ b.room := by
    simp only [List.length_append, List.length_take, List.length_singleton]
    omega
  obtain ⟨b', hstore⟩ := store_eq_some_iff.mpr hroom
  have hholds : b'.Holds (t ++ (text.take (space - 1) ++ [0])) :=
    ht.store hstore
  refine ⟨b', by rw [Block.vsnprintf, if_neg hzero, hstore],
    room_store hstore, hholds.left, fun hlt => ?_⟩
  rw [List.take_of_length_le (by omega), ← List.append_assoc] at hholds
  exact hholds

end Block

/-- What `vsnprintf` returns: the length of the whole text, or a negative value
if that does not fit an `int`. -/
def returned (text : List UInt8) : Int :=
  if text.length < 0x80000000 then text.length else -1

/-! ## Fixed width -/

/-- The `int` with the bits of a number. -/
def toInt32 (i : Int) : Int :=
  if i % 0x100000000 < 0x80000000 then i % 0x100000000
  else i % 0x100000000 - 0x100000000

/-- A `size_t` from an `int`. -/
def toSize (i : Int) : Nat := (i % 0x10000000000000000).toNat

theorem toInt32_of_lt {n : Nat} (h : n < 0x80000000) : toInt32 n = n := by
  unfold toInt32
  omega

theorem toSize_of_lt {n : Nat} (h : n < 0x80000000) : toSize n = n := by
  unfold toSize
  omega

end Formatted
