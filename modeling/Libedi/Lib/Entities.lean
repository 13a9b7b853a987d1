import Mathlib.Data.List.Basic
import Mathlib.Logic.Function.Basic

/-!
# Words that stand for symbols

A table gives words to some symbols.  `encode` writes the word in the place of the
symbol, and `decode` is one pass from left to right that puts the symbols back.

The text may have had the words in it before.  They come out of `decode` as they
went in if each word starts with one symbol that has a word itself, and no word is
the beginning of another one (`decode_encode`).
-/

namespace Entities

variable {α : Type*} [DecidableEq α]

/-- The word of a symbol, or the symbol if it has none. -/
def word (table : List (α × List α)) (c : α) : List α :=
  (table.lookup c).getD [c]

/-- Writes the word of each symbol. -/
def encode (table : List (α × List α)) (s : List α) : List α :=
  s.flatMap (word table)

/-- Where a word starts its symbol takes the place of it, from left to right. -/
def decode (table : List (α × List α)) : List α → List α
  | [] => []
  | c :: s =>
    match table.find? fun e => e.2 <+: c :: s with
    | some e => e.1 :: decode table (s.drop (e.2.length - 1))
    | none => c :: decode table s
termination_by s => s.length
decreasing_by
  · rw [List.length_drop, List.length_cons]
    omega
  · exact Nat.lt_succ_self _

/-- Each word starts with `mark`, which has a word too, and the words are not
taken for one another. -/
structure Readable (table : List (α × List α)) (mark : α) : Prop where
  starts : ∀ e ∈ table, e.2.head? = some mark
  marked : (table.lookup mark).isSome = true
  apart : ∀ e ∈ table, ∀ e' ∈ table, e.2 <+: e'.2 → e = e'

variable {table : List (α × List α)} {mark : α}

theorem mem_of_lookup {c : α} {w : List α} (h : table.lookup c = some w) :
    (c, w) ∈ table := by
  obtain ⟨l, l', rfl, -⟩ := List.lookup_eq_some_iff.1 h
  simp

namespace Readable

variable (h : Readable table mark)
include h

/-- A word is found where it starts. -/
theorem find?_word {e : α × List α} (he : e ∈ table) (s : List α) :
    table.find? (fun e' => e'.2 <+: e.2 ++ s) = some e := by
  cases hfind : table.find? (fun e' => e'.2 <+: e.2 ++ s) with
  | none =>
    have hno := List.find?_eq_none.1 hfind e he
    exact absurd (decide_eq_true (List.prefix_append e.2 s)) hno
  | some e' =>
    have he' := List.mem_of_find?_eq_some hfind
    have hstart : e'.2 <+: e.2 ++ s := by simpa using List.find?_some hfind
    rcases List.prefix_or_prefix_of_prefix hstart (List.prefix_append e.2 s)
      with hle | hle
    · rw [h.apart e' he' e he hle]
    · rw [h.apart e he e' he' hle]

/-- No word is found at another symbol. -/
theorem find?_none {c : α} (hc : c ≠ mark) (s : List α) :
    table.find? (fun e => e.2 <+: c :: s) = none := by
  rw [List.find?_eq_none]
  intro e he hstart
  obtain ⟨t, ht⟩ : ∃ t, e.2 = mark :: t := List.head?_eq_some_iff.1 (h.starts e he)
  have hstarts : e.2 <+: c :: s := of_decide_eq_true hstart
  rw [ht, List.cons_prefix_cons] at hstarts
  exact hc hstarts.1.symm

theorem decode_word_append (c : α) (s : List α) :
    decode table (word table c ++ s) = c :: decode table s := by
  cases hlookup : table.lookup c with
  | none =>
    have hc : c ≠ mark := by
      rintro rfl
      have hmarked := h.marked
      rw [hlookup] at hmarked
      cases hmarked
    rw [word, hlookup, Option.getD_none, List.singleton_append, decode,
      h.find?_none hc]
  | some w =>
    have hmem := mem_of_lookup hlookup
    obtain ⟨t, rfl⟩ : ∃ t, w = mark :: t :=
      List.head?_eq_some_iff.1 (h.starts _ hmem)
    have hfind := h.find?_word hmem s
    rw [List.cons_append] at hfind
    rw [word, hlookup, Option.getD_some, List.cons_append, decode, hfind]
    simp

/-- What is encoded is decoded to what it was. -/
theorem decode_encode (s : List α) : decode table (encode table s) = s := by
  induction s with
  | nil => rw [encode, List.flatMap_nil, decode]
  | cons c s ih =>
    have hcons : encode table (c :: s) = word table c ++ encode table s := rfl
    rw [hcons, h.decode_word_append, ih]

theorem encode_injective : Function.Injective (encode table) :=
  Function.LeftInverse.injective h.decode_encode

end Readable

/-- A symbol of the encoded text has no word and was in the text, or it is in a
word. -/
theorem mem_encode {c : α} {s : List α} (h : c ∈ encode table s) :
    (c ∈ s ∧ table.lookup c = none) ∨ ∃ e ∈ table, c ∈ e.2 := by
  obtain ⟨d, hd, hc⟩ := List.mem_flatMap.1 h
  unfold word at hc
  cases hlookup : table.lookup d with
  | none =>
    rw [hlookup, Option.getD_none, List.mem_singleton] at hc
    subst hc
    exact Or.inl ⟨hd, hlookup⟩
  | some w =>
    rw [hlookup, Option.getD_some] at hc
    exact Or.inr ⟨(d, w), mem_of_lookup hlookup, hc⟩

end Entities
