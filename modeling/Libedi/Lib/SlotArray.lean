import Mathlib.Data.List.Basic

/-!
# Arrays of slots

An array that `realloc` makes longer, one slot after the other.  A slot holds an
item, or `none` as long as nothing was stored in it.  How many of the slots are in
use is written down elsewhere, so an array may well be longer than that.

* `slot` reads a slot, and `resize` is `realloc`.
* `Holds` compares an array with the list of the items that are in use.  The items
  of the two sides may be different things, which `R` relates.

`Holds.push` is the rule for a new item behind the others, and `Holds.set` the one
for an item that is replaced.
-/

namespace SlotArray

variable {α β : Type*}

/-- The item in a slot, `none` also for a slot that is not there. -/
def slot (l : List (Option α)) (c : Nat) : Option α := l[c]?.join

/-- `realloc`: the slots that are kept, and new ones with nothing in them. -/
def resize (l : List (Option α)) (n : Nat) : List (Option α) :=
  l.take n ++ List.replicate (n - l.length) none

/-- The first slots hold the items of a list. -/
def Holds (R : α → β → Prop) (l : List (Option α)) (xs : List β) : Prop :=
  ∀ c x, xs[c]? = some x → ∃ a, slot l c = some a ∧ R a x

variable {l : List (Option α)} {c d n : Nat} {a : α}

@[simp] theorem length_resize (l : List (Option α)) (n : Nat) :
    (resize l n).length = n := by
  simp only [resize, List.length_append, List.length_take,
    List.length_replicate]
  omega

/-- The slots that are kept hold what they held. -/
theorem slot_resize (h : c < n) (l : List (Option α)) :
    slot (resize l n) c = slot l c := by
  unfold slot resize
  by_cases hc : c < l.length
  · have htake : c < (l.take n).length := by
      rw [List.length_take]
      omega
    rw [List.getElem?_append_left htake, List.getElem?_take_of_lt h]
  · have htake : (l.take n).length ≤ c := by
      rw [List.length_take]
      omega
    rw [List.getElem?_append_right htake, List.getElem?_replicate,
      List.getElem?_eq_none (by omega : l.length ≤ c)]
    split <;> rfl

theorem slot_set_self (h : c < l.length) :
    slot (l.set c (some a)) c = some a := by
  simp [slot, List.getElem?_set_self h]

theorem slot_set_ne (h : c ≠ d) (x : Option α) :
    slot (l.set c x) d = slot l d := by
  simp [slot, List.getElem?_set_ne h]

theorem lt_length_of_slot (h : slot l c = some a) : c < l.length := by
  by_contra hc
  simp [slot, List.getElem?_eq_none (Nat.le_of_not_lt hc)] at h

theorem slot_set_of_slot {b : α} (h : slot l c = some b) :
    slot (l.set c (some a)) c = some a :=
  slot_set_self (lt_length_of_slot h)

namespace Holds

variable {R : α → β → Prop} {xs : List β} {x : β}

theorem nil (R : α → β → Prop) (l : List (Option α)) : Holds R l [] :=
  fun _ _ h => by simp at h

/-- An array that is as long as its list. -/
theorem of_map {R : α → β → Prop} (f : β → α) (hf : ∀ x, R (f x) x)
    (xs : List β) : Holds R (xs.map fun x => some (f x)) xs := by
  intro c x hx
  exact ⟨f x, by simp [slot, hx], hf x⟩

/-- What the slot of an item holds. -/
theorem slot_eq (h : Holds R l xs) (hx : xs[c]? = some x) :
    ∃ a, slot l c = some a ∧ R a x :=
  h c x hx

theorem resize (h : Holds R l xs) (hn : xs.length ≤ n) :
    Holds R (resize l n) xs := by
  intro c x hx
  have hc := (List.getElem?_eq_some_iff.1 hx).1
  rw [slot_resize (by omega)]
  exact h c x hx

/-- One more item, in the slot behind the others. -/
theorem push (h : Holds R l xs) (hlen : xs.length < l.length) (hR : R a x) :
    Holds R (l.set xs.length (some a)) (xs ++ [x]) := by
  intro c y hy
  rcases Nat.lt_trichotomy c xs.length with hc | rfl | hc
  · rw [List.getElem?_append_left hc] at hy
    rw [slot_set_ne (by omega)]
    exact h c y hy
  · obtain rfl : x = y := by simpa using hy
    exact ⟨a, slot_set_self hlen, hR⟩
  · rw [List.getElem?_eq_none (by simp; omega)] at hy
    cases hy

/-- An array that is made longer by the slot for one more item. -/
theorem resize_push (h : Holds R l xs) (hR : R a x) :
    Holds R ((SlotArray.resize l (xs.length + 1)).set xs.length (some a))
      (xs ++ [x]) :=
  (h.resize (Nat.le_succ _)).push (by simp) hR

/-- Another item in the place of one. -/
theorem set (h : Holds R l xs) {y : β} (hR : R a y) (c : Nat) :
    Holds R (l.set c (some a)) (xs.set c y) := by
  intro d z hz
  have hd : d < xs.length := by
    simpa using (List.getElem?_eq_some_iff.1 hz).1
  by_cases hcd : c = d
  · subst hcd
    obtain rfl : y = z := by simpa [List.getElem?_set_self hd] using hz
    obtain ⟨b, hb, -⟩ := h c xs[c] (List.getElem?_eq_getElem hd)
    exact ⟨a, slot_set_of_slot hb, hR⟩
  · rw [List.getElem?_set_ne hcd] at hz
    rw [slot_set_ne hcd]
    exact h d z hz

/-- Items that nobody counts may be stored anywhere behind the others. -/
theorem set_behind (h : Holds R l xs) (hc : xs.length ≤ c) (b : Option α) :
    Holds R (l.set c b) xs := by
  intro d z hz
  have hd := (List.getElem?_eq_some_iff.1 hz).1
  rw [slot_set_ne (by omega)]
  exact h d z hz

end Holds

end SlotArray
