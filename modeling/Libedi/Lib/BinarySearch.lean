import Mathlib.Algebra.Group.Nat.Defs
import Mathlib.Data.List.Basic

/-!
# Binary search that reads first

A search over the window `[b, e)` of a table that looks at a slot before it asks
whether the window is empty.  So it reads one slot of an empty table.  The table
is given by how the key compares to each slot, `none` if there is no such slot.
The result is `none` if such a slot was read.

`search` is on natural numbers.  `loop` is the same on 64-bit words, where the
window is empty if the unsigned difference of its bounds is, and it says which
slots it has read.  `loop_eq_search` is for bounds whose sum does not wrap.
-/

namespace BinarySearch

/-- The loop.  The window is asked for only after the slot in the middle. -/
def search (cmp : Nat → Option Ordering) (b e : Nat) : Option (Option Nat) :=
  match cmp ((b + e) / 2) with
  | none => none
  | some .eq => some (some ((b + e) / 2))
  | some .lt =>
    if b < (b + e) / 2 then search cmp b ((b + e) / 2) else some none
  | some .gt =>
    if (b + e) / 2 + 1 < e then search cmp ((b + e) / 2 + 1) e else some none
termination_by e - b

/-- The loop on words, for at most `fuel` turns: the slots that are read, and the
one that is equal to the key.  It is `none` if the turns are not enough. -/
def loop (cmp : Nat → Option Ordering) :
    Nat → UInt64 → UInt64 → Option (List Nat × Option Nat)
  | 0, _, _ => none
  | fuel + 1, b, e =>
    let cur := (b + e) / 2
    match cmp cur.toNat with
    | none => none
    | some .eq => some ([cur.toNat], some cur.toNat)
    | some .lt =>
      if cur - b < 1 then some ([cur.toNat], none)
      else (loop cmp fuel b cur).map (Prod.map (cur.toNat :: ·) id)
    | some .gt =>
      if e - (cur + 1) < 1 then some ([cur.toNat], none)
      else (loop cmp fuel (cur + 1) e).map (Prod.map (cur.toNat :: ·) id)

/-- The entry of a table that `cmp` takes for the one that is looked for. -/
def find {α : Type*} (cmp : α → Ordering) (tab : List α) : Option (Option α) :=
  (search (fun i => tab[i]?.map cmp) 0 tab.length).map (·.bind (tab[·]?))

section Search

variable {cmp : Nat → Option Ordering} {b e : Nat}

/-- In a window that is not empty only slots of the window are read. -/
theorem search_isSome (hb : b < e)
    (hread : ∀ k, b ≤ k → k < e → (cmp k).isSome = true) :
    (search cmp b e).isSome = true := by
  fun_induction search cmp b e with
  | case1 b e hnone =>
    have hcur := hread ((b + e) / 2) (by omega) (by omega)
    simp [hnone] at hcur
  | case2 b e heq => rfl
  | case3 b e hlt hleft ih =>
    exact ih hleft fun k hk hke => hread k hk (by omega)
  | case4 b e hlt hleft => rfl
  | case5 b e hgt hright ih =>
    exact ih hright fun k hk hke => hread k (by omega) hke
  | case6 b e hgt hright => rfl

/-- What is found is equal to the key, whatever the order of the table. -/
theorem search_sound {i : Nat} (h : search cmp b e = some (some i)) :
    cmp i = some .eq := by
  fun_induction search cmp b e with
  | case1 b e hnone => simp at h
  | case2 b e heq =>
    obtain rfl : (b + e) / 2 = i := by simpa using h
    exact heq
  | case3 b e hlt hleft ih => exact ih h
  | case4 b e hlt hleft => simp at h
  | case5 b e hgt hright ih => exact ih h
  | case6 b e hgt hright => simp at h

/-- The slot `i` is found if the key compares to the slots as `i` compares to
their indices. -/
theorem search_complete {i : Nat} (hb : b ≤ i) (he : i < e)
    (hcmp : ∀ k, b ≤ k → k < e → cmp k = some (compare i k)) :
    search cmp b e = some (some i) := by
  fun_induction search cmp b e with
  | case1 b e hnone =>
    rw [hcmp _ (by omega) (by omega)] at hnone
    simp at hnone
  | case2 b e heq =>
    rw [hcmp _ (by omega) (by omega), Option.some.injEq, Nat.compare_eq_eq]
      at heq
    rw [heq]
  | case3 b e hlt hleft ih =>
    rw [hcmp _ (by omega) (by omega), Option.some.injEq, Nat.compare_eq_lt]
      at hlt
    exact ih hb hlt fun k hk hke => hcmp k hk (by omega)
  | case4 b e hlt hleft =>
    rw [hcmp _ (by omega) (by omega), Option.some.injEq, Nat.compare_eq_lt]
      at hlt
    omega
  | case5 b e hgt hright ih =>
    rw [hcmp _ (by omega) (by omega), Option.some.injEq, Nat.compare_eq_gt]
      at hgt
    exact ih hgt he fun k hk hke => hcmp k (by omega) hke
  | case6 b e hgt hright =>
    rw [hcmp _ (by omega) (by omega), Option.some.injEq, Nat.compare_eq_gt]
      at hgt
    omega

end Search

section Loop

variable {b e : UInt64}

theorem middle_toNat (hb : b < e) (he : e.toNat < 2 ^ 63) :
    ((b + e) / 2).toNat = (b.toNat + e.toNat) / 2 := by
  rw [UInt64.lt_iff_toNat_lt] at hb
  have hsum : (b + e).toNat = b.toNat + e.toNat := by
    rw [UInt64.toNat_add]
    omega
  rw [UInt64.toNat_div, hsum]
  rfl

/-- The difference of the bounds tells whether the window is empty. -/
theorem sub_lt_one_iff (hle : b ≤ e) : e - b < 1 ↔ e.toNat = b.toNat := by
  rw [UInt64.lt_iff_toNat_lt, UInt64.toNat_sub_of_le _ _ hle]
  rw [UInt64.le_iff_toNat_le] at hle
  show e.toNat - b.toNat < 1 ↔ _
  omega

/-- In a window that is not empty the loop ends, reads slots of the window only,
and finds what the search finds. -/
theorem loop_eq_search {cmp : Nat → Option Ordering} {fuel : Nat} (hb : b < e)
    (he : e.toNat < 2 ^ 63)
    (hread : ∀ k, b.toNat ≤ k → k < e.toNat → (cmp k).isSome = true)
    (hfuel : e.toNat - b.toNat ≤ fuel) :
    ∃ slots r, loop cmp fuel b e = some (slots, r) ∧
      search cmp b.toNat e.toNat = some r ∧
      ∀ k ∈ slots, b.toNat ≤ k ∧ k < e.toNat := by
  induction fuel generalizing b e with
  | zero =>
    rw [UInt64.lt_iff_toNat_lt] at hb
    omega
  | succ fuel ih =>
    obtain ⟨cur, hcur⟩ : ∃ cur, (b + e) / 2 = cur := ⟨_, rfl⟩
    have hmid := middle_toNat hb he
    have hlt := UInt64.lt_iff_toNat_lt.1 hb
    rw [hcur] at hmid
    have hsucc : (cur + 1).toNat = cur.toNat + 1 := by
      rw [UInt64.toNat_add]
      show (cur.toNat + 1) % 2 ^ 64 = _
      omega
    have hwindow : b.toNat ≤ cur.toNat ∧ cur.toNat < e.toNat := by omega
    have hleft : b ≤ cur := UInt64.le_iff_toNat_le.2 hwindow.1
    have hright : cur + 1 ≤ e := UInt64.le_iff_toNat_le.2 (by omega)
    obtain ⟨o, ho⟩ :=
      Option.isSome_iff_exists.1 (hread cur.toNat hwindow.1 hwindow.2)
    rw [loop, search, hcur, ← hmid, ho]
    cases o with
    | eq => exact ⟨_, _, rfl, rfl, List.forall_mem_singleton.2 hwindow⟩
    | lt =>
      simp only [sub_lt_one_iff hleft]
      by_cases hlast : cur.toNat = b.toNat
      · rw [if_pos hlast, if_neg (by omega)]
        exact ⟨_, _, rfl, rfl, List.forall_mem_singleton.2 hwindow⟩
      · obtain ⟨slots, r, hloop, hsearch, hslots⟩ :=
          ih (b := b) (e := cur) (UInt64.lt_iff_toNat_lt.2 (by omega))
            (by omega) (fun k hk hke => hread k hk (by omega)) (by omega)
        rw [if_neg hlast, if_pos (by omega), hloop]
        refine ⟨_, r, rfl, hsearch, List.forall_mem_cons.2 ⟨hwindow, ?_⟩⟩
        intro k hk
        have hin := hslots k hk
        omega
    | gt =>
      simp only [sub_lt_one_iff hright]
      by_cases hlast : e.toNat = (cur + 1).toNat
      · rw [if_pos hlast, if_neg (by omega)]
        exact ⟨_, _, rfl, rfl, List.forall_mem_singleton.2 hwindow⟩
      · obtain ⟨slots, r, hloop, hsearch, hslots⟩ :=
          ih (b := cur + 1) (e := e) (UInt64.lt_iff_toNat_lt.2 (by omega)) he
            (fun k hk hke => hread k (by omega) hke) (by omega)
        rw [hsucc] at hsearch
        rw [if_neg hlast, if_pos (by omega), hloop]
        refine ⟨_, r, rfl, hsearch, List.forall_mem_cons.2 ⟨hwindow, ?_⟩⟩
        intro k hk
        have hin := hslots k hk
        omega

end Loop

section Find

variable {α : Type*} {cmp : α → Ordering} {tab : List α}

/-- The table is in the order of its keys: the key that is looked for is less
than all entries behind one that it is equal to, and greater than all before. -/
def Ordered (cmp : α → Ordering) (tab : List α) : Prop :=
  tab.Pairwise fun a a' =>
    (cmp a = .eq → cmp a' = .lt) ∧ (cmp a' = .eq → cmp a = .gt)

/-- An empty table has no slot to begin with. -/
theorem find_nil : find cmp [] = none := by
  rw [find, search]
  rfl

theorem find_isSome (htab : tab ≠ []) : (find cmp tab).isSome = true := by
  rw [find, Option.isSome_map]
  refine search_isSome (List.length_pos_iff.2 htab) fun k _ hk => ?_
  simp [List.getElem?_eq_getElem hk]

theorem find_sound {a : α} (h : find cmp tab = some (some a)) :
    a ∈ tab ∧ cmp a = .eq := by
  obtain ⟨r, hr, ha⟩ := Option.map_eq_some_iff.1 h
  obtain ⟨i, rfl, hi⟩ := Option.bind_eq_some_iff.1 ha
  have heq := search_sound hr
  rw [hi, Option.map_some, Option.some.injEq] at heq
  exact ⟨List.mem_of_getElem? hi, heq⟩

theorem find_complete (h : Ordered cmp tab) {a : α} (ha : a ∈ tab)
    (heq : cmp a = .eq) : find cmp tab = some (some a) := by
  obtain ⟨i, hi, rfl⟩ := List.getElem_of_mem ha
  have hcmp : ∀ k, 0 ≤ k → k < tab.length →
      tab[k]?.map cmp = some (compare i k) := by
    intro k _ hk
    rw [List.getElem?_eq_getElem hk, Option.map_some, Option.some.injEq]
    rcases Nat.lt_trichotomy i k with hlt | rfl | hgt
    · rw [Nat.compare_eq_lt.2 hlt]
      exact (List.pairwise_iff_getElem.1 h i k hi hk hlt).1 heq
    · rw [Nat.compare_eq_eq.2 rfl, heq]
    · rw [Nat.compare_eq_gt.2 hgt]
      exact (List.pairwise_iff_getElem.1 h k i hk hi hgt).2 heq
  rw [find, search_complete (Nat.zero_le i) hi hcmp]
  simp [hi]

end Find

end BinarySearch
