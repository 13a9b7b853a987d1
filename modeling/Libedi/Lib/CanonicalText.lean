import Mathlib.Data.List.Chain
import Libedi.Lib.EscapedText

/-!
# Texts that escaping may have written

`escape` and `unescape` of `EscapedText` are inverse to each other in one
direction only: an escaped text may have more escapes than it needs.  This
module is about the other direction.

* `marked` tells the escaped symbols of a text from the others.
* `escape_unescape`: a piece without a stop, whose escapes all stand in front of
  special symbols, is what escaping makes of its value.
* `intercalate_split`: joining undoes splitting.  `split_pieces` says what the
  pieces inherit, and `getLast?_split` when the last one is empty.
-/

namespace EscapedText

variable {α : Type*} {esc stop stop' : α → Bool}

/-- The symbols of a text, each with a flag that says that it is escaped. -/
def marked (esc : α → Bool) : Bool → List α → List (α × Bool)
  | _, [] => []
  | true, c :: cs => (c, true) :: marked esc false cs
  | false, c :: cs => (c, false) :: marked esc (esc c) cs

/-- Every escape stands in front of a special symbol. -/
abbrev Tight (esc special : α → Bool) (xs : List (α × Bool)) : Prop :=
  xs.IsChain fun x y => esc x.1 = true → x.2 = false → special y.1 = true

theorem head?_marked (pending : Bool) (l : List α) :
    (marked esc pending l).head? = l.head?.map (·, pending) := by
  cases l <;> cases pending <;> rfl

/-- Behind an unbroken piece nothing is pending. -/
theorem marked_append {pending : Bool} {p : List α}
    (h : Unbroken esc stop pending p) (l : List α) :
    marked esc pending (p ++ l) = marked esc pending p ++ marked esc false l := by
  fun_induction Unbroken esc stop pending p with
  | case1 pending =>
    subst h
    rfl
  | case2 d ds ih => simp [marked, ih h]
  | case3 d ds hesc ih => simp [marked, hesc, ih h]
  | case4 d ds hesc ih => simp [marked, hesc, ih h.2]

/-- A stop that ends a scan is not escaped. -/
theorem marked_of_scan {l p ds : List α} {d : α}
    (h : scan esc stop false l = (p, d :: ds)) :
    marked esc false l
      = marked esc false p ++ (d, false) :: marked esc false ds := by
  obtain ⟨hunb, -, hesc, happ⟩ := scan_eq_stop h
  rw [← happ, marked_append hunb, marked, hesc]

/-- A scan that reads to the end has met escaped stops only. -/
theorem marked_of_scan_end {pending : Bool} {l : List α}
    (h : (scan esc stop pending l).2 = []) {x : α × Bool}
    (hx : x ∈ marked esc pending l) (hflag : x.2 = false)
    (hesc : esc x.1 = false) : stop x.1 = false := by
  fun_induction scan esc stop pending l with
  | case1 pending => cases pending <;> simp [marked] at hx
  | case2 d ds ih =>
    rcases List.mem_cons.1 hx with rfl | hx
    · simp at hflag
    · exact ih h hx
  | case3 d ds hd ih =>
    rw [marked, hd] at hx
    rcases List.mem_cons.1 hx with rfl | hx
    · simp [hd] at hesc
    · exact ih h hx
  | case4 d ds hd hstop => simp at h
  | case5 d ds hd hstop ih =>
    rw [marked, eq_false_of_ne_true hd] at hx
    rcases List.mem_cons.1 hx with rfl | hx
    · exact eq_false_of_ne_true hstop
    · exact ih h hx

/-! ## Escaping undoes unescaping -/

theorem escape_unescape_pending {special : α → Bool} {k : α}
    (hk : ∀ c, esc c = true → c = k)
    (hspecial : ∀ c, special c = true → esc c = true ∨ stop c = true)
    {pending : Bool} {p : List α} (h : Unbroken esc stop pending p)
    (htight : Tight esc special (marked esc pending p))
    (hhead : pending = true → ∀ c ∈ p.head?, special c = true) :
    escape special k (unescape esc pending p)
      = (if pending then [k] else []) ++ p := by
  fun_induction Unbroken esc stop pending p with
  | case1 pending =>
    subst h
    rfl
  | case2 d ds ih =>
    have hd := hhead rfl d rfl
    rw [unescape, escape_cons, if_pos hd, ih h htight.tail (by simp)]
    simp
  | case3 d ds hd ih =>
    rw [marked, hd] at htight
    obtain ⟨hnext, htail⟩ := List.isChain_cons.1 htight
    rw [unescape, if_pos hd, ih h htail, hk d hd]
    · simp
    · intro _ c hc
      refine hnext (c, true) ?_ hd rfl
      rw [head?_marked, Option.mem_def.1 hc]
      rfl
  | case4 d ds hd ih =>
    have hd' := eq_false_of_ne_true hd
    have hplain : special d = false := by
      by_contra hne
      rcases hspecial d (eq_true_of_ne_false hne) with hcon | hcon
      · exact hd hcon
      · simp [h.1] at hcon
    rw [marked, hd'] at htight
    rw [unescape, if_neg hd, escape_cons_of_not_special hplain,
      ih h.2 htight.tail (by simp)]
    simp

/-- Adding the escapes undoes dropping them if no escape was idle. -/
theorem escape_unescape {special : α → Bool} {k : α}
    (hk : ∀ c, esc c = true → c = k)
    (hspecial : ∀ c, special c = true → esc c = true ∨ stop c = true)
    {p : List α} (h : Unbroken esc stop false p)
    (htight : Tight esc special (marked esc false p)) :
    escape special k (unescape esc false p) = p :=
  escape_unescape_pending hk hspecial h htight (by simp)

/-! ## Joining undoes splitting -/

theorem intercalate_split {c : α} (hstop : ∀ d, stop d = true → d = c)
    (pending : Bool) (l : List α) :
    [c].intercalate (split esc stop pending l) = l := by
  have hcons : ∀ (d : α) {ps : List (List α)}, ps ≠ [] →
      [c].intercalate (ps.modifyHead (d :: ·)) = d :: [c].intercalate ps := by
    intro d ps hps
    rcases ps with - | ⟨p, - | ⟨q, qs⟩⟩
    · exact absurd rfl hps
    · simp
    · rw [List.modifyHead_cons, List.intercalate_cons_cons,
        List.intercalate_cons_cons]
      rfl
  fun_induction split esc stop pending l with
  | case1 => simp
  | case2 d ds ih => rw [hcons d (split_ne_nil false ds), ih]
  | case3 d ds hd ih => rw [hcons d (split_ne_nil true ds), ih]
  | case4 d ds hd hsep ih =>
    rw [List.intercalate_cons_of_ne_nil (split_ne_nil false ds), ih, hstop d hsep]
    rfl
  | case5 d ds hd hsep ih => rw [hcons d (split_ne_nil false ds), ih]

/-- The pieces of an unbroken text are unbroken, also by the separator, and
their symbols are escaped exactly where they are in the text. -/
theorem split_pieces {pending : Bool} {l : List α}
    (h : Unbroken esc stop' pending l) :
    ∃ p ps, split esc stop pending l = p :: ps ∧
      (Unbroken esc (fun c => stop c || stop' c) pending p ∧
        marked esc pending p <+: marked esc pending l) ∧
      ∀ q ∈ ps, Unbroken esc (fun c => stop c || stop' c) false q ∧
        marked esc false q <:+: marked esc pending l := by
  fun_induction split esc stop pending l with
  | case1 pending => exact ⟨[], [], rfl, ⟨h, List.prefix_rfl⟩, by simp⟩
  | case2 d ds ih =>
    obtain ⟨p, ps, hsplit, ⟨hp, hpre⟩, hps⟩ := ih h
    refine ⟨d :: p, ps, by rw [hsplit]; rfl, ⟨hp, ?_⟩, fun q hq => ?_⟩
    · exact List.cons_prefix_cons.2 ⟨rfl, hpre⟩
    · exact ⟨(hps q hq).1, List.infix_cons (hps q hq).2⟩
  | case3 d ds hd ih =>
    rw [Unbroken, if_pos hd] at h
    obtain ⟨p, ps, hsplit, ⟨hp, hpre⟩, hps⟩ := ih h
    refine ⟨d :: p, ps, by rw [hsplit]; rfl, ⟨?_, ?_⟩, fun q hq => ?_⟩
    · rw [Unbroken, if_pos hd]
      exact hp
    · rw [marked, marked, hd]
      exact List.cons_prefix_cons.2 ⟨rfl, hpre⟩
    · rw [marked, hd]
      exact ⟨(hps q hq).1, List.infix_cons (hps q hq).2⟩
  | case4 d ds hd hsep ih =>
    rw [Unbroken, if_neg hd] at h
    obtain ⟨p, ps, hsplit, ⟨hp, hpre⟩, hps⟩ := ih h.2
    rw [marked, eq_false_of_ne_true hd]
    refine ⟨[], p :: ps, by rw [hsplit], ⟨rfl, List.nil_prefix⟩, ?_⟩
    intro q hq
    rcases List.mem_cons.1 hq with rfl | hq
    · exact ⟨hp, List.infix_cons hpre.isInfix⟩
    · exact ⟨(hps q hq).1, List.infix_cons (hps q hq).2⟩
  | case5 d ds hd hsep ih =>
    rw [Unbroken, if_neg hd] at h
    obtain ⟨p, ps, hsplit, ⟨hp, hpre⟩, hps⟩ := ih h.2
    rw [marked, eq_false_of_ne_true hd]
    refine ⟨d :: p, ps, by rw [hsplit]; rfl, ⟨?_, ?_⟩, fun q hq => ?_⟩
    · rw [Unbroken, if_neg hd]
      exact ⟨by simp [hsep, h.1], hp⟩
    · rw [marked, eq_false_of_ne_true hd]
      exact List.cons_prefix_cons.2 ⟨rfl, hpre⟩
    · exact ⟨(hps q hq).1, List.infix_cons (hps q hq).2⟩

theorem of_mem_split {l : List α} (h : Unbroken esc stop' false l)
    {p : List α} (hp : p ∈ split esc stop false l) :
    Unbroken esc (fun c => stop c || stop' c) false p ∧
      marked esc false p <:+: marked esc false l := by
  obtain ⟨q, qs, hsplit, hq, hqs⟩ := @split_pieces α esc stop stop' false l h
  rw [hsplit] at hp
  rcases List.mem_cons.1 hp with rfl | hp
  · exact ⟨hq.1, hq.2.isInfix⟩
  · exact hqs p hp

theorem intercalate_concat (c : α) (ps : List (List α)) (e : List α) :
    [c].intercalate (ps ++ [e]) = ps.flatMap (· ++ [c]) ++ e := by
  induction ps with
  | nil => simp
  | cons p ps ih =>
    rw [List.cons_append, List.intercalate_cons_of_ne_nil (by simp), ih]
    simp

/-- The last piece ends as the text does. -/
theorem marked_last_piece {c : α} (hstop : ∀ d, stop d = true → d = c)
    (hc : esc c = false) {l : List α} (h : Unbroken esc stop' false l)
    {ps : List (List α)} {e : List α}
    (hsplit : split esc stop false l = ps ++ [e]) :
    marked esc false e <:+ marked esc false l := by
  have hpieces : ∀ p ∈ ps, Unbroken esc (fun _ => false) false (p ++ [c]) := by
    intro p hp
    have hmem : p ∈ split esc stop false l := by simp [hsplit, hp]
    have hpiece : Unbroken esc (fun _ => false) false p :=
      (of_mem_split h hmem).1.mono (by simp)
    exact hpiece.append (.cons rfl hc rfl)
  have hfront : Unbroken esc (fun _ => false) false
      (ps.flatMap (· ++ [c])) := by
    clear hsplit
    induction ps with
    | nil => rfl
    | cons p ps ih =>
      have hps := ih fun q hq => hpieces q (List.mem_cons_of_mem p hq)
      exact (hpieces p List.mem_cons_self).append hps
  have hl : [c].intercalate (split esc stop false l) = l :=
    intercalate_split hstop false l
  rw [hsplit, intercalate_concat] at hl
  rw [← hl, marked_append hfront]
  exact List.suffix_append _ _

/-- The last piece is empty only if the text is, or ends in a separator. -/
theorem getLast?_split {pending : Bool} {l : List α}
    (h : (split esc stop pending l).getLast? = some []) :
    l = [] ∨ ∃ c, stop c = true ∧
      (marked esc pending l).getLast? = some (c, false) := by
  have htail : ∀ {d : α} {pending : Bool} {ds : List α},
      ((split esc stop pending ds).modifyHead (d :: ·)).getLast? = some [] →
      (split esc stop pending ds).getLast? = some [] ∧ ds ≠ [] := by
    intro d pending ds hlast
    cases hds : split esc stop pending ds with
    | nil => simp [hds] at hlast
    | cons p ps =>
      cases ps with
      | nil => simp [hds] at hlast
      | cons q qs =>
        constructor
        · simpa [hds] using hlast
        · rintro rfl
          simp [split] at hds
  have hcons : ∀ {x : α × Bool} {xs : List (α × Bool)} {c : α},
      xs.getLast? = some (c, false) → (x :: xs).getLast? = some (c, false) := by
    intro x xs c hxs
    simp [List.getLast?_cons, hxs]
  fun_induction split esc stop pending l with
  | case1 => exact Or.inl rfl
  | case2 d ds ih =>
    obtain ⟨hlast, hne⟩ := htail h
    obtain ⟨c, hc, hmarked⟩ := (ih hlast).resolve_left hne
    exact Or.inr ⟨c, hc, hcons hmarked⟩
  | case3 d ds hd ih =>
    obtain ⟨hlast, hne⟩ := htail h
    obtain ⟨c, hc, hmarked⟩ := (ih hlast).resolve_left hne
    rw [marked, hd]
    exact Or.inr ⟨c, hc, hcons hmarked⟩
  | case4 d ds hd hsep ih =>
    rw [List.getLast?_cons_of_ne_nil (split_ne_nil false ds)] at h
    rw [marked, eq_false_of_ne_true hd]
    right
    rcases ih h with rfl | ⟨c, hc, hmarked⟩
    · exact ⟨d, hsep, rfl⟩
    · exact ⟨c, hc, hcons hmarked⟩
  | case5 d ds hd hsep ih =>
    obtain ⟨hlast, hne⟩ := htail h
    obtain ⟨c, hc, hmarked⟩ := (ih hlast).resolve_left hne
    rw [marked, eq_false_of_ne_true hd]
    exact Or.inr ⟨c, hc, hcons hmarked⟩

end EscapedText
