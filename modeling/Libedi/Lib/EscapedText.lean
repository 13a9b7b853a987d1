import Mathlib.Data.List.Basic

/-!
# Escaped, delimited text

A text over an alphabet `α` is cut at *stops*.  An *escape* symbol takes the
special meaning away from the symbol after it, so a stop counts only where no
escape is pending.  The alphabet, the escape and the stops are parameters:
`esc` and `stop` are Boolean predicates, and a text without escapes is the case
`esc = fun _ => false`.

There are four operations.

* `scan` reads up to the first unescaped stop and leaves the stop in place.
* `split` cuts a text at all of its unescaped separators.
* `unescape` drops the escapes.  A dangling escape, one with nothing after it,
  is dropped too.
* `escape` puts an escape in front of every special symbol.

Each of them walks the text with one bit of state, `pending`, which is `true`
right after an unescaped escape symbol.

`Unbroken` says that a piece of text has no unescaped stop and no dangling
escape.  It is the notion that the other lemmas hang on: a piece that `scan`
has cut off is `Unbroken` (`scan_unbroken`), so is an escaped value
(`unbroken_escape`), and behind an `Unbroken` piece a scan or a split carries on
as if it had just started (`scan_append`, `split_append`).
-/

namespace EscapedText

variable {α : Type*}

section Definitions

variable (esc stop : α → Bool)

/-- Read up to the first unescaped stop.  The first component is what was read,
the second is the rest, which starts with the stop or is empty. -/
def scan : Bool → List α → List α × List α
  | _, [] => ([], [])
  | true, c :: cs => Prod.map (c :: ·) id (scan false cs)
  | false, c :: cs =>
    if esc c then Prod.map (c :: ·) id (scan true cs)
    else if stop c then ([], c :: cs)
    else Prod.map (c :: ·) id (scan false cs)

/-- Cut a text at its unescaped separators.  A text with `n` of them has
`n + 1` pieces, which keep their escapes. -/
def split : Bool → List α → List (List α)
  | _, [] => [[]]
  | true, c :: cs => (split false cs).modifyHead (c :: ·)
  | false, c :: cs =>
    if esc c then (split true cs).modifyHead (c :: ·)
    else if stop c then [] :: split false cs
    else (split false cs).modifyHead (c :: ·)

/-- Drop the escapes and keep what they escape. -/
def unescape : Bool → List α → List α
  | _, [] => []
  | true, c :: cs => c :: unescape false cs
  | false, c :: cs =>
    if esc c then unescape true cs else c :: unescape false cs

/-- No unescaped stop, and no escape pending at the end. -/
def Unbroken : Bool → List α → Prop
  | pending, [] => pending = false
  | true, _ :: cs => Unbroken false cs
  | false, c :: cs =>
    if esc c then Unbroken true cs else stop c = false ∧ Unbroken false cs

/-- Put `k` in front of every special symbol. -/
def escape (special : α → Bool) (k : α) (v : List α) : List α :=
  v.flatMap fun c => if special c then [k, c] else [c]

end Definitions

variable {esc stop sep : α → Bool}

/-! ## Scanning -/

@[simp] theorem scan_nil (pending : Bool) :
    scan esc stop pending [] = ([], []) := by
  cases pending <;> rfl

/-- A scan loses nothing. -/
theorem scan_fst_append_snd (esc stop : α → Bool) (pending : Bool)
    (l : List α) :
    (scan esc stop pending l).1 ++ (scan esc stop pending l).2 = l := by
  fun_induction scan esc stop pending l <;> simp_all

theorem scan_snd_length_le (esc stop : α → Bool) (pending : Bool)
    (l : List α) : (scan esc stop pending l).2.length ≤ l.length := by
  have h := congrArg List.length (scan_fst_append_snd esc stop pending l)
  rw [List.length_append] at h
  omega

/-- A scan ends at an unescaped stop or at the end of the text. -/
theorem scan_snd_cons {pending : Bool} {l cs : List α} {c : α}
    (h : (scan esc stop pending l).2 = c :: cs) :
    stop c = true ∧ esc c = false := by
  fun_induction scan esc stop pending l with
  | case1 => simp at h
  | case2 d ds ih => exact ih h
  | case3 d ds hesc ih => exact ih h
  | case4 d ds hesc hstop =>
    obtain ⟨rfl, rfl⟩ : d = c ∧ ds = cs := by simpa using h
    exact ⟨hstop, by simpa using hesc⟩
  | case5 d ds hesc hstop ih => exact ih h

/-- What a scan cuts off in front of a stop is unbroken. -/
theorem scan_unbroken {pending : Bool} {l : List α}
    (h : (scan esc stop pending l).2 ≠ []) :
    Unbroken esc stop pending (scan esc stop pending l).1 := by
  fun_induction scan esc stop pending l with
  | case1 => simp at h
  | case2 d ds ih => exact ih h
  | case3 d ds hesc ih =>
    simp only [Prod.map_fst, Unbroken, if_pos hesc]
    exact ih h
  | case4 d ds hesc hstop => rfl
  | case5 d ds hesc hstop ih =>
    simp only [Prod.map_fst, Unbroken, if_neg hesc]
    exact ⟨by simpa using hstop, ih h⟩

/-- What a scan that ends at a stop says about the text. -/
theorem scan_eq_stop {pending : Bool} {l p ds : List α} {d : α}
    (h : scan esc stop pending l = (p, d :: ds)) :
    Unbroken esc stop pending p ∧ stop d = true ∧ esc d = false ∧
      p ++ d :: ds = l := by
  have hne : (scan esc stop pending l).2 ≠ [] := by simp [h]
  have hunbroken := scan_unbroken hne
  have happend := scan_fst_append_snd esc stop pending l
  obtain ⟨hstop, hesc⟩ := scan_snd_cons (congrArg Prod.snd h)
  rw [h] at hunbroken happend
  exact ⟨hunbroken, hstop, hesc, happend⟩

/-- A scan that meets no stop reads the whole text. -/
theorem scan_eq_end {pending : Bool} {l p : List α}
    (h : scan esc stop pending l = (p, [])) : p = l := by
  have happend := scan_fst_append_snd esc stop pending l
  rw [h] at happend
  simpa using happend

/-- Behind an unbroken piece the scan starts afresh. -/
theorem scan_append {pending : Bool} {p : List α}
    (h : Unbroken esc stop pending p) (l : List α) :
    scan esc stop pending (p ++ l)
      = (p ++ (scan esc stop false l).1, (scan esc stop false l).2) := by
  fun_induction Unbroken esc stop pending p with
  | case1 pending =>
    subst h
    rfl
  | case2 d ds ih => simp [scan, ih h]
  | case3 d ds hesc ih => simp [scan, hesc, ih h]
  | case4 d ds hesc ih => simp [scan, hesc, h.1, ih h.2]

/-- A scan reads an unbroken piece to its end. -/
theorem Unbroken.scan_eq {pending : Bool} {p : List α}
    (h : Unbroken esc stop pending p) :
    scan esc stop pending p = (p, []) := by
  simpa using scan_append h []

/-- A scan of an unbroken piece stops at the stop that follows it. -/
theorem scan_append_stop {p : List α} (h : Unbroken esc stop false p)
    {c : α} (hstop : stop c = true) (hesc : esc c = false) (l : List α) :
    scan esc stop false (p ++ c :: l) = (p, c :: l) := by
  rw [scan_append h]
  simp [scan, hstop, hesc]

/-- A scan goes on behind any other symbol. -/
theorem scan_append_other {p : List α} (h : Unbroken esc stop false p)
    {c : α} (hstop : stop c = false) (hesc : esc c = false) (l : List α) :
    scan esc stop false (p ++ c :: l)
      = (p ++ c :: (scan esc stop false l).1, (scan esc stop false l).2) := by
  rw [scan_append h]
  simp [scan, hstop, hesc]

/-! ## Another alphabet -/

section Map

variable {β : Type*} {f : α → β} {esc' stop' : β → Bool}
  (hesc : ∀ c, esc' (f c) = esc c)
include hesc

theorem scan_map (hstop : ∀ c, stop' (f c) = stop c) (pending : Bool)
    (l : List α) : scan esc' stop' pending (l.map f)
      = Prod.map (List.map f) (List.map f) (scan esc stop pending l) := by
  fun_induction scan esc stop pending l with
  | case1 => rfl
  | case2 c cs ih => rw [List.map_cons, scan, ih]; rfl
  | case3 c cs hc ih =>
    rw [List.map_cons, scan, hesc, if_pos hc, ih]
    rfl
  | case4 c cs hc hs =>
    rw [List.map_cons, scan, hesc, hstop, if_neg hc, if_pos hs]
    rfl
  | case5 c cs hc hs ih =>
    rw [List.map_cons, scan, hesc, hstop, if_neg hc, if_neg hs, ih]
    rfl

theorem unescape_map (pending : Bool) (l : List α) :
    unescape esc' pending (l.map f) = (unescape esc pending l).map f := by
  fun_induction unescape esc pending l with
  | case1 => simp [unescape]
  | case2 c cs ih => rw [List.map_cons, unescape, ih]; rfl
  | case3 c cs hc ih => rw [List.map_cons, unescape, hesc, if_pos hc, ih]
  | case4 c cs hc ih =>
    rw [List.map_cons, unescape, hesc, if_neg hc, ih]
    rfl

end Map

/-! ## Several symbols for one -/

/-- Each symbol is written with symbols of the alphabet.  The special ones stay as
they are, and no other one is written with a special one. -/
structure Spells (f : α → List α) (special : α → Bool) : Prop where
  fixed : ∀ c, special c = true → f c = [c]
  ordinary : ∀ c, special c = false → f c ≠ [] ∧ ∀ d ∈ f c, special d = false

section Spells

variable {f : α → List α}

/-- Fewer symbols may be special. -/
theorem Spells.mono {special special' : α → Bool} (h : Spells f special)
    (hle : ∀ c, special' c = true → special c = true) : Spells f special' where
  fixed c hc := h.fixed c (hle c hc)
  ordinary c hc := by
    cases hs : special c with
    | true =>
      rw [h.fixed c hs]
      exact ⟨by simp, fun d hd => by rwa [List.mem_singleton.1 hd]⟩
    | false =>
      refine ⟨(h.ordinary c hs).1, fun d hd => ?_⟩
      cases hd' : special' d with
      | false => rfl
      | true =>
        have hnot := (h.ordinary c hs).2 d hd
        rw [hle d hd'] at hnot
        cases hnot

/-- Ordinary symbols are read on. -/
theorem scan_ordinary {l : List α}
    (hl : ∀ d ∈ l, esc d = false ∧ stop d = false) (m : List α) :
    scan esc stop false (l ++ m)
      = (l ++ (scan esc stop false m).1, (scan esc stop false m).2) := by
  induction l with
  | nil => rfl
  | cons d l ih =>
    rw [List.forall_mem_cons] at hl
    rw [List.cons_append, scan, if_neg (by simp [hl.1.1]), if_neg (by simp [hl.1.2]),
      ih hl.2]
    rfl

theorem unescape_ordinary {l : List α} (hl : ∀ d ∈ l, esc d = false)
    (m : List α) :
    unescape esc false (l ++ m) = l ++ unescape esc false m := by
  induction l with
  | nil => rfl
  | cons d l ih =>
    rw [List.forall_mem_cons] at hl
    rw [List.cons_append, unescape, if_neg (by simp [hl.1]), ih hl.2]
    rfl

/-- What a symbol is written with, behind an escape: its first symbol is escaped, and
the others are ordinary. -/
theorem Spells.cons {special : α → Bool} (h : Spells f special) (c : α) :
    ∃ d ds, f c = d :: ds ∧ ∀ x ∈ ds, special x = false := by
  cases hc : special c with
  | true => exact ⟨c, [], h.fixed c hc, fun x hx => nomatch hx⟩
  | false =>
    obtain ⟨hne, hall⟩ := h.ordinary c hc
    obtain ⟨d, ds, hd⟩ := List.exists_cons_of_ne_nil hne
    refine ⟨d, ds, hd, fun x hx => hall x ?_⟩
    rw [hd]
    exact List.mem_cons_of_mem d hx

theorem scan_flatMap (h : Spells f fun c => esc c || stop c) (pending : Bool)
    (l : List α) :
    scan esc stop pending (l.flatMap f)
      = Prod.map (List.flatMap f) (List.flatMap f)
          (scan esc stop pending l) := by
  have hboth : ∀ {d : α}, (esc d || stop d) = false →
      esc d = false ∧ stop d = false := fun hd => by simpa using hd
  fun_induction scan esc stop pending l with
  | case1 => simp
  | case2 c cs ih =>
    obtain ⟨d, ds, hd, hds⟩ := h.cons c
    rw [List.flatMap_cons, hd, List.cons_append, scan,
      scan_ordinary fun x hx => hboth (hds x hx), ih]
    simp [Prod.map, hd]
  | case3 c cs hc ih =>
    have hfix := h.fixed c (by simp [hc])
    rw [List.flatMap_cons, hfix, List.singleton_append, scan, if_pos hc, ih]
    simp [Prod.map, hfix]
  | case4 c cs hc hs =>
    have hfix := h.fixed c (by simp [hs])
    rw [List.flatMap_cons, hfix, List.singleton_append, scan, if_neg hc, if_pos hs]
    simp [Prod.map, hfix]
  | case5 c cs hc hs ih =>
    have hall := (h.ordinary c (by simp [hc, hs])).2
    rw [List.flatMap_cons, scan_ordinary fun x hx => hboth (hall x hx), ih]
    simp [Prod.map]

theorem unescape_flatMap (h : Spells f esc) (pending : Bool) (l : List α) :
    unescape esc pending (l.flatMap f) = (unescape esc pending l).flatMap f := by
  fun_induction unescape esc pending l with
  | case1 => simp [unescape]
  | case2 c cs ih =>
    obtain ⟨d, ds, hd, hds⟩ := h.cons c
    rw [List.flatMap_cons, hd, List.cons_append, unescape,
      unescape_ordinary hds, ih, List.flatMap_cons, hd, List.cons_append]
  | case3 c cs hc ih =>
    rw [List.flatMap_cons, h.fixed c hc, List.singleton_append, unescape,
      if_pos hc, ih]
  | case4 c cs hc ih =>
    have hall := (h.ordinary c (by simpa using hc)).2
    rw [List.flatMap_cons, unescape_ordinary hall, ih, List.flatMap_cons]

end Spells

/-! ## Unbroken pieces -/

theorem Unbroken.mono {stop' : α → Bool} {pending : Bool} {p : List α}
    (h : Unbroken esc stop pending p)
    (hle : ∀ c, stop' c = true → stop c = true) :
    Unbroken esc stop' pending p := by
  fun_induction Unbroken esc stop pending p with
  | case1 pending =>
    subst h
    rfl
  | case2 d ds ih => exact ih h
  | case3 d ds hesc ih =>
    rw [Unbroken, if_pos hesc]
    exact ih h
  | case4 d ds hesc ih =>
    rw [Unbroken, if_neg hesc]
    refine ⟨?_, ih h.2⟩
    by_contra hne
    rw [Bool.not_eq_false] at hne
    exact absurd (hle d hne) (by simp [h.1])

theorem split_ne_nil (pending : Bool) (l : List α) :
    split esc stop pending l ≠ [] := by
  fun_induction split esc stop pending l with
  | case1 => simp
  | case2 c cs ih => simpa using ih
  | case3 c cs hesc ih => simpa using ih
  | case4 c cs hesc hstop ih => simp
  | case5 c cs hesc hstop ih => simpa using ih

/-- Behind an unbroken piece the split starts afresh. -/
theorem split_append {pending : Bool} {p : List α}
    (h : Unbroken esc stop pending p) (l : List α) :
    split esc stop pending (p ++ l)
      = (split esc stop false l).modifyHead (p ++ ·) := by
  fun_induction Unbroken esc stop pending p with
  | case1 pending =>
    subst h
    cases hs : split esc stop false l <;> simp [hs]
  | case2 d ds ih =>
    rw [List.cons_append, split, ih h]
    cases split esc stop false l <;> rfl
  | case3 d ds hesc ih =>
    rw [List.cons_append, split, if_pos hesc, ih h]
    cases split esc stop false l <;> rfl
  | case4 d ds hesc ih =>
    rw [List.cons_append, split, if_neg hesc, if_neg (by simp [h.1]), ih h.2]
    cases split esc stop false l <;> rfl

/-- A separator behind an unbroken piece ends it. -/
theorem split_append_sep {p : List α} (h : Unbroken esc stop false p) {c : α}
    (hstop : stop c = true) (hesc : esc c = false) (l : List α) :
    split esc stop false (p ++ c :: l) = p :: split esc stop false l := by
  rw [split_append h]
  simp [split, hstop, hesc]

/-- Any other symbol behind an unbroken piece is a part of it. -/
theorem split_append_other {p : List α} (h : Unbroken esc stop false p) {c : α}
    (hstop : stop c = false) (hesc : esc c = false) (l : List α) :
    split esc stop false (p ++ c :: l)
      = (split esc stop false l).modifyHead fun e => p ++ c :: e := by
  rw [split_append h]
  simp [split, hstop, hesc, Function.comp_def]

/-- A text in which a scan meets no stop is one piece. -/
theorem split_of_scan_snd_eq_nil {pending : Bool} {l : List α}
    (h : (scan esc stop pending l).2 = []) :
    split esc stop pending l = [l] := by
  fun_induction scan esc stop pending l with
  | case1 pending => cases pending <;> rfl
  | case2 d ds ih => simp [split, ih h]
  | case3 d ds hesc ih => simp [split, hesc, ih h]
  | case4 d ds hesc hstop => simp at h
  | case5 d ds hesc hstop ih => simp [split, hesc, hstop, ih h]

/-- A scan with fewer stops also reads to the end. -/
theorem scan_snd_eq_nil_mono {stop' : α → Bool} {pending : Bool} {l : List α}
    (h : (scan esc stop pending l).2 = [])
    (hle : ∀ c, stop' c = true → stop c = true) :
    scan esc stop' pending l = (l, []) := by
  fun_induction scan esc stop pending l with
  | case1 pending => simp
  | case2 d ds ih => simp [scan, ih h]
  | case3 d ds hesc ih => simp [scan, hesc, ih h]
  | case4 d ds hesc hstop => simp at h
  | case5 d ds hesc hstop ih =>
    have hstop' : stop' d = false := by
      by_contra hne
      exact hstop (hle d (by simpa using hne))
    simp [scan, hesc, hstop', ih h]

/-! ## Joining pieces -/

theorem Unbroken.append {p q : List α} {pending : Bool}
    (hp : Unbroken esc stop pending p) (hq : Unbroken esc stop false q) :
    Unbroken esc stop pending (p ++ q) := by
  fun_induction Unbroken esc stop pending p with
  | case1 pending =>
    subst hp
    exact hq
  | case2 d ds ih => exact ih hp
  | case3 d ds hesc ih =>
    rw [List.cons_append, Unbroken, if_pos hesc]
    exact ih hp
  | case4 d ds hesc ih =>
    rw [List.cons_append, Unbroken, if_neg hesc]
    exact ⟨hp.1, ih hp.2⟩

/-- An ordinary symbol in front of an unbroken piece. -/
theorem Unbroken.cons {c : α} {p : List α} (hstop : stop c = false)
    (hesc : esc c = false) (hp : Unbroken esc stop false p) :
    Unbroken esc stop false (c :: p) := by
  rw [Unbroken, if_neg (by simp [hesc])]
  exact ⟨hstop, hp⟩

/-- Pieces that are joined by another symbol stay unbroken. -/
theorem unbroken_intercalate {c : α} {ps : List (List α)}
    (hstop : stop c = false) (hesc : esc c = false)
    (h : ∀ p ∈ ps, Unbroken esc stop false p) :
    Unbroken esc stop false ([c].intercalate ps) := by
  induction ps with
  | nil => rfl
  | cons p ps ih =>
    have hp := h p List.mem_cons_self
    have hps := ih fun q hq => h q (List.mem_cons_of_mem p hq)
    cases ps with
    | nil => simpa using hp
    | cons q qs =>
      rw [List.intercalate_cons_cons, List.append_assoc]
      exact hp.append (hps.cons hstop hesc)

/-- Splitting gives back the pieces that were joined. -/
theorem split_intercalate {c : α} {ps : List (List α)} (hne : ps ≠ [])
    (hstop : stop c = true) (hesc : esc c = false)
    (h : ∀ p ∈ ps, Unbroken esc stop false p) :
    split esc stop false ([c].intercalate ps) = ps := by
  induction ps with
  | nil => exact absurd rfl hne
  | cons p ps ih =>
    have hp := h p List.mem_cons_self
    cases ps with
    | nil =>
      rw [List.intercalate_singleton]
      exact split_of_scan_snd_eq_nil (congrArg Prod.snd hp.scan_eq)
    | cons q qs =>
      have hps := ih (by simp) fun r hr => h r (List.mem_cons_of_mem p hr)
      rw [List.intercalate_cons_cons, List.append_assoc, List.singleton_append,
        split_append_sep hp hstop hesc, hps]

/-! ## Texts without an escape -/

section NoEscape

variable (hesc : ∀ c, esc c = false)
include hesc

theorem unbroken_of_forall {l : List α} (h : ∀ c ∈ l, stop c = false) :
    Unbroken esc stop false l := by
  induction l with
  | nil => rfl
  | cons c l ih =>
    have hl := ih fun d hd => h d (List.mem_cons_of_mem c hd)
    exact hl.cons (h c List.mem_cons_self) (hesc c)

/-- Whatever follows a text goes on in its last piece. -/
theorem exists_split_append (stop : α → Bool) (l : List α) :
    ∃ ps p, split esc stop false l = ps ++ [p] ∧ ∀ r,
      split esc stop false (l ++ r)
        = ps ++ (split esc stop false r).modifyHead (p ++ ·) := by
  induction l with
  | nil =>
    refine ⟨[], [], rfl, fun r => ?_⟩
    cases hr : split esc stop false r <;> simp [hr]
  | cons c l ih =>
    obtain ⟨ps, p, hl, happ⟩ := ih
    by_cases hstop : stop c = true
    · refine ⟨[] :: ps, p, ?_, fun r => ?_⟩
      · simp [split, hesc, hstop, hl]
      · simp [split, hesc, hstop, happ]
    · cases ps with
      | nil =>
        refine ⟨[], c :: p, ?_, fun r => ?_⟩
        · simp [split, hesc, hstop, hl]
        · simp [split, hesc, hstop, happ, Function.comp_def]
      | cons q qs =>
        refine ⟨(c :: q) :: qs, p, ?_, fun r => ?_⟩
        · simp [split, hesc, hstop, hl]
        · simp [split, hesc, hstop, happ]

/-- Joining the pieces of a text with another separator changes the separators
and nothing else. -/
theorem intercalate_map_split [BEq α] [LawfulBEq α] (c c' : α) (f : α → α)
    (l : List α) :
    [c'].intercalate ((split esc (· == c) false l).map (List.map f))
      = l.map fun b => if b == c then c' else f b := by
  induction l with
  | nil => simp [split]
  | cons b l ih =>
    have hne : split esc (· == c) false l ≠ [] := split_ne_nil false l
    obtain ⟨p, ps, hps⟩ := List.exists_cons_of_ne_nil hne
    rw [hps] at ih
    by_cases hb : (b == c) = true
    · simp [split, hesc, hb, hps, ← ih]
    · cases ps with
      | nil => simp_all [split]
      | cons q qs => simp_all [split]

end NoEscape

/-! ## Dropping and adding escapes -/

@[simp] theorem unescape_nil (pending : Bool) :
    unescape esc pending [] = [] := by
  cases pending <;> rfl

/-- Without an escape symbol nothing is dropped. -/
theorem unescape_eq_self (hesc : ∀ c, esc c = false) (l : List α) :
    unescape esc false l = l := by
  induction l with
  | nil => rfl
  | cons c cs ih => simp [unescape, hesc, ih]

theorem mem_of_mem_unescape {pending : Bool} {l : List α} {c : α}
    (h : c ∈ unescape esc pending l) : c ∈ l := by
  fun_induction unescape esc pending l with
  | case1 => simp at h
  | case2 d ds ih =>
    rcases List.mem_cons.1 h with rfl | h
    · exact List.mem_cons_self
    · exact List.mem_cons_of_mem d (ih h)
  | case3 d ds hesc ih => exact List.mem_cons_of_mem d (ih h)
  | case4 d ds hesc ih =>
    rcases List.mem_cons.1 h with rfl | h
    · exact List.mem_cons_self
    · exact List.mem_cons_of_mem d (ih h)

section Escape

variable {special : α → Bool} {k : α}

@[simp] theorem escape_nil : escape special k [] = [] := rfl

theorem escape_cons (c : α) (v : List α) :
    escape special k (c :: v)
      = (if special c then [k, c] else [c]) ++ escape special k v := rfl

theorem escape_eq_nil {v : List α} : escape special k v = [] ↔ v = [] := by
  cases v with
  | nil => simp
  | cons c v =>
    rw [escape_cons]
    split <;> simp

/-- The first symbol of an escaped text is the first symbol of the text, or the
escape in front of it. -/
theorem escape_cons_of_not_special {c : α} (h : special c = false)
    (v : List α) : escape special k (c :: v) = c :: escape special k v := by
  simp [escape_cons, h]

/-- A text without special symbols is not changed. -/
theorem escape_eq_self {v : List α} (h : ∀ c ∈ v, special c = false) :
    escape special k v = v := by
  induction v with
  | nil => rfl
  | cons c v ih =>
    rw [escape_cons_of_not_special (h c (by simp)),
      ih fun d hd => h d (List.mem_cons_of_mem c hd)]

theorem mem_escape {v : List α} {c : α} (h : c ∈ escape special k v) :
    c = k ∨ c ∈ v := by
  obtain ⟨d, hd, hc⟩ := List.mem_flatMap.1 h
  split at hc
  · rcases List.mem_cons.1 hc with rfl | hc
    · exact Or.inl rfl
    · exact Or.inr (by simpa [List.mem_singleton.1 hc] using hd)
  · exact Or.inr (by simpa [List.mem_singleton.1 hc] using hd)

/-- An escaped text hides every stop, as soon as the stops and the escapes are
special. -/
theorem unbroken_escape (hk : esc k = true)
    (hesc : ∀ c, esc c = true → special c = true)
    (hstop : ∀ c, stop c = true → special c = true) (v : List α) :
    Unbroken esc stop false (escape special k v) := by
  induction v with
  | nil => rfl
  | cons c v ih =>
    by_cases hc : special c = true
    · simpa [escape_cons, hc, Unbroken, hk] using ih
    · have hec : esc c = false := by
        by_contra hne
        exact hc (hesc c (by simpa using hne))
      have hsc : stop c = false := by
        by_contra hne
        exact hc (hstop c (by simpa using hne))
      simpa [escape_cons, hc, Unbroken, hec, hsc] using ih

/-- Dropping the escapes undoes adding them. -/
theorem unescape_escape (hk : esc k = true)
    (hesc : ∀ c, esc c = true → special c = true) (v : List α) :
    unescape esc false (escape special k v) = v := by
  induction v with
  | nil => rfl
  | cons c v ih =>
    by_cases hc : special c = true
    · simp [escape_cons, hc, unescape, hk, ih]
    · have hec : esc c = false := by
        by_contra hne
        exact hc (hesc c (by simpa using hne))
      simp [escape_cons, hc, unescape, hec, ih]

end Escape

end EscapedText
