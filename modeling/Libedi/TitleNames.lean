import Libedi.Generator

/-!
# Titles as names of tags

`make_title2` makes a name of a title, which the converter puts into its tags as it
is.  The steps keep the first character of the title that may stand in a name.  So
the name starts with that character, be it a digit, and it is empty if there is
none.
-/

namespace Libedi

/-- `[0-9]`. -/
def isDigit (c : UInt8) : Bool := '0'.toUInt8 ≤ c ∧ c ≤ '9'.toUInt8

/-- A name that may stand behind the prefix of a tag. -/
structure LocalName (s : Bytes) : Prop where
  words : ∀ c ∈ s, isWord c = true
  start : ∃ c ∈ s.head?, isDigit c = false

/-! ## The first character -/

/-- A capital letter becomes a small one. -/
theorem lc_letter {c : UInt8} (h : 'A'.toUInt8 ≤ c ∧ c ≤ 'Z'.toUInt8) :
    'a'.toUInt8 ≤ c + 32 ∧ c + 32 ≤ 'z'.toUInt8 := by
  simp only [UInt8.le_iff_toNat_le, UInt8.toNat_add] at h ⊢
  have hlow : 65 ≤ c.toNat ∧ c.toNat ≤ 90 := h
  have hadd : (c.toNat + (32 : UInt8).toNat) % 2 ^ 8 = c.toNat + 32 := by
    show (c.toNat + 32) % 256 = _
    omega
  rw [hadd]
  show 97 ≤ c.toNat + 32 ∧ c.toNat + 32 ≤ 122
  omega

theorem isWord_lc (c : UInt8) :
    isWord (if 'A'.toUInt8 ≤ c ∧ c ≤ 'Z'.toUInt8 then c + 32 else c)
      = isWord c := by
  split
  · next h => simp [isWord, isKeyByte, h, lc_letter h]
  · rfl

theorem isDigit_lc (c : UInt8) :
    isDigit (if 'A'.toUInt8 ≤ c ∧ c ≤ 'Z'.toUInt8 then c + 32 else c)
      = isDigit c := by
  split
  · next h =>
    have hno : ∀ {d : UInt8}, 'A'.toUInt8 ≤ d → isDigit d = false := by
      intro d hd
      have hnine : ¬ d ≤ '9'.toUInt8 := by
        rw [UInt8.le_iff_toNat_le] at hd ⊢
        exact Nat.not_le.2 (Nat.lt_of_lt_of_le (by decide) hd)
      simp [isDigit, hnine]
    rw [hno h.1, hno (UInt8.le_trans (by decide) (lc_letter h).1)]
  · rfl

/-- The end of a string that starts with a word is cut off behind the word. -/
theorem rdropWhile_words {c : UInt8} (hc : isWord c = true) (s : Bytes) :
    ∃ s', (c :: s).rdropWhile (!isWord ·) = c :: s' := by
  have hstart := List.rdropWhile_prefix (!isWord ·) (l := c :: s)
  cases hrest : (c :: s).rdropWhile (!isWord ·) with
  | nil =>
    have hnone := List.rdropWhile_eq_nil_iff.1 hrest c List.mem_cons_self
    simp [hc] at hnone
  | cons d s' =>
    rw [hrest, List.cons_prefix_cons] at hstart
    exact ⟨s', by rw [hstart.1]⟩

theorem cutCoded_words {c : UInt8} (hc : isWord c = true) (s : Bytes) :
    cutCoded (c :: s) = c :: cutCoded s := by
  have hno : codedHere (c :: s) = false := by
    have hcomma : c ≠ ','.toUInt8 := by
      rintro rfl
      exact absurd hc (by decide)
    simp [codedHere, hcomma]
  rw [cutCoded, if_neg (by simp [hno])]

/-- The title in words starts with the first character of the title that is a
letter, a digit or an underscore. -/
theorem head?_makeTitle2 (title1 : Bytes) :
    (makeTitle2 title1).head? = (lc title1).find? isWord := by
  have hquote : (lc title1).find? isWord
      = ((lc title1).filter (· ≠ '\''.toUInt8)).find? isWord := by
    rw [List.find?_filter]
    congr 1
    funext c
    by_cases hc : c = '\''.toUInt8
    · rw [hc]
      rfl
    · simp [hc]
  rw [hquote, makeTitle2]
  generalize (lc title1).filter (· ≠ '\''.toUInt8) = s
  rw [List.find?_eq_head?_dropWhile_not]
  cases hs : s.dropWhile (!isWord ·) with
  | nil => rfl
  | cons c s' =>
    have hc : isWord c = true := by
      have hhead := List.head?_dropWhile_not (!isWord ·) s
      simpa [hs] using hhead
    obtain ⟨t, ht⟩ := rdropWhile_words hc s'
    simp only [ht, cutCoded_words hc, joinWords, if_pos hc, List.head?_cons]

/-- The title in words is a name exactly if the first letter, digit or underscore
of the title is not a digit, and there is one. -/
theorem makeTitle2_localName_iff (title1 : Bytes) :
    LocalName (makeTitle2 title1) ↔
      ∃ c ∈ title1.find? isWord, isDigit c = false := by
  have hfirst : (makeTitle2 title1).head? = (title1.find? isWord).map
      fun c => if 'A'.toUInt8 ≤ c ∧ c ≤ 'Z'.toUInt8 then c + 32 else c := by
    rw [head?_makeTitle2, lc, List.find?_map]
    congr 2
    funext c
    exact isWord_lc c
  constructor
  · rintro ⟨-, c, hc, hdigit⟩
    rw [hfirst] at hc
    obtain ⟨d, hd, rfl⟩ := Option.map_eq_some_iff.1 hc
    exact ⟨d, hd, (isDigit_lc d).symm.trans hdigit⟩
  · rintro ⟨c, hc, hdigit⟩
    refine ⟨makeTitle2_words title1, _, ?_, (isDigit_lc c).trans hdigit⟩
    rw [hfirst, Option.mem_def, hc]
    rfl

/-- `24 hour clock` starts with a digit. -/
theorem makeTitle2_digit : ¬ LocalName (makeTitle2 (ascii "24 hour clock")) := by
  rintro ⟨-, c, hc, hdigit⟩
  have hhead : (makeTitle2 (ascii "24 hour clock")).head?
      = some '2'.toUInt8 := by decide
  rw [hhead] at hc
  obtain rfl := Option.some.inj hc
  exact absurd hdigit (by decide)

example : makeTitle2 (ascii "Buyer's name, coded") = ascii "buyers_name" := by
  decide

end Libedi
