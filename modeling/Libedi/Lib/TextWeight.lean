import Mathlib.Algebra.GroupWithZero.Nat
import Libedi.Lib.XmlReader

/-!
# What can be read of a text that is printed as it is

A text that is printed into a document without an escape may hold markup, and almost
anything can be read then.  But a text that is no plain character data has to be
spelled by references or CDATA sections, and these are longer than what they stand
for.

Some characters are counted (`weight`): each reference and each CDATA section has
two of them.  A text that is delivered costs its weight, and one more if it is no
character data (`textCost`).  What is read of a text costs at most its weight
(`costs_text`), wherever the scanner and the reader are before.
-/

namespace XmlReader

open Markup (Event)
open XmlTree

/-! ## Places -/

/-- Where the scanner and the reader are. -/
structure Place where
  scan : Markup.State
  state : State

/-- The text leads from one place to another one, with these events. -/
def Place.Leads (p : Place) (text : List UInt8) (q : Place)
    (out : List XmlEvent) : Prop :=
  ∃ es, Markup.Reads p.scan text q.scan es ∧ run p.state es = some (q.state, out)

theorem scan_split {s s' : Markup.State} {as bs : List UInt8} {es : List Event}
    (h : Markup.Reads s (as ++ bs) s' es) :
    ∃ m fs gs, Markup.Reads s as m fs ∧ Markup.Reads m bs s' gs ∧
      es = fs ++ gs := by
  induction as generalizing s es with
  | nil => exact ⟨s, [], es, .nil s, h, rfl⟩
  | cons a as ih =>
    rw [Markup.Reads, List.cons_append, Markup.run] at h
    obtain ⟨r, hr, h⟩ := Option.bind_eq_some_iff.1 h
    obtain ⟨t, ht, heq⟩ := Option.map_eq_some_iff.1 h
    obtain ⟨rfl, rfl⟩ := Prod.mk.inj heq
    obtain ⟨m, fs, gs, hfs, hgs, hes⟩ := ih ht
    exact ⟨m, r.2 ++ fs, gs, Markup.Reads.cons hr hfs, hgs, by
      rw [hes, List.append_assoc]⟩

theorem run_split {s s' : State} {es fs : List Event} {out : List XmlEvent}
    (h : run s (es ++ fs) = some (s', out)) :
    ∃ m as bs, run s es = some (m, as) ∧ run m fs = some (s', bs) ∧
      out = as ++ bs := by
  induction es generalizing s out with
  | nil => exact ⟨s, [], out, rfl, h, rfl⟩
  | cons e es ih =>
    rw [List.cons_append, run] at h
    obtain ⟨r, hr, h⟩ := Option.bind_eq_some_iff.1 h
    obtain ⟨t, ht, heq⟩ := Option.map_eq_some_iff.1 h
    obtain ⟨rfl, rfl⟩ := Prod.mk.inj heq
    obtain ⟨m, as, bs, has, hbs, hout⟩ := ih ht
    refine ⟨m, r.2 ++ as, bs, ?_, hbs, by rw [hout, List.append_assoc]⟩
    rw [run, hr, Option.bind_some, has]
    rfl

/-- A text in two parts leads through a place between them. -/
theorem Place.Leads.split {p q : Place} {as bs : List UInt8}
    {out : List XmlEvent} (h : p.Leads (as ++ bs) q out) :
    ∃ m out₁ out₂, p.Leads as m out₁ ∧ m.Leads bs q out₂ ∧ out = out₁ ++ out₂ := by
  obtain ⟨es, hscan, hrun⟩ := h
  obtain ⟨m, fs, gs, hfs, hgs, rfl⟩ := scan_split hscan
  obtain ⟨s, out₁, out₂, h₁, h₂, rfl⟩ := run_split hrun
  exact ⟨⟨m, s⟩, out₁, out₂, ⟨fs, hfs, h₁⟩, ⟨gs, hgs, h₂⟩, rfl⟩

/-! ## Costs -/

/-- A character that counts. -/
def isHeavy (c : UInt8) : Bool :=
  c = '&'.toUInt8 ∨ c = ';'.toUInt8 ∨ c = '['.toUInt8

/-- The number of the characters that count. -/
def weight (s : List UInt8) : Nat := s.countP isHeavy

@[simp] theorem weight_nil : weight [] = 0 := rfl

@[simp] theorem weight_append (as bs : List UInt8) :
    weight (as ++ bs) = weight as + weight bs := List.countP_append

theorem weight_cons (c : UInt8) (s : List UInt8) :
    weight (c :: s) = weight [c] + weight s := weight_append [c] s

theorem weight_singleton_le (c : UInt8) : weight [c] ≤ 1 :=
  List.countP_le_length

theorem weight_bracket (s : List UInt8) : weight (']'.toUInt8 :: s) = weight s := by
  rw [weight_cons]
  exact Nat.zero_add _

instance decidableIsText (text : List UInt8) : Decidable (IsText text) :=
  @decidable_of_iff _ (_ ∧ _) ⟨fun h => ⟨h.1, h.2⟩, fun h => ⟨h.1, h.2⟩⟩
    (@instDecidableAnd _ _ (List.decidableBAll _ text)
      (@instDecidableNot _ (List.instDecidableIsInfixOfDecidableEq _ _)))

/-- What a text in one line costs.  Other texts cost nothing. -/
def textCost (s : List UInt8) : Nat :=
  if '\n'.toUInt8 ∈ s then 0 else weight s + if IsText s then 0 else 1

section Raw

variable (raw : List UInt8 → Bool)

/-- What the texts of some events cost.  A text right behind the beginning of an
element is free if the element is not one of those that are asked for. -/
def rawCost : Bool → List XmlEvent → Nat
  | _, [] => 0
  | free, .chars s :: es => (if free then 0 else textCost s) + rawCost false es
  | _, .start n _ :: es => rawCost (!raw n) es
  | _, .stop _ :: es => rawCost false es

theorem rawCost_free_le (free : Bool) (es : List XmlEvent) :
    rawCost raw free es ≤ rawCost raw false es := by
  cases es with
  | nil => exact Nat.le_refl _
  | cons e es =>
    cases e with
    | start n attrs | stop n => exact Nat.le_refl _
    | chars s =>
      rw [rawCost, rawCost, if_neg Bool.false_ne_true]
      split_ifs <;> omega

theorem rawCost_append_le (free : Bool) (as bs : List XmlEvent) :
    rawCost raw free (as ++ bs) ≤ rawCost raw free as + rawCost raw false bs := by
  induction as generalizing free with
  | nil =>
    have hfree := rawCost_free_le raw free bs
    rw [List.nil_append, rawCost]
    omega
  | cons e as ih =>
    cases e with
    | start n attrs => exact ih _
    | stop n => exact ih _
    | chars s =>
      have hrest := ih false
      rw [List.cons_append, rawCost, rawCost]
      omega

theorem rawCost_flush_le (free : Bool) (s : List UInt8) :
    rawCost raw free (flush s) ≤ textCost s := by
  refine (rawCost_free_le raw free _).trans ?_
  unfold flush
  split_ifs
  · exact Nat.zero_le _
  · exact Nat.le_refl _

end Raw

/-! ## What the reader delivers -/

/-- Character data as far as it was read, with the brackets at its end. -/
def PlainSoFar (text : List UInt8) (brackets : Nat) : Prop :=
  IsText text ∧ ([']'.toUInt8] <:+ text → 1 ≤ brackets) ∧
    ([']'.toUInt8, ']'.toUInt8] <:+ text → 2 ≤ brackets)

instance decidablePlainSoFar (text : List UInt8) (brackets : Nat) :
    Decidable (PlainSoFar text brackets) :=
  inferInstanceAs (Decidable (_ ∧ _))

theorem plainSoFar_nil (brackets : Nat) : PlainSoFar [] brackets :=
  ⟨⟨by simp, by decide⟩, by simp, by simp⟩

theorem suffix_append_singleton_iff {α : Type*} {xs ys : List α} {x y : α} :
    xs ++ [x] <:+ ys ++ [y] ↔ xs <:+ ys ∧ x = y := by
  constructor
  · rintro ⟨zs, hzs⟩
    rw [← List.append_assoc] at hzs
    obtain ⟨hys, hy⟩ := List.append_inj' hzs rfl
    exact ⟨⟨zs, hys⟩, (List.cons.inj hy).1⟩
  · rintro ⟨⟨zs, rfl⟩, rfl⟩
    exact ⟨zs, by rw [List.append_assoc]⟩

/-- A character that may stand behind the text. -/
theorem PlainSoFar.snoc {text : List UInt8} {brackets : Nat} {c : UInt8}
    (h : PlainSoFar text brackets)
    (hmarkup : c ≠ '<'.toUInt8 ∧ c ≠ '&'.toUInt8)
    (hend : ¬ (c = '>'.toUInt8 ∧ 2 ≤ brackets)) :
    PlainSoFar (text ++ [c]) (if c = ']'.toUInt8 then brackets + 1 else 0) := by
  obtain ⟨htext, hone, htwo⟩ := h
  refine ⟨⟨?_, ?_⟩, ?_, ?_⟩
  · rw [List.forall_mem_append, List.forall_mem_singleton]
    exact ⟨htext.noMarkup, hmarkup⟩
  · intro hinfix
    rcases List.infix_concat_iff.1 hinfix with hsuffix | hinfix
    · have hsplit : [']'.toUInt8, ']'.toUInt8] ++ ['>'.toUInt8] <:+ text ++ [c] :=
        hsuffix
      obtain ⟨hbefore, rfl⟩ := suffix_append_singleton_iff.1 hsplit
      exact hend ⟨rfl, htwo hbefore⟩
    · exact htext.noEnd hinfix
  · intro hsuffix
    have hsplit : [] ++ [']'.toUInt8] <:+ text ++ [c] := hsuffix
    rw [if_pos (suffix_append_singleton_iff.1 hsplit).2.symm]
    exact Nat.le_add_left 1 _
  · intro hsuffix
    have hsplit : [']'.toUInt8] ++ [']'.toUInt8] <:+ text ++ [c] := hsuffix
    obtain ⟨hbefore, hc⟩ := suffix_append_singleton_iff.1 hsplit
    have hle := hone hbefore
    rw [if_pos hc.symm]
    omega

/-- What the text that waits may cost. -/
def pendingCost (s : State) : Nat :=
  weight s.text + if PlainSoFar s.text s.brackets then 0 else 1

theorem textCost_le_pendingCost (s : State) : textCost s.text ≤ pendingCost s := by
  unfold textCost pendingCost
  by_cases hplain : PlainSoFar s.text s.brackets
  · rw [if_pos hplain.1]
    split_ifs <;> omega
  · rw [if_neg hplain]
    split_ifs <;> omega

theorem pendingCost_of_nil {s : State} (h : s.text = []) : pendingCost s = 0 := by
  rw [pendingCost, h, if_pos (plainSoFar_nil _)]
  rfl

/-- What a piece of the document may add. -/
def eventCost : Event → Nat
  | .char c => weight [c]
  | .reference _ => 2
  | .cdata body => textCost body
  | _ => 0

/-- A piece that is no markup by its first character. -/
def CharData : Event → Prop
  | .char c => c ≠ '<'.toUInt8 ∧ c ≠ '&'.toUInt8
  | _ => True

/-- A byte behind the ASCII characters does not count. -/
theorem weight_cons_high {n : Nat} (hlow : 128 ≤ n) (hhigh : n < 256)
    (s : List UInt8) : weight (UInt8.ofNat n :: s) = weight s := by
  have hnat : (UInt8.ofNat n).toNat = n := by
    rw [UInt8.toNat_ofNat']
    omega
  have hheavy : isHeavy (UInt8.ofNat n) = false := by
    rw [isHeavy, decide_eq_false_iff_not]
    intro hchar
    have hlt : (UInt8.ofNat n).toNat < 128 := by
      rcases hchar with hchar | hchar | hchar <;> rw [hchar] <;> decide
    omega
  exact List.countP_cons_of_neg (Bool.eq_false_iff.1 hheavy)

/-- A character by its number has one byte that counts at most. -/
theorem weight_utf8_le (c : Char) : weight (String.utf8EncodeChar c) ≤ 1 := by
  unfold String.utf8EncodeChar
  dsimp only
  split_ifs
  · exact weight_singleton_le _
  · rw [weight_cons_high (by omega) (by omega),
      weight_cons_high (by omega) (by omega)]
    exact Nat.zero_le 1
  · rw [weight_cons_high (by omega) (by omega),
      weight_cons_high (by omega) (by omega),
      weight_cons_high (by omega) (by omega)]
    exact Nat.zero_le 1
  · rw [weight_cons_high (by omega) (by omega),
      weight_cons_high (by omega) (by omega),
      weight_cons_high (by omega) (by omega),
      weight_cons_high (by omega) (by omega)]
    exact Nat.zero_le 1

theorem weight_decodeReference {name bs : List UInt8}
    (h : decodeReference name = some bs) : weight bs ≤ 1 := by
  have hcharacter : ∀ {n : Option Nat}, n.bind characterBytes = some bs →
      weight bs ≤ 1 := by
    intro n hn
    obtain ⟨k, -, hk⟩ := Option.bind_eq_some_iff.1 hn
    unfold characterBytes at hk
    split_ifs at hk
    exact Option.some.inj hk ▸ weight_utf8_le _
  unfold decodeReference at h
  split_ifs at h
  · exact Option.some.inj h ▸ weight_singleton_le _
  · exact Option.some.inj h ▸ weight_singleton_le _
  · exact Option.some.inj h ▸ weight_singleton_le _
  · exact Option.some.inj h ▸ weight_singleton_le _
  · exact Option.some.inj h ▸ weight_singleton_le _
  · split at h
    · split_ifs at h
      · exact hcharacter h
      · exact hcharacter h
    · cases h

section Raw

variable {raw : List UInt8 → Bool}

/-- A tag: the text that waited, and an element that begins or ends. -/
theorem step_tag {s s' : State} {body : List UInt8} {out : List XmlEvent}
    (h : step s (.tag body) = some (s', out)) :
    s'.text = [] ∧ ∃ tags, out = flush s.text ++ tags ∧
      ∀ free, rawCost raw free tags = 0 := by
  rw [step] at h
  split at h
  · cases h
  · split_ifs at h
    · obtain ⟨rfl, rfl⟩ := Prod.mk.inj (Option.some.inj h)
      exact ⟨rfl, _, rfl, fun _ => rfl⟩
    · obtain ⟨rfl, rfl⟩ := Prod.mk.inj (Option.some.inj h)
      exact ⟨rfl, _, rfl, fun _ => rfl⟩
  · split at h
    · cases h
    · split_ifs at h
      obtain ⟨rfl, rfl⟩ := Prod.mk.inj (Option.some.inj h)
      exact ⟨rfl, _, rfl, fun _ => rfl⟩

/-- What is delivered, and the text that waits, is paid for by the text that waited
and the piece. -/
theorem step_cost {s s' : State} {e : Event} {out : List XmlEvent}
    (h : step s e = some (s', out)) (hdata : CharData e) :
    rawCost raw false out + pendingCost s' ≤ pendingCost s + eventCost e := by
  have hflush := (rawCost_flush_le raw false s.text).trans
    (textCost_le_pendingCost s)
  cases e with
  | char c =>
    rw [step] at h
    by_cases hstack : s.stack = []
    · rw [if_pos hstack] at h
      split_ifs at h
      obtain ⟨rfl, rfl⟩ := Prod.mk.inj (Option.some.inj h)
      exact Nat.le_trans (by simp [rawCost]) (Nat.le_add_right _ _)
    by_cases hend : c = '>'.toUInt8 ∧ 2 ≤ s.brackets
    · rw [if_neg hstack, if_pos hend] at h
      cases h
    rw [if_neg hstack, if_neg hend] at h
    obtain ⟨rfl, rfl⟩ := Prod.mk.inj (Option.some.inj h)
    rw [pendingCost, pendingCost, weight_append, rawCost, eventCost]
    by_cases hplain : PlainSoFar s.text s.brackets
    · rw [if_pos hplain, if_pos (hplain.snoc hdata hend)]
      omega
    · rw [if_neg hplain]
      split_ifs <;> omega
  | reference name =>
    rw [step] at h
    split_ifs at h
    obtain ⟨bs, hbs, h⟩ := Option.map_eq_some_iff.1 h
    obtain ⟨rfl, rfl⟩ := Prod.mk.inj h
    have hle := weight_decodeReference hbs
    simp only [pendingCost, rawCost, eventCost, weight_append]
    split_ifs <;> omega
  | tag body =>
    obtain ⟨htext, tags, rfl, htags⟩ := @step_tag raw _ _ _ _ h
    have happend := rawCost_append_le raw false (flush s.text) tags
    rw [htags] at happend
    rw [pendingCost_of_nil htext]
    omega
  | comment body | instruction body =>
    obtain ⟨rfl, rfl⟩ := Prod.mk.inj (Option.some.inj h)
    rw [pendingCost_of_nil (s := s.marked) rfl]
    omega
  | cdata body =>
    rw [step] at h
    split_ifs at h
    obtain ⟨rfl, rfl⟩ := Prod.mk.inj (Option.some.inj h)
    have happend := rawCost_append_le raw false (flush s.text) (flush body)
    have hbody := rawCost_flush_le raw false body
    rw [pendingCost_of_nil (s := s.marked) rfl, eventCost]
    omega

theorem run_cost {s s' : State} {es : List Event} {out : List XmlEvent}
    (h : run s es = some (s', out)) (hdata : ∀ e ∈ es, CharData e) :
    rawCost raw false out + pendingCost s'
      ≤ pendingCost s + (es.map eventCost).sum := by
  induction es generalizing s out with
  | nil =>
    obtain ⟨rfl, rfl⟩ := Prod.mk.inj (Option.some.inj h)
    simp [rawCost]
  | cons e es ih =>
    rw [run] at h
    obtain ⟨r, hr, h⟩ := Option.bind_eq_some_iff.1 h
    obtain ⟨t, ht, heq⟩ := Option.map_eq_some_iff.1 h
    obtain ⟨rfl, rfl⟩ := Prod.mk.inj heq
    rw [List.forall_mem_cons] at hdata
    have hstep := @step_cost raw _ _ _ _ hr hdata.1
    have hrest := ih ht hdata.2
    have happend := rawCost_append_le raw false r.2 t.2
    rw [List.map_cons, List.sum_cons]
    omega

end Raw

/-! ## What the scanner holds -/

/-- What a section that is not over may cost. -/
def sectionCost (body : List UInt8) : Nat :=
  if '\n'.toUInt8 ∈ body then 0 else weight body + 2

theorem textCost_le_sectionCost (body : List UInt8) :
    textCost body ≤ sectionCost body := by
  unfold textCost sectionCost
  split_ifs <;> omega

theorem sectionCost_append_le (body behind : List UInt8) :
    sectionCost (body ++ behind) ≤ sectionCost body + weight behind := by
  unfold sectionCost
  rw [weight_append]
  by_cases hbody : '\n'.toUInt8 ∈ body
  · rw [if_pos (List.mem_append_left _ hbody)]
    exact Nat.zero_le _
  · rw [if_neg hbody]
    split_ifs <;> omega

/-- What the scanner may cost, where it is. -/
def scanCost : Markup.State → Nat
  | .reference _ => 1
  | .bang read => weight read
  | .cdata body | .cdataBracket body | .cdataEnd body => sectionCost body
  | _ => 0

theorem scanCost_text : scanCost .text = 0 := rfl

theorem scanCost_stepBang {read : List UInt8} {m : Markup.State}
    (h : Markup.stepBang read = some m) : scanCost m ≤ weight read := by
  unfold Markup.stepBang at h
  split_ifs at h with hcomment hcdata
  · obtain rfl := Option.some.inj h
    exact Nat.zero_le _
  · obtain rfl := Option.some.inj h
    rw [hcdata]
    decide
  · obtain rfl := Option.some.inj h
    exact Nat.le_refl _

/-- What a byte leads to is paid for by the byte and by what the scanner held. -/
def Paid (m : Markup.State) (c : UInt8) (r : Markup.State × List Event) : Prop :=
  (∀ e ∈ r.2, CharData e) ∧
    (r.2.map eventCost).sum + scanCost r.1 ≤ scanCost m + weight [c]

section Paid

variable {m k : Markup.State} {c : UInt8} {r : Markup.State × List Event}

theorem paid_nil (h : some (k, []) = some r)
    (hk : scanCost k ≤ scanCost m + weight [c]) : Paid m c r := by
  obtain rfl := Option.some.inj h
  exact ⟨List.forall_mem_nil _, by simpa using hk⟩

theorem paid_event {e : Event} (h : some (Markup.State.text, [e]) = some r)
    (hdata : CharData e) (he : eventCost e ≤ scanCost m + weight [c]) :
    Paid m c r := by
  obtain rfl := Option.some.inj h
  exact ⟨List.forall_mem_singleton.2 hdata, by simpa [scanCost] using he⟩

/-- A byte of text or of a reference. -/
theorem paid_text (hm : m = .text ∨ ∃ name, m = .reference name)
    (h : Markup.step m c = some r) : Paid m c r := by
  rcases hm with rfl | ⟨name, rfl⟩
  · rw [Markup.step] at h
    split_ifs at h with hlt hamp
    · exact paid_nil h (Nat.zero_le _)
    · exact paid_nil h (by rw [hamp]; decide)
    · exact paid_event h ⟨hlt, hamp⟩ (Nat.le_add_left _ _)
  · rw [Markup.step] at h
    split_ifs at h with hend
    · exact paid_event h trivial (by rw [hend]; exact Nat.le_refl 2)
    · exact paid_nil h (Nat.le_add_right _ _)

/-- A byte of a tag. -/
theorem paid_tag {body : List UInt8} {quote : Option UInt8}
    (h : Markup.step (.tag body quote) c = some r) :
    Paid (.tag body quote) c r := by
  cases quote with
  | none =>
    rw [Markup.step] at h
    split_ifs at h
    · exact paid_event h trivial (Nat.zero_le _)
    · exact paid_nil h (Nat.zero_le _)
    · exact paid_nil h (Nat.zero_le _)
  | some q =>
    rw [Markup.step] at h
    split_ifs at h
    all_goals exact paid_nil h (Nat.zero_le _)

/-- A byte of a section. -/
theorem paid_section {body : List UInt8}
    (hm : m = .cdata body ∨ m = .cdataBracket body ∨ m = .cdataEnd body)
    (h : Markup.step m c = some r) : Paid m c r := by
  have hbracket := weight_bracket [c]
  have hbrackets := (weight_bracket [']'.toUInt8, c]).trans hbracket
  rcases hm with rfl | rfl | rfl
  · rw [Markup.step] at h
    split_ifs at h
    · exact paid_nil h (Nat.le_add_right _ _)
    · exact paid_nil h (sectionCost_append_le body [c])
  · rw [Markup.step] at h
    split_ifs at h
    · exact paid_nil h (Nat.le_add_right _ _)
    · exact paid_nil h (hbracket ▸ sectionCost_append_le body [']'.toUInt8, c])
  · rw [Markup.step] at h
    split_ifs at h
    · exact paid_event h trivial ((textCost_le_sectionCost body).trans
        (Nat.le_add_right _ _))
    · exact paid_nil h (sectionCost_append_le body [c])
    · exact paid_nil h (hbrackets ▸
        sectionCost_append_le body [']'.toUInt8, ']'.toUInt8, c])

/-- A byte pays for what the scanner holds and tells. -/
theorem scan_step_cost (h : Markup.step m c = some r) : Paid m c r := by
  cases m with
  | text => exact paid_text (Or.inl rfl) h
  | reference name => exact paid_text (Or.inr ⟨name, rfl⟩) h
  | bang read =>
    obtain ⟨k, hk, heq⟩ := Option.map_eq_some_iff.1 h
    have hle := scanCost_stepBang hk
    rw [weight_append] at hle
    exact paid_nil (congrArg some heq) hle
  | less =>
    rw [Markup.step] at h
    split_ifs at h
    all_goals exact paid_nil h (Nat.zero_le _)
  | tag body quote => exact paid_tag h
  | comment body | commentDash body | instruction body =>
    rw [Markup.step] at h
    split_ifs at h
    all_goals exact paid_nil h (Nat.zero_le _)
  | commentEnd body =>
    rw [Markup.step] at h
    split_ifs at h
    exact paid_event h trivial (Nat.zero_le _)
  | instructionEnd body =>
    rw [Markup.step] at h
    split_ifs at h
    · exact paid_event h trivial (Nat.zero_le _)
    · exact paid_nil h (Nat.zero_le _)
    · exact paid_nil h (Nat.zero_le _)
  | cdata body => exact paid_section (Or.inl rfl) h
  | cdataBracket body => exact paid_section (Or.inr (Or.inl rfl)) h
  | cdataEnd body => exact paid_section (Or.inr (Or.inr rfl)) h

end Paid

theorem scan_cost {m m' : Markup.State} {text : List UInt8} {es : List Event}
    (h : Markup.Reads m text m' es) :
    (∀ e ∈ es, CharData e) ∧
      (es.map eventCost).sum + scanCost m' ≤ scanCost m + weight text := by
  induction text generalizing m es with
  | nil =>
    obtain ⟨rfl, rfl⟩ := Prod.mk.inj (Option.some.inj h)
    exact ⟨List.forall_mem_nil _, by simp⟩
  | cons c text ih =>
    rw [Markup.Reads, Markup.run] at h
    obtain ⟨r, hr, h⟩ := Option.bind_eq_some_iff.1 h
    obtain ⟨t, ht, heq⟩ := Option.map_eq_some_iff.1 h
    obtain ⟨rfl, rfl⟩ := Prod.mk.inj heq
    obtain ⟨hdata, hstep⟩ := scan_step_cost hr
    obtain ⟨hrest, hcost⟩ := ih ht
    refine ⟨List.forall_mem_append.2 ⟨hdata, hrest⟩, ?_⟩
    rw [List.map_append, List.sum_append, weight_cons]
    omega

/-! ## Texts between two places -/

/-- What the scanner and the reader hold may cost. -/
def Place.cost (p : Place) : Nat := scanCost p.scan + pendingCost p.state

section Costs

variable (raw : List UInt8 → Bool)

/-- Wherever the text is read, what is delivered is paid for by what was held before
and by these costs. -/
def Costs (text : List UInt8) (n : Nat) : Prop :=
  ∀ ⦃p q : Place⦄ ⦃out : List XmlEvent⦄, p.Leads text q out →
    rawCost raw false out + q.cost ≤ p.cost + n

variable {raw}

theorem Costs.append {as bs : List UInt8} {m n : Nat} (ha : Costs raw as m)
    (hb : Costs raw bs n) : Costs raw (as ++ bs) (m + n) := by
  intro p q out h
  obtain ⟨k, out₁, out₂, h₁, h₂, rfl⟩ := h.split
  have hle₁ := ha h₁
  have hle₂ := hb h₂
  have happend := rawCost_append_le raw false out₁ out₂
  omega

/-- Any text costs its weight. -/
theorem costs_text (text : List UInt8) : Costs raw text (weight text) := by
  rintro p q out ⟨es, hscan, hrun⟩
  obtain ⟨hdata, hcost⟩ := scan_cost hscan
  have hout := @run_cost raw _ _ _ _ hrun hdata
  unfold Place.cost
  omega

end Costs

end XmlReader
