import Libedi.Lib.TextWeight

/-!
# Markup around texts that are printed as they are

A text that is printed as it is may open a comment or a CDATA section that another
such text closes, and the markup between them is not read then.  Printed markup
costs nothing (`Still.costs`): where it is read it delivers no text that is asked
for, and where it is not read it ends nothing, and a section that comes to the end
of a line is no text in one line.

`read_lines` adds this up for a document in lines with a text in each.
-/

namespace XmlReader

open Markup (Event)
open XmlTree

/-! ## Printed markup -/

section Quiet

variable (raw : List UInt8 → Bool)

/-- Pieces of a document that add nothing. -/
def Quiet (es : List Event) : Prop :=
  ∀ ⦃s s' : State⦄ ⦃out : List XmlEvent⦄, run s es = some (s', out) →
    rawCost raw false out + pendingCost s' ≤ pendingCost s

variable {raw}

theorem Quiet.nil : Quiet raw [] := by
  intro s s' out h
  obtain ⟨rfl, rfl⟩ := Prod.mk.inj (Option.some.inj h)
  exact Nat.le_of_eq (Nat.zero_add _)

theorem Quiet.append {es fs : List Event} (he : Quiet raw es)
    (hf : Quiet raw fs) : Quiet raw (es ++ fs) := by
  intro s s' out h
  obtain ⟨m, out₁, out₂, h₁, h₂, rfl⟩ := run_split h
  have hle₁ := he h₁
  have hle₂ := hf h₂
  have happend := rawCost_append_le raw false out₁ out₂
  omega

theorem Quiet.of_eventCost {es : List Event} (hdata : ∀ e ∈ es, CharData e)
    (h : (es.map eventCost).sum = 0) : Quiet raw es := by
  intro s s' out hrun
  have hcost := @run_cost raw _ _ _ _ hrun hdata
  omega

theorem quiet_tag (body : List UInt8) : Quiet raw [.tag body] :=
  .of_eventCost (List.forall_mem_singleton.2 trivial) rfl

/-- Characters and references are read without an event. -/
def IsCharacter : Event → Prop
  | .char _ | .reference _ => True
  | _ => False

theorem run_characters {s s' : State} {es : List Event} {out : List XmlEvent}
    (h : run s es = some (s', out)) (hes : ∀ e ∈ es, IsCharacter e) : out = [] := by
  induction es generalizing s out with
  | nil => exact (Prod.mk.inj (Option.some.inj h)).2.symm
  | cons e es ih =>
    rw [run] at h
    obtain ⟨r, hr, h⟩ := Option.bind_eq_some_iff.1 h
    obtain ⟨t, ht, heq⟩ := Option.map_eq_some_iff.1 h
    obtain ⟨rfl, rfl⟩ := Prod.mk.inj heq
    rw [List.forall_mem_cons] at hes
    rw [ih ht hes.2, List.append_nil]
    obtain ⟨he, -⟩ := hes
    cases e with
    | char c =>
      rw [step] at hr
      split_ifs at hr
      all_goals exact (Prod.mk.inj (Option.some.inj hr)).2.symm
    | reference name =>
      rw [step] at hr
      split_ifs at hr
      obtain ⟨bs, -, hr⟩ := Option.map_eq_some_iff.1 hr
      exact (Prod.mk.inj hr).2.symm
    | tag body | comment body | instruction body | cdata body => exact he.elim

/-- A text in an element that is not asked for. -/
theorem quiet_leaf {body body' n : List UInt8}
    {attrs : List (List UInt8 × List UInt8)} {es : List Event}
    (hbody : parseTag body = some (.opening n attrs false)) (hn : raw n = false)
    (hes : ∀ e ∈ es, IsCharacter e) :
    Quiet raw ([.tag body] ++ es ++ [.tag body']) := by
  intro s s' out h
  obtain ⟨s₂, out₁₂, out₃, h₁₂, h₃, rfl⟩ := run_split h
  obtain ⟨s₁, out₁, out₂, h₁, h₂, rfl⟩ := run_split h₁₂
  obtain rfl := run_characters h₂ hes
  have hstart : out₁ = flush s.text ++ [.start n attrs] := by
    simp only [run_singleton, step, hbody, Bool.false_eq_true, if_false] at h₁
    split_ifs at h₁
    exact (Prod.mk.inj (Option.some.inj h₁)).2.symm
  rw [run_singleton] at h₃
  obtain ⟨htext, tags, rfl, htags⟩ := @step_tag raw _ _ _ _ h₃
  have hfree : rawCost raw false (.start n attrs :: (flush s₂.text ++ tags)) = 0 := by
    rw [rawCost, hn, flush]
    split_ifs
    · exact htags _
    · exact (Nat.zero_add _).trans (htags _)
  have hflush := (rawCost_flush_le raw false s.text).trans
    (textCost_le_pendingCost s)
  have happend := rawCost_append_le raw false (flush s.text)
    (.start n attrs :: (flush s₂.text ++ tags))
  rw [hfree] at happend
  rw [pendingCost_of_nil htext, hstart]
  simp only [List.append_nil, List.append_assoc, List.singleton_append]
  omega

end Quiet

/-! ## Markup that is not read -/

/-- A byte with which the end of a section may begin. -/
def isMark (c : UInt8) : Bool :=
  c = '-'.toUInt8 ∨ c = '?'.toUInt8 ∨ c = ']'.toUInt8

/-- There is no end of a section in the text.  The byte before it may be a mark. -/
def shut : Bool → List UInt8 → Bool
  | _, [] => true
  | marked, c :: s => !(marked && c == '>'.toUInt8) && shut (isMark c) s

theorem shut_of_true {marked : Bool} {s : List UInt8} (h : shut true s = true) :
    shut marked s = true := by
  cases s with
  | nil => rfl
  | cons c s =>
    rw [shut, Bool.and_eq_true] at h ⊢
    refine ⟨?_, h.2⟩
    cases marked with
    | true => exact h.1
    | false => rfl

theorem shut_append {marked : Bool} {as bs : List UInt8}
    (ha : shut marked as = true) (hb : shut true bs = true) :
    shut marked (as ++ bs) = true := by
  induction as generalizing marked with
  | nil => exact shut_of_true hb
  | cons a as ih =>
    rw [shut, Bool.and_eq_true] at ha
    rw [List.cons_append, shut, Bool.and_eq_true]
    exact ⟨ha.1, ih ha.2⟩

theorem shut_of_not_mem {s : List UInt8} (h : '>'.toUInt8 ∉ s) (marked : Bool) :
    shut marked s = true := by
  induction s generalizing marked with
  | nil => rfl
  | cons c s ih =>
    rw [List.mem_cons, not_or] at h
    rw [shut, ih h.2, Bool.and_true]
    simp [Ne.symm h.1]

/-- The scanner is in a comment, an instruction or a section.  If the byte before is
no mark, the end of it has not begun. -/
def Hidden : Bool → Markup.State → Prop
  | _, .comment _ | _, .instruction _ | _, .cdata _ => True
  | true, .commentDash _ | true, .commentEnd _ | true, .instructionEnd _ |
    true, .cdataBracket _ | true, .cdataEnd _ => True
  | _, _ => False

/-- A section has come to the end of a line. -/
def LineOver : Markup.State → Prop
  | .cdata body | .cdataBracket body | .cdataEnd body => '\n'.toUInt8 ∈ body
  | _ => True

theorem Hidden.scanCost_eq_zero {marked : Bool} {m : Markup.State}
    (h : Hidden marked m) (hline : LineOver m) : scanCost m = 0 := by
  cases m with
  | cdata body | cdataBracket body | cdataEnd body => exact if_pos hline
  | text | less | tag body quote => rfl
  | comment body | commentDash body | commentEnd body => rfl
  | instruction body | instructionEnd body => rfl
  | reference name | bang read => cases marked <;> exact h.elim

/-- What a byte that ends nothing leads to. -/
def Stays (m : Markup.State) (c : UInt8) (r : Markup.State × List Event) : Prop :=
  r.2 = [] ∧ Hidden (isMark c) r.1 ∧
    (LineOver m ∨ c = '\n'.toUInt8 → LineOver r.1)

theorem hidden_of_mark {b c : UInt8} {m : Markup.State} (hb : isMark b = true)
    (h : c = b) (hm : Hidden true m) : Hidden (isMark c) m := by
  rwa [h, hb]

/-- A byte of a comment. -/
theorem stays_comment {m : Markup.State} {body : List UInt8}
    (hm : m = .comment body ∨ m = .commentDash body ∨ m = .commentEnd body)
    {c : UInt8} (hc : m = .commentEnd body → c ≠ '>'.toUInt8)
    {r : Markup.State × List Event} (hstep : Markup.step m c = some r) :
    Stays m c r := by
  rcases hm with rfl | rfl | rfl
  · rw [Markup.step] at hstep
    split_ifs at hstep with hend
    · obtain rfl := Option.some.inj hstep
      exact ⟨rfl, hidden_of_mark (by decide) hend trivial, fun _ => trivial⟩
    · obtain rfl := Option.some.inj hstep
      exact ⟨rfl, trivial, fun _ => trivial⟩
  · rw [Markup.step] at hstep
    split_ifs at hstep with hend
    · obtain rfl := Option.some.inj hstep
      exact ⟨rfl, hidden_of_mark (by decide) hend trivial, fun _ => trivial⟩
    · obtain rfl := Option.some.inj hstep
      exact ⟨rfl, trivial, fun _ => trivial⟩
  · rw [Markup.step, if_neg (hc rfl)] at hstep
    cases hstep

/-- A byte of an instruction. -/
theorem stays_instruction {m : Markup.State} {body : List UInt8}
    (hm : m = .instruction body ∨ m = .instructionEnd body)
    {c : UInt8} (hc : m = .instructionEnd body → c ≠ '>'.toUInt8)
    {r : Markup.State × List Event} (hstep : Markup.step m c = some r) :
    Stays m c r := by
  rcases hm with rfl | rfl
  · rw [Markup.step] at hstep
    split_ifs at hstep with hend
    · obtain rfl := Option.some.inj hstep
      exact ⟨rfl, hidden_of_mark (by decide) hend trivial, fun _ => trivial⟩
    · obtain rfl := Option.some.inj hstep
      exact ⟨rfl, trivial, fun _ => trivial⟩
  · rw [Markup.step, if_neg (hc rfl)] at hstep
    split_ifs at hstep with hend
    · obtain rfl := Option.some.inj hstep
      exact ⟨rfl, hidden_of_mark (by decide) hend trivial, fun _ => trivial⟩
    · obtain rfl := Option.some.inj hstep
      exact ⟨rfl, trivial, fun _ => trivial⟩

/-- A bracket is no end of a line. -/
theorem lineOver_bracket {c : UInt8} {body : List UInt8} (h : c = ']'.toUInt8)
    (hline : '\n'.toUInt8 ∈ body ∨ c = '\n'.toUInt8) : '\n'.toUInt8 ∈ body :=
  hline.resolve_right (by rw [h]; decide)

theorem lineOver_append {c : UInt8} {body behind : List UInt8} (h : c ∈ behind)
    (hline : '\n'.toUInt8 ∈ body ∨ c = '\n'.toUInt8) :
    '\n'.toUInt8 ∈ body ++ behind := by
  rcases hline with hbody | rfl
  · exact List.mem_append_left _ hbody
  · exact List.mem_append_right _ h

/-- A byte of a section. -/
theorem stays_section {m : Markup.State} {body : List UInt8}
    (hm : m = .cdata body ∨ m = .cdataBracket body ∨ m = .cdataEnd body)
    {c : UInt8} (hc : m = .cdataEnd body → c ≠ '>'.toUInt8)
    {r : Markup.State × List Event} (hstep : Markup.step m c = some r) :
    Stays m c r := by
  rcases hm with rfl | rfl | rfl
  · rw [Markup.step] at hstep
    split_ifs at hstep with hend
    · obtain rfl := Option.some.inj hstep
      exact ⟨rfl, hidden_of_mark (by decide) hend trivial, lineOver_bracket hend⟩
    · obtain rfl := Option.some.inj hstep
      exact ⟨rfl, trivial, lineOver_append List.mem_cons_self⟩
  · rw [Markup.step] at hstep
    split_ifs at hstep with hend
    · obtain rfl := Option.some.inj hstep
      exact ⟨rfl, hidden_of_mark (by decide) hend trivial, lineOver_bracket hend⟩
    · obtain rfl := Option.some.inj hstep
      exact ⟨rfl, trivial, lineOver_append (by simp)⟩
  · rw [Markup.step, if_neg (hc rfl)] at hstep
    split_ifs at hstep with hend
    · obtain rfl := Option.some.inj hstep
      exact ⟨rfl, hidden_of_mark (by decide) hend trivial,
        lineOver_append List.mem_cons_self⟩
    · obtain rfl := Option.some.inj hstep
      exact ⟨rfl, trivial, lineOver_append (by simp)⟩

/-- A byte that ends nothing. -/
theorem Hidden.step {marked : Bool} {m : Markup.State} {c : UInt8}
    {r : Markup.State × List Event} (h : Hidden marked m)
    (hc : ¬ (marked = true ∧ c = '>'.toUInt8)) (hstep : Markup.step m c = some r) :
    Stays m c r := by
  have hend : marked = true → c ≠ '>'.toUInt8 := fun hmarked heq =>
    hc ⟨hmarked, heq⟩
  cases m with
  | text | reference name | less | bang read | tag body quote =>
    cases marked <;> exact h.elim
  | comment body => exact stays_comment (Or.inl rfl) (fun heq => by cases heq) hstep
  | commentDash body =>
    exact stays_comment (Or.inr (Or.inl rfl)) (fun heq => by cases heq) hstep
  | commentEnd body =>
    cases marked with
    | false => exact h.elim
    | true => exact stays_comment (Or.inr (Or.inr rfl)) (fun _ => hend rfl) hstep
  | instruction body =>
    exact stays_instruction (Or.inl rfl) (fun heq => by cases heq) hstep
  | instructionEnd body =>
    cases marked with
    | false => exact h.elim
    | true => exact stays_instruction (Or.inr rfl) (fun _ => hend rfl) hstep
  | cdata body => exact stays_section (Or.inl rfl) (fun heq => by cases heq) hstep
  | cdataBracket body =>
    exact stays_section (Or.inr (Or.inl rfl)) (fun heq => by cases heq) hstep
  | cdataEnd body =>
    cases marked with
    | false => exact h.elim
    | true => exact stays_section (Or.inr (Or.inr rfl)) (fun _ => hend rfl) hstep

/-- A text without an end in it. -/
theorem Hidden.run {marked : Bool} {m m' : Markup.State} {text : List UInt8}
    {es : List Event} (h : Hidden marked m) (hshut : shut marked text = true)
    (hrun : Markup.Reads m text m' es) :
    es = [] ∧ (∃ marked', Hidden marked' m') ∧
      (LineOver m ∨ '\n'.toUInt8 ∈ text → LineOver m') := by
  induction text generalizing marked m es with
  | nil =>
    obtain ⟨rfl, rfl⟩ := Prod.mk.inj (Option.some.inj hrun)
    exact ⟨rfl, ⟨marked, h⟩, fun hline => hline.resolve_right List.not_mem_nil⟩
  | cons c text ih =>
    rw [shut, Bool.and_eq_true] at hshut
    have hc : ¬ (marked = true ∧ c = '>'.toUInt8) := by
      simpa [Decidable.imp_iff_not_or] using hshut.1
    rw [Markup.Reads, Markup.run] at hrun
    obtain ⟨r, hr, hrun⟩ := Option.bind_eq_some_iff.1 hrun
    obtain ⟨t, ht, heq⟩ := Option.map_eq_some_iff.1 hrun
    obtain ⟨rfl, rfl⟩ := Prod.mk.inj heq
    obtain ⟨hes, hhidden, hline⟩ := h.step hc hr
    obtain ⟨hrest, hlast, hover⟩ := ih hhidden hshut.2 ht
    refine ⟨by rw [hes, hrest]; rfl, hlast, fun hor => hover ?_⟩
    rw [List.mem_cons] at hor
    rcases hor with hm | rfl | htext
    · exact Or.inl (hline (Or.inl hm))
    · exact Or.inl (hline (Or.inr rfl))
    · exact Or.inr htext

/-- Where the scanner is in neither of both, no tag may begin. -/
theorem step_less_eq_none {m : Markup.State} (htext : m ≠ .text)
    (hhidden : ¬ Hidden true m) : Markup.step m '<'.toUInt8 = none := by
  cases m with
  | text => exact absurd rfl htext
  | reference name | less => rfl
  | bang read =>
    have hmem : '<'.toUInt8 ∈ read ++ ['<'.toUInt8] :=
      List.mem_append_right _ List.mem_cons_self
    have hcomment : ¬ read ++ ['<'.toUInt8] <+: Markup.commentStart :=
      fun hbegin => absurd (hbegin.subset hmem) (by decide)
    have hcdata : ¬ read ++ ['<'.toUInt8] <+: Markup.cdataStart :=
      fun hbegin => absurd (hbegin.subset hmem) (by decide)
    rw [Markup.step, Markup.stepBang, if_neg, if_neg, if_neg]
    · rfl
    · exact not_or.2 ⟨hcomment, hcdata⟩
    · exact fun heq => hcdata (heq ▸ List.prefix_rfl)
    · exact fun heq => hcomment (heq ▸ List.prefix_rfl)
  | tag body quote => cases quote <;> rfl
  | comment body | commentDash body | commentEnd body => exact absurd trivial hhidden
  | instruction body | instructionEnd body => exact absurd trivial hhidden
  | cdata body | cdataBracket body | cdataEnd body => exact absurd trivial hhidden

section Still

variable (raw : List UInt8 → Bool)

/-- Printed markup that adds nothing where it is read, and ends nothing where it is
not. -/
structure Still (text : List UInt8) : Prop where
  shut : shut true text = true
  reads : ∃ es, Markup.Reads .text text .text es ∧ Quiet raw es

variable {raw}

theorem Still.nil : Still raw [] := ⟨rfl, [], .nil _, .nil⟩

theorem Still.append {as bs : List UInt8} (ha : Still raw as) (hb : Still raw bs) :
    Still raw (as ++ bs) := by
  obtain ⟨hshut, es, hes, hquiet⟩ := ha
  obtain ⟨hshut', fs, hfs, hquiet'⟩ := hb
  exact ⟨shut_append hshut hshut', es ++ fs, hes.append hfs, hquiet.append hquiet'⟩

theorem Still.flatMap {ι : Type*} {l : List ι} {text : ι → List UInt8}
    (h : ∀ i ∈ l, Still raw (text i)) : Still raw (l.flatMap text) := by
  induction l with
  | nil => exact .nil
  | cons i l ih =>
    rw [List.forall_mem_cons] at h
    exact h.1.append (ih h.2)

/-- Markup in its place costs nothing. -/
theorem Still.leads {text : List UInt8} (h : Still raw text) {p q : Place}
    {out : List XmlEvent} (hp : p.scan = .text) (hleads : p.Leads text q out) :
    rawCost raw false out + q.cost ≤ p.cost := by
  obtain ⟨-, es, hes, hquiet⟩ := h
  obtain ⟨fs, hfs, hrun⟩ := hleads
  rw [hp, Markup.Reads, hes] at hfs
  obtain ⟨hscan, rfl⟩ := Prod.mk.inj (Option.some.inj hfs)
  have hcost := hquiet hrun
  rw [Place.cost, Place.cost, hp, ← hscan]
  omega

/-- Markup that begins with a tag costs nothing anywhere, if nothing of it counts or
it has the end of a line. -/
theorem Still.costs {text : List UInt8} (h : Still raw text)
    (hhead : text.head? = some '<'.toUInt8)
    (hline : weight text = 0 ∨ '\n'.toUInt8 ∈ text) : Costs raw text 0 := by
  intro p q out hleads
  by_cases htext : p.scan = .text
  · exact h.leads htext hleads
  obtain ⟨es, hscan, hrun⟩ := hleads
  by_cases hhidden : Hidden true p.scan
  · have hcost := (scan_cost hscan).2
    obtain ⟨rfl, ⟨marked, hlast⟩, hover⟩ := hhidden.run h.shut hscan
    obtain ⟨hstate, rfl⟩ := Prod.mk.inj (Option.some.inj hrun)
    have hq : scanCost q.scan ≤ scanCost p.scan := by
      rcases hline with hweight | hmem
      · rw [hweight] at hcost
        simpa using hcost
      · rw [hlast.scanCost_eq_zero (hover (Or.inr hmem))]
        exact Nat.zero_le _
    rw [Place.cost, Place.cost, ← hstate, rawCost]
    omega
  · obtain ⟨rest, rfl⟩ : ∃ rest, text = '<'.toUInt8 :: rest := by
      cases text with
      | nil => cases hhead
      | cons c rest => exact ⟨rest, by rw [Option.some.inj hhead]⟩
    rw [Markup.Reads, Markup.run, step_less_eq_none htext hhidden] at hscan
    cases hscan

end Still

/-! ## Printed elements -/

/-- Character data, with references for some of the characters. -/
def Spelled (printed : List UInt8) : Prop :=
  '>'.toUInt8 ∉ printed ∧ ∃ es, Markup.Reads .text printed .text es ∧
    ∀ e ∈ es, IsCharacter e

theorem spelled_chars {text : List UInt8}
    (h : ∀ c ∈ text, c ≠ '<'.toUInt8 ∧ c ≠ '&'.toUInt8)
    (hgt : '>'.toUInt8 ∉ text) : Spelled text :=
  ⟨hgt, _, Markup.reads_chars h, List.forall_mem_map.2 fun _ _ => trivial⟩

theorem spelled_escaped {escape : UInt8 → List UInt8} {text : List UInt8}
    (h : ∀ c ∈ text, StandsFor c (escape c))
    (hgt : '>'.toUInt8 ∉ text.flatMap escape) : Spelled (text.flatMap escape) := by
  refine ⟨hgt, ?_⟩
  clear hgt
  induction text with
  | nil => exact ⟨[], .nil _, List.forall_mem_nil _⟩
  | cons c text ih =>
    rw [List.forall_mem_cons] at h
    obtain ⟨es, hes, hall⟩ := ih h.2
    rw [List.flatMap_cons]
    rcases h.1 with ⟨heq, hlt, hamp, -⟩ | ⟨name, heq, hname, -⟩
    · have hc : Markup.Reads .text [c] .text [.char c] :=
        Markup.reads_chars (by simpa using ⟨hlt, hamp⟩)
      rw [heq]
      exact ⟨_, hc.append hes, List.forall_mem_cons.2 ⟨trivial, hall⟩⟩
    · rw [heq]
      exact ⟨_, (scan_reference hname).append hes,
        List.forall_mem_cons.2 ⟨trivial, hall⟩⟩

/-- A tag with a value in quotes at its end. -/
theorem shut_quoted {body : List UInt8} (h : '>'.toUInt8 ∉ body) :
    shut true (body ++ ['"'.toUInt8, '>'.toUInt8]) = true :=
  shut_append (shut_of_not_mem h true) (by decide)

section Printed

variable {raw : List UInt8 → Bool} {name : List UInt8}
  {attrs : List (List UInt8 × List UInt8)}

theorem still_tag {text body : List UInt8} (hshut : shut true text = true)
    (hscan : Markup.Reads .text text .text [.tag body]) : Still raw text :=
  ⟨hshut, _, hscan, quiet_tag body⟩

theorem scan_startTag (hname : IsName name) (h : Printable attrs) :
    Markup.Reads .text (startTag name attrs) .text [.tag (tagText name attrs)] :=
  (scan_tagText hname h).append (Markup.reads_tagEnd _)

theorem scan_emptyTag (hname : IsName name) (h : Printable attrs) :
    Markup.Reads .text (emptyTag name attrs) .text
      [.tag (tagText name attrs ++ [' '.toUInt8, '/'.toUInt8])] := by
  have hslash : ∀ c ∈ [' '.toUInt8, '/'.toUInt8], Markup.TagByte c :=
    List.forall_mem_cons.2 ⟨by decide, List.forall_mem_singleton.2 (by decide)⟩
  exact (scan_tagText hname h).append
    ((Markup.reads_tag _ hslash).append (Markup.reads_tagEnd _))

theorem scan_endTag (hname : IsName name) :
    Markup.Reads .text (endTag name) .text [.tag ('/'.toUInt8 :: name)] :=
  Markup.reads_tagText (by decide) fun b hb =>
    tagByte_of_isNameByte (List.all_eq_true.1 hname.2 b hb)

theorem Still.startTag (hname : IsName name) (h : Printable attrs)
    (hshut : XmlReader.shut true (startTag name attrs) = true) :
    Still raw (startTag name attrs) :=
  still_tag hshut (scan_startTag hname h)

theorem Still.emptyTag (hname : IsName name) (h : Printable attrs)
    (hshut : XmlReader.shut true (emptyTag name attrs) = true) :
    Still raw (emptyTag name attrs) :=
  still_tag hshut (scan_emptyTag hname h)

theorem Still.endTag (hname : IsName name)
    (hshut : XmlReader.shut true (endTag name) = true) :
    Still raw (endTag name) :=
  still_tag hshut (scan_endTag hname)

/-- A start tag with one attribute. -/
theorem Still.startTag_value {a : List UInt8 × List UInt8} (hname : IsName name)
    (h : Printable [a]) (hvalue : '>'.toUInt8 ∉ a.2) :
    Still raw (XmlReader.startTag name [a]) := by
  have hbytes : ∀ {n : List UInt8}, IsName n → '>'.toUInt8 ∉ n := fun hn hmem =>
    (tagByte_of_isNameByte (List.all_eq_true.1 hn.2 _ hmem)).1 rfl
  have hkey := hbytes (h.keys a List.mem_cons_self)
  have htext : XmlReader.startTag name [a]
      = '<'.toUInt8 :: (name ++ ' '.toUInt8 :: (a.1 ++ '='.toUInt8 :: '"'.toUInt8 ::
        a.2)) ++ ['"'.toUInt8, '>'.toUInt8] := by
    simp [XmlReader.startTag, tagText, attrText]
  refine .startTag hname h (htext ▸ shut_quoted ?_)
  simp +decide [hbytes hname, hkey, hvalue]

/-- The end of a line. -/
theorem still_newline : Still raw ['\n'.toUInt8] :=
  ⟨by decide, _, Markup.reads_chars (List.forall_mem_singleton.2 (by decide)),
    .of_eventCost (List.forall_mem_singleton.2 ⟨by decide, by decide⟩) (by decide)⟩

/-- An element with a text, if it is not one that is asked for. -/
theorem Still.leaf {printed : List UInt8} (hname : IsName name)
    (hraw : raw name = false)
    (hstart : XmlReader.shut true (XmlReader.startTag name []) = true)
    (hend : XmlReader.shut true (XmlReader.endTag name) = true)
    (h : Spelled printed) :
    Still raw (XmlReader.startTag name [] ++ printed ++ XmlReader.endTag name) := by
  obtain ⟨hgt, es, hes, hcharacters⟩ := h
  have hprintable : Printable [] :=
    ⟨List.forall_mem_nil _, List.forall_mem_nil _, List.nodup_nil⟩
  exact ⟨shut_append (shut_append hstart (shut_of_not_mem hgt true)) hend, _,
    ((scan_startTag hname hprintable).append hes).append (scan_endTag hname),
    quiet_leaf (parseTag_opening hname hprintable) hraw hcharacters⟩

end Printed

/-! ## Documents in lines -/

section Lines

variable {raw : List UInt8 → Bool}

/-- A line of a document, with something in it that is printed as it is. -/
structure Line (raw : List UInt8 → Bool) where
  before : List UInt8
  inside : List UInt8
  behind : List UInt8
  cost : Nat
  before_still : Still raw before
  inside_costs : Costs raw inside cost
  behind_still : Still raw behind
  behind_tag : behind.head? = some '<'.toUInt8
  behind_line : '\n'.toUInt8 ∈ behind

def Line.text (line : Line raw) : List UInt8 :=
  line.before ++ line.inside ++ line.behind

/-- What is behind the inside of a line costs no more than the lines that follow. -/
theorem Line.behind_costs (lines : List (Line raw)) {tail : List UInt8}
    (htail : Still raw tail) (line : Line raw) :
    Costs raw (line.behind ++ (lines.flatMap Line.text ++ tail))
      (lines.map Line.cost).sum := by
  have hcosts : ∀ (line : Line raw) {markup : List UInt8}, Still raw markup →
      Costs raw (line.behind ++ markup) 0 := by
    intro line markup hmarkup
    refine (line.behind_still.append hmarkup).costs ?_
      (Or.inr (List.mem_append_left _ line.behind_line))
    rw [List.head?_append, line.behind_tag]
    rfl
  induction lines generalizing line with
  | nil => simpa using hcosts line htail
  | cons next lines ih =>
    have hnext := (hcosts line next.before_still).append
      (next.inside_costs.append (ih next))
    simpa [Line.text] using hnext

/-- A document in lines costs no more than its lines. -/
theorem read_lines {lines : List (Line raw)} {head tail : List UInt8}
    {events : List XmlEvent} (hhead : Still raw head) (htail : Still raw tail)
    (h : read (head ++ (lines.flatMap Line.text ++ tail)) = some events) :
    rawCost raw false events ≤ (lines.map Line.cost).sum := by
  unfold read at h
  split_ifs at h
  obtain ⟨es, hscan, h⟩ := Option.bind_eq_some_iff.1 h
  obtain ⟨⟨s, out⟩, hrun, h⟩ := Option.bind_eq_some_iff.1 h
  split_ifs at h
  obtain rfl := Option.some.inj h
  have hleads : Place.Leads ⟨.text, ⟨[], [], 0, false⟩⟩
      (head ++ (lines.flatMap Line.text ++ tail)) ⟨.text, s⟩ out :=
    ⟨es, Markup.scan_eq_some_iff.1 hscan, hrun⟩
  have hstart : Place.cost ⟨.text, ⟨[], [], 0, false⟩⟩ = 0 := by
    rw [Place.cost, pendingCost_of_nil rfl, Nat.add_zero]
    exact scanCost_text
  dsimp only
  cases lines with
  | nil =>
    have hcost := (hhead.append htail).leads rfl hleads
    rw [hstart] at hcost
    omega
  | cons line lines =>
    have hsplit : head ++ ((line :: lines).flatMap Line.text ++ tail)
        = (head ++ line.before) ++ (line.inside ++
          (line.behind ++ (lines.flatMap Line.text ++ tail))) := by
      simp [Line.text]
    rw [hsplit] at hleads
    obtain ⟨p, out₁, out₂, h₁, h₂, rfl⟩ := hleads.split
    have hbefore := (hhead.append line.before_still).leads rfl h₁
    have hbehind := line.inside_costs.append (line.behind_costs lines htail) h₂
    have happend := rawCost_append_le raw false out₁ out₂
    rw [hstart] at hbefore
    rw [List.map_cons, List.sum_cons]
    omega

end Lines

end XmlReader
