import Libedi.ConvertSteps
import Libedi.Lib.Markup

/-!
# Data and markup

Whether the text that `segment_to_xml` writes reads back as the converter meant
it: each tag, each comment and each character where it was put (`Neutral`).  The
strings of the tables are taken to be plain words (`PlainTables`).

Values go through `escape_xml`, or are found in a table before they are written.
The tag of an unknown segment goes into a comment as it is, and two dashes in a
row end the comment there (`segmentToXml_neutral_iff`).
-/

namespace Libedi

open Markup

/-! ## What is meant -/

/-- The characters of a piece of text. -/
def Part.events : Part → List Event
  | plain text => text.map .char
  | escaped src => src.map fun c =>
    if c = '<'.toUInt8 then .reference (ascii "lt")
    else if c = '&'.toUInt8 then .reference (ascii "amp")
    else .char c

/-- What a reader is to find of an item. -/
def Xml.events : Xml → List Event
  | openTag name attrs =>
    [.tag (name ++ if attrs = [] then [] else ascii " " ++ attrs)]
  | closeTag name => [.tag (ascii "/" ++ name)]
  | emptyTag name => [.tag (name ++ ascii " /")]
  | comment parts =>
    [.comment (ascii " " ++ parts.flatMap Part.render ++ ascii " ")]
  | chars parts => parts.flatMap Part.events

/-- The tags that the tables give, with no byte of a segment in them. -/
def FromTables (all : EdistructAll) : Xml → Prop
  | .openTag name attrs =>
    (∃ s ∈ all.segs, name = ascii "S:" ++ s.title2 ∧ attrs = []) ∨
    (∃ c ∈ all.comps, name = ascii "C:" ++ c.title2 ∧ attrs = []) ∨
    (∃ e ∈ all.elems, name = ascii "E:" ++ e.title2 ∧ attrs = []) ∨
    name = ascii "X:coded" ∧ ∃ t ∈ all.codes, ∃ z ∈ t.vals,
      attrs = ascii "code=\"" ++ z.name ++ ascii "\""
  | .closeTag name =>
    (∃ s ∈ all.segs, name = ascii "S:" ++ s.title2) ∨
    (∃ c ∈ all.comps, name = ascii "C:" ++ c.title2) ∨
    (∃ e ∈ all.elems, name = ascii "E:" ++ e.title2) ∨ name = ascii "X:coded"
  | .emptyTag name =>
    ∃ t ∈ all.codes, ∃ z ∈ t.vals, name = ascii "Z:" ++ z.title2
  | .comment _ => True
  | .chars _ => True

/-- The text of the steps reads back as it was meant, and its tags are from the
tables. -/
def Neutral (all : EdistructAll) (steps : List Step) : Prop :=
  scan ((written steps).flatMap Xml.render)
    = some ((written steps).flatMap Xml.events) ∧
  ∀ x ∈ written steps, FromTables all x

/-! ## Plain words -/

/-- Letters, digits, spaces and underscores. -/
def isPlain (c : UInt8) : Bool :=
  'a'.toUInt8 ≤ c && c ≤ 'z'.toUInt8 || 'A'.toUInt8 ≤ c && c ≤ 'Z'.toUInt8 ||
    '0'.toUInt8 ≤ c && c ≤ '9'.toUInt8 || c == ' '.toUInt8 || c == '_'.toUInt8

/-- A string of letters, digits, spaces and underscores. -/
def Plain (b : Bytes) : Prop := ∀ c ∈ b, isPlain c = true

instance (b : Bytes) : Decidable (Plain b) :=
  List.decidableBAll _ b

/-- The strings of a segment or composite. -/
def EdistructSegment.Plain (s : EdistructSegment) : Prop :=
  Libedi.Plain s.name ∧ Libedi.Plain s.title ∧ Libedi.Plain s.title2 ∧
    Libedi.Plain s.function ∧ ∀ child ∈ s.children, Libedi.Plain child.code

/-- All strings of the tables are plain words. -/
structure PlainTables (all : EdistructAll) : Prop where
  segs : ∀ s ∈ all.segs, s.Plain
  comps : ∀ c ∈ all.comps, c.Plain
  elems : ∀ e ∈ all.elems, Plain e.name ∧ Plain e.title ∧ Plain e.title2 ∧
    Plain e.function
  codes : ∀ t ∈ all.codes, Plain t.el ∧ ∀ z ∈ t.vals,
    Plain z.name ∧ Plain z.title ∧ Plain z.title2 ∧ Plain z.function

/-- What a plain byte is not. -/
theorem isPlain_spec {c : UInt8} (h : isPlain c = true) :
    TagByte c ∧ c ≠ '&'.toUInt8 ∧ c ≠ '-'.toUInt8 := by
  have hspecial : ∀ d ∈ ['>'.toUInt8, '<'.toUInt8, '"'.toUInt8, '\''.toUInt8,
      '&'.toUInt8, '-'.toUInt8], isPlain d = false :=
    forall_mem_of_all (by decide)
  have hne : ∀ d ∈ ['>'.toUInt8, '<'.toUInt8, '"'.toUInt8, '\''.toUInt8,
      '&'.toUInt8, '-'.toUInt8], c ≠ d := by
    rintro d hd rfl
    simp [hspecial c hd] at h
  simp only [List.forall_mem_cons] at hne
  obtain ⟨hgt, hlt, hquote, hapos, hamp, hdash, -⟩ := hne
  exact ⟨⟨hgt, hlt, hquote, hapos⟩, hamp, hdash⟩

theorem Plain.escapeXml {b : Bytes} (h : Plain b) : escapeXml b = b := by
  induction b with
  | nil => rfl
  | cons c b ih =>
    have hc := isPlain_spec (h c List.mem_cons_self)
    have hrest := ih (List.forall_mem_of_forall_mem_cons h)
    unfold Libedi.escapeXml at hrest ⊢
    rw [List.flatMap_cons, hrest, if_neg hc.1.2.1, if_neg hc.2.1,
      List.singleton_append]

theorem Plain.dashes {b : Bytes} (h : Plain b) :
    b.count '-'.toUInt8 = 0 := by
  rw [List.count_eq_zero]
  exact fun hmem => (isPlain_spec (h _ hmem)).2.2 rfl

/-- A number has at most one dash. -/
theorem formatD_dashes (n : Nat) : (formatD n).count '-'.toUInt8 ≤ 1 := by
  have hdigits : ∀ m : Nat, (ascii (Nat.repr m)).count '-'.toUInt8 = 0 := by
    intro m
    rw [List.count_eq_zero, ascii, Nat.repr, String.toList_ofList]
    intro hmem
    obtain ⟨c, hc, hdash⟩ := List.mem_map.1 hmem
    have hdigit := Nat.isDigit_of_mem_toDigits (by decide) (by decide) hc
    have hrange : 48 ≤ c.val.toNat ∧ c.val.toNat ≤ 57 := by
      simpa [Char.isDigit, UInt32.le_iff_toNat_le] using hdigit
    have hbyte : c.val.toNat % 256 = 45 := congrArg UInt8.toNat hdash
    omega
  unfold formatD
  generalize (BitVec.ofNat 32 n).toInt = i
  cases i with
  | ofNat m =>
    show (ascii (Nat.repr m)).count '-'.toUInt8 ≤ 1
    rw [hdigits]
    exact Nat.zero_le 1
  | negSucc m =>
    have hrepr : ascii (toString (Int.negSucc m))
        = '-'.toUInt8 :: ascii (Nat.repr (m + 1)) := by
      show ascii ("-" ++ Nat.repr (m + 1)) = _
      rw [ascii, String.toList_append, List.map_append]
      rfl
    rw [hrepr, List.count_cons_self]
    exact Nat.succ_le_succ (Nat.le_of_eq (hdigits (m + 1)))

/-! ## Items that read back -/

/-- The text of an item reads back as it was meant. -/
def ReadsBack (x : Xml) : Prop := Reads .text x.render .text x.events

/-- What the names of tags look like. -/
def TagName (name : Bytes) : Prop :=
  ∃ c body, name = c :: body ∧ TagStart c ∧ ∀ b ∈ body, TagByte b

theorem readsBack_newline : ReadsBack newline := by
  unfold ReadsBack
  decide

theorem tagName_code : TagName (ascii "X:coded") :=
  ⟨'X'.toUInt8, ascii ":coded", rfl, by decide,
    forall_mem_of_all (by decide)⟩

/-- A title behind one of the namespaces of the tables. -/
theorem tagName_title {start : UInt8} (hstart : TagStart start) {title : Bytes}
    (h : Plain title) : TagName (start :: ':'.toUInt8 :: title) := by
  refine ⟨start, ':'.toUInt8 :: title, rfl, hstart, ?_⟩
  rw [List.forall_mem_cons]
  exact ⟨by decide, fun b hb => (isPlain_spec (h b hb)).1⟩

theorem TagName.bytes {name : Bytes} (h : TagName name) :
    ∀ b ∈ name, TagByte b := by
  obtain ⟨c, body, rfl, hc, hbody⟩ := h
  exact List.forall_mem_cons.2 ⟨hc.2.2, hbody⟩

theorem readsBack_openTag {name : Bytes} (h : TagName name) :
    ReadsBack (.openTag name []) := by
  obtain ⟨c, body, rfl, hc, hbody⟩ := h
  have hreads := reads_tagText hc hbody
  unfold ReadsBack
  simpa [Xml.render, Xml.events, ascii] using hreads

theorem readsBack_closeTag {name : Bytes} (h : TagName name) :
    ReadsBack (.closeTag name) := by
  have hreads := reads_tagText (c := '/'.toUInt8) (by decide) h.bytes
  unfold ReadsBack
  simpa [Xml.render, Xml.events, ascii] using hreads

theorem readsBack_emptyTag {name : Bytes} (h : TagName name) :
    ReadsBack (.emptyTag name) := by
  obtain ⟨c, body, rfl, hc, hbody⟩ := h
  have hbody' : ∀ b ∈ body ++ [' '.toUInt8, '/'.toUInt8], TagByte b :=
    List.forall_mem_append.2 ⟨hbody, forall_mem_of_all (by decide)⟩
  have hreads := reads_tagText hc hbody'
  unfold ReadsBack
  simpa [Xml.render, Xml.events, ascii] using hreads

theorem readsBack_coded {val : Bytes} (h : Plain val) :
    ReadsBack (.openTag (ascii "X:coded")
      (ascii "code=\"" ++ val ++ ascii "\"")) := by
  have hvalue : ∀ b ∈ val, b ≠ '<'.toUInt8 ∧ b ≠ '"'.toUInt8 := by
    intro b hb
    obtain ⟨-, hlt, hquote, -⟩ := (isPlain_spec (h b hb)).1
    exact ⟨hlt, hquote⟩
  have hbody : ∀ b ∈ ascii ":coded code=", TagByte b :=
    forall_mem_of_all (by decide)
  have hreads := reads_quotedTagText (c := 'X'.toUInt8) (by decide) hbody hvalue
  unfold ReadsBack
  simpa [Xml.render, Xml.events, ascii] using hreads

theorem readsBack_escaped (src : Bytes) : ReadsBack (.chars [.escaped src]) := by
  have hevents : (Xml.chars [.escaped src]).events
      = src.flatMap fun c =>
        [if c = '<'.toUInt8 then Event.reference (ascii "lt")
          else if c = '&'.toUInt8 then .reference (ascii "amp")
          else .char c] := by
    simp [Xml.events, Part.events, List.map_eq_flatMap]
  have hrender : (Xml.chars [.escaped src]).render = escapeXml src := by
    simp [Xml.render, Part.render]
  rw [ReadsBack, hevents, hrender, escapeXml]
  refine Reads.flatMap fun c _ => ?_
  by_cases hlt : c = '<'.toUInt8
  · subst hlt
    decide
  · rw [if_neg hlt, if_neg hlt]
    by_cases hamp : c = '&'.toUInt8
    · subst hamp
      decide
    · rw [if_neg hamp, if_neg hamp]
      exact reads_chars (by simp [hlt, hamp])

theorem render_comment (parts : List Part) :
    (Xml.comment parts).render
      = commentText (ascii " " ++ parts.flatMap Part.render ++ ascii " ") := by
  simp [Xml.render, commentText, commentStart, ascii]

/-- A comment with one dash at most. -/
theorem readsBack_comment {parts : List Part}
    (h : (parts.flatMap Part.render).count '-'.toUInt8 ≤ 1) :
    ReadsBack (.comment parts) := by
  have hbody : ¬ doubleDash <:+:
      ascii " " ++ parts.flatMap Part.render ++ ascii " " := by
    intro hinfix
    have hle := hinfix.sublist.count_le '-'.toUInt8
    have hdashes : doubleDash.count '-'.toUInt8 = 2 := by decide
    have hspace : (ascii " ").count '-'.toUInt8 = 0 := by decide
    rw [List.count_append, List.count_append, hdashes, hspace] at hle
    omega
  rw [ReadsBack, render_comment]
  refine reads_commentText hbody ?_
  have hlast : (ascii " ").getLast? = some ' '.toUInt8 := by decide
  rw [List.getLast?_append, hlast, Option.some_or]
  decide

/-! ## The steps of a segment -/

/-- Each item reads back, and is from the tables if it is a tag. -/
def ItemsNeutral (all : EdistructAll) (xs : List Xml) : Prop :=
  ∀ x ∈ xs, ReadsBack x ∧ FromTables all x

theorem ItemsNeutral.neutral {all : EdistructAll} {steps : List Step}
    (h : ItemsNeutral all (written steps)) : Neutral all steps :=
  ⟨scan_eq_some_iff.2 (Reads.flatMap fun x hx => (h x hx).1),
    fun x hx => (h x hx).2⟩

section Items

variable {all : EdistructAll}

theorem itemsNeutral_nil : ItemsNeutral all [] :=
  fun _ hx => absurd hx List.not_mem_nil

theorem ItemsNeutral.append {xs ys : List Xml} (hx : ItemsNeutral all xs)
    (hy : ItemsNeutral all ys) : ItemsNeutral all (xs ++ ys) :=
  List.forall_mem_append.2 ⟨hx, hy⟩

theorem ItemsNeutral.cons {x : Xml} {xs : List Xml} (hx : ReadsBack x)
    (htables : FromTables all x) (h : ItemsNeutral all xs) :
    ItemsNeutral all (x :: xs) :=
  List.forall_mem_cons.2 ⟨⟨hx, htables⟩, h⟩

theorem itemsNeutral_newline : ItemsNeutral all [newline] :=
  .cons readsBack_newline trivial itemsNeutral_nil

theorem ItemsNeutral.outIf {c : Prop} [Decidable c] {xs : List Xml}
    (h : ItemsNeutral all xs) : ItemsNeutral all (written (outIf c xs)) := by
  rw [written_outIf]
  split
  · exact h
  · exact itemsNeutral_nil

variable (opts : Edi2xmlConfig)

theorem itemsNeutral_error {msg : Bytes} (h : msg.count '-'.toUInt8 ≤ 1) :
    ItemsNeutral all (written (error opts msg)) := by
  refine ItemsNeutral.outIf (.cons (readsBack_comment ?_) trivial
    itemsNeutral_newline)
  have herror : (ascii "ERROR: ").count '-'.toUInt8 = 0 := by decide
  simpa [Part.render, List.count_append, herror] using h

theorem itemsNeutral_extraData {tag : Bytes} (htag : Plain tag)
    (es : List EdiElement) :
    ItemsNeutral all (written (extraData opts tag es)) := by
  unfold extraData
  split
  · exact itemsNeutral_nil
  · refine itemsNeutral_error opts ?_
    have hnumber := formatD_dashes es.length
    have hextra : (ascii "extra data (").count '-'.toUInt8 = 0 := by decide
    have helement : (ascii " element").count '-'.toUInt8 = 0 := by decide
    have hplural : (if 1 < es.length then ascii "s" else []).count
        '-'.toUInt8 = 0 := by
      split <;> decide
    have hat : (ascii ") at segment ").count '-'.toUInt8 = 0 := by decide
    have htail : (ascii " tail").count '-'.toUInt8 = 0 := by decide
    simpa [List.count_append, htag.dashes, hextra, helement, hplural, hat,
      htail] using hnumber

variable (h : PlainTables all)

include h

theorem itemsNeutral_codedToXml (name val : Bytes) :
    ItemsNeutral all (written (codedToXml opts all name val).1) ∧
      ∀ xs, (codedToXml opts all name val).2 = some xs →
        ItemsNeutral all xs := by
  unfold codedToXml
  split
  · exact ⟨itemsNeutral_nil, by simp⟩
  · exact ⟨itemsNeutral_nil, by simp⟩
  · next z hz =>
    obtain ⟨tab, htab, -, hmem, rfl⟩ := findCodedValue_sound hz
    obtain ⟨hname, htitle, htitle2, hfunction⟩ := (h.codes tab htab).2 z hmem
    constructor
    · refine ItemsNeutral.outIf (.cons (readsBack_comment ?_) trivial
        itemsNeutral_nil)
      have hcolon : (ascii ": ").count '-'.toUInt8 = 0 := by decide
      have hcomma : (ascii ", ").count '-'.toUInt8 = 0 := by decide
      simp [Part.render, List.count_append, hname.dashes, htitle.dashes,
        hfunction.dashes, hcolon, hcomma]
    · intro xs hxs
      by_cases htranslate : opts.translateCodedValues = true
      · rw [if_pos htranslate, Option.some.injEq] at hxs
        subst hxs
        split
        · exact .cons (readsBack_emptyTag (tagName_title (by decide) htitle2))
            ⟨tab, htab, z, hmem, rfl⟩ itemsNeutral_nil
        · refine .cons (readsBack_coded hname)
            (Or.inr (Or.inr (Or.inr ⟨rfl, tab, htab, z, hmem, rfl⟩))) ?_
          refine .cons (readsBack_escaped z.title) trivial ?_
          exact .cons (readsBack_closeTag tagName_code)
            (Or.inr (Or.inr (Or.inr rfl))) itemsNeutral_nil
      · simp [htranslate] at hxs

theorem itemsNeutral_elementToXml {name : Bytes} (hname : Plain name)
    (val : Bytes) :
    ItemsNeutral all (written (elementToXml opts all name val)) := by
  unfold elementToXml
  rw [written_element, written_append]
  have hcomment : ItemsNeutral all [.comment [.plain name], newline] :=
    .cons (readsBack_comment (by simp [Part.render, hname.dashes])) trivial
      itemsNeutral_newline
  refine hcomment.outIf.append ?_
  split
  · exact itemsNeutral_nil
  · refine itemsNeutral_error opts ?_
    have hunknown : (ascii "unknown element ").count '-'.toUInt8 = 0 := by
      decide
    simp [List.count_append, hname.dashes, hunknown]
  · next e he =>
    have hmem := (BinarySearch.find_sound he).1
    obtain ⟨-, -, htitle2, -⟩ := h.elems e hmem
    have htag : TagName (ascii "E:" ++ e.title2) :=
      tagName_title (by decide) htitle2
    have hcoded := itemsNeutral_codedToXml opts h name val
    generalize hr : (if e.isCoded = true then codedToXml opts all name val
      else ([], none)) = r
    have hbefore : ItemsNeutral all (written r.1) := by
      rw [← hr]
      split
      · exact hcoded.1
      · exact itemsNeutral_nil
    have htext : ItemsNeutral all (r.2.getD [.chars [.escaped val]]) := by
      cases hxs : r.2 with
      | none => exact .cons (readsBack_escaped val) trivial itemsNeutral_nil
      | some xs =>
        rw [← hr] at hxs
        split at hxs
        · exact hcoded.2 xs hxs
        · simp at hxs
    have hclose : ItemsNeutral all [.closeTag (ascii "E:" ++ e.title2),
        newline] :=
      .cons (readsBack_closeTag htag)
        (Or.inr (Or.inr (Or.inl ⟨e, hmem, rfl⟩))) itemsNeutral_newline
    have hopen : ItemsNeutral all [.openTag (ascii "E:" ++ e.title2) []] :=
      .cons (readsBack_openTag htag)
        (Or.inr (Or.inr (Or.inl ⟨e, hmem, rfl, rfl⟩))) itemsNeutral_nil
    have hall := hopen.append (hbefore.append (htext.append hclose))
    simpa using hall

theorem itemsNeutral_elementMissingXml {name : Bytes} (hname : Plain name) :
    ItemsNeutral all (written (elementMissingXml opts all name)) := by
  have hno : (ascii "[no ").count '-'.toUInt8 = 0 := by decide
  have hcolon : (ascii ": ").count '-'.toUInt8 = 0 := by decide
  have hend : (ascii "]").count '-'.toUInt8 = 0 := by decide
  unfold elementMissingXml
  split
  · split
    · exact itemsNeutral_nil
    · next e he =>
      obtain ⟨-, htitle, -, -⟩ := h.elems e (BinarySearch.find_sound he).1
      refine .cons (readsBack_comment ?_) trivial itemsNeutral_newline
      simp [Part.render, List.count_append, hname.dashes, htitle.escapeXml,
        htitle.dashes, hno, hcolon, hend]
    · refine .cons (readsBack_comment ?_) trivial itemsNeutral_newline
      simp [Part.render, List.count_append, hname.dashes, hno, hend]
  · exact itemsNeutral_nil

theorem itemsNeutral_componentsToXml {cs : List EdistructChild}
    (hcs : ∀ child ∈ cs, Plain child.code) (vs : List EdiValue) :
    ItemsNeutral all (written (componentsToXml opts all cs vs)) := by
  fun_induction componentsToXml opts all cs vs with
  | case1 vs => exact itemsNeutral_nil
  | case2 c cs ih =>
    rw [List.forall_mem_cons] at hcs
    rw [written_append]
    exact (itemsNeutral_elementMissingXml opts h hcs.1).append (ih hcs.2)
  | case3 c cs v vs ih =>
    rw [List.forall_mem_cons] at hcs
    rw [written_append]
    refine ItemsNeutral.append ?_ (ih hcs.2)
    split
    · exact itemsNeutral_elementToXml opts h hcs.1 v.value
    · exact itemsNeutral_elementMissingXml opts h hcs.1

theorem itemsNeutral_compositeToXml {code : Bytes} (hcode : Plain code)
    {cstruct : Option EdistructComposite}
    (hcstruct : ∀ c ∈ cstruct, c ∈ all.comps) (vs : List EdiValue) :
    ItemsNeutral all (written (compositeToXml opts all code cstruct vs)) := by
  unfold compositeToXml
  rw [written_append]
  have hcomment : ItemsNeutral all [.comment [.plain code]] :=
    .cons (readsBack_comment (by simp [Part.render, hcode.dashes])) trivial
      itemsNeutral_nil
  refine hcomment.outIf.append ?_
  cases cstruct with
  | none => exact itemsNeutral_nil
  | some c =>
    have hmem : c ∈ all.comps := hcstruct c rfl
    obtain ⟨-, -, htitle2, -, hchildren⟩ := h.comps c hmem
    have htag : TagName (ascii "C:" ++ c.title2) :=
      tagName_title (by decide) htitle2
    have hopen : ItemsNeutral all [.openTag (ascii "C:" ++ c.title2) [],
        newline] :=
      .cons (readsBack_openTag htag) (Or.inr (Or.inl ⟨c, hmem, rfl, rfl⟩))
        itemsNeutral_newline
    have hclose : ItemsNeutral all [.closeTag (ascii "C:" ++ c.title2),
        newline] :=
      .cons (readsBack_closeTag htag) (Or.inr (Or.inl ⟨c, hmem, rfl⟩))
        itemsNeutral_newline
    have hall := hopen.append
      ((itemsNeutral_componentsToXml opts h hchildren vs).append hclose)
    simpa using hall

theorem itemsNeutral_childrenToXml {cs : List EdistructChild}
    (hcs : ∀ child ∈ cs, Plain child.code) (es : List EdiElement) :
    ItemsNeutral all (written (childrenToXml opts all cs es).1) := by
  have hmissing : ∀ {code : Bytes}, Plain code →
      ItemsNeutral all (written (error opts (ascii "mandatory element " ++
        code ++ ascii " is missing"))) := by
    intro code hcode
    refine itemsNeutral_error opts ?_
    have hbefore : (ascii "mandatory element ").count '-'.toUInt8 = 0 := by
      decide
    have hbehind : (ascii " is missing").count '-'.toUInt8 = 0 := by decide
    simp [List.count_append, hcode.dashes, hbefore, hbehind]
  fun_induction childrenToXml opts all cs es with
  | case1 es => exact itemsNeutral_nil
  | case2 => exact itemsNeutral_nil
  | case3 child children _ _ _ ih =>
    rw [List.forall_mem_cons] at hcs
    exact ih hcs.2
  | case4 child => exact hmissing (hcs child List.mem_cons_self)
  | case5 => exact itemsNeutral_nil
  | case6 child children _ e es _ _ _ r ih =>
    rw [List.forall_mem_cons] at hcs
    rw [written_append]
    exact (itemsNeutral_elementMissingXml opts h hcs.1).append (ih hcs.2)
  | case7 child => exact hmissing (hcs child List.mem_cons_self)
  | case8 child children cstruct e es hstruct values _ r ih =>
    rw [List.forall_mem_cons] at hcs
    rw [written_append]
    refine (itemsNeutral_compositeToXml opts h hcs.1 ?_ values).append
      (ih hcs.2)
    rintro c rfl
    unfold childStruct at hstruct
    split at hstruct
    · exact (BinarySearch.find_sound hstruct).1
    · simp at hstruct
  | case9 child children cstruct e es _ v _ r ih =>
    rw [List.forall_mem_cons] at hcs
    rw [written_append]
    exact (itemsNeutral_elementToXml opts h hcs.1 v.value).append (ih hcs.2)

theorem itemsNeutral_segmentToXml {seg : EdiSegment} {tag : Bytes}
    {s : EdistructSegment} (htag : seg.tag = some tag)
    (hs : findEdistructSegment all tag = some (some s)) :
    ItemsNeutral all (written (segmentToXml opts all seg)) := by
  obtain ⟨hmem, heq⟩ := BinarySearch.find_sound hs
  obtain rfl := strcmp_eq_iff.1 heq
  obtain ⟨hname, -, htitle2, -, hchildren⟩ := h.segs s hmem
  have hrun : segmentToXml opts all seg =
      if seg.elements = [] then [.fault .element]
      else
        let r := childrenToXml opts all s.children
          (dataElements s.name seg.elements)
        outIf opts.commentsSegmentNames
            [.comment [.plain s.name], newline] ++
          .out [.openTag (ascii "S:" ++ s.title2) [], newline] ::
          (r.1 ++ extraData opts s.name r.2 ++
          [.out [.closeTag (ascii "S:" ++ s.title2), newline]]) := by
    simp only [segmentToXml, htag, hs]
  rw [hrun]
  split
  · exact itemsNeutral_nil
  · have hcomment : ItemsNeutral all [.comment [.plain s.name], newline] :=
      .cons (readsBack_comment (by simp [Part.render, hname.dashes])) trivial
        itemsNeutral_newline
    have htitle : TagName (ascii "S:" ++ s.title2) :=
      tagName_title (by decide) htitle2
    have hopen : ItemsNeutral all [.openTag (ascii "S:" ++ s.title2) [],
        newline] :=
      .cons (readsBack_openTag htitle) (Or.inl ⟨s, hmem, rfl, rfl⟩)
        itemsNeutral_newline
    have hclose : ItemsNeutral all [.closeTag (ascii "S:" ++ s.title2),
        newline] :=
      .cons (readsBack_closeTag htitle) (Or.inl ⟨s, hmem, rfl⟩)
        itemsNeutral_newline
    have hdata := (itemsNeutral_childrenToXml opts h hchildren
      (dataElements s.name seg.elements)).append
      (itemsNeutral_extraData opts hname (childrenToXml opts all s.children
        (dataElements s.name seg.elements)).2)
    have hnames : ItemsNeutral all (written (outIf
        (opts.commentsSegmentNames = true)
        [.comment [.plain s.name], newline])) := hcomment.outIf
    have hall := hnames.append (hopen.append (hdata.append hclose))
    simpa using hall

end Items

/-! ## Segments -/

/-- What stands in the comment on an unknown segment. -/
def unknownSegment (tag : Bytes) : Bytes :=
  ascii " " ++ (ascii "ERROR: " ++ (ascii "unknown segment " ++ tag)) ++
    ascii " "

/-- Only the tag can bring two dashes in a row. -/
theorem doubleDash_unknownSegment_iff (tag : Bytes) :
    doubleDash <:+: unknownSegment tag ↔ doubleDash <:+: tag := by
  have hbefore : ∀ before : Bytes, (∀ c ∈ before, c ≠ '-'.toUInt8) →
      ∀ body, doubleDash <:+: before ++ body ↔ doubleDash <:+: body := by
    intro before hbefore body
    induction before with
    | nil => rfl
    | cons c before ih =>
      rw [List.forall_mem_cons] at hbefore
      rw [List.cons_append, doubleDash_cons_iff hbefore.1, ih hbefore.2]
  have hbehind : doubleDash <:+: tag ++ ascii " " ↔ doubleDash <:+: tag := by
    have hspace : ' '.toUInt8 ≠ '-'.toUInt8 := by decide
    have hreverse := doubleDash_cons_iff hspace tag.reverse
    rw [← List.reverse_infix, ← @List.reverse_infix _ doubleDash tag,
      List.reverse_append]
    exact hreverse
  have htext : unknownSegment tag
      = ascii " ERROR: unknown segment " ++ (tag ++ ascii " ") := by
    simp [unknownSegment, ascii]
  rw [htext, hbefore _ (forall_mem_of_all (by decide)), hbehind]

/-- The comment on an unknown segment reads back exactly if its tag has no two
dashes in a row. -/
theorem neutral_unknownSegment_iff (opts : Edi2xmlConfig) (all : EdistructAll)
    (tag : Bytes) :
    Neutral all (error opts (ascii "unknown segment " ++ tag)) ↔
      ¬ (opts.commentsErrors = true ∧ doubleDash <:+: tag) := by
  have hwritten : written (error opts (ascii "unknown segment " ++ tag))
      = if opts.commentsErrors = true then [.comment [.plain (ascii "ERROR: "
        ++ (ascii "unknown segment " ++ tag))], newline] else [] := by
    simp only [error, written_error, written_outIf]
  rw [Neutral, hwritten, scan_eq_some_iff]
  by_cases hcomments : opts.commentsErrors = true
  · have htables : ∀ x ∈ [Xml.comment [.plain (ascii "ERROR: " ++
        (ascii "unknown segment " ++ tag))], newline], FromTables all x := by
      simp [newline, FromTables]
    have hrender : (Xml.comment [.plain (ascii "ERROR: " ++
        (ascii "unknown segment " ++ tag))]).render
        = commentText (unknownSegment tag) := by
      rw [render_comment]
      simp [unknownSegment, Part.render]
    have hevents : (Xml.comment [.plain (ascii "ERROR: " ++
        (ascii "unknown segment " ++ tag))]).events
        = [.comment (unknownSegment tag)] := by
      simp [unknownSegment, Xml.events, Part.render]
    rw [if_pos hcomments, List.flatMap_cons, List.flatMap_cons,
      List.flatMap_cons, List.flatMap_cons, hrender, hevents,
      ← doubleDash_unknownSegment_iff]
    constructor
    · rintro ⟨hreads, -⟩ ⟨-, hdash⟩
      exact not_reads_commentText hdash _ _ _ hreads
    · intro hdash
      have hcomment := reads_commentText
        (fun hinfix => hdash ⟨hcomments, hinfix⟩)
        (show (unknownSegment tag).getLast? ≠ some '-'.toUInt8 by
          have hlast : (ascii " ").getLast? = some ' '.toUInt8 := by decide
          rw [unknownSegment, List.getLast?_append, hlast, Option.some_or]
          decide)
      have hnewline := readsBack_newline
      rw [ReadsBack] at hnewline
      refine ⟨hcomment.append ?_, htables⟩
      simpa using hnewline
  · rw [if_neg hcomments]
    simp [hcomments, Reads.nil]

/-- The text for a segment reads back as it was meant exactly if the segment is
in the table, errors do not go into the output, or there are no two dashes in a
row in its tag. -/
theorem segmentToXml_neutral_iff (opts : Edi2xmlConfig) {all : EdistructAll}
    (h : PlainTables all) {seg : EdiSegment} {tag : Bytes}
    (htag : seg.tag = some tag) :
    Neutral all (segmentToXml opts all seg) ↔
      ¬ (opts.commentsErrors = true ∧
        findEdistructSegment all tag = some none ∧ doubleDash <:+: tag) := by
  cases hs : findEdistructSegment all tag with
  | none =>
    have hrun : segmentToXml opts all seg = [.fault .table] := by
      simp only [segmentToXml, htag, hs]
    have hneutral : Neutral all (segmentToXml opts all seg) := by
      rw [hrun]
      exact ItemsNeutral.neutral itemsNeutral_nil
    simp [hneutral]
  | some found =>
    cases found with
    | none =>
      have hrun : segmentToXml opts all seg
          = error opts (ascii "unknown segment " ++ tag) := by
        simp only [segmentToXml, htag, hs]
      rw [hrun, neutral_unknownSegment_iff]
      simp
    | some s =>
      have hneutral := (itemsNeutral_segmentToXml opts h htag hs).neutral
      simp [hneutral]

/-- `A-->B`, with errors in the output: a character of the tag closes the
comment. -/
theorem segmentToXml_closes_comment :
    ¬ Neutral sampleTables (segmentToXml ⟨false, false, false, true, false,
      false⟩ sampleTables ⟨[], some (ascii "A-->B"), 0⟩) := by
  rintro ⟨hscan, -⟩
  revert hscan
  decide +kernel

theorem sampleTables_plain : PlainTables sampleTables where
  segs := by
    simp [sampleTables, EdistructSegment.Plain]
    decide
  comps := by
    simp [sampleTables, EdistructSegment.Plain]
    decide
  elems := by
    simp [sampleTables]
    decide
  codes := by
    simp [sampleTables]
    decide

/-- `B<>-M` is not in the table, and its comment is read back. -/
theorem segmentToXml_neutral_dash :
    Neutral sampleTables (segmentToXml ⟨false, false, false, true, false,
      false⟩ sampleTables ⟨[], some (ascii "B<>-M"), 0⟩) :=
  (segmentToXml_neutral_iff _ sampleTables_plain rfl).2
    (fun h => absurd h.2.2 (by decide +kernel))

end Libedi
