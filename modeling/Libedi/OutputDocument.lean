import Libedi.Balanced
import Libedi.Exceptions
import Libedi.Generated
import Libedi.Neutral
import Libedi.Lib.XmlWriter

/-!
# The output is a document

What `edi2xml_conv` writes for an interchange, read by a reader of XML.

The tables are taken to be fit for XML (`XmlTables`): titles are names, and what
goes into comments has no two dashes in a row.  The data may be any ASCII
(`XmlData`).  `read_convSegments_iff` says when the items of the output are well
formed: the service segments and the segments of the tables make one element of
them, and no value has the end of a CDATA section in it, for `escape_xml` leaves `>`
as it is.  `read_convLoop_iff` says it of the text that is written, if `output` can
write it.

The values are read back from the elements of the output, each with the title of
its data element.  A value that was translated is not there any more (`shownAs`).
-/

namespace Libedi

open Markup (doubleDash)
open Tags (OneRoot)
open XmlReader

/-! ## Text that is fit for XML -/

/-- The text can be in a comment, between other texts. -/
structure CommentText (b : Bytes) : Prop where
  bytes : XmlBytes b
  dashes : ¬ doubleDash <:+: b

/-- A text without a dash. -/
theorem commentText_of_all {b : Bytes}
    (h : b.all (fun c => isXmlByte c && c != '-'.toUInt8) = true) :
    CommentText b := by
  have hall := List.all_eq_true.1 h
  refine ⟨fun c hc => (Bool.and_eq_true_iff.1 (hall c hc)).1, fun hpart => ?_⟩
  have hdash := hall _ (hpart.subset
    (show '-'.toUInt8 ∈ doubleDash by decide))
  exact absurd hdash (by decide)

/-- Texts can be put together if no two dashes meet. -/
theorem CommentText.append {a b : Bytes} (ha : CommentText a)
    (hb : CommentText b)
    (hmeet : a.getLast? ≠ some '-'.toUInt8 ∨ b.head? ≠ some '-'.toUInt8) :
    CommentText (a ++ b) where
  bytes := ha.bytes.append hb.bytes
  dashes := by
    rw [List.infix_append_iff_ne_nil]
    rintro (hpart | hpart | ⟨s, t, hs, ht, hsplit, hsuffix, hbegin⟩)
    · exact ha.dashes hpart
    · exact hb.dashes hpart
    · have hone : s = ['-'.toUInt8] ∧ t = ['-'.toUInt8] := by
        cases s with
        | nil => exact absurd rfl hs
        | cons c s =>
          cases s with
          | nil =>
            obtain ⟨rfl, rfl⟩ := List.cons.inj hsplit
            exact ⟨rfl, rfl⟩
          | cons d s =>
            have hlen := congrArg List.length hsplit
            have htlen := List.length_pos_of_ne_nil ht
            have htwo : doubleDash.length = 2 := rfl
            rw [htwo, List.length_append, List.length_cons, List.length_cons]
              at hlen
            omega
      obtain ⟨rfl, rfl⟩ := hone
      rcases hmeet with hlast | hhead
      · obtain ⟨a', rfl⟩ := hsuffix
        simp at hlast
      · obtain ⟨b', rfl⟩ := hbegin
        simp at hhead

/-- A text behind a text that does not end in a dash. -/
theorem CommentText.after {a b : Bytes} (hb : CommentText b)
    (ha : CommentText a) (hlast : a.getLast? ≠ some '-'.toUInt8) :
    CommentText (a ++ b) :=
  ha.append hb (Or.inl hlast)

/-- A text before a text that does not start with a dash. -/
theorem CommentText.before {a b : Bytes} (ha : CommentText a)
    (hb : CommentText b) (hhead : b.head? ≠ some '-'.toUInt8) :
    CommentText (a ++ b) :=
  ha.append hb (Or.inr hhead)

theorem decimal_commentText (n : Nat) : CommentText (decimal n) := by
  refine ⟨xmlBytes_of_words (decimal_words n), fun hpart => ?_⟩
  have hdash := hpart.subset (show '-'.toUInt8 ∈ doubleDash by decide)
  exact absurd (decimal_digits n _ hdash) (by decide)

theorem dash_commentText : CommentText ['-'.toUInt8] := by
  refine ⟨by decide, fun hpart => ?_⟩
  have hlen := hpart.length_le
  simp [doubleDash] at hlen

theorem formatD_commentText (n : Nat) : CommentText (formatD n) := by
  unfold formatD
  generalize (BitVec.ofNat 32 n).toInt = i
  cases i with
  | ofNat m => exact decimal_commentText m
  | negSucc m =>
    have hrepr : ascii (toString (Int.negSucc m))
        = '-'.toUInt8 :: decimal (m + 1) := by
      show ascii ("-" ++ Nat.repr (m + 1)) = _
      rw [ascii, String.toList_append, List.map_append]
      rfl
    rw [hrepr]
    refine dash_commentText.before (decimal_commentText (m + 1)) fun hhead => ?_
    have hmem := List.mem_of_mem_head? hhead
    exact absurd (decimal_digits (m + 1) _ hmem) (by decide)

theorem escapeXml_bytes {src : Bytes} (h : XmlBytes src) :
    XmlBytes (escapeXml src) := by
  refine xmlBytes_flatMap fun c hc => ?_
  split_ifs
  · decide
  · decide
  · exact List.forall_mem_singleton.2 (h c hc)

/-- What `escape_xml` writes for a byte is not a dash, but for a dash. -/
theorem head?_escapeXml (c : UInt8) (src : Bytes) :
    (escapeXml (c :: src)).head? = some '-'.toUInt8 ↔ c = '-'.toUInt8 := by
  rw [escapeXml, List.flatMap_cons]
  split_ifs with hlt hamp
  · have hhead : (ascii "&lt;").head? = some '&'.toUInt8 := by decide
    rw [List.head?_append, hhead, Option.some_or, hlt]
    decide
  · have hhead : (ascii "&amp;").head? = some '&'.toUInt8 := by decide
    rw [List.head?_append, hhead, Option.some_or, hamp]
    decide
  · simp

theorem CommentText.escapeXml {src : Bytes} (h : CommentText src) :
    CommentText (escapeXml src) := by
  induction src with
  | nil => exact h
  | cons c src ih =>
    obtain ⟨hbytes, hdashes⟩ := h
    rw [XmlBytes, List.forall_mem_cons] at hbytes
    have hrest := ih ⟨hbytes.2, Markup.not_doubleDash_of_cons hdashes⟩
    have hcons : Libedi.escapeXml (c :: src) = (if c = '<'.toUInt8 then
        ascii "&lt;" else if c = '&'.toUInt8 then ascii "&amp;" else [c]) ++
        Libedi.escapeXml src := rfl
    rw [hcons]
    split_ifs with hlt hamp
    · exact hrest.after (commentText_of_all (by decide)) (by decide)
    · exact hrest.after (commentText_of_all (by decide)) (by decide)
    · have hc : CommentText [c] := by
        refine ⟨List.forall_mem_singleton.2 hbytes.1, fun hpart => ?_⟩
        have hlen := hpart.length_le
        simp [doubleDash] at hlen
      refine hc.append hrest ?_
      by_cases hdash : c = '-'.toUInt8
      · subst hdash
        right
        cases src with
        | nil => decide
        | cons d src =>
          rw [Ne, head?_escapeXml]
          rintro rfl
          exact hdashes (List.prefix_append doubleDash src).isInfix
      · left
        simpa using hdash

/-! ## Items -/

/-- The item of the output is read as this one. -/
structure WritesItem (x : Xml) (i : Item) : Prop where
  prints : Prints x.render i
  bytes : XmlBytes x.render

/-- A name of an element: a letter for the namespace, and a title. -/
theorem isName_title {start : UInt8} (hstart : isNameStart start = true)
    {title : Bytes} (h : ∀ c ∈ title, isWord c = true) :
    IsName (start :: ':'.toUInt8 :: title) := by
  refine ⟨hstart, ?_⟩
  have hword : ∀ c, isWord c = true → isNameByte c = true := by
    intro c hc
    simp only [isWord, isKeyByte, decide_eq_true_eq, Bool.or_eq_true,
      Bool.decide_or] at hc
    simp only [isNameByte, isNameStart, XmlReader.isDigit, decide_eq_true_eq,
      Bool.or_eq_true, Bool.decide_or]
    tauto
  rw [List.all_cons, List.all_cons, Bool.and_eq_true, Bool.and_eq_true]
  refine ⟨?_, by decide, List.all_eq_true.2 fun c hc => hword c (h c hc)⟩
  simp [isNameByte, hstart]

theorem xmlBytes_title {start : UInt8} (hstart : isXmlByte start = true)
    {title : Bytes} (h : ∀ c ∈ title, isWord c = true) :
    XmlBytes (start :: ':'.toUInt8 :: title) :=
  List.forall_mem_cons.2 ⟨hstart,
    List.forall_mem_cons.2 ⟨by decide, xmlBytes_of_words h⟩⟩

theorem writes_openTag {name attrs : Bytes} (hname : IsName name)
    (hbytes : XmlBytes name) {as : List (Bytes × Bytes)} (has : Printable as)
    (hattrs : (if attrs = [] then [] else ascii " " ++ attrs)
      = as.flatMap attrText) (hattrBytes : XmlBytes attrs) :
    WritesItem (.openTag name attrs) (.opening name as) where
  prints := by
    have hprints := prints_startTag hname has
    rw [startTag, tagText, ← hattrs] at hprints
    simpa [Xml.render, ascii] using hprints
  bytes := by
    rw [Xml.render]
    have hspace : XmlBytes (if attrs = [] then [] else ascii " " ++ attrs) := by
      split_ifs
      · decide
      · exact XmlBytes.append (by decide) hattrBytes
    exact ((XmlBytes.append (by decide) hbytes).append hspace).append (by decide)

theorem writes_closeTag {name : Bytes} (hname : IsName name)
    (hbytes : XmlBytes name) : WritesItem (.closeTag name) (.closing name) where
  prints := by
    have hprints := prints_endTag hname
    simpa [Xml.render, ascii, endTag] using hprints
  bytes := (XmlBytes.append (by decide) hbytes).append (by decide)

theorem writes_emptyTag {name : Bytes} (hname : IsName name)
    (hbytes : XmlBytes name) : WritesItem (.emptyTag name) (.empty name) where
  prints := by
    have hprints := prints_emptyTag hname
    simpa [Xml.render, ascii, emptyTag, tagText] using hprints
  bytes := (XmlBytes.append (by decide) hbytes).append (by decide)

theorem writes_comment {parts : List Part}
    (h : CommentText (parts.flatMap Part.render)) :
    WritesItem (.comment parts) .comment where
  prints := by
    have hspace : CommentText (ascii " ") := commentText_of_all (by decide)
    have hbody := (h.after hspace (by decide)).before hspace (by decide)
    rw [render_comment]
    refine prints_comment hbody.dashes ?_
    have hlast : (ascii " ").getLast? = some ' '.toUInt8 := by decide
    rw [List.getLast?_append, hlast, Option.some_or]
    decide
  bytes := (XmlBytes.append (by decide) h.bytes).append (by decide)

theorem writes_escaped {src : Bytes} (h : XmlBytes src) :
    WritesItem (.chars [.escaped src]) (.text src) where
  prints := by
    have hrender : (Xml.chars [.escaped src]).render = escapeXml src := by
      simp [Xml.render, Part.render]
    rw [hrender]
    refine prints_text fun c _ => ?_
    split_ifs with hlt hamp
    · exact .reference (Or.inl hlt) (ascii "lt")
        (forall_mem_of_all (by decide)) (by rw [hlt]; decide)
    · exact .reference (Or.inr hamp) (ascii "amp")
        (forall_mem_of_all (by decide)) (by rw [hamp]; decide)
    · exact .self ⟨hlt, hamp⟩
  bytes := by
    simpa [Xml.render, Part.render] using escapeXml_bytes h

theorem writes_newline : WritesItem newline (.text (ascii "\n")) where
  prints := by
    have hprints : Prints ((ascii "\n").flatMap fun c => [c])
        (.text (ascii "\n")) :=
      prints_text fun c hc => by
        obtain rfl := List.mem_singleton.1 hc
        exact .self (by decide)
    exact hprints
  bytes := by decide

/-! ## The inside of an element -/

/-- The names of data elements. -/
def isElementName (name : Bytes) : Bool := (ascii "E:").isPrefixOf name

/-- The items are what may stand in an element, with these data elements. -/
def WritesInner (xs : List Xml) (ls : List Leaf) : Prop :=
  ∃ is, List.Forall₂ WritesItem xs is ∧ Inner isElementName is ls

theorem writesInner_nil : WritesInner [] [] := ⟨[], .nil, .nil⟩

theorem WritesInner.append {xs ys : List Xml} {ls ms : List Leaf}
    (hxs : WritesInner xs ls) (hys : WritesInner ys ms) :
    WritesInner (xs ++ ys) (ls ++ ms) := by
  obtain ⟨is, his, hxs⟩ := hxs
  obtain ⟨js, hjs, hys⟩ := hys
  exact ⟨is ++ js, List.rel_append his hjs, hxs.append hys⟩

theorem writesInner_newline : WritesInner [newline] [] :=
  ⟨[_], .cons writes_newline .nil, .spaces (forall_mem_of_all (by decide))⟩

theorem writesInner_comment {parts : List Part}
    (h : CommentText (parts.flatMap Part.render)) :
    WritesInner [.comment parts] [] :=
  ⟨[_], .cons (writes_comment h) .nil, .comment⟩

/-- A comment on a line of its own. -/
theorem writesInner_commentLine {parts : List Part}
    (h : CommentText (parts.flatMap Part.render)) :
    WritesInner [.comment parts, newline] [] :=
  (writesInner_comment h).append writesInner_newline

theorem WritesInner.outIf {c : Prop} [Decidable c] {xs : List Xml}
    (h : WritesInner xs []) : WritesInner (written (outIf c xs)) [] := by
  rw [written_outIf]
  split
  · exact h
  · exact writesInner_nil

/-- An element around what may stand in one. -/
theorem WritesInner.element (start : UInt8) {title : Bytes}
    (hstart : isNameStart start = true ∧ isXmlByte start = true)
    (htitle : ∀ c ∈ title, isWord c = true) {xs : List Xml} {ls : List Leaf}
    (h : WritesInner xs ls)
    (hsel : isElementName (start :: ':'.toUInt8 :: title) = false) :
    WritesInner (.openTag (start :: ':'.toUInt8 :: title) [] :: (xs ++
      [.closeTag (start :: ':'.toUInt8 :: title)])) ls := by
  obtain ⟨is, his, hinner⟩ := h
  have hname := isName_title hstart.1 htitle
  have hbytes := xmlBytes_title hstart.2 htitle
  refine ⟨_, .cons (writes_openTag hname hbytes printable_nil rfl (by decide))
    (List.rel_append his (.cons (writes_closeTag hname hbytes) .nil)),
    hinner.element _ _ (Or.inl hsel)⟩

/-! ## Tables and data -/

/-- The title is a name, and the codes of the children can be in a comment. -/
structure EdistructSegment.XmlStruct (s : EdistructSegment) : Prop where
  title : ∀ c ∈ s.title2, isWord c = true
  name : CommentText s.name
  codes : ∀ child ∈ s.children, CommentText child.code

/-- The strings of a code. -/
structure EdistructCoded.XmlCode (z : EdistructCoded) : Prop where
  title2 : ∀ c ∈ z.title2, isWord c = true
  name : CommentText z.name
  value : IsValue z.name
  title : CommentText z.title
  fine : FineText z.title
  function : CommentText z.function

/-- Tables with strings that are fit for XML. -/
structure XmlTables (all : EdistructAll) : Prop where
  segs : ∀ s ∈ all.segs, s.XmlStruct
  comps : ∀ c ∈ all.comps, c.XmlStruct
  elems : ∀ e ∈ all.elems, (∀ c ∈ e.title2, isWord c = true) ∧
    CommentText e.title
  codes : ∀ t ∈ all.codes, ∀ z ∈ t.vals, z.XmlCode

/-- The attribute of a translated value. -/
def codeAttrs (val : Bytes) : List (Bytes × Bytes) := [(ascii "code", val)]

theorem printable_codeAttrs {val : Bytes} (h : IsValue val) :
    Printable (codeAttrs val) where
  keys := List.forall_mem_singleton.2 (by decide : IsName (ascii "code"))
  values := List.forall_mem_singleton.2 h
  nodup := List.nodup_singleton _

/-- The items hold an element. -/
def WritesElement (xs : List Xml) : Prop :=
  ∃ is, List.Forall₂ WritesItem xs is ∧ Inner isElementName is [] ∧ HasElement is

/-- A translated value is an element with its title in it. -/
theorem writesElement_coded {z : EdistructCoded} (hz : z.XmlCode) :
    WritesElement [.openTag (ascii "X:coded")
      (ascii "code=\"" ++ z.name ++ ascii "\""), .chars [.escaped z.title],
      .closeTag (ascii "X:coded")] := by
  have hname : IsName (ascii "X:coded") := by decide
  have hbytes : XmlBytes (ascii "X:coded") := by decide
  have hattrs : ascii " " ++ (ascii "code=\"" ++ z.name ++ ascii "\"")
      = (codeAttrs z.name).flatMap attrText := by
    simp [codeAttrs, attrText, ascii]
  have hopen : WritesItem (.openTag (ascii "X:coded")
      (ascii "code=\"" ++ z.name ++ ascii "\""))
      (.opening (ascii "X:coded") (codeAttrs z.name)) := by
    refine writes_openTag hname hbytes (printable_codeAttrs hz.value) ?_
      ((XmlBytes.append (by decide) hz.name.bytes).append (by decide))
    rw [if_neg (by simp [ascii]), hattrs]
  exact ⟨_, .cons hopen (.cons (writes_escaped hz.title.bytes)
    (.cons (writes_closeTag hname hbytes) .nil)),
    .leaf _ _ 0 (Or.inr hz.fine), ascii "X:coded", by simp⟩

/-- A translated value may be an empty element. -/
theorem writesElement_empty {title2 : Bytes}
    (h : ∀ c ∈ title2, isWord c = true) :
    WritesElement [.emptyTag (ascii "Z:" ++ title2)] :=
  ⟨[_], .cons (writes_emptyTag (isName_title (by decide) h)
    (xmlBytes_title (by decide) h)) .nil, .empty rfl, _, Or.inr
    (List.mem_singleton.2 rfl)⟩

/-- What stands before a coded value: a comment, or nothing. -/
def WritesComment (xs : List Xml) : Prop :=
  xs = [] ∨ ∃ parts, xs = [.comment parts] ∧
    CommentText (parts.flatMap Part.render)

theorem WritesComment.writesInner {xs : List Xml} (h : WritesComment xs) :
    WritesInner xs [] := by
  rcases h with rfl | ⟨parts, rfl, hparts⟩
  · exact writesInner_nil
  · exact writesInner_comment hparts

section Element

variable {title2 : Bytes} (htitle : ∀ c ∈ title2, isWord c = true)
  {before : List Xml} (hbefore : WritesComment before)
include htitle hbefore

/-- A data element with its value. -/
theorem writesInner_value {val : Bytes} (hval : XmlBytes val) :
    WritesInner (.openTag (ascii "E:" ++ title2) [] ::
      (before ++ [.chars [.escaped val], .closeTag (ascii "E:" ++ title2)]))
      [(ascii "E:" ++ title2, val)] := by
  have hname : IsName (ascii "E:" ++ title2) := isName_title (by decide) htitle
  have hbytes : XmlBytes (ascii "E:" ++ title2) :=
    xmlBytes_title (by decide) htitle
  have hopen : WritesItem (.openTag (ascii "E:" ++ title2) [])
      (.opening (ascii "E:" ++ title2) []) :=
    writes_openTag hname hbytes printable_nil rfl (by decide)
  have hend : List.Forall₂ WritesItem
      [.chars [.escaped val], .closeTag (ascii "E:" ++ title2)]
      [.text val, .closing (ascii "E:" ++ title2)] :=
    .cons (writes_escaped hval) (.cons (writes_closeTag hname hbytes) .nil)
  have hleaf : ∀ comments, Inner isElementName
      (.opening (ascii "E:" ++ title2) [] :: (List.replicate comments .comment ++
        [.text val, .closing (ascii "E:" ++ title2)]))
      [(ascii "E:" ++ title2, val)] :=
    fun comments => @Inner.leaf isElementName _ _ comments _ (Or.inl rfl)
  rcases hbefore with rfl | ⟨parts, rfl, hparts⟩
  · exact ⟨_, .cons hopen hend, hleaf 0⟩
  · exact ⟨_, .cons hopen (.cons (writes_comment hparts) hend), hleaf 1⟩

/-- A data element with a translated value. -/
theorem WritesElement.writesInner {xs : List Xml} (h : WritesElement xs) :
    WritesInner (.openTag (ascii "E:" ++ title2) [] ::
      (before ++ (xs ++ [.closeTag (ascii "E:" ++ title2)]))) [] := by
  have hname : IsName (ascii "E:" ++ title2) := isName_title (by decide) htitle
  have hbytes : XmlBytes (ascii "E:" ++ title2) :=
    xmlBytes_title (by decide) htitle
  obtain ⟨is, his, hinner, name, hhas⟩ := h
  obtain ⟨js, hjs, hcomment⟩ := hbefore.writesInner
  have helement : HasElement (js ++ is) := by
    refine ⟨name, ?_⟩
    rw [List.mem_append, List.mem_append]
    tauto
  have hall := Inner.element (ascii "E:" ++ title2) []
    (hcomment.append hinner) (Or.inr helement)
  rw [List.append_assoc] at hall
  exact ⟨_, .cons (writes_openTag hname hbytes printable_nil rfl (by decide))
    (List.rel_append hjs (List.rel_append his
      (.cons (writes_closeTag hname hbytes) .nil))), hall⟩

end Element

/-- The values of data elements are ASCII. -/
def ValueBytes (es : List EdiElement) : Prop :=
  ∀ e ∈ es, ∀ v ∈ e.values, XmlBytes v.value

instance (es : List EdiElement) : Decidable (ValueBytes es) :=
  have _ : DecidablePred fun e : EdiElement =>
      ∀ v ∈ e.values, XmlBytes v.value := fun _ => List.decidableBAll _ _
  List.decidableBAll _ _

theorem ValueBytes.head {e : EdiElement} {es : List EdiElement}
    (h : ValueBytes (e :: es)) : ∀ v ∈ e.values, XmlBytes v.value :=
  h e List.mem_cons_self

theorem ValueBytes.tail {e : EdiElement} {es : List EdiElement}
    (h : ValueBytes (e :: es)) : ValueBytes es :=
  List.forall_mem_of_forall_mem_cons h

theorem simpleValue_bytes {e : EdiElement}
    (he : ∀ v ∈ e.values, XmlBytes v.value) : XmlBytes e.simpleValue.value := by
  cases e with
  | simple v => exact he v (List.mem_singleton.2 rfl)
  | untyped => exact fun c hc => absurd hc List.not_mem_nil
  | composite vs => exact fun c hc => absurd hc List.not_mem_nil

theorem dataElements_bytes (tag : Bytes) {es : List EdiElement}
    (h : ValueBytes es) : ValueBytes (dataElements tag es) := by
  unfold dataElements
  split
  · split_ifs
    · exact h.tail
    · exact h
  · exact h

section Fit

variable {child : EdistructChild} {cstruct : Option EdistructComposite}
  {e : EdiElement} (he : ∀ v ∈ e.values, XmlBytes v.value)
include he

theorem elementFit_composite_bytes {values : List EdiValue}
    (h : elementFit child cstruct e = .composite values) :
    ∀ v ∈ values, XmlBytes v.value := by
  unfold elementFit at h
  split at h
  · obtain rfl := Fit.composite.inj h
    exact he
  · split at h
    · simp at h
    · split at h
      · simp at h
      · obtain rfl := Fit.composite.inj h
        exact List.forall_mem_singleton.2 (simpleValue_bytes he)
      · simp at h
  · simp at h
  · simp at h

theorem elementFit_simple_bytes {v : EdiValue}
    (h : elementFit child cstruct e = .simple v) : XmlBytes v.value := by
  unfold elementFit at h
  split at h
  · simp at h
  · split at h
    · simp at h
    · split at h <;> simp at h
  · obtain rfl := Fit.simple.inj h
    exact he _ (List.mem_singleton.2 rfl)
  · simp at h

end Fit

section Steps

variable (opts : Edi2xmlConfig) {all : EdistructAll}

/-- The element that a value is written in, if it is known and not translated. -/
def shownAs (all : EdistructAll) (x : Bytes × Bytes) : List Leaf :=
  match findEdistructElement all x.1 with
  | some (some e) =>
    if e.isCoded ∧ opts.translateCodedValues ∧
        (findCodedValue all x.1 x.2).join.isSome then []
    else [(ascii "E:" ++ e.title2, x.2)]
  | _ => []

theorem writesInner_error {msg : Bytes}
    (h : opts.commentsErrors = true → CommentText msg) :
    WritesInner (written (error opts msg)) [] := by
  rw [error, written_error, written_outIf]
  split_ifs with herrors
  · have herror : CommentText (ascii "ERROR: ") :=
      commentText_of_all (by decide)
    refine writesInner_commentLine ?_
    simpa [Part.render] using (h herrors).after herror (by decide)
  · exact writesInner_nil

theorem writesInner_missing {code : Bytes} (hcode : CommentText code) :
    WritesInner (written (error opts (ascii "mandatory element " ++ code ++
      ascii " is missing"))) [] := by
  have hbefore : CommentText (ascii "mandatory element ") :=
    commentText_of_all (by decide)
  have hbehind : CommentText (ascii " is missing") :=
    commentText_of_all (by decide)
  exact writesInner_error opts fun _ =>
    (hcode.after hbefore (by decide)).before hbehind (by decide)

theorem writesInner_extraData {tag : Bytes} (htag : CommentText tag)
    (es : List EdiElement) :
    WritesInner (written (extraData opts tag es)) [] := by
  unfold extraData
  split
  · exact writesInner_nil
  · have hextra : CommentText (ascii "extra data (") :=
      commentText_of_all (by decide)
    have helement : CommentText (ascii " element" ++
        (if 1 < es.length then ascii "s" else []) ++
        ascii ") at segment ") := by
      split_ifs <;> exact commentText_of_all (by decide)
    have htail : CommentText (ascii " tail") := commentText_of_all (by decide)
    have hnumber := (formatD_commentText es.length).after hextra (by decide)
    have hhead := hnumber.before helement (by simp [ascii]; decide)
    have hlast : (ascii ") at segment ").getLast? = some ' '.toUInt8 := by decide
    have hall := hhead.append (htag.before htail (by decide)) (Or.inl (by
      rw [List.getLast?_append, List.getLast?_append, hlast, Option.some_or,
        Option.some_or]
      decide))
    refine writesInner_error opts fun _ => ?_
    simpa using hall

variable (h : XmlTables all)
include h

theorem written_codedToXml (name val : Bytes) :
    WritesComment (written (codedToXml opts all name val).1) := by
  unfold codedToXml
  split
  · exact Or.inl rfl
  · exact Or.inl rfl
  · next z hz =>
    obtain ⟨tab, htab, -, hmem, rfl⟩ := findCodedValue_sound hz
    have hcode := h.codes tab htab z hmem
    rw [written_outIf]
    split
    · refine Or.inr ⟨_, rfl, ?_⟩
      have hcolon : CommentText (ascii ": ") := commentText_of_all (by decide)
      have hcomma : CommentText (ascii ", ") := commentText_of_all (by decide)
      have hfunction := hcode.function.after hcomma (by decide)
      have htitle := hcode.title.before hfunction (by simp [ascii]; decide)
      have hall := hcode.name.before (htitle.after hcolon (by decide))
        (by simp [ascii]; decide)
      simpa [Part.render] using hall
    · exact Or.inl rfl

/-- A data element between its tags. -/
theorem writesInner_elementTags {e : EdistructElement} (he : e ∈ all.elems)
    (name : Bytes) {val : Bytes} (hval : XmlBytes val) :
    WritesInner (.openTag (ascii "E:" ++ e.title2) [] ::
      (written (codedToXml opts all name val).1 ++
        ((codedToXml opts all name val).2.getD [.chars [.escaped val]] ++
          [.closeTag (ascii "E:" ++ e.title2)])))
      (if opts.translateCodedValues ∧ (findCodedValue all name val).join.isSome
        then [] else [(ascii "E:" ++ e.title2, val)]) := by
  have htitle := (h.elems e he).1
  have hbefore := written_codedToXml opts h name val
  cases hfind : (findCodedValue all name val).join with
  | none =>
    have hnone : (codedToXml opts all name val).2 = none := by
      unfold codedToXml
      cases hz : findCodedValue all name val with
      | none => rfl
      | some z =>
        rw [hz, Option.join_some] at hfind
        subst hfind
        rfl
    rw [hnone, if_neg (by simp)]
    exact writesInner_value htitle hbefore hval
  | some z =>
    have hz : findCodedValue all name val = some (some z) :=
      Option.join_eq_some_iff.1 hfind
    obtain ⟨tab, htab, -, hmem, hname⟩ := findCodedValue_sound hz
    have hcode := h.codes tab htab z hmem
    by_cases htranslate : opts.translateCodedValues = true
    · have hsome : ∃ xs, (codedToXml opts all name val).2 = some xs ∧
          WritesElement xs := by
        unfold codedToXml
        rw [hz]
        dsimp only
        rw [if_pos htranslate]
        refine ⟨_, rfl, ?_⟩
        split
        · exact writesElement_empty hcode.title2
        · rw [← hname]
          exact writesElement_coded hcode
      obtain ⟨xs, hxs, helement⟩ := hsome
      rw [hxs, if_pos ⟨htranslate, rfl⟩]
      exact helement.writesInner htitle hbefore
    · have hnone : (codedToXml opts all name val).2 = none := by
        unfold codedToXml
        rw [hz]
        exact if_neg htranslate
      rw [hnone, if_neg fun hand => htranslate hand.1]
      exact writesInner_value htitle hbefore hval

theorem writesInner_elementToXml {name : Bytes} (hname : CommentText name)
    {val : Bytes} (hval : XmlBytes val) :
    WritesInner (written (elementToXml opts all name val))
      (shownAs opts all (name, val)) := by
  unfold elementToXml shownAs
  rw [written_element, written_append]
  have hcomment : WritesInner [.comment [.plain name], newline] [] :=
    writesInner_commentLine (by simpa [Part.render] using hname)
  refine hcomment.outIf.append ?_
  dsimp only
  cases hfind : findEdistructElement all name with
  | none => exact writesInner_nil
  | some r =>
    cases r with
    | none =>
      have hunknown : CommentText (ascii "unknown element ") :=
        commentText_of_all (by decide)
      exact writesInner_error opts fun _ => hname.after hunknown (by decide)
    | some e =>
      have he := (BinarySearch.find_sound hfind).1
      have helement : WritesInner (.openTag (ascii "E:" ++ e.title2) [] ::
          (written (if e.isCoded then codedToXml opts all name val
              else ([], none)).1 ++
            ((if e.isCoded then codedToXml opts all name val
              else ([], none)).2.getD [.chars [.escaped val]] ++
              [.closeTag (ascii "E:" ++ e.title2)])))
          (if e.isCoded ∧ opts.translateCodedValues ∧
            (findCodedValue all name val).join.isSome then []
          else [(ascii "E:" ++ e.title2, val)]) := by
        by_cases hcoded : e.isCoded = true
        · simp only [hcoded, true_and, if_true]
          exact writesInner_elementTags opts h he name hval
        · simp only [hcoded, false_and, if_false, Bool.false_eq_true]
          exact writesInner_value (h.elems e he).1 (Or.inl rfl) hval
      have hall := helement.append writesInner_newline
      simpa using hall

theorem writesInner_elementMissingXml {name : Bytes}
    (hname : CommentText name) :
    WritesInner (written (elementMissingXml opts all name)) [] := by
  have hno : CommentText (ascii "[no ") := commentText_of_all (by decide)
  have hcolon : CommentText (ascii ": ") := commentText_of_all (by decide)
  have hend : CommentText (ascii "]") := commentText_of_all (by decide)
  unfold elementMissingXml
  split
  · split
    · exact writesInner_nil
    · next e he =>
      have htitle := (h.elems e (BinarySearch.find_sound he).1).2.escapeXml
      refine writesInner_commentLine ?_
      have hhead := (hname.after hno (by decide)).before hcolon (by decide)
      have hlast : (ascii ": ").getLast? = some ' '.toUInt8 := by decide
      have hall := hhead.append (htitle.before hend (by decide)) (Or.inl (by
        rw [List.getLast?_append, hlast, Option.some_or]
        decide))
      simpa [Part.render] using hall
    · refine writesInner_commentLine ?_
      have hall := (hname.after hno (by decide)).before hend (by decide)
      simpa [Part.render] using hall
  · exact writesInner_nil

theorem writesInner_componentsToXml {cs : List EdistructChild}
    (hcs : ∀ child ∈ cs, CommentText child.code) {vs : List EdiValue}
    (hvs : ∀ v ∈ vs, XmlBytes v.value) :
    WritesInner (written (componentsToXml opts all cs vs))
      ((handed (componentsToXml opts all cs vs)).flatMap
        (shownAs opts all)) := by
  fun_induction componentsToXml opts all cs vs with
  | case1 vs => exact writesInner_nil
  | case2 c cs ih =>
    rw [List.forall_mem_cons] at hcs
    rw [written_append, handed_append, handed_elementMissingXml]
    exact (writesInner_elementMissingXml opts h hcs.1).append (ih hcs.2 hvs)
  | case3 c cs v vs ih =>
    rw [List.forall_mem_cons] at hcs hvs
    rw [written_append, handed_append, List.flatMap_append]
    refine WritesInner.append ?_ (ih hcs.2 hvs.2)
    split
    · rw [handed_elementToXml, List.flatMap_singleton]
      exact writesInner_elementToXml opts h hcs.1 hvs.1
    · rw [handed_elementMissingXml]
      exact writesInner_elementMissingXml opts h hcs.1

theorem writesInner_compositeToXml {code : Bytes} (hcode : CommentText code)
    {cstruct : Option EdistructComposite}
    (hstruct : ∀ c ∈ cstruct, c ∈ all.comps) {vs : List EdiValue}
    (hvs : ∀ v ∈ vs, XmlBytes v.value) :
    WritesInner (written (compositeToXml opts all code cstruct vs))
      ((handed (compositeToXml opts all code cstruct vs)).flatMap
        (shownAs opts all)) := by
  unfold compositeToXml
  rw [written_append, handed_append, handed_outIf, List.nil_append]
  have hcomment : WritesInner [.comment [.plain code]] [] :=
    writesInner_comment (by simpa [Part.render] using hcode)
  refine hcomment.outIf.append ?_
  cases cstruct with
  | none => exact writesInner_nil
  | some c =>
    have hc := h.comps c (hstruct c rfl)
    have hcomponents := writesInner_componentsToXml opts h hc.codes hvs
    have helement : WritesInner (.openTag (ascii "C:" ++ c.title2) [] ::
        (newline :: written (componentsToXml opts all c.children vs) ++
          [.closeTag (ascii "C:" ++ c.title2)])) _ :=
      WritesInner.element 'C'.toUInt8 (by decide) hc.title
        (writesInner_newline.append hcomponents) rfl
    have hall := helement.append writesInner_newline
    simp only [written_out, written_append, written_nil, handed_out,
      handed_append, handed_nil, List.append_nil, List.cons_append,
      List.nil_append, List.append_assoc] at hall ⊢
    exact hall

theorem writesInner_childrenToXml {cs : List EdistructChild}
    (hcs : ∀ child ∈ cs, CommentText child.code) {es : List EdiElement}
    (hes : ValueBytes es) :
    WritesInner (written (childrenToXml opts all cs es).1)
      ((handed (childrenToXml opts all cs es).1).flatMap
        (shownAs opts all)) := by
  fun_induction childrenToXml opts all cs es with
  | case1 es => exact writesInner_nil
  | case2 => exact writesInner_nil
  | case3 child children _ _ _ ih =>
    rw [List.forall_mem_cons] at hcs
    exact ih hcs.2 hes
  | case4 child =>
    rw [handed_err]
    exact writesInner_missing opts (hcs child List.mem_cons_self)
  | case5 => exact writesInner_nil
  | case6 child children _ e es _ _ _ r ih =>
    rw [List.forall_mem_cons] at hcs
    rw [written_append, handed_append, handed_elementMissingXml]
    exact (writesInner_elementMissingXml opts h hcs.1).append
      (ih hcs.2 hes.tail)
  | case7 child =>
    rw [handed_err]
    exact writesInner_missing opts (hcs child List.mem_cons_self)
  | case8 child children cstruct e es hstruct values hfit r ih =>
    rw [List.forall_mem_cons] at hcs
    rw [written_append, handed_append, List.flatMap_append]
    refine (writesInner_compositeToXml opts h hcs.1 ?_
      (elementFit_composite_bytes hes.head hfit)).append (ih hcs.2 hes.tail)
    rintro c hc
    obtain rfl := Option.mem_def.1 hc
    unfold childStruct at hstruct
    split at hstruct
    · exact (BinarySearch.find_sound hstruct).1
    · simp at hstruct
  | case9 child children cstruct e es _ v hfit r ih =>
    rw [List.forall_mem_cons] at hcs
    rw [written_append, handed_append, List.flatMap_append,
      handed_elementToXml, List.flatMap_singleton]
    exact (writesInner_elementToXml opts h hcs.1
      (elementFit_simple_bytes hes.head hfit)).append (ih hcs.2 hes.tail)

end Steps

/-! ## Interchanges -/

/-- The items are elements with tags around them. -/
def WritesOutlined (xs : List Xml) (ts : List (Tags.Tag Bytes))
    (ls : List Leaf) : Prop :=
  ∃ is, List.Forall₂ WritesItem xs is ∧ Outlined isElementName is ts ls

theorem writesOutlined_nil : WritesOutlined [] [] [] := ⟨[], .nil, .nil⟩

theorem WritesOutlined.append {xs ys : List Xml}
    {ts us : List (Tags.Tag Bytes)} {ls ms : List Leaf}
    (hxs : WritesOutlined xs ts ls) (hys : WritesOutlined ys us ms) :
    WritesOutlined (xs ++ ys) (ts ++ us) (ls ++ ms) := by
  obtain ⟨is, his, hxs⟩ := hxs
  obtain ⟨js, hjs, hys⟩ := hys
  exact ⟨is ++ js, List.rel_append his hjs, hxs.append hys⟩

/-- A document with an outline is read, if the outline is one element and the
texts are fine, and its leaves are found in it. -/
theorem WritesOutlined.read {xs : List Xml} {ts : List (Tags.Tag Bytes)}
    {ls : List Leaf} (h : WritesOutlined xs ts ls) :
    ((XmlReader.read (xs.flatMap Xml.render)).isSome = true ↔
      OneRoot ts ∧ ∀ x ∈ ls, FineText x.2) ∧
    ∀ events, XmlReader.read (xs.flatMap Xml.render) = some events →
      (leaves events).filter (fun x => isElementName x.1) = ls := by
  obtain ⟨is, his, houtlined⟩ := h
  have hlen := his.length_eq
  have hpairs : ∀ p ∈ xs.zip is, WritesItem p.1 p.2 :=
    fun p hp => (List.forall₂_iff_zip.1 his).2 hp
  have hrender : xs.flatMap Xml.render
      = (xs.zip is).flatMap fun p => p.1.render := by
    have hfst : (xs.zip is).map Prod.fst = xs :=
      List.map_fst_zip (Nat.le_of_eq hlen)
    conv_lhs => rw [← hfst]
    rw [List.flatMap_map]
  have hitems : (xs.zip is).map Prod.snd = is :=
    List.map_snd_zip (Nat.le_of_eq hlen.symm)
  rw [hrender]
  refine read_outlined (fun p hp => (hpairs p hp).prints)
    (fun p hp => List.all_eq_true.2 (hpairs p hp).bytes) ?_
  rw [hitems]
  exact houtlined

theorem writesOutlined_newline : WritesOutlined [newline] [] [] :=
  ⟨[_], .cons writes_newline .nil, .spaces (forall_mem_of_all (by decide))⟩

/-- A comment on a line of its own, if it is wanted. -/
theorem writesOutlined_commentLine (c : Prop) [Decidable c] (parts : List Part)
    (h : c → CommentText (parts.flatMap Part.render)) :
    WritesOutlined (written (outIf c [.comment parts, newline])) [] [] := by
  rw [written_outIf]
  split_ifs with hc
  · have hcomment : WritesOutlined [.comment parts] [] [] :=
      ⟨[_], .cons (writes_comment (h hc)) .nil, .comment⟩
    exact hcomment.append writesOutlined_newline
  · exact writesOutlined_nil

theorem writesOutlined_error (opts : Edi2xmlConfig) {msg : Bytes}
    (h : opts.commentsErrors = true → CommentText msg) :
    WritesOutlined (written (error opts msg)) [] [] := by
  rw [error, written_error]
  refine writesOutlined_commentLine _ _ fun herrors => ?_
  have herror : CommentText (ascii "ERROR: ") := commentText_of_all (by decide)
  simpa [Part.render] using (h herrors).after herror (by decide)

/-- An element on lines of its own. -/
theorem WritesInner.outlined (start : UInt8) {title : Bytes}
    (hstart : isNameStart start = true ∧ isXmlByte start = true)
    (htitle : ∀ c ∈ title, isWord c = true) {xs : List Xml} {ls : List Leaf}
    (h : WritesInner xs ls)
    (hsel : isElementName (start :: ':'.toUInt8 :: title) = false) :
    WritesOutlined (.openTag (start :: ':'.toUInt8 :: title) [] :: (xs ++
      [.closeTag (start :: ':'.toUInt8 :: title)]))
      [.opening (start :: ':'.toUInt8 :: title),
        .closing (start :: ':'.toUInt8 :: title)] ls := by
  obtain ⟨is, his, hinner⟩ := h
  have hname := isName_title hstart.1 htitle
  have hbytes := xmlBytes_title hstart.2 htitle
  exact ⟨_, .cons (writes_openTag hname hbytes printable_nil rfl (by decide))
    (List.rel_append his (.cons (writes_closeTag hname hbytes) .nil)),
    .element hsel [] hinner⟩

/-- The element of a segment, if the segment is known. -/
def segmentTags (all : EdistructAll) (tag : Bytes) : List (Tags.Tag Bytes) :=
  match findEdistructSegment all tag with
  | some (some s) =>
    [.opening (ascii "S:" ++ s.title2), .closing (ascii "S:" ++ s.title2)]
  | _ => []

/-- The tags before the element of a segment. -/
def openingTags (tag : Bytes) : List (Tags.Tag Bytes) :=
  (if tag = ascii "UNB" then [.opening (ascii "X:interchange")] else []) ++
    (if tag = ascii "UNG" then [.opening (ascii "X:group")] else []) ++
    (if tag = ascii "UNH" then [.opening (ascii "X:message")] else [])

/-- The tags behind the element of a segment. -/
def closingTags (tag : Bytes) : List (Tags.Tag Bytes) :=
  (if tag = ascii "UNZ" then [.closing (ascii "X:interchange")] else []) ++
    (if tag = ascii "UNE" then [.closing (ascii "X:group")] else []) ++
    (if tag = ascii "UNT" then [.closing (ascii "X:message")] else [])

/-- The tags of a segment outside of its element. -/
def segmentOutline (all : EdistructAll) (seg : EdiSegment) : List (Tags.Tag Bytes) :=
  seg.tag.elim [] fun tag =>
    openingTags tag ++ segmentTags all tag ++ closingTags tag

/-- A segment that can be converted, of values in ASCII. -/
structure XmlData (opts : Edi2xmlConfig) (seg : EdiSegment) : Prop where
  elements : seg.elements ≠ []
  values : ValueBytes seg.elements
  tag : opts.commentsErrors = true → ∀ tag ∈ seg.tag, CommentText tag

/-- The attributes of `X:interchange`. -/
def namespaceAttrs : List (Bytes × Bytes) :=
  [(ascii "xmlns:X", ascii "http://www.ctm.ru/edi/xchg"),
    (ascii "xmlns:S", ascii "http://www.ctm.ru/edi/segs"),
    (ascii "xmlns:C", ascii "http://www.ctm.ru/edi/comps"),
    (ascii "xmlns:E", ascii "http://www.ctm.ru/edi/els"),
    (ascii "xmlns:Z", ascii "http://www.ctm.ru/edi/codes")]

theorem printable_namespaceAttrs : Printable namespaceAttrs where
  keys := forall_mem_of_all (by decide +kernel)
  values := forall_mem_of_all (by decide +kernel)
  nodup := by decide +kernel

theorem namespaces_eq : ascii " " ++ namespaces
    = namespaceAttrs.flatMap attrText := by
  decide +kernel

/-- A tag on a line of its own. -/
theorem writesOutlined_opening (name attrs : Bytes) (hname : IsName name)
    (hbytes : XmlBytes name) (hsel : isElementName name = false)
    {as : List (Bytes × Bytes)} (has : Printable as)
    (hattrs : (if attrs = [] then [] else ascii " " ++ attrs)
      = as.flatMap attrText) (hattrBytes : XmlBytes attrs)
    (c : Prop) [Decidable c] :
    WritesOutlined (written (outIf c [.openTag name attrs, newline]))
      (if c then [.opening name] else []) [] := by
  rw [written_outIf]
  split_ifs
  · have hopen : WritesOutlined [.openTag name attrs] [.opening name] [] :=
      ⟨[_], .cons (writes_openTag hname hbytes has hattrs hattrBytes) .nil,
        .opening hsel as⟩
    exact hopen.append writesOutlined_newline
  · exact writesOutlined_nil

theorem writesOutlined_closing (name : Bytes) (hname : IsName name)
    (hbytes : XmlBytes name) (c : Prop) [Decidable c] :
    WritesOutlined (written (outIf c [.closeTag name, newline]))
      (if c then [.closing name] else []) [] := by
  rw [written_outIf]
  split_ifs
  · have hclose : WritesOutlined [.closeTag name] [.closing name] [] :=
      ⟨[_], .cons (writes_closeTag hname hbytes) .nil, .closing name⟩
    exact hclose.append writesOutlined_newline
  · exact writesOutlined_nil

section Segments

variable (opts : Edi2xmlConfig) {all : EdistructAll}

theorem writesOutlined_parseMessageHeader (seg : EdiSegment) :
    WritesOutlined (written (parseMessageHeader opts seg)) [] [] := by
  unfold parseMessageHeader
  split
  · exact writesOutlined_nil
  · refine writesOutlined_error opts fun _ => ?_
    have hhead : CommentText (ascii "Can not parse message header format, ") :=
      commentText_of_all (by decide)
    have hend : CommentText (ascii " elements") :=
      commentText_of_all (by decide)
    exact ((formatD_commentText _).after hhead (by decide)).before hend
      (by decide)

theorem handed_extraData (tag : Bytes) (es : List EdiElement) :
    handed (extraData opts tag es) = [] := by
  unfold extraData
  split
  · rfl
  · exact handed_err opts _

theorem handed_parseMessageHeader (seg : EdiSegment) :
    handed (parseMessageHeader opts seg) = [] := by
  unfold parseMessageHeader
  split
  · rfl
  · exact handed_err opts _

variable (h : XmlTables all)
include h

theorem writesOutlined_segmentToXml {seg : EdiSegment} (hseg : XmlData opts seg)
    {tag : Bytes} (htag : seg.tag = some tag) :
    WritesOutlined (written (segmentToXml opts all seg)) (segmentTags all tag)
      ((handed (segmentToXml opts all seg)).flatMap (shownAs opts all)) := by
  unfold segmentToXml segmentTags
  rw [htag]
  dsimp only
  cases hfind : findEdistructSegment all tag with
  | none => exact writesOutlined_nil
  | some r =>
    cases r with
    | none =>
      dsimp only
      rw [handed_err]
      have hunknown : CommentText (ascii "unknown segment ") :=
        commentText_of_all (by decide)
      exact writesOutlined_error opts fun herrors =>
        (hseg.tag herrors tag htag).after hunknown (by decide)
    | some s =>
      obtain ⟨hmem, heq⟩ := BinarySearch.find_sound hfind
      obtain rfl := strcmp_eq_iff.1 heq
      have hs := h.segs s hmem
      have hdata := dataElements_bytes s.name hseg.values
      have hinner := (writesInner_childrenToXml opts h hs.codes hdata).append
        (writesInner_extraData opts hs.name (childrenToXml opts all s.children
          (dataElements s.name seg.elements)).2)
      have helement := ((writesInner_newline.append hinner).outlined
        'S'.toUInt8 (by decide) hs.title rfl).append
          writesOutlined_newline
      have hcomment := writesOutlined_commentLine
        (opts.commentsSegmentNames = true) [.plain s.name]
        fun _ => by simpa [Part.render] using hs.name
      have hall := hcomment.append helement
      dsimp only
      rw [if_neg hseg.elements]
      simp only [written_out, written_append, written_nil, handed_out,
        handed_append, handed_nil, handed_outIf, handed_extraData,
        List.append_nil, List.cons_append, List.nil_append, List.append_assoc]
        at hall ⊢
      exact hall

theorem writesOutlined_convSegment {seg : EdiSegment} (hseg : XmlData opts seg)
    (htag : seg.tag ≠ none) :
    WritesOutlined (written (convSegment opts all seg)) (segmentOutline all seg)
      ((handed (convSegment opts all seg)).flatMap (shownAs opts all)) := by
  obtain ⟨tag, htag⟩ := Option.ne_none_iff_exists'.1 htag
  have hinterchange := writesOutlined_opening (ascii "X:interchange")
    namespaces (by decide) (by decide) rfl printable_namespaceAttrs
    (by rw [if_neg (by simp [namespaces, ascii]), namespaces_eq])
    (by decide +kernel) (tag = ascii "UNB")
  have hgroup := writesOutlined_opening (ascii "X:group") []
    (by decide) (by decide) rfl printable_nil rfl (by decide)
    (tag = ascii "UNG")
  have hmessage := writesOutlined_opening (ascii "X:message")
    [] (by decide) (by decide) rfl printable_nil rfl (by decide)
    (tag = ascii "UNH")
  have hheader : WritesOutlined (written (if tag = ascii "UNH" then
      parseMessageHeader opts seg else [])) [] [] := by
    split_ifs
    · exact writesOutlined_parseMessageHeader opts seg
    · exact writesOutlined_nil
  have hnone : handed (if tag = ascii "UNH" then parseMessageHeader opts seg
      else []) = [] := by
    split_ifs
    · exact handed_parseMessageHeader opts seg
    · rfl
  have hsegment := writesOutlined_segmentToXml opts h hseg htag
  have hinterchangeEnd := writesOutlined_closing (ascii "X:interchange")
    (by decide) (by decide) (tag = ascii "UNZ")
  have hgroupEnd := writesOutlined_closing (ascii "X:group")
    (by decide) (by decide) (tag = ascii "UNE")
  have hmessageEnd := writesOutlined_closing (ascii "X:message")
    (by decide) (by decide) (tag = ascii "UNT")
  have hall := ((((((hinterchange.append hgroup).append hheader).append
    hmessage).append hsegment).append hinterchangeEnd).append
    hgroupEnd).append hmessageEnd
  simp only [convSegment, segmentOutline, openingTags, closingTags, htag,
    Option.elim_some, written_append, handed_append, handed_outIf, hnone,
    List.append_nil, List.nil_append, List.append_assoc] at hall ⊢
  exact hall

theorem writesOutlined_convSegments {segs : List EdiSegment}
    (hsegs : ∀ seg ∈ segs, XmlData opts seg ∧ seg.tag ≠ none) :
    WritesOutlined (written (convSegments opts all segs))
      (segs.flatMap (segmentOutline all))
      ((handed (convSegments opts all segs)).flatMap (shownAs opts all)) := by
  induction segs with
  | nil => exact writesOutlined_nil
  | cons seg segs ih =>
    rw [List.forall_mem_cons] at hsegs
    have hall := (writesOutlined_convSegment opts h hsegs.1.1 hsegs.1.2).append
      (ih hsegs.2)
    rw [convSegments, List.flatMap_cons, List.flatMap_cons, written_append,
      handed_append, List.flatMap_append]
    exact hall

/-- The output for an interchange, with tables that are fit for XML and data in
ASCII, is a well-formed document exactly if the tags of its segments make one
element and no value that is shown has the end of a CDATA section in it.  The
data elements of the document are the values that were handed over then, in their
order, but for those that are translated and those that are not in the tables. -/
theorem read_convSegments_iff {segs : List EdiSegment}
    (hsegs : ∀ seg ∈ segs, XmlData opts seg ∧ seg.tag ≠ none) :
    ((XmlReader.read
        ((written (convSegments opts all segs)).flatMap Xml.render)).isSome
          = true ↔
      OneRoot (segs.flatMap (segmentOutline all)) ∧
        ∀ x ∈ (handed (convSegments opts all segs)).flatMap (shownAs opts all),
          FineText x.2) ∧
    ∀ events, XmlReader.read
        ((written (convSegments opts all segs)).flatMap Xml.render)
          = some events →
      (leaves events).filter (fun x => isElementName x.1)
        = (handed (convSegments opts all segs)).flatMap (shownAs opts all) := by
  exact (writesOutlined_convSegments opts h hsegs).read

omit h in
/-- Where a run of the loop comes to its end, what it has written are the texts of
its items. -/
theorem texts_convLoop {σ : Type} {lib : Iconv σ} {heap : Realloc}
    {g k : Globals σ} (hoff : g.conv = .off) (hgone : g.outbuf ≠ .gone)
    {segs : List EdiSegment}
    (hrun : g.convLoop lib heap opts all segs = .returns k ()) :
    ∃ more, k.outbuf.texts = g.outbuf.texts ++ more ∧
      more.flatten = (written (convSegments opts all segs)).flatMap Xml.render := by
  refine ⟨(outputs (convSegments opts all segs)).map OutputCall.text, ?_,
    flatten_outputs _⟩
  rw [(convLoop_off lib heap opts all hoff segs).2 k hrun,
    Outbuf.texts_append hgone]

/-- Without a charset the loop of `edi2xml_conv` comes to its end exactly if its
steps can be done.  With tables that are fit for XML and data in ASCII it has then
written a well-formed document exactly if the tags of the segments make one element
and no value that is shown has the end of a CDATA section in it, and the data
elements of the document are the values that were handed over, in their order, but
for those that are translated and those that are not in the tables. -/
theorem read_convLoop_iff {σ : Type} (lib : Iconv σ) (heap : Realloc)
    {g : Globals σ} (hoff : g.conv = .off) (hgone : g.outbuf ≠ .gone)
    {segs : List EdiSegment}
    (hsegs : ∀ seg ∈ segs, XmlData opts seg ∧ seg.tag ≠ none) :
    ((∃ k, g.convLoop lib heap opts all segs = .returns k ()) ↔
      Carried opts g.outbuf (convSegments opts all segs)) ∧
    ∀ k, g.convLoop lib heap opts all segs = .returns k () →
      ∃ more, k.outbuf.texts = g.outbuf.texts ++ more ∧
        ((XmlReader.read more.flatten).isSome = true ↔
          OneRoot (segs.flatMap (segmentOutline all)) ∧
            ∀ x ∈ (handed (convSegments opts all segs)).flatMap
              (shownAs opts all), FineText x.2) ∧
        ∀ events, XmlReader.read more.flatten = some events →
          (leaves events).filter (fun x => isElementName x.1)
            = (handed (convSegments opts all segs)).flatMap
              (shownAs opts all) := by
  refine ⟨(convLoop_off lib heap opts all hoff segs).1, fun k hrun => ?_⟩
  obtain ⟨more, htexts, hmore⟩ := texts_convLoop opts hoff hgone hrun
  obtain ⟨hiff, hleaves⟩ := read_convSegments_iff opts h hsegs
  rw [← hmore] at hiff hleaves
  exact ⟨more, htexts, hiff, hleaves⟩

end Segments

theorem sampleTables_xml : XmlTables sampleTables where
  segs := List.forall_mem_singleton.2
    ⟨forall_mem_of_all (by decide), commentText_of_all (by decide),
      List.forall_mem_cons.2 ⟨commentText_of_all (by decide),
        List.forall_mem_singleton.2 (commentText_of_all (by decide))⟩⟩
  comps := List.forall_mem_singleton.2
    ⟨forall_mem_of_all (by decide), commentText_of_all (by decide),
      List.forall_mem_cons.2 ⟨commentText_of_all (by decide),
        List.forall_mem_singleton.2 (commentText_of_all (by decide))⟩⟩
  elems := List.forall_mem_cons.2
    ⟨⟨forall_mem_of_all (by decide), commentText_of_all (by decide)⟩,
      List.forall_mem_singleton.2
        ⟨forall_mem_of_all (by decide), commentText_of_all (by decide)⟩⟩
  codes := List.forall_mem_singleton.2 (List.forall_mem_singleton.2
    ⟨forall_mem_of_all (by decide), commentText_of_all (by decide),
      by decide, commentText_of_all (by decide), by decide,
      commentText_of_all (by decide)⟩)

/-- `UNB`, `BGM+a<b` and `UNZ`. -/
def documentSegments : List EdiSegment :=
  [⟨[.simple (.ofBytes (ascii "UNB"))], some (ascii "UNB"), 0⟩,
    ⟨[.simple (.ofBytes (ascii "BGM")), .simple (.ofBytes (ascii "a<b"))],
      some (ascii "BGM"), 4⟩,
    ⟨[.simple (.ofBytes (ascii "UNZ"))], some (ascii "UNZ"), 12⟩]

theorem documentSegments_data (opts : Edi2xmlConfig) :
    ∀ seg ∈ documentSegments, XmlData opts seg ∧ seg.tag ≠ none := by
  simp only [documentSegments, List.forall_mem_cons, List.not_mem_nil,
    false_implies, implies_true, and_true]
  refine ⟨⟨⟨by simp, ?_, ?_⟩, by simp⟩, ⟨⟨by simp, ?_, ?_⟩, by simp⟩,
    ⟨by simp, ?_, ?_⟩, by simp⟩
  all_goals first
    | exact forall_mem_of_all (by decide)
    | intro _ tag htag
      obtain rfl := Option.some.inj htag
      exact commentText_of_all (by decide)

/-- The value of `BGM+a<b` is read back from the buffer. -/
theorem read_convLoop_sample :
    ∃ (k : Globals Unit) (more : List Bytes) (events : List XmlTree.XmlEvent),
      (Globals.start Unit EdiLib.start).outputInit.convLoop asciiIconv sampleHeap
        ⟨true, true, true, false, true, true⟩ sampleTables documentSegments
        = .returns k () ∧
      k.outbuf.texts = more ∧ XmlReader.read more.flatten = some events ∧
      (leaves events).filter (fun x => isElementName x.1)
        = [(ascii "E:Number", ascii "a<b")] := by
  obtain ⟨hends, hreads⟩ := read_convLoop_iff ⟨true, true, true, false, true, true⟩
    sampleTables_xml asciiIconv sampleHeap
    (g := (Globals.start Unit EdiLib.start).outputInit) rfl
    (fun hgone => nomatch hgone) (documentSegments_data _)
  have hcarried : (emitSteps ⟨true, true, true, false, true, true⟩ (.buffer [])
      (convSegments ⟨true, true, true, false, true, true⟩ sampleTables
        documentSegments)).isSome = true := by
    decide +kernel
  obtain ⟨out, hout⟩ := Option.isSome_iff_exists.1 hcarried
  obtain ⟨k, hrun⟩ := hends.2 (emitSteps_eq_some_iff.1 hout).1
  obtain ⟨more, htexts, hiff, hleaves⟩ := hreads k hrun
  obtain ⟨events, hevents⟩ := Option.isSome_iff_exists.1
    (hiff.2 ⟨by decide +kernel, forall_mem_of_all (by decide +kernel)⟩)
  refine ⟨k, more, events, hrun, htexts, hevents,
    (hleaves events hevents).trans ?_⟩
  decide +kernel

end Libedi
