import Libedi.Generated
import Libedi.Lookup

/-!
# Reading a file

`parse_xml_file` of `libedistruct/struct_loader.c` reads a file into a buffer, again
and again, and gives each buffer to `expat`, which calls the handlers.

`expat` is a parameter.  It may deliver a text in several pieces, but not a text of
one line without references, in a file that comes in one buffer (`DeliversLines`).
The files of the generator have such texts only, if no string in them is escaped
(`parseXmlFile_segments` and its siblings).
-/

namespace Libedi

open XmlTree XmlReader

/-! ## The buffers -/

/-- `PARSE_BUFFER_SIZE`. -/
def parseBufferSize : Nat := 8192

/-- The loop of `parse_xml_file`: what is in the buffer after each `read`, and
`done`. -/
def readLoop (file : Bytes) : List (Bytes × Bool) :=
  let buf := file.take parseBufferSize
  if _h : buf.length < parseBufferSize then [(buf, true)]
  else (buf, false) :: readLoop (file.drop parseBufferSize)
termination_by file.length
decreasing_by
  simp only [buf, List.length_take, List.length_drop, parseBufferSize] at *
  omega

/-- A short file comes in one buffer. -/
theorem readLoop_short {file : Bytes} (h : file.length < parseBufferSize) :
    readLoop file = [(file, true)] := by
  have htake : file.take parseBufferSize = file :=
    List.take_of_length_le (Nat.le_of_lt h)
  rw [readLoop, htake, dif_pos h]

/-! ## The parser -/

/-- The events of `expat` for some buffers, if it finds no error. -/
abbrev Expat := List (Bytes × Bool) → Option (List XmlEvent)

/-- There are no references and no processing instructions. -/
def plainMarkup : Bytes → Bool
  | [] => true
  | c :: rest =>
    c ≠ '&'.toUInt8 && (c ≠ '<'.toUInt8 || rest.head?.any (· ≠ '?'.toUInt8)) &&
      plainMarkup rest

/-- A text in one line, or an end of a line. -/
def OneLine : XmlEvent → Prop
  | .chars s => '\n'.toUInt8 ∉ s ∨ s = ascii "\n"
  | _ => True

/-- Each text of one line is delivered by one call, in a document that comes in one
buffer and has neither references nor processing instructions. -/
structure DeliversLines (expat : Expat) : Prop where
  events : ∀ {file events}, file.length < parseBufferSize →
    plainMarkup file = true → read file = some events →
    (∀ e ∈ events, OneLine e) → expat [(file, true)] = some events

/-- `parse_xml_file`, for a file that may be missing. -/
def parseXmlFile (expat : Expat) (file : Option Bytes) :
    Except ParseXmlError (List XmlEvent) :=
  match file with
  | none => .error .notOpened
  | some file =>
    match expat (readLoop file) with
    | none => .error .notParsed
    | some events => .ok events

theorem parseXmlFile_short {expat : Expat} (hexpat : DeliversLines expat)
    {file : Bytes} (hshort : file.length < parseBufferSize)
    (hplain : plainMarkup file = true) {events : List XmlEvent}
    (hread : read file = some events) (hlines : ∀ e ∈ events, OneLine e) :
    parseXmlFile expat (some file) = .ok events := by
  rw [parseXmlFile, readLoop_short hshort,
    hexpat.events hshort hplain hread hlines]

/-! ## Plain markup -/

theorem plainMarkup_append {as bs : Bytes} (ha : plainMarkup as = true)
    (hb : plainMarkup bs = true) : plainMarkup (as ++ bs) = true := by
  induction as with
  | nil => exact hb
  | cons a as ih =>
    rw [plainMarkup, Bool.and_eq_true, Bool.and_eq_true] at ha
    obtain ⟨⟨hamp, hless⟩, has⟩ := ha
    rw [List.cons_append, plainMarkup, Bool.and_eq_true, Bool.and_eq_true]
    refine ⟨⟨hamp, ?_⟩, ih has⟩
    cases as with
    | nil =>
      have hne : a ≠ '<'.toUInt8 := by simpa using hless
      simp [hne]
    | cons => exact hless

theorem plainMarkup_flatten {bodies : List Bytes}
    (h : ∀ b ∈ bodies, plainMarkup b = true) :
    plainMarkup bodies.flatten = true := by
  induction bodies with
  | nil => rfl
  | cons b bodies ih =>
    rw [List.forall_mem_cons] at h
    exact plainMarkup_append h.1 (ih h.2)

/-- A text without markup. -/
theorem plainMarkup_of_text {s : Bytes}
    (h : ∀ c ∈ s, c ≠ '<'.toUInt8 ∧ c ≠ '&'.toUInt8) : plainMarkup s = true := by
  induction s with
  | nil => rfl
  | cons c s ih =>
    rw [List.forall_mem_cons] at h
    simp [plainMarkup, h.1.1, h.1.2, ih h.2]

theorem plainMarkup_of_words {s : Bytes} (h : ∀ c ∈ s, isWord c = true) :
    plainMarkup s = true :=
  plainMarkup_of_text fun c hc =>
    ⟨(isWord_not_markup (h c hc)).1, (isWord_not_markup (h c hc)).2.1⟩

theorem plainMarkup_of_not_escaped {s : Bytes} (h : specEscapeXml s = s) :
    plainMarkup s = true :=
  plainMarkup_of_text fun c hc =>
    ⟨((specEscapeXml_eq_self_iff s).1 h c hc).2.1,
      ((specEscapeXml_eq_self_iff s).1 h c hc).1⟩

/-- A `<` in front of such a text. -/
theorem plainMarkup_less {s : Bytes} (h : plainMarkup s = true)
    (hhead : s.head?.any (· ≠ '?'.toUInt8) = true) :
    plainMarkup ('<'.toUInt8 :: s) = true := by
  rw [plainMarkup, hhead, h]
  decide

section Keys

variable {keys : List (Bytes × Bytes) → List (Bytes × Bytes)}
  (hkeys : KeysOrder keys)

include hkeys

theorem plainMarkup_mkElement {n : Bytes} {attrs : List (Bytes × Bytes)}
    {bodies : List Bytes} (hn : IsName n) (hattrs : XmlReader.Printable attrs)
    (hbodies : ∀ b ∈ bodies, plainMarkup b = true) :
    plainMarkup (mkElement keys n attrs bodies) = true := by
  have hprint := hkeys.printable hattrs
  have hname : ∀ {name : Bytes}, IsName name → plainMarkup name = true := by
    intro name h
    refine plainMarkup_of_text fun c hc => ?_
    have hbyte := List.all_eq_true.1 h.2 c hc
    constructor <;>
    · rintro rfl
      exact absurd hbyte (by decide)
  have hattr : ∀ a ∈ keys attrs, plainMarkup (attrText a) = true := by
    intro a ha
    have hvalue : plainMarkup a.2 = true := plainMarkup_of_text fun c hc =>
      ⟨(hprint.values a ha c hc).1, (hprint.values a ha c hc).2.1⟩
    have hall := plainMarkup_append (by decide : plainMarkup (ascii " ") = true)
      (plainMarkup_append (hname (hprint.keys a ha))
        (plainMarkup_append (by decide : plainMarkup (ascii "=\"") = true)
          (plainMarkup_append hvalue
            (by decide : plainMarkup (ascii "\"") = true))))
    simpa [attrText, ascii] using hall
  have htag : plainMarkup (tagText n (keys attrs)) = true := by
    refine plainMarkup_append (hname hn) ?_
    rw [List.flatMap_def]
    refine plainMarkup_flatten fun b hb => ?_
    obtain ⟨a, ha, rfl⟩ := List.mem_map.1 hb
    exact hattr a ha
  have hopen : ∀ behind, plainMarkup behind = true →
      plainMarkup ('<'.toUInt8 :: (tagText n (keys attrs) ++ behind)) = true := by
    intro behind hbehind
    refine plainMarkup_less (plainMarkup_append htag hbehind) ?_
    obtain ⟨c, rest, rfl, hc, -⟩ := hn.exists_cons
    have hne : c ≠ '?'.toUInt8 := by
      rintro rfl
      exact absurd hc (by decide)
    simp [tagText, hne]
  have hclose : plainMarkup (endTag n) = true := by
    have hend := plainMarkup_append (by decide : plainMarkup (ascii "/") = true)
      (plainMarkup_append (hname hn) (by decide : plainMarkup (ascii ">") = true))
    exact plainMarkup_less hend rfl
  rw [mkElement_eq]
  split_ifs
  · exact hopen _ (by decide)
  · exact plainMarkup_append (plainMarkup_append (hopen _ (by decide))
      (plainMarkup_flatten hbodies)) hclose

theorem plainMarkup_leaf {n text : Bytes} (hn : IsName n)
    (h : plainMarkup text = true) :
    plainMarkup (mkElement keys n [] [text]) = true :=
  plainMarkup_mkElement hkeys hn printable_nil (by simpa using h)

end Keys

/-! ## Texts of one line -/

/-- All texts in the content are of one line. -/
def LinesOnly (c : Content) : Prop := ∀ e ∈ contentEvents c, OneLine e

theorem LinesOnly.append {c d : Content} (hc : LinesOnly c) (hd : LinesOnly d) :
    LinesOnly (c.append d) := by
  rw [LinesOnly, contentEvents_append, List.forall_mem_append]
  exact ⟨hc, hd⟩

theorem linesOnly_nil : LinesOnly .nil := List.forall_mem_nil _

theorem linesOnly_list {cs : List Content} (h : ∀ c ∈ cs, LinesOnly c) :
    LinesOnly (contentList cs) := by
  induction cs with
  | nil => exact linesOnly_nil
  | cons c cs ih =>
    rw [List.forall_mem_cons] at h
    exact h.1.append (ih h.2)

theorem LinesOnly.element {name : Name} {attrs : List (Name × Bytes)}
    {c : Content} (h : LinesOnly c) : LinesOnly (.element name attrs c .nil) := by
  rw [LinesOnly, contentEvents, List.forall_mem_cons, List.forall_mem_append,
    List.forall_mem_cons]
  exact ⟨trivial, h, trivial, List.forall_mem_nil _⟩

theorem linesOnly_text {s : Bytes} (h : '\n'.toUInt8 ∉ s ∨ s = ascii "\n") :
    LinesOnly (textContent s) := by
  rw [LinesOnly, contentEvents_textContent, flush]
  split_ifs
  · exact List.forall_mem_nil _
  · exact List.forall_mem_singleton.2 h

theorem linesOnly_leaf (n : Name) {s : Bytes} (h : '\n'.toUInt8 ∉ s) :
    LinesOnly (leaf n s) :=
  (linesOnly_text (.inl h)).element

theorem linesOnly_entryNode (keys : List (Bytes × Bytes) → List (Bytes × Bytes))
    (n : Name) (attrs : List (Bytes × Bytes)) {nodes : List Content}
    (h : ∀ c ∈ nodes, LinesOnly c) : LinesOnly (entryNode keys n attrs nodes) :=
  (linesOnly_list h).element

theorem linesOnly_tableNode (keys : List (Bytes × Bytes) → List (Bytes × Bytes))
    (n : Name) {entries : List Content} (h : ∀ c ∈ entries, LinesOnly c) :
    LinesOnly (tableNode keys n entries) := by
  refine (linesOnly_list ?_).element
  rw [List.forall_mem_map]
  exact fun c hc => (h c hc).append (linesOnly_text (.inr rfl))

theorem Printed.noLine {s : Bytes} (h : Printed s) : '\n'.toUInt8 ∉ s :=
  fun hmem => absurd (h _ hmem).1 (by decide)

theorem words_noLine {s : Bytes} (h : ∀ c ∈ s, isWord c = true) :
    '\n'.toUInt8 ∉ s :=
  fun hmem => absurd (h _ hmem) (by decide)

end Libedi
