import Libedi.Generator
import Libedi.Lib.XmlReader
import Libedi.StructLoader

/-!
# What is generated

The documents of the generator as trees, and that they are read as such.

A string that is escaped comes back from the reader.  One that is printed as it is
comes back if it is a text (`IsText`), that is without markup in it.
-/

namespace Libedi

open XmlTree XmlReader

/-! ## Trees -/

/-- An attribute with a name. -/
def namedAttr (a : Bytes × Bytes) : Option (Name × Bytes) :=
  if h : '/'.toUInt8 ∉ a.1 then some (⟨a.1, h⟩, a.2) else none

/-- Attributes with names. -/
def namedAttrs (attrs : List (Bytes × Bytes)) : List (Name × Bytes) :=
  attrs.filterMap namedAttr

theorem attrPairs_namedAttrs {attrs : List (Bytes × Bytes)}
    (h : ∀ a ∈ attrs, '/'.toUInt8 ∉ a.1) : attrPairs (namedAttrs attrs) = attrs := by
  induction attrs with
  | nil => rfl
  | cons a attrs ih =>
    rw [List.forall_mem_cons] at h
    have ha : namedAttr a = some (⟨a.1, h.1⟩, a.2) := dif_pos h.1
    rw [namedAttrs, List.filterMap_cons_some ha, attrPairs, List.map_cons]
    exact congrArg _ (ih h.2)

/-- Some contents, one behind the other. -/
def contentList : List Content → Content
  | [] => .nil
  | c :: cs => c.append (contentList cs)

/-- An element that holds a text. -/
def leaf (name : Name) (text : Bytes) : Content :=
  .element name [] (textContent text) .nil

/-- The two parts of a file of segments or composites. -/
inductive NamePart where
  | segment
  | composite
  deriving DecidableEq, Repr

/-- The name of an entry. -/
def NamePart.name : NamePart → Name
  | segment => segmentName
  | composite => compositeName

/-- The name of a table. -/
def NamePart.tableName : NamePart → Name
  | segment => segmentsName
  | composite => compositesName

theorem NamePart.tableName_bytes (p : NamePart) :
    p.tableName.bytes = p.name.bytes ++ ascii "s" := by
  cases p <;> rfl

section Trees

variable (keys : List (Bytes × Bytes) → List (Bytes × Bytes))

/-- The titles and the function of an entry, and what is behind. -/
def phraseNodes (title title2 function : Bytes) (behind : List Content) :
    List Content :=
  leaf title1Name title :: leaf title2Name title2 :: leaf functionName function ::
    behind

/-- An entry with its key. -/
def entryNode (name : Name) (attrs : List (Bytes × Bytes))
    (nodes : List Content) : Content :=
  .element name (namedAttrs (keys attrs)) (contentList nodes) .nil

/-- A table with an entry on each line. -/
def tableNode (name : Name) (entries : List Content) : Content :=
  .element name
    (namedAttrs (keys [(countName.bytes, decimal entries.length)]))
    (contentList (entries.map fun c => c.append (textContent (ascii "\n")))) .nil

/-- A segment or composite. -/
def segmentNode (p : NamePart) (e : Key × SpecSegment) : Content :=
  entryNode keys p.name [(codeName.bytes, e.1.bytes)]
    (phraseNodes e.2.title.bytes (makeTitle2 e.2.title.bytes) e.2.function.bytes
      [.element childrenName []
        (contentList (e.2.elements.map fun c => leaf childName c.bytes)) .nil])

/-- An element. -/
def elementNode (codes : CodedMap) (e : Key × SpecElement) : Content :=
  entryNode keys elementName [(codeName.bytes, e.1.bytes)]
    (phraseNodes e.2.title.bytes (makeTitle2 e.2.title.bytes) e.2.function.bytes
      [leaf formatName e.2.format,
        leaf isCodedName (if codes.has e.1 then ascii "1" else ascii "0")])

/-- A coded value.  Its title is what the first escape made of it. -/
def codeNode (e : Key × SpecCode) : Content :=
  entryNode keys valueName [(codeName.bytes, e.1.bytes)]
    (phraseNodes (specEscapeXml e.2.title.bytes) (makeTitle2 e.2.title.bytes)
      e.2.function.bytes [])

/-- A coded element. -/
def codedElementNode (e : Key × Hash SpecCode) : Content :=
  entryNode keys codedElementName [(codeName.bytes, e.1.bytes),
      (countName.bytes, decimal e.2.sorted.length)]
    (e.2.sorted.map (codeNode keys))

end Trees

/-! ## Reading -/

/-- The keys of the attributes come in some order. -/
def KeysOrder (keys : List (Bytes × Bytes) → List (Bytes × Bytes)) : Prop :=
  ∀ attrs, (keys attrs).Perm attrs

section Read

variable {keys : List (Bytes × Bytes) → List (Bytes × Bytes)}

theorem mkElement_eq (n : Bytes) (attrs : List (Bytes × Bytes))
    (bodies : List Bytes) :
    mkElement keys n attrs bodies =
      if bodies = [] then emptyTag n (keys attrs)
      else startTag n (keys attrs) ++ bodies.flatten ++ endTag n := by
  have htext : (keys attrs).flatMap (fun a =>
      ascii " " ++ a.1 ++ ascii "=\"" ++ a.2 ++ ascii "\"")
      = (keys attrs).flatMap attrText := by
    refine List.flatMap_congr fun a _ => ?_
    simp [attrText, ascii]
  unfold mkElement
  dsimp only
  rw [htext]
  by_cases hbodies : bodies = []
  · simp [hbodies, emptyTag, tagText, ascii]
  · simp [hbodies, startTag, tagText, endTag, ascii]

variable (hkeys : KeysOrder keys)

include hkeys

theorem KeysOrder.printable {attrs : List (Bytes × Bytes)}
    (h : XmlReader.Printable attrs) : XmlReader.Printable (keys attrs) where
  keys a ha := h.keys a ((hkeys attrs).mem_iff.1 ha)
  values a ha := h.values a ((hkeys attrs).mem_iff.1 ha)
  nodup := ((hkeys attrs).map Prod.fst).nodup_iff.2 h.nodup

/-- An element of the generator. -/
theorem isElement_mkElement {n : Name} (hn : IsName n.bytes)
    {attrs : List (Bytes × Bytes)} (hattrs : XmlReader.Printable attrs)
    {bodies : List Bytes} {c : Content} (h : Inside bodies.flatten c)
    (hnil : bodies = [] → c = .nil) :
    IsElement (mkElement keys n.bytes attrs bodies)
      (.element n (namedAttrs (keys attrs)) c .nil) := by
  have hprint := hkeys.printable hattrs
  have hpairs : attrPairs (namedAttrs (keys attrs)) = keys attrs :=
    attrPairs_namedAttrs fun a ha => (hprint.keys a ha).noSlash
  have hprint' : XmlReader.Printable (attrPairs (namedAttrs (keys attrs))) := by
    rwa [hpairs]
  rw [mkElement_eq]
  split_ifs with hbodies
  · have hempty := isElement_empty hn hprint'
    rw [hpairs] at hempty
    rwa [hnil hbodies]
  · have helement := h.element hn hprint'
    rwa [hpairs] at helement

theorem keys_nil : keys [] = [] := List.perm_nil.1 (hkeys [])

theorem keys_singleton (a : Bytes × Bytes) : keys [a] = [a] :=
  List.perm_singleton.1 (hkeys [a])

/-- An element that holds a text. -/
theorem isElement_leaf {n : Name} (hn : IsName n.bytes) {printed text : Bytes}
    (h : Inside printed (textContent text)) :
    IsElement (mkElement keys n.bytes [] [printed]) (leaf n text) := by
  have hattrs : XmlReader.Printable [] :=
    ⟨fun _ ha => absurd ha List.not_mem_nil,
      fun _ ha => absurd ha List.not_mem_nil, List.nodup_nil⟩
  have hflat : Inside [printed].flatten (textContent text) := by simpa using h
  have hall := isElement_mkElement hkeys hn hattrs hflat
    fun hnil => absurd hnil (List.cons_ne_nil _ _)
  rwa [keys_nil hkeys] at hall

omit hkeys

/-- Some contents that start with markup. -/
theorem nodes_list {ι : Type*} {text : ι → Bytes} {content : ι → Content} :
    ∀ {l : List ι}, (∀ i ∈ l, Nodes (text i) (content i)) →
      Nodes (l.map text).flatten (contentList (l.map content))
  | [], _ => .nil
  | i :: l, h => by
    rw [List.forall_mem_cons] at h
    exact h.1.append (nodes_list h.2)

/-- An escaped character stands for the character. -/
theorem standsFor_specEscapeXml (c : UInt8) : StandsFor c (specEscapeXml [c]) := by
  by_cases hamp : c = '&'.toUInt8
  · exact Or.inr ⟨ascii "amp", by rw [hamp]; decide,
      forall_mem_of_all (by decide), by rw [hamp]; decide⟩
  by_cases hlt : c = '<'.toUInt8
  · exact Or.inr ⟨ascii "lt", by rw [hlt]; decide,
      forall_mem_of_all (by decide), by rw [hlt]; decide⟩
  by_cases hgt : c = '>'.toUInt8
  · exact Or.inr ⟨ascii "gt", by rw [hgt]; decide,
      forall_mem_of_all (by decide), by rw [hgt]; decide⟩
  by_cases hquote : c = '"'.toUInt8
  · exact Or.inr ⟨ascii "quot", by rw [hquote]; decide,
      forall_mem_of_all (by decide),
      by rw [hquote]; decide⟩
  · exact Or.inl ⟨specEscapeXml_plain hamp hlt hgt hquote, hlt, hamp, hgt⟩

/-- Escaped text. -/
theorem inside_specEscapeXml (text : Bytes) :
    Inside (specEscapeXml text) (textContent text) := by
  rw [specEscapeXml_eq]
  exact .escaped fun c _ => standsFor_specEscapeXml c

theorem isWord_not_markup {c : UInt8} (h : isWord c = true) :
    c ≠ '<'.toUInt8 ∧ c ≠ '&'.toUInt8 ∧ c ≠ '"'.toUInt8 ∧ c ≠ '>'.toUInt8 ∧
      c ≠ '\t'.toUInt8 ∧ c ≠ '\n'.toUInt8 := by
  refine ⟨?_, ?_, ?_, ?_, ?_, ?_⟩ <;>
  · rintro rfl
    exact absurd h (by decide)

/-- A text of letters, digits and underscores. -/
theorem isText_of_words {text : Bytes} (h : ∀ c ∈ text, isWord c = true) :
    IsText text where
  noMarkup c hc := ⟨(isWord_not_markup (h c hc)).1, (isWord_not_markup (h c hc)).2.1⟩
  noEnd hend := by
    have hmem : '>'.toUInt8 ∈ text := hend.subset (by decide)
    exact (isWord_not_markup (h _ hmem)).2.2.2.1 rfl

theorem isValue_of_words {text : Bytes} (h : ∀ c ∈ text, isWord c = true) :
    IsValue text := by
  intro c hc
  obtain ⟨hlt, hamp, hquote, -, htab, hline⟩ := isWord_not_markup (h c hc)
  exact ⟨hlt, hamp, hquote, htab, hline⟩

theorem isWord_of_isKeyByte {c : UInt8} (h : isKeyByte c = true) :
    isWord c = true := by
  simp [isWord, h]

theorem Key.words (k : Key) : ∀ c ∈ k.bytes, isWord c = true :=
  fun c hc => isWord_of_isKeyByte (List.all_eq_true.1 k.keyBytes c hc)

theorem decimal_words (n : Nat) : ∀ c ∈ decimal n, isWord c = true :=
  fun c hc => isWord_of_isKeyByte (decimal_digits n c hc)

theorem printable_nil : XmlReader.Printable [] :=
  ⟨by simp, by simp, List.nodup_nil⟩

theorem printable_code (k : Key) :
    XmlReader.Printable [(codeName.bytes, k.bytes)] where
  keys := by simpa using (by decide : IsName codeName.bytes)
  values := by simpa using isValue_of_words k.words
  nodup := by simp

theorem printable_count (n : Nat) :
    XmlReader.Printable [(countName.bytes, decimal n)] where
  keys := by simpa using (by decide : IsName countName.bytes)
  values := by simpa using isValue_of_words (decimal_words n)
  nodup := by simp

theorem printable_code_count (k : Key) (n : Nat) :
    XmlReader.Printable [(codeName.bytes, k.bytes), (countName.bytes, decimal n)]
    where
  keys := by
    have hcode : IsName codeName.bytes := by decide
    have hcount : IsName countName.bytes := by decide
    simp [hcode, hcount]
  values := by
    simp [isValue_of_words k.words, isValue_of_words (decimal_words n)]
  nodup := by
    have hne : codeName.bytes ≠ countName.bytes := by decide
    simp [hne]

include hkeys

/-- The elements of an entry, by its elements. -/
theorem isElement_entryNode {n : Name} (hn : IsName n.bytes)
    {attrs : List (Bytes × Bytes)} (hattrs : XmlReader.Printable attrs)
    {parts : List (Bytes × Content)} (h : ∀ p ∈ parts, IsElement p.1 p.2) :
    IsElement (mkElement keys n.bytes attrs (parts.map Prod.fst))
      (entryNode keys n attrs (parts.map Prod.snd)) := by
  refine isElement_mkElement hkeys hn hattrs
    (nodes_list fun p hp => (h p hp).nodes).inside fun hnil => ?_
  rw [List.map_eq_nil_iff.1 hnil]
  rfl

/-- The titles and the function, if they are read back. -/
theorem isElement_phrases {printed text printed' text' title2 : Bytes}
    (htitle : Inside printed (textContent text))
    (htitle2 : ∀ c ∈ title2, isWord c = true)
    (hfunction : Inside printed' (textContent text'))
    {parts : List (Bytes × Content)} (h : ∀ p ∈ parts, IsElement p.1 p.2) :
    ∀ p ∈ (mkElement keys (ascii "title1") [] [printed], leaf title1Name text) ::
        (mkElement keys (ascii "title2") [] [title2], leaf title2Name title2) ::
        (mkElement keys (ascii "function") [] [printed'], leaf functionName text')
          :: parts, IsElement p.1 p.2 := by
  rw [List.forall_mem_cons, List.forall_mem_cons, List.forall_mem_cons]
  refine ⟨?_, ?_, ?_, h⟩
  · exact isElement_leaf hkeys (n := title1Name) (by decide) htitle
  · exact isElement_leaf hkeys (n := title2Name) (by decide)
      (.isText (isText_of_words htitle2))
  · exact isElement_leaf hkeys (n := functionName) (by decide) hfunction

/-- A segment is read back if its function is a text. -/
theorem isElement_segmentNode (p : NamePart) {e : Key × SpecSegment}
    (h : IsText e.2.function.bytes) :
    IsElement (xmlSegment keys p.name.bytes e) (segmentNode keys p e) := by
  have hchild : ∀ c ∈ e.2.elements,
      Nodes (mkElement keys (ascii "child") [] [c.bytes]) (leaf childName c.bytes) :=
    fun c _ => (isElement_leaf hkeys (n := childName) (by decide)
      (.isText (isText_of_words c.words))).nodes
  have hchildren := isElement_mkElement hkeys (n := childrenName) (by decide)
    printable_nil (nodes_list hchild).inside
    fun hnil => by rw [List.map_eq_nil_iff.1 hnil]; rfl
  rw [keys_nil hkeys] at hchildren
  have hname : IsName p.name.bytes := by
    cases p <;> decide
  have hentry := isElement_entryNode hkeys hname (printable_code e.1)
    (isElement_phrases hkeys (inside_specEscapeXml e.2.title.bytes)
      (makeTitle2_words e.2.title.bytes) (.isText h)
      (List.forall_mem_singleton.2 hchildren : ∀ q ∈ [(_, _)], _))
  exact hentry

/-- An element is read back if its function and its format are texts. -/
theorem isElement_elementNode (codes : CodedMap) {e : Key × SpecElement}
    (h : IsText e.2.function.bytes) (hformat : IsText e.2.format) :
    IsElement (xmlElement keys (ascii "element") codes e)
      (elementNode keys codes e) := by
  have hflag : IsText (if codes.has e.1 then ascii "1" else ascii "0") := by
    refine isText_of_words ?_
    split_ifs <;> exact forall_mem_of_all (by decide)
  have hparts : ∀ q ∈ [(mkElement keys (ascii "format") [] [e.2.format],
        leaf formatName e.2.format),
      (mkElement keys (ascii "is_coded") []
          [if codes.has e.1 then ascii "1" else ascii "0"],
        leaf isCodedName (if codes.has e.1 then ascii "1" else ascii "0"))],
      IsElement q.1 q.2 := by
    rw [List.forall_mem_cons, List.forall_mem_singleton]
    exact ⟨isElement_leaf hkeys (n := formatName) (by decide) (.isText hformat),
      isElement_leaf hkeys (n := isCodedName) (by decide) (.isText hflag)⟩
  have hentry := isElement_entryNode hkeys (n := elementName) (by decide)
    (printable_code e.1) (isElement_phrases hkeys
      (inside_specEscapeXml e.2.title.bytes) (makeTitle2_words e.2.title.bytes)
      (.isText h) hparts)
  exact hentry

/-- A coded value is read back. -/
theorem isElement_codeNode (e : Key × SpecCode) :
    IsElement (xmlCode keys e) (codeNode keys e) := by
  have hentry := isElement_entryNode hkeys (n := valueName) (by decide)
    (printable_code e.1) (isElement_phrases hkeys
      (inside_specEscapeXml (specEscapeXml e.2.title.bytes))
      (makeTitle2_words e.2.title.bytes)
      (inside_specEscapeXml e.2.function.bytes) (List.forall_mem_nil _))
  exact hentry

/-- A coded element is read back. -/
theorem isElement_codedElementNode (e : Key × Hash SpecCode) :
    IsElement (xmlCodedElement keys e) (codedElementNode keys e) := by
  have hparts : ∀ p ∈ e.2.sorted.map fun v => (xmlCode keys v, codeNode keys v),
      IsElement p.1 p.2 := by
    rw [List.forall_mem_map]
    exact fun v _ => isElement_codeNode hkeys v
  have hentry := isElement_entryNode hkeys (n := codedElementName) (by decide)
    (printable_code_count e.1 e.2.sorted.length) hparts
  rw [List.map_map, List.map_map] at hentry
  unfold xmlCodedElement
  dsimp only
  rw [List.length_map]
  exact hentry

/-- A table is read back if its entries are. -/
theorem isElement_tableNode {n : Name} (hn : IsName n.bytes) {ι : Type*}
    {l : List ι} {text : ι → Bytes} {content : ι → Content}
    (h : ∀ i ∈ l, IsElement (text i) (content i)) :
    IsElement (mkElement keys n.bytes [(ascii "count", decimal l.length)]
      (l.map fun i => text i ++ ascii "\n")) (tableNode keys n (l.map content)) := by
  have hline : IsText (ascii "\n") :=
    ⟨forall_mem_of_all (by decide), by decide⟩
  have hentries : ∀ i ∈ l, Nodes (text i ++ ascii "\n")
      ((content i).append (textContent (ascii "\n"))) :=
    fun i hi => (h i hi).nodes_text hline
  have htable := isElement_mkElement hkeys hn (printable_count l.length)
    (nodes_list hentries).inside fun hnil => by
      rw [List.map_eq_nil_iff.1 hnil]; rfl
  rw [tableNode, List.length_map, List.map_map]
  exact htable

omit hkeys

/-! ## Documents -/

/-- Bytes of documents. -/
def XmlBytes (s : Bytes) : Prop := ∀ c ∈ s, isXmlByte c = true

instance (s : Bytes) : Decidable (XmlBytes s) :=
  List.decidableBAll _ _

theorem XmlBytes.append {a b : Bytes} (ha : XmlBytes a) (hb : XmlBytes b) :
    XmlBytes (a ++ b) :=
  List.forall_mem_append.2 ⟨ha, hb⟩

theorem xmlBytes_flatMap {α : Type*} {l : List α} {f : α → Bytes}
    (h : ∀ a ∈ l, XmlBytes (f a)) : XmlBytes (l.flatMap f) := by
  intro c hc
  obtain ⟨a, ha, hc⟩ := List.mem_flatMap.1 hc
  exact h a ha c hc

theorem xmlBytes_of_words {s : Bytes} (h : ∀ c ∈ s, isWord c = true) :
    XmlBytes s := by
  intro c hc
  have hword := h c hc
  simp only [isWord, isKeyByte, isXmlByte, UInt8.le_iff_toNat_le,
    decide_eq_true_eq, Bool.decide_or, Bool.decide_and, Bool.or_eq_true,
    Bool.and_eq_true] at hword ⊢
  have hbounds : ('0'.toUInt8.toNat = 48 ∧ 'A'.toUInt8.toNat = 65 ∧
      'a'.toUInt8.toNat = 97) ∧ '9'.toUInt8.toNat = 57 ∧
      'Z'.toUInt8.toNat = 90 ∧ 'z'.toUInt8.toNat = 122 ∧
      '_'.toUInt8.toNat = 95 ∧ (0x20 : UInt8).toNat = 32 ∧
      (0x7E : UInt8).toNat = 126 := by
    decide
  rcases hword with hkey | rfl
  · omega
  · exact Or.inr (Or.inr (by decide))

theorem xmlBytes_of_printed {s : Bytes} (h : Printed s) : XmlBytes s := by
  intro c hc
  have hrange := h c hc
  simp [isXmlByte, hrange]

theorem xmlBytes_specEscapeXml {s : Bytes} (h : XmlBytes s) :
    XmlBytes (specEscapeXml s) := by
  rw [specEscapeXml_eq]
  refine xmlBytes_flatMap fun c hc => ?_
  by_cases hamp : c = '&'.toUInt8
  · rw [hamp]; decide
  by_cases hlt : c = '<'.toUInt8
  · rw [hlt]; decide
  by_cases hgt : c = '>'.toUInt8
  · rw [hgt]; decide
  by_cases hquote : c = '"'.toUInt8
  · rw [hquote]; decide
  · rw [specEscapeXml_plain hamp hlt hgt hquote]
    exact List.forall_mem_singleton.2 (h c hc)

include hkeys

theorem xmlBytes_mkElement {n : Bytes} {attrs : List (Bytes × Bytes)}
    {bodies : List Bytes} (hn : XmlBytes n)
    (hattrs : ∀ a ∈ attrs, XmlBytes a.1 ∧ XmlBytes a.2)
    (hbodies : ∀ b ∈ bodies, XmlBytes b) :
    XmlBytes (mkElement keys n attrs bodies) := by
  have htext : XmlBytes ((keys attrs).flatMap fun a =>
      ascii " " ++ a.1 ++ ascii "=\"" ++ a.2 ++ ascii "\"") := by
    refine xmlBytes_flatMap fun a ha => ?_
    obtain ⟨hkey, hvalue⟩ := hattrs a ((hkeys attrs).mem_iff.1 ha)
    exact ((((by decide : XmlBytes (ascii " ")).append hkey).append
      (by decide)).append hvalue).append (by decide)
  have hstart := ((by decide : XmlBytes (ascii "<")).append hn).append htext
  unfold mkElement
  dsimp only
  split_ifs
  · have hflat : XmlBytes bodies.flatten := by
      intro c hc
      obtain ⟨b, hb, hc⟩ := List.mem_flatten.1 hc
      exact hbodies b hb c hc
    exact ((((hstart.append (by decide)).append hflat).append
      (by decide)).append hn).append (by decide)
  · exact hstart.append (by decide)

theorem xmlBytes_leaf {n text : Bytes} (hn : XmlBytes n) (h : XmlBytes text) :
    XmlBytes (mkElement keys n [] [text]) :=
  xmlBytes_mkElement hkeys hn (by simp) (by simpa using h)

omit hkeys in
theorem xmlBytes_code (k : Key) :
    ∀ a ∈ [(ascii "code", k.bytes)], XmlBytes a.1 ∧ XmlBytes a.2 := by
  have hcode : XmlBytes (ascii "code") := by decide
  rw [List.forall_mem_singleton]
  exact ⟨hcode, xmlBytes_of_words k.words⟩

omit hkeys in
theorem xmlBytes_count (n : Nat) :
    ∀ a ∈ [(ascii "count", decimal n)], XmlBytes a.1 ∧ XmlBytes a.2 := by
  have hcount : XmlBytes (ascii "count") := by decide
  rw [List.forall_mem_singleton]
  exact ⟨hcount, xmlBytes_of_words (decimal_words n)⟩

theorem xmlBytes_xmlSegment (p : NamePart) (e : Key × SpecSegment) :
    XmlBytes (xmlSegment keys p.name.bytes e) := by
  have htitle := xmlBytes_of_printed e.2.title.printed
  have hchildren : XmlBytes (mkElement keys (ascii "children") []
      (e.2.elements.map fun c => mkElement keys (ascii "child") [] [c.bytes])) :=
    xmlBytes_mkElement hkeys (by decide) (by simp) (List.forall_mem_map.2
      fun c _ => xmlBytes_leaf hkeys (by decide) (xmlBytes_of_words c.words))
  have hname : XmlBytes p.name.bytes := by
    cases p <;> decide
  unfold xmlSegment
  dsimp only
  refine xmlBytes_mkElement hkeys hname (xmlBytes_code e.1) ?_
  rw [List.forall_mem_cons, List.forall_mem_cons, List.forall_mem_cons,
    List.forall_mem_singleton]
  exact ⟨xmlBytes_leaf hkeys (by decide) (xmlBytes_specEscapeXml htitle),
    xmlBytes_leaf hkeys (by decide) (xmlBytes_of_words (makeTitle2_words _)),
    xmlBytes_leaf hkeys (by decide) (xmlBytes_of_printed e.2.function.printed),
    hchildren⟩

theorem xmlBytes_xmlElement (codes : CodedMap) (e : Key × SpecElement) :
    XmlBytes (xmlElement keys (ascii "element") codes e) := by
  have htitle := xmlBytes_of_printed e.2.title.printed
  have hflag : XmlBytes (if codes.has e.1 then ascii "1" else ascii "0") := by
    split_ifs <;> decide
  unfold xmlElement
  dsimp only
  refine xmlBytes_mkElement hkeys (by decide) (xmlBytes_code e.1) ?_
  rw [List.forall_mem_cons, List.forall_mem_cons, List.forall_mem_cons,
    List.forall_mem_cons, List.forall_mem_singleton]
  exact ⟨xmlBytes_leaf hkeys (by decide) (xmlBytes_specEscapeXml htitle),
    xmlBytes_leaf hkeys (by decide) (xmlBytes_of_words (makeTitle2_words _)),
    xmlBytes_leaf hkeys (by decide) (xmlBytes_of_printed e.2.function.printed),
    xmlBytes_leaf hkeys (by decide) (xmlBytes_of_printed e.2.printed),
    xmlBytes_leaf hkeys (by decide) hflag⟩

theorem xmlBytes_xmlCodedElement (e : Key × Hash SpecCode) :
    XmlBytes (xmlCodedElement keys e) := by
  have hcode : ∀ v : Key × SpecCode, XmlBytes (xmlCode keys v) := by
    intro v
    have htitle := xmlBytes_of_printed v.2.title.printed
    have hfunction := xmlBytes_of_printed v.2.function.printed
    unfold xmlCode
    dsimp only
    refine xmlBytes_mkElement hkeys (by decide) (xmlBytes_code v.1) ?_
    rw [List.forall_mem_cons, List.forall_mem_cons, List.forall_mem_singleton]
    exact ⟨xmlBytes_leaf hkeys (by decide)
        (xmlBytes_specEscapeXml (xmlBytes_specEscapeXml htitle)),
      xmlBytes_leaf hkeys (by decide) (xmlBytes_of_words (makeTitle2_words _)),
      xmlBytes_leaf hkeys (by decide) (xmlBytes_specEscapeXml hfunction)⟩
  unfold xmlCodedElement
  dsimp only
  refine xmlBytes_mkElement hkeys (by decide) ?_
    (List.forall_mem_map.2 fun v _ => hcode v)
  rw [List.forall_mem_cons]
  exact ⟨xmlBytes_code e.1 _ List.mem_cons_self, xmlBytes_count _⟩

/-- A table of entries that are read back. -/
theorem read_table {n : Name} (hn : IsName n.bytes) {ι : Type*} {l : List ι}
    {text : ι → Bytes} {content : ι → Content}
    (h : ∀ i ∈ l, IsElement (text i) (content i))
    (hbytes : ∀ i ∈ l, XmlBytes (text i)) (hname : XmlBytes n.bytes) :
    read (mkElement keys n.bytes [(ascii "count", decimal l.length)]
      (l.map fun i => text i ++ ascii "\n"))
      = some (contentEvents (tableNode keys n (l.map content))) := by
  refine (isElement_tableNode hkeys hn h).read_eq (List.all_eq_true.2 ?_)
  refine xmlBytes_mkElement hkeys hname (xmlBytes_count _) ?_
  exact List.forall_mem_map.2 fun i hi => (hbytes i hi).append (by decide)

/-- A file of segments or composites whose functions are texts. -/
theorem read_makeXmlDefsSegments (p : NamePart) {s : Hash SpecSegment}
    (h : ∀ e ∈ s.sorted, IsText e.2.function.bytes) :
    read (makeXmlDefsSegments keys s p.name.bytes) = some (contentEvents
      (tableNode keys p.tableName (s.sorted.map (segmentNode keys p)))) := by
  have hname : IsName p.tableName.bytes ∧ XmlBytes p.tableName.bytes := by
    cases p <;> decide
  have hread := read_table hkeys hname.1
    (fun e he => isElement_segmentNode hkeys p (h e he))
    (fun e _ => xmlBytes_xmlSegment hkeys p e) hname.2
  rw [p.tableName_bytes] at hread
  unfold makeXmlDefsSegments
  dsimp only
  rw [List.length_map]
  exact hread

/-- A file of elements whose functions and formats are texts. -/
theorem read_makeXmlDefsElements (codes : CodedMap) {s : Hash SpecElement}
    (h : ∀ e ∈ s.sorted, IsText e.2.function.bytes ∧ IsText e.2.format) :
    read (makeXmlDefsElements keys s (ascii "element") codes)
      = some (contentEvents (tableNode keys elementsName
        (s.sorted.map (elementNode keys codes)))) := by
  have hread := read_table hkeys (n := elementsName) (by decide)
    (fun e he => isElement_elementNode hkeys codes (h e he).1 (h e he).2)
    (fun e _ => xmlBytes_xmlElement hkeys codes e) (by decide)
  unfold makeXmlDefsElements
  dsimp only
  rw [List.length_map]
  exact hread

/-- A file of codes. -/
theorem read_makeXmlDefsCoded (z : CodedMap) :
    read (makeXmlDefsCoded keys z) = some (contentEvents
      (tableNode keys codedValuesName
        (z.sorted.map (codedElementNode keys)))) := by
  have hread := read_table (l := z.sorted) hkeys (n := codedValuesName)
    (by decide) (fun e _ => isElement_codedElementNode hkeys e)
    (fun e _ => xmlBytes_xmlCodedElement hkeys e) (by decide)
  unfold makeXmlDefsCoded
  dsimp only
  rw [List.length_map]
  exact hread

end Read

end Libedi
