import Libedi.Data
import Libedi.Lib.XmlTree

/-!
# The loader of the directories

`libedistruct/struct_loader.c`.  `expat` reads a file and calls `startElement`,
`endElement` and `characterData`, which keep the path of the element and call
the handlers of the file (`handlerCalls`).  The handlers fill arrays of slots
that grow by blocks.

A file is given by the events of `expat`.  The load is `none` if a string gets too
long for its buffer, or if a slot is written that is not there.

The slots of a new block are cleared in part only.  What is not written keeps
what the memory held (`Field.stale`).
-/

namespace Libedi

open XmlTree (Call Name XmlEvent)

/-! ## The names of a file -/

def codeName : Name := ⟨ascii "code", by decide⟩
def countName : Name := ⟨ascii "count", by decide⟩
def title1Name : Name := ⟨ascii "title1", by decide⟩
def title2Name : Name := ⟨ascii "title2", by decide⟩
def functionName : Name := ⟨ascii "function", by decide⟩
def formatName : Name := ⟨ascii "format", by decide⟩
def isCodedName : Name := ⟨ascii "is_coded", by decide⟩
def segmentName : Name := ⟨ascii "segment", by decide⟩
def segmentsName : Name := ⟨ascii "segments", by decide⟩
def compositeName : Name := ⟨ascii "composite", by decide⟩
def compositesName : Name := ⟨ascii "composites", by decide⟩
def elementName : Name := ⟨ascii "element", by decide⟩
def elementsName : Name := ⟨ascii "elements", by decide⟩
def childrenName : Name := ⟨ascii "children", by decide⟩
def childName : Name := ⟨ascii "child", by decide⟩
def valueName : Name := ⟨ascii "value", by decide⟩
def codedElementName : Name := ⟨ascii "coded_element", by decide⟩
def codedValuesName : Name := ⟨ascii "coded_values", by decide⟩


/-! ## The path -/

/-- `XPATH_MAX`. -/
def xpathMax : Nat := 512

/-- `strncat` to a string in a buffer of `XPATH_MAX` bytes.  The bound that is
given does not count what is in the buffer. -/
def pathCat (path s : Bytes) : Option Bytes :=
  let r := path ++ s.take xpathMax
  if r.length < xpathMax then some r else none

/-- The calls for attributes. -/
def attrsCalls (path : Bytes) : List (Bytes × Bytes) → Option (List Call)
  | [] => some []
  | (name, value) :: attrs =>
    (pathCat path (ascii "/@")).bind fun p =>
      (pathCat p name).bind fun p =>
        (attrsCalls path attrs).map fun calls => .data p value :: calls

/-- `startElement`: the path behind it, and the calls that it makes. -/
def startElement (path name : Bytes) (attrs : List (Bytes × Bytes)) :
    Option (Bytes × List Call) :=
  (pathCat path (ascii "/")).bind fun path =>
    (pathCat path name).bind fun path =>
      (attrsCalls path attrs).map fun calls => (path, .start path :: calls)

/-- `endElement`. -/
def endElement (path name : Bytes) : Option (Bytes × List Call) :=
  if name.length < path.length then
    some (path.take (path.length - name.length - 1), [.stop path])
  else none

/-- `characterData`. -/
def characterData (path s : Bytes) : Bytes × List Call := (path, [.data path s])

/-- An event of `expat`: the path behind it, and the calls for it. -/
def eventCalls (path : Bytes) : XmlEvent → Option (Bytes × List Call)
  | .start name attrs => startElement path name attrs
  | .stop name => endElement path name
  | .chars s => some (characterData path s)

/-- The calls of the handlers for a list of events. -/
def handlerCalls (path : Bytes) : List XmlEvent → Option (List Call)
  | [] => some []
  | e :: events => (eventCalls path e).bind fun r =>
    (handlerCalls r.1 events).map (r.2 ++ ·)

/-! ## Slots -/

/-- A string of a slot. -/
inductive Field where
  | stale
  | null
  | text (s : Bytes)
  deriving DecidableEq, Repr

/-- The strings that a slot can have. -/
inductive TextField where
  | name
  | title
  | title2
  | function
  | format
  deriving DecidableEq, Repr

/-- Where a string is found, from the path of the entry on. -/
def TextField.path : TextField → Bytes
  | name => ascii "/@code"
  | title => ascii "/title1"
  | title2 => ascii "/title2"
  | function => ascii "/function"
  | format => ascii "/format"

/-- The strings of a slot. -/
abbrev Fields := TextField → Field

/-- The strings of `edistruct_segment_t`, `edistruct_composite_t` and
`edistruct_coded_t`. -/
def segmentFields : List TextField := [.name, .title, .title2, .function]

/-- The strings of `edistruct_element_t`. -/
def elementFields : List TextField :=
  [.name, .title, .title2, .function, .format]

/-- An array by `realloc`, and the first slots of the new block zeroed. -/
def growBlock {α : Type*} (alloc cleared : Nat) (zero stale : α)
    (slots : List α) : List α :=
  slots ++ (List.replicate cleared zero ++
    List.replicate (alloc - cleared) stale)

/-- A write to a slot. -/
def writeSlot {α : Type*} (slots : List α) (i : Nat) (f : α → α) :
    Option (List α) :=
  if i < slots.length then some (slots.modify i f) else none

/-- The path behind that of the entry. -/
def behindPath (basepath xpath : Bytes) : Option Bytes :=
  if basepath <+: xpath then some (xpath.drop basepath.length) else none

/-! ## Segments and composites -/

/-- The pointer to the children. -/
inductive Children where
  | stale
  | null
  | block (slots : List Field)
  deriving DecidableEq, Repr

/-- A slot of a segment or composite. -/
structure SegmentSlot where
  fields : Fields
  children : Children

/-- A slot that is zeroed. -/
def SegmentSlot.zero : SegmentSlot := ⟨fun _ => .null, .null⟩

/-- A slot that keeps what the memory held. -/
def SegmentSlot.stale : SegmentSlot := ⟨fun _ => .stale, .stale⟩

/-- `struct segments_parse_helper`.  The counts of slots that are allocated are
the lengths of the lists. -/
structure SegmentsParseHelper where
  segs : List SegmentSlot
  index : Nat
  children : List Field
  chldIndex : Nat

/-- A string at the end of the block of children, which grows if it is full. -/
def pushChild (block : List Field) (i : Nat) (f : Field) : List Field :=
  (if i = block.length then growBlock 8 0 .stale .stale block else block).set i f

namespace SegmentsParseHelper

variable (basepath : Bytes) (self : SegmentsParseHelper)

/-- `segments_tstart`. -/
def tstart (xpath : Bytes) : SegmentsParseHelper :=
  if xpath = basepath ∧ self.index = self.segs.length then
    { self with segs := growBlock 25 10 .zero .stale self.segs }
  else self

/-- A string in the block of children.  The slot of the entry points to that
block. -/
def storeChild (f : Field) : Option SegmentsParseHelper :=
  let block := pushChild self.children self.chldIndex f
  (writeSlot self.segs self.index fun slot =>
    { slot with children := .block block }).map fun segs =>
    { self with segs := segs, children := block, chldIndex := self.chldIndex + 1 }

/-- `segments_tend`. -/
def tend (xpath : Bytes) : Option SegmentsParseHelper :=
  if xpath = basepath then some { self with index := self.index + 1 }
  else if behindPath basepath xpath = some (ascii "/children") then
    (self.storeChild .null).map fun self =>
      { self with children := [], chldIndex := 0 }
  else some self

/-- `segments_cdata`. -/
def cdata (xpath s : Bytes) : Option SegmentsParseHelper :=
  match behindPath basepath xpath with
  | none => some self
  | some p =>
    match segmentFields.find? (·.path = p) with
    | some f =>
      (writeSlot self.segs self.index fun slot =>
        { slot with fields := Function.update slot.fields f (.text s) }).map
        fun segs => { self with segs := segs }
    | none =>
      if p = ascii "/children/child" then self.storeChild (.text s)
      else some self

/-- A call of one of the handlers. -/
def call : Call → Option SegmentsParseHelper
  | .start xpath => some (self.tstart basepath xpath)
  | .stop xpath => self.tend basepath xpath
  | .data xpath s => self.cdata basepath xpath s

end SegmentsParseHelper

/-- The children up to the null pointer behind them. -/
def Children.upToNull : Children → Children
  | block slots => block (slots.takeWhile (· ≠ .null))
  | c => c

/-- `load_segments`, with the table that it loads. -/
def loadSegments (basepath : Bytes) (events : List XmlEvent) :
    Option (List SegmentSlot) :=
  (handlerCalls [] events).bind fun calls =>
    (calls.foldlM (SegmentsParseHelper.call basepath) ⟨[], 0, [], 0⟩).map
      fun self => (self.segs.take self.index).map fun slot =>
        { slot with children := slot.children.upToNull }

/-! ## Elements -/

/-- A slot of an element.  `is_coded` is `none` if it is not set. -/
structure ElementSlot where
  fields : Fields
  isCoded : Option Bool

/-- A slot that is zeroed. -/
def ElementSlot.zero : ElementSlot := ⟨fun _ => .null, some false⟩

/-- A slot that keeps what the memory held. -/
def ElementSlot.stale : ElementSlot := ⟨fun _ => .stale, none⟩

/-- `struct elements_parse_helper`. -/
structure ElementsParseHelper where
  elems : List ElementSlot
  index : Nat

/-- The path of an element. -/
def elementsPath : Bytes := ascii "/elements/element"

namespace ElementsParseHelper

variable (self : ElementsParseHelper)

/-- `elements_tstart`. -/
def tstart (xpath : Bytes) : ElementsParseHelper :=
  if xpath = elementsPath ∧ self.index = self.elems.length then
    { self with elems := growBlock 25 10 .zero .stale self.elems }
  else self

/-- `elements_tend`. -/
def tend (xpath : Bytes) : ElementsParseHelper :=
  if xpath = elementsPath then { self with index := self.index + 1 } else self

/-- `elements_cdata`. -/
def cdata (xpath s : Bytes) : Option ElementsParseHelper :=
  match elementFields.find? (elementsPath ++ ·.path = xpath) with
  | some f =>
    (writeSlot self.elems self.index fun slot =>
      { slot with fields := Function.update slot.fields f (.text s) }).map
      fun elems => { self with elems := elems }
  | none =>
    if xpath = elementsPath ++ ascii "/is_coded" then
      (writeSlot self.elems self.index fun slot =>
        { slot with isCoded := some (s.head? = some '1'.toUInt8) }).map
        fun elems => { self with elems := elems }
    else some self

/-- A call of one of the handlers. -/
def call : Call → Option ElementsParseHelper
  | .start xpath => some (self.tstart xpath)
  | .stop xpath => some (self.tend xpath)
  | .data xpath s => self.cdata xpath s

end ElementsParseHelper

/-- `load_elements`, with the table that it loads. -/
def loadElements (events : List XmlEvent) : Option (List ElementSlot) :=
  (handlerCalls [] events).bind fun calls =>
    (calls.foldlM ElementsParseHelper.call ⟨[], 0⟩).map fun self =>
      self.elems.take self.index

/-! ## Codes -/

/-- The pointer to the values of a coded element. -/
inductive Vals where
  | stale
  | block (slots : List Fields)

/-- A slot of `struct edistruct_coded_elements`.  Nothing of it is zeroed. -/
structure CodedElementsSlot where
  el : Field
  vals : Vals
  nvals : Option Nat

/-- A slot that keeps what the memory held. -/
def CodedElementsSlot.stale : CodedElementsSlot := ⟨.stale, .stale, none⟩

/-- `struct codes_parse_helper`. -/
structure CodesParseHelper where
  cv : List CodedElementsSlot
  cvIndex : Nat
  cc : List Fields
  ccIndex : Nat

/-- The path of a coded element. -/
def codesPath : Bytes := ascii "/coded_values/coded_element"

/-- The path of a value. -/
def codesValuePath : Bytes := ascii "/coded_values/coded_element/value"

namespace CodesParseHelper

variable (self : CodesParseHelper)

/-- `codes_tstart`. -/
def tstart (xpath : Bytes) : Option CodesParseHelper :=
  if xpath = codesPath then
    some <| if self.cvIndex = self.cv.length then
      { self with cv := growBlock 10 0 .stale .stale self.cv }
    else self
  else if xpath = codesValuePath ∧ self.ccIndex = self.cc.length then
    let cc := growBlock 10 0 (fun _ => .stale) (fun _ => .stale) self.cc
    (writeSlot self.cv self.cvIndex fun slot =>
      { slot with vals := .block cc }).map fun cv =>
      { self with cv := cv, cc := cc }
  else some self

/-- `codes_tend`. -/
def tend (xpath : Bytes) : Option CodesParseHelper :=
  if xpath = codesPath then
    (writeSlot self.cv self.cvIndex fun slot =>
      { slot with vals := .block self.cc, nvals := some self.ccIndex }).map
      fun cv => ⟨cv, self.cvIndex + 1, [], 0⟩
  else if xpath = codesValuePath then
    some { self with ccIndex := self.ccIndex + 1 }
  else some self

/-- The second part of `codes_cdata`. -/
def valueCdata (xpath s : Bytes) : Option CodesParseHelper :=
  match segmentFields.find? (·.path = xpath.drop 33) with
  | some f =>
    (writeSlot self.cc self.ccIndex fun fields =>
      Function.update fields f (.text s)).map fun cc => { self with cc := cc }
  | none => some self

/-- `codes_cdata`.  There is no return behind the first case. -/
def cdata (xpath s : Bytes) : Option CodesParseHelper :=
  if xpath = codesPath ++ ascii "/@code" then
    ((writeSlot self.cv self.cvIndex fun slot =>
      { slot with el := .text s }).map fun cv =>
      { self with cv := cv }).bind fun self => self.valueCdata xpath s
  else if xpath.take 33 = codesValuePath then self.valueCdata xpath s
  else some self

/-- A call of one of the handlers. -/
def call : Call → Option CodesParseHelper
  | .start xpath => self.tstart xpath
  | .stop xpath => self.tend xpath
  | .data xpath s => self.cdata xpath s

end CodesParseHelper

/-- A coded element and its values. -/
structure LoadedCodes where
  el : Field
  vals : Option (List Fields)

/-- The first `nvals` of the values. -/
def CodedElementsSlot.loaded (slot : CodedElementsSlot) : LoadedCodes where
  el := slot.el
  vals := match slot.vals, slot.nvals with
    | .block slots, some n => some (slots.take n)
    | _, _ => none

/-- `load_codes`, with the table that it loads. -/
def loadCodes (events : List XmlEvent) : Option (List LoadedCodes) :=
  (handlerCalls [] events).bind fun calls =>
    (calls.foldlM CodesParseHelper.call ⟨[], 0, [], 0⟩).map fun self =>
      (self.cv.take self.cvIndex).map CodedElementsSlot.loaded

end Libedi
