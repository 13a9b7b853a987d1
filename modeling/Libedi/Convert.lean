import Libedi.Lookup
import Libedi.Parse

/-!
# From segments to XML

`libedixml/conv.c`, and `escape_xml` of `libedixml/output.c`.

A conversion is a list of steps: what goes to `output`, what is reported by
`error`, and which data elements are handed to `element_to_xml`.  A step of its
own is where the source would go astray: a string function gets a null pointer,
or something is read behind the end of an array.  The run ends there, and what
follows in the list is not reached (`Step.fault`).

The text that goes to `output` is kept as tags, comments and character data
(`Xml`) until `Xml.render` writes it.  Data that the source sends through
`escape_xml` is marked (`Part.escaped`), so that the conversion of charsets can
be put in at the same place.

A step has the text that its format and its arguments stand for.  `output` and
`error` may format it a second time, without the arguments then: whether a run gets
past a step is said where the steps are run (`Globals.runStep`).
-/

namespace Libedi

/-! ## What is written -/

/-- A piece of text, as it is or by `escape_xml`. -/
inductive Part where
  | plain (text : Bytes)
  | escaped (src : Bytes)
  deriving DecidableEq, Repr

/-- An item of the output. -/
inductive Xml where
  | openTag (name attrs : Bytes)
  | closeTag (name : Bytes)
  | emptyTag (name : Bytes)
  | comment (parts : List Part)
  | chars (parts : List Part)
  deriving DecidableEq, Repr

/-- Where the source goes astray. -/
inductive Fault where
  /-- A null pointer as the tag of a segment. -/
  | nullTag
  /-- An element behind the last one of the segment. -/
  | element
  /-- A slot of an empty table. -/
  | table
  /-- A null pointer as the structure of a composite. -/
  | composite
  /-- A child behind the null pointer that ends the children. -/
  | child
  deriving DecidableEq, Repr

/-- A step of the conversion. -/
inductive Step where
  | out (xs : List Xml)
  | error (msg : Bytes)
  | element (name val : Bytes)
  | fault (f : Fault)
  deriving DecidableEq, Repr

/-- `struct edi2xml_config`. -/
structure Edi2xmlConfig where
  commentsSegmentNames : Bool
  commentsCodedValues : Bool
  commentsElementNames : Bool
  commentsErrors : Bool
  translateCodedValues : Bool
  translateCodedToElements : Bool
  deriving DecidableEq, Repr

/-- `escape_xml` without a conversion of charsets. -/
def escapeXml (src : Bytes) : Bytes :=
  src.flatMap fun c =>
    if c = '<'.toUInt8 then ascii "&lt;"
    else if c = '&'.toUInt8 then ascii "&amp;"
    else [c]

/-- A piece of text in the output. -/
def Part.render : Part → Bytes
  | plain text => text
  | escaped src => escapeXml src

/-- An item in the output. -/
def Xml.render : Xml → Bytes
  | openTag name attrs =>
    ascii "<" ++ name ++ (if attrs = [] then [] else ascii " " ++ attrs)
      ++ ascii ">"
  | closeTag name => ascii "</" ++ name ++ ascii ">"
  | emptyTag name => ascii "<" ++ name ++ ascii " />"
  | comment parts =>
    ascii "<!-- " ++ parts.flatMap Part.render ++ ascii " -->"
  | chars parts => parts.flatMap Part.render

/-- The end of a line. -/
def newline : Xml := .chars [.plain (ascii "\n")]

/-! ## The conversion -/

section Convert

variable (opts : Edi2xmlConfig) (all : EdistructAll)

/-- Output that is made on a condition. -/
def outIf (c : Prop) [Decidable c] (xs : List Xml) : List Step :=
  if c then [.out xs] else []

/-- `error`: a line on `stderr`, and a comment if errors are to be in the
output.  `msg` is what the format and its arguments stand for.  The comment is
formatted when the arguments are used up, so no run gets past the first of these
steps then. -/
def error (msg : Bytes) : List Step :=
  .error msg :: outIf opts.commentsErrors
    [.comment [.plain (ascii "ERROR: " ++ msg)], newline]

/-- `coded_to_xml`, and the text that it returns. -/
def codedToXml (name val : Bytes) : List Step × Option (List Xml) :=
  match findCodedValue all name val with
  | none => ([.fault .table], none)
  | some none => ([], none)
  | some (some z) =>
    (outIf opts.commentsCodedValues [.comment
      [.plain (val ++ ascii ": " ++ z.title ++ ascii ", " ++ z.function)]],
     if opts.translateCodedValues then
       some <| if opts.translateCodedToElements then
         [.emptyTag (ascii "Z:" ++ z.title2)]
       else
         [.openTag (ascii "X:coded") (ascii "code=\"" ++ val ++ ascii "\""),
           .chars [.escaped z.title], .closeTag (ascii "X:coded")]
     else none)

/-- `element_to_xml`. -/
def elementToXml (name val : Bytes) : List Step :=
  .element name val ::
    (outIf opts.commentsElementNames [.comment [.plain name], newline] ++
    match findEdistructElement all name with
    | none => [.fault .table]
    | some none => error opts (ascii "unknown element " ++ name)
    | some (some e) =>
      let coded :=
        if e.isCoded then codedToXml opts all name val else ([], none)
      .out [.openTag (ascii "E:" ++ e.title2) []] ::
        (coded.1 ++
        [.out (coded.2.getD [.chars [.escaped val]] ++
          [.closeTag (ascii "E:" ++ e.title2), newline])]))

/-- `element_missing_xml`. -/
def elementMissingXml (name : Bytes) : List Step :=
  if opts.commentsElementNames then
    match findEdistructElement all name with
    | none => [.fault .table]
    | some (some e) =>
      [.out [.comment [.plain (ascii "[no " ++ name ++ ascii ": "),
        .escaped e.title, .plain (ascii "]")], newline]]
    | some none =>
      [.out [.comment [.plain (ascii "[no " ++ name ++ ascii "]")], newline]]
  else []

/-- `can_be_truncated`.  The children are read from the second one on, which is
behind their end if there is none. -/
def canBeTruncated (c : EdistructComposite) : Option Bool :=
  match c.children with
  | [] => none
  | _ :: children => some (children.all (·.status != 'M'.toUInt8))

/-- The loop over the children of a composite. -/
def componentsToXml : List EdistructChild → List EdiValue → List Step
  | [], _ => []
  | c :: children, [] =>
    elementMissingXml opts all c.code ++ componentsToXml children []
  | c :: children, v :: values =>
    (if v.valuelen ≠ 0 then elementToXml opts all c.code v.value
     else elementMissingXml opts all c.code) ++
      componentsToXml children values

/-- `is_optional`. -/
def EdistructChild.isOptional (c : EdistructChild) : Bool :=
  c.status == 'C'.toUInt8

/-- `is_composite`. -/
def EdistructChild.isComposite (c : EdistructChild) : Bool :=
  c.code.head? == some 'C'.toUInt8 || c.code.head? == some 'S'.toUInt8

/-- A data element for a composite child. -/
def compositeToXml (code : Bytes) (cstruct : Option EdistructComposite)
    (values : List EdiValue) : List Step :=
  outIf opts.commentsElementNames [.comment [.plain code]] ++
    match cstruct with
    | none => [.fault .composite]
    | some c =>
      .out [.openTag (ascii "C:" ++ c.title2) [], newline] ::
        (componentsToXml opts all c.children values ++
        [.out [.closeTag (ascii "C:" ++ c.title2), newline]])

/-- How a data element fits a child of the segment. -/
inductive Fit where
  | simple (v : EdiValue)
  | composite (values : List EdiValue)
  | mismatch
  | fault (f : Fault)
  deriving DecidableEq, Repr

/-- The value that `simple.value` and `simple.valuelen` give.  In an element
without a type they are zeroed. -/
def EdiElement.simpleValue : EdiElement → EdiValue
  | .simple v => v
  | _ => ⟨[], 0⟩

/-- The test for the type of a data element.  A simple element stands for a
composite that was truncated. -/
def elementFit (child : EdistructChild) (cstruct : Option EdistructComposite)
    (e : EdiElement) : Fit :=
  match child.isComposite, e with
  | true, .composite values => .composite values
  | true, e =>
    match cstruct with
    | none => .fault .composite
    | some c =>
      match canBeTruncated c with
      | none => .fault .child
      | some true => .composite [e.simpleValue]
      | some false => .mismatch
  | false, .simple v => .simple v
  | false, _ => .mismatch

/-- `cstruct`, `none` if the table is empty. -/
def childStruct (child : EdistructChild) :
    Option (Option EdistructComposite) :=
  if child.isComposite then findEdistructComposite all child.code else some none

/-- The loop over the children of a segment.  `es` are the elements from
`data_element_index` on, and what is left of them is returned as well. -/
def childrenToXml : List EdistructChild → List EdiElement →
    List Step × List EdiElement
  | [], es => ([], es)
  | child :: children, es =>
    let missing := error opts
      (ascii "mandatory element " ++ child.code ++ ascii " is missing")
    match childStruct all child, es with
    | none, es => ([.fault .table], es)
    | some _, [] =>
      if child.isOptional then childrenToXml children [] else (missing, [])
    | some cstruct, e :: es =>
      match elementFit child cstruct e with
      | .fault f => ([.fault f], e :: es)
      | .mismatch =>
        if child.isOptional then
          let r := childrenToXml children es
          (elementMissingXml opts all child.code ++ r.1, r.2)
        else (missing, e :: es)
      | .composite values =>
        let r := childrenToXml children es
        (compositeToXml opts all child.code cstruct values ++ r.1, r.2)
      | .simple v =>
        let r := childrenToXml children es
        (elementToXml opts all child.code v.value ++ r.1, r.2)

/-- A number by `%d`. -/
def formatD (n : Nat) : Bytes := ascii (toString (BitVec.ofNat 32 n).toInt)

/-- The elements from the first `data_element_index` on. -/
def dataElements (tag : Bytes) : List EdiElement → List EdiElement
  | .simple v :: es => if v.value = tag then es else .simple v :: es
  | es => es

/-- The report of elements behind the last child. -/
def extraData (tag : Bytes) (es : List EdiElement) : List Step :=
  if es = [] then []
  else error opts (ascii "extra data (" ++ formatD es.length ++
    ascii " element" ++ (if 1 < es.length then ascii "s" else []) ++
    ascii ") at segment " ++ tag ++ ascii " tail")

/-- `segment_to_xml`. -/
def segmentToXml (seg : EdiSegment) : List Step :=
  match seg.tag with
  | none => [.fault .nullTag]
  | some tag =>
    match findEdistructSegment all tag with
    | none => [.fault .table]
    | some none => error opts (ascii "unknown segment " ++ tag)
    | some (some sstruct) =>
      if seg.elements = [] then [.fault .element]
      else
        let r := childrenToXml opts all sstruct.children
          (dataElements tag seg.elements)
        outIf opts.commentsSegmentNames
            [.comment [.plain sstruct.name], newline] ++
          .out [.openTag (ascii "S:" ++ sstruct.title2) [], newline] ::
          (r.1 ++ extraData opts tag r.2 ++
          [.out [.closeTag (ascii "S:" ++ sstruct.title2), newline]])

/-- The test of `parse_message_header`. -/
def isMessageHeader : List EdiElement → Bool
  | [_, _, .composite values] => 4 ≤ values.length
  | _ => false

/-- `parse_message_header`.  What it reads is not used. -/
def parseMessageHeader (seg : EdiSegment) : List Step :=
  if isMessageHeader seg.elements then []
  else error opts (ascii "Can not parse message header format, "
    ++ formatD seg.elements.length ++ ascii " elements")

/-- `namespaces`. -/
def namespaces : Bytes :=
  ascii "xmlns:X=\"http://www.ctm.ru/edi/xchg\"" ++
    ascii " xmlns:S=\"http://www.ctm.ru/edi/segs\"" ++
    ascii " xmlns:C=\"http://www.ctm.ru/edi/comps\"" ++
    ascii " xmlns:E=\"http://www.ctm.ru/edi/els\"" ++
    ascii " xmlns:Z=\"http://www.ctm.ru/edi/codes\""

/-- A turn of the loop of `edi2xml_conv`. -/
def convSegment (seg : EdiSegment) : List Step :=
  match seg.tag with
  | none => [.fault .nullTag]
  | some tag =>
    outIf (tag = ascii "UNB")
        [.openTag (ascii "X:interchange") namespaces, newline] ++
      outIf (tag = ascii "UNG") [.openTag (ascii "X:group") [], newline] ++
      (if tag = ascii "UNH" then parseMessageHeader opts seg else []) ++
      outIf (tag = ascii "UNH") [.openTag (ascii "X:message") [], newline] ++
      segmentToXml opts all seg ++
      outIf (tag = ascii "UNZ") [.closeTag (ascii "X:interchange"), newline] ++
      outIf (tag = ascii "UNE") [.closeTag (ascii "X:group"), newline] ++
      outIf (tag = ascii "UNT") [.closeTag (ascii "X:message"), newline]

/-- The loop of `edi2xml_conv`. -/
def convSegments (segments : List EdiSegment) : List Step :=
  segments.flatMap (convSegment opts all)

end Convert

/-! ## What the steps amount to -/

/-- What the steps give to `output`. -/
def written (steps : List Step) : List Xml :=
  steps.flatMap fun
    | .out xs => xs
    | _ => []

/-- The data elements that `element_to_xml` is called with. -/
def handed (steps : List Step) : List (Bytes × Bytes) :=
  steps.flatMap fun
    | .element name val => [(name, val)]
    | _ => []

/-- The messages of `error`. -/
def errors (steps : List Step) : List Bytes :=
  steps.flatMap fun
    | .error msg => [msg]
    | _ => []

/-- The source does not go astray. -/
def NoFault (steps : List Step) : Prop := ∀ f, Step.fault f ∉ steps

section Steps

variable (ss ts : List Step)

@[simp] theorem written_nil : written [] = [] := rfl

@[simp] theorem written_out (xs : List Xml) :
    written (.out xs :: ss) = xs ++ written ss := rfl

@[simp] theorem written_error (msg : Bytes) :
    written (.error msg :: ss) = written ss := rfl

@[simp] theorem written_element (name val : Bytes) :
    written (.element name val :: ss) = written ss := rfl

@[simp] theorem written_fault (f : Fault) :
    written (.fault f :: ss) = written ss := rfl

@[simp] theorem written_append :
    written (ss ++ ts) = written ss ++ written ts :=
  List.flatMap_append

@[simp] theorem handed_nil : handed [] = [] := rfl

@[simp] theorem handed_out (xs : List Xml) :
    handed (.out xs :: ss) = handed ss := rfl

@[simp] theorem handed_error (msg : Bytes) :
    handed (.error msg :: ss) = handed ss := rfl

@[simp] theorem handed_element (name val : Bytes) :
    handed (.element name val :: ss) = (name, val) :: handed ss := rfl

@[simp] theorem handed_fault (f : Fault) :
    handed (.fault f :: ss) = handed ss := rfl

@[simp] theorem handed_append :
    handed (ss ++ ts) = handed ss ++ handed ts :=
  List.flatMap_append

@[simp] theorem errors_nil : errors [] = [] := rfl

@[simp] theorem errors_out (xs : List Xml) :
    errors (.out xs :: ss) = errors ss := rfl

@[simp] theorem errors_error (msg : Bytes) :
    errors (.error msg :: ss) = msg :: errors ss := rfl

@[simp] theorem errors_element (name val : Bytes) :
    errors (.element name val :: ss) = errors ss := rfl

@[simp] theorem errors_fault (f : Fault) :
    errors (.fault f :: ss) = errors ss := rfl

@[simp] theorem errors_append :
    errors (ss ++ ts) = errors ss ++ errors ts :=
  List.flatMap_append

@[simp] theorem noFault_nil : NoFault [] := fun _ => List.not_mem_nil

@[simp] theorem noFault_out (xs : List Xml) :
    NoFault (.out xs :: ss) ↔ NoFault ss := by
  simp [NoFault]

@[simp] theorem noFault_error (msg : Bytes) :
    NoFault (.error msg :: ss) ↔ NoFault ss := by
  simp [NoFault]

@[simp] theorem noFault_element (name val : Bytes) :
    NoFault (.element name val :: ss) ↔ NoFault ss := by
  simp [NoFault]

@[simp] theorem not_noFault_fault (f : Fault) :
    ¬ NoFault (.fault f :: ss) :=
  fun h => h f List.mem_cons_self

@[simp] theorem written_outIf (c : Prop) [Decidable c] (xs : List Xml) :
    written (outIf c xs) = if c then xs else [] := by
  unfold outIf
  split <;> simp

@[simp] theorem handed_outIf (c : Prop) [Decidable c] (xs : List Xml) :
    handed (outIf c xs) = [] := by
  unfold outIf
  split <;> rfl

@[simp] theorem errors_outIf (c : Prop) [Decidable c] (xs : List Xml) :
    errors (outIf c xs) = [] := by
  unfold outIf
  split <;> rfl

@[simp] theorem noFault_outIf (c : Prop) [Decidable c] (xs : List Xml) :
    NoFault (outIf c xs) := by
  unfold outIf
  split <;> simp

@[simp] theorem noFault_append :
    NoFault (ss ++ ts) ↔ NoFault ss ∧ NoFault ts := by
  simp only [NoFault, List.mem_append, not_or, forall_and]

end Steps

end Libedi
