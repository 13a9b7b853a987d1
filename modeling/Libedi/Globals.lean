import Libedi.CharConv
import Libedi.OutputBuffer
import Libedi.Parse

/-!
# The functions of `libedixml`

`libedixml/excep.c`, `output.c` and `edi2xml_conv`, `edi2xml_conv2` and
`edi2xml_error` of `conv.c`, with the state that they share (`Globals`).

A function returns, raises an exception, or goes astray (`Exit`).  A call of
`output` that writes to a buffer goes astray where its format would be expanded a
second time without its arguments, and `error` where it writes a comment, because
it always formats twice.  The texts that went to `output` so far stand for the
buffer (`Outbuf`), and `output_refines` says that this is what the loop of `output`
on the buffer itself amounts to.
-/

namespace Libedi

/-! ## State -/

/-- `conv`.  It is null at first, and not reset when it is closed. -/
inductive Descriptor (σ : Type) where
  | invalid
  | off
  | opened (cd : σ)
  deriving DecidableEq

/-- `outbufptr`, with the texts that went to `output`: a null pointer, a pointer to
a variable, or a pointer to the variable of `edi2xml_conv2` when it is gone. -/
inductive Outbuf where
  | stdout (texts : List Bytes)
  | buffer (texts : List Bytes)
  | gone
  deriving DecidableEq, Repr

/-- What has been written. -/
def Outbuf.texts : Outbuf → List Bytes
  | .stdout texts | .buffer texts => texts
  | .gone => []

/-- A call of `output`, by its text and by whether its format takes no
arguments. -/
structure OutputCall where
  noArguments : Bool
  text : Bytes
  deriving DecidableEq, Repr

/-- `output`.  A buffer that is too short is made longer, and the text is formatted
once more then. -/
def Outbuf.output (out : Outbuf) (c : OutputCall) : Except Crash Outbuf :=
  match out with
  | .stdout texts => .ok (.stdout (texts ++ [c.text]))
  | .buffer texts =>
    if OutputBuffer.Fits texts.flatten.length c.noArguments c.text.length then
      .ok (.buffer (texts ++ [c.text]))
    else .error .format
  | .gone => .error .outbuf

/-- The variables of `libedixml`, and the library `libedi` below it. -/
structure Globals (σ : Type) where
  conv : Descriptor σ
  outbuf : Outbuf
  excpText : Option Bytes
  errOffset : Nat
  errSegment : Bytes
  edi : EdiLib

/-- The variables when the process starts. -/
def Globals.start (σ : Type) (edi : EdiLib) : Globals σ :=
  ⟨.invalid, .stdout [], none, 0, [], edi⟩

/-- How a function ends: it returns, it jumps to the handler of exceptions, or it
goes astray. -/
inductive Exit (σ α : Type) where
  | returns (g : Globals σ) (a : α)
  | raised (g : Globals σ)
  | crashed (c : Crash)

/-- What is done after a function has returned. -/
def Exit.bind {σ α β : Type} (e : Exit σ α) (f : Globals σ → α → Exit σ β) :
    Exit σ β :=
  match e with
  | .returns g a => f g a
  | .raised g => .raised g
  | .crashed c => .crashed c

/-- The steps of the conversion whose format takes no arguments. -/
def noArguments (xs : List Xml) : Bool :=
  xs ∈ [[.openTag (ascii "X:group") [], newline],
    [.openTag (ascii "X:message") [], newline],
    [.closeTag (ascii "X:interchange"), newline],
    [.closeTag (ascii "X:group"), newline],
    [.closeTag (ascii "X:message"), newline]]

/-- The first line of a document with a charset. -/
def encodingLine : OutputCall :=
  ⟨true, ascii "<?xml version=\"1.0\" encoding=\"UTF-8\"?>\n"⟩

namespace Globals

variable {σ : Type} (g : Globals σ)

/-- `throw_exception`, with the text formatted. -/
def throwException {α : Type} (msg : Bytes) : Exit σ α :=
  match g.excpText with
  | some _ => .crashed .pending
  | none => .raised { g with excpText := some msg }

/-- `output_init`. -/
def outputInit : Globals σ := { g with conv := .off, outbuf := .buffer [] }

/-- `output`. -/
def output (c : OutputCall) : Exit σ Unit :=
  match g.outbuf.output c with
  | .ok out => .returns { g with outbuf := out } ()
  | .error crash => .crashed crash

/-- `output_shutdown`. -/
def outputShutdown : Globals σ :=
  match g.conv with
  | .off => g
  | _ => { g with conv := .invalid }

variable (lib : Iconv σ) (heap : Realloc)

/-- `output_set_enc`. -/
def outputSetEnc (enc : Bytes) : Exit σ Int :=
  match lib.iconvOpen enc with
  | none => .returns { g with conv := .off } (-1)
  | some cd =>
    (output { g with conv := .opened cd } encodingLine).bind
      fun g _ => .returns g 0

/-- `escape_xml`. -/
def escapeXml (src : Bytes) : Exit σ Bytes :=
  match g.conv with
  | .off => .returns g (Libedi.escapeXml src)
  | .invalid => .crashed .descriptor
  | .opened cd =>
    match doConv lib heap cd src with
    | .text cd dst =>
      .returns { g with conv := .opened cd } (Libedi.escapeXml dst)
    | .exception cd msg => throwException { g with conv := .opened cd } msg
    | .crash c => .crashed c

/-- The text of the parts. -/
def renderParts (g : Globals σ) : List Part → Exit σ Bytes
  | [] => .returns g []
  | .plain text :: parts =>
    (renderParts g parts).bind fun g rest => .returns g (text ++ rest)
  | .escaped src :: parts =>
    (g.escapeXml lib heap src).bind fun g text =>
      (renderParts g parts).bind fun g rest => .returns g (text ++ rest)

/-- The text of an item. -/
def render : Xml → Exit σ Bytes
  | .comment parts =>
    (g.renderParts lib heap parts).bind fun g text =>
      .returns g (Xml.comment [.plain text]).render
  | .chars parts => g.renderParts lib heap parts
  | x => .returns g x.render

/-- The text of some items. -/
def renderAll (g : Globals σ) : List Xml → Exit σ Bytes
  | [] => .returns g []
  | x :: xs =>
    (g.render lib heap x).bind fun g text =>
      (renderAll g xs).bind fun g rest => .returns g (text ++ rest)

variable (opts : Edi2xmlConfig) (all : EdistructAll)

/-- A step of the conversion.  `error` hands the arguments of its message to
`vfprintf`, and, for the comment, to `vsprintf` once more. -/
def runStep : Step → Exit σ Unit
  | .out xs =>
    (g.renderAll lib heap xs).bind fun g text => g.output ⟨noArguments xs, text⟩
  | .error _ =>
    if opts.commentsErrors then .crashed .format else .returns g ()
  | .element _ _ => .returns g ()
  | .fault f => .crashed (.fault f)

/-- The steps of the conversion, one after the other. -/
def runSteps (g : Globals σ) : List Step → Exit σ Unit
  | [] => .returns g ()
  | s :: steps =>
    (g.runStep lib heap opts s).bind fun g _ => runSteps g steps

/-- The loop of `edi2xml_conv`. -/
def convLoop (g : Globals σ) : List EdiSegment → Exit σ Unit
  | [] => .returns g ()
  | seg :: segments =>
    (runSteps lib heap opts { g with errOffset := seg.offset }
      (convSegment opts all seg)).bind fun g _ => convLoop g segments

/-- The handler of exceptions in `edi2xml_conv`. -/
def catchException (ediText : CString) : Exit σ Int :=
  let g := { g with errSegment := (ediText.bytes.drop g.errOffset).take 100 }
  (g.runSteps lib heap opts (error opts
    (ascii "Exception: " ++ g.excpText.getD (ascii "(null)")))).bind
    fun g _ => .returns g (-1)

/-- `edi2xml_conv`. -/
def edi2xmlConv (ediText : CString) : Exit σ Int :=
  let (edi, p) := ediParserCreate g.edi none
  let g := { g with errOffset := 0, errSegment := [], edi := edi }
  match (ediParserParse edi p ediText).2 with
  | none => .returns g (-1)
  | some ichg =>
    match g.convLoop lib heap opts all ichg.segments with
    | .returns g _ => .returns g 0
    | .crashed c => .crashed c
    | .raised g => g.catchException lib heap opts ediText

/-- What `edi2xml_conv2` returns, by the texts that went to the buffer. -/
def takeBuffer (rc : Int) : Exit σ (Option (List Bytes)) :=
  let r : Option (List Bytes) := match g.outbuf with
    | .buffer (text :: texts) => if rc = 0 then some (text :: texts) else none
    | _ => none
  .returns { g with outbuf := .gone } r

/-- `edi2xml_conv2`. -/
def edi2xmlConv2 (ediText : CString) (enc : Option Bytes) :
    Exit σ (Option (List Bytes)) :=
  let g := g.outputInit
  let e : Exit σ Int := match enc with
    | none => .returns g 0
    | some enc => g.outputSetEnc lib enc
  e.bind fun g _ => (g.edi2xmlConv lib heap opts all ediText).bind fun g rc =>
    g.outputShutdown.takeBuffer rc

/-- `edi2xml_error`, and the text at `*ptr`.  There is no return behind the
assignment of the text for an unknown error. -/
def edi2xmlError : Exit σ Bytes :=
  match g.excpText with
  | none => .crashed .noText
  | some text =>
    .returns { g with excpText := none } (text ++ ascii ", segment offset " ++
      ascii (toString (g.errOffset % 2 ^ 32)) ++ ascii ": " ++ g.errSegment ++
      ascii "...")

end Globals

/-! ## Calls -/

/-- A call of the library by its user. -/
inductive UserCall where
  | conv (ediText : CString)
  | conv2 (ediText : CString) (enc : Option Bytes)
  | error

section Calls

variable {σ : Type} (lib : Iconv σ) (heap : Realloc) (opts : Edi2xmlConfig)
  (all : EdistructAll)

/-- A call, and whether it was a conversion that failed. -/
def UserCall.run (g : Globals σ) : UserCall → Exit σ Bool
  | .conv ediText =>
    (g.edi2xmlConv lib heap opts all ediText).bind fun g rc =>
      .returns g (rc = -1)
  | .conv2 ediText enc =>
    (g.edi2xmlConv2 lib heap opts all ediText enc).bind fun g r =>
      .returns g (r = none)
  | .error => g.edi2xmlError.bind fun g _ => .returns g false

/-- Calls that all come back: the state behind them, and whether the last one
was a conversion that failed. -/
def runCalls (r : Globals σ × Bool) : List UserCall → Option (Globals σ × Bool)
  | [] => some r
  | c :: calls =>
    match c.run lib heap opts all r.1 with
    | .returns g failed => runCalls (g, failed) calls
    | _ => none

end Calls

/-! ## The buffer itself -/

section Buffer

open Formatted OutputBuffer

variable {κ α σ : Type} (print : κ → α → Bytes) (stale : Nat → UInt8)

/-- A call of `output` with a format and arguments. -/
def OutputCall.ofCall (c : Formatted.Call κ α) : OutputCall :=
  ⟨decide (arity c.format = 0), c.text print⟩

/-- `output` does with the texts what its loop does with the buffer: both end for the
same calls, and afterwards the buffer holds the texts again.  Formats that take no
arguments are short. -/
theorem output_refines {g : Globals σ} {texts : List Bytes}
    (hbuffer : g.outbuf = .buffer texts) {o : OutputBuffer}
    (ho : Ready o texts.flatten) (c : Formatted.Call κ α)
    (hshort : arity c.format = 0 → (c.text print).length < 1024) :
    ((∃ fuel o', OutputBuffer.output print stale fuel o c = some o') ↔
      ∃ h, g.output (.ofCall print c) = .returns h ()) ∧
    ∀ h, g.output (.ofCall print c) = .returns h () →
      h = { g with outbuf := .buffer (texts ++ [c.text print]) } ∧
      ∃ fuel o', OutputBuffer.output print stale fuel o c = some o' ∧
        Ready o' (texts ++ [c.text print]).flatten := by
  rw [output_ends_iff print stale ho hshort]
  have hout : g.output (.ofCall print c)
      = if Fits texts.flatten.length (decide (arity c.format = 0))
          (c.text print).length then
          .returns { g with outbuf := .buffer (texts ++ [c.text print]) } ()
        else .crashed .format := by
    rw [Globals.output, hbuffer, Outbuf.output, OutputCall.ofCall]
    split_ifs <;> rfl
  rw [hout]
  by_cases hfits : Fits texts.flatten.length (decide (arity c.format = 0))
      (c.text print).length
  · rw [if_pos hfits]
    refine ⟨iff_of_true hfits ⟨_, rfl⟩, fun h hh => ?_⟩
    obtain ⟨rfl, -⟩ := Exit.returns.inj hh
    obtain ⟨fuel, o', ho', hsteady⟩ :=
      output_steady stale ho (callFits_iff.2 hfits)
    refine ⟨rfl, fuel, o', ho', Or.inr ?_⟩
    rwa [List.flatten_append, List.flatten_singleton]
  · rw [if_neg hfits]
    refine ⟨iff_of_false hfits ?_, ?_⟩
    · rintro ⟨h, hh⟩
      cases hh
    · intro h hh
      cases hh

end Buffer

end Libedi
