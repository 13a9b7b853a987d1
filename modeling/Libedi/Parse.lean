import Libedi.Lib.EscapedText
import Libedi.Detect

/-!
# The parser

`libedi/parse.c`.  `message` is the list of the bytes that are left, so the
empty list is the NUL, and `message++` drops the head.

`edi_parser_parse` has three nested loops.  The innermost one is `scanValue`,
the loop over the values of one segment is `elementLoop`, and the loop over the
segments is `segmentLoop`.  Each of them moves the message forward, which is
their termination argument.

Allocations succeed here, so the error paths that end in `EDI_ERR_SYSTEM` are
left out, and a stored value is the string that `memcpyescape` leaves behind.
-/

namespace Libedi

/-! ## Parser objects -/

/-- `edi__parser_init`. -/
def ediParserInit (params : Option EdiParams) : EdiParser :=
  let params := params.getD ediDefaultParams
  let p : EdiParser := ⟨.none, 0, 0, 0, 0, 0, 1⟩
  if 0x0100 ≤ params.version then { p with
    sepSeg := params.segmentSeparator.toNat
    sepData := params.elementSeparator.toNat
    sepSub := params.subelementSeparator.toNat
    sepTag := params.tagSeparator.toNat
    escape := params.escape.toNat } else p

/-- `edi_parser_create`.  It runs `edi__init` first. -/
def ediParserCreate (lib : EdiLib) (params : Option EdiParams) :
    EdiLib × EdiParser :=
  (ediInit lib, match params with
    | none => {
        error := .none
        sepSeg := charVal '\''.toUInt8
        sepData := charVal '+'.toUInt8
        sepSub := charVal ':'.toUInt8
        sepTag := charVal '+'.toUInt8
        escape := charVal '?'.toUInt8
        detect := 1 }
    | some params => ediParserInit (some params))

/-- `edi_parser_error`. -/
def ediParserError (p : EdiParser) : EdiErr := p.error

namespace EdiParser

variable (p : EdiParser)

/-- `parser->escape && *message == parser->escape`. -/
def isEscape (c : UInt8) : Bool := p.escape != 0 && charVal c == p.escape

/-- `*message == parser->sep_sub`. -/
def isSub (c : UInt8) : Bool := charVal c == p.sepSub

/-- `*message == parser->sep_data`. -/
def isData (c : UInt8) : Bool := charVal c == p.sepData

/-- `*message == parser->sep_tag`. -/
def isTag (c : UInt8) : Bool := charVal c == p.sepTag

/-- `*message == parser->sep_seg`. -/
def isSeg (c : UInt8) : Bool := charVal c == p.sepSeg

/-- The test that ends the scan of a value.  `first` says that the element is
the first one of its segment, `seg->elements == el`. -/
def stops (first : Bool) (c : UInt8) : Bool :=
  p.isSub c || (!first && p.isData c) || (first && p.isTag c) || p.isSeg c

/-- The test that starts a new element behind the byte `c`. -/
def opens (c : UInt8) : Bool := p.isData c || p.isTag c

end EdiParser

/-! ## Values -/

/-- The scan of one value, up to the byte that ends it.  `e` is the flag of the
same name. -/
def scanValue (p : EdiParser) (first : Bool) : Bool → Bytes → Bytes × Bytes
  | _, [] => ([], [])
  | true, c :: cs => Prod.map (c :: ·) id (scanValue p first false cs)
  | false, c :: cs =>
    if p.isEscape c then Prod.map (c :: ·) id (scanValue p first true cs)
    else if p.stops first c then ([], c :: cs)
    else Prod.map (c :: ·) id (scanValue p first false cs)

/-- `memcpyescape`: the bytes that it leaves in `dest`. -/
def memcpyescape (p : EdiParser) : Bool → Bytes → Bytes
  | _, [] => []
  | true, c :: src => c :: memcpyescape p false src
  | false, c :: src =>
    if p.isEscape c then memcpyescape p true src
    else c :: memcpyescape p false src

/-- The scan of a value is a scan of escaped text. -/
theorem scanValue_eq_scan (p : EdiParser) (first e : Bool) (m : Bytes) :
    scanValue p first e m
      = EscapedText.scan p.isEscape (p.stops first) e m := by
  fun_induction scanValue p first e m <;> simp_all [EscapedText.scan]

theorem memcpyescape_eq_unescape (p : EdiParser) (e : Bool) (src : Bytes) :
    memcpyescape p e src = EscapedText.unescape p.isEscape e src := by
  fun_induction memcpyescape p e src <;> simp_all [EscapedText.unescape]

/-- A scan loses nothing. -/
theorem scanValue_concat {p : EdiParser} {first e : Bool} {m raw rest : Bytes}
    (h : scanValue p first e m = (raw, rest)) : raw ++ rest = m := by
  have hall := EscapedText.scan_fst_append_snd p.isEscape (p.stops first) e m
  rw [← scanValue_eq_scan, h] at hall
  exact hall

/-- A scan that ends at a byte leaves less behind that byte than it was given. -/
theorem scanValue_rest_lt {p : EdiParser} {first e : Bool} {m raw ds : Bytes}
    {d : UInt8} (h : scanValue p first e m = (raw, d :: ds)) :
    ds.length < m.length := by
  rw [← scanValue_concat h, List.length_append, List.length_cons]
  omega

/-- A scan ends at a byte that ends a value. -/
theorem scanValue_stops {p : EdiParser} {first e : Bool} {m raw ds : Bytes}
    {d : UInt8} (h : scanValue p first e m = (raw, d :: ds)) :
    p.stops first d = true := by
  rw [scanValue_eq_scan] at h
  exact (EscapedText.scan_snd_cons (congrArg Prod.snd h)).1

/-! ## Elements -/

/-- The variables of the element loop.  `before` holds the elements in front of
`el`, and `el` is `none` while the pointer is `NULL`. -/
structure SegState where
  before : List EdiElement
  el : Option EdiElement
  tag : Option Bytes
  newel : Bool
  deriving DecidableEq, Repr

namespace SegState

/-- The variables in front of the element loop. -/
def start : SegState := ⟨[], none, none, true⟩

/-- The elements of the segment. -/
def elements (st : SegState) : List EdiElement := st.before ++ st.el.toList

/-- The `if(newel)` block: a zeroed element behind the others. -/
def openElement (st : SegState) : SegState :=
  if st.newel then
    { st with before := st.elements, el := some .untyped, newel := false }
  else st

/-- Whether the next value goes into the first element of the segment. -/
def first (st : SegState) : Bool := st.openElement.before.isEmpty

end SegState

/-- A value goes into its element.  `sub` says that a sub-element separator
follows it. -/
def EdiElement.store (el : EdiElement) (v : EdiValue) (sub : Bool) :
    EdiElement :=
  match el with
  | .composite vs => .composite (vs ++ [v])
  | .untyped | .simple _ => if sub then .composite [v] else .simple v

/-- The part of the loop body that stores a value.  `next` is `*message` behind
the value.  The tag is the first value of the first element. -/
def storeValue (p : EdiParser) (st : SegState) (v : EdiValue) (next : Int) :
    SegState :=
  match st.el with
  | none => st
  | some el =>
    let el := el.store v (next == p.sepSub)
    { st with
      el := some el
      tag := if st.before.isEmpty && el.values.length == 1 then some v.value
        else st.tag }

/-- The loop over the values of a segment.  It ends in front of the segment
separator or at the end of the message. -/
def elementLoop (p : EdiParser) (st : SegState) (m : Bytes) :
    SegState × Bytes :=
  match m with
  | [] => (st, [])
  | c :: cs =>
    if p.isSeg c then (st, c :: cs)
    else
      match _h : scanValue p st.first false (c :: cs) with
      | (raw, []) =>
        (storeValue p st.openElement (.ofBytes (memcpyescape p false raw)) 0,
          [])
      | (raw, d :: ds) =>
        let stored := storeValue p st.openElement
          (.ofBytes (memcpyescape p false raw)) (charVal d)
        if p.isSeg d then (stored, d :: ds)
        else elementLoop p { stored with newel := p.opens d } ds
termination_by m.length
decreasing_by exact scanValue_rest_lt _h

/-- The message ends behind a value. -/
theorem elementLoop_last {p : EdiParser} {st : SegState} {c : UInt8}
    {cs raw : Bytes} (hseg : p.isSeg c = false)
    (hscan : scanValue p st.first false (c :: cs) = (raw, [])) :
    elementLoop p st (c :: cs)
      = (storeValue p st.openElement (.ofBytes (memcpyescape p false raw)) 0,
          []) := by
  rw [elementLoop, if_neg (by simp [hseg])]
  split <;> simp_all

/-- The segment separator stands behind a value. -/
theorem elementLoop_stop {p : EdiParser} {st : SegState} {c d : UInt8}
    {cs raw ds : Bytes} (hseg : p.isSeg c = false)
    (hscan : scanValue p st.first false (c :: cs) = (raw, d :: ds))
    (hd : p.isSeg d = true) :
    elementLoop p st (c :: cs)
      = (storeValue p st.openElement (.ofBytes (memcpyescape p false raw))
          (charVal d), d :: ds) := by
  rw [elementLoop, if_neg (by simp [hseg])]
  split <;> simp_all

/-- Another separator stands behind a value. -/
theorem elementLoop_next {p : EdiParser} {st : SegState} {c d : UInt8}
    {cs raw ds : Bytes} (hseg : p.isSeg c = false)
    (hscan : scanValue p st.first false (c :: cs) = (raw, d :: ds))
    (hd : p.isSeg d = false) :
    elementLoop p st (c :: cs)
      = elementLoop p
          { storeValue p st.openElement (.ofBytes (memcpyescape p false raw))
              (charVal d) with newel := p.opens d } ds := by
  rw [elementLoop, if_neg (by simp [hseg])]
  split <;> simp_all

theorem elementLoop_snd_length_le (p : EdiParser) (st : SegState) (m : Bytes) :
    (elementLoop p st m).2.length ≤ m.length := by
  fun_induction elementLoop p st m with
  | case1 => simp
  | case2 => simp
  | case3 => simp
  | case4 st c cs _ raw d ds h stored hseg => exact scanValue_rest_lt h
  | case5 st c cs _ raw d ds h stored hseg ih =>
    exact Nat.le_trans ih (Nat.le_of_lt (scanValue_rest_lt h))

/-! ## Segments -/

/-- CR or LF. -/
def isNewline (c : UInt8) : Bool := c == 0x0D || c == 0x0A

theorem dropWhile_length_le {α : Type*} (f : α → Bool) (l : List α) :
    (l.dropWhile f).length ≤ l.length :=
  (List.dropWhile_sublist f).length_le

/-- The loop over the segments.  `total` is the length of the whole message, so
`total` less what is left is `message - msg_start`. -/
def segmentLoop (p : EdiParser) (total : Nat) (m : Bytes) :
    List EdiSegment × EdiErr :=
  match _h : m.dropWhile isNewline with
  | [] => ([], .none)
  | c :: cs =>
    let offset := total - (c :: cs).length
    match _h' : elementLoop p SegState.start (c :: cs) with
    | (st, []) => ([⟨st.elements, st.tag, offset⟩], .unterminated)
    | (st, _ :: rest) =>
      Prod.map (⟨st.elements, st.tag, offset⟩ :: ·) id (segmentLoop p total rest)
termination_by m.length
decreasing_by
  have hdrop := dropWhile_length_le isNewline m
  have hlen := elementLoop_snd_length_le p SegState.start (c :: cs)
  rw [_h] at hdrop
  rw [_h'] at hlen
  simp only [List.length_cons] at hdrop hlen ⊢
  omega

/-- Nothing but newlines is left. -/
theorem segmentLoop_nil {p : EdiParser} {total : Nat} {m : Bytes}
    (h : m.dropWhile isNewline = []) :
    segmentLoop p total m = ([], .none) := by
  rw [segmentLoop]
  split <;> simp_all

/-- The message ends in the middle of a segment. -/
theorem segmentLoop_open {p : EdiParser} {total : Nat} {m l : Bytes}
    {st : SegState} (h : m.dropWhile isNewline = l) (hne : l ≠ [])
    (hloop : elementLoop p SegState.start l = (st, [])) :
    segmentLoop p total m
      = ([⟨st.elements, st.tag, total - l.length⟩], .unterminated) := by
  rw [segmentLoop]
  split
  · simp_all
  · split <;> simp_all

/-- One closed segment, and the loop goes on behind its separator. -/
theorem segmentLoop_closed {p : EdiParser} {total : Nat} {m l rest : Bytes}
    {st : SegState} {d : UInt8} (h : m.dropWhile isNewline = l) (hne : l ≠ [])
    (hloop : elementLoop p SegState.start l = (st, d :: rest)) :
    segmentLoop p total m
      = Prod.map (⟨st.elements, st.tag, total - l.length⟩ :: ·) id
          (segmentLoop p total rest) := by
  rw [segmentLoop]
  split
  · simp_all
  · split <;> simp_all

/-- The part of `edi_parser_parse` behind the detection: the parser that ran it,
with its error, and the interchange. -/
def parseBody (p : EdiParser) (total : Nat) (m : Bytes) :
    EdiParser × EdiInterchange :=
  if m.isEmpty then ({ p with error := .empty }, ⟨[]⟩)
  else
    let r := segmentLoop p total m
    ({ p with error := r.2 }, ⟨r.1⟩)

/-- `edi_parser_parse`: the caller's parser afterwards, and the interchange,
`none` for `NULL`.  A detected dialect runs on `staticparser`, which is gone
when the function returns. -/
def ediParserParse (lib : EdiLib) (oparser : EdiParser) (message : CString) :
    EdiParser × Option EdiInterchange :=
  if oparser.detect = 1 then
    match (ediDetect lib.detectparams message).found with
    | none => (oparser, none)
    | some (params, skip) =>
      if params.version ≠ 0 then
        let r := parseBody (ediParserInit (some params)) message.strlen
          (message.bytes.drop skip)
        (oparser, some r.2)
      else
        let r := parseBody oparser message.strlen (message.bytes.drop skip)
        (r.1, some r.2)
  else
    let r := parseBody oparser message.strlen message.bytes
    (r.1, some r.2)

end Libedi
