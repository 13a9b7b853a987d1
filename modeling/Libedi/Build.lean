import Mathlib.Algebra.Group.Nat.Defs
import Libedi.Lib.BoundedOutput
import Libedi.Data

/-!
# The builder

`edi_interchange_build` of `libedi/build.c` and its helpers.  A `Writer` holds
the buffer and the cursor: `bp` is `buf + bufpos` at all times, so the two
variables of the C code are one position here.  The buffer records every store,
also one behind its end.

`size_t` has 64 bits.  `addescaped` and `addhdrtrailer` return the distance that
the cursor has moved, which wraps if `%_` has moved it back, and the caller adds
it to its own cursor.

The result is `none` where `addhdrtrailer` runs past the NUL of its format: a
lone `%` at its end makes it step over the NUL.

Two unions are read where another member was stored.  `type` is `0` in an
element without values, which the builder takes for a composite, and the header
check reads `simple.value` and `simple.valuelen` of an element that may be
composite.  `pun` says what it finds there.
-/

namespace Libedi

open BoundedOutput

/-- `a - b` of `size_t`. -/
def sizeSub (a b : Nat) : Nat := (a + 2 ^ 64 - b) % 2 ^ 64

/-- `a + b` of `size_t`. -/
def sizeAdd (a b : Nat) : Nat := (a + b) % 2 ^ 64

/-- A cursor that adds the distance it was told ends up where its callee
stopped, also when that is further back. -/
theorem sizeAdd_sizeSub {a b : Nat} (ha : a < 2 ^ 64) (hb : b < 2 ^ 64) :
    sizeAdd b (sizeSub a b) = a := by
  unfold sizeAdd sizeSub
  omega

/-! ## Values -/

/-- The test of `addescaped` for a byte that needs an escape.  The byte is a
`char`, the separators are `unsigned char`. -/
def isSpecial (params : EdiParams) (c : UInt8) : Bool :=
  (charVal c == (params.segmentSeparator.toNat : Int) ||
    charVal c == (params.elementSeparator.toNat : Int) ||
    charVal c == (params.subelementSeparator.toNat : Int) ||
    charVal c == (params.tagSeparator.toNat : Int) ||
    charVal c == (params.escape.toNat : Int)) && params.escape != 0

/-- The loop of `addescaped`. -/
def addescapedLoop (params : EdiParams) (buflen : Nat) (w : Writer UInt8) :
    Bytes → Writer UInt8
  | [] => w
  | c :: value =>
    if buflen ≤ w.pos then w
    else if isSpecial params c then
      let w := w.put params.escape
      if buflen ≤ w.pos then w
      else
        let w := w.put c
        if buflen ≤ w.pos then w else addescapedLoop params buflen w value
    else
      let w := w.put c
      if buflen ≤ w.pos then w else addescapedLoop params buflen w value

/-- `addescaped`: the buffer, and the distance of the cursor. -/
def addescaped (w : Writer UInt8) (buflen : Nat) (value : Bytes)
    (params : EdiParams) : Buffer UInt8 × Nat :=
  let w' := (addescapedLoop params buflen w value).terminate 0
  (w'.buf, sizeSub w'.pos w.pos)

/-! ## Headers -/

/-- The separators that a directive of the format stands for. -/
def directive (params : EdiParams) (c : UInt8) : Option UInt8 :=
  if c = 'S'.toUInt8 then some params.segmentSeparator
  else if c = 'E'.toUInt8 then some params.elementSeparator
  else if c = 's'.toUInt8 then some params.subelementSeparator
  else if c = 'T'.toUInt8 then some params.tagSeparator
  else if c = 'R'.toUInt8 then some params.escape
  else none

/-- The loop of `addhdrtrailer`. -/
def addhdrtrailerLoop (params : EdiParams) (buflen : Nat) (w : Writer UInt8)
    (format : Bytes) : Option (Writer UInt8) :=
  match format with
  | [] => some w
  | c :: format =>
    if buflen ≤ w.pos then some w
    else if c = '%'.toUInt8 then
      match format with
      | [] =>
        -- the NUL is stored like any other byte, and `format` steps over it
        let w := w.put '%'.toUInt8
        if buflen ≤ w.pos then some w else none
      | d :: format =>
        if d = '_'.toUInt8 then
          addhdrtrailerLoop params buflen (if 0 < w.pos then w.back else w)
            format
        else
          match directive params d with
          | some b => addhdrtrailerLoop params buflen (w.put b) format
          | none =>
            let w := w.put '%'.toUInt8
            if buflen ≤ w.pos then some w
            else addhdrtrailerLoop params buflen (w.put d) format
    else addhdrtrailerLoop params buflen (w.put c) format

/-- `addhdrtrailer`: the buffer, and the distance of the cursor. -/
def addhdrtrailer (w : Writer UInt8) (buflen : Nat) (format : Bytes)
    (params : EdiParams) : Option (Buffer UInt8 × Nat) := do
  let w' ← addhdrtrailerLoop params buflen w format
  let w' := w'.terminate 0
  return (w'.buf, sizeSub w'.pos w.pos)

/-- `hdrname` and `hdrtrail`. -/
def headerOf (params : EdiParams) : Option (Bytes × Bytes) :=
  if 0x0103 ≤ params.version then
    match params.ssName, params.ssTrailer with
    | some name, some trail => some (name, trail)
    | _, _ => none
  else none

/-! ## The loops over the interchange -/

/-- The variables of `edi_interchange_build` that its loops change. -/
structure BuildState where
  w : Writer UInt8
  dohdrtrailer : Bool

/-- `n = addescaped(..); bp += n; bufpos += n;` -/
def BuildState.escaped (st : BuildState) (buflen : Nat) (value : Bytes)
    (params : EdiParams) : BuildState :=
  let r := addescaped st.w buflen value params
  { st with w := ⟨r.1, sizeAdd st.w.pos r.2⟩ }

/-- `n = addhdrtrailer(..); bp += n; bufpos += n;` -/
def BuildState.hdrtrailer (st : BuildState) (buflen : Nat) (format : Bytes)
    (params : EdiParams) : Option BuildState := do
  let r ← addhdrtrailer st.w buflen format params
  return { st with w := ⟨r.1, sizeAdd st.w.pos r.2⟩ }

/-- `*bp = c; bp++; bufpos++;` -/
def BuildState.separator (st : BuildState) (c : UInt8) : BuildState :=
  { st with w := st.w.put c }

/-- The first value of the interchange is the header name. -/
def isHeader (hdrname : Bytes) (v : EdiValue) : Bool :=
  hdrname.length == v.valuelen && strncmpEq hdrname v.value v.valuelen

/-- A value, with the header in front of it.  `hdr` is `none` but for the first
value of the interchange, and `check` is what the check for a header reads. -/
def buildValue (params : EdiParams) (buflen : Nat)
    (hdr : Option (Bytes × Bytes)) (check : EdiValue) (value : Bytes)
    (st : BuildState) : Option BuildState :=
  match hdr with
  | none => some (st.escaped buflen value params)
  | some (hdrname, hdrtrail) =>
    if isHeader hdrname check then
      some ({ st with dohdrtrailer := true }.escaped buflen value params)
    else
      let st := st.escaped buflen hdrname params
      if buflen ≤ st.w.pos then some st
      else do
        let st ← st.hdrtrailer buflen hdrtrail params
        if buflen ≤ st.w.pos then return st
        else return st.escaped buflen value params

/-- The loop over the values of a composite. -/
def buildComposite (params : EdiParams) (buflen : Nat)
    (hdr : Option (Bytes × Bytes)) (check : EdiValue) (st : BuildState) :
    List EdiValue → Option BuildState
  | [] => some st
  | v :: vs => do
    let st ← buildValue params buflen hdr check v.value st
    if buflen ≤ st.w.pos then return st
    else
      let st := if vs.isEmpty then st
        else st.separator params.subelementSeparator
      if buflen ≤ st.w.pos then return st
      else buildComposite params buflen none check st vs

/-- The body of the loop over the elements, up to the separator. -/
def buildElement (pun : List EdiValue → EdiValue) (params : EdiParams)
    (buflen : Nat) (hdr : Option (Bytes × Bytes)) (st : BuildState) :
    EdiElement → Option BuildState
  | .simple v => buildValue params buflen hdr v v.value st
  | .composite vs => buildComposite params buflen hdr (pun vs) st vs
  | .untyped => buildComposite params buflen hdr (pun []) st []

/-- The loop over the elements of a segment. -/
def buildElements (pun : List EdiValue → EdiValue) (params : EdiParams)
    (buflen : Nat) (hdr : Option (Bytes × Bytes)) (first : Bool)
    (st : BuildState) : List EdiElement → Option BuildState
  | [] => some st
  | e :: es => do
    let st ← buildElement pun params buflen (if first then hdr else none) st e
    if buflen ≤ st.w.pos then return st
    else
      let st := if es.isEmpty then st
        else st.separator
          (if first then params.tagSeparator else params.elementSeparator)
      if buflen ≤ st.w.pos then return st
      else buildElements pun params buflen hdr false st es

/-- The end of a segment: the trailer of the header, or the segment
separator. -/
def buildTrailer (params : EdiParams) (buflen : Nat)
    (hdr : Option (Bytes × Bytes)) (st : BuildState) : Option BuildState :=
  if st.dohdrtrailer then st.hdrtrailer buflen (hdr.elim [] Prod.snd) params
  else some (st.separator params.segmentSeparator)

/-- The loop over the segments. -/
def buildSegments (pun : List EdiValue → EdiValue) (params : EdiParams)
    (buflen : Nat) (hdr : Option (Bytes × Bytes)) (first : Bool)
    (st : BuildState) : List EdiSegment → Option BuildState
  | [] => some st
  | s :: ss => do
    let st ← buildElements pun params buflen (if first then hdr else none) true
      st s.elements
    if buflen ≤ st.w.pos then return st
    else
      let st ← buildTrailer params buflen hdr st
      if buflen ≤ st.w.pos then return st
      else
        buildSegments pun params buflen hdr false
          { st with dohdrtrailer := false } ss

/-- `edi_interchange_build`: the buffer and the returned count. -/
def ediInterchangeBuild (pun : List EdiValue → EdiValue) (msg : EdiInterchange)
    (params : Option EdiParams) (mem : Nat → UInt8) (buflen : UInt64) :
    Option (Buffer UInt8 × Nat) := do
  let params := params.getD ediDefaultParams
  let st ← buildSegments pun params buflen.toNat (headerOf params) true
    ⟨⟨⟨mem, []⟩, 0⟩, false⟩ msg.segments
  let w := st.w.terminate 0
  return (w.buf, w.pos)

end Libedi
