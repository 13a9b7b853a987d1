import Libedi.Data

/-!
# The registry of dialects and the detection

`libedi/detect.c` and `libedi/init.c`.  The library state is the array
`detectparams` and the flag `edi__init_complete`.  A record of the array is
named by its index, where the C code passes the pointer.

Allocations succeed here, and the parameters that a caller registers are passed
by value.  The mutexes are left out: each function runs on its own.

`ediDetect` also returns the indices of the message that it reads, in the order
it reads them, because it follows the separator positions of a detector without
a look at the length of the message.
-/

namespace Libedi

/-! ## Registration -/

/-- `edi__detect_params_copy`. -/
def ediDetectParamsCopy (dest src : EdiParams) : EdiParams :=
  let dest := { dest with
    version := ediVersion
    segmentSeparator := '\''.toUInt8
    elementSeparator := '+'.toUInt8
    subelementSeparator := ':'.toUInt8
    tagSeparator := '+'.toUInt8
    escape := '?'.toUInt8 }
  let dest := if 0x0100 ≤ src.version then { dest with
    segmentSeparator := src.segmentSeparator
    elementSeparator := src.elementSeparator
    subelementSeparator := src.subelementSeparator
    tagSeparator := src.tagSeparator
    escape := src.escape } else dest
  let dest := if 0x0102 ≤ src.version then { dest with
    xmlRootNode := src.xmlRootNode.or dest.xmlRootNode
    containers := src.containers.or dest.containers } else dest
  if 0x0103 ≤ src.version then { dest with
    ssName := src.ssName.or dest.ssName
    ssTrailer := src.ssTrailer.or dest.ssTrailer } else dest

/-- A zeroed `edi_params_t`. -/
def zeroParams : EdiParams := ⟨0, 0, 0, 0, 0, 0, none, none, none, none⟩

/-- `edi__detect_rp_init`.  The `memset` takes the old record with it, its name
included, so only the parameters say what the record holds afterwards. -/
def ediDetectRpInit (_dest : EdiRegparams) (params : EdiParams) :
    EdiRegparams where
  name := []
  params := ediDetectParamsCopy { zeroParams with version := ediVersion } params
  nalloc := 2
  detectors := []

/-- `edi__detect_rp_cleanup`. -/
def ediDetectRpCleanup (rp : EdiRegparams) : EdiRegparams :=
  { rp with
    detectors := rp.detectors.map fun d => { d with detectstr := none }
    params := { rp.params with xmlRootNode := none, containers := none } }

/-- A zeroed `edi_regparams_t`, as `calloc` returns it. -/
def zeroRegparams : EdiRegparams := ⟨[], zeroParams, 0, []⟩

/-- The test of the search loop in `edi__detect_register_params`: a record
without a name matches nothing. -/
def hasName (tbuf : Bytes) (rp : EdiRegparams) : Bool :=
  rp.name != [] && rp.name == tbuf

/-- The append path of `edi__detect_register_params`. -/
def appendParams (detectparams : List EdiRegparams) (tbuf : Option Bytes)
    (params : EdiParams) : List EdiRegparams × Nat :=
  let p := ediDetectRpInit zeroRegparams params
  let p := match tbuf with
    | some t => { p with name := t }
    | none => p
  (detectparams ++ [p], detectparams.length)

/-- `edi__detect_register_params`.  `strncpy` and the NUL at `tbuf[31]` keep 31
bytes of the name. -/
def ediDetectRegisterParams (detectparams : List EdiRegparams)
    (name : Option Bytes) (params : EdiParams) : List EdiRegparams × Nat :=
  match name.map (·.take 31) with
  | none => appendParams detectparams none params
  | some tbuf =>
    match detectparams.findIdx? (hasName tbuf) with
    | some c =>
      (detectparams.modify c fun rp =>
        ediDetectRpInit (ediDetectRpCleanup rp) params, c)
    | none => appendParams detectparams (some tbuf) params

/-- `edi__detect_register`. -/
def ediDetectRegister (rp : EdiRegparams) (detector : EdiDetector) :
    EdiRegparams :=
  { rp with
    nalloc := if rp.detectors.length + 1 > rp.nalloc
      then rp.detectors.length + 1 else rp.nalloc
    detectors := rp.detectors ++ [detector] }

/-- `edi__detect_regset`.  The table of detectors ends at the first row without
a `detectstr`. -/
def ediDetectRegset (detectparams : List EdiRegparams) (name : Bytes)
    (src : EdiParams) (detectors : List EdiDetector) : List EdiRegparams :=
  let r := ediDetectRegisterParams detectparams (some name) src
  r.1.modify r.2 fun rp =>
    (detectors.takeWhile (·.detectstr.isSome)).foldl ediDetectRegister rp

/-- The state of the library. -/
structure EdiLib where
  initComplete : Bool
  detectparams : List EdiRegparams
  deriving DecidableEq, Repr

/-- The state of the library when the process starts. -/
def EdiLib.start : EdiLib := ⟨false, []⟩

/-- `edi__detect_init`. -/
def ediDetectInit (detectparams : List EdiRegparams) : List EdiRegparams :=
  let ps := ediDetectRegset detectparams (ascii "UN/EDIFACT")
    ediEdifactParams ediEdifactDetectors
  let ps := ediDetectRegset ps (ascii "TRADACOMS")
    ediTradacomsParams ediTradacomsDetectors
  ediDetectRegset ps (ascii "ANSI X12") ediX12Params ediX12Detectors

/-- `edi__init`. -/
def ediInit (lib : EdiLib) : EdiLib where
  initComplete := true
  detectparams := if lib.initComplete then lib.detectparams
    else ediDetectInit lib.detectparams

/-- `edi_params_register`. -/
def ediParamsRegister (lib : EdiLib) (name : Option Bytes)
    (params : EdiParams) : EdiLib × Nat :=
  let lib := ediInit lib
  let r := ediDetectRegisterParams lib.detectparams name params
  ({ lib with detectparams := r.1 }, r.2)

/-- `edi_detect_get`. -/
def ediDetectGet (lib : EdiLib) (name : Bytes) : EdiLib × Option EdiRegparams :=
  let lib := ediInit lib
  (lib, lib.detectparams.find? (hasName name))

/-- `edi_detect_get_params`. -/
def ediDetectGetParams (lib : EdiLib) (name : Bytes) :
    EdiLib × Option EdiParams :=
  let r := ediDetectGet lib name
  (r.1, r.2.map (·.params))

/-! ## Detection -/

/-- The bytes of the message that `strncmp(s, message, strlen(s))` looks at. -/
def strncmpReads : Bytes → Bytes → Nat
  | [], _ => 0
  | _ :: _, [] => 1
  | a :: as, b :: bs => if a = b then strncmpReads as bs + 1 else 1

/-- A separator of a detected message: the byte at the detector's position, or
the default where the position is `0`. -/
def detectedByte (message : CString) (d : EdiDetector) (pos : Nat)
    (dflt : UInt8) : UInt8 :=
  if pos = 0 then dflt else message.get (d.position + pos)

/-- The parameters that `edi__detect` fills in for a match.  It leaves the
pointers of the caller's `params` alone, and no caller reads them. -/
def detectedParams (message : CString) (p : EdiParams) (d : EdiDetector) :
    EdiParams where
  version := ediVersion
  segmentSeparator := detectedByte message d d.segmentSeparatorPos
    p.segmentSeparator
  elementSeparator := detectedByte message d d.elementSeparatorPos
    p.elementSeparator
  subelementSeparator := detectedByte message d d.subelementSeparatorPos
    p.subelementSeparator
  tagSeparator := detectedByte message d d.tagSeparatorPos p.tagSeparator
  escape := detectedByte message d d.escapePos p.escape
  xmlRootNode := none
  containers := none
  ssName := none
  ssTrailer := none

/-- The indices that `detectedParams` reads. -/
def detectedReads (d : EdiDetector) : List Nat :=
  ([d.segmentSeparatorPos, d.elementSeparatorPos, d.subelementSeparatorPos,
    d.tagSeparatorPos, d.escapePos].filter (· != 0)).map (d.position + ·)

/-- What `edi__detect` finds and reads: the parameters and the bytes to skip,
if a detector matches, and the indices of `message` it has looked at. -/
structure Detection where
  found : Option (EdiParams × Nat)
  reads : List Nat

/-- The inner loop of `edi__detect`, over the detectors of one record. -/
def tryDetectors (message : CString) (p : EdiParams) :
    List EdiDetector → Detection
  | [] => ⟨none, []⟩
  | d :: ds =>
    match d.detectstr with
    | none => tryDetectors message p ds
    | some s =>
      if message.strlen < d.position ∨
          message.strlen < d.position + s.length ∨
          message.strlen < d.skipbytes then
        tryDetectors message p ds
      else
        let compared := List.range (strncmpReads s message.bytes)
        if strncmpEq s message.bytes s.length then
          ⟨some (detectedParams message p d, d.skipbytes),
            compared ++ detectedReads d⟩
        else
          let rest := tryDetectors message p ds
          ⟨rest.found, compared ++ rest.reads⟩

/-- The outer loop of `edi__detect`, over the records. -/
def tryParams (message : CString) : List EdiRegparams → Detection
  | [] => ⟨none, []⟩
  | rp :: rps =>
    let r := tryDetectors message rp.params rp.detectors
    match r.found with
    | some _ => r
    | none =>
      let rest := tryParams message rps
      ⟨rest.found, r.reads ++ rest.reads⟩

/-- `edi__detect`.  The first read is that of `strlen`, which ends at the
NUL. -/
def ediDetect (detectparams : List EdiRegparams) (message : CString) :
    Detection :=
  let r := tryParams message detectparams
  ⟨r.found, message.strlen :: r.reads⟩

/-! ## The library after `edi__init` -/

/-- The record of a preset. -/
def presetRecord (name : Bytes) (params : EdiParams)
    (detectors : List EdiDetector) : EdiRegparams :=
  ⟨name, params, 2, detectors⟩

/-- The detector of UN/EDIFACT with a header. -/
def unaDetector : EdiDetector := ⟨some (ascii "UNA"), 0, 9, 8, 4, 3, 4, 6⟩

/-- The detector of UN/EDIFACT without a header. -/
def unbDetector : EdiDetector := ⟨some (ascii "UNB"), 0, 0, 0, 0, 0, 0, 0⟩

/-- The detector of TRADACOMS. -/
def stxDetector : EdiDetector := ⟨some (ascii "STX"), 0, 0, 0, 0, 0, 0, 0⟩

/-- The detector of X12. -/
def isaDetector : EdiDetector := ⟨some (ascii "ISA"), 0, 0, 105, 6, 104, 3, 0⟩

/-- The records that `edi__init` registers. -/
def presetRecords : List EdiRegparams :=
  [presetRecord (ascii "UN/EDIFACT") ediEdifactParams [unaDetector, unbDetector],
   presetRecord (ascii "TRADACOMS") ediTradacomsParams [stxDetector],
   presetRecord (ascii "ANSI X12") ediX12Params [isaDetector]]

/-- `edi__init` registers the three presets with their detectors. -/
theorem ediInit_start :
    ediInit EdiLib.start = ⟨true, presetRecords⟩ := by
  decide

@[simp] theorem ediInit_of_complete {lib : EdiLib}
    (h : lib.initComplete = true) : ediInit lib = lib := by
  cases lib
  simp_all [ediInit]

end Libedi
