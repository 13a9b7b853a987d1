import Mathlib.Data.List.Basic

/-!
# The data of libedi

The types of `include/libedi.h` and `libedi/p_libedi.h`, and the presets of
`libedi/edifact.h`, `libedi/tradacoms.h` and `libedi/x12.h`.

A C string is the list of the bytes in front of its NUL.  Where a function can
read past that NUL, as `edi__detect` does, the string is a `CString`, which
also says what the memory behind the NUL holds.

Plain `char` is a signed 8-bit type, as on the x86 targets.  The parser keeps
its separators as `int`, and `edi_params_t` keeps them as `unsigned char`, so a
byte of a message is compared through `charVal`.

Fields that none of the modelled functions reads are left out: `root` of
`edi_parser_t`, `interchange` of `edi_segment_t` (the segment is reached from
its interchange here), and the `segment` pointer of a parsed element.
-/

namespace Libedi

/-- A byte string. -/
abbrev Bytes := List UInt8

/-- The bytes of an ASCII literal. -/
def ascii (s : String) : Bytes := s.toList.map Char.toUInt8

/-- A condition on the items of a closed list, item by item. -/
theorem forall_mem_of_all {α : Type*} {l : List α} {P : α → Prop}
    [DecidablePred P] (h : (l.all fun a => decide (P a)) = true) :
    ∀ a ∈ l, P a := by
  simpa using h

/-- A byte as a plain `char` promoted to `int`. -/
def charVal (c : UInt8) : Int :=
  if c.toNat < 128 then c.toNat else (c.toNat : Int) - 256

/-- A `char` equals an `unsigned char` only below 128. -/
theorem charVal_eq_iff (c x : UInt8) :
    charVal c = (x.toNat : Int) ↔ c = x ∧ x.toNat < 128 := by
  have hc := c.toNat_lt
  have hx := x.toNat_lt
  unfold charVal
  constructor
  · intro h
    split at h
    · have hcx : c.toNat = x.toNat := by omega
      exact ⟨UInt8.toNat_inj.1 hcx, by omega⟩
    · omega
  · rintro ⟨rfl, hlt⟩
    rw [if_pos hlt]

@[simp] theorem charVal_eq_zero (c : UInt8) : charVal c = 0 ↔ c = 0 := by
  have h := charVal_eq_iff c 0
  simpa using h

/-! ## Strings -/

/-- A NUL-terminated string in memory. -/
structure CString where
  /-- The bytes in front of the NUL. -/
  bytes : Bytes
  /-- None of them is a NUL. -/
  nulFree : (0 : UInt8) ∉ bytes
  /-- The memory behind the NUL, by index from the start of the string. -/
  beyond : Nat → UInt8

/-- `strlen`. -/
def CString.strlen (s : CString) : Nat := s.bytes.length

/-- `s[k]`, for an index that may lie behind the NUL. -/
def CString.get (s : CString) (k : Nat) : UInt8 :=
  if k < s.strlen then s.bytes.getD k 0
  else if k = s.strlen then 0 else s.beyond k

theorem CString.get_of_lt {s : CString} {k : Nat} (h : k < s.strlen) :
    s.get k = s.bytes.getD k 0 := by
  rw [CString.get, if_pos h]

@[simp] theorem CString.get_strlen (s : CString) : s.get s.strlen = 0 := by
  rw [CString.get, if_neg (Nat.lt_irrefl _), if_pos rfl]

theorem CString.get_of_gt {s : CString} {k : Nat} (h : s.strlen < k) :
    s.get k = s.beyond k := by
  rw [CString.get, if_neg (by omega), if_neg (by omega)]

/-- The string made of `bytes`, with NULs behind it. -/
def CString.ofBytes (bytes : Bytes) (h : (0 : UInt8) ∉ bytes) : CString :=
  ⟨bytes, h, fun _ => 0⟩

/-- `0 == strncmp(a, b, n)`. -/
def strncmpEq (a b : Bytes) (n : Nat) : Bool := a.take n == b.take n

/-! ## Parameters and parsers -/

/-- `EDI_VERSION`. -/
def ediVersion : Int := 0x0103

/-- The `EDI_ERR_` codes. -/
inductive EdiErr where
  | none
  | system
  | unterminated
  | empty
  deriving DecidableEq, Repr

/-- `edi_params_t`. -/
structure EdiParams where
  version : Int
  segmentSeparator : UInt8
  elementSeparator : UInt8
  subelementSeparator : UInt8
  tagSeparator : UInt8
  escape : UInt8
  xmlRootNode : Option Bytes
  containers : Option Bytes
  ssName : Option Bytes
  ssTrailer : Option Bytes
  deriving DecidableEq, Repr

/-- `edi_parser_t`. -/
structure EdiParser where
  error : EdiErr
  sepSeg : Int
  sepData : Int
  sepSub : Int
  sepTag : Int
  escape : Int
  detect : Int
  deriving DecidableEq, Repr

/-- `edi_detector_t`.  The separator positions are relative to `position`, and
`0` asks for the default. -/
structure EdiDetector where
  detectstr : Option Bytes
  position : Nat
  skipbytes : Nat
  segmentSeparatorPos : Nat
  elementSeparatorPos : Nat
  subelementSeparatorPos : Nat
  tagSeparatorPos : Nat
  escapePos : Nat
  deriving DecidableEq, Repr

/-- `edi_regparams_t`.  `detectors` holds the `ndetectors` registered
detectors, `nalloc` is the number of allocated slots. -/
structure EdiRegparams where
  name : Bytes
  params : EdiParams
  nalloc : Nat
  detectors : List EdiDetector
  deriving DecidableEq, Repr

/-! ## Interchanges -/

/-- A value of an element: the string that `value` points to, and
`valuelen`. -/
structure EdiValue where
  value : Bytes
  valuelen : Nat
  deriving DecidableEq, Repr

/-- The value that holds `v` and its length. -/
def EdiValue.ofBytes (v : Bytes) : EdiValue := ⟨v, v.length⟩

@[simp] theorem EdiValue.ofBytes_value (v : Bytes) :
    (EdiValue.ofBytes v).value = v := rfl

@[simp] theorem EdiValue.ofBytes_inj {v w : Bytes} :
    EdiValue.ofBytes v = EdiValue.ofBytes w ↔ v = w := by
  constructor
  · intro h
    simpa using congrArg EdiValue.value h
  · rintro rfl
    rfl

/-- `edi_element_t`.  `untyped` is the element that `memset` has zeroed, whose
`type` is still `0`. -/
inductive EdiElement where
  | untyped
  | simple (v : EdiValue)
  | composite (vs : List EdiValue)
  deriving DecidableEq, Repr

/-- The values of an element, in order. -/
def EdiElement.values : EdiElement → List EdiValue
  | .untyped => []
  | .simple v => [v]
  | .composite vs => vs

/-- `edi_segment_t`.  `tag` is the string that the `tag` pointer leads to,
`none` for `NULL`. -/
@[ext]
structure EdiSegment where
  elements : List EdiElement
  tag : Option Bytes
  offset : Nat
  deriving DecidableEq, Repr

/-- `edi_interchange_t`. -/
structure EdiInterchange where
  segments : List EdiSegment
  deriving DecidableEq, Repr

/-! ## Presets -/

/-- `edi_edifact_params`. -/
def ediEdifactParams : EdiParams where
  version := ediVersion
  segmentSeparator := '\''.toUInt8
  elementSeparator := '+'.toUInt8
  subelementSeparator := ':'.toUInt8
  tagSeparator := '+'.toUInt8
  escape := '?'.toUInt8
  xmlRootNode := some (ascii "EDIFACT")
  containers := some (ascii "UNB/UNZ,UNG/UNE,UNH/UNT")
  ssName := some (ascii "UNA")
  ssTrailer := some (ascii "%s%E.%R %S")

/-- `edi__default_params`: the preset of UN/EDIFACT without a header. -/
def ediDefaultParams : EdiParams where
  version := ediVersion
  segmentSeparator := '\''.toUInt8
  elementSeparator := '+'.toUInt8
  subelementSeparator := ':'.toUInt8
  tagSeparator := '+'.toUInt8
  escape := '?'.toUInt8
  xmlRootNode := some (ascii "EDIFACT")
  containers := some (ascii "UNB/UNZ,UNG/UNE,UNH/UNT")
  ssName := none
  ssTrailer := none

/-- `edi__tradacoms_params`. -/
def ediTradacomsParams : EdiParams where
  version := ediVersion
  segmentSeparator := '\''.toUInt8
  elementSeparator := '+'.toUInt8
  subelementSeparator := ':'.toUInt8
  tagSeparator := '='.toUInt8
  escape := '?'.toUInt8
  xmlRootNode := some (ascii "TRADACOMS")
  containers := some (ascii "STX/END,MHD/MTR")
  ssName := none
  ssTrailer := none

/-- `edi__x12_params`. -/
def ediX12Params : EdiParams where
  version := ediVersion
  segmentSeparator := '~'.toUInt8
  elementSeparator := ':'.toUInt8
  subelementSeparator := '*'.toUInt8
  tagSeparator := ':'.toUInt8
  escape := 0
  xmlRootNode := some (ascii "X12")
  containers := some (ascii "ISA/IEA,GS/GE,ST/SE")
  ssName := some (ascii "ISA")
  ssTrailer := some (ascii "%_%E%s%S")

/-- `edi__edifact_detectors`. -/
def ediEdifactDetectors : List EdiDetector :=
  [⟨some (ascii "UNA"), 0, 9, 8, 4, 3, 4, 6⟩,
   ⟨some (ascii "UNB"), 0, 0, 0, 0, 0, 0, 0⟩,
   ⟨none, 0, 0, 0, 0, 0, 0, 0⟩]

/-- `edi__tradacoms_detectors`. -/
def ediTradacomsDetectors : List EdiDetector :=
  [⟨some (ascii "STX"), 0, 0, 0, 0, 0, 0, 0⟩,
   ⟨none, 0, 0, 0, 0, 0, 0, 0⟩]

/-- `edi__x12_detectors`. -/
def ediX12Detectors : List EdiDetector :=
  [⟨some (ascii "ISA"), 0, 0, 105, 6, 104, 3, 0⟩,
   ⟨none, 0, 0, 0, 0, 0, 0, 0⟩]

end Libedi
