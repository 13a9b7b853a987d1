import Libedi.Parse
import Libedi.TrailerFormat

/-!
# Values that are written and read again

`addescaped` of `libedi/build.c` and the two loops of `libedi/parse.c` that read a
value: the scan for its end, and `memcpyescape`.  Each of them has a flag of its
own for an escape that is pending.  `addescaped_read_back` says that they agree:
what one writes is where the other stops, and comes out as it went in.

The separators may be any bytes, also the same ones.
-/

namespace Libedi

open BoundedOutput EscapedText

/-- The parser has the separators of these parameters. -/
structure EdiParser.Takes (p : EdiParser) (params : EdiParams) : Prop where
  seg : p.sepSeg = params.segmentSeparator.toNat
  data : p.sepData = params.elementSeparator.toNat
  sub : p.sepSub = params.subelementSeparator.toNat
  tag : p.sepTag = params.tagSeparator.toNat
  escape : p.escape = params.escape.toNat

theorem ediParserInit_takes {params : EdiParams}
    (h : 0x0100 ≤ params.version) :
    (ediParserInit (some params)).Takes params := by
  constructor <;> simp [ediParserInit, h]

/-- The bytes that a function has stored from `pos` on, when it returns the
distance `n` of its cursor. -/
def bytesWritten (mem : Nat → UInt8) (pos n : Nat) : Bytes :=
  (bytesBefore mem (sizeAdd pos n)).drop pos

namespace EdiParser.Takes

variable {p : EdiParser} {params : EdiParams} (h : p.Takes params)
include h

/-- The two tests for the escape are the same test. -/
theorem isEscape_iff (hlt : params.escape.toNat < 128)
    (hne : params.escape ≠ 0) (c : UInt8) :
    p.isEscape c = true ↔ c = params.escape := by
  have hzero : params.escape.toNat ≠ 0 := fun h0 =>
    hne (UInt8.toNat_inj.1 h0)
  simp [EdiParser.isEscape, h.escape, charVal_eq_iff, hlt, hzero]

/-- Whatever may end a value gets an escape. -/
theorem isSpecial_of_stops (hne : params.escape ≠ 0) {first : Bool} {c : UInt8}
    (hc : p.stops first c = true) : isSpecial params c = true := by
  simp only [EdiParser.stops, EdiParser.isSub, EdiParser.isData,
    EdiParser.isTag, EdiParser.isSeg, h.sub, h.data, h.tag, h.seg,
    Bool.or_eq_true, Bool.and_eq_true] at hc
  simp only [isSpecial, Bool.and_eq_true, Bool.or_eq_true]
  refine ⟨?_, by simpa using hne⟩
  rcases hc with ((hc | ⟨-, hc⟩) | ⟨-, hc⟩) | hc <;> simp [hc]

/-- So does the escape itself. -/
theorem isSpecial_of_isEscape (hne : params.escape ≠ 0) {c : UInt8}
    (hc : p.isEscape c = true) : isSpecial params c = true := by
  simp only [EdiParser.isEscape, h.escape, Bool.and_eq_true] at hc
  simp only [isSpecial, Bool.and_eq_true, Bool.or_eq_true]
  exact ⟨Or.inr hc.2, by simpa using hne⟩

/-- An escaped value has nothing in it that ends a value. -/
theorem unbroken_escapeBytes (hlt : params.escape.toNat < 128)
    (hne : params.escape ≠ 0) (first : Bool) (value : Bytes) :
    Unbroken p.isEscape (p.stops first) false (escapeBytes params value) := by
  refine unbroken_escape ?_ ?_ ?_ value
  · exact (h.isEscape_iff hlt hne _).2 rfl
  · exact fun c hc => h.isSpecial_of_isEscape hne hc
  · exact fun c hc => h.isSpecial_of_stops hne hc

end EdiParser.Takes

/-- With enough room `addescaped` writes all of the escaped value. -/
theorem addescaped_writes (params : EdiParams) (mem : Nat → UInt8) {pos : Nat}
    {buflen : UInt64} {value : Bytes}
    (hroom : pos + (escapeBytes params value).length ≤ buflen.toNat) :
    ∃ buf n, addescaped ⟨⟨mem, []⟩, pos⟩ buflen.toNat value params = (buf, n) ∧
      bytesWritten buf.mem pos n = escapeBytes params value := by
  have hstart := at_bytesBefore mem
    (Nat.le_of_add_right_le hroom : pos ≤ buflen.toNat)
  have hat := (addescapedLoop_at params hstart value).terminate 0
  have hall : runTo buflen.toNat (puts (escapeBytes params value))
      (bytesBefore mem pos)
        = bytesBefore mem pos ++ escapeBytes params value := by
    rw [runTo_puts, List.take_of_length_le]
    rw [bytesBefore_length]
    omega
  rw [hall] at hat
  refine ⟨_, _, rfl, ?_⟩
  rw [bytesWritten, caller_cursor buflen.toNat_lt hstart hat,
    bytesBefore_of_at hat]
  exact List.drop_left' (bytesBefore_length mem pos)

/-- What `addescaped` writes for a value is read as that value, up to the end of
the text or to the first separator behind it. -/
theorem addescaped_read_back {params : EdiParams} {p : EdiParser}
    (hp : p.Takes params) (hlt : params.escape.toNat < 128)
    (hne : params.escape ≠ 0) (mem : Nat → UInt8) {pos : Nat} {buflen : UInt64}
    {value : Bytes}
    (hroom : pos + (escapeBytes params value).length ≤ buflen.toNat) :
    ∃ buf n, addescaped ⟨⟨mem, []⟩, pos⟩ buflen.toNat value params = (buf, n) ∧
      memcpyescape p false (bytesWritten buf.mem pos n) = value ∧
      ∀ first,
        scanValue p first false (bytesWritten buf.mem pos n)
          = (bytesWritten buf.mem pos n, []) ∧
        ∀ d rest, p.stops first d = true → d ≠ params.escape →
          scanValue p first false (bytesWritten buf.mem pos n ++ d :: rest)
            = (bytesWritten buf.mem pos n, d :: rest) := by
  obtain ⟨buf, n, hresult, hwritten⟩ := addescaped_writes params mem hroom
  refine ⟨buf, n, hresult, ?_, fun first => ?_⟩
  · rw [hwritten, memcpyescape_eq_unescape, escapeBytes]
    refine unescape_escape ?_ (fun c hc => hp.isSpecial_of_isEscape hne hc) value
    exact (hp.isEscape_iff hlt hne _).2 rfl
  · have hunbroken := hp.unbroken_escapeBytes hlt hne first value
    rw [hwritten]
    refine ⟨?_, fun d rest hstop hd => ?_⟩
    · rw [scanValue_eq_scan, hunbroken.scan_eq]
    · have hesc : p.isEscape d = false := by
        rw [← Bool.not_eq_true, hp.isEscape_iff hlt hne]
        exact hd
      rw [scanValue_eq_scan, scan_append_stop hunbroken hstop hesc]

/-- A value with a separator in it and an escape at its end. -/
theorem addescaped_read_back_default :
    ∃ buf n, addescaped ⟨⟨fun _ => 0, []⟩, 3⟩ (100 : UInt64).toNat
        (ascii "a+b?") ediDefaultParams = (buf, n) ∧
      memcpyescape (ediParserInit (some ediDefaultParams)) false
        (bytesWritten buf.mem 3 n) = ascii "a+b?" := by
  have hroom : 3 + (escapeBytes ediDefaultParams (ascii "a+b?")).length
      ≤ (100 : UInt64).toNat := by decide +kernel
  obtain ⟨buf, n, hresult, hvalue, -⟩ :=
    addescaped_read_back (ediParserInit_takes (by decide)) (by decide)
      (by decide) (fun _ => 0) hroom
  exact ⟨buf, n, hresult, hvalue⟩

end Libedi
