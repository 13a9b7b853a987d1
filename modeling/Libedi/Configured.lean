import Libedi.ParseErrors

/-!
# The separators of a parser

`edi_parser_create` takes parameters, and `edi_parser_parse` is meant to use
their separators for a message of no known dialect.  But a parser always detects
(`edi__parser_init` sets its `detect`), and `edi_parser_parse` returns a null
pointer if nothing is detected.  So the parameters are never used.
-/

namespace Libedi

/-- A message that no detector matches is split by the separators of the parser,
and any other one by those of its dialect. -/
def UsesConfigured (lib : EdiLib) (oparser : EdiParser) (message : CString) :
    Prop :=
  ((∀ c ∈ candidates lib.detectparams, ¬ c.2.Matches message) →
    (ediParserParse lib oparser message).2
      = some ⟨(segmentLoop oparser message.strlen message.bytes).1⟩) ∧
  ∀ params skip,
    (ediDetect lib.detectparams message).found = some (params, skip) →
    (ediParserParse lib oparser message).2
      = some ⟨(segmentLoop (ediParserInit (some params)) message.strlen
          (message.bytes.drop skip)).1⟩

theorem ediDetect_eq_none_iff (rps : List EdiRegparams) (message : CString) :
    (ediDetect rps message).found = none ↔
      ∀ c ∈ candidates rps, ¬ c.2.Matches message := by
  have heq : (ediDetect rps message).found = (tryParams message rps).found := rfl
  rw [heq]
  cases tryParams_search message rps with
  | miss hfound hno hreads => exact iff_of_true hfound hno
  | hit c hc hmatches hfound hreads hall =>
    refine iff_of_false (by simp [hfound]) fun hno => hno c hc hmatches

/-- A parser with the parameters of the caller does what it is asked for exactly
if the message is of a known dialect. -/
theorem ediParserParse_configured_iff (created lib : EdiLib)
    (params : EdiParams) (message : CString) :
    UsesConfigured lib (ediParserCreate created (some params)).2 message ↔
      ∃ c ∈ candidates lib.detectparams, c.2.Matches message := by
  have hdetect := (ediParserCreate_fields created (some params)).1
  constructor
  · rintro ⟨hconfigured, -⟩
    by_contra hno
    have hnone : ∀ c ∈ candidates lib.detectparams, ¬ c.2.Matches message :=
      fun c hc hmatches => hno ⟨c, hc, hmatches⟩
    have hfound := (ediDetect_eq_none_iff _ message).2 hnone
    have hparse := hconfigured hnone
    rw [ediParserParse, if_pos hdetect, hfound] at hparse
    simp at hparse
  · rintro ⟨c, hc, hmatches⟩
    refine ⟨fun hno => absurd hmatches (hno c hc), fun params skip hfound => ?_⟩
    rw [ediParserParse_detected hdetect hfound]

/-- `XYZ+1'`, with the separators of UN/EDIFACT given. -/
theorem ediParserParse_drops_configured :
    (ediParserParse (ediInit EdiLib.start)
        (ediParserCreate EdiLib.start (some ediEdifactParams)).2
        (.ofBytes (ascii "XYZ+1'") (by decide))).2 = none ∧
    (segmentLoop (ediParserCreate EdiLib.start (some ediEdifactParams)).2 6
        (ascii "XYZ+1'")).1
      = [⟨[.simple (.ofBytes (ascii "XYZ")), .simple (.ofBytes (ascii "1"))],
          some (ascii "XYZ"), 0⟩] ∧
    ¬ UsesConfigured (ediInit EdiLib.start)
      (ediParserCreate EdiLib.start (some ediEdifactParams)).2
      (.ofBytes (ascii "XYZ+1'") (by decide)) := by
  have hparse : (ediParserParse (ediInit EdiLib.start)
      (ediParserCreate EdiLib.start (some ediEdifactParams)).2
      (.ofBytes (ascii "XYZ+1'") (by decide))).2 = none := by
    decide +kernel
  refine ⟨hparse, by decide +kernel, ?_⟩
  rintro ⟨hconfigured, -⟩
  have hfound : (ediDetect (ediInit EdiLib.start).detectparams
      (.ofBytes (ascii "XYZ+1'") (by decide))).found = none := by
    decide +kernel
  have hsome := hconfigured ((ediDetect_eq_none_iff _ _).1 hfound)
  rw [hparse] at hsome
  exact absurd hsome (by simp)

end Libedi
