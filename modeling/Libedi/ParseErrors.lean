import Libedi.Dialects

/-!
# What the caller sees of an error

`edi_parser_parse` leaves its error in the parser that has run, and this is the
temporary `staticparser` whenever a dialect was detected.  A parser of
`edi_parser_create` always detects, so no parse ever writes to it
(`ediParserParse_fst`), and `edi_parser_error` keeps reporting the
`EDI_ERR_NONE` that the parser was created with.

`dueError_eq_ediParserError_iff` says for which messages this is the right
answer, for every history of the parser.
-/

namespace Libedi

/-- The message behind its recognised header, `none` if it is in no known
dialect. -/
def behindHeader (lib : EdiLib) (message : CString) : Option Bytes :=
  (ediDetect lib.detectparams message).found.map fun r =>
    message.bytes.drop r.2

/-- The error that a parse of the message is due to report, `none` if it returns
no interchange. -/
def dueError (lib : EdiLib) (message : CString) : Option EdiErr :=
  (behindHeader lib message).map fun m =>
    if m = [] then .empty
    else if endsOpen (messageSegments lib message).2 then .unterminated
    else .none

/-- A parser that is used for one message after the other, with whatever the
library holds at the time. -/
def parserAfter (p : EdiParser) (history : List (EdiLib × CString)) :
    EdiParser :=
  history.foldl (fun p x => (ediParserParse x.1 p x.2).1) p

/-- An interchange is returned exactly if there is an error to report. -/
theorem ediParserParse_isSome_iff {oparser : EdiParser}
    (h : oparser.detect = 1) (lib : EdiLib) (message : CString) :
    (ediParserParse lib oparser message).2.isSome
      = (dueError lib message).isSome := by
  rw [ediParserParse, if_pos h, dueError, behindHeader, Option.isSome_map,
    Option.isSome_map]
  cases hfound : (ediDetect lib.detectparams message).found with
  | none => rfl
  | some r =>
    obtain ⟨params, skip⟩ := r
    have hversion := ediDetect_version hfound
    simp only [if_pos hversion]
    rfl

/-- The parser that runs ends up with the error that is due. -/
theorem parseBody_error {lib : EdiLib} {message : CString} {params : EdiParams}
    {skip : Nat}
    (h : (ediDetect lib.detectparams message).found = some (params, skip)) :
    dueError lib message = some (parseBody (ediParserInit (some params))
      message.strlen (message.bytes.drop skip)).1.error := by
  have hsegments : (messageSegments lib message).2
      = rawSegments (ediParserInit (some params)) message.strlen
        (message.bytes.drop skip) := by
    unfold messageSegments
    rw [h]
  rw [parseBody, dueError, behindHeader, h, hsegments, segmentLoop_eq]
  simp only [Option.map_some]
  cases message.bytes.drop skip <;> rfl

/-- A parser that detects is never written to. -/
theorem ediParserParse_fst {oparser : EdiParser} (h : oparser.detect = 1)
    (lib : EdiLib) (message : CString) :
    (ediParserParse lib oparser message).1 = oparser := by
  rw [ediParserParse, if_pos h]
  cases hfound : (ediDetect lib.detectparams message).found with
  | none => rfl
  | some r =>
    obtain ⟨params, skip⟩ := r
    have hversion := ediDetect_version hfound
    simp only [if_pos hversion]

theorem parserAfter_eq {p : EdiParser} (h : p.detect = 1)
    (history : List (EdiLib × CString)) : parserAfter p history = p := by
  induction history with
  | nil => rfl
  | cons x history ih =>
    have hx := ediParserParse_fst h x.1 x.2
    rw [parserAfter, List.foldl_cons, hx]
    exact ih

/-- Parameters set the separators of a parser and nothing else. -/
theorem ediParserCreate_fields (lib : EdiLib) (params : Option EdiParams) :
    (ediParserCreate lib params).2.detect = 1 ∧
      (ediParserCreate lib params).2.error = .none := by
  cases params with
  | none => exact ⟨rfl, rfl⟩
  | some params =>
    simp only [ediParserCreate, ediParserInit]
    split <;> exact ⟨rfl, rfl⟩

/-- Whatever was parsed, a created parser reports no error. -/
theorem ediParserError_eq_none (created : EdiLib) (params : Option EdiParams)
    (history : List (EdiLib × CString)) (lib : EdiLib) (message : CString) :
    ediParserError (ediParserParse lib
      (parserAfter (ediParserCreate created params).2 history) message).1
      = .none := by
  obtain ⟨hdetect, herror⟩ := ediParserCreate_fields created params
  rw [parserAfter_eq hdetect, ediParserParse_fst hdetect, ediParserError]
  exact herror

/-- No error is due for a message that goes on behind its header and whose
last segment is closed. -/
theorem dueError_eq_none_iff (lib : EdiLib) (message : CString) :
    dueError lib message = some .none ↔
      (∃ m, behindHeader lib message = some m ∧ m ≠ []) ∧
        endsOpen (messageSegments lib message).2 = false := by
  unfold dueError
  cases hbehind : behindHeader lib message with
  | none => simp
  | some m =>
    cases hopen : endsOpen (messageSegments lib message).2 <;>
      by_cases hempty : m = [] <;> simp [hempty]

/-- The caller is told the error of a parsed message exactly if there is none:
something follows the recognised header, and the segment separator closes the
last segment. -/
theorem dueError_eq_ediParserError_iff (created : EdiLib)
    (params : Option EdiParams) (history : List (EdiLib × CString))
    (lib : EdiLib) (message : CString) :
    dueError lib message = some (ediParserError (ediParserParse lib
        (parserAfter (ediParserCreate created params).2 history) message).1)
      ↔ (∃ m, behindHeader lib message = some m ∧ m ≠ []) ∧
        endsOpen (messageSegments lib message).2 = false := by
  rw [ediParserError_eq_none, dueError_eq_none_iff]

/-- A message that ends in the middle of a segment. -/
def openMessage : CString := .ofBytes (ascii "UNB+1") (by decide)

/-- `UNB+1` is parsed, and its missing end is not reported. -/
theorem ediParserError_misses_unterminated :
    (ediParserParse (ediInit EdiLib.start)
        (ediParserCreate EdiLib.start none).2 openMessage).2.isSome ∧
      dueError (ediInit EdiLib.start) openMessage = some .unterminated ∧
      ediParserError (ediParserParse (ediInit EdiLib.start)
        (ediParserCreate EdiLib.start none).2 openMessage).1
        ≠ .unterminated := by
  decide +kernel

end Libedi
