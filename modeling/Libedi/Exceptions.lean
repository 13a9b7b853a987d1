import Libedi.ConvertSteps
import Libedi.Outcomes

/-!
# Exceptions

`throw_exception` wants that no text is pending, and `edi2xml_error` that one is.
A text becomes pending when `iconv` refuses a string of a message, and only then.
So the calls go well exactly as long as such failures and calls of
`edi2xml_error` take turns (`edi2xml_keepsRules_iff`).
-/

namespace Libedi

/-! ## Calls -/

/-- A conversion whose charset is known, and which reaches a string that `iconv`
refuses. -/
def CharsetFailure {σ : Type} (lib : Iconv σ) (heap : Realloc)
    (opts : Edi2xmlConfig) (all : EdistructAll) (edi : EdiLib) : UserCall → Prop
  | .conv2 ediText (some enc) => ∃ cd, lib.iconvOpen enc = some cd ∧
    ∃ msg offset, messageOutcome lib heap opts all (.opened cd)
      (.buffer [encodingLine.text]) edi ediText = some (.refused msg offset)
  | _ => False

section Calls

variable {σ : Type} (lib : Iconv σ) (heap : Realloc)

/-- No descriptor is open, as between two calls. -/
def Idle (g : Globals σ) : Prop := ∀ cd, g.conv ≠ .opened cd

/-- How a conversion ends that is called when no descriptor is open. -/
inductive ConversionEnds (opts : Edi2xmlConfig) (all : EdistructAll)
    (g : Globals σ) (c : UserCall) : Exit σ Bool → Prop
  /-- `iconv` refuses a string, and its text is kept. -/
  | failed (h : Globals σ)
      (hfailure : CharsetFailure lib heap opts all g.edi c)
      (hnone : g.excpText = none) (hedi : h.edi = ediInit g.edi)
      (htext : h.excpText ≠ none) (hidle : Idle h) :
      ConversionEnds opts all g c (.returns h true)
  /-- `iconv` refuses a string, and that is to be written as a comment. -/
  | commented (hfailure : CharsetFailure lib heap opts all g.edi c)
      (hcomments : opts.commentsErrors = true) (hnone : g.excpText = none) :
      ConversionEnds opts all g c (.crashed .format)
  /-- `iconv` refuses a string, and there is a text already. -/
  | pending (hfailure : CharsetFailure lib heap opts all g.edi c)
      (htext : g.excpText ≠ none) :
      ConversionEnds opts all g c (.crashed .pending)
  /-- Nothing is refused. -/
  | returned (h : Globals σ) (failed : Bool)
      (hno : ¬ CharsetFailure lib heap opts all g.edi c)
      (hedi : h.edi = ediInit g.edi) (htext : h.excpText = g.excpText)
      (hidle : Idle h) : ConversionEnds opts all g c (.returns h failed)
  /-- It goes astray in another way. -/
  | astray (crash : Crash)
      (hno : ¬ CharsetFailure lib heap opts all g.edi c)
      (hcrash : crash ≠ .pending ∧ crash ≠ .noText) :
      ConversionEnds opts all g c (.crashed crash)

variable (opts : Edi2xmlConfig) (all : EdistructAll)

theorem UserCall.conv_ends {g : Globals σ} (hidle : Idle g) (ediText : CString) :
    ConversionEnds lib heap opts all g (.conv ediText)
      (UserCall.run lib heap opts all g (.conv ediText)) := by
  have hno : ¬ CharsetFailure lib heap opts all g.edi (.conv ediText) := id
  have hreturns := returns_edi2xmlConv lib heap opts all g ediText
  rw [UserCall.run]
  unfold messageOutcome at hreturns
  cases hparse : (ediParserParse (ediInit g.edi) (ediParserCreate g.edi none).2
      ediText).2 with
  | none =>
    rw [hparse] at hreturns
    rw [hreturns]
    exact .returned _ _ hno rfl rfl hidle
  | some ichg =>
    rw [hparse, Option.map_some] at hreturns
    rcases @segmentsOutcome_idle σ lib heap opts all _ hidle g.outbuf 0
        ichg.segments with
      hout | ⟨out, offset, hout⟩
    · rw [hout] at hreturns
      obtain ⟨c, hcrash, hc⟩ := hreturns
      rw [hcrash]
      exact .astray c hno hc
    · rw [hout] at hreturns
      obtain ⟨conv, hreturns, hconv⟩ := hreturns
      rw [hreturns]
      refine .returned _ _ hno rfl rfl ?_
      rw [hconv hidle]
      exact hidle

/-- The end of `edi2xml_conv2`. -/
theorem takeBuffer_cases (g : Globals σ) (rc : Int) :
    ∃ h r, g.outputShutdown.takeBuffer rc = .returns h r ∧ h.edi = g.edi ∧
      h.excpText = g.excpText ∧ Idle h ∧ (rc ≠ 0 → r = none) := by
  have hshutdown : g.outputShutdown.edi = g.edi ∧
      g.outputShutdown.excpText = g.excpText ∧ Idle g.outputShutdown := by
    unfold Globals.outputShutdown Idle
    split
    · next hoff => exact ⟨rfl, rfl, by simp [hoff]⟩
    · exact ⟨rfl, rfl, by simp⟩
  refine ⟨_, _, rfl, hshutdown.1, hshutdown.2.1, hshutdown.2.2, fun hrc => ?_⟩
  split
  · rw [if_neg hrc]
  · rfl

/-- `edi2xml_conv2` from where it calls `edi2xml_conv`, with the variables `k`. -/
theorem UserCall.conv2_ends_of {g k : Globals σ} {ediText : CString}
    {enc : Option Bytes} (hedi : k.edi = g.edi) (htext : k.excpText = g.excpText)
    (hfailure : CharsetFailure lib heap opts all g.edi (.conv2 ediText enc) ↔
      ∃ msg offset, messageOutcome lib heap opts all k.conv k.outbuf k.edi ediText
        = some (.refused msg offset)) :
    ConversionEnds lib heap opts all g (.conv2 ediText enc)
      (((k.edi2xmlConv lib heap opts all ediText).bind fun g rc =>
        g.outputShutdown.takeBuffer rc).bind fun g r =>
          .returns g (r = none)) := by
  have hreturns := returns_edi2xmlConv lib heap opts all k ediText
  -- What has come back is shut down, and nothing was refused.
  have hreturned : ∀ {h : Globals σ} {rc : Int},
      k.edi2xmlConv lib heap opts all ediText = .returns h rc →
      h.edi = ediInit k.edi → h.excpText = k.excpText →
      ¬ CharsetFailure lib heap opts all g.edi (.conv2 ediText enc) →
      ConversionEnds lib heap opts all g (.conv2 ediText enc)
        (((k.edi2xmlConv lib heap opts all ediText).bind fun g rc =>
          g.outputShutdown.takeBuffer rc).bind fun g r =>
            .returns g (r = none)) := by
    intro h rc hconv hh hhtext hno
    obtain ⟨l, r, htake, hl, hltext, hidle, -⟩ := takeBuffer_cases h rc
    rw [hconv, Exit.bind, htake]
    refine .returned l _ hno ?_ ?_ hidle
    · rw [hl, hh, hedi]
    · rw [hltext, hhtext, htext]
  cases hout : messageOutcome lib heap opts all k.conv k.outbuf k.edi ediText with
  | none =>
    rw [hout] at hreturns hfailure
    refine hreturned hreturns rfl rfl fun hno => ?_
    obtain ⟨msg, offset, h⟩ := hfailure.1 hno
    cases h
  | some o =>
    rw [hout] at hreturns hfailure
    cases o with
    | document out offset =>
      obtain ⟨conv, hconv, -⟩ := hreturns
      refine hreturned hconv rfl rfl fun hno => ?_
      obtain ⟨msg, offset, h⟩ := hfailure.1 hno
      cases h
    | astray =>
      obtain ⟨c, hcrash, hc⟩ := hreturns
      rw [hcrash]
      refine .astray c (fun hno => ?_) hc
      obtain ⟨msg, offset, h⟩ := hfailure.1 hno
      cases h
    | refused msg offset =>
      have hfails := hfailure.2 ⟨msg, offset, rfl⟩
      rcases hreturns with ⟨hnone, hreturns⟩ | ⟨hpending, hcrash⟩
      · split_ifs at hreturns with hcomments
        · rw [hreturns]
          exact .commented hfails hcomments (htext ▸ hnone)
        · obtain ⟨conv, out, hreturns⟩ := hreturns
          rw [hreturns, Exit.bind]
          obtain ⟨l, r, htake, hl, hltext, hidle, hr⟩ := takeBuffer_cases
            ({ k with
              conv := conv
              outbuf := out
              excpText := some msg
              errOffset := offset
              errSegment := (ediText.bytes.drop offset).take 100
              edi := ediInit k.edi } : Globals σ) (-1)
          rw [htake, hr (by decide)]
          refine .failed l hfails (htext ▸ hnone) ?_ ?_ hidle
          · rw [hl, ← hedi]
          · rw [hltext]
            simp
      · rw [hcrash]
        exact .pending hfails (htext ▸ hpending)

theorem UserCall.conv2_ends (g : Globals σ) (ediText : CString)
    (enc : Option Bytes) :
    ConversionEnds lib heap opts all g (.conv2 ediText enc)
      (UserCall.run lib heap opts all g (.conv2 ediText enc)) := by
  unfold UserCall.run Globals.edi2xmlConv2
  -- Without a descriptor nothing is refused.
  have hoff : ¬ ∃ msg offset, messageOutcome lib heap opts all .off (.buffer [])
      g.edi ediText = some (.refused msg offset) := by
    rintro ⟨msg, offset, h⟩
    obtain ⟨ichg, -, hsegs⟩ := Option.map_eq_some_iff.1 h
    rcases @segmentsOutcome_idle σ lib heap opts all .off (by simp) (.buffer []) 0
        ichg.segments with
      hout | ⟨out, offset', hout⟩
    · rw [hout] at hsegs
      cases hsegs
    · rw [hout] at hsegs
      cases hsegs
  cases enc with
  | none =>
    exact UserCall.conv2_ends_of lib heap opts all rfl rfl (iff_of_false id hoff)
  | some enc =>
    dsimp only
    rw [Globals.outputSetEnc]
    cases hopen : lib.iconvOpen enc with
    | none =>
      refine UserCall.conv2_ends_of lib heap opts all rfl rfl (iff_of_false ?_ hoff)
      rintro ⟨cd, hcd, -⟩
      rw [hopen] at hcd
      cases hcd
    | some cd =>
      refine UserCall.conv2_ends_of lib heap opts all (k := { g.outputInit with
        conv := .opened cd
        outbuf := .buffer [encodingLine.text] }) rfl rfl
        ⟨?_, fun h => ⟨cd, hopen, h⟩⟩
      rintro ⟨cd', hcd, hfate⟩
      obtain rfl := Option.some.inj (hopen.symm.trans hcd)
      exact hfate

/-- What a conversion does, whichever it is. -/
theorem UserCall.run_ends {g : Globals σ} (hidle : Idle g) {c : UserCall}
    (hc : c ≠ .error) :
    ConversionEnds lib heap opts all g c (c.run lib heap opts all g) := by
  cases c with
  | conv ediText => exact UserCall.conv_ends lib heap opts all hidle ediText
  | conv2 ediText enc => exact UserCall.conv2_ends lib heap opts all g ediText enc
  | error => exact absurd rfl hc

/-! ## Runs -/

/-- There is a failure of `iconv` with no call of `edi2xml_error` behind it. -/
def Unfetched (edi : EdiLib) (calls : List UserCall) : Prop :=
  calls.foldl (fun unfetched c =>
    c ≠ .error ∧ (CharsetFailure lib heap opts all edi c ∨ unfetched)) False

/-- Whether it is the turn of a call behind these ones: of `edi2xml_error` when a
failure is not fetched, and of a conversion that fails when none is. -/
def InTurn (edi : EdiLib) (before : List UserCall) : UserCall → Prop
  | .error => Unfetched lib heap opts all edi before
  | c => CharsetFailure lib heap opts all edi c →
    ¬ Unfetched lib heap opts all edi before

/-- The assertion in `throw_exception` fails, or `edi2xml_error` takes the length
of a null pointer. -/
def Breaks {α : Type} (e : Exit σ α) : Prop :=
  e = .crashed .pending ∨ e = .crashed .noText

/-- In a run of these calls none breaks the rules of `throw_exception` and
`edi2xml_error`. -/
def KeepsRules (edi : EdiLib) (calls : List UserCall) : Prop :=
  ∀ before c, before ++ [c] <+: calls → ∀ g failed,
    runCalls lib heap opts all (.start σ edi, false) before
      = some (g, failed) → ¬ Breaks (c.run lib heap opts all g)

/-- In a run of these calls each one is in turn. -/
def TakesTurns (edi : EdiLib) (calls : List UserCall) : Prop :=
  ∀ before c, before ++ [c] <+: calls →
    (runCalls lib heap opts all (.start σ edi, false) before).isSome = true →
    InTurn lib heap opts all edi before c

/-- `edi2xml_error` is called directly behind a conversion that failed only. -/
def Obeys (edi : EdiLib) (calls : List UserCall) : Prop :=
  ∀ before, before ++ [.error] <+: calls → ∀ g failed,
    runCalls lib heap opts all (.start σ edi, false) before
      = some (g, failed) → failed = true

variable {lib heap opts all}

theorem unfetched_concat (edi : EdiLib) (calls : List UserCall) (c : UserCall) :
    Unfetched lib heap opts all edi (calls ++ [c]) ↔ c ≠ .error ∧
      (CharsetFailure lib heap opts all edi c ∨
        Unfetched lib heap opts all edi calls) := by
  unfold Unfetched
  rw [List.foldl_append]
  rfl

theorem charsetFailure_congr {a b : EdiLib} (h : ediInit a = ediInit b)
    (c : UserCall) :
    CharsetFailure lib heap opts all a c ↔
      CharsetFailure lib heap opts all b c := by
  have hsame : ∀ conv out, messageOutcome lib heap opts all conv out a
      = messageOutcome lib heap opts all conv out b := by
    intro conv out
    funext ediText
    have hparser : (ediParserCreate a none).2 = (ediParserCreate b none).2 := rfl
    unfold messageOutcome
    rw [h, hparser]
  unfold CharsetFailure
  simp only [hsame]

/-- The state between two calls. -/
structure Between (lib : Iconv σ) (heap : Realloc) (opts : Edi2xmlConfig)
    (all : EdistructAll) (edi : EdiLib) (calls : List UserCall) (g : Globals σ) :
    Prop where
  idle : Idle g
  library : ediInit g.edi = ediInit edi
  excpText : g.excpText ≠ none ↔ Unfetched lib heap opts all edi calls

theorem ediInit_ediInit (edi : EdiLib) : ediInit (ediInit edi) = ediInit edi :=
  ediInit_of_complete rfl

/-- A call that comes back leaves a state between calls again. -/
theorem Between.run {edi : EdiLib} {calls : List UserCall} {g h : Globals σ}
    (hg : Between lib heap opts all edi calls g) {c : UserCall} {failed : Bool}
    (hrun : c.run lib heap opts all g = .returns h failed) :
    Between lib heap opts all edi (calls ++ [c]) h := by
  by_cases hc : c = .error
  · subst hc
    rw [UserCall.run, Globals.edi2xmlError] at hrun
    cases htext : g.excpText with
    | none =>
      rw [htext] at hrun
      cases hrun
    | some text =>
      rw [htext] at hrun
      cases hrun
      refine ⟨hg.idle, hg.library, ?_⟩
      rw [unfetched_concat]
      simp
  · have hends := UserCall.run_ends lib heap opts all hg.idle hc
    rw [hrun] at hends
    cases hends with
    | failed h hfailure hnone hedi htext hidle =>
      refine ⟨hidle, by rw [hedi, ediInit_ediInit, hg.library], ?_⟩
      rw [unfetched_concat]
      have hfailure' := (charsetFailure_congr hg.library c).1 hfailure
      exact iff_of_true htext ⟨hc, Or.inl hfailure'⟩
    | returned h failed hno hedi htext hidle =>
      refine ⟨hidle, by rw [hedi, ediInit_ediInit, hg.library], ?_⟩
      rw [unfetched_concat, htext, hg.excpText,
        ← charsetFailure_congr hg.library c]
      simp [hc, hno]

theorem between_start (edi : EdiLib) :
    Between lib heap opts all edi [] (.start σ edi) where
  idle := by simp [Idle, Globals.start]
  library := rfl
  excpText := by simp [Globals.start, Unfetched]

/-- Calls that come back lead from one state between calls to another. -/
theorem Between.runCalls {edi : EdiLib} {before : List UserCall}
    {g h : Globals σ} (hg : Between lib heap opts all edi before g)
    {calls : List UserCall} {failed failed' : Bool}
    (hrun : runCalls lib heap opts all (g, failed) calls = some (h, failed')) :
    Between lib heap opts all edi (before ++ calls) h := by
  induction calls generalizing before g failed with
  | nil =>
    cases hrun
    rwa [List.append_nil]
  | cons c calls ih =>
    rw [Libedi.runCalls] at hrun
    cases hcall : c.run lib heap opts all g with
    | returns k failed =>
      rw [hcall] at hrun
      have hbehind := ih (hg.run hcall) hrun
      rwa [List.append_assoc] at hbehind
    | raised k =>
      rw [hcall] at hrun
      cases hrun
    | crashed crash =>
      rw [hcall] at hrun
      cases hrun

/-- A call between others breaks the rules exactly if it is not in turn. -/
theorem Between.breaks_iff {edi : EdiLib} {calls : List UserCall} {g : Globals σ}
    (hg : Between lib heap opts all edi calls g) (c : UserCall) :
    Breaks (c.run lib heap opts all g) ↔
      ¬ InTurn lib heap opts all edi calls c := by
  by_cases hc : c = .error
  · subst hc
    show _ ↔ ¬ Unfetched lib heap opts all edi calls
    rw [← hg.excpText, UserCall.run, Globals.edi2xmlError]
    cases htext : g.excpText with
    | none => simp [Breaks, Exit.bind]
    | some text => simp [Breaks, Exit.bind]
  · have hturn : InTurn lib heap opts all edi calls c ↔
        (CharsetFailure lib heap opts all edi c →
          ¬ Unfetched lib heap opts all edi calls) := by
      cases c with
      | error => exact absurd rfl hc
      | _ => exact Iff.rfl
    have hends := UserCall.run_ends lib heap opts all hg.idle hc
    rw [hturn, ← hg.excpText, ← charsetFailure_congr hg.library c]
    generalize c.run lib heap opts all g = e at hends
    cases hends with
    | failed h hfailure hnone => simp [Breaks, hnone]
    | commented hfailure hcomments hnone => simp [Breaks, hnone]
    | pending hfailure htext => simp [Breaks, hfailure, htext]
    | returned h failed hno => simp [Breaks, hno]
    | astray crash hno hcrash => simp [Breaks, hno, hcrash]

variable (lib heap opts all)

/-- The assertion in `throw_exception` holds and `edi2xml_error` has a text, in
every run, exactly if conversions that `iconv` makes fail and calls of
`edi2xml_error` take turns. -/
theorem edi2xml_keepsRules_iff (edi : EdiLib) (calls : List UserCall) :
    KeepsRules lib heap opts all edi calls ↔
      TakesTurns lib heap opts all edi calls := by
  constructor
  · intro hkeeps before c hbefore hsome
    obtain ⟨⟨g, failed⟩, hrun⟩ := Option.isSome_iff_exists.1 hsome
    have hbetween := (between_start edi).runCalls hrun
    have hno := hkeeps before c hbefore g failed hrun
    rw [hbetween.breaks_iff] at hno
    exact not_not.1 hno
  · intro hturns before c hbefore g failed hrun
    have hbetween := (between_start edi).runCalls hrun
    rw [hbetween.breaks_iff]
    exact not_not.2 (hturns before c hbefore (by rw [hrun]; rfl))

end Calls

/-! ## Sequences that break the rules -/

/-- A conversion from ASCII. -/
def asciiIconv : Iconv Unit where
  iconvOpen enc := if enc = ascii "ASCII" then some () else none
  iconv _ src dstleft :=
    let text := (src.take dstleft).takeWhile (· < 128)
    ⟨(), text.length, text,
      if text.length = src.length then .done
      else if text.length = dstleft then .e2big else .eilseq⟩
  done_reads := by
    intro _ src dstleft hdone
    dsimp only at hdone ⊢
    split_ifs at hdone with hlength
    exact Nat.le_of_eq hlength.symm

/-- Memory that `realloc` finds room behind. -/
def sampleHeap : Realloc := ⟨fun _ _ => false, fun _ => 0⟩

/-- `XYZ`, which is of no dialect. -/
def unknownText : CString := .ofBytes (ascii "XYZ") (by decide)

/-- `UNB+1'BGM+` with a byte that is not ASCII in its value. -/
def refusedText : CString :=
  .ofBytes (ascii "UNB+1'BGM+" ++ [200] ++ ascii "'") (by decide)

/-- Nothing is written into the output but the segments. -/
def plainConfig : Edi2xmlConfig := ⟨false, false, false, false, false, false⟩

/-- The byte that is not ASCII is in the second segment, at offset 6. -/
theorem refusedText_outcome :
    messageOutcome asciiIconv sampleHeap plainConfig sampleTables (.opened ())
      (.buffer [encodingLine.text]) EdiLib.start refusedText
      = some (.refused (ascii "An invalid multibyte sequence: \"" ++ [200] ++
          ascii "\"") 6) := by
  decide +kernel

theorem refusedText_fails :
    CharsetFailure asciiIconv sampleHeap plainConfig sampleTables EdiLib.start
      (.conv2 refusedText (some (ascii "ASCII"))) :=
  ⟨(), rfl, _, _, refusedText_outcome⟩

/-- The first of the conversions that `iconv` makes fail comes back. -/
theorem refusedText_run :
    ∃ g, UserCall.run asciiIconv sampleHeap plainConfig sampleTables
      (.start Unit EdiLib.start) (.conv2 refusedText (some (ascii "ASCII")))
      = .returns g true := by
  have hends := UserCall.conv2_ends asciiIconv sampleHeap plainConfig sampleTables
    (.start Unit EdiLib.start) refusedText (some (ascii "ASCII"))
  generalize UserCall.run asciiIconv sampleHeap plainConfig sampleTables _ _ = e
    at hends
  cases hends with
  | failed g => exact ⟨g, rfl⟩
  | commented _ hcomments => cases hcomments
  | pending _ htext => exact absurd rfl htext
  | returned _ _ hno => exact absurd refusedText_fails hno
  | astray _ hno => exact absurd refusedText_fails hno

theorem unknownText_run :
    ∃ g, UserCall.run asciiIconv sampleHeap plainConfig sampleTables
      (.start Unit EdiLib.start) (.conv2 unknownText none)
      = .returns g true := by
  have hparse : (ediParserParse (ediInit EdiLib.start)
      (ediParserCreate EdiLib.start none).2 unknownText).2 = none := by
    decide +kernel
  have hconv : (Globals.start Unit EdiLib.start).outputInit.edi2xmlConv
      asciiIconv sampleHeap plainConfig sampleTables unknownText
      = .returns { (Globals.start Unit EdiLib.start).outputInit with
        edi := ediInit EdiLib.start } (-1) := by
    have hlib : (ediParserCreate EdiLib.start none).1
      = ediInit EdiLib.start := rfl
    simp only [Globals.edi2xmlConv, Globals.outputInit, Globals.start, hlib,
      hparse]
  rw [UserCall.run, Globals.edi2xmlConv2, Exit.bind, hconv]
  exact ⟨_, rfl⟩

/-- The two calls of a run. -/
theorem prefix_pair {before : List UserCall} {c a b : UserCall}
    (h : before ++ [c] <+: [a, b]) :
    before = [] ∧ c = a ∨ before = [a] ∧ c = b := by
  match before with
  | [] => exact Or.inl ⟨rfl, (List.cons_prefix_cons.1 h).1⟩
  | [d] =>
    obtain ⟨hd, hc⟩ := List.cons_prefix_cons.1 h
    exact Or.inr ⟨by rw [hd], (List.cons_prefix_cons.1 hc).1⟩
  | _ :: _ :: before =>
    have hlength := h.length_le
    simp at hlength

/-- `edi2xml_error` after a message of no known dialect. -/
def unknownCalls : List UserCall := [.conv2 unknownText none, .error]

/-- A message that `iconv` makes fail, twice. -/
def refusedCalls : List UserCall :=
  [.conv2 refusedText (some (ascii "ASCII")),
    .conv2 refusedText (some (ascii "ASCII"))]

/-- Behind the message of no known dialect there is no text, and at the second
failure there is one already. -/
theorem edi2xml_breaksRules :
    (Obeys asciiIconv sampleHeap plainConfig sampleTables EdiLib.start
        unknownCalls ∧
      ¬ KeepsRules asciiIconv sampleHeap plainConfig sampleTables EdiLib.start
        unknownCalls) ∧
    Obeys asciiIconv sampleHeap plainConfig sampleTables EdiLib.start
        refusedCalls ∧
      ¬ KeepsRules asciiIconv sampleHeap plainConfig sampleTables EdiLib.start
        refusedCalls := by
  obtain ⟨g, hunknown⟩ := unknownText_run
  obtain ⟨k, hrefused⟩ := refusedText_run
  have hg : runCalls asciiIconv sampleHeap plainConfig sampleTables
      (.start Unit EdiLib.start, false) [.conv2 unknownText none]
      = some (g, true) := by
    rw [runCalls, hunknown]
    rfl
  have hk : runCalls asciiIconv sampleHeap plainConfig sampleTables
      (.start Unit EdiLib.start, false)
      [.conv2 refusedText (some (ascii "ASCII"))] = some (k, true) := by
    rw [runCalls, hrefused]
    rfl
  refine ⟨⟨?_, fun hkeeps => ?_⟩, ?_, fun hkeeps => ?_⟩
  · intro before hbefore h failed hrun
    rcases prefix_pair hbefore with ⟨-, hcall⟩ | ⟨rfl, -⟩
    · cases hcall
    · rw [hg] at hrun
      cases hrun
      rfl
  · refine hkeeps [.conv2 unknownText none] .error (List.prefix_refl _) g true
      hg ?_
    rw [((between_start EdiLib.start).runCalls hg).breaks_iff]
    show ¬ Unfetched asciiIconv sampleHeap plainConfig sampleTables
      EdiLib.start ([] ++ [.conv2 unknownText none])
    rw [unfetched_concat]
    simp [CharsetFailure, Unfetched]
  · intro before hbefore
    rcases prefix_pair hbefore with ⟨-, hcall⟩ | ⟨-, hcall⟩ <;> cases hcall
  · refine hkeeps [.conv2 refusedText (some (ascii "ASCII"))]
      (.conv2 refusedText (some (ascii "ASCII"))) (List.prefix_refl _) k true
      hk ?_
    rw [((between_start EdiLib.start).runCalls hk).breaks_iff]
    intro hturn
    refine hturn refusedText_fails ?_
    rw [unfetched_concat]
    exact ⟨by simp, Or.inl refusedText_fails⟩

end Libedi
