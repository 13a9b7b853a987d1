import Libedi.ParsePools
import Libedi.Sessions

/-!
# What an error report says

When `iconv` refuses a string, `edi2xml_conv2` fails, and `edi2xml_error` then gives
its text, an offset and a piece of the message.  The offset is that of the segment
with the string: the strings of all segments in front of it have been translated, and
the message read from the offset on starts with this segment
(`edi2xmlError_locates`).
-/

namespace Libedi

/-! ## Where a segment is -/

theorem elementLoop_suffix (p : EdiParser) (st : SegState) (m : Bytes) :
    (elementLoop p st m).2 <:+ m := by
  fun_induction elementLoop p st m with
  | case1 => exact List.suffix_refl _
  | case2 => exact List.suffix_refl _
  | case3 => exact List.nil_suffix
  | case4 st c cs _ raw d ds h stored hseg =>
    exact ⟨raw, scanValue_concat h⟩
  | case5 st c cs _ raw d ds h stored hseg ih =>
    exact ih.trans ((List.suffix_cons d ds).trans ⟨raw, scanValue_concat h⟩)

/-- The offset of a segment is its place: from there on the message is read as this
segment and those behind it. -/
theorem segmentLoop_offset {p : EdiParser} {text m : Bytes} (hm : m <:+ text)
    {before behind : List EdiSegment} {seg : EdiSegment}
    (h : (segmentLoop p text.length m).1 = before ++ seg :: behind) :
    (segmentLoop p text.length (text.drop seg.offset)).1 = seg :: behind ∧
      ∃ c rest, text.drop seg.offset = c :: rest ∧ isNewline c = false := by
  -- A suffix is the text from its offset on.
  have hplace : ∀ {l : Bytes}, l <:+ text → text.drop (text.length - l.length) = l :=
    fun hl => (List.suffix_iff_eq_drop.1 hl).symm
  have hfirst : ∀ {c : UInt8} {cs m : Bytes}, m.dropWhile isNewline = c :: cs →
      (c :: cs).dropWhile isNewline = c :: cs ∧ isNewline c = false := by
    intro c cs m hdrop
    have hc : isNewline c = false := by
      have hhead := List.head?_dropWhile_not isNewline m
      rw [hdrop] at hhead
      simpa using hhead
    exact ⟨by rw [List.dropWhile_cons_of_neg (by simp [hc])], hc⟩
  fun_induction segmentLoop p text.length m generalizing before with
  | case1 m hdrop => simp at h
  | case2 m c cs hdrop offset st hloop =>
    have hl : c :: cs <:+ text := by
      rw [← hdrop]
      exact (List.dropWhile_suffix isNewline).trans hm
    obtain ⟨rfl, hseg, rfl⟩ : before = [] ∧ seg = ⟨st.elements, st.tag, offset⟩ ∧
        behind = [] := by
      cases before with
      | nil => simpa [eq_comm] using h
      | cons x before => simp at h
    subst hseg
    obtain ⟨hdrop', hc⟩ := hfirst hdrop
    dsimp only
    rw [hplace hl, segmentLoop_open hdrop' (by simp) hloop]
    exact ⟨rfl, c, cs, rfl, hc⟩
  | case3 m c cs hdrop offset st d rest hloop ih =>
    have hl : c :: cs <:+ text := by
      rw [← hdrop]
      exact (List.dropWhile_suffix isNewline).trans hm
    have hrest : rest <:+ text := by
      have hsuffix := elementLoop_suffix p SegState.start (c :: cs)
      rw [hloop] at hsuffix
      exact (List.suffix_cons d rest).trans (hsuffix.trans hl)
    cases before with
    | nil =>
      obtain ⟨hseg, hbehind⟩ := List.cons.inj h
      subst hseg
      obtain ⟨hdrop', hc⟩ := hfirst hdrop
      dsimp only
      rw [hplace hl, segmentLoop_closed hdrop' (by simp) hloop]
      refine ⟨?_, c, cs, rfl, hc⟩
      rw [Prod.map_fst, hbehind]
    | cons x before => exact ih hrest (List.cons.inj h).2

/-! ## What was refused -/

section Refused

variable {σ : Type} {lib : Iconv σ} {heap : Realloc}

/-- `iconv` refuses one of these strings with this text. -/
def RefusedAmong (lib : Iconv σ) (heap : Realloc) (msg : Bytes)
    (sources : List (Option Bytes)) : Prop :=
  ∃ src cd cd', some src ∈ sources ∧ doConv lib heap cd src = .exception cd' msg

/-- What the items of a list are refused for, one of them is. -/
theorem refused_mapM {α β : Type} {t : α → Translation σ β}
    {f : α → List (Option Bytes)} {msg : Bytes}
    (h : ∀ a conv, (t a).run conv = .error (.refused msg) →
      RefusedAmong lib heap msg (f a)) {as : List α} {conv : Descriptor σ}
    (has : (as.mapM t).run conv = .error (.refused msg)) :
    RefusedAmong lib heap msg (as.flatMap f) := by
  induction as generalizing conv with
  | nil => cases has
  | cons a as ih =>
    rw [List.mapM_cons, StateT.run_bind] at has
    cases ha : (t a).run conv with
    | error r =>
      rw [ha] at has
      obtain rfl : r = .refused msg := Except.error.inj has
      obtain ⟨src, cd, cd', hsrc, hconv⟩ := h a conv ha
      exact ⟨src, cd, cd', List.mem_append_left _ hsrc, hconv⟩
    | ok p =>
      obtain ⟨b, conv'⟩ := p
      rw [ha] at has
      have hrest : (as.mapM t).run conv' = .error (.refused msg) := by
        cases hrest : (as.mapM t).run conv' with
        | error r =>
          replace has : ((as.mapM t >>= fun bs => pure (b :: bs)).run conv')
            = Except.error (.refused msg) := has
          rw [StateT.run_bind, hrest] at has
          exact has
        | ok q =>
          replace has : ((as.mapM t >>= fun bs => pure (b :: bs)).run conv')
            = Except.error (.refused msg) := has
          rw [StateT.run_bind, hrest] at has
          cases has
      obtain ⟨src, cd, cd', hsrc, hconv⟩ := ih hrest
      exact ⟨src, cd, cd', List.mem_append_right _ hsrc, hconv⟩

/-- A result in another form is refused for the same reason. -/
theorem refused_map {α β : Type} {f : α → β} {x : Translation σ α}
    {conv : Descriptor σ} {r : Refusal} (h : (f <$> x).run conv = .error r) :
    x.run conv = .error r := by
  rw [StateT.run_map] at h
  cases hx : x.run conv with
  | ok p =>
    rw [hx] at h
    cases h
  | error r' =>
    rw [hx] at h
    exact congrArg Except.error (Except.error.inj h)

/-- The string of a part. -/
def Part.source : Part → List (Option Bytes)
  | .plain _ => []
  | .escaped src => [some src]

theorem refused_string {src msg : Bytes} {conv : Descriptor σ}
    (h : (translateString lib heap src).run conv = .error (.refused msg)) :
    RefusedAmong lib heap msg [some src] := by
  cases conv with
  | off => cases h
  | invalid => cases h
  | opened cd =>
    have hrun : translateString lib heap src (.opened cd)
      = .error (.refused msg) := h
    rw [translateString] at hrun
    cases hconv : doConv lib heap cd src with
    | text cd dst =>
      rw [hconv] at hrun
      cases hrun
    | exception cd' msg' =>
      rw [hconv] at hrun
      obtain rfl : msg' = msg := by simpa using hrun
      exact ⟨src, cd, cd', List.mem_singleton.2 rfl, hconv⟩
    | crash c =>
      rw [hconv] at hrun
      cases hrun

theorem refused_parts {parts : List Part} {msg : Bytes} {conv : Descriptor σ}
    (h : (parts.mapM (Part.translate lib heap)).run conv
      = .error (.refused msg)) :
    RefusedAmong lib heap msg (parts.flatMap Part.source) := by
  refine refused_mapM (fun part conv hpart => ?_) h
  cases part with
  | plain text => cases hpart
  | escaped src => exact refused_string (refused_map hpart)

theorem source_eq (parts : List Part) :
    parts.flatMap Part.source = (Xml.chars parts).sources.map some := by
  induction parts with
  | nil => rfl
  | cons part parts ih =>
    rw [List.flatMap_cons, ih]
    cases part <;> rfl

theorem refused_item {x : Xml} {msg : Bytes} {conv : Descriptor σ}
    (h : (x.translate lib heap).run conv = .error (.refused msg)) :
    RefusedAmong lib heap msg (x.sources.map some) := by
  cases x with
  | comment parts =>
    have hparts := refused_parts (refused_map h)
    rw [source_eq] at hparts
    exact hparts
  | chars parts =>
    have hparts := refused_parts (refused_map h)
    rw [source_eq] at hparts
    exact hparts
  | openTag name attrs => cases h
  | closeTag name => cases h
  | emptyTag name => cases h

/-- What a step is refused for, one of its strings is. -/
theorem refused_step {s : Step} {msg : Bytes} {conv : Descriptor σ}
    (h : (s.translate lib heap).run conv = .error (.refused msg)) :
    RefusedAmong lib heap msg s.sources := by
  cases s with
  | out xs =>
    have hitems := refused_mapM (fun x conv => refused_item) (refused_map h)
    rw [← List.map_flatMap] at hitems
    exact hitems
  | fault f => cases h
  | error msg => cases h
  | element name val => cases h

variable {opts : Edi2xmlConfig} {all : EdistructAll}

/-- What some steps are refused for, one of their strings is. -/
theorem performSteps_refused {steps : List Step} {msg : Bytes}
    {conv : Descriptor σ} {out : Outbuf}
    (h : performSteps lib heap opts conv out steps = .error (.refused msg)) :
    RefusedAmong lib heap msg (steps.flatMap Step.sources) := by
  induction steps generalizing conv out with
  | nil => cases h
  | cons s steps ih =>
    rw [performSteps] at h
    cases hs : (s.translate lib heap).run conv with
    | error r =>
      rw [hs] at h
      cases h
      obtain ⟨src, cd, cd', hsrc, hconv⟩ := refused_step hs
      exact ⟨src, cd, cd', List.mem_append_left _ hsrc, hconv⟩
    | ok p =>
      rw [hs] at h
      dsimp only at h
      cases hemit : p.1.emit opts out with
      | none =>
        rw [hemit] at h
        cases h
      | some next =>
        rw [hemit] at h
        obtain ⟨src, cd, cd', hsrc, hconv⟩ := ih h
        exact ⟨src, cd, cd', List.mem_append_right _ hsrc, hconv⟩

/-- Steps that are done have had their strings translated. -/
theorem performSteps_translate {steps : List Step} {conv conv' : Descriptor σ}
    {out out' : Outbuf}
    (h : performSteps lib heap opts conv out steps = .ok (conv', out')) :
    ∃ steps', (steps.mapM (Step.translate lib heap)).run conv
      = .ok (steps', conv') := by
  induction steps generalizing conv out with
  | nil =>
    cases h
    exact ⟨[], rfl⟩
  | cons s steps ih =>
    rw [performSteps] at h
    rw [List.mapM_cons, StateT.run_bind]
    cases hs : (s.translate lib heap).run conv with
    | error r =>
      rw [hs] at h
      cases h
    | ok p =>
      obtain ⟨s', conv₁⟩ := p
      rw [hs] at h
      dsimp only at h
      cases hemit : s'.emit opts out with
      | none =>
        rw [hemit] at h
        cases h
      | some next =>
        rw [hemit] at h
        obtain ⟨steps', hsteps⟩ := ih h
        refine ⟨s' :: steps', ?_⟩
        show ((steps.mapM (Step.translate lib heap)
          >>= fun steps => pure (s' :: steps)).run conv₁) = _
        rw [StateT.run_bind, hsteps]
        rfl

/-- A conversion is refused at a segment behind those that are translated. -/
theorem segmentsOutcome_refused {conv : Descriptor σ} {out : Outbuf}
    {offset offset' : Nat} {segs : List EdiSegment} {msg : Bytes}
    (h : segmentsOutcome lib heap opts all conv out offset segs
      = .refused msg offset') :
    ∃ before seg behind, segs = before ++ seg :: behind ∧ seg.offset = offset' ∧
      (∃ r, ((convSegments opts all before).mapM
        (Step.translate lib heap)).run conv = .ok r) ∧
      RefusedAmong lib heap msg
        ((convSegment opts all seg).flatMap Step.sources) := by
  induction segs generalizing conv out offset with
  | nil => cases h
  | cons seg segs ih =>
    rw [segmentsOutcome] at h
    cases hseg : performSteps lib heap opts conv out (convSegment opts all seg) with
    | error r =>
      rw [hseg] at h
      cases r with
      | astray => cases h
      | refused msg' =>
        obtain ⟨rfl, rfl⟩ := Outcome.refused.inj h
        exact ⟨[], seg, segs, rfl, rfl, ⟨([], conv), rfl⟩,
          performSteps_refused hseg⟩
    | ok p =>
      obtain ⟨conv', out'⟩ := p
      rw [hseg] at h
      obtain ⟨steps, hsteps⟩ := performSteps_translate hseg
      obtain ⟨before, seg', behind, rfl, hoffset, ⟨⟨more, conv''⟩, hbefore⟩,
        hrefused⟩ := ih h
      refine ⟨seg :: before, seg', behind, rfl, hoffset,
        ⟨(steps ++ more, conv''), ?_⟩, hrefused⟩
      rw [convSegments, List.flatMap_cons, List.mapM_append, StateT.run_bind, hsteps]
      show (((convSegments opts all before).mapM (Step.translate lib heap)
        >>= fun more => pure (steps ++ more)).run conv') = _
      rw [StateT.run_bind, hbefore]
      rfl

end Refused

/-! ## The report -/

section Report

variable {σ : Type} {lib : Iconv σ} {heap : Realloc} {opts : Edi2xmlConfig}
  {all : EdistructAll}

/-- The segments that `edi_parser_parse` reads, by the parser that runs. -/
theorem ediParserParse_runsOn {edi : EdiLib} {oparser : EdiParser}
    {message : CString} {ichg : EdiInterchange}
    (h : (ediParserParse edi oparser message).2 = some ichg) :
    ∃ p m, runsOn edi oparser message = some (p, m) ∧ m <:+ message.bytes ∧
      ichg.segments = (segmentLoop p message.bytes.length m).1 := by
  have hbody : ∀ (p : EdiParser) (m : Bytes),
      (parseBody p message.strlen m).2.segments
        = (segmentLoop p message.bytes.length m).1 := by
    intro p m
    unfold parseBody
    split_ifs with hnil
    · rw [List.isEmpty_iff.1 hnil, segmentLoop_nil rfl]
    · rfl
  unfold ediParserParse runsOn at *
  split_ifs at h ⊢ with hdetect
  · cases hfound : (ediDetect edi.detectparams message).found with
    | none =>
      rw [hfound] at h
      cases h
    | some r =>
      obtain ⟨params, skip⟩ := r
      rw [hfound] at h
      dsimp only at h
      refine ⟨_, _, rfl, List.drop_suffix _ _, ?_⟩
      split_ifs at h ⊢ with hversion
      · rw [← Option.some.inj h]
        exact hbody _ _
      · rw [← Option.some.inj h]
        exact hbody _ _
  · refine ⟨_, _, rfl, List.suffix_refl _, ?_⟩
    rw [← Option.some.inj h]
    exact hbody _ _

/-- The descriptor for a charset, and none without one. -/
def descriptorFor (lib : Iconv σ) (enc : Option Bytes) : Descriptor σ :=
  match enc.bind lib.iconvOpen with
  | none => .off
  | some cd => .opened cd

/-- A conversion comes to this segment of its message, and one of the strings there is
refused.  From the offset of the segment on, the message is read as this segment and
what is behind it. -/
structure FailsAt (lib : Iconv σ) (heap : Realloc) (opts : Edi2xmlConfig)
    (all : EdistructAll) (edi : EdiLib) (ediText : CString) (enc : Option Bytes)
    (msg : Bytes) (before : List EdiSegment) (seg : EdiSegment)
    (behind : List EdiSegment) : Prop where
  parsed : (ediParserParse (ediInit edi) (ediParserCreate edi none).2 ediText).2
    = some ⟨before ++ seg :: behind⟩
  before : ∃ r, ((convSegments opts all before).mapM
    (Step.translate lib heap)).run (descriptorFor lib enc) = .ok r
  refused : RefusedAmong lib heap msg
    ((convSegment opts all seg).flatMap Step.sources)
  place : ∀ p m, runsOn (ediInit edi) (ediParserCreate edi none).2 ediText
      = some (p, m) →
    (segmentLoop p ediText.bytes.length (ediText.bytes.drop seg.offset)).1
      = seg :: behind

theorem failsAt_of_outcome {edi : EdiLib} {ediText : CString}
    {enc : Option Bytes} {msg : Bytes} {offset : Nat}
    (h : outcome lib heap opts all edi ediText enc
      = some (.refused msg offset)) :
    ∃ before seg behind, seg.offset = offset ∧
      FailsAt lib heap opts all edi ediText enc msg before seg behind := by
  obtain ⟨out, hmessage⟩ : ∃ out, messageOutcome lib heap opts all
      (descriptorFor lib enc) out edi ediText = some (.refused msg offset) := by
    unfold outcome at h
    unfold descriptorFor
    cases hopen : enc.bind lib.iconvOpen with
    | none => exact ⟨_, by simpa only [hopen] using h⟩
    | some cd => exact ⟨_, by simpa only [hopen] using h⟩
  obtain ⟨⟨segs⟩, hparse, hsegs⟩ := Option.map_eq_some_iff.1 hmessage
  obtain ⟨before, seg, behind, rfl, hoffset, hbefore, hrefused⟩ :=
    segmentsOutcome_refused hsegs
  obtain ⟨q, l, hruns, hsuffix, hread⟩ := ediParserParse_runsOn hparse
  refine ⟨before, seg, behind, hoffset, hparse, hbefore, hrefused,
    fun p m hp => ?_⟩
  obtain ⟨rfl, rfl⟩ := Prod.mk.inj (Option.some.inj (hruns.symm.trans hp))
  exact (segmentLoop_offset hsuffix hread.symm).1

/-- When a conversion fails because of a string, `edi2xml_error` gives the text that
`iconv` has it refused with, and the place of its segment. -/
theorem edi2xmlError_locates {g h : Globals σ} {ediText : CString}
    {enc : Option Bytes} {r : Option (List Bytes)} {msg : Bytes}
    (hnone : g.excpText = none)
    (hrun : g.edi2xmlConv2 lib heap opts all ediText enc = .returns h r)
    (htext : h.excpText = some msg) :
    r = none ∧ ∃ before seg behind,
      FailsAt lib heap opts all g.edi ediText enc msg before seg behind ∧
      h.edi2xmlError = .returns { h with excpText := none }
        (msg ++ ascii ", segment offset " ++
          ascii (toString (seg.offset % 2 ^ 32)) ++ ascii ": " ++
          (ediText.bytes.drop seg.offset).take 100 ++ ascii "...") := by
  have hsim : Simulates g ⟨g.edi, none, g.errOffset, g.errSegment⟩ :=
    ⟨rfl, hnone, rfl, rfl⟩
  have hcall := conv2_refines lib heap opts all hsim ediText enc
  have hreply : SessionCall.run lib heap opts all g (.conv2 ediText enc)
      = .returns h (.ofTexts r) := by
    rw [SessionCall.run, hrun]
    rfl
  rw [hreply, Session.call] at hcall
  dsimp only at hcall
  cases hout : outcome lib heap opts all g.edi ediText enc with
  | none =>
    simp only [hout] at hcall
    obtain ⟨g', hg', hsim'⟩ := hcall
    obtain ⟨rfl, -⟩ := Exit.returns.inj hg'
    rw [hsim'.pending] at htext
    cases htext
  | some o =>
    cases o with
    | document texts offset =>
      simp only [hout] at hcall
      obtain ⟨g', hg', hsim'⟩ := hcall
      obtain ⟨rfl, -⟩ := Exit.returns.inj hg'
      rw [hsim'.pending] at htext
      cases htext
    | astray =>
      simp only [hout] at hcall
      obtain ⟨crash, hcrash⟩ := hcall
      cases hcrash
    | refused msg' offset =>
      simp only [hout, true_and] at hcall
      split_ifs at hcall
      · obtain ⟨g', hg', hsim'⟩ := hcall
        obtain ⟨rfl, hr⟩ := Exit.returns.inj hg'
        obtain rfl : msg' = msg := Option.some.inj (hsim'.pending.symm.trans htext)
        obtain ⟨before, seg, behind, rfl, hfails⟩ := failsAt_of_outcome hout
        refine ⟨?_, before, seg, behind, hfails, ?_⟩
        · cases r with
          | none => rfl
          | some texts => cases hr
        · rw [Globals.edi2xmlError, htext, hsim'.offset, hsim'.quote]
      · obtain ⟨crash, hcrash⟩ := hcall
        cases hcrash

end Report

theorem refusedText_conv2 :
    outcome asciiIconv sampleHeap plainConfig sampleTables EdiLib.start refusedText
      (some (ascii "ASCII"))
      = some (.refused (ascii "An invalid multibyte sequence: \"" ++ [200] ++
          ascii "\"") 6) := by
  decide +kernel

theorem edi2xmlError_locates_sample :
    ∃ (h : Globals Unit) (before behind : List EdiSegment) (seg : EdiSegment),
      FailsAt asciiIconv sampleHeap plainConfig sampleTables EdiLib.start
        refusedText (some (ascii "ASCII"))
        (ascii "An invalid multibyte sequence: \"" ++ [200] ++ ascii "\"")
        before seg behind ∧
      h.edi2xmlError = .returns { h with excpText := none }
        (ascii "An invalid multibyte sequence: \"" ++ [200] ++ ascii "\"" ++
          ascii ", segment offset " ++ ascii (toString (seg.offset % 2 ^ 32)) ++
          ascii ": " ++ (refusedText.bytes.drop seg.offset).take 100 ++
          ascii "...") := by
  have hcall := conv2_refines asciiIconv sampleHeap plainConfig sampleTables
    (g := Globals.start Unit EdiLib.start) (s := ⟨EdiLib.start, none, 0, []⟩)
    ⟨rfl, rfl, rfl, rfl⟩ refusedText (some (ascii "ASCII"))
  rw [Session.call, refusedText_conv2] at hcall
  obtain ⟨h, hrun, hsim⟩ := hcall
  have hreturns : ∃ r, (Globals.start Unit EdiLib.start).edi2xmlConv2 asciiIconv
      sampleHeap plainConfig sampleTables refusedText (some (ascii "ASCII"))
      = .returns h r := by
    rw [SessionCall.run] at hrun
    cases hconv : (Globals.start Unit EdiLib.start).edi2xmlConv2 asciiIconv
        sampleHeap plainConfig sampleTables refusedText
        (some (ascii "ASCII")) with
    | returns k r =>
      rw [hconv] at hrun
      obtain ⟨rfl, -⟩ := Exit.returns.inj hrun
      exact ⟨r, rfl⟩
    | raised k =>
      rw [hconv] at hrun
      cases hrun
    | crashed c =>
      rw [hconv] at hrun
      cases hrun
  obtain ⟨r, hr⟩ := hreturns
  obtain ⟨-, before, seg, behind, hfails, hreport⟩ :=
    edi2xmlError_locates rfl hr hsim.pending
  exact ⟨h, before, behind, seg, hfails, hreport⟩

end Libedi
