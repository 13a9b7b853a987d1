import Libedi.Exceptions

/-!
# Sessions

The functions of `libedixml` share the variables of `Globals`: the descriptor, the
buffer, the pending text, and the place of the last conversion.  Seen from outside,
there is less to it.  What a conversion comes to depends on its text, its charset and
the registry of `libedi` (`outcome`): its strings are translated one after the other,
and its texts are written as long as `output` can do it.  Of all that was called
before, only a pending text is left, and the place that `edi2xml_error` speaks of
(`Session`).

`sessions_refine` says that any run of calls is answered like that.
-/

namespace Libedi

/-- What a message comes to in `edi2xml_conv2`, if it is parsed. -/
def outcome {σ : Type} (lib : Iconv σ) (heap : Realloc) (opts : Edi2xmlConfig)
    (all : EdistructAll) (edi : EdiLib) (ediText : CString)
    (enc : Option Bytes) : Option Outcome :=
  match enc.bind lib.iconvOpen with
  | none => messageOutcome lib heap opts all .off (.buffer []) edi ediText
  | some cd =>
    messageOutcome lib heap opts all (.opened cd) (.buffer [encodingLine.text])
      edi ediText

/-! ## Calls -/

/-- A call of the libraries by a program that uses `edi2xml_conv2`. -/
inductive SessionCall where
  | register (name : Option Bytes) (params : EdiParams)
  | conv2 (ediText : CString) (enc : Option Bytes)
  | error

/-- What a call gives back. -/
inductive Reply where
  | registered (p : Nat)
  | document (texts : List Bytes)
  | failed
  | report (text : Bytes)
  deriving DecidableEq

/-- What `edi2xml_conv2` gives back. -/
def Reply.ofTexts : Option (List Bytes) → Reply
  | none => .failed
  | some texts => .document texts

/-- What is left of the calls so far: the registry, the pending text, and the place
of the last conversion with a piece of its message. -/
structure Session where
  edi : EdiLib
  pending : Option Bytes
  offset : Nat
  quote : Bytes

/-- The text of `edi2xml_error`. -/
def Session.report (s : Session) (msg : Bytes) : Bytes :=
  msg ++ ascii ", segment offset " ++ ascii (toString (s.offset % 2 ^ 32)) ++
    ascii ": " ++ s.quote ++ ascii "..."

section Calls

variable {σ : Type} (lib : Iconv σ) (heap : Realloc) (opts : Edi2xmlConfig)
  (all : EdistructAll)

/-- A call, as it is seen from outside.  It does not come back when a text is
pending where none should be, or the other way round, and when a text that is refused
is to be written as a comment. -/
def Session.call (s : Session) : SessionCall → Option (Session × Reply)
  | .register name params =>
    let r := ediParamsRegister s.edi name params
    some ({ s with edi := r.1 }, .registered r.2)
  | .conv2 ediText enc =>
    match outcome lib heap opts all s.edi ediText enc with
    | none => some (⟨ediInit s.edi, s.pending, 0, []⟩, .failed)
    | some (.document out offset) =>
      some (⟨ediInit s.edi, s.pending, offset, []⟩,
        if out.texts = [] then .failed else .document out.texts)
    | some (.refused msg offset) =>
      if s.pending = none ∧ opts.commentsErrors = false then
        some (⟨ediInit s.edi, some msg, offset,
          (ediText.bytes.drop offset).take 100⟩, .failed)
      else none
    | some .astray => none
  | .error =>
    s.pending.map fun msg => ({ s with pending := none }, .report (s.report msg))

/-- The same call of the functions themselves. -/
def SessionCall.run (g : Globals σ) : SessionCall → Exit σ Reply
  | .register name params =>
    let r := ediParamsRegister g.edi name params
    .returns { g with edi := r.1 } (.registered r.2)
  | .conv2 ediText enc =>
    (g.edi2xmlConv2 lib heap opts all ediText enc).bind fun g texts =>
      .returns g (.ofTexts texts)
  | .error => g.edi2xmlError.bind fun g text => .returns g (.report text)

/-- The answers to some calls, and whether all of them came back. -/
def Session.answers (s : Session) : List SessionCall → List Reply × Bool
  | [] => ([], true)
  | c :: calls =>
    match s.call lib heap opts all c with
    | none => ([], false)
    | some (s, r) => ((answers s calls).1.cons r, (answers s calls).2)

/-- The answers of the functions to some calls. -/
def sessionAnswers (g : Globals σ) : List SessionCall → List Reply × Bool
  | [] => ([], true)
  | c :: calls =>
    match c.run lib heap opts all g with
    | .returns g r => ((sessionAnswers g calls).1.cons r, (sessionAnswers g calls).2)
    | _ => ([], false)

end Calls

/-! ## All calls -/

/-- The variables behind the calls that a session stands for. -/
structure Simulates {σ : Type} (g : Globals σ) (s : Session) : Prop where
  edi : g.edi = s.edi
  pending : g.excpText = s.pending
  offset : g.errOffset = s.offset
  quote : g.errSegment = s.quote

section Session

variable {σ : Type} (lib : Iconv σ) (heap : Realloc) (opts : Edi2xmlConfig)
  (all : EdistructAll)

/-- `output_init` and `output_set_enc`. -/
theorem edi2xmlConv2_setup (g : Globals σ) (ediText : CString)
    (enc : Option Bytes) :
    ∃ conv texts, g.edi2xmlConv2 lib heap opts all ediText enc
        = (({ g with conv := conv, outbuf := .buffer texts } :
            Globals σ).edi2xmlConv lib heap opts all ediText).bind
          (fun g rc => g.outputShutdown.takeBuffer rc) ∧
      ∀ edi, outcome lib heap opts all edi ediText enc
        = messageOutcome lib heap opts all conv (.buffer texts) edi ediText := by
  cases enc with
  | none => exact ⟨.off, [], rfl, fun _ => rfl⟩
  | some enc =>
    have hset : g.edi2xmlConv2 lib heap opts all ediText (some enc)
        = (g.outputInit.outputSetEnc lib enc).bind fun g _ =>
          (g.edi2xmlConv lib heap opts all ediText).bind fun g rc =>
            g.outputShutdown.takeBuffer rc := rfl
    rw [hset]
    unfold outcome Globals.outputSetEnc
    rw [Option.bind_some]
    cases lib.iconvOpen enc with
    | none => exact ⟨.off, [], rfl, fun _ => rfl⟩
    | some cd => exact ⟨.opened cd, [encodingLine.text], rfl, fun _ => rfl⟩

/-- What `edi2xml_conv2` does when its conversion has returned. -/
theorem conv2_returns {g h : Globals σ} {rc : Int} {ediText : CString}
    {enc : Option Bytes}
    (hconv : g.edi2xmlConv2 lib heap opts all ediText enc
      = (Exit.returns h rc).bind fun g rc => g.outputShutdown.takeBuffer rc)
    (hbuffer : rc = 0 → ∃ texts, h.outbuf = .buffer texts) :
    ∃ g', SessionCall.run lib heap opts all g (.conv2 ediText enc)
        = .returns g' (if rc = 0 ∧ h.outbuf.texts ≠ [] then
          .document h.outbuf.texts else .failed) ∧
      Simulates g' ⟨h.edi, h.excpText, h.errOffset, h.errSegment⟩ := by
  have hshut : ∃ conv, h.outputShutdown = { h with conv := conv } := by
    unfold Globals.outputShutdown
    split
    · exact ⟨h.conv, rfl⟩
    · exact ⟨.invalid, rfl⟩
  obtain ⟨conv, hconv'⟩ := hshut
  refine ⟨{ h with conv := conv, outbuf := .gone }, ?_, ⟨rfl, rfl, rfl, rfl⟩⟩
  rw [SessionCall.run, hconv, Exit.bind, hconv', Globals.takeBuffer]
  dsimp only
  by_cases hrc : rc = 0
  · obtain ⟨texts, hbuffer⟩ := hbuffer hrc
    rw [hbuffer]
    cases texts <;> simp [Exit.bind, Reply.ofTexts, Outbuf.texts, hrc]
  · cases h.outbuf with
    | buffer texts => cases texts <;> simp [Exit.bind, Reply.ofTexts, hrc]
    | _ => simp [Exit.bind, Reply.ofTexts, hrc]

theorem conv2_refines {g : Globals σ} {s : Session} (h : Simulates g s)
    (ediText : CString) (enc : Option Bytes) :
    match s.call lib heap opts all (.conv2 ediText enc) with
    | none => ∃ c, SessionCall.run lib heap opts all g (.conv2 ediText enc)
        = .crashed c
    | some (s', r) => ∃ g', SessionCall.run lib heap opts all g
        (.conv2 ediText enc) = .returns g' r ∧ Simulates g' s' := by
  obtain ⟨edi, pending, offset, quote⟩ := s
  obtain ⟨rfl, rfl, rfl, rfl⟩ := h
  obtain ⟨conv, texts, hset, houtcome⟩ :=
    edi2xmlConv2_setup lib heap opts all g ediText enc
  have hconv : Returns opts { g with conv := conv, outbuf := .buffer texts } ediText
      (messageOutcome lib heap opts all conv (.buffer texts) g.edi ediText) _ :=
    returns_edi2xmlConv lib heap opts all _ ediText
  rw [Session.call, houtcome]
  dsimp only
  cases hparse : messageOutcome lib heap opts all conv (.buffer texts) g.edi
      ediText with
  | none =>
    rw [hparse] at hconv
    rw [show Globals.edi2xmlConv _ lib heap opts all ediText = _ from hconv] at hset
    exact conv2_returns lib heap opts all hset fun hrc => absurd hrc (by decide)
  | some o =>
    rw [hparse] at hconv
    cases o with
    | document out offset =>
      obtain ⟨conv', hreturns, -⟩ := hconv
      obtain ⟨ichg, -, hsegs⟩ := Option.map_eq_some_iff.1 hparse
      obtain ⟨more, rfl⟩ := segmentsOutcome_append hsegs
      rw [hreturns] at hset
      obtain ⟨g', hrun, hg'⟩ := conv2_returns lib heap opts all hset
        fun _ => ⟨texts ++ more, rfl⟩
      refine ⟨g', ?_, hg'⟩
      rw [hrun]
      by_cases hnil : (Outbuf.buffer texts |>.append more).texts = [] <;> simp [hnil]
    | refused msg offset =>
      rcases hconv with ⟨hnone, hreturns⟩ | ⟨hpending, hcrash⟩
      · split_ifs at hreturns with hcomments
        · dsimp only
          rw [if_neg (by simp [hcomments])]
          exact ⟨.format, by rw [SessionCall.run, hset, hreturns]; rfl⟩
        · obtain ⟨conv', out, hreturns⟩ := hreturns
          rw [hreturns] at hset
          dsimp only
          rw [if_pos ⟨hnone, by simpa using hcomments⟩]
          exact conv2_returns lib heap opts all hset
            fun hrc => absurd hrc (by decide)
      · dsimp only
        rw [if_neg fun h => hpending h.1]
        exact ⟨.pending, by rw [SessionCall.run, hset, hcrash]; rfl⟩
    | astray =>
      obtain ⟨c, hcrash, -⟩ := hconv
      exact ⟨c, by rw [SessionCall.run, hset, hcrash]; rfl⟩

/-- A conversion that goes astray does not come back. -/
theorem conv2_astray (g : Globals σ) {ediText : CString} {enc : Option Bytes}
    (h : outcome lib heap opts all g.edi ediText enc = some .astray) :
    ∃ c, g.edi2xmlConv2 lib heap opts all ediText enc = .crashed c := by
  have hcall := conv2_refines lib heap opts all
    (s := ⟨g.edi, g.excpText, g.errOffset, g.errSegment⟩) (g := g)
    ⟨rfl, rfl, rfl, rfl⟩ ediText enc
  rw [Session.call] at hcall
  dsimp only at hcall
  rw [h] at hcall
  obtain ⟨c, hc⟩ := hcall
  rw [SessionCall.run] at hc
  cases hrun : g.edi2xmlConv2 lib heap opts all ediText enc with
  | returns k r =>
    rw [hrun] at hc
    cases hc
  | raised k =>
    rw [hrun] at hc
    cases hc
  | crashed c => exact ⟨c, rfl⟩

/-- The texts of a document. -/
def Outcome.texts : Outcome → Option (List Bytes)
  | .document out _ => some out.texts
  | _ => none

/-- `edi2xml_conv2` gives a document back if its message comes to one that is not
empty. -/
theorem conv2_document_iff (g : Globals σ) (ediText : CString)
    (enc : Option Bytes) (texts : List Bytes) :
    (∃ h, g.edi2xmlConv2 lib heap opts all ediText enc
      = .returns h (some texts)) ↔
    texts ≠ [] ∧ (outcome lib heap opts all g.edi ediText enc).bind
      Outcome.texts = some texts := by
  have hreply : ∀ e : Exit σ (Option (List Bytes)),
      (∃ h, e = .returns h (some texts)) ↔
        ∃ h, (e.bind fun g texts => .returns g (Reply.ofTexts texts))
          = .returns h (.document texts) := by
    intro e
    cases e with
    | raised h => simp [Exit.bind]
    | crashed c => simp [Exit.bind]
    | returns h r => cases r <;> simp [Exit.bind, Reply.ofTexts]
  have hcall := conv2_refines lib heap opts all
    (s := ⟨g.edi, g.excpText, g.errOffset, g.errSegment⟩) (g := g)
    ⟨rfl, rfl, rfl, rfl⟩ ediText enc
  rw [hreply]
  show (∃ h, SessionCall.run lib heap opts all g (.conv2 ediText enc) = _) ↔ _
  rw [Session.call] at hcall
  dsimp only at hcall
  cases hout : outcome lib heap opts all g.edi ediText enc with
  | none =>
    simp only [hout] at hcall
    obtain ⟨g', hrun, -⟩ := hcall
    rw [hrun]
    simp
  | some o =>
    cases o with
    | document more offset =>
      simp only [hout] at hcall
      obtain ⟨g', hrun, -⟩ := hcall
      rw [hrun]
      by_cases hmore : more.texts = []
      · simp only [if_pos hmore, Outcome.texts, Option.bind_some, Option.some.injEq]
        constructor
        · rintro ⟨h, hh⟩
          cases hh
        · rintro ⟨hne, rfl⟩
          exact absurd hmore hne
      · simp only [if_neg hmore, Outcome.texts, Option.bind_some,
          Option.some.injEq]
        constructor
        · rintro ⟨h, hh⟩
          cases hh
          exact ⟨hmore, rfl⟩
        · rintro ⟨-, rfl⟩
          exact ⟨g', rfl⟩
    | refused msg offset =>
      simp only [hout] at hcall
      split_ifs at hcall
      · obtain ⟨g', hrun, -⟩ := hcall
        rw [hrun]
        simp [Outcome.texts]
      · obtain ⟨c, hrun⟩ := hcall
        rw [hrun]
        simp [Outcome.texts]
    | astray =>
      simp only [hout] at hcall
      obtain ⟨c, hrun⟩ := hcall
      rw [hrun]
      simp [Outcome.texts]

/-- Each call does what the session says. -/
theorem call_refines {g : Globals σ} {s : Session} (h : Simulates g s)
    (c : SessionCall) :
    match s.call lib heap opts all c with
    | none => ∃ crash, c.run lib heap opts all g = .crashed crash
    | some (s', r) => ∃ g', c.run lib heap opts all g = .returns g' r ∧
        Simulates g' s' := by
  cases c with
  | conv2 ediText enc => exact conv2_refines lib heap opts all h ediText enc
  | register name params =>
    rw [Session.call, SessionCall.run, h.edi]
    exact ⟨_, rfl, ⟨rfl, h.pending, h.offset, h.quote⟩⟩
  | error =>
    obtain ⟨edi, pending, offset, quote⟩ := s
    obtain ⟨rfl, rfl, rfl, rfl⟩ := h
    rw [Session.call, SessionCall.run, Globals.edi2xmlError]
    dsimp only
    cases g.excpText with
    | none => exact ⟨.noText, rfl⟩
    | some msg => exact ⟨_, rfl, ⟨rfl, rfl, rfl, rfl⟩⟩

theorem answers_refine {g : Globals σ} {s : Session} (h : Simulates g s)
    (calls : List SessionCall) :
    sessionAnswers lib heap opts all g calls
      = s.answers lib heap opts all calls := by
  induction calls generalizing g s with
  | nil => rfl
  | cons c calls ih =>
    have hcall := call_refines lib heap opts all h c
    rw [sessionAnswers, Session.answers]
    cases hs : s.call lib heap opts all c with
    | none =>
      rw [hs] at hcall
      obtain ⟨crash, hcrash⟩ := hcall
      rw [hcrash]
    | some p =>
      obtain ⟨s', r⟩ := p
      rw [hs] at hcall
      obtain ⟨g', hreturns, hg'⟩ := hcall
      rw [hreturns]
      dsimp only
      rw [ih hg']

/-- Any run of calls is answered as in a session: a conversion by what its message
comes to in the registry of that moment, and `edi2xml_error` by the text that is
pending and the place of the last conversion. -/
theorem sessions_refine (edi : EdiLib) (calls : List SessionCall) :
    sessionAnswers lib heap opts all (Globals.start σ edi) calls
      = Session.answers lib heap opts all ⟨edi, none, 0, []⟩ calls :=
  answers_refine lib heap opts all ⟨rfl, rfl, rfl, rfl⟩ calls

end Session

/-- A string is refused, its report is fetched, and then there is none. -/
example : Session.answers asciiIconv sampleHeap plainConfig sampleTables
    ⟨EdiLib.start, none, 0, []⟩
    [.conv2 refusedText (some (ascii "ASCII")), .error,
      .conv2 unknownText none, .error]
    = ([.failed, .report (ascii "An invalid multibyte sequence: \"" ++ [200] ++
        ascii "\", segment offset 6: BGM+" ++ [200] ++ ascii "'..."), .failed],
      false) := by
  decide +kernel

end Libedi
