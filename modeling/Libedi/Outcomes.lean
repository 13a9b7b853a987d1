import Libedi.Globals

/-!
# What a conversion comes to

What a conversion comes to depends on its segments, its descriptor and where
`output` writes (`segmentsOutcome`).  Each step has its strings translated by the
descriptor and then, rendered as without a charset, is written (`performSteps`).
All else that the functions of `libedixml` do with their variables is in
`returns_edi2xmlConv`.

Without a charset nothing is refused, and a conversion comes to a document exactly
if all of its steps are carried out (`Carried`).
-/

namespace Libedi

/-! ## Strings -/

/-- The strings of an item that go through `escape_xml`. -/
def Xml.sources : Xml → List Bytes
  | .comment parts | .chars parts => parts.filterMap fun
    | .escaped src => some src
    | .plain _ => none
  | _ => []

/-- The strings of a step, and `none` where it goes astray. -/
def Step.sources : Step → List (Option Bytes)
  | .out xs => (xs.flatMap Xml.sources).map some
  | .fault _ => [none]
  | _ => []

/-- Why a string is not translated. -/
inductive Refusal where
  /-- `iconv` refuses it, with the text of the exception. -/
  | refused (msg : Bytes)
  | astray
  deriving DecidableEq

/-- A computation that hands strings to a descriptor. -/
abbrev Translation (σ : Type) := StateT (Descriptor σ) (Except Refusal)

section Translate

variable {σ : Type} (lib : Iconv σ) (heap : Realloc)

/-- A string through the descriptor. -/
def translateString (src : Bytes) : Translation σ Bytes
  | .off => .ok (src, .off)
  | .invalid => .error .astray
  | .opened cd =>
    match doConv lib heap cd src with
    | .text cd dst => .ok (dst, .opened cd)
    | .exception _ msg => .error (.refused msg)
    | .crash _ => .error .astray

/-- A part with its string translated. -/
def Part.translate : Part → Translation σ Part
  | .plain text => pure (.plain text)
  | .escaped src => .escaped <$> translateString lib heap src

/-- An item with its strings translated. -/
def Xml.translate : Xml → Translation σ Xml
  | .comment parts => .comment <$> parts.mapM (Part.translate lib heap)
  | .chars parts => .chars <$> parts.mapM (Part.translate lib heap)
  | x => pure x

/-- A step with its strings translated. -/
def Step.translate : Step → Translation σ Step
  | .out xs => .out <$> xs.mapM (Xml.translate lib heap)
  | .fault _ => throw .astray
  | s => pure s

end Translate

/-! ## Steps -/

/-- A step in the output, unless it goes astray. -/
def Step.emit (opts : Edi2xmlConfig) (out : Outbuf) : Step → Option Outbuf
  | .out xs => (out.output ⟨noArguments xs, xs.flatMap Xml.render⟩).toOption
  | .error _ => if opts.commentsErrors then none else some out
  | .element _ _ => some out
  | .fault _ => none

/-- What the conversion of a message comes to.  `offset` is that of the last segment
that was begun. -/
inductive Outcome where
  | document (out : Outbuf) (offset : Nat)
  | refused (msg : Bytes) (offset : Nat)
  | astray
  deriving DecidableEq

section Outcome

variable {σ : Type} (lib : Iconv σ) (heap : Realloc) (opts : Edi2xmlConfig)
  (all : EdistructAll)

/-- Some steps, one after the other. -/
def performSteps (conv : Descriptor σ) (out : Outbuf) :
    List Step → Except Refusal (Descriptor σ × Outbuf)
  | [] => .ok (conv, out)
  | s :: steps =>
    match (s.translate lib heap).run conv with
    | .error r => .error r
    | .ok (s, conv) =>
      match s.emit opts out with
      | none => .error .astray
      | some out => performSteps conv out steps

/-- What some segments come to. -/
def segmentsOutcome (conv : Descriptor σ) (out : Outbuf) (offset : Nat) :
    List EdiSegment → Outcome
  | [] => .document out offset
  | seg :: segs =>
    match performSteps lib heap opts conv out (convSegment opts all seg) with
    | .ok (conv, out) => segmentsOutcome conv out seg.offset segs
    | .error (.refused msg) => .refused msg seg.offset
    | .error .astray => .astray

/-- What a message comes to, if it is parsed. -/
def messageOutcome (conv : Descriptor σ) (out : Outbuf) (edi : EdiLib)
    (ediText : CString) : Option Outcome :=
  (ediParserParse (ediInit edi) (ediParserCreate edi none).2 ediText).2.map
    fun ichg => segmentsOutcome lib heap opts all conv out 0 ichg.segments

end Outcome

/-- Not one of the ends of `throw_exception` and `edi2xml_error`. -/
def Crash.Other (c : Crash) : Prop := c ≠ .pending ∧ c ≠ .noText

instance (c : Crash) : Decidable c.Other := inferInstanceAs (Decidable (_ ∧ _))

/-! ## Rendering behind the translation -/

section Render

variable {σ : Type} {lib : Iconv σ} {heap : Realloc} {α β : Type} {g : Globals σ}

/-- A function of `libedixml` ends as the translation of its strings does, and gives
back what `f` makes of them. -/
def Renders (g : Globals σ) (f : α → β) (r : Except Refusal (α × Descriptor σ))
    (e : Exit σ β) : Prop :=
  match r with
  | .ok (a, conv) => e = .returns { g with conv := conv } (f a)
  | .error (.refused msg) =>
    g.excpText = none ∧
      (∃ conv, e = .raised { g with conv := conv, excpText := some msg }) ∨
    g.excpText ≠ none ∧ e = .crashed .pending
  | .error .astray => ∃ c, e = .crashed c ∧ c.Other

theorem renders_pure (g : Globals σ) (f : α → β) (a : α) :
    Renders g f ((pure a : Translation σ α).run g.conv) (.returns g (f a)) := rfl

/-- One function behind another one. -/
theorem Renders.bind {γ δ : Type} {f : α → β} {f' : γ → δ}
    {x : Translation σ α} {y : α → Translation σ γ} {e : Exit σ β}
    {k : Globals σ → β → Exit σ δ} (hx : Renders g f (x.run g.conv) e)
    (hy : ∀ a conv, Renders { g with conv := conv } f' ((y a).run conv)
      (k { g with conv := conv } (f a))) :
    Renders g f' ((x >>= y).run g.conv) (e.bind k) := by
  rw [StateT.run_bind]
  unfold Renders at hx
  cases hrun : x.run g.conv with
  | ok p =>
    obtain ⟨a, conv⟩ := p
    rw [hrun] at hx
    subst hx
    exact hy a conv
  | error r =>
    rw [hrun] at hx
    cases r with
    | astray =>
      obtain ⟨c, rfl, hc⟩ := hx
      exact ⟨c, rfl, hc⟩
    | refused msg =>
      rcases hx with ⟨hnone, conv, rfl⟩ | ⟨hpending, rfl⟩
      · exact Or.inl ⟨hnone, conv, rfl⟩
      · exact Or.inr ⟨hpending, rfl⟩

/-- A result that is worked on, on both sides. -/
theorem Renders.map {γ δ : Type} {f : α → β} {f' : γ → δ} {x : Translation σ α}
    {h : α → γ} {k : β → δ} {e : Exit σ β} (hx : Renders g f (x.run g.conv) e)
    (heq : ∀ a, f' (h a) = k (f a)) :
    Renders g f' ((h <$> x).run g.conv) (e.bind fun g b => .returns g (k b)) := by
  rw [map_eq_pure_bind]
  refine hx.bind fun a conv => ?_
  rw [← heq]
  exact renders_pure _ f' (h a)

/-- A result in another form. -/
theorem Renders.as {γ : Type} {f : α → β} {f' : γ → β} {x : Translation σ α}
    {h : α → γ} {e : Exit σ β} (hx : Renders g f (x.run g.conv) e)
    (heq : ∀ a, f' (h a) = f a) : Renders g f' ((h <$> x).run g.conv) e := by
  have hmap : Renders g f' _ (e.bind fun g b => .returns g b) :=
    hx.map (h := h) (k := id) heq
  have hsame : (e.bind fun g b => .returns g b) = e := by cases e <;> rfl
  rwa [hsame] at hmap

/-- A list whose items are rendered one after the other. -/
theorem renders_mapM {γ : Type} {t : γ → Translation σ γ} {f : γ → Bytes}
    {e : Globals σ → γ → Exit σ Bytes} {es : Globals σ → List γ → Exit σ Bytes}
    (hnil : ∀ g, es g [] = .returns g [])
    (hcons : ∀ g x xs, es g (x :: xs) = (e g x).bind fun g text =>
      (es g xs).bind fun g rest => .returns g (text ++ rest))
    (h : ∀ g x, Renders g f ((t x).run g.conv) (e g x)) (g : Globals σ)
    (xs : List γ) :
    Renders g (·.flatMap f) ((xs.mapM t).run g.conv) (es g xs) := by
  induction xs generalizing g with
  | nil =>
    rw [hnil, List.mapM_nil]
    exact renders_pure g _ []
  | cons x xs ih =>
    rw [hcons, List.mapM_cons]
    refine (h g x).bind fun a conv => ?_
    rw [← map_eq_pure_bind]
    exact (ih { g with conv := conv }).map fun as => List.flatMap_cons

theorem renders_escapeXml (g : Globals σ) (src : Bytes) :
    Renders g escapeXml ((translateString lib heap src).run g.conv)
      (g.escapeXml lib heap src) := by
  unfold Globals.escapeXml
  cases hconv : g.conv with
  | off =>
    show Exit.returns g _ = .returns { g with conv := .off } _
    rw [← hconv]
  | invalid => exact ⟨.descriptor, rfl, by decide⟩
  | opened cd =>
    show Renders g escapeXml (translateString lib heap src (.opened cd)) _
    rw [translateString]
    dsimp only
    cases hrun : doConv lib heap cd src with
    | text cd dst => rfl
    | crash c => exact ⟨c, rfl, doConv_crash lib heap hrun⟩
    | exception cd msg =>
      unfold Globals.throwException
      dsimp only
      cases htext : g.excpText with
      | none => exact Or.inl ⟨htext, .opened cd, rfl⟩
      | some text => exact Or.inr ⟨by simp [htext], rfl⟩

/-- A part on its own. -/
def renderPart (lib : Iconv σ) (heap : Realloc) (g : Globals σ) :
    Part → Exit σ Bytes
  | .plain text => .returns g text
  | .escaped src => g.escapeXml lib heap src

theorem renders_renderParts (g : Globals σ) (parts : List Part) :
    Renders g (·.flatMap Part.render)
      ((parts.mapM (Part.translate lib heap)).run g.conv)
      (g.renderParts lib heap parts) := by
  refine renders_mapM (e := renderPart lib heap) (fun g => rfl)
    (fun g x xs => ?_) (fun g x => ?_) g parts
  · cases x <;> rfl
  · cases x with
    | plain text => exact renders_pure g Part.render (.plain text)
    | escaped src => exact (renders_escapeXml g src).as fun a => rfl

theorem renders_render (g : Globals σ) (x : Xml) :
    Renders g Xml.render ((x.translate lib heap).run g.conv)
      (g.render lib heap x) := by
  cases x with
  | comment parts =>
    exact (renders_renderParts g parts).map fun parts => by
      simp [Xml.render, Part.render]
  | chars parts => exact (renders_renderParts g parts).as fun parts => rfl
  | openTag name attrs => exact renders_pure g Xml.render (.openTag name attrs)
  | closeTag name => exact renders_pure g Xml.render (.closeTag name)
  | emptyTag name => exact renders_pure g Xml.render (.emptyTag name)

theorem renders_renderAll (g : Globals σ) (xs : List Xml) :
    Renders g (·.flatMap Xml.render)
      ((xs.mapM (Xml.translate lib heap)).run g.conv)
      (g.renderAll lib heap xs) :=
  renders_mapM (e := fun g => g.render lib heap) (fun _ => rfl)
    (fun _ _ _ => rfl) renders_render g xs

end Render

/-! ## Formats of translated steps -/

section Formats

variable {σ α : Type} {lib : Iconv σ} {heap : Realloc}

/-- A translation has `y` as its result only for `y`. -/
def OnlyFrom (t : α → Translation σ α) (y : α) : Prop :=
  ∀ x x' conv conv', (t x).run conv = .ok (x', conv') → (x' = y ↔ x = y)

theorem mapM_cons_ok {t : α → Translation σ α} {x : α} {xs xs' : List α}
    {conv conv' : Descriptor σ}
    (h : ((x :: xs).mapM t).run conv = .ok (xs', conv')) :
    ∃ y ys conv₁, xs' = y :: ys ∧ (t x).run conv = .ok (y, conv₁) ∧
      (xs.mapM t).run conv₁ = .ok (ys, conv') := by
  rw [List.mapM_cons, StateT.run_bind] at h
  cases hx : (t x).run conv with
  | error r =>
    rw [hx] at h
    cases h
  | ok p =>
    obtain ⟨y, conv₁⟩ := p
    rw [hx] at h
    replace h : (xs.mapM t >>= fun ys => pure (y :: ys)).run conv₁
      = Except.ok (xs', conv') := h
    rw [StateT.run_bind] at h
    cases hxs : (xs.mapM t).run conv₁ with
    | error r =>
      rw [hxs] at h
      cases h
    | ok p =>
      obtain ⟨ys, conv₂⟩ := p
      rw [hxs] at h
      cases h
      exact ⟨y, ys, conv₁, rfl, rfl, hxs⟩

theorem OnlyFrom.mapM {t : α → Translation σ α} {ys : List α}
    (h : ∀ y ∈ ys, OnlyFrom t y) : OnlyFrom (·.mapM t) ys := by
  intro xs xs' conv conv' hrun
  induction xs generalizing xs' ys conv with
  | nil =>
    cases hrun
    exact Iff.rfl
  | cons x xs ih =>
    obtain ⟨z, zs, conv₁, rfl, hx, hxs⟩ := mapM_cons_ok hrun
    cases ys with
    | nil => simp
    | cons y ys =>
      rw [List.forall_mem_cons] at h
      rw [List.cons.injEq, List.cons.injEq, h.1 x z conv conv₁ hx, ih h.2 zs conv₁ hxs]

theorem onlyFrom_plain (text : Bytes) :
    OnlyFrom (Part.translate lib heap) (.plain text) := by
  intro x x' conv conv' hrun
  cases x with
  | plain t =>
    cases hrun
    exact Iff.rfl
  | escaped src =>
    rw [Part.translate, StateT.run_map] at hrun
    cases hsrc : (translateString lib heap src).run conv with
    | error r =>
      rw [hsrc] at hrun
      cases hrun
    | ok p =>
      rw [hsrc] at hrun
      cases hrun
      simp

/-- The items of a translated step are of the same kinds, and their tags are the
same. -/
theorem translate_cases {x x' : Xml} {conv conv' : Descriptor σ}
    (h : (x.translate lib heap).run conv = .ok (x', conv')) :
    x' = x ∨
    (∃ parts parts', x = .comment parts ∧ x' = .comment parts') ∨
    ∃ parts parts', x = .chars parts ∧ x' = .chars parts' ∧
      (parts.mapM (Part.translate lib heap)).run conv = .ok (parts', conv') := by
  cases x with
  | comment parts =>
    rw [Xml.translate, StateT.run_map] at h
    cases hparts : (parts.mapM (Part.translate lib heap)).run conv with
    | error r =>
      rw [hparts] at h
      cases h
    | ok p =>
      rw [hparts] at h
      cases h
      exact Or.inr (Or.inl ⟨_, _, rfl, rfl⟩)
  | chars parts =>
    rw [Xml.translate, StateT.run_map] at h
    cases hparts : (parts.mapM (Part.translate lib heap)).run conv with
    | error r =>
      rw [hparts] at h
      cases h
    | ok p =>
      rw [hparts] at h
      cases h
      exact Or.inr (Or.inr ⟨_, _, rfl, rfl, hparts⟩)
  | openTag name attrs =>
    cases h
    exact Or.inl rfl
  | closeTag name =>
    cases h
    exact Or.inl rfl
  | emptyTag name =>
    cases h
    exact Or.inl rfl

theorem onlyFrom_openTag (name attrs : Bytes) :
    OnlyFrom (Xml.translate lib heap) (.openTag name attrs) := by
  intro x x' conv conv' hrun
  obtain rfl | ⟨parts, parts', rfl, rfl⟩ | ⟨parts, parts', rfl, rfl, -⟩ :=
    translate_cases hrun <;> simp

theorem onlyFrom_closeTag (name : Bytes) :
    OnlyFrom (Xml.translate lib heap) (.closeTag name) := by
  intro x x' conv conv' hrun
  obtain rfl | ⟨parts, parts', rfl, rfl⟩ | ⟨parts, parts', rfl, rfl, -⟩ :=
    translate_cases hrun <;> simp

theorem onlyFrom_newline : OnlyFrom (Xml.translate lib heap) newline := by
  intro x x' conv conv' hrun
  obtain rfl | ⟨parts, parts', rfl, rfl⟩ | ⟨parts, parts', rfl, rfl, hparts⟩ :=
    translate_cases hrun
  · exact Iff.rfl
  · simp [newline]
  · have hplain := OnlyFrom.mapM
      (List.forall_mem_singleton.2 (onlyFrom_plain (ascii "\n")))
      parts parts' conv conv' hparts
    simpa [newline] using hplain

/-- The strings of a step say nothing about its format. -/
theorem noArguments_translate {xs xs' : List Xml} {conv conv' : Descriptor σ}
    (h : (xs.mapM (Xml.translate lib heap)).run conv = .ok (xs', conv')) :
    noArguments xs' = noArguments xs := by
  have hsame : ∀ x, OnlyFrom (Xml.translate lib heap) x →
      (xs' = [x, newline] ↔ xs = [x, newline]) := fun x hx =>
    OnlyFrom.mapM (List.forall_mem_cons.2
      ⟨hx, List.forall_mem_singleton.2 onlyFrom_newline⟩) xs xs' conv conv' h
  unfold noArguments
  simp only [List.mem_cons, List.not_mem_nil, or_false, hsame,
    onlyFrom_openTag, onlyFrom_closeTag]

end Formats

/-! ## No open descriptor -/

section Idle

variable {σ α β : Type} {lib : Iconv σ} {heap : Realloc}

/-- Without an open descriptor nothing is refused, and none is opened. -/
def Quiet (x : Translation σ α) : Prop :=
  ∀ conv, (∀ cd, conv ≠ .opened cd) →
    x.run conv = .error .astray ∨ ∃ a, x.run conv = .ok (a, conv)

theorem quiet_pure (a : α) : Quiet (pure a : Translation σ α) :=
  fun _ _ => Or.inr ⟨a, rfl⟩

theorem Quiet.bind {x : Translation σ α} {y : α → Translation σ β}
    (hx : Quiet x) (hy : ∀ a, Quiet (y a)) : Quiet (x >>= y) := by
  intro conv hconv
  rw [StateT.run_bind]
  rcases hx conv hconv with hrun | ⟨a, hrun⟩
  · rw [hrun]
    exact Or.inl rfl
  · rw [hrun]
    exact hy a conv hconv

theorem Quiet.map {x : Translation σ α} (hx : Quiet x) (f : α → β) :
    Quiet (f <$> x) := by
  rw [map_eq_pure_bind]
  exact hx.bind fun a => quiet_pure (f a)

theorem quiet_mapM {t : α → Translation σ β} (h : ∀ a, Quiet (t a))
    (as : List α) : Quiet (as.mapM t) := by
  induction as with
  | nil => exact quiet_pure []
  | cons a as ih =>
    rw [List.mapM_cons]
    exact (h a).bind fun b => ih.bind fun bs => quiet_pure (b :: bs)

theorem quiet_translateString (src : Bytes) :
    Quiet (translateString lib heap src) := by
  intro conv hconv
  cases conv with
  | invalid => exact Or.inl rfl
  | off => exact Or.inr ⟨src, rfl⟩
  | opened cd => exact absurd rfl (hconv cd)

theorem quiet_parts (parts : List Part) :
    Quiet (parts.mapM (Part.translate lib heap)) := by
  refine quiet_mapM (fun part => ?_) parts
  cases part with
  | plain text => exact quiet_pure _
  | escaped src => exact (quiet_translateString src).map Part.escaped

theorem quiet_step (s : Step) : Quiet (s.translate lib heap) := by
  cases s with
  | out xs =>
    refine Quiet.map (quiet_mapM (fun x => ?_) xs) Step.out
    cases x with
    | comment parts => exact (quiet_parts parts).map Xml.comment
    | chars parts => exact (quiet_parts parts).map Xml.chars
    | _ => exact quiet_pure _
  | fault f => exact fun _ _ => Or.inl rfl
  | _ => exact quiet_pure _

variable {opts : Edi2xmlConfig} {all : EdistructAll} {conv : Descriptor σ}
  (hconv : ∀ cd, conv ≠ .opened cd)
include hconv

theorem performSteps_idle (out : Outbuf) (steps : List Step) :
    performSteps lib heap opts conv out steps = .error .astray ∨
      ∃ out', performSteps lib heap opts conv out steps = .ok (conv, out') := by
  induction steps generalizing out with
  | nil => exact Or.inr ⟨out, rfl⟩
  | cons s steps ih =>
    rw [performSteps]
    rcases @quiet_step σ lib heap s conv hconv with hs | ⟨s', hs⟩
    · rw [hs]
      exact Or.inl rfl
    · rw [hs]
      dsimp only
      cases s'.emit opts out with
      | none => exact Or.inl rfl
      | some out => exact ih out

theorem segmentsOutcome_idle (out : Outbuf) (offset : Nat)
    (segs : List EdiSegment) :
    segmentsOutcome lib heap opts all conv out offset segs = .astray ∨
      ∃ out' offset', segmentsOutcome lib heap opts all conv out offset segs
        = .document out' offset' := by
  induction segs generalizing out offset with
  | nil => exact Or.inr ⟨out, offset, rfl⟩
  | cons seg segs ih =>
    rw [segmentsOutcome]
    rcases @performSteps_idle σ lib heap opts conv hconv out
        (convSegment opts all seg) with hseg | ⟨out', hseg⟩
    · rw [hseg]
      exact Or.inl rfl
    · rw [hseg]
      exact ih out' seg.offset

end Idle

/-! ## Without a charset -/

/-- The calls of `output` that some steps make. -/
def outputs (steps : List Step) : List OutputCall :=
  steps.flatMap fun
    | .out xs => [⟨noArguments xs, xs.flatMap Xml.render⟩]
    | _ => []

/-- The texts behind those that are there. -/
def Outbuf.append : Outbuf → List Bytes → Outbuf
  | .stdout texts, more => .stdout (texts ++ more)
  | .buffer texts, more => .buffer (texts ++ more)
  | .gone, _ => .gone

/-- Each call works at the position where those in front of it end. -/
def OutputsFit : Nat → List OutputCall → Prop
  | _, [] => True
  | pos, c :: calls =>
    OutputBuffer.Fits pos c.noArguments c.text.length ∧
      OutputsFit (pos + c.text.length) calls

instance decidableOutputsFit :
    ∀ (pos : Nat) (calls : List OutputCall), Decidable (OutputsFit pos calls)
  | _, [] => isTrue trivial
  | pos, c :: calls =>
    have := decidableOutputsFit (pos + c.text.length) calls
    inferInstanceAs (Decidable (_ ∧ _))

/-- `output` can do all of these calls. -/
def Outbuf.Takes : Outbuf → List OutputCall → Prop
  | .stdout _, _ => True
  | .buffer texts, calls => OutputsFit texts.flatten.length calls
  | .gone, calls => calls = []

/-- The steps can all be done. -/
structure Carried (opts : Edi2xmlConfig) (out : Outbuf) (steps : List Step) :
    Prop where
  noFault : NoFault steps
  noError : opts.commentsErrors = true → errors steps = []
  takes : out.Takes (outputs steps)

/-- Some steps without translation. -/
def emitSteps (opts : Edi2xmlConfig) (out : Outbuf) (steps : List Step) :
    Option Outbuf :=
  steps.foldlM (Step.emit opts) out

/-- What a conversion comes to that has these steps, and nothing to translate. -/
def emitOutcome (opts : Edi2xmlConfig) (out : Outbuf) (offset : Nat)
    (steps : List Step) : Outcome :=
  match emitSteps opts out steps with
  | none => .astray
  | some out => .document out offset

section Off

variable {σ : Type} {lib : Iconv σ} {heap : Realloc} {opts : Edi2xmlConfig}
  {all : EdistructAll}

theorem outputs_out (xs : List Xml) (steps : List Step) :
    outputs (.out xs :: steps)
      = ⟨noArguments xs, xs.flatMap Xml.render⟩ :: outputs steps := rfl

/-- The texts are those of the items that are written. -/
theorem flatten_outputs (steps : List Step) :
    ((outputs steps).map OutputCall.text).flatten
      = (written steps).flatMap Xml.render := by
  induction steps with
  | nil => rfl
  | cons s steps ih =>
    cases s with
    | out xs =>
      rw [outputs_out, List.map_cons, List.flatten_cons, ih, written_out,
        List.flatMap_append]
    | _ => exact ih

theorem Outbuf.append_append (out : Outbuf) (more rest : List Bytes) :
    (out.append more).append rest = out.append (more ++ rest) := by
  cases out <;> simp [Outbuf.append]

theorem Outbuf.append_nil (out : Outbuf) : out.append [] = out := by
  cases out <;> simp [Outbuf.append]

theorem Outbuf.texts_append {out : Outbuf} (hout : out ≠ .gone)
    (more : List Bytes) : (out.append more).texts = out.texts ++ more := by
  cases out with
  | gone => exact absurd rfl hout
  | _ => rfl

theorem emitSteps_append (out : Outbuf) (ss ts : List Step) :
    emitSteps opts out (ss ++ ts)
      = (emitSteps opts out ss).bind fun out => emitSteps opts out ts := by
  rw [emitSteps, List.foldlM_append]
  rfl

/-- One call in front of others. -/
theorem Outbuf.takes_cons (out : Outbuf) (c : OutputCall)
    (calls : List OutputCall) :
    out.Takes (c :: calls) ↔
      out.output c = .ok (out.append [c.text]) ∧
        (out.append [c.text]).Takes calls := by
  cases out with
  | stdout texts => exact iff_of_true trivial ⟨rfl, trivial⟩
  | gone => exact iff_of_false (by simp [Outbuf.Takes]) (fun h => by cases h.1)
  | buffer texts =>
    have hlength : (texts ++ [c.text]).flatten.length
        = texts.flatten.length + c.text.length := by
      rw [List.flatten_append, List.length_append, List.flatten_singleton]
    show _ ∧ _ ↔ _ ∧ OutputsFit (texts ++ [c.text]).flatten.length calls
    rw [hlength, Outbuf.output]
    refine and_congr ?_ Iff.rfl
    split_ifs with hfits
    · exact iff_of_true hfits rfl
    · exact iff_of_false hfits (fun h => by cases h)

theorem Outbuf.output_ok {out out' : Outbuf} {c : OutputCall}
    (h : out.output c = .ok out') : out' = out.append [c.text] := by
  unfold Outbuf.output at h
  split at h
  · cases h
    rfl
  · split_ifs at h
    cases h
    rfl
  · cases h

/-- Steps are done to the end exactly if all of them can be done. -/
theorem emitSteps_eq_some_iff {out out' : Outbuf} {steps : List Step} :
    emitSteps opts out steps = some out' ↔
      Carried opts out steps ∧
        out' = out.append ((outputs steps).map OutputCall.text) := by
  induction steps generalizing out with
  | nil =>
    rw [show outputs [] = [] from rfl, List.map_nil, Outbuf.append_nil]
    refine ⟨fun h => ?_, fun h => congrArg some h.2.symm⟩
    obtain rfl := Option.some.inj h
    refine ⟨⟨noFault_nil, fun _ => rfl, ?_⟩, rfl⟩
    cases out <;> trivial
  | cons s steps ih =>
    rw [emitSteps, List.foldlM_cons]
    cases s with
    | out xs =>
      have hcarried : Carried opts out (.out xs :: steps) ↔
          out.output ⟨noArguments xs, xs.flatMap Xml.render⟩
            = .ok (out.append [xs.flatMap Xml.render]) ∧
          Carried opts (out.append [xs.flatMap Xml.render]) steps := by
        constructor
        · intro h
          have htakes := h.takes
          rw [outputs_out, Outbuf.takes_cons] at htakes
          exact ⟨htakes.1, (noFault_out steps xs).1 h.noFault, h.noError,
            htakes.2⟩
        · rintro ⟨hout, h⟩
          refine ⟨(noFault_out steps xs).2 h.noFault, h.noError, ?_⟩
          rw [outputs_out, Outbuf.takes_cons]
          exact ⟨hout, h.takes⟩
      have happend := Outbuf.append_append out [xs.flatMap Xml.render]
        ((outputs steps).map OutputCall.text)
      rw [List.singleton_append] at happend
      rw [hcarried, outputs_out, List.map_cons, ← happend, and_assoc, ← ih,
        Step.emit]
      cases hout : out.output ⟨noArguments xs, xs.flatMap Xml.render⟩ with
      | error crash => exact iff_of_false (fun h => nomatch h) (fun h => nomatch h.1)
      | ok next =>
        obtain rfl := Outbuf.output_ok hout
        exact (and_iff_right rfl).symm
    | error msg =>
      rw [Step.emit]
      split_ifs with hcomments
      · refine iff_of_false (fun h => nomatch h) ?_
        rintro ⟨h, -⟩
        exact absurd (h.noError hcomments) (by simp)
      · refine ih.trans (and_congr ?_ Iff.rfl)
        exact ⟨fun h => ⟨(noFault_error steps msg).2 h.noFault,
            fun hc => absurd hc hcomments, h.takes⟩,
          fun h => ⟨(noFault_error steps msg).1 h.noFault,
            fun hc => absurd hc hcomments, h.takes⟩⟩
    | element name val =>
      refine ih.trans (and_congr ?_ Iff.rfl)
      exact ⟨fun h => ⟨(noFault_element steps name val).2 h.noFault, h.noError,
          h.takes⟩,
        fun h => ⟨(noFault_element steps name val).1 h.noFault, h.noError,
          h.takes⟩⟩
    | fault f =>
      refine iff_of_false (fun h => nomatch h) ?_
      rintro ⟨h, -⟩
      exact not_noFault_fault steps f h.noFault

/-- A string without a charset stays as it is. -/
theorem mapM_off {α : Type} {t : α → Translation σ α}
    (h : ∀ a, (t a).run .off = .ok (a, .off)) (as : List α) :
    (as.mapM t).run .off = .ok (as, .off) := by
  induction as with
  | nil => rfl
  | cons a as ih =>
    rw [List.mapM_cons, StateT.run_bind, h]
    show ((as.mapM t >>= fun as => pure (a :: as)).run .off) = _
    rw [StateT.run_bind, ih]
    rfl

theorem translate_off (xs : List Xml) :
    (xs.mapM (Xml.translate lib heap)).run .off = .ok (xs, .off) := by
  have hparts : ∀ parts : List Part,
      (parts.mapM (Part.translate lib heap)).run .off = .ok (parts, .off) :=
    mapM_off fun part => by cases part <;> rfl
  refine mapM_off (fun x => ?_) xs
  cases x with
  | comment parts => rw [Xml.translate, StateT.run_map, hparts]; rfl
  | chars parts => rw [Xml.translate, StateT.run_map, hparts]; rfl
  | _ => rfl

theorem performSteps_off (out : Outbuf) (steps : List Step) :
    performSteps lib heap opts .off out steps
      = match emitSteps opts out steps with
        | none => .error .astray
        | some out => .ok (.off, out) := by
  induction steps generalizing out with
  | nil => rfl
  | cons s steps ih =>
    have hnext : performSteps lib heap opts .off out (s :: steps)
        = match s.emit opts out with
          | none => .error .astray
          | some out => performSteps lib heap opts .off out steps := by
      rw [performSteps]
      cases s with
      | out xs => rw [Step.translate, StateT.run_map, translate_off]; rfl
      | _ => rfl
    rw [hnext, emitSteps, List.foldlM_cons]
    cases s.emit opts out with
    | none => rfl
    | some out => exact ih out

/-- Without a charset a conversion comes to a document exactly if all of its steps
can be done. -/
theorem segmentsOutcome_off (out : Outbuf) (offset : Nat)
    (segs : List EdiSegment) :
    ∃ offset', segmentsOutcome lib heap opts all .off out offset segs
      = emitOutcome opts out offset' (convSegments opts all segs) := by
  induction segs generalizing out offset with
  | nil => exact ⟨offset, rfl⟩
  | cons seg segs ih =>
    rw [segmentsOutcome, performSteps_off, convSegments, List.flatMap_cons]
    unfold emitOutcome at ih ⊢
    rw [emitSteps_append]
    cases emitSteps opts out (convSegment opts all seg) with
    | none => exact ⟨offset, rfl⟩
    | some out => exact ih out seg.offset

end Off

/-! ## What is written is kept -/

section Kept

variable {σ : Type} {lib : Iconv σ} {heap : Realloc} {opts : Edi2xmlConfig}
  {all : EdistructAll}

theorem Step.emit_append {s : Step} {out out' : Outbuf}
    (h : s.emit opts out = some out') : ∃ more, out' = out.append more := by
  cases s with
  | out xs =>
    rw [Step.emit] at h
    cases hout : out.output ⟨noArguments xs, xs.flatMap Xml.render⟩ with
    | error crash =>
      rw [hout] at h
      cases h
    | ok next =>
      rw [hout] at h
      cases h
      exact ⟨_, Outbuf.output_ok hout⟩
  | error msg =>
    rw [Step.emit] at h
    split_ifs at h
    obtain rfl := Option.some.inj h
    exact ⟨[], (Outbuf.append_nil _).symm⟩
  | element name val =>
    obtain rfl := Option.some.inj h
    exact ⟨[], (Outbuf.append_nil _).symm⟩
  | fault f => cases h

theorem performSteps_append {steps : List Step} {conv conv' : Descriptor σ}
    {out out' : Outbuf}
    (h : performSteps lib heap opts conv out steps = .ok (conv', out')) :
    ∃ more, out' = out.append more := by
  induction steps generalizing conv out with
  | nil =>
    cases h
    exact ⟨[], (Outbuf.append_nil _).symm⟩
  | cons s steps ih =>
    rw [performSteps] at h
    cases hs : (s.translate lib heap).run conv with
    | error r =>
      rw [hs] at h
      cases h
    | ok p =>
      rw [hs] at h
      dsimp only at h
      cases hemit : p.1.emit opts out with
      | none =>
        rw [hemit] at h
        cases h
      | some next =>
        rw [hemit] at h
        obtain ⟨more, rfl⟩ := Step.emit_append hemit
        obtain ⟨rest, rfl⟩ := ih h
        exact ⟨more ++ rest, out.append_append more rest⟩

theorem segmentsOutcome_append {segs : List EdiSegment} {conv : Descriptor σ}
    {out out' : Outbuf} {offset offset' : Nat}
    (h : segmentsOutcome lib heap opts all conv out offset segs
      = .document out' offset') : ∃ more, out' = out.append more := by
  induction segs generalizing conv out offset with
  | nil =>
    cases h
    exact ⟨[], (Outbuf.append_nil _).symm⟩
  | cons seg segs ih =>
    rw [segmentsOutcome] at h
    cases hseg : performSteps lib heap opts conv out (convSegment opts all seg) with
    | error r =>
      rw [hseg] at h
      cases r <;> cases h
    | ok p =>
      rw [hseg] at h
      obtain ⟨more, hmore⟩ := performSteps_append hseg
      obtain ⟨rest, rfl⟩ := ih h
      exact ⟨more ++ rest, by rw [hmore, Outbuf.append_append]⟩

end Kept

/-! ## The functions -/

section Functions

variable {σ : Type} {lib : Iconv σ} {heap : Realloc} {opts : Edi2xmlConfig}
  {all : EdistructAll} {g : Globals σ}

/-- Steps end as `performSteps` says. -/
def Performs (g : Globals σ) (r : Except Refusal (Descriptor σ × Outbuf))
    (e : Exit σ Unit) : Prop :=
  match r with
  | .ok (conv, out) => e = .returns { g with conv := conv, outbuf := out } ()
  | .error (.refused msg) =>
    g.excpText = none ∧ (∃ conv out, e = .raised { g with
      conv := conv
      outbuf := out
      excpText := some msg }) ∨
    g.excpText ≠ none ∧ e = .crashed .pending
  | .error .astray => ∃ c, e = .crashed c ∧ c.Other

theorem output_other {out : Outbuf} {c : OutputCall} {crash : Crash}
    (h : out.output c = .error crash) : crash.Other := by
  unfold Outbuf.output at h
  split at h
  · cases h
  · split_ifs at h
    cases h
    decide
  · cases h
    decide

/-- One step, in front of others. -/
theorem performs_cons (g : Globals σ) (s : Step) {steps : List Step}
    (hsteps : ∀ g : Globals σ, Performs g
      (performSteps lib heap opts g.conv g.outbuf steps)
      (g.runSteps lib heap opts steps)) :
    Performs g (performSteps lib heap opts g.conv g.outbuf (s :: steps))
      (g.runSteps lib heap opts (s :: steps)) := by
  rw [performSteps, Globals.runSteps]
  cases s with
  | out xs =>
    have hxs : Renders g _ _ (g.renderAll lib heap xs) := renders_renderAll g xs
    rw [Step.translate, StateT.run_map, Globals.runStep]
    unfold Renders at hxs
    cases hrun : (xs.mapM (Xml.translate lib heap)).run g.conv with
    | ok p =>
      obtain ⟨xs', conv⟩ := p
      rw [hrun] at hxs
      have hfixed := noArguments_translate hrun
      show Performs g (match (Step.out xs').emit opts g.outbuf with
        | none => .error .astray
        | some out => performSteps lib heap opts conv out steps) _
      rw [hxs, Exit.bind, Step.emit, hfixed, Globals.output]
      dsimp only
      cases hout : g.outbuf.output ⟨noArguments xs, xs'.flatMap Xml.render⟩ with
      | ok out => exact hsteps { g with conv := conv, outbuf := out }
      | error crash => exact ⟨crash, rfl, output_other hout⟩
    | error r =>
      rw [hrun] at hxs
      cases r with
      | astray =>
        obtain ⟨c, hc, hother⟩ := hxs
        exact ⟨c, by rw [hc]; rfl, hother⟩
      | refused msg =>
        rcases hxs with ⟨hnone, conv, hraised⟩ | ⟨hpending, hcrash⟩
        · exact Or.inl ⟨hnone, conv, g.outbuf, by rw [hraised]; rfl⟩
        · exact Or.inr ⟨hpending, by rw [hcrash]; rfl⟩
  | error msg =>
    show Performs g (match (Step.error msg).emit opts g.outbuf with
      | none => .error .astray
      | some out => performSteps lib heap opts g.conv out steps) _
    rw [Step.emit, Globals.runStep]
    split_ifs
    · exact ⟨.format, rfl, by decide⟩
    · exact hsteps g
  | element name val => exact hsteps g
  | fault f => exact ⟨.fault f, rfl, by simp [Crash.Other]⟩

theorem performs_runSteps (g : Globals σ) (steps : List Step) :
    Performs g (performSteps lib heap opts g.conv g.outbuf steps)
      (g.runSteps lib heap opts steps) := by
  induction steps generalizing g with
  | nil => rfl
  | cons s steps ih => exact performs_cons g s ih

/-- What `convLoop` comes to. -/
def Comes (g : Globals σ) (o : Outcome) (e : Exit σ Unit) : Prop :=
  match o with
  | .document out offset => ∃ conv, e = .returns { g with
      conv := conv
      outbuf := out
      errOffset := offset } () ∧
    ((∀ cd, g.conv ≠ .opened cd) → conv = g.conv)
  | .refused msg offset =>
    g.excpText = none ∧ (∃ conv out, e = .raised { g with
      conv := conv
      outbuf := out
      excpText := some msg
      errOffset := offset }) ∨
    g.excpText ≠ none ∧ e = .crashed .pending
  | .astray => ∃ c, e = .crashed c ∧ c.Other

variable (lib heap opts all)

theorem comes_convLoop (g : Globals σ) (segs : List EdiSegment) :
    Comes g (segmentsOutcome lib heap opts all g.conv g.outbuf g.errOffset segs)
      (g.convLoop lib heap opts all segs) := by
  induction segs generalizing g with
  | nil => exact ⟨g.conv, rfl, fun _ => rfl⟩
  | cons seg segs ih =>
    have hseg : Performs { g with errOffset := seg.offset }
        (performSteps lib heap opts g.conv g.outbuf (convSegment opts all seg)) _ :=
      performs_runSteps _ (convSegment opts all seg)
    rw [Globals.convLoop, segmentsOutcome]
    unfold Performs at hseg
    cases hrun : performSteps lib heap opts g.conv g.outbuf
        (convSegment opts all seg) with
    | ok p =>
      obtain ⟨conv, out⟩ := p
      rw [hrun] at hseg
      have hrest : Comes { g with
          conv := conv
          outbuf := out
          errOffset := seg.offset }
        (segmentsOutcome lib heap opts all conv out seg.offset segs) _ := ih _
      dsimp only at hseg ⊢
      rw [hseg, Exit.bind]
      cases hsegs : segmentsOutcome lib heap opts all conv out seg.offset segs with
      | document more offset =>
        rw [hsegs] at hrest
        obtain ⟨conv', hloop, hidle⟩ := hrest
        refine ⟨conv', hloop, fun hconv => ?_⟩
        have hsame : conv = g.conv := by
          rcases @performSteps_idle σ lib heap opts _ hconv g.outbuf
            (convSegment opts all seg) with hseg | ⟨out', hseg⟩
          · rw [hrun] at hseg
            cases hseg
          · rw [hrun] at hseg
            cases hseg
            rfl
        subst hsame
        exact hidle hconv
      | refused msg offset =>
        rw [hsegs] at hrest
        exact hrest
      | astray =>
        rw [hsegs] at hrest
        exact hrest
    | error r =>
      rw [hrun] at hseg
      cases r with
      | astray =>
        obtain ⟨c, hc, hother⟩ := hseg
        exact ⟨c, by rw [hc]; rfl, hother⟩
      | refused msg =>
        rcases hseg with ⟨hnone, conv, out, hraised⟩ | ⟨hpending, hcrash⟩
        · exact Or.inl ⟨hnone, conv, out, by rw [hraised]; rfl⟩
        · exact Or.inr ⟨hpending, by rw [hcrash]; rfl⟩

/-- The handler of exceptions keeps the text, and a piece of the message.  With
comments for errors it does not come to its end. -/
theorem catchException_eq (g : Globals σ) (ediText : CString) :
    g.catchException lib heap opts ediText
      = if opts.commentsErrors then .crashed .format
        else .returns { g with
          errSegment := (ediText.bytes.drop g.errOffset).take 100 } (-1) := by
  rw [Globals.catchException, error, outIf, Globals.runSteps, Globals.runStep]
  split_ifs <;> rfl

/-- What `edi2xml_conv` comes to. -/
def Returns (opts : Edi2xmlConfig) (g : Globals σ) (ediText : CString)
    (o : Option Outcome) (e : Exit σ Int) : Prop :=
  match o with
  | none => e = .returns { g with
      errOffset := 0
      errSegment := []
      edi := ediInit g.edi } (-1)
  | some (.document out offset) => ∃ conv, e = .returns { g with
      conv := conv
      outbuf := out
      errOffset := offset
      errSegment := []
      edi := ediInit g.edi } 0 ∧
    ((∀ cd, g.conv ≠ .opened cd) → conv = g.conv)
  | some (.refused msg offset) =>
    g.excpText = none ∧ (if opts.commentsErrors then e = .crashed .format
      else ∃ conv out, e = .returns { g with
        conv := conv
        outbuf := out
        excpText := some msg
        errOffset := offset
        errSegment := (ediText.bytes.drop offset).take 100
        edi := ediInit g.edi } (-1)) ∨
    g.excpText ≠ none ∧ e = .crashed .pending
  | some .astray => ∃ c, e = .crashed c ∧ c.Other

theorem returns_edi2xmlConv (g : Globals σ) (ediText : CString) :
    Returns opts g ediText
      (messageOutcome lib heap opts all g.conv g.outbuf g.edi ediText)
      (g.edi2xmlConv lib heap opts all ediText) := by
  have hedi : (ediParserCreate g.edi none).1 = ediInit g.edi := rfl
  unfold Globals.edi2xmlConv messageOutcome
  dsimp only
  rw [hedi]
  cases (ediParserParse (ediInit g.edi) (ediParserCreate g.edi none).2
      ediText).2 with
  | none => rfl
  | some ichg =>
    have hloop : Comes { g with
        errOffset := 0
        errSegment := []
        edi := ediInit g.edi } _ _ := comes_convLoop lib heap opts all _ ichg.segments
    dsimp only [Option.map] at hloop ⊢
    cases hsegs : segmentsOutcome lib heap opts all g.conv g.outbuf 0
        ichg.segments with
    | document out offset =>
      rw [hsegs] at hloop
      obtain ⟨conv, hreturns, hidle⟩ := hloop
      exact ⟨conv, by rw [hreturns], hidle⟩
    | astray =>
      rw [hsegs] at hloop
      obtain ⟨c, hc, hother⟩ := hloop
      exact ⟨c, by rw [hc], hother⟩
    | refused msg offset =>
      rw [hsegs] at hloop
      rcases hloop with ⟨hnone, conv, out, hraised⟩ | ⟨hpending, hcrash⟩
      · refine Or.inl ⟨hnone, ?_⟩
        rw [hraised]
        dsimp only
        rw [catchException_eq]
        split_ifs
        · rfl
        · exact ⟨conv, out, rfl⟩
      · exact Or.inr ⟨hpending, by rw [hcrash]⟩

/-- Without a charset the loop comes to its end exactly if all of its steps can be
done, and then it has written what they amount to. -/
theorem convLoop_off (hoff : g.conv = .off) (segs : List EdiSegment) :
    ((∃ h, g.convLoop lib heap opts all segs = .returns h ()) ↔
      Carried opts g.outbuf (convSegments opts all segs)) ∧
    ∀ h, g.convLoop lib heap opts all segs = .returns h () →
      h.outbuf = g.outbuf.append
        ((outputs (convSegments opts all segs)).map OutputCall.text) := by
  have hcomes := comes_convLoop lib heap opts all g segs
  obtain ⟨offset, houtcome⟩ := @segmentsOutcome_off σ lib heap opts all g.outbuf
    g.errOffset segs
  rw [hoff, houtcome, emitOutcome] at hcomes
  cases hemit : emitSteps opts g.outbuf (convSegments opts all segs) with
  | none =>
    rw [hemit] at hcomes
    obtain ⟨c, hc, -⟩ := hcomes
    rw [hc]
    have hnot : ¬ Carried opts g.outbuf (convSegments opts all segs) := by
      intro h
      have hsome := emitSteps_eq_some_iff.2 ⟨h, rfl⟩
      rw [hemit] at hsome
      cases hsome
    refine ⟨iff_of_false ?_ hnot, fun h hh => nomatch hh⟩
    rintro ⟨h, hh⟩
    cases hh
  | some out =>
    obtain ⟨hcarried, hout⟩ := emitSteps_eq_some_iff.1 hemit
    rw [hemit] at hcomes
    obtain ⟨conv, hreturns, -⟩ := hcomes
    rw [hreturns]
    refine ⟨iff_of_true ⟨_, rfl⟩ hcarried, fun h hh => ?_⟩
    obtain ⟨rfl, -⟩ := Exit.returns.inj hh
    exact hout

/-- And so does `edi2xml_conv`. -/
theorem edi2xmlConv_off (hoff : g.conv = .off) (ediText : CString) :
    (∃ h rc, g.edi2xmlConv lib heap opts all ediText = .returns h rc) ↔
      ∀ ichg, (ediParserParse (ediInit g.edi) (ediParserCreate g.edi none).2
          ediText).2 = some ichg →
        Carried opts g.outbuf (convSegments opts all ichg.segments) := by
  have hreturns := returns_edi2xmlConv lib heap opts all g ediText
  unfold messageOutcome at hreturns
  cases hparse : (ediParserParse (ediInit g.edi) (ediParserCreate g.edi none).2
      ediText).2 with
  | none =>
    rw [hparse] at hreturns
    exact iff_of_true ⟨_, _, hreturns⟩ (fun ichg h => nomatch h)
  | some ichg =>
    obtain ⟨offset, houtcome⟩ := @segmentsOutcome_off σ lib heap opts all g.outbuf
      0 ichg.segments
    rw [hparse, Option.map_some, hoff, houtcome, emitOutcome] at hreturns
    have hall : (∀ ichg', some ichg = some ichg' →
        Carried opts g.outbuf (convSegments opts all ichg'.segments)) ↔
        (emitSteps opts g.outbuf (convSegments opts all ichg.segments)).isSome
          = true := by
      rw [Option.isSome_iff_exists]
      constructor
      · exact fun h => ⟨_, emitSteps_eq_some_iff.2 ⟨h ichg rfl, rfl⟩⟩
      · rintro ⟨out, hout⟩ ichg' hichg
        obtain rfl := Option.some.inj hichg
        exact (emitSteps_eq_some_iff.1 hout).1
    rw [hall]
    cases hemit : emitSteps opts g.outbuf (convSegments opts all ichg.segments) with
    | none =>
      rw [hemit] at hreturns
      obtain ⟨c, hc, -⟩ := hreturns
      rw [hc]
      refine iff_of_false ?_ (by simp)
      rintro ⟨h, rc, hh⟩
      cases hh
    | some out =>
      rw [hemit] at hreturns
      obtain ⟨conv, hc, -⟩ := hreturns
      exact iff_of_true ⟨_, _, hc⟩ rfl

end Functions

end Libedi
