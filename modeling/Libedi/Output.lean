import Libedi.Lib.EscapedText
import Libedi.Build

/-!
# What the builder writes

`interchangeOps` is the script of an interchange: the stores and the steps back
of a builder that never runs out of room.  The loops of the builder look at
their remaining room at a dozen places.  `buildSegments_writes` says that all
of these checks together come to one: the builder runs the script up to the
length of its buffer (`BoundedOutput.runTo`).

There are three groups.

* The script, one function for each function of the builder.
* The rules for a builder that stops.  `Writes` is what a step of the builder
  has done, and `Writes.seq` is the rule for `if(bufpos >= buflen) break;`
  between two steps.
* The refinement, one lemma for each function of the builder.
-/

namespace Libedi

open BoundedOutput

/-! ## The script -/

/-- The bytes that `addescaped` writes for a value. -/
def escapeBytes (params : EdiParams) (value : Bytes) : Bytes :=
  EscapedText.escape (isSpecial params) params.escape value

/-- What `addhdrtrailer` writes for a format. -/
def formatOps (params : EdiParams) (format : Bytes) : List (Op UInt8) :=
  match format with
  | [] => []
  | c :: format =>
    if c = '%'.toUInt8 then
      match format with
      | [] => [.put '%'.toUInt8]
      | d :: format =>
        if d = '_'.toUInt8 then .back :: formatOps params format
        else
          match directive params d with
          | some b => .put b :: formatOps params format
          | none => .put '%'.toUInt8 :: .put d :: formatOps params format
    else .put c :: formatOps params format

/-- A format ends in a `%` that no other `%` in front of it takes. -/
def endsInLonePercent (format : Bytes) : Bool :=
  match format with
  | [] => false
  | c :: format =>
    if c = '%'.toUInt8 then
      match format with
      | [] => true
      | _ :: format => endsInLonePercent format
    else endsInLonePercent format

theorem formatOps_cons_of_ne {c : UInt8} (h : c ≠ '%'.toUInt8)
    (params : EdiParams) (format : Bytes) :
    formatOps params (c :: format) = .put c :: formatOps params format := by
  rw [formatOps.eq_def]
  simp only [if_neg h]

theorem endsInLonePercent_cons_of_ne {c : UInt8} (h : c ≠ '%'.toUInt8)
    (format : Bytes) :
    endsInLonePercent (c :: format) = endsInLonePercent format := by
  rw [endsInLonePercent.eq_def]
  simp only [if_neg h]

/-- The header that goes in front of the first value. -/
def headerOps (params : EdiParams) (hdr : Option (Bytes × Bytes))
    (check : EdiValue) : List (Op UInt8) :=
  match hdr with
  | none => []
  | some (hdrname, hdrtrail) =>
    if isHeader hdrname check then []
    else puts (escapeBytes params hdrname) ++ formatOps params hdrtrail

/-- A value and the header in front of it. -/
def valueOps (params : EdiParams) (hdr : Option (Bytes × Bytes))
    (check : EdiValue) (value : Bytes) : List (Op UInt8) :=
  headerOps params hdr check ++ puts (escapeBytes params value)

/-- The separator behind an item, unless it is the last one. -/
def separatorOps {α : Type*} (rest : List α) (c : UInt8) : List (Op UInt8) :=
  if rest.isEmpty then [] else [.put c]

/-- The values of a composite. -/
def compositeOps (params : EdiParams) (hdr : Option (Bytes × Bytes))
    (check : EdiValue) : List EdiValue → List (Op UInt8)
  | [] => []
  | v :: vs =>
    valueOps params hdr check v.value ++
      (separatorOps vs params.subelementSeparator ++
        compositeOps params none check vs)

/-- An element. -/
def elementOps (pun : List EdiValue → EdiValue) (params : EdiParams)
    (hdr : Option (Bytes × Bytes)) : EdiElement → List (Op UInt8)
  | .simple v => valueOps params hdr v v.value
  | .composite vs => compositeOps params hdr (pun vs) vs
  | .untyped => compositeOps params hdr (pun []) []

/-- The elements of a segment. -/
def elementsOps (pun : List EdiValue → EdiValue) (params : EdiParams)
    (hdr : Option (Bytes × Bytes)) (first : Bool) :
    List EdiElement → List (Op UInt8)
  | [] => []
  | e :: es =>
    elementOps pun params (if first then hdr else none) e ++
      (separatorOps es
          (if first then params.tagSeparator else params.elementSeparator) ++
        elementsOps pun params hdr false es)

/-- Whether the first value, if it is `check`, is the header name. -/
def headerFlag (hdr : Option (Bytes × Bytes)) (check : EdiValue) : Bool :=
  hdr.elim false fun x => isHeader x.1 check

/-- Whether the first value of a composite is the header name. -/
def compositeIsHeader (hdr : Option (Bytes × Bytes)) (check : EdiValue)
    (vs : List EdiValue) : Bool :=
  !vs.isEmpty && headerFlag hdr check

@[simp] theorem compositeIsHeader_none (check : EdiValue)
    (vs : List EdiValue) : compositeIsHeader none check vs = false :=
  Bool.and_false _

/-- Whether the first value of an element is the header name. -/
def elementIsHeader (pun : List EdiValue → EdiValue)
    (hdr : Option (Bytes × Bytes)) : EdiElement → Bool
  | .simple v => headerFlag hdr v
  | .composite vs => compositeIsHeader hdr (pun vs) vs
  | .untyped => compositeIsHeader hdr (pun []) []

@[simp] theorem elementIsHeader_none (pun : List EdiValue → EdiValue)
    (e : EdiElement) : elementIsHeader pun none e = false := by
  cases e <;> simp [elementIsHeader, headerFlag]

/-- Whether the first value of a segment is the header name. -/
def segmentIsHeader (pun : List EdiValue → EdiValue)
    (hdr : Option (Bytes × Bytes)) (s : EdiSegment) : Bool :=
  s.elements.head?.elim false (elementIsHeader pun hdr)

/-- The end of a segment: the trailer of a header segment, or the segment
separator. -/
def trailerOps (params : EdiParams) (hdr : Option (Bytes × Bytes))
    (header : Bool) : List (Op UInt8) :=
  if header then formatOps params (hdr.elim [] Prod.snd)
  else [.put params.segmentSeparator]

/-- Only the first segment has a header, so only its trailer matters. -/
theorem trailerOps_first (params : EdiParams)
    (pun : List EdiValue → EdiValue) (first : Bool)
    (hdr : Option (Bytes × Bytes)) (s : EdiSegment) :
    trailerOps params hdr
        (segmentIsHeader pun (if first then hdr else none) s)
      = trailerOps params (if first then hdr else none)
        (segmentIsHeader pun (if first then hdr else none) s) := by
  cases first with
  | true => rfl
  | false =>
    have hno : segmentIsHeader pun none s = false := by
      unfold segmentIsHeader
      cases s.elements.head? <;> simp
    simp [trailerOps, hno]

/-- The segments of an interchange. -/
def segmentsOps (pun : List EdiValue → EdiValue) (params : EdiParams)
    (hdr : Option (Bytes × Bytes)) : List EdiSegment → List (Op UInt8)
  | [] => []
  | s :: ss =>
    elementsOps pun params hdr true s.elements ++
      (trailerOps params hdr (segmentIsHeader pun hdr s) ++
        segmentsOps pun params none ss)

/-- The script of an interchange. -/
def interchangeOps (pun : List EdiValue → EdiValue) (params : EdiParams)
    (msg : EdiInterchange) : List (Op UInt8) :=
  segmentsOps pun params (headerOf params) msg.segments

/-! ## A builder that stops -/

/-- A step of the builder has written `t`, and unless it has filled the buffer,
it has left the flag `dohdrtrailer` at `header`. -/
def Writes (limit : Nat) (r : Option BuildState) (t : Bytes) (header : Bool) :
    Prop :=
  ∃ st, r = some st ∧ At limit st.w t ∧
    (st.w.pos < limit → st.dohdrtrailer = header)

namespace Writes

variable {limit : Nat} {t : Bytes} {ops ops' : List (Op UInt8)}
  {header header' : Bool}

theorem pure {st : BuildState} (h : At limit st.w t) :
    Writes limit (some st) t st.dohdrtrailer :=
  ⟨st, rfl, h, fun _ => rfl⟩

/-- The rule for `if(bufpos >= buflen) break;` in front of a step. -/
theorem guard {st : BuildState} {r : Option BuildState}
    (h : At limit st.w t)
    (hr : st.w.pos < limit → Writes limit r (runTo limit ops t) header) :
    Writes limit (if limit ≤ st.w.pos then some st else r)
      (runTo limit ops t) header := by
  by_cases hle : limit ≤ st.w.pos
  · have hlen : limit ≤ t.length := h.pos ▸ hle
    rw [if_pos hle, runTo_of_le hlen]
    exact ⟨st, rfl, h, fun hlt => absurd hlt (by omega)⟩
  · rw [if_neg hle]
    exact hr (by omega)

/-- The rule for two steps with `if(bufpos >= buflen) break;` between them. -/
theorem seq {r : Option BuildState} {f : BuildState → Option BuildState}
    (h : Writes limit r (runTo limit ops t) header)
    (hf : ∀ st, At limit st.w (runTo limit ops t) → st.w.pos < limit →
      st.dohdrtrailer = header →
      Writes limit (f st) (runTo limit ops' (runTo limit ops t)) header') :
    Writes limit (r.bind fun st => if limit ≤ st.w.pos then some st else f st)
      (runTo limit (ops ++ ops') t) header' := by
  obtain ⟨st, rfl, hat, hflag⟩ := h
  rw [runTo_append]
  exact guard hat fun hlt => hf st hat hlt (hflag hlt)

end Writes

/-- A separator is written unless the item in front of it is the last one. -/
theorem separator_at {α : Type*} {limit : Nat} {t : Bytes} {st : BuildState}
    (rest : List α) (c : UInt8) (h : At limit st.w t) (hlt : st.w.pos < limit) :
    At limit (if rest.isEmpty then st else st.separator c).w
      (runTo limit (separatorOps rest c) t) := by
  unfold separatorOps
  split
  · exact h
  · have hlen : t.length < limit := h.pos ▸ hlt
    rw [runTo, if_pos hlen]
    exact h.put hlt c

theorem separator_dohdrtrailer {α : Type*} (rest : List α) (c : UInt8)
    (st : BuildState) :
    (if rest.isEmpty then st else st.separator c).dohdrtrailer
      = st.dohdrtrailer := by
  split <;> rfl

/-! ## The refinement -/

section Refinement

variable (params : EdiParams) {limit : Nat} {t : Bytes}

theorem addescapedLoop_at {w : Writer UInt8} (h : At limit w t)
    (value : Bytes) :
    At limit (addescapedLoop params limit w value)
      (runTo limit (puts (escapeBytes params value)) t) := by
  induction value generalizing w t with
  | nil => exact h
  | cons c value ih =>
    rw [addescapedLoop, escapeBytes, EscapedText.escape_cons]
    refine h.guard fun hlt => ?_
    have hone : ∀ {w' : Writer UInt8} {t' : Bytes}, At limit w' t' →
        w'.pos < limit →
        At limit (if limit ≤ (w'.put c).pos then w'.put c
            else addescapedLoop params limit (w'.put c) value)
          (runTo limit (.put c :: puts (escapeBytes params value)) t') := by
      intro w' t' h' hlt'
      rw [h'.runTo_put hlt']
      exact (h'.put hlt' c).guard fun _ => ih (h'.put hlt' c)
    split
    · rw [List.cons_append, puts_cons, h.runTo_put hlt]
      exact (h.put hlt params.escape).guard (hone (h.put hlt params.escape))
    · exact hone h hlt

/-- At the start of the buffer a step back does nothing. -/
theorem back_of_pos (w : Writer UInt8) :
    (if 0 < w.pos then w.back else w) = w.back := by
  split
  · rfl
  · next hzero =>
    have hpos : w.pos - 1 = w.pos := by omega
    simp only [Writer.back, hpos]

theorem addhdrtrailerLoop_at {w : Writer UInt8} (h : At limit w t)
    {format : Bytes} (hformat : endsInLonePercent format = false) :
    ∃ w', addhdrtrailerLoop params limit w format = some w' ∧
      At limit w' (runTo limit (formatOps params format) t) := by
  fun_induction addhdrtrailerLoop params limit w format generalizing t with
  | case1 w => exact ⟨w, rfl, h⟩
  | case2 w c format hle =>
    rw [h.runTo_stop hle]
    exact ⟨w, rfl, h⟩
  | case3 w hlt w' => simp [endsInLonePercent] at hformat
  | case4 w hlt w' => simp [endsInLonePercent] at hformat
  | case5 w hlt format ih =>
    have hrest : endsInLonePercent format = false := by
      simpa [endsInLonePercent] using hformat
    rw [formatOps, if_pos rfl, if_pos rfl, h.runTo_back (by omega)]
    rw [back_of_pos] at ih ⊢
    exact ih (h.back (by omega)) hrest
  | case6 w hlt d format hd b hb ih =>
    have hrest : endsInLonePercent format = false := by
      simpa [endsInLonePercent] using hformat
    rw [formatOps, if_pos rfl, if_neg hd, hb, h.runTo_put (by omega)]
    exact ih (h.put (by omega) b) hrest
  | case7 w hlt d format hd hnone w' =>
    rename_i hle
    have hput := h.put (by omega) '%'.toUInt8
    rw [formatOps, if_pos rfl, if_neg hd, hnone, h.runTo_put (by omega),
      hput.runTo_stop hle]
    exact ⟨_, rfl, hput⟩
  | case8 w hlt d format hd hnone w' hle =>
    rename_i ih
    have hrest : endsInLonePercent format = false := by
      simpa [endsInLonePercent] using hformat
    have hput := h.put (by omega) '%'.toUInt8
    rw [formatOps, if_pos rfl, if_neg hd, hnone, h.runTo_put (by omega),
      hput.runTo_put (Nat.lt_of_not_le hle)]
    exact ih (hput.put (Nat.lt_of_not_le hle) d) hrest
  | case9 w c format hlt hc ih =>
    have hrest : endsInLonePercent format = false := by
      rwa [endsInLonePercent_cons_of_ne hc] at hformat
    rw [formatOps_cons_of_ne hc, h.runTo_put (by omega)]
    exact ih (h.put (by omega) c) hrest

variable (hlimit : limit < 2 ^ 64)

include hlimit

/-- The caller moves its cursor to where its callee has stopped. -/
theorem caller_cursor {w w' : Writer UInt8} {t' : Bytes} (h : At limit w t)
    (h' : At limit w' t') : sizeAdd w.pos (sizeSub w'.pos w.pos) = w'.pos := by
  have hpos := h.pos
  have hpos' := h'.pos
  have hle := h.le
  have hle' := h'.le
  exact sizeAdd_sizeSub (by omega) (by omega)

theorem escaped_w {st : BuildState} (h : At limit st.w t) (value : Bytes) :
    (st.escaped limit value params).w
      = (addescapedLoop params limit st.w value).terminate 0 := by
  have hat := (addescapedLoop_at params h value).terminate 0
  simp only [BuildState.escaped, addescaped, caller_cursor hlimit h hat]

theorem escaped_at {st : BuildState} (h : At limit st.w t) (value : Bytes) :
    At limit (st.escaped limit value params).w
      (runTo limit (puts (escapeBytes params value)) t) := by
  rw [escaped_w params hlimit h]
  exact (addescapedLoop_at params h value).terminate 0

theorem escaped_writes {st : BuildState} (h : At limit st.w t)
    (value : Bytes) :
    Writes limit (some (st.escaped limit value params))
      (runTo limit (puts (escapeBytes params value)) t) st.dohdrtrailer :=
  Writes.pure (escaped_at params hlimit h value)

theorem hdrtrailer_eq {st : BuildState} (h : At limit st.w t)
    {format : Bytes} (hformat : endsInLonePercent format = false) :
    ∃ w', addhdrtrailerLoop params limit st.w format = some w' ∧
      At limit w' (runTo limit (formatOps params format) t) ∧
      st.hdrtrailer limit format params
        = some { st with w := w'.terminate 0 } := by
  obtain ⟨w', hloop, hat⟩ := addhdrtrailerLoop_at params h hformat
  refine ⟨w', hloop, hat, ?_⟩
  simp only [BuildState.hdrtrailer, addhdrtrailer, hloop, Option.bind_eq_bind,
    Option.bind_some, Option.pure_def,
    caller_cursor hlimit h (hat.terminate 0)]

theorem hdrtrailer_writes {st : BuildState} (h : At limit st.w t)
    {format : Bytes} (hformat : endsInLonePercent format = false) :
    Writes limit (st.hdrtrailer limit format params)
      (runTo limit (formatOps params format) t) st.dohdrtrailer := by
  obtain ⟨w', -, hat, hst⟩ := hdrtrailer_eq params hlimit h hformat
  rw [hst]
  exact ⟨_, rfl, hat.terminate 0, fun _ => rfl⟩

theorem buildValue_writes {st : BuildState} (h : At limit st.w t)
    {hdr : Option (Bytes × Bytes)}
    (hhdr : ∀ x ∈ hdr, endsInLonePercent x.2 = false) (check : EdiValue)
    (value : Bytes) :
    Writes limit (buildValue params limit hdr check value st)
      (runTo limit (valueOps params hdr check value) t)
      (st.dohdrtrailer || headerFlag hdr check) := by
  rcases hdr with - | ⟨hdrname, hdrtrail⟩
  · simp only [headerFlag, Option.elim, Bool.or_false]
    exact escaped_writes params hlimit h value
  · simp only [buildValue, valueOps, headerOps, headerFlag, Option.elim]
    by_cases hmatch : isHeader hdrname check = true
    · rw [if_pos hmatch, if_pos hmatch, hmatch, Bool.or_true]
      have hset : At limit { st with dohdrtrailer := true : BuildState }.w t :=
        h
      exact escaped_writes params hlimit hset value
    · have hfalse : isHeader hdrname check = false := by simpa using hmatch
      rw [if_neg hmatch, if_neg hmatch, hfalse, Bool.or_false,
        List.append_assoc, runTo_append]
      have hname := escaped_at params hlimit h hdrname
      refine Writes.guard hname fun _ => ?_
      refine Writes.seq (hdrtrailer_writes params hlimit hname
        (hhdr _ (Option.mem_some_self _))) fun st' hat _ hflag => ?_
      have hsame : st'.dohdrtrailer = st.dohdrtrailer := hflag
      rw [← hsame]
      exact escaped_writes params hlimit hat value

theorem buildComposite_writes {st : BuildState} (h : At limit st.w t)
    {hdr : Option (Bytes × Bytes)}
    (hhdr : ∀ x ∈ hdr, endsInLonePercent x.2 = false) (check : EdiValue)
    (vs : List EdiValue) :
    Writes limit (buildComposite params limit hdr check st vs)
      (runTo limit (compositeOps params hdr check vs) t)
      (st.dohdrtrailer || compositeIsHeader hdr check vs) := by
  induction vs generalizing st t hdr with
  | nil =>
    simp only [compositeIsHeader, List.isEmpty_nil, Bool.not_true,
      Bool.false_and, Bool.or_false]
    exact Writes.pure h
  | cons v vs ih =>
    rw [buildComposite, compositeOps]
    refine Writes.seq (buildValue_writes params hlimit h hhdr check v.value)
      fun st' hat hlt hflag => ?_
    have hsep := separator_at vs params.subelementSeparator hat hlt
    have hdoh := separator_dohdrtrailer vs params.subelementSeparator st'
    rw [runTo_append]
    refine Writes.guard hsep fun _ => ?_
    have hno : ∀ x ∈ (none : Option (Bytes × Bytes)),
        endsInLonePercent x.2 = false := by simp
    have hrest := ih hsep hno
    rw [hdoh, hflag, compositeIsHeader_none, Bool.or_false] at hrest
    simpa [compositeIsHeader] using hrest

theorem buildElement_writes {st : BuildState} (h : At limit st.w t)
    {hdr : Option (Bytes × Bytes)}
    (hhdr : ∀ x ∈ hdr, endsInLonePercent x.2 = false)
    (pun : List EdiValue → EdiValue) (e : EdiElement) :
    Writes limit (buildElement pun params limit hdr st e)
      (runTo limit (elementOps pun params hdr e) t)
      (st.dohdrtrailer || elementIsHeader pun hdr e) := by
  cases e with
  | untyped => exact buildComposite_writes params hlimit h hhdr (pun []) []
  | simple v => exact buildValue_writes params hlimit h hhdr v v.value
  | composite vs => exact buildComposite_writes params hlimit h hhdr (pun vs) vs

theorem buildElements_writes {st : BuildState} (h : At limit st.w t)
    {hdr : Option (Bytes × Bytes)}
    (hhdr : ∀ x ∈ hdr, endsInLonePercent x.2 = false)
    (pun : List EdiValue → EdiValue) (first : Bool) (es : List EdiElement) :
    Writes limit (buildElements pun params limit hdr first st es)
      (runTo limit (elementsOps pun params hdr first es) t)
      (st.dohdrtrailer || (first &&
        es.head?.elim false (elementIsHeader pun hdr))) := by
  induction es generalizing st t first with
  | nil =>
    simp only [List.head?_nil, Option.elim, Bool.and_false, Bool.or_false]
    exact Writes.pure h
  | cons e es ih =>
    rw [buildElements, elementsOps]
    have hhdr' : ∀ x ∈ (if first then hdr else none),
        endsInLonePercent x.2 = false := by
      cases first
      · simp
      · exact hhdr
    refine Writes.seq (buildElement_writes params hlimit h hhdr' pun e)
      fun st' hat hlt hflag => ?_
    have hsep := separator_at es
      (if first then params.tagSeparator else params.elementSeparator) hat hlt
    have hdoh := separator_dohdrtrailer es
      (if first then params.tagSeparator else params.elementSeparator) st'
    rw [runTo_append]
    refine Writes.guard hsep fun _ => ?_
    have hrest := ih hsep false
    rw [hdoh, hflag, Bool.false_and, Bool.or_false] at hrest
    cases first with
    | false => simpa using hrest
    | true => exact hrest

theorem buildTrailer_writes {st : BuildState} (h : At limit st.w t)
    (hlt : st.w.pos < limit) {hdr : Option (Bytes × Bytes)}
    (hhdr : ∀ x ∈ hdr, endsInLonePercent x.2 = false) :
    Writes limit (buildTrailer params limit hdr st)
      (runTo limit (trailerOps params hdr st.dohdrtrailer) t)
      st.dohdrtrailer := by
  by_cases hdoh : st.dohdrtrailer = true
  · have hformat : endsInLonePercent (hdr.elim [] Prod.snd) = false := by
      cases hdr with
      | none => rfl
      | some x => exact hhdr x (Option.mem_some_self x)
    rw [buildTrailer, trailerOps, if_pos hdoh, if_pos hdoh]
    exact hdrtrailer_writes params hlimit h hformat
  · rw [buildTrailer, trailerOps, if_neg hdoh, if_neg hdoh, h.runTo_put hlt]
    have hput : At limit (st.separator params.segmentSeparator).w
        (t ++ [params.segmentSeparator]) := h.put hlt params.segmentSeparator
    exact Writes.pure hput

/-- The builder runs the script up to the length of its buffer. -/
theorem buildSegments_writes {st : BuildState} (h : At limit st.w t)
    (hst : st.dohdrtrailer = false) {hdr : Option (Bytes × Bytes)}
    (hhdr : ∀ x ∈ hdr, endsInLonePercent x.2 = false)
    (pun : List EdiValue → EdiValue) (first : Bool) (ss : List EdiSegment) :
    Writes limit (buildSegments pun params limit hdr first st ss)
      (runTo limit (segmentsOps pun params (if first then hdr else none) ss) t)
      false := by
  induction ss generalizing st t first with
  | nil =>
    rw [← hst]
    exact Writes.pure h
  | cons s ss ih =>
    have hhdr' : ∀ x ∈ (if first then hdr else none),
        endsInLonePercent x.2 = false := by
      cases first
      · simp
      · exact hhdr
    rw [buildSegments, segmentsOps]
    refine Writes.seq
      (buildElements_writes params hlimit h hhdr' pun true s.elements)
      fun st' hat hlt hflag => ?_
    have hheader : st'.dohdrtrailer
        = segmentIsHeader pun (if first then hdr else none) s := by
      rw [hflag, hst, Bool.true_and, Bool.false_or, segmentIsHeader]
    rw [← trailerOps_first, ← hheader]
    refine Writes.seq (buildTrailer_writes params hlimit hat hlt hhdr)
      fun st'' hat' _ _ => ?_
    have hreset : At limit
        { st'' with dohdrtrailer := false : BuildState }.w _ := hat'
    exact ih hreset rfl false

end Refinement

/-! ## The whole builder -/

/-- The trailer of the header has no lone `%` at its end. -/
def TrailerOk (params : EdiParams) : Prop :=
  ∀ trailer ∈ params.ssTrailer, endsInLonePercent trailer = false

instance (params : EdiParams) : Decidable (TrailerOk params) :=
  inferInstanceAs (Decidable (∀ trailer ∈ params.ssTrailer, _))

theorem TrailerOk.headerOf {params : EdiParams} (h : TrailerOk params) :
    ∀ x ∈ headerOf params, endsInLonePercent x.2 = false := by
  intro x hx
  unfold Libedi.headerOf at hx
  split at hx
  · split at hx
    · next hname htrail =>
      obtain rfl : _ = x := by simpa using hx
      exact h _ htrail
    · simp at hx
  · simp at hx

section Whole

variable (pun : List EdiValue → EdiValue) (msg : EdiInterchange)
  (params : Option EdiParams) (mem : Nat → UInt8) (buflen : UInt64)

/-- `edi_interchange_build` returns behind the text that the script makes of
the length of the buffer, with a NUL there. -/
theorem ediInterchangeBuild_at
    (h : ∀ x ∈ headerOf (params.getD ediDefaultParams),
      endsInLonePercent x.2 = false) :
    ∃ buf n, ediInterchangeBuild pun msg params mem buflen = some (buf, n) ∧
      At buflen.toNat ⟨buf, n⟩ (runTo buflen.toNat
        (interchangeOps pun (params.getD ediDefaultParams) msg) []) ∧
      n ∈ buf.stores ∧ buf.mem n = 0 := by
  have hstart : At buflen.toNat
      (BuildState.mk ⟨⟨mem, []⟩, 0⟩ false).w [] := At.start _ mem
  have hlimit : buflen.toNat < 2 ^ 64 := buflen.toNat_lt
  obtain ⟨st, hst, hat, -⟩ := buildSegments_writes
    (params.getD ediDefaultParams) hlimit hstart rfl h pun true
    msg.segments
  refine ⟨(st.w.terminate 0).buf, st.w.pos, ?_, ?_, ?_, ?_⟩
  · simp only [ediInterchangeBuild, hst, Option.bind_eq_bind, Option.bind_some,
      Option.pure_def]
    rfl
  · exact hat.terminate 0
  · exact List.mem_cons_self
  · exact st.w.buf.store_mem_self st.w.pos 0

/-- Every byte that was stored has an index below `buflen`, and there is a NUL
at the returned count. -/
def InBounds (buflen : UInt64) (buf : Buffer UInt8) (n : Nat) : Prop :=
  (∀ k ∈ buf.stores, k < buflen.toNat) ∧ n < buflen.toNat ∧ buf.mem n = 0

/-- The builder stays in the buffer exactly as long as its cursor does: the
highest position that it passes through, which a `%_` may leave again, has to be
below `buflen`. -/
theorem ediInterchangeBuild_inBounds_iff
    (h : TrailerOk (params.getD ediDefaultParams)) :
    (∃ buf n, ediInterchangeBuild pun msg params mem buflen = some (buf, n) ∧
        InBounds buflen buf n)
      ↔ peak (interchangeOps pun (params.getD ediDefaultParams) msg) 0
          < buflen.toNat := by
  obtain ⟨buf, n, hbuild, hat, hstore, hnul⟩ :=
    ediInterchangeBuild_at pun msg params mem buflen h.headerOf
  have hpeak := runTo_length_lt_iff buflen.toNat
    (interchangeOps pun (params.getD ediDefaultParams) msg) []
  have hpos : n = _ := hat.pos
  rw [← hpos] at hpeak
  constructor
  · rintro ⟨buf', n', hbuild', -, hlt, -⟩
    rw [hbuild] at hbuild'
    obtain ⟨rfl, rfl⟩ : buf = buf' ∧ n = n' := by simpa using hbuild'
    exact hpeak.1 hlt
  · intro hlt
    have hn := hpeak.2 hlt
    exact ⟨buf, n, hbuild, hat.stores_lt (hpos ▸ hn), hn, hnul⟩

end Whole

/-- An interchange of one segment with one element, whose value is `A`. -/
def oneByteInterchange : EdiInterchange :=
  ⟨[⟨[.simple (.ofBytes (ascii "A"))], some (ascii "A"), 0⟩]⟩

/-- Its text is `A'`, so three bytes hold the text and its NUL. -/
theorem ediInterchangeBuild_inBounds_three :
    ∃ buf n, ediInterchangeBuild (fun _ => .ofBytes []) oneByteInterchange none
        (fun _ => 0) 3 = some (buf, n) ∧ InBounds 3 buf n :=
  (ediInterchangeBuild_inBounds_iff (fun _ => .ofBytes []) oneByteInterchange
    none (fun _ => 0) 3 (by decide)).2 (by decide)

/-- In a buffer of one byte, `A` fills the buffer, and the NULs of `addescaped`
and of `edi_interchange_build` go behind it. -/
theorem ediInterchangeBuild_stores_behind_buffer :
    ¬ ∃ buf n, ediInterchangeBuild (fun _ => .ofBytes []) oneByteInterchange
        none (fun _ => 0) 1 = some (buf, n) ∧ InBounds 1 buf n := by
  rintro ⟨buf, n, hbuild, hstores, -, -⟩
  have hall : (ediInterchangeBuild (fun _ => .ofBytes []) oneByteInterchange
      none (fun _ => 0) 1).map (fun r => r.1.stores) = some [1, 1, 0] := by
    decide +kernel
  rw [hbuild] at hall
  obtain hlist : buf.stores = [1, 1, 0] := by simpa using hall
  have hlt := hstores 1 (by simp [hlist])
  simp at hlt

end Libedi
