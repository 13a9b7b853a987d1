import Libedi.Text

/-!
# Truncated output

Where the trailer of the header has no `%_`, the script of an interchange has no
steps back, and a builder that runs out of room has written a prefix of the text
that it would write with more room (`ediInterchangeBuild_truncates`).  Behind
the NUL nothing is touched.

`formatOps_noBack` and the lemmas below it say that the script has no steps
back.  The lemmas that end in `_ahead` carry `BoundedOutput.Ahead` through the
builder, next to what `Output` says about its cursor.
-/

namespace Libedi

open BoundedOutput

/-- A format without a step back, and without a `%` at its end. -/
structure PlainFormat (format : Bytes) : Prop where
  noBack : ¬ ascii "%_" <:+: format
  last : format.getLast? ≠ some '%'.toUInt8

namespace PlainFormat

theorem tail {c : UInt8} {format : Bytes} (h : PlainFormat (c :: format)) :
    PlainFormat format := by
  refine ⟨fun hmem => h.noBack (List.infix_cons hmem), fun hlast => h.last ?_⟩
  rw [List.getLast?_cons, hlast]
  rfl

theorem not_back {format : Bytes}
    (h : PlainFormat ('%'.toUInt8 :: '_'.toUInt8 :: format)) : False :=
  h.noBack ⟨[], format, rfl⟩

theorem endsInLonePercent_eq {format : Bytes} (h : PlainFormat format) :
    endsInLonePercent format = false := by
  fun_induction endsInLonePercent format with
  | case1 => rfl
  | case2 => exact absurd rfl h.last
  | case3 d format ih => exact ih h.tail.tail
  | case4 c format hc ih => exact ih h.tail

/-- The format of the trailer, which is empty if there is none. -/
theorem trailer {hdr : Option (Bytes × Bytes)}
    (hhdr : ∀ x ∈ hdr, PlainFormat x.2) :
    PlainFormat (hdr.elim [] Prod.snd) := by
  cases hdr with
  | none => exact ⟨by decide, by simp⟩
  | some x => exact hhdr x (Option.mem_some_self x)

end PlainFormat

/-! ## No steps back -/

section NoBack

variable (pun : List EdiValue → EdiValue) (params : EdiParams)
  {hdr : Option (Bytes × Bytes)} (hhdr : ∀ x ∈ hdr, PlainFormat x.2)

theorem formatOps_noBack {format : Bytes} (h : PlainFormat format) :
    Op.back ∉ formatOps params format := by
  fun_induction formatOps params format with
  | case1 => simp
  | case2 => simp
  | case3 format ih => exact absurd h fun h => h.not_back
  | case4 d format hd b hb ih => simpa using ih h.tail.tail
  | case5 d format hd hnone ih => simpa using ih h.tail.tail
  | case6 c format hc ih => simpa using ih h.tail

include hhdr

theorem valueOps_noBack (check : EdiValue) (value : Bytes) :
    Op.back ∉ valueOps params hdr check value := by
  have hvalue := back_notMem_puts (escapeBytes params value)
  rcases hdr with - | ⟨hdrname, hdrtrail⟩
  · simpa [valueOps, headerOps] using hvalue
  · have hname := back_notMem_puts (escapeBytes params hdrname)
    have htrail := formatOps_noBack params (hhdr _ (Option.mem_some_self _))
    rw [valueOps, headerOps]
    split <;> simp_all

omit hhdr in
theorem separatorOps_noBack {α : Type*} (rest : List α) (c : UInt8) :
    Op.back ∉ separatorOps rest c := by
  unfold separatorOps
  split <;> simp

theorem compositeOps_noBack (check : EdiValue) (vs : List EdiValue) :
    Op.back ∉ compositeOps params hdr check vs := by
  cases vs with
  | nil => simp [compositeOps]
  | cons v vs =>
    rw [compositeOps, compositeOps_none, List.mem_append, List.mem_append]
    rintro (hvalue | hsep | hrest)
    · exact valueOps_noBack params hhdr check v.value hvalue
    · exact separatorOps_noBack vs _ hsep
    · exact back_notMem_puts _ hrest

theorem elementOps_noBack (e : EdiElement) :
    Op.back ∉ elementOps pun params hdr e := by
  cases e with
  | untyped => exact compositeOps_noBack params hhdr (pun []) []
  | simple v => exact valueOps_noBack params hhdr v v.value
  | composite vs => exact compositeOps_noBack params hhdr (pun vs) vs

theorem elementsOps_noBack (es : List EdiElement) :
    Op.back ∉ elementsOps pun params hdr true es := by
  cases es with
  | nil => simp [elementsOps]
  | cons e es =>
    rw [elementsOps, elementsOps_false, List.mem_append, List.mem_append]
    rintro (helement | hsep | hrest)
    · exact elementOps_noBack pun params hhdr e helement
    · exact separatorOps_noBack es _ hsep
    · exact back_notMem_puts _ hrest

theorem trailerOps_noBack (header : Bool) :
    Op.back ∉ trailerOps params hdr header := by
  have hformat := PlainFormat.trailer hhdr
  unfold trailerOps
  split
  · exact formatOps_noBack params hformat
  · simp

theorem segmentsOps_noBack (ss : List EdiSegment) :
    Op.back ∉ segmentsOps pun params hdr ss := by
  cases ss with
  | nil => simp [segmentsOps]
  | cons s ss =>
    rw [segmentsOps, segmentsOps_none, List.mem_append, List.mem_append]
    rintro (helements | htrailer | hrest)
    · exact elementsOps_noBack pun params hhdr s.elements helements
    · exact trailerOps_noBack params hhdr _ htrailer
    · exact back_notMem_puts _ hrest

end NoBack

/-! ## Nothing is stored behind the cursor -/

/-- In the state that a step of the builder has left, no store went behind the
cursor. -/
def StaysAhead (r : Option BuildState) : Prop := ∀ st ∈ r, Ahead st.w

theorem StaysAhead.some {st : BuildState} (h : Ahead st.w) :
    StaysAhead (some st) := by
  intro st' hst
  obtain rfl := Option.some.inj hst
  exact h

theorem StaysAhead.guard {st : BuildState} {r : Option BuildState}
    {limit : Nat} (h : Ahead st.w) (hr : StaysAhead r) :
    StaysAhead (if limit ≤ st.w.pos then Option.some st else r) := by
  split
  · exact .some h
  · exact hr

/-- The rule for two steps, the first of which has left its text in the
buffer. -/
theorem StaysAhead.seq {limit : Nat} {t : Bytes} {header : Bool}
    {r : Option BuildState} {f : BuildState → Option BuildState}
    (hr : StaysAhead r) (h : Writes limit r t header)
    (hf : ∀ st, At limit st.w t → st.w.pos < limit → Ahead st.w →
      StaysAhead (f st)) :
    StaysAhead (r.bind fun st =>
      if limit ≤ st.w.pos then Option.some st else f st) := by
  obtain ⟨st, rfl, hat, -⟩ := h
  have hahead := hr st rfl
  show StaysAhead (if limit ≤ st.w.pos then Option.some st else f st)
  by_cases hle : limit ≤ st.w.pos
  · rw [if_pos hle]
    exact .some hahead
  · rw [if_neg hle]
    exact hf st hat (by omega) hahead

section Ahead

variable (params : EdiParams) {limit : Nat} {t : Bytes}

theorem addescapedLoop_ahead {w : Writer UInt8} (h : Ahead w)
    (value : Bytes) : Ahead (addescapedLoop params limit w value) := by
  fun_induction addescapedLoop params limit w value with
  | case1 w => exact h
  | case2 w => exact h
  | case3 w => exact h.put _
  | case4 w => exact (h.put _).put _
  | case5 w c value hlt hspecial w' hlt' w'' hlt'' ih =>
    exact ih ((h.put _).put _)
  | case6 w => exact h.put _
  | case7 w c value hlt hspecial w' hlt' ih => exact ih (h.put _)

theorem addhdrtrailerLoop_ahead {w w' : Writer UInt8} (h : Ahead w)
    {format : Bytes} (hformat : PlainFormat format)
    (hw : addhdrtrailerLoop params limit w format = some w') : Ahead w' := by
  fun_induction addhdrtrailerLoop params limit w format with
  | case1 w => exact Option.some.inj hw ▸ h
  | case2 w => exact Option.some.inj hw ▸ h
  | case3 w => exact Option.some.inj hw ▸ h.put _
  | case4 w => simp at hw
  | case5 w hlt format ih => exact absurd hformat fun h => h.not_back
  | case6 w hlt d format hd b hb ih => exact ih (h.put b) hformat.tail.tail hw
  | case7 w => exact Option.some.inj hw ▸ h.put _
  | case8 w hlt d format hd hnone w'' hlt' ih =>
    exact ih ((h.put _).put d) hformat.tail.tail hw
  | case9 w c format hlt hc ih => exact ih (h.put c) hformat.tail hw

theorem separator_ahead {α : Type*} {st : BuildState} (rest : List α)
    (c : UInt8) (h : Ahead st.w) :
    Ahead (if rest.isEmpty then st else st.separator c).w := by
  split
  · exact h
  · exact h.put c

variable (hlimit : limit < 2 ^ 64)
include hlimit

theorem escaped_ahead {st : BuildState} (h : At limit st.w t)
    (ha : Ahead st.w) (value : Bytes) :
    Ahead (st.escaped limit value params).w := by
  rw [escaped_w params hlimit h]
  exact (addescapedLoop_ahead params ha value).terminate 0

theorem hdrtrailer_ahead {st : BuildState} (h : At limit st.w t)
    (ha : Ahead st.w) {format : Bytes} (hformat : PlainFormat format) :
    StaysAhead (st.hdrtrailer limit format params) := by
  obtain ⟨w', hloop, -, hst⟩ :=
    hdrtrailer_eq params hlimit h hformat.endsInLonePercent_eq
  rw [hst]
  exact .some ((addhdrtrailerLoop_ahead params ha hformat hloop).terminate 0)

variable {hdr : Option (Bytes × Bytes)} (hhdr : ∀ x ∈ hdr, PlainFormat x.2)
include hhdr

omit hlimit in
theorem hdr_endsInLonePercent : ∀ x ∈ hdr, endsInLonePercent x.2 = false :=
  fun x hx => (hhdr x hx).endsInLonePercent_eq

theorem buildValue_ahead {st : BuildState} (h : At limit st.w t)
    (ha : Ahead st.w) (check : EdiValue) (value : Bytes) :
    StaysAhead (buildValue params limit hdr check value st) := by
  rcases hdr with - | ⟨hdrname, hdrtrail⟩
  · exact .some (escaped_ahead params hlimit h ha value)
  · have hformat := hhdr _ (Option.mem_some_self _)
    simp only [buildValue]
    split
    · have hset : At limit { st with dohdrtrailer := true : BuildState }.w t :=
        h
      exact .some (escaped_ahead params hlimit hset ha value)
    · have hname := escaped_at params hlimit h hdrname
      have hahead := escaped_ahead params hlimit h ha hdrname
      refine StaysAhead.guard hahead ?_
      refine StaysAhead.seq (hdrtrailer_ahead params hlimit hname hahead hformat)
        (hdrtrailer_writes params hlimit hname hformat.endsInLonePercent_eq)
        fun st' hat _ ha' => ?_
      exact .some (escaped_ahead params hlimit hat ha' value)

theorem buildComposite_ahead {st : BuildState} (h : At limit st.w t)
    (ha : Ahead st.w) (check : EdiValue) (vs : List EdiValue) :
    StaysAhead (buildComposite params limit hdr check st vs) := by
  induction vs generalizing st t hdr with
  | nil => exact .some ha
  | cons v vs ih =>
    rw [buildComposite]
    refine StaysAhead.seq
      (buildValue_ahead params hlimit hhdr h ha check v.value)
      (buildValue_writes params hlimit h (hdr_endsInLonePercent hhdr) check
        v.value) fun st' hat hlt ha' => ?_
    have hsep := separator_ahead vs params.subelementSeparator ha'
    refine StaysAhead.guard hsep ?_
    exact ih (by simp) (separator_at vs params.subelementSeparator hat hlt) hsep

theorem buildElement_ahead {st : BuildState} (h : At limit st.w t)
    (ha : Ahead st.w) (pun : List EdiValue → EdiValue) (e : EdiElement) :
    StaysAhead (buildElement pun params limit hdr st e) := by
  cases e with
  | untyped => exact buildComposite_ahead params hlimit hhdr h ha (pun []) []
  | simple v => exact buildValue_ahead params hlimit hhdr h ha v v.value
  | composite vs =>
    exact buildComposite_ahead params hlimit hhdr h ha (pun vs) vs

theorem buildElements_ahead {st : BuildState} (h : At limit st.w t)
    (ha : Ahead st.w) (pun : List EdiValue → EdiValue) (first : Bool)
    (es : List EdiElement) :
    StaysAhead (buildElements pun params limit hdr first st es) := by
  induction es generalizing st t first with
  | nil => exact .some ha
  | cons e es ih =>
    have hhdr' : ∀ x ∈ (if first then hdr else none), PlainFormat x.2 := by
      cases first
      · simp
      · exact hhdr
    rw [buildElements]
    refine StaysAhead.seq (buildElement_ahead params hlimit hhdr' h ha pun e)
      (buildElement_writes params hlimit h (hdr_endsInLonePercent hhdr') pun e)
      fun st' hat hlt ha' => ?_
    have hsep := separator_ahead es
      (if first then params.tagSeparator else params.elementSeparator) ha'
    refine StaysAhead.guard hsep ?_
    exact ih (separator_at es _ hat hlt) hsep false

theorem buildTrailer_ahead {st : BuildState} (h : At limit st.w t)
    (ha : Ahead st.w) : StaysAhead (buildTrailer params limit hdr st) := by
  have hformat := PlainFormat.trailer hhdr
  unfold buildTrailer
  split
  · exact hdrtrailer_ahead params hlimit h ha hformat
  · exact .some (ha.put params.segmentSeparator)

theorem buildSegments_ahead {st : BuildState} (h : At limit st.w t)
    (ha : Ahead st.w) (pun : List EdiValue → EdiValue) (first : Bool)
    (ss : List EdiSegment) :
    StaysAhead (buildSegments pun params limit hdr first st ss) := by
  induction ss generalizing st t first with
  | nil => exact .some ha
  | cons s ss ih =>
    have hhdr' : ∀ x ∈ (if first then hdr else none), PlainFormat x.2 := by
      cases first
      · simp
      · exact hhdr
    rw [buildSegments]
    refine StaysAhead.seq
      (buildElements_ahead params hlimit hhdr' h ha pun true s.elements)
      (buildElements_writes params hlimit h (hdr_endsInLonePercent hhdr') pun
        true s.elements) fun st' hat hlt ha' => ?_
    refine StaysAhead.seq (buildTrailer_ahead params hlimit hhdr hat ha')
      (buildTrailer_writes params hlimit hat hlt (hdr_endsInLonePercent hhdr))
      fun st'' hat' _ ha'' => ?_
    have hreset : At limit
        { st'' with dohdrtrailer := false : BuildState }.w _ := hat'
    exact ih hreset ha'' false

end Ahead

/-! ## The whole builder -/

theorem ediInterchangeBuild_ahead (pun : List EdiValue → EdiValue)
    (msg : EdiInterchange) (params : Option EdiParams)
    (hhdr : ∀ x ∈ headerOf (params.getD ediDefaultParams), PlainFormat x.2)
    {mem : Nat → UInt8} {buflen : UInt64} {buf : Buffer UInt8} {n : Nat}
    (h : ediInterchangeBuild pun msg params mem buflen = some (buf, n)) :
    ∀ k ∈ buf.stores, k ≤ n := by
  have hstart : At buflen.toNat
      (BuildState.mk ⟨⟨mem, []⟩, 0⟩ false).w [] := At.start _ mem
  have hahead := buildSegments_ahead (params.getD ediDefaultParams)
    buflen.toNat_lt hhdr hstart (Ahead.start mem) pun true msg.segments
  obtain ⟨st, hst, hw⟩ := Option.bind_eq_some_iff.1 h
  obtain ⟨rfl, rfl⟩ : (st.w.terminate 0).buf = buf ∧ st.w.pos = n := by
    simpa using hw
  exact (hahead st hst).terminate 0

/-- Without a `%_` in the trailer that is used, and without a `%` at its end, the
builder stores the text, as much of it as fits, and returns its length.  A
return value below `buflen` means that the output is complete. -/
theorem ediInterchangeBuild_truncates (pun : List EdiValue → EdiValue)
    (msg : EdiInterchange) (params : Option EdiParams)
    (hback : ∀ x ∈ headerOf (params.getD ediDefaultParams),
      ¬ ascii "%_" <:+: x.2)
    (hlast : ∀ x ∈ headerOf (params.getD ediDefaultParams),
      x.2.getLast? ≠ some '%'.toUInt8) :
    ∃ F : Bytes,
      F = run (interchangeOps pun (params.getD ediDefaultParams) msg) [] ∧
      ∀ (mem : Nat → UInt8) (buflen : UInt64), ∃ buf n,
        ediInterchangeBuild pun msg params mem buflen = some (buf, n) ∧
        n = min buflen.toNat F.length ∧
        (∀ k < n, F[k]? = some (buf.mem k)) ∧ buf.mem n = 0 ∧
        (∀ k ∈ buf.stores, k ≤ n) ∧
        (n < buflen.toNat → n = F.length) := by
  have hhdr : ∀ x ∈ headerOf (params.getD ediDefaultParams),
      PlainFormat x.2 := fun x hx => ⟨hback x hx, hlast x hx⟩
  refine ⟨_, rfl, fun mem buflen => ?_⟩
  have hputs := eq_puts_run (segmentsOps_noBack pun
    (params.getD ediDefaultParams) hhdr msg.segments)
  obtain ⟨buf, n, hbuild, hat, -, hnul⟩ := ediInterchangeBuild_at pun msg params
    mem buflen (hdr_endsInLonePercent hhdr)
  generalize hF : run (interchangeOps pun (params.getD ediDefaultParams) msg) []
    = F
  rw [← interchangeOps, hF] at hputs
  rw [hputs, runTo_puts, List.nil_append, List.length_nil, Nat.sub_zero] at hat
  have hn : n = min buflen.toNat F.length := by
    rw [← List.length_take]
    exact hat.pos
  have hstores := ediInterchangeBuild_ahead pun msg params hhdr hbuild
  refine ⟨buf, n, hbuild, hn, fun k hk => ?_, hnul, hstores, fun hlt => ?_⟩
  · have hk' : k < min buflen.toNat F.length := hn ▸ hk
    rw [← List.length_take] at hk'
    have hholds := hat.holds k hk'
    rw [List.getElem?_take, if_pos (by omega)] at hholds
    exact hholds
  · omega

/-- The header of UN/EDIFACT is cut off in a buffer of four bytes. -/
theorem ediInterchangeBuild_truncates_una :
    ∃ F : Bytes, F = run (interchangeOps (fun _ => .ofBytes [])
        ediEdifactParams oneByteInterchange) [] ∧
      ∀ (mem : Nat → UInt8) (buflen : UInt64), ∃ buf n,
        ediInterchangeBuild (fun _ => .ofBytes []) oneByteInterchange
            (some ediEdifactParams) mem buflen = some (buf, n) ∧
        n = min buflen.toNat F.length ∧
        (∀ k < n, F[k]? = some (buf.mem k)) ∧ buf.mem n = 0 ∧
        (∀ k ∈ buf.stores, k ≤ n) ∧
        (n < buflen.toNat → n = F.length) :=
  ediInterchangeBuild_truncates (fun _ => .ofBytes []) oneByteInterchange
    (some ediEdifactParams) (by decide +kernel) (by decide +kernel)

end Libedi
