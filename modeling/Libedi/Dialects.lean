import Libedi.Grammar

/-!
# Which dialect is detected

`edi__detect` goes through the detectors of all records and takes the first one
that matches.  This module says which one that is, and what the search reads.

There are three groups.

* The search.  `EdiDetector.Matches` is the test that a detector makes, and
  `Search` is all that there is to say about a run of the two loops: what was
  found, and which indices were read on the way.
* The presets.  A library that `edi__init` has filled has the detectors `UNA`,
  `UNB`, `STX` and `ISA`, in this order, and no public function adds another
  one (`EdiLib.HasPresets`).  `ediDetect_preset` is the dialect that they find.
* The indices that the search reads.  The separator positions of a detector
  are followed without a look at the length of the message, so a short `ISA`
  message is read behind its end (`ediDetect_reads_iff`).
-/

namespace Libedi

/-! ## The search -/

/-- The detector's test on a message: the guard, and the comparison. -/
def EdiDetector.Matches (d : EdiDetector) (message : CString) : Prop :=
  ∃ s, d.detectstr = some s ∧ d.position ≤ message.strlen ∧
    d.position + s.length ≤ message.strlen ∧ d.skipbytes ≤ message.strlen ∧
    s <+: message.bytes

/-- What a search through `cands` has done.  `cands` are the detectors, each
with the parameters of its record. -/
inductive Search (message : CString) (cands : List (EdiParams × EdiDetector))
    (r : Detection) : Prop where
  /-- No detector matches, and the comparisons have not left the message. -/
  | miss (hfound : r.found = none)
      (hno : ∀ c ∈ cands, ¬ c.2.Matches message)
      (hreads : ∀ k ∈ r.reads, k ≤ message.strlen)
  /-- A detector matches, and its separator positions were read as well. -/
  | hit (c : EdiParams × EdiDetector) (hc : c ∈ cands)
      (hmatches : c.2.Matches message)
      (hfound : r.found
        = some (detectedParams message c.1 c.2, c.2.skipbytes))
      (hreads : ∀ k ∈ r.reads, k ≤ message.strlen ∨ k ∈ detectedReads c.2)
      (hall : ∀ k ∈ detectedReads c.2, k ∈ r.reads)

theorem strncmpEq_iff (s b : Bytes) :
    strncmpEq s b s.length = true ↔ s <+: b := by
  rw [strncmpEq, List.take_length, beq_iff_eq, List.prefix_iff_eq_take]

/-- `strncmp` stops at the NUL of the message. -/
theorem strncmpReads_le (s b : Bytes) : strncmpReads s b ≤ b.length + 1 := by
  fun_induction strncmpReads s b with
  | case1 => omega
  | case2 => simp
  | case3 a as bs ih =>
    rw [List.length_cons]
    omega
  | case4 a as b bs hne => omega

theorem compared_le {message : CString} {s : Bytes} {k : Nat}
    (h : k ∈ List.range (strncmpReads s message.bytes)) :
    k ≤ message.strlen := by
  have hlt := List.mem_range.1 h
  have hle := strncmpReads_le s message.bytes
  have hstrlen : message.strlen = message.bytes.length := rfl
  omega

/-- Detectors that do not match may be put in front. -/
theorem Search.prepend {message : CString}
    {cands cands' : List (EdiParams × EdiDetector)} {r : Detection}
    (h : Search message cands r)
    (hno : ∀ c ∈ cands', ¬ c.2.Matches message) {compared : List Nat}
    (hcompared : ∀ k ∈ compared, k ≤ message.strlen) :
    Search message (cands' ++ cands) ⟨r.found, compared ++ r.reads⟩ := by
  cases h with
  | miss hfound hno' hreads =>
    refine .miss hfound ?_ ?_
    · intro c hc
      rcases List.mem_append.1 hc with hc | hc
      · exact hno c hc
      · exact hno' c hc
    · intro k hk
      rcases List.mem_append.1 hk with hk | hk
      · exact hcompared k hk
      · exact hreads k hk
  | hit c hc hmatches hfound hreads hall =>
    refine .hit c (List.mem_append_right _ hc) hmatches hfound ?_ ?_
    · intro k hk
      rcases List.mem_append.1 hk with hk | hk
      · exact Or.inl (hcompared k hk)
      · exact hreads k hk
    · exact fun k hk => List.mem_append_right _ (hall k hk)

/-- Detectors behind the one that was found do not count. -/
theorem Search.append {message : CString}
    {cands : List (EdiParams × EdiDetector)} {r : Detection}
    (h : Search message cands r) (hfound : r.found ≠ none)
    (cands' : List (EdiParams × EdiDetector)) :
    Search message (cands ++ cands') r := by
  cases h with
  | miss hnone => exact absurd hnone hfound
  | hit c hc hmatches hfound' hreads hall =>
    exact .hit c (List.mem_append_left _ hc) hmatches hfound' hreads hall

theorem tryDetectors_search (message : CString) (p : EdiParams)
    (ds : List EdiDetector) :
    Search message (ds.map (p, ·)) (tryDetectors message p ds) := by
  induction ds with
  | nil => exact .miss rfl (by simp) (by simp [tryDetectors])
  | cons d ds ih =>
    have hskip : ¬ d.Matches message →
        Search message ((d :: ds).map (p, ·)) (tryDetectors message p ds) := by
      intro hno
      have hone : ∀ c ∈ [(p, d)], ¬ c.2.Matches message := by simpa using hno
      exact ih.prepend hone fun k hk => absurd hk List.not_mem_nil
    rw [tryDetectors]
    split
    · next hnone =>
      refine hskip ?_
      rintro ⟨s, hs, -⟩
      simp [hnone] at hs
    · next s hs =>
      split
      · next hguard =>
        refine hskip ?_
        rintro ⟨s', hs', hpos, hlen, hskipbytes, -⟩
        obtain rfl : s = s' := by simpa [hs] using hs'
        omega
      · next hguard =>
        split
        · next hcmp =>
          have hstart := (strncmpEq_iff s message.bytes).1 hcmp
          have hmatches : d.Matches message :=
            ⟨s, hs, by omega, by omega, by omega, hstart⟩
          refine .hit (p, d) (by simp) hmatches rfl ?_ ?_
          · intro k hk
            rcases List.mem_append.1 hk with hk | hk
            · exact Or.inl (compared_le hk)
            · exact Or.inr hk
          · exact fun k hk => List.mem_append_right _ hk
        · next hcmp =>
          have hone : ∀ c ∈ [(p, d)], ¬ c.2.Matches message := by
            intro c hc
            obtain rfl : c = (p, d) := by simpa using hc
            rintro ⟨s', hs', -, -, -, hstart⟩
            obtain rfl : s = s' := by simpa [hs] using hs'
            exact hcmp ((strncmpEq_iff s message.bytes).2 hstart)
          exact ih.prepend hone fun k hk => compared_le hk

/-- The detectors of some records. -/
def candidates (rps : List EdiRegparams) : List (EdiParams × EdiDetector) :=
  rps.flatMap fun rp => rp.detectors.map (rp.params, ·)

theorem tryParams_search (message : CString) (rps : List EdiRegparams) :
    Search message (candidates rps) (tryParams message rps) := by
  induction rps with
  | nil => exact .miss rfl (by simp [candidates]) (by simp [tryParams])
  | cons rp rps ih =>
    have hrp := tryDetectors_search message rp.params rp.detectors
    have hcands : candidates (rp :: rps)
        = rp.detectors.map (rp.params, ·) ++ candidates rps := by
      simp [candidates]
    rw [tryParams, hcands]
    split
    · next params hfound => exact hrp.append (by simp [hfound]) _
    · next hfound =>
      cases hrp with
      | miss _ hno hreads => exact ih.prepend hno hreads
      | hit c hc hmatches hfound' => simp [hfound] at hfound'

/-! ## The presets -/

/-- The library has the presets, and behind them only records that a caller
has registered, which have no detectors. -/
def EdiLib.HasPresets (lib : EdiLib) : Prop :=
  ∃ more, lib.detectparams = presetRecords ++ more ∧
    ∀ rp ∈ more, rp.detectors = []

theorem ediInit_hasPresets : (ediInit EdiLib.start).HasPresets :=
  ⟨[], by rw [ediInit_start, List.append_nil], by simp⟩

/-- The detectors of the presets, with the parameters of their records. -/
def presetCandidates : List (EdiParams × EdiDetector) :=
  [(ediEdifactParams, unaDetector), (ediEdifactParams, unbDetector),
   (ediTradacomsParams, stxDetector), (ediX12Params, isaDetector)]

theorem EdiLib.HasPresets.search {lib : EdiLib} (h : lib.HasPresets)
    (message : CString) :
    Search message presetCandidates (tryParams message lib.detectparams) := by
  obtain ⟨more, hps, hmore⟩ := h
  have hnone : candidates more = [] := by
    rw [candidates, List.flatMap_eq_nil_iff]
    intro rp hrp
    rw [hmore rp hrp, List.map_nil]
  have hcands : candidates lib.detectparams = presetCandidates := by
    rw [hps, candidates, List.flatMap_append, ← candidates, ← candidates, hnone,
      List.append_nil]
    rfl
  rw [← hcands]
  exact tryParams_search message lib.detectparams

theorem unaDetector_matches (message : CString) :
    unaDetector.Matches message
      ↔ ascii "UNA" <+: message.bytes ∧ 9 ≤ message.strlen := by
  constructor
  · rintro ⟨s, hs, -, -, hskip, hstart⟩
    obtain rfl : ascii "UNA" = s := by simpa [unaDetector] using hs
    exact ⟨hstart, hskip⟩
  · rintro ⟨hstart, hlen⟩
    refine ⟨_, rfl, Nat.zero_le _, ?_, hlen, hstart⟩
    exact Nat.le_trans (by decide) hlen

/-- A detector without `skipbytes` at the start of the message. -/
theorem matches_iff_start {d : EdiDetector} {s : Bytes}
    (hs : d.detectstr = some s) (hpos : d.position = 0)
    (hskip : d.skipbytes = 0) (message : CString) :
    d.Matches message ↔ s <+: message.bytes := by
  constructor
  · rintro ⟨s', hs', -, -, -, hstart⟩
    obtain rfl : s = s' := by simpa [hs] using hs'
    exact hstart
  · intro hstart
    have hlen : s.length ≤ message.strlen := hstart.length_le
    exact ⟨s, hs, by omega, by omega, by omega, hstart⟩

theorem unbDetector_matches (message : CString) :
    unbDetector.Matches message ↔ ascii "UNB" <+: message.bytes :=
  matches_iff_start rfl rfl rfl message

theorem stxDetector_matches (message : CString) :
    stxDetector.Matches message ↔ ascii "STX" <+: message.bytes :=
  matches_iff_start rfl rfl rfl message

theorem isaDetector_matches (message : CString) :
    isaDetector.Matches message ↔ ascii "ISA" <+: message.bytes :=
  matches_iff_start rfl rfl rfl message

/-- A message does not start with two strings of the same length. -/
theorem not_start {s b : Bytes} (h : s <+: b) (s' : Bytes) (hne : s ≠ s')
    (hlen : s.length = s'.length) : ¬ s' <+: b := by
  intro h'
  have hstart := List.prefix_of_prefix_length_le h h' (Nat.le_of_eq hlen)
  exact hne (hstart.eq_of_length hlen)

/-- The dialect that the presets find. -/
def presetDetection (message : CString) : Option (EdiParams × Nat) :=
  if ascii "UNA" <+: message.bytes ∧ 9 ≤ message.strlen then
    some (detectedParams message ediEdifactParams unaDetector, 9)
  else if ascii "UNB" <+: message.bytes then
    some (detectedParams message ediEdifactParams unbDetector, 0)
  else if ascii "STX" <+: message.bytes then
    some (detectedParams message ediTradacomsParams stxDetector, 0)
  else if ascii "ISA" <+: message.bytes then
    some (detectedParams message ediX12Params isaDetector, 0)
  else none

theorem presetDetection_una {message : CString}
    (h : ascii "UNA" <+: message.bytes) (hlen : 9 ≤ message.strlen) :
    presetDetection message
      = some (detectedParams message ediEdifactParams unaDetector, 9) :=
  if_pos ⟨h, hlen⟩

theorem presetDetection_unb {message : CString}
    (h : ascii "UNB" <+: message.bytes) : presetDetection message
      = some (detectedParams message ediEdifactParams unbDetector, 0) := by
  have huna := not_start h (ascii "UNA") (by decide) rfl
  rw [presetDetection, if_neg fun hand => huna hand.1, if_pos h]

theorem presetDetection_stx {message : CString}
    (h : ascii "STX" <+: message.bytes) : presetDetection message
      = some (detectedParams message ediTradacomsParams stxDetector, 0) := by
  have huna := not_start h (ascii "UNA") (by decide) rfl
  have hunb := not_start h (ascii "UNB") (by decide) rfl
  rw [presetDetection, if_neg fun hand => huna hand.1, if_neg hunb, if_pos h]

theorem presetDetection_isa {message : CString}
    (h : ascii "ISA" <+: message.bytes) : presetDetection message
      = some (detectedParams message ediX12Params isaDetector, 0) := by
  have huna := not_start h (ascii "UNA") (by decide) rfl
  have hunb := not_start h (ascii "UNB") (by decide) rfl
  have hstx := not_start h (ascii "STX") (by decide) rfl
  rw [presetDetection, if_neg fun hand => huna hand.1, if_neg hunb,
    if_neg hstx, if_pos h]

/-- In any library with the presets it is they that detect. -/
theorem ediDetect_preset {lib : EdiLib} (h : lib.HasPresets)
    (message : CString) :
    (ediDetect lib.detectparams message).found = presetDetection message := by
  show (tryParams message lib.detectparams).found = _
  cases h.search message with
  | miss hfound hno hreads =>
    have hall := hno
    simp only [presetCandidates, List.forall_mem_cons, unaDetector_matches,
      unbDetector_matches, stxDetector_matches, isaDetector_matches] at hall
    obtain ⟨huna, hunb, hstx, hisa, -⟩ := hall
    rw [hfound, presetDetection, if_neg huna, if_neg hunb, if_neg hstx,
      if_neg hisa]
  | hit c hc hmatches hfound hreads hall =>
    rw [hfound]
    simp only [presetCandidates, List.mem_cons, List.not_mem_nil, or_false]
      at hc
    rcases hc with rfl | rfl | rfl | rfl
    · obtain ⟨huna, hlen⟩ := (unaDetector_matches message).1 hmatches
      rw [presetDetection_una huna hlen]
      rfl
    · rw [presetDetection_unb ((unbDetector_matches message).1 hmatches)]
      rfl
    · rw [presetDetection_stx ((stxDetector_matches message).1 hmatches)]
      rfl
    · rw [presetDetection_isa ((isaDetector_matches message).1 hmatches)]
      rfl

/-- The parameters of a detected dialect have a version, whatever has been
registered. -/
theorem detectedParams_version (message : CString) (p : EdiParams)
    (d : EdiDetector) : (detectedParams message p d).version ≠ 0 := by
  show ediVersion ≠ 0
  decide

/-- What a detection finds are the parameters of a detector. -/
theorem ediDetect_version {rps : List EdiRegparams} {message : CString}
    {params : EdiParams} {skip : Nat}
    (h : (ediDetect rps message).found = some (params, skip)) :
    params.version ≠ 0 := by
  have hfound : (tryParams message rps).found = some (params, skip) := h
  cases tryParams_search message rps with
  | miss hnone => simp [hnone] at hfound
  | hit c hc hmatches hsome =>
    obtain ⟨rfl, -⟩ : detectedParams message c.1 c.2 = params ∧ _ := by
      simpa [hsome] using hfound
    exact detectedParams_version message c.1 c.2

/-- A detected message is parsed with the separators of its dialect, from
behind the bytes to skip. -/
theorem ediParserParse_detected {lib : EdiLib} {oparser : EdiParser}
    {message : CString} {params : EdiParams} {skip : Nat}
    (hdetect : oparser.detect = 1)
    (hfound : (ediDetect lib.detectparams message).found = some (params, skip)) :
    ediParserParse lib oparser message
      = (oparser, some ⟨(segmentLoop (ediParserInit (some params))
          message.strlen (message.bytes.drop skip)).1⟩) := by
  have hversion := ediDetect_version hfound
  rw [ediParserParse, if_pos hdetect, hfound]
  simp only [if_pos hversion]
  rw [parseBody]
  split
  · next hempty =>
    rw [List.isEmpty_iff] at hempty
    rw [hempty, segmentLoop_nil rfl]
  · rfl

/-- The raw segments of a message in its own dialect. -/
def messageSegments (lib : EdiLib) (message : CString) :
    EdiParser × List RawSegment :=
  match (ediDetect lib.detectparams message).found with
  | none => (ediParserInit none, [])
  | some (params, skip) =>
    (ediParserInit (some params), rawSegments (ediParserInit (some params))
      message.strlen (message.bytes.drop skip))

/-! ## What the search reads -/

/-- The separators and the escape of some parameters. -/
def separatorFields : List (EdiParams → UInt8) :=
  [(·.segmentSeparator), (·.elementSeparator), (·.subelementSeparator),
   (·.tagSeparator), (·.escape)]

/-- Each separator is a byte of the message, its NUL included, or the
default. -/
def SeparatorsFrom (message : CString) (dflt params : EdiParams) : Prop :=
  ∀ f ∈ separatorFields,
    f params = f dflt ∨ ∃ k ≤ message.strlen, f params = message.get k

theorem detectedByte_from {message : CString} {d : EdiDetector} {pos : Nat}
    (hpos : pos ∈ [d.segmentSeparatorPos, d.elementSeparatorPos,
      d.subelementSeparatorPos, d.tagSeparatorPos, d.escapePos])
    (hreads : ∀ k ∈ detectedReads d, k ≤ message.strlen) (dflt : UInt8) :
    detectedByte message d pos dflt = dflt ∨
      ∃ k ≤ message.strlen, detectedByte message d pos dflt = message.get k := by
  unfold detectedByte
  by_cases hzero : pos = 0
  · exact Or.inl (if_pos hzero)
  · refine Or.inr ⟨d.position + pos, hreads _ ?_, if_neg hzero⟩
    exact List.mem_map_of_mem (List.mem_filter.2 ⟨hpos, by simpa using hzero⟩)

theorem detectedParams_from {message : CString} {d : EdiDetector}
    (hreads : ∀ k ∈ detectedReads d, k ≤ message.strlen) (p : EdiParams) :
    SeparatorsFrom message p (detectedParams message p d) := by
  intro f hf
  simp only [separatorFields, List.mem_cons, List.not_mem_nil, or_false] at hf
  rcases hf with rfl | rfl | rfl | rfl | rfl <;>
    exact detectedByte_from (by simp) hreads _

/-- The dialect of a long enough message is found without leaving it. -/
theorem presetCandidates_reads {message : CString}
    {c : EdiParams × EdiDetector} (hc : c ∈ presetCandidates)
    (hmatches : c.2.Matches message)
    (hisa : ascii "ISA" <+: message.bytes → 105 ≤ message.strlen) :
    ∀ k ∈ detectedReads c.2, k ≤ message.strlen := by
  intro k hk
  simp only [presetCandidates, List.mem_cons, List.not_mem_nil, or_false]
    at hc
  rcases hc with rfl | rfl | rfl | rfl
  · have hlen := ((unaDetector_matches message).1 hmatches).2
    have hle : ∀ k ∈ detectedReads unaDetector, k ≤ 8 := by decide
    have hk8 := hle k hk
    omega
  · exact absurd hk (by simp [detectedReads, unbDetector])
  · exact absurd hk (by simp [detectedReads, stxDetector])
  · have hlen := hisa ((isaDetector_matches message).1 hmatches)
    have hle : ∀ k ∈ detectedReads isaDetector, k ≤ 105 := by decide
    have hk105 := hle k hk
    omega

/-- Only the `ISA` detector matches what starts with `ISA`. -/
theorem eq_isaDetector {message : CString} {c : EdiParams × EdiDetector}
    (hc : c ∈ presetCandidates) (hmatches : c.2.Matches message)
    (hisa : ascii "ISA" <+: message.bytes) : c.2 = isaDetector := by
  simp only [presetCandidates, List.mem_cons, List.not_mem_nil, or_false]
    at hc
  have huna := not_start hisa (ascii "UNA") (by decide) rfl
  have hunb := not_start hisa (ascii "UNB") (by decide) rfl
  have hstx := not_start hisa (ascii "STX") (by decide) rfl
  rcases hc with rfl | rfl | rfl | rfl
  · exact absurd ((unaDetector_matches message).1 hmatches).1 huna
  · exact absurd ((unbDetector_matches message).1 hmatches) hunb
  · exact absurd ((stxDetector_matches message).1 hmatches) hstx
  · rfl

/-- The parameters next to a detector of the presets are those of a preset. -/
theorem exists_presetRecord {c : EdiParams × EdiDetector}
    (hc : c ∈ presetCandidates) : ∃ rp ∈ presetRecords, rp.params = c.1 := by
  have hcand : c ∈ candidates presetRecords := hc
  obtain ⟨rp, hrp, hmem⟩ := List.mem_flatMap.1 hcand
  obtain ⟨d, -, rfl⟩ := List.mem_map.1 hmem
  exact ⟨rp, hrp, rfl⟩

/-- Detection stays in the message, and so do the separators that it returns,
unless the message starts with `ISA` and ends in front of the index 105. -/
theorem ediDetect_reads_iff {lib : EdiLib} (h : lib.HasPresets)
    (message : CString) :
    ((∀ k ∈ (ediDetect lib.detectparams message).reads, k ≤ message.strlen) ∧
      ∀ params skip,
        (ediDetect lib.detectparams message).found = some (params, skip) →
        ∃ rp ∈ presetRecords, SeparatorsFrom message rp.params params)
      ↔ ¬ (ascii "ISA" <+: message.bytes ∧ message.strlen < 105) := by
  have hreads_iff : ∀ k, k ∈ (ediDetect lib.detectparams message).reads
      ↔ k = message.strlen ∨ k ∈ (tryParams message lib.detectparams).reads :=
    fun k => List.mem_cons
  have hfound_eq : (ediDetect lib.detectparams message).found
      = (tryParams message lib.detectparams).found := rfl
  rw [hfound_eq]
  cases h.search message with
  | miss hfound hno hreads =>
    have hnoisa := hno (ediX12Params, isaDetector) (by simp [presetCandidates])
    rw [isaDetector_matches] at hnoisa
    refine ⟨fun _ hand => hnoisa hand.1, fun _ => ⟨?_, ?_⟩⟩
    · intro k hk
      rcases (hreads_iff k).1 hk with rfl | hk
      · exact Nat.le_refl _
      · exact hreads k hk
    · intro params skip hsome
      simp [hfound] at hsome
  | hit c hc hmatches hfound hreads hall =>
    constructor
    · rintro ⟨hle, -⟩ ⟨hisa, hlt⟩
      have hmem : 105 ∈ detectedReads c.2 := by
        rw [eq_isaDetector hc hmatches hisa]
        decide
      have hle105 := hle 105 ((hreads_iff 105).2 (Or.inr (hall 105 hmem)))
      omega
    · intro hnot
      have hread := presetCandidates_reads hc hmatches fun hisa => by
        by_contra hlt
        exact hnot ⟨hisa, by omega⟩
      refine ⟨?_, ?_⟩
      · intro k hk
        rcases (hreads_iff k).1 hk with rfl | hk
        · exact Nat.le_refl _
        · rcases hreads k hk with hk | hk
          · exact hk
          · exact hread k hk
      · intro params skip hsome
        obtain ⟨rfl, -⟩ : detectedParams message c.1 c.2 = params ∧ _ := by
          simpa [hfound] using hsome
        obtain ⟨rp, hrp, hparams⟩ := exists_presetRecord hc
        rw [← hparams]
        exact ⟨rp, hrp, detectedParams_from hread rp.params⟩

/-- The shortest `ISA` message. -/
def isaMessage : CString := .ofBytes (ascii "ISA") (by decide)

/-- The segment separator of `ISA` is looked for at the index 105. -/
theorem ediDetect_reads_behind_message :
    ¬ ∀ k ∈ (ediDetect presetRecords isaMessage).reads,
      k ≤ isaMessage.strlen := by
  decide

/-- A message of UN/EDIFACT. -/
def unbMessage : CString := .ofBytes (ascii "UNB+1'") (by decide)

theorem ediDetect_reads_unb :
    (∀ k ∈ (ediDetect (ediInit EdiLib.start).detectparams unbMessage).reads,
      k ≤ unbMessage.strlen) ∧
    ∀ params skip, (ediDetect (ediInit EdiLib.start).detectparams
        unbMessage).found = some (params, skip) →
      ∃ rp ∈ presetRecords, SeparatorsFrom unbMessage rp.params params :=
  (ediDetect_reads_iff ediInit_hasPresets unbMessage).2 (by decide)

end Libedi
