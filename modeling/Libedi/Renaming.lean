import Mathlib.Data.List.Nodup
import Mathlib.Logic.Equiv.Basic
import Libedi.Scanner

/-!
# Separators as symbols

A parser should know its separators as symbols only: if all bytes are renamed,
those of the message and those of the parameters, it should read the same
segments with renamed values.  `Renames` is what the renaming has to keep, and
`segmentLoop_rename` is the simulation.

The parser does not keep all of it.  The separators are `unsigned char` and the
bytes of the message `char`, so a separator from `0x80` on is never found.
`renaming_iff` says which renamings are respected.
-/

namespace Libedi

open EscapedText

/-! ## Renamed data -/

section Rename

variable (σ : UInt8 → UInt8)

def EdiValue.rename (v : EdiValue) : EdiValue := ⟨v.value.map σ, v.valuelen⟩

def EdiElement.rename : EdiElement → EdiElement
  | .untyped => .untyped
  | .simple v => .simple (v.rename σ)
  | .composite vs => .composite (vs.map (·.rename σ))

/-- The segment with renamed values, at the same offset. -/
def EdiSegment.rename (s : EdiSegment) : EdiSegment where
  elements := s.elements.map (·.rename σ)
  tag := s.tag.map (List.map σ)
  offset := s.offset

/-- The parameters with renamed separators. -/
def EdiParams.rename (params : EdiParams) : EdiParams :=
  { params with
    segmentSeparator := σ params.segmentSeparator
    elementSeparator := σ params.elementSeparator
    subelementSeparator := σ params.subelementSeparator
    tagSeparator := σ params.tagSeparator
    escape := σ params.escape }

def RawPiece.rename (x : RawPiece) : RawPiece := ⟨x.raw.map σ, x.stop.map σ⟩

def RawSegment.rename (s : RawSegment) : RawSegment :=
  { s with pieces := s.pieces.map (·.rename σ) }

def SegState.rename (st : SegState) : SegState where
  before := st.before.map (·.rename σ)
  el := st.el.map (·.rename σ)
  tag := st.tag.map (List.map σ)
  newel := st.newel

theorem EdiValue.rename_ofBytes (v : Bytes) :
    (EdiValue.ofBytes v).rename σ = .ofBytes (v.map σ) := by
  simp [EdiValue.rename, EdiValue.ofBytes]

theorem EdiElement.values_rename (e : EdiElement) :
    (e.rename σ).values = e.values.map (·.rename σ) := by
  cases e <;> rfl

theorem EdiElement.store_rename (e : EdiElement) (v : EdiValue) (sub : Bool) :
    (e.rename σ).store (v.rename σ) sub = (e.store v sub).rename σ := by
  cases e <;> cases sub <;> simp [EdiElement.rename, EdiElement.store]

theorem SegState.openElement_rename (st : SegState) :
    (st.rename σ).openElement = st.openElement.rename σ := by
  obtain ⟨before, el, tag, newel⟩ := st
  cases newel <;> cases el <;>
    simp [SegState.rename, SegState.openElement, SegState.elements,
      EdiElement.rename]

end Rename

/-! ## The simulation -/

/-- Under the renaming `σ` the parser `q` compares as `p` does.  `F` are the
values that the flag `first` may take. -/
structure Renames (σ : UInt8 → UInt8) (p q : EdiParser) (F : Bool → Prop) :
    Prop where
  newline : ∀ c, isNewline (σ c) = isNewline c
  isEscape : ∀ c, q.isEscape (σ c) = p.isEscape c
  isSeg : ∀ c, q.isSeg (σ c) = p.isSeg c
  isSub : ∀ c, q.isSub (σ c) = p.isSub c
  zero : (0 == q.sepSub) = (0 == p.sepSub)
  stops : ∀ first c, F first → q.stops first (σ c) = p.stops first c
  opens : ∀ first c, F first → p.stops first c = true →
    p.isSeg c = false → q.opens (σ c) = p.opens c
  start : F true
  next : ∀ first c, F first → p.stops first c = true →
    p.isSeg c = false → F (first && !p.opens c)

/-- Both parsers agree on what ends an element. -/
def RawPiece.Agrees (σ : UInt8 → UInt8) (p q : EdiParser) (x : RawPiece) :
    Prop :=
  (x.rename σ).endsElement q = x.endsElement p

namespace Renames

variable {σ : UInt8 → UInt8} {p q : EdiParser} {F : Bool → Prop}
  (h : Renames σ p q F)
include h

theorem scanValue_rename {first : Bool} (hF : F first) (m : Bytes) :
    scanValue q first false (m.map σ)
      = Prod.map (List.map σ) (List.map σ) (scanValue p first false m) := by
  rw [scanValue_eq_scan, scanValue_eq_scan]
  exact scan_map h.isEscape (fun c => h.stops first c hF) false m

theorem rawPieces_rename {first : Bool} (hF : F first) (m : Bytes) :
    rawPieces q first (m.map σ)
        = Prod.map (List.map (·.rename σ)) (List.map σ) (rawPieces p first m) ∧
      ∀ x ∈ (rawPieces p first m).1, x.Agrees σ p q := by
  fun_induction rawPieces p first m with
  | case1 => simp [rawPieces]
  | case2 first c cs hseg =>
    simp [rawPieces, h.isSeg, hseg]
  | case3 first c cs hseg raw hscan =>
    have hscan' := h.scanValue_rename hF (c :: cs)
    rw [hscan] at hscan'
    rw [List.map_cons] at hscan' ⊢
    rw [rawPieces_last (by simp [h.isSeg, hseg]) hscan']
    refine ⟨rfl, fun x hx => ?_⟩
    obtain rfl := List.mem_singleton.1 hx
    rfl
  | case4 first c cs hseg raw d ds hscan hd =>
    have hscan' := h.scanValue_rename hF (c :: cs)
    rw [hscan] at hscan'
    rw [List.map_cons] at hscan' ⊢
    rw [rawPieces_stop (by simp [h.isSeg, hseg]) hscan' (by simp [h.isSeg, hd])]
    refine ⟨rfl, fun x hx => ?_⟩
    obtain rfl := List.mem_singleton.1 hx
    simp [RawPiece.Agrees, RawPiece.rename, RawPiece.endsElement, h.isSeg, hd]
  | case5 first c cs hseg raw d ds hscan hd ih =>
    have hstop := scanValue_stops hscan
    have hseg' := eq_false_of_ne_true hd
    have hopens := h.opens first d hF hstop hseg'
    obtain ⟨hrest, hagrees⟩ := ih (h.next first d hF hstop hseg')
    have hscan' := h.scanValue_rename hF (c :: cs)
    rw [hscan] at hscan'
    rw [List.map_cons] at hscan' ⊢
    rw [rawPieces_next (by simp [h.isSeg, hseg]) hscan'
      (by rw [h.isSeg, hseg']), hopens, hrest]
    refine ⟨rfl, fun x hx => ?_⟩
    rcases List.mem_cons.1 hx with rfl | hx
    · simp [RawPiece.Agrees, RawPiece.rename, RawPiece.endsElement, h.isSeg,
        hopens]
    · exact hagrees x hx

theorem value_rename (x : RawPiece) :
    (x.rename σ).value q = (x.value p).rename σ := by
  rw [RawPiece.value, RawPiece.value, EdiValue.rename_ofBytes,
    memcpyescape_eq_unescape, memcpyescape_eq_unescape, RawPiece.rename,
    unescape_map h.isEscape]

theorem endsAtSub_rename (x : RawPiece) :
    (x.rename σ).endsAtSub q = x.endsAtSub p := by
  obtain ⟨raw, - | d⟩ := x
  · exact h.zero
  · exact h.isSub d

theorem recordPiece_rename (st : SegState) {x : RawPiece}
    (hx : x.Agrees σ p q) :
    recordPiece q (st.rename σ) (x.rename σ) = (recordPiece p st x).rename σ := by
  have hends : (x.rename σ).endsElement q = x.endsElement p := hx
  have hsub := h.endsAtSub_rename x
  rw [← next_eq_sepSub, ← next_eq_sepSub] at hsub
  unfold recordPiece
  rw [SegState.openElement_rename, hends, h.value_rename]
  obtain ⟨before, el, tag, newel⟩ := st.openElement
  cases el with
  | none => rfl
  | some el =>
    simp only [storeValue, SegState.rename, Option.map_some, hsub,
      EdiElement.store_rename, EdiElement.values_rename, List.length_map,
      List.isEmpty_map]
    split <;> rfl

theorem segmentOf_rename {s : RawSegment}
    (hs : ∀ x ∈ s.pieces, x.Agrees σ p q) :
    segmentOf q (s.rename σ) = (segmentOf p s).rename σ := by
  have hfold : ∀ (xs : List RawPiece) (st : SegState),
      (∀ x ∈ xs, x.Agrees σ p q) →
      (xs.map (·.rename σ)).foldl (recordPiece q) (st.rename σ)
        = (xs.foldl (recordPiece p) st).rename σ := by
    intro xs
    induction xs with
    | nil => exact fun _ _ => rfl
    | cons x xs ih =>
      intro st hxs
      rw [List.map_cons, List.foldl_cons, List.foldl_cons,
        h.recordPiece_rename st (hxs x List.mem_cons_self)]
      exact ih _ fun y hy => hxs y (List.mem_cons_of_mem x hy)
  have hstart : SegState.start.rename σ = SegState.start := rfl
  have hpieces := hfold s.pieces SegState.start hs
  rw [hstart] at hpieces
  simp only [segmentOf, RawSegment.rename, hpieces, EdiSegment.rename]
  simp [SegState.elements, SegState.rename, Option.toList_map]

theorem rawSegments_rename (total : Nat) (m : Bytes) :
    rawSegments q total (m.map σ) = (rawSegments p total m).map (·.rename σ) ∧
      ∀ s ∈ rawSegments p total m, ∀ x ∈ s.pieces, x.Agrees σ p q := by
  have hdropWhile : ∀ m : Bytes, (m.map σ).dropWhile isNewline
      = (m.dropWhile isNewline).map σ := by
    intro m
    rw [List.dropWhile_map]
    exact congrArg (fun f => (m.dropWhile f).map σ) (funext h.newline)
  fun_induction rawSegments p total m with
  | case1 m hdrop =>
    rw [rawSegments_nil (by rw [hdropWhile, hdrop, List.map_nil])]
    simp
  | case2 m c cs hdrop offset pieces hpieces =>
    obtain ⟨hmap, hagrees⟩ := h.rawPieces_rename h.start (c :: cs)
    rw [hpieces] at hmap hagrees
    rw [rawSegments_open (by rw [hdropWhile, hdrop]) (by simp) hmap,
      List.length_map]
    simpa using ⟨rfl, hagrees⟩
  | case3 m c cs hdrop offset pieces d rest hpieces ih =>
    obtain ⟨hmap, hagrees⟩ := h.rawPieces_rename h.start (c :: cs)
    rw [hpieces] at hmap hagrees
    rw [rawSegments_closed (by rw [hdropWhile, hdrop]) (by simp) hmap,
      List.length_map, ih.1]
    refine ⟨rfl, fun s hs => ?_⟩
    rcases List.mem_cons.1 hs with rfl | hs
    · exact hagrees
    · exact ih.2 s hs

/-- Renamed separators on a renamed message give the same segments, with renamed
values. -/
theorem segmentLoop_rename (total : Nat) (m : Bytes) :
    segmentLoop q total (m.map σ)
      = Prod.map (List.map (·.rename σ)) id (segmentLoop p total m) := by
  obtain ⟨hsegments, hagrees⟩ := h.rawSegments_rename total m
  rw [segmentLoop_eq, segmentLoop_eq, hsegments, List.map_map]
  refine Prod.ext ?_ ?_
  · simp only [Prod.map_fst, List.map_map]
    exact List.map_congr_left fun s hs => h.segmentOf_rename (hagrees s hs)
  · have hopen : endsOpen ((rawSegments p total m).map (·.rename σ))
        = endsOpen (rawSegments p total m) := by
      rw [endsOpen, endsOpen, List.getLast?_map]
      cases (rawSegments p total m).getLast? <;> rfl
    simp only [Prod.map_snd, id, hopen]

end Renames

/-! ## What the parser compares with -/

/-- Separators and an escape that can be told apart.  The tag separator may be
the data separator. -/
structure EdiParams.Compatible (params : EdiParams) : Prop where
  nonzero : (0 : UInt8) ∉ [params.segmentSeparator, params.elementSeparator,
    params.subelementSeparator, params.tagSeparator, params.escape]
  data : [params.segmentSeparator, params.subelementSeparator, params.escape,
    params.elementSeparator].Nodup
  tag : [params.segmentSeparator, params.subelementSeparator, params.escape,
    params.tagSeparator].Nodup

/-- The parser for parameters without separators finds none. -/
theorem charVal_beq_zero (c : UInt8) : (charVal c == 0) = (c == 0) := by
  rw [Bool.eq_iff_iff, beq_iff_eq, beq_iff_eq, charVal_eq_zero]

/-- A `char` is found to be an `unsigned char` only below 128. -/
theorem charVal_beq_toNat (c x : UInt8) :
    (charVal c == (x.toNat : Int)) = (c == x && decide (x.toNat < 128)) := by
  rw [Bool.eq_iff_iff, beq_iff_eq, charVal_eq_iff]
  constructor
  · rintro ⟨rfl, hlt⟩
    simp [hlt]
  · intro h
    simp only [Bool.and_eq_true, beq_iff_eq, decide_eq_true_eq] at h
    exact ⟨h.1, h.1 ▸ h.2⟩

section Init

variable {params : EdiParams} (hv : 0x0100 ≤ params.version)
include hv

theorem ediParserInit_of_version :
    ediParserInit (some params)
      = ⟨.none, params.segmentSeparator.toNat, params.elementSeparator.toNat,
          params.subelementSeparator.toNat, params.tagSeparator.toNat,
          params.escape.toNat, 1⟩ := by
  simp [ediParserInit, hv]

theorem init_isSeg (c : UInt8) : (ediParserInit (some params)).isSeg c
    = (c == params.segmentSeparator &&
        decide (params.segmentSeparator.toNat < 128)) := by
  rw [ediParserInit_of_version hv]
  exact charVal_beq_toNat c _

theorem init_isData (c : UInt8) : (ediParserInit (some params)).isData c
    = (c == params.elementSeparator &&
        decide (params.elementSeparator.toNat < 128)) := by
  rw [ediParserInit_of_version hv]
  exact charVal_beq_toNat c _

theorem init_isSub (c : UInt8) : (ediParserInit (some params)).isSub c
    = (c == params.subelementSeparator &&
        decide (params.subelementSeparator.toNat < 128)) := by
  rw [ediParserInit_of_version hv]
  exact charVal_beq_toNat c _

theorem init_isTag (c : UInt8) : (ediParserInit (some params)).isTag c
    = (c == params.tagSeparator &&
        decide (params.tagSeparator.toNat < 128)) := by
  rw [ediParserInit_of_version hv]
  exact charVal_beq_toNat c _

theorem init_isEscape (hescape : params.escape ≠ 0) (c : UInt8) :
    (ediParserInit (some params)).isEscape c
      = (c == params.escape && decide (params.escape.toNat < 128)) := by
  have hne : ((params.escape.toNat : Int) != 0) = true := by
    rw [ne_eq, ← UInt8.toNat_inj, UInt8.toNat_zero] at hescape
    simpa using hescape
  rw [ediParserInit_of_version hv]
  show (((params.escape.toNat : Int) != 0) &&
    charVal c == (params.escape.toNat : Int)) = _
  rw [hne, Bool.true_and, charVal_beq_toNat]

end Init

/-! ## Renamings that are respected -/

/-- The symbols that the parser itself knows. -/
structure FixesControls (σ : Equiv.Perm UInt8) : Prop where
  nul : σ 0 = 0
  cr : σ 0x0D = 0x0D
  lf : σ 0x0A = 0x0A

/-- A byte and its new name are both below 128, or both are not. -/
def SameSide (σ : Equiv.Perm UInt8) (x : UInt8) : Prop :=
  (σ x).toNat < 128 ↔ x.toNat < 128

instance (σ : Equiv.Perm UInt8) (x : UInt8) : Decidable (SameSide σ x) :=
  inferInstanceAs (Decidable (_ ↔ _))

/-- Renamed separators on a renamed message give the same segments, with renamed
values, whatever the message. -/
def RespectsRenaming (params : EdiParams) (σ : Equiv.Perm UInt8) : Prop :=
  ∀ m : Bytes, (0 : UInt8) ∉ m →
    segmentLoop (ediParserInit (some (params.rename σ))) m.length (m.map σ)
      = Prod.map (List.map (·.rename σ)) id
          (segmentLoop (ediParserInit (some params)) m.length m)

theorem FixesControls.newline {σ : Equiv.Perm UInt8} (h : FixesControls σ)
    (c : UInt8) : isNewline (σ c) = isNewline c := by
  have hcr : (σ c == 0x0D) = (c == 0x0D) := by
    rw [Bool.eq_iff_iff, beq_iff_eq, beq_iff_eq, ← h.cr, σ.apply_eq_iff_eq, h.cr]
  have hlf : (σ c == 0x0A) = (c == 0x0A) := by
    rw [Bool.eq_iff_iff, beq_iff_eq, beq_iff_eq, ← h.lf, σ.apply_eq_iff_eq, h.lf]
  rw [isNewline, isNewline, hcr, hlf]

theorem SameSide.found {σ : Equiv.Perm UInt8} {x : UInt8} (h : SameSide σ x)
    (c : UInt8) : (σ c == σ x && decide ((σ x).toNat < 128))
      = (c == x && decide (x.toNat < 128)) := by
  have hc : (σ c == σ x) = (c == x) := by
    rw [Bool.eq_iff_iff, beq_iff_eq, beq_iff_eq, σ.apply_eq_iff_eq]
  rw [hc, decide_eq_decide.2 h]

/-- Without separators any renaming is respected. -/
theorem renames_of_version {params : EdiParams}
    (hv : ¬ 0x0100 ≤ params.version) {σ : Equiv.Perm UInt8}
    (hσ : FixesControls σ) :
    Renames σ (ediParserInit (some params))
      (ediParserInit (some (params.rename σ))) fun _ => True := by
  have hp : ediParserInit (some params) = ⟨.none, 0, 0, 0, 0, 0, 1⟩ := by
    simp [ediParserInit, hv]
  have hq : ediParserInit (some (params.rename σ))
      = ⟨.none, 0, 0, 0, 0, 0, 1⟩ := by
    have hv' : ¬ 0x0100 ≤ (params.rename σ).version := hv
    simp [ediParserInit, hv']
  have hzero : ∀ c, (charVal (σ c) == 0) = (charVal c == 0) := by
    intro c
    rw [charVal_beq_zero, charVal_beq_zero, Bool.eq_iff_iff, beq_iff_eq,
      beq_iff_eq, ← hσ.nul, σ.apply_eq_iff_eq, hσ.nul]
  rw [hp, hq]
  constructor
  · exact hσ.newline
  · exact fun _ => rfl
  · exact hzero
  · exact hzero
  · rfl
  · intro first c _
    simp only [EdiParser.stops, EdiParser.isSub, EdiParser.isData,
      EdiParser.isTag, EdiParser.isSeg, hzero]
  · intro first c _ _ _
    simp only [EdiParser.opens, EdiParser.isData, EdiParser.isTag, hzero]
  · trivial
  · exact fun _ _ _ _ _ => trivial

namespace EdiParams.Compatible

variable {params : EdiParams} (h : params.Compatible)
  (hv : 0x0100 ≤ params.version)
include h

theorem escape_ne_zero : params.escape ≠ 0 := by
  have hnonzero := h.nonzero
  grind

theorem sub_ne_zero : params.subelementSeparator ≠ 0 := by
  have hnonzero := h.nonzero
  grind

theorem sub_ne_data :
    params.subelementSeparator ≠ params.elementSeparator := by
  have hdata := h.data
  grind

theorem rename {σ : Equiv.Perm UInt8} (hσ : FixesControls σ) :
    (params.rename σ).Compatible := by
  have hnul : σ 0 = 0 := hσ.nul
  refine ⟨fun hmem => h.nonzero ?_, ?_, ?_⟩
  · have hmap : (0 : UInt8) ∈ [params.segmentSeparator,
        params.elementSeparator, params.subelementSeparator,
        params.tagSeparator, params.escape].map σ := hmem
    rw [← hnul] at hmap
    exact (List.mem_map_of_injective σ.injective).1 hmap
  · exact h.data.map σ.injective
  · exact h.tag.map σ.injective

include hv in
theorem noSub : (0 == (ediParserInit (some params)).sepSub) = false := by
  have hne := h.sub_ne_zero
  rw [ne_eq, ← UInt8.toNat_inj, UInt8.toNat_zero] at hne
  rw [ediParserInit_of_version hv, beq_eq_false_iff_ne]
  show (0 : Int) ≠ (params.subelementSeparator.toNat : Int)
  omega

include hv in
/-- A tag separator that is never found leaves only the component separator to
end a value of the first element, and no element starts behind that one. -/
theorem not_opens (hlarge : 128 ≤ params.tagSeparator.toNat) {c : UInt8}
    (hstop : (ediParserInit (some params)).stops true c = true)
    (hc : (ediParserInit (some params)).isSeg c = false) :
    (ediParserInit (some params)).opens c = false := by
  have hnoTag : (ediParserInit (some params)).isTag c = false := by
    rw [init_isTag hv, decide_eq_false (by omega), Bool.and_false]
  have hfound : (ediParserInit (some params)).isSub c = true := by
    simpa [EdiParser.stops, hnoTag, hc] using hstop
  have heq : c = params.subelementSeparator := by
    rw [init_isSub hv] at hfound
    simp only [Bool.and_eq_true, beq_iff_eq] at hfound
    exact hfound.1
  rw [EdiParser.opens, hnoTag, init_isData hv, heq]
  simp [h.sub_ne_data]

include hv in
/-- If all separators stay on their side, or if the data separator need not
because the tag separator is never found, the renaming is respected. -/
theorem renames {σ : Equiv.Perm UInt8} (hσ : FixesControls σ)
    (hseg : SameSide σ params.segmentSeparator)
    (hsub : SameSide σ params.subelementSeparator)
    (hescape : SameSide σ params.escape)
    (htag : SameSide σ params.tagSeparator) {F : Bool → Prop} (hstart : F true)
    (hdata : (F = (fun _ => True) ∧ SameSide σ params.elementSeparator) ∨
      (F = (· = true) ∧ 128 ≤ params.tagSeparator.toNat)) :
    Renames σ (ediParserInit (some params))
      (ediParserInit (some (params.rename σ))) F := by
  have hv' : 0x0100 ≤ (params.rename σ).version := hv
  have hcompatible := h.rename hσ
  have hisSeg : ∀ c, (ediParserInit (some (params.rename σ))).isSeg (σ c)
      = (ediParserInit (some params)).isSeg c := by
    intro c
    rw [init_isSeg hv, init_isSeg hv']
    exact hseg.found c
  have hisSub : ∀ c, (ediParserInit (some (params.rename σ))).isSub (σ c)
      = (ediParserInit (some params)).isSub c := by
    intro c
    rw [init_isSub hv, init_isSub hv']
    exact hsub.found c
  have hisTag : ∀ c, (ediParserInit (some (params.rename σ))).isTag (σ c)
      = (ediParserInit (some params)).isTag c := by
    intro c
    rw [init_isTag hv, init_isTag hv']
    exact htag.found c
  have hisEscape : ∀ c, (ediParserInit (some (params.rename σ))).isEscape (σ c)
      = (ediParserInit (some params)).isEscape c := by
    intro c
    rw [init_isEscape hv h.escape_ne_zero,
      init_isEscape hv' hcompatible.escape_ne_zero]
    exact hescape.found c
  have hzero : (0 == (ediParserInit (some (params.rename σ))).sepSub)
      = (0 == (ediParserInit (some params)).sepSub) := by
    rw [h.noSub hv, hcompatible.noSub hv']
  rcases hdata with ⟨rfl, hdata⟩ | ⟨rfl, hlarge⟩
  · have hisData : ∀ c, (ediParserInit (some (params.rename σ))).isData (σ c)
        = (ediParserInit (some params)).isData c := by
      intro c
      rw [init_isData hv, init_isData hv']
      exact hdata.found c
    refine ⟨hσ.newline, hisEscape, hisSeg, hisSub, hzero, ?_, ?_, trivial, ?_⟩
    · intro first c _
      simp only [EdiParser.stops, hisSub, hisData, hisTag, hisSeg]
    · intro first c _ _ _
      simp only [EdiParser.opens, hisData, hisTag]
    · exact fun _ _ _ _ _ => trivial
  · -- the first element is never left
    have hlarge' : 128 ≤ (params.rename σ).tagSeparator.toNat :=
      Nat.le_of_not_lt fun hlt => Nat.not_lt.2 hlarge (htag.1 hlt)
    have hstops : ∀ c, (ediParserInit (some (params.rename σ))).stops true (σ c)
        = (ediParserInit (some params)).stops true c := by
      intro c
      simp only [EdiParser.stops, hisSub, hisTag, hisSeg, Bool.not_true,
        Bool.false_and]
    have hopens : ∀ c, (ediParserInit (some params)).stops true c = true →
        (ediParserInit (some params)).isSeg c = false →
        (ediParserInit (some params)).opens c = false ∧
          (ediParserInit (some (params.rename σ))).opens (σ c) = false := by
      intro c hstop hc
      exact ⟨h.not_opens hv hlarge hstop hc,
        hcompatible.not_opens hv' hlarge' ((hstops c).trans hstop)
          ((hisSeg c).trans hc)⟩
    refine ⟨hσ.newline, hisEscape, hisSeg, hisSub, hzero, ?_, ?_, hstart, ?_⟩
    · rintro first c rfl
      exact hstops c
    · rintro first c rfl hstop hc
      obtain ⟨hp, hq⟩ := hopens c hstop hc
      rw [hp, hq]
    · rintro first c rfl hstop hc
      rw [(hopens c hstop hc).1]
      rfl

end EdiParams.Compatible

/-! ## Messages that tell the two sides apart -/

/-- The lengths of the values, element by element. -/
def valueLengths (es : List EdiElement) : List (List Nat) :=
  es.map fun e => e.values.map (·.valuelen)

/-- What does not depend on the names of the bytes. -/
def outline (r : List EdiSegment × EdiErr) :
    List (List (List Nat)) × EdiErr :=
  (r.1.map fun s => valueLengths s.elements, r.2)

theorem outline_rename (σ : UInt8 → UInt8) (r : List EdiSegment × EdiErr) :
    outline (Prod.map (List.map (·.rename σ)) id r) = outline r := by
  refine Prod.ext ?_ rfl
  simp only [outline, Prod.map_fst, List.map_map]
  refine List.map_congr_left fun s _ => ?_
  simp only [Function.comp_apply, EdiSegment.rename, valueLengths, List.map_map]
  refine List.map_congr_left fun e _ => ?_
  simp only [Function.comp_apply, EdiElement.values_rename, List.map_map]
  rfl

/-- A byte that means nothing to the parser. -/
structure EdiParser.Plain (p : EdiParser) (c : UInt8) : Prop where
  newline : isNewline c = false
  escape : p.isEscape c = false
  stops : ∀ first, p.stops first c = false

theorem EdiParser.Plain.isSeg {p : EdiParser} {c : UInt8} (h : p.Plain c) :
    p.isSeg c = false := by
  have hstops := h.stops true
  simp only [EdiParser.stops, Bool.or_eq_false_iff] at hstops
  exact hstops.2

/-- A value goes into an element of its own. -/
theorem storeValue_fresh (p : EdiParser) {st : SegState} (h : st.newel = true)
    (v : EdiValue) (next : Int) :
    valueLengths (storeValue p st.openElement v next).elements
      = valueLengths st.elements ++ [[v.valuelen]] := by
  rw [SegState.openElement_of_newel h]
  simp only [storeValue, SegState.elements, EdiElement.store, valueLengths]
  split <;> simp [EdiElement.values]

section Outlines

variable {p : EdiParser} {a x : UInt8} (ha : p.Plain a) (total : Nat)
include ha

theorem dropWhile_plain (cs : Bytes) :
    (a :: cs).dropWhile isNewline = a :: cs :=
  List.dropWhile_cons_of_neg (by simp [ha.newline])

/-- The segment separator closes the segment. -/
theorem outline_seg (hx : p.isSeg x = true) (hesc : p.isEscape x = false) :
    outline (segmentLoop p total [a, x]) = ([[[1]]], .none) := by
  have hstop : p.stops true x = true := by simp [EdiParser.stops, hx]
  have hscan : scanValue p SegState.start.first false [a, x] = ([a], [x]) := by
    simp [SegState.first_start, scanValue, ha.escape, ha.stops, hesc, hstop]
  have hraw : memcpyescape p false [a] = [a] := by
    simp [memcpyescape, ha.escape]
  rw [segmentLoop_closed (dropWhile_plain ha [x]) (by simp)
    (elementLoop_stop ha.isSeg hscan hx), segmentLoop_nil rfl, hraw]
  exact congrArg (fun l => ([l], EdiErr.none)) (storeValue_fresh p rfl _ _)

/-- Another separator ends the value. -/
theorem outline_stop (hx : p.stops true x = true) (hseg : p.isSeg x = false)
    (hesc : p.isEscape x = false) :
    outline (segmentLoop p total [a, x]) = ([[[1]]], .unterminated) := by
  have hscan : scanValue p SegState.start.first false [a, x] = ([a], [x]) := by
    simp [SegState.first_start, scanValue, ha.escape, ha.stops, hesc, hx]
  have hraw : memcpyescape p false [a] = [a] := by
    simp [memcpyescape, ha.escape]
  rw [segmentLoop_open (dropWhile_plain ha [x]) (by simp)
    ((elementLoop_next ha.isSeg hscan hseg).trans (by rw [elementLoop])), hraw]
  exact congrArg (fun l => ([l], EdiErr.unterminated))
    (storeValue_fresh p rfl _ _)

/-- Two bytes without a meaning are one value. -/
theorem outline_plain (hx : p.Plain x) :
    outline (segmentLoop p total [a, x]) = ([[[2]]], .unterminated) := by
  have hscan : scanValue p SegState.start.first false [a, x] = ([a, x], []) := by
    simp [SegState.first_start, scanValue, ha.escape, ha.stops, hx.escape,
      hx.stops]
  have hraw : memcpyescape p false [a, x] = [a, x] := by
    simp [memcpyescape, ha.escape, hx.escape]
  rw [segmentLoop_open (dropWhile_plain ha [x]) (by simp)
    (elementLoop_last ha.isSeg hscan), hraw]
  exact congrArg (fun l => ([l], EdiErr.unterminated))
    (storeValue_fresh p rfl _ _)

/-- An escape is dropped. -/
theorem outline_escape (hx : p.isEscape x = true) :
    outline (segmentLoop p total [a, x, a]) = ([[[2]]], .unterminated) := by
  have hscan : scanValue p SegState.start.first false [a, x, a]
      = ([a, x, a], []) := by
    simp [SegState.first_start, scanValue, ha.escape, ha.stops, hx]
  have hraw : memcpyescape p false [a, x, a] = [a, a] := by
    simp [memcpyescape, ha.escape, hx]
  rw [segmentLoop_open (dropWhile_plain ha [x, a]) (by simp)
    (elementLoop_last ha.isSeg hscan), hraw]
  exact congrArg (fun l => ([l], EdiErr.unterminated))
    (storeValue_fresh p rfl _ _)

theorem outline_no_escape (hx : p.Plain x) :
    outline (segmentLoop p total [a, x, a]) = ([[[3]]], .unterminated) := by
  have hscan : scanValue p SegState.start.first false [a, x, a]
      = ([a, x, a], []) := by
    simp [SegState.first_start, scanValue, ha.escape, ha.stops, hx.escape,
      hx.stops]
  have hraw : memcpyescape p false [a, x, a] = [a, x, a] := by
    simp [memcpyescape, ha.escape, hx.escape]
  rw [segmentLoop_open (dropWhile_plain ha [x, a]) (by simp)
    (elementLoop_last ha.isSeg hscan), hraw]
  exact congrArg (fun l => ([l], EdiErr.unterminated))
    (storeValue_fresh p rfl _ _)

/-- Behind the tag separator, the data separator ends a value or is a part of
it. -/
theorem outline_data {t : UInt8} (ht : p.isTag t = true)
    (hseg : p.isSeg t = false) (hesc : p.isEscape t = false)
    (hxesc : p.isEscape x = false) (hxseg : p.isSeg x = false) :
    outline (segmentLoop p total [a, t, a, x])
      = ([[[1], [if p.stops false x then 1 else 2]]], .unterminated) := by
  have htstop : p.stops true t = true := by simp [EdiParser.stops, ht]
  have htopens : p.opens t = true := by simp [EdiParser.opens, ht]
  have hscan : scanValue p SegState.start.first false [a, t, a, x]
      = ([a], [t, a, x]) := by
    simp [SegState.first_start, scanValue, ha.escape, ha.stops, hesc, htstop]
  have hraw : memcpyescape p false [a] = [a] := by
    simp [memcpyescape, ha.escape]
  have hloop := elementLoop_next ha.isSeg hscan hseg
  rw [hraw, htopens] at hloop
  -- the tag is stored, and the next value starts an element
  generalize hst : ({ storeValue p SegState.start.openElement (.ofBytes [a])
    (charVal t) with newel := true } : SegState) = st at hloop
  have hnewel : st.newel = true := by rw [← hst]
  have htag : valueLengths st.elements = [[1]] := by
    rw [← hst]
    exact storeValue_fresh p rfl _ _
  have hfirst : st.first = false := by
    rw [SegState.first, SegState.openElement_of_newel hnewel]
    cases hel : st.elements with
    | nil => simp [hel, valueLengths] at htag
    | cons e es => rfl
  have hdrop := dropWhile_plain ha [t, a, x]
  cases hx : p.stops false x with
  | true =>
    have hscan' : scanValue p st.first false [a, x] = ([a], [x]) := by
      simp [hfirst, scanValue, ha.escape, ha.stops, hxesc, hx]
    rw [elementLoop_next ha.isSeg hscan' hxseg, elementLoop, hraw] at hloop
    rw [segmentLoop_open hdrop (by simp) hloop]
    refine congrArg (fun l => ([l], EdiErr.unterminated)) ?_
    refine (storeValue_fresh p hnewel _ _).trans ?_
    rw [htag]
    rfl
  | false =>
    have hscan' : scanValue p st.first false [a, x] = ([a, x], []) := by
      simp [hfirst, scanValue, ha.escape, ha.stops, hxesc, hx]
    have hraw' : memcpyescape p false [a, x] = [a, x] := by
      simp [memcpyescape, ha.escape, hxesc]
    rw [elementLoop_last ha.isSeg hscan', hraw'] at hloop
    rw [segmentLoop_open hdrop (by simp) hloop]
    refine congrArg (fun l => ([l], EdiErr.unterminated)) ?_
    refine (storeValue_fresh p hnewel _ _).trans ?_
    rw [htag]
    rfl

end Outlines

/-! ## Which renamings are respected -/

/-- A byte that is neither a separator nor a newline. -/
structure EdiParams.Outside (params : EdiParams) (a : UInt8) : Prop where
  newline : isNewline a = false
  nonzero : a ≠ 0
  separators : a ∉ [params.segmentSeparator, params.elementSeparator,
    params.subelementSeparator, params.tagSeparator, params.escape]

/-- There is such a byte: six letters are more than five separators. -/
theorem EdiParams.exists_outside (params : EdiParams) :
    ∃ a, params.Outside a := by
  by_contra hnone
  have hsub : [65, 66, 67, 68, 69, 70] ⊆ [params.segmentSeparator,
      params.elementSeparator, params.subelementSeparator,
      params.tagSeparator, params.escape] := by
    intro a ha
    by_contra hsep
    refine hnone ⟨a, ?_, ?_, hsep⟩
    · revert a
      simp only [List.mem_cons, List.not_mem_nil, or_false]
      rintro a (rfl | rfl | rfl | rfl | rfl | rfl) - <;> rfl
    · rintro rfl
      simp at ha
  have hnodup : ([65, 66, 67, 68, 69, 70] : List UInt8).Nodup := by decide
  have hlen := hnodup.length_le_of_subset hsub
  simp at hlen

namespace EdiParams.Compatible

variable {params : EdiParams} (h : params.Compatible)
  (hv : 0x0100 ≤ params.version) {a : UInt8} (ha : params.Outside a)
include h hv

/-- A byte that equals no separator below 128 means nothing. -/
theorem plain_of {c : UInt8} (hnl : isNewline c = false)
    (hc : ∀ x ∈ [params.segmentSeparator, params.elementSeparator,
      params.subelementSeparator, params.tagSeparator, params.escape],
      c = x → 128 ≤ x.toNat) : (ediParserInit (some params)).Plain c := by
  have hmiss : ∀ x ∈ [params.segmentSeparator, params.elementSeparator,
      params.subelementSeparator, params.tagSeparator, params.escape],
      (c == x && decide (x.toNat < 128)) = false := by
    intro x hx
    by_cases hcx : c = x
    · have hlarge := hc x hx hcx
      rw [decide_eq_false (by omega), Bool.and_false]
    · simp [hcx]
  constructor
  · exact hnl
  · rw [init_isEscape hv h.escape_ne_zero]
    exact hmiss _ (by simp)
  · intro first
    rw [EdiParser.stops, init_isSub hv, init_isData hv, init_isTag hv,
      init_isSeg hv, hmiss _ (by simp), hmiss _ (by simp), hmiss _ (by simp),
      hmiss _ (by simp)]
    simp

include ha in
theorem plain_outside : (ediParserInit (some params)).Plain a :=
  h.plain_of hv ha.newline fun _ hx he => absurd (he ▸ hx) ha.separators

/-- A byte from 128 on means nothing. -/
theorem plain_of_large {c : UInt8} (hc : 128 ≤ c.toNat) :
    (ediParserInit (some params)).Plain c := by
  refine h.plain_of hv ?_ fun x _ he => he ▸ hc
  have hcr : c ≠ 0x0D := by
    rintro rfl
    simp at hc
  have hlf : c ≠ 0x0A := by
    rintro rfl
    simp at hc
  simp [isNewline, hcr, hlf]

include ha in
theorem seg_found_iff (total : Nat) :
    outline (segmentLoop (ediParserInit (some params)) total
        [a, params.segmentSeparator]) = ([[[1]]], .none)
      ↔ params.segmentSeparator.toNat < 128 := by
  have hplain := h.plain_outside hv ha
  by_cases hlt : params.segmentSeparator.toNat < 128
  · have hseg : (ediParserInit (some params)).isSeg params.segmentSeparator
        = true := by
      rw [init_isSeg hv]
      simp [hlt]
    have hesc : (ediParserInit (some params)).isEscape params.segmentSeparator
        = false := by
      have hne := h.data
      rw [init_isEscape hv h.escape_ne_zero]
      grind
    rw [outline_seg hplain total hseg hesc]
    simp [hlt]
  · rw [outline_plain hplain total (h.plain_of_large hv (by omega))]
    simp [hlt]

include ha in
theorem sub_found_iff (total : Nat) :
    outline (segmentLoop (ediParserInit (some params)) total
        [a, params.subelementSeparator]) = ([[[1]]], .unterminated)
      ↔ params.subelementSeparator.toNat < 128 := by
  have hplain := h.plain_outside hv ha
  have hne := h.data
  by_cases hlt : params.subelementSeparator.toNat < 128
  · have hstop : (ediParserInit (some params)).stops true
        params.subelementSeparator = true := by
      rw [EdiParser.stops, init_isSub hv]
      simp [hlt]
    have hseg : (ediParserInit (some params)).isSeg params.subelementSeparator
        = false := by
      rw [init_isSeg hv]
      grind
    have hesc : (ediParserInit (some params)).isEscape
        params.subelementSeparator = false := by
      rw [init_isEscape hv h.escape_ne_zero]
      grind
    rw [outline_stop hplain total hstop hseg hesc]
    simp [hlt]
  · rw [outline_plain hplain total (h.plain_of_large hv (by omega))]
    simp [hlt]

theorem tag_not_seg : (ediParserInit (some params)).isSeg params.tagSeparator
    = false := by
  have hne := h.tag
  rw [init_isSeg hv]
  grind

theorem tag_not_escape :
    (ediParserInit (some params)).isEscape params.tagSeparator = false := by
  have hne := h.tag
  rw [init_isEscape hv h.escape_ne_zero]
  grind

include ha in
theorem tag_found_iff (total : Nat) :
    outline (segmentLoop (ediParserInit (some params)) total
        [a, params.tagSeparator]) = ([[[1]]], .unterminated)
      ↔ params.tagSeparator.toNat < 128 := by
  have hplain := h.plain_outside hv ha
  by_cases hlt : params.tagSeparator.toNat < 128
  · have hstop : (ediParserInit (some params)).stops true
        params.tagSeparator = true := by
      rw [EdiParser.stops, init_isTag hv]
      simp [hlt]
    rw [outline_stop hplain total hstop (h.tag_not_seg hv)
      (h.tag_not_escape hv)]
    simp [hlt]
  · rw [outline_plain hplain total (h.plain_of_large hv (by omega))]
    simp [hlt]

include ha in
theorem escape_found_iff (total : Nat) :
    outline (segmentLoop (ediParserInit (some params)) total
        [a, params.escape, a]) = ([[[2]]], .unterminated)
      ↔ params.escape.toNat < 128 := by
  have hplain := h.plain_outside hv ha
  by_cases hlt : params.escape.toNat < 128
  · have hesc : (ediParserInit (some params)).isEscape params.escape
        = true := by
      rw [init_isEscape hv h.escape_ne_zero]
      simp [hlt]
    rw [outline_escape hplain total hesc]
    simp [hlt]
  · rw [outline_no_escape hplain total (h.plain_of_large hv (by omega))]
    simp [hlt]

include ha in
/-- The data separator is looked for behind a tag separator that is found. -/
theorem data_found_iff (htag : params.tagSeparator.toNat < 128)
    (total : Nat) :
    outline (segmentLoop (ediParserInit (some params)) total
        [a, params.tagSeparator, a, params.elementSeparator])
        = ([[[1], [1]]], .unterminated)
      ↔ params.elementSeparator.toNat < 128 := by
  have hplain := h.plain_outside hv ha
  have hne := h.data
  have hisTag : (ediParserInit (some params)).isTag params.tagSeparator
      = true := by
    rw [init_isTag hv]
    simp [htag]
  have hseg : (ediParserInit (some params)).isSeg params.elementSeparator
      = false := by
    rw [init_isSeg hv]
    grind
  have hesc : (ediParserInit (some params)).isEscape params.elementSeparator
      = false := by
    rw [init_isEscape hv h.escape_ne_zero]
    grind
  have hsub : (ediParserInit (some params)).isSub params.elementSeparator
      = false := by
    rw [init_isSub hv]
    grind
  have hstops : (ediParserInit (some params)).stops false
      params.elementSeparator
        = decide (params.elementSeparator.toNat < 128) := by
    rw [EdiParser.stops, hsub, hseg, init_isData hv]
    simp
  rw [outline_data hplain total hisTag (h.tag_not_seg hv)
    (h.tag_not_escape hv) hesc hseg, hstops]
  by_cases hlt : params.elementSeparator.toNat < 128 <;> simp [hlt]

end EdiParams.Compatible

theorem EdiParams.Outside.rename {params : EdiParams} {a : UInt8}
    (h : params.Outside a) {σ : Equiv.Perm UInt8} (hσ : FixesControls σ) :
    (params.rename σ).Outside (σ a) := by
  refine ⟨(hσ.newline a).trans h.newline, ?_, fun hmem => h.separators ?_⟩
  · intro hzero
    exact h.nonzero (σ.injective (hzero.trans hσ.nul.symm))
  · have hmap : σ a ∈ [params.segmentSeparator, params.elementSeparator,
        params.subelementSeparator, params.tagSeparator, params.escape].map σ :=
      hmem
    exact (List.mem_map_of_injective σ.injective).1 hmap

/-- A renaming is respected exactly if the separators and the escape stay on
their side of `0x80`.  The data separator may leave it if the tag separator is
never found, because then it is never looked for. -/
theorem renaming_iff {params : EdiParams} (h : params.Compatible)
    {σ : Equiv.Perm UInt8} (hσ : FixesControls σ) :
    RespectsRenaming params σ ↔ params.version < 0x0100 ∨
      (SameSide σ params.segmentSeparator ∧
        SameSide σ params.subelementSeparator ∧ SameSide σ params.escape ∧
        SameSide σ params.tagSeparator ∧
        (SameSide σ params.elementSeparator ∨
          128 ≤ params.tagSeparator.toNat)) := by
  constructor
  · intro hrespects
    by_cases hv : params.version < 0x0100
    · exact Or.inl hv
    have hv : 0x0100 ≤ params.version := by omega
    have hv' : 0x0100 ≤ (params.rename σ).version := hv
    have h' := h.rename hσ
    obtain ⟨a, ha⟩ := params.exists_outside
    have ha' := ha.rename hσ
    have hsame : ∀ (m : Bytes) (r : List (List (List Nat)) × EdiErr),
        (0 : UInt8) ∉ m →
        (outline (segmentLoop (ediParserInit (some (params.rename σ))) m.length
            (m.map σ)) = r
          ↔ outline (segmentLoop (ediParserInit (some params)) m.length m)
            = r) := by
      intro m r hm
      rw [hrespects m hm, outline_rename]
    have hnonzero := h.nonzero
    have hazero := ha.nonzero
    have htag : SameSide σ params.tagSeparator :=
      (h'.tag_found_iff hv' ha' 2).symm.trans
        ((hsame [a, params.tagSeparator] _ (by grind)).trans
          (h.tag_found_iff hv ha 2))
    refine Or.inr ⟨?_, ?_, ?_, htag, ?_⟩
    · exact (h'.seg_found_iff hv' ha' 2).symm.trans
        ((hsame [a, params.segmentSeparator] _ (by grind)).trans
          (h.seg_found_iff hv ha 2))
    · exact (h'.sub_found_iff hv' ha' 2).symm.trans
        ((hsame [a, params.subelementSeparator] _ (by grind)).trans
          (h.sub_found_iff hv ha 2))
    · exact (h'.escape_found_iff hv' ha' 3).symm.trans
        ((hsame [a, params.escape, a] _ (by grind)).trans
          (h.escape_found_iff hv ha 3))
    · by_cases hlarge : 128 ≤ params.tagSeparator.toNat
      · exact Or.inr hlarge
      · have hlt : params.tagSeparator.toNat < 128 := by omega
        exact Or.inl ((h'.data_found_iff hv' ha' (htag.2 hlt) 4).symm.trans
          ((hsame [a, params.tagSeparator, a, params.elementSeparator] _
            (by grind)).trans (h.data_found_iff hv ha hlt 4)))
  · rintro hsides m -
    rcases hsides with hv | ⟨hseg, hsub, hescape, htag, hdata⟩
    · exact (renames_of_version (by omega) hσ).segmentLoop_rename m.length m
    · by_cases hv : 0x0100 ≤ params.version
      · rcases hdata with hdata | hlarge
        · exact (h.renames hv hσ hseg hsub hescape htag trivial
            (Or.inl ⟨rfl, hdata⟩)).segmentLoop_rename m.length m
        · exact (h.renames (F := (· = true)) hv hσ hseg hsub hescape htag rfl
            (Or.inr ⟨rfl, hlarge⟩)).segmentLoop_rename m.length m
      · exact (renames_of_version hv hσ).segmentLoop_rename m.length m

theorem ediDefaultParams_compatible : ediDefaultParams.Compatible :=
  ⟨by decide, by decide, by decide⟩

/-- The data separator of UN/EDIFACT may become another ASCII byte. -/
theorem renaming_iff_ascii :
    FixesControls (Equiv.swap '+'.toUInt8 '|'.toUInt8) ∧
      RespectsRenaming ediDefaultParams
        (Equiv.swap '+'.toUInt8 '|'.toUInt8) := by
  have hσ : FixesControls (Equiv.swap '+'.toUInt8 '|'.toUInt8) :=
    ⟨by decide, by decide, by decide⟩
  exact ⟨hσ, (renaming_iff ediDefaultParams_compatible hσ).2
    (Or.inr (by decide))⟩

/-- The separator `0x80` is not found in the message. -/
theorem renaming_not_respected :
    FixesControls (Equiv.swap '+'.toUInt8 0x80) ∧
      ediDefaultParams.Compatible ∧
      ¬ RespectsRenaming ediDefaultParams (Equiv.swap '+'.toUInt8 0x80) := by
  refine ⟨⟨by decide, by decide, by decide⟩,
    ⟨by decide, by decide, by decide⟩, fun h => ?_⟩
  have hrun := h (ascii "UNB+a'") (by decide)
  revert hrun
  decide +kernel

end Libedi
