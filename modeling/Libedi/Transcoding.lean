import Libedi.Charset
import Libedi.Dialects
import Libedi.Renaming
import Libedi.Sessions

/-!
# Transcoding in front of the conversion

`edi2xml_conv2` with a charset hands each string of a message to `iconv` when it is
written.  The whole message may be transcoded to UTF-8 first instead, and converted
without a charset.  For the charsets that have ASCII in its place this gives the same
document (`edi2xmlConv2_transcodes`): neither the parser nor the tables see a
difference.
-/

namespace Libedi

open EscapedText

/-! ## Charsets with ASCII in its place -/

/-- ASCII is written as it is, and nothing else is written with it. -/
structure Charset.OverAscii (cs : Charset) : Prop where
  ascii : ∀ c, c < 0x80 → cs.utf8 c = [c]
  other : ∀ c, ¬ c < 0x80 → ∀ d ∈ cs.utf8 c, ¬ d < 0x80

/-- All bytes are ASCII. -/
def IsAscii (s : Bytes) : Prop := ∀ c ∈ s, c < 0x80

instance (s : Bytes) : Decidable (IsAscii s) := List.decidableBAll _ _

section Convert

variable {cs : Charset} (h : cs.OverAscii)
include h

theorem Charset.OverAscii.spells :
    Spells cs.utf8 fun c => decide (c < 0x80) where
  fixed c hc := h.ascii c (of_decide_eq_true hc)
  ordinary c hc := by
    have hother := h.other c (of_decide_eq_false hc)
    exact ⟨List.length_pos_iff.1 (cs.length_pos c),
      fun d hd => decide_eq_false (hother d hd)⟩

theorem Charset.OverAscii.convert_ascii {s : Bytes} (hs : IsAscii s) :
    cs.convert s = s := by
  induction s with
  | nil => rfl
  | cons c s ih =>
    have hs' := List.forall_mem_cons.1 hs
    rw [Charset.convert, List.flatMap_cons, h.ascii c hs'.1]
    exact congrArg (c :: ·) (ih hs'.2)

/-- A string in ASCII is what only itself is converted to. -/
theorem Charset.OverAscii.convert_eq_iff {s : Bytes} (hs : IsAscii s)
    (v : Bytes) : cs.convert v = s ↔ v = s := by
  constructor
  · intro heq
    have hv : IsAscii v := by
      intro c hc
      by_contra hnot
      obtain ⟨d, hd⟩ := List.exists_mem_of_length_pos (cs.length_pos c)
      have hmem : d ∈ cs.convert v := List.mem_flatMap.2 ⟨c, hc, hd⟩
      rw [heq] at hmem
      exact h.other c hnot d hd (hs d hmem)
    rw [← heq, h.convert_ascii hv]
  · rintro rfl
    exact h.convert_ascii hs

end Convert

/-! ## Converted segments -/

section Recode

variable (cs : Charset)

/-- The converted value. -/
def EdiValue.recode (v : EdiValue) : EdiValue := .ofBytes (cs.convert v.value)

/-- The element with converted values. -/
def EdiElement.recode : EdiElement → EdiElement
  | .untyped => .untyped
  | .simple v => .simple (v.recode cs)
  | .composite vs => .composite (vs.map (·.recode cs))

/-- The segment with converted values, at the same offset. -/
def EdiSegment.recode (s : EdiSegment) : EdiSegment where
  elements := s.elements.map (·.recode cs)
  tag := s.tag.map cs.convert
  offset := s.offset

/-- A piece of a converted message.  The byte that ends it is a separator. -/
def RawPiece.recode (x : RawPiece) : RawPiece := { x with raw := cs.convert x.raw }

/-- The variables of the element loop over a converted message. -/
def SegState.recode (st : SegState) : SegState where
  before := st.before.map (·.recode cs)
  el := st.el.map (·.recode cs)
  tag := st.tag.map cs.convert
  newel := st.newel

theorem EdiElement.values_recode (e : EdiElement) :
    (e.recode cs).values = e.values.map (·.recode cs) := by
  cases e <;> rfl

theorem EdiElement.store_recode (e : EdiElement) (v : EdiValue) (sub : Bool) :
    (e.recode cs).store (v.recode cs) sub = (e.store v sub).recode cs := by
  cases e <;> cases sub <;> simp [EdiElement.recode, EdiElement.store]

theorem SegState.openElement_recode (st : SegState) :
    (st.recode cs).openElement = st.openElement.recode cs := by
  obtain ⟨before, el, tag, newel⟩ := st
  cases newel <;> cases el <;>
    simp [SegState.recode, SegState.openElement, SegState.elements,
      EdiElement.recode]

theorem recordPiece_recode {p : EdiParser} (st : SegState) {x : RawPiece}
    (hx : (x.recode cs).value p = (x.value p).recode cs) :
    recordPiece p (st.recode cs) (x.recode cs)
      = (recordPiece p st x).recode cs := by
  unfold recordPiece
  rw [SegState.openElement_recode, hx]
  obtain ⟨before, el, tag, newel⟩ := st.openElement
  cases el with
  | none => rfl
  | some el =>
    simp only [storeValue, SegState.recode, Option.map_some,
      EdiElement.store_recode, EdiElement.values_recode, List.length_map,
      List.isEmpty_map, RawPiece.recode]
    split <;> rfl

end Recode

/-! ## The parser -/

/-- No byte above ASCII is a separator. -/
structure EdiParser.InAscii (p : EdiParser) : Prop where
  isEscape : ∀ c, p.isEscape c = true → c < 0x80
  stops : ∀ first c, p.stops first c = true → c < 0x80

theorem EdiParser.InAscii.isSeg {p : EdiParser} (hp : p.InAscii) {c : UInt8}
    (hc : p.isSeg c = true) : c < 0x80 :=
  hp.stops true c (by simp [EdiParser.stops, hc])

theorem isNewline_ascii {c : UInt8} (hc : isNewline c = true) : c < 0x80 := by
  rcases Bool.or_eq_true_iff.1 hc with hc | hc
  · rw [beq_iff_eq.1 hc]
    decide
  · rw [beq_iff_eq.1 hc]
    decide

/-- The pieces of a segment end in front of its separator. -/
theorem rawPieces_ends {p : EdiParser} {first : Bool} {m rest : Bytes}
    {d : UInt8} (h : (rawPieces p first m).2 = d :: rest) : p.isSeg d = true := by
  fun_induction rawPieces p first m with
  | case1 => cases h
  | case2 first c l hseg =>
    obtain ⟨rfl, -⟩ := List.cons.inj h
    exact hseg
  | case3 => cases h
  | case4 first c l hseg raw e ds hscan he =>
    obtain ⟨rfl, -⟩ := List.cons.inj h
    exact he
  | case5 first c l hseg raw e ds hscan he ih => exact ih h

section Parser

variable {cs : Charset} (h : cs.OverAscii)
include h

/-- An ASCII byte in front stays in front. -/
theorem convert_cons_ascii {c : UInt8} (hc : c < 0x80) (l : Bytes) :
    cs.convert (c :: l) = c :: cs.convert l := by
  rw [Charset.convert, List.flatMap_cons, h.ascii c hc]
  rfl

/-- A converted text starts with a byte of the same kind. -/
theorem convert_cons {f : UInt8 → Bool} (hf : ∀ c, f c = true → c < 0x80)
    (c : UInt8) (l : Bytes) :
    ∃ d l', cs.convert (c :: l) = d :: l' ∧ f d = f c := by
  by_cases hc : c < 0x80
  · exact ⟨c, cs.convert l, convert_cons_ascii h hc l, rfl⟩
  · obtain ⟨d, ds, hd⟩ := List.exists_cons_of_length_pos (cs.length_pos c)
    have hfalse : ∀ {x}, ¬ x < 0x80 → f x = false := fun hx =>
      Bool.eq_false_iff.2 fun htrue => hx (hf _ htrue)
    refine ⟨d, ds ++ cs.convert l, ?_, ?_⟩
    · rw [Charset.convert, List.flatMap_cons, hd]
      rfl
    · rw [hfalse hc, hfalse (h.other c hc d (by rw [hd]; exact List.mem_cons_self))]

theorem dropWhile_convert (m : Bytes) :
    (cs.convert m).dropWhile isNewline = cs.convert (m.dropWhile isNewline) := by
  induction m with
  | nil => rfl
  | cons c m ih =>
    cases hc : isNewline c with
    | true =>
      rw [convert_cons_ascii h (isNewline_ascii hc),
        List.dropWhile_cons_of_pos hc, List.dropWhile_cons_of_pos hc, ih]
    | false =>
      obtain ⟨d, l, hd, hsame⟩ := convert_cons h (fun c => isNewline_ascii) c m
      rw [List.dropWhile_cons_of_neg (by simp [hc]), hd,
        List.dropWhile_cons_of_neg (by simp [hsame, hc])]

variable {p : EdiParser} (hp : p.InAscii)
include hp

theorem scanValue_recode (first : Bool) (m : Bytes) :
    scanValue p first false (cs.convert m)
      = Prod.map cs.convert cs.convert (scanValue p first false m) := by
  rw [scanValue_eq_scan, scanValue_eq_scan]
  refine scan_flatMap (h.spells.mono fun c hc => decide_eq_true ?_) false m
  rcases Bool.or_eq_true_iff.1 hc with hc | hc
  · exact hp.isEscape c hc
  · exact hp.stops first c hc

theorem value_recode (x : RawPiece) :
    (x.recode cs).value p = (x.value p).recode cs := by
  have hunescape := unescape_flatMap (h.spells.mono fun c hc =>
    decide_eq_true (hp.isEscape c hc)) false x.raw
  rw [RawPiece.value, RawPiece.value, EdiValue.recode, RawPiece.recode,
    memcpyescape_eq_unescape, memcpyescape_eq_unescape]
  exact congrArg EdiValue.ofBytes hunescape

theorem rawPieces_recode (first : Bool) (m : Bytes) :
    rawPieces p first (cs.convert m)
      = Prod.map (List.map (·.recode cs)) cs.convert (rawPieces p first m) := by
  fun_induction rawPieces p first m with
  | case1 => simp [Charset.convert, rawPieces]
  | case2 first c l hseg =>
    rw [convert_cons_ascii h (hp.isSeg hseg), rawPieces, if_pos hseg,
      ← convert_cons_ascii h (hp.isSeg hseg)]
    rfl
  | case3 first c l hseg raw hscan =>
    obtain ⟨d, l', hd, hsame⟩ := convert_cons h (fun c => hp.isSeg) c l
    have hscan' := scanValue_recode h hp first (c :: l)
    rw [hscan, hd] at hscan'
    rw [hd, rawPieces_last (hsame.trans (eq_false_of_ne_true hseg)) hscan']
    rfl
  | case4 first c l hseg raw d ds hscan hd =>
    obtain ⟨e, l', he, hsame⟩ := convert_cons h (fun c => hp.isSeg) c l
    have hscan' := scanValue_recode h hp first (c :: l)
    rw [hscan, he, Prod.map_apply, convert_cons_ascii h (hp.isSeg hd)] at hscan'
    rw [he, rawPieces_stop (hsame.trans (eq_false_of_ne_true hseg)) hscan' hd,
      ← convert_cons_ascii h (hp.isSeg hd)]
    rfl
  | case5 first c l hseg raw d ds hscan hd ih =>
    have hstop := hp.stops first d (scanValue_stops hscan)
    obtain ⟨e, l', he, hsame⟩ := convert_cons h (fun c => hp.isSeg) c l
    have hscan' := scanValue_recode h hp first (c :: l)
    rw [hscan, he, Prod.map_apply, convert_cons_ascii h hstop] at hscan'
    rw [he, rawPieces_next (hsame.trans (eq_false_of_ne_true hseg)) hscan'
      (eq_false_of_ne_true hd), ih]
    rfl

/-- A converted message has the same segments, with converted pieces. -/
theorem rawSegments_recode (total total' : Nat) (m : Bytes) :
    (rawSegments p total' (cs.convert m)).map (·.pieces)
      = (rawSegments p total m).map fun s => s.pieces.map (·.recode cs) := by
  fun_induction rawSegments p total m with
  | case1 m hdrop =>
    rw [rawSegments_nil (by rw [dropWhile_convert h, hdrop]; rfl)]
    rfl
  | case2 m c l hdrop offset pieces hpieces =>
    have hrecode := rawPieces_recode h hp true (c :: l)
    rw [hpieces] at hrecode
    obtain ⟨d, l', hd, -⟩ := convert_cons h (fun c => hp.isSeg) c l
    rw [rawSegments_open (by rw [dropWhile_convert h, hdrop])
      (by rw [hd]; simp) hrecode]
    rfl
  | case3 m c l hdrop offset pieces d rest hpieces ih =>
    have hrecode := rawPieces_recode h hp true (c :: l)
    have hd : d < 0x80 := hp.isSeg (rawPieces_ends (congrArg Prod.snd hpieces))
    rw [hpieces, Prod.map_apply, convert_cons_ascii h hd] at hrecode
    obtain ⟨e, l', he, -⟩ := convert_cons h (fun c => hp.isSeg) c l
    rw [rawSegments_closed (by rw [dropWhile_convert h, hdrop])
      (by rw [he]; simp) hrecode, List.map_cons, ih]
    rfl

/-- What the parser makes of a converted segment. -/
theorem segmentOf_recode (s : RawSegment) (offset : Nat) (closed : Bool) :
    segmentOf p ⟨offset, s.pieces.map (·.recode cs), closed⟩
      = { (segmentOf p s).recode cs with offset := offset } := by
  have hfold : ∀ (xs : List RawPiece) (st : SegState),
      (xs.map (·.recode cs)).foldl (recordPiece p) (st.recode cs)
        = (xs.foldl (recordPiece p) st).recode cs := by
    intro xs
    induction xs with
    | nil => exact fun _ => rfl
    | cons x xs ih =>
      intro st
      rw [List.map_cons, List.foldl_cons, List.foldl_cons,
        recordPiece_recode cs st (value_recode h hp x)]
      exact ih _
  have hpieces := hfold s.pieces SegState.start
  rw [show SegState.start.recode cs = SegState.start from rfl] at hpieces
  simp only [segmentOf, hpieces, EdiSegment.recode]
  simp [SegState.elements, SegState.recode, Option.toList_map]

/-- The elements of a segment, and its tag. -/
def EdiSegment.contents (x : EdiSegment) : List EdiElement × Option Bytes :=
  (x.elements, x.tag)

/-- The segments of a converted message are the converted segments. -/
theorem segmentLoop_recode (total total' : Nat) (m : Bytes) :
    (segmentLoop p total' (cs.convert m)).1.map EdiSegment.contents
      = (segmentLoop p total m).1.map fun x => (x.recode cs).contents := by
  have hpieces : ∀ segs : List RawSegment,
      (segs.map (segmentOf p)).map EdiSegment.contents
        = (segs.map (·.pieces)).map fun pieces =>
          (segmentOf p ⟨0, pieces, true⟩).contents := by
    intro segs
    rw [List.map_map, List.map_map]
    rfl
  rw [segmentLoop_eq, segmentLoop_eq, hpieces, rawSegments_recode h hp total,
    List.map_map, List.map_map]
  refine List.map_congr_left fun s _ => ?_
  simp only [Function.comp_apply, segmentOf_recode h hp]
  rfl

end Parser

/-! ## The detection -/

section Detection

variable {cs : Charset} (h : cs.OverAscii)

theorem Charset.convert_append (s t : Bytes) :
    cs.convert (s ++ t) = cs.convert s ++ cs.convert t :=
  List.flatMap_append

include h

/-- A message that starts with ASCII starts with the same bytes when it is
converted. -/
theorem convert_split {m : Bytes} {n : Nat} (hhead : IsAscii (m.take n)) :
    cs.convert m = m.take n ++ cs.convert (m.drop n) := by
  conv_lhs => rw [← List.take_append_drop n m]
  rw [Charset.convert_append, h.convert_ascii hhead]

theorem convert_drop {m : Bytes} {n : Nat} (hhead : IsAscii (m.take n))
    (hn : n ≤ m.length) : (cs.convert m).drop n = cs.convert (m.drop n) := by
  rw [convert_split h hhead]
  exact List.drop_left' (List.length_take_of_le hn)

theorem convert_take {m : Bytes} {n : Nat} (hhead : IsAscii (m.take n)) :
    (cs.convert m).take n = m.take n := by
  by_cases hn : n ≤ m.length
  · rw [convert_split h hhead]
    exact List.take_left' (List.length_take_of_le hn)
  · rw [List.take_of_length_le (by omega)] at hhead
    rw [h.convert_ascii hhead]

end Detection

/-- The message in UTF-8, at the same place in memory. -/
def CString.transcode (cs : Charset) (message : CString) : CString where
  bytes := cs.convert message.bytes
  nulFree := cs.zero_notMem_convert message.nulFree
  beyond := message.beyond

/-- The presets read no byte of a message behind these. -/
def headLength : Nat := 106

section Detection

variable {cs : Charset} (h : cs.OverAscii) {message : CString}
  (hhead : IsAscii (message.bytes.take headLength))
include h hhead

/-- A message that is not longer than its head is not changed. -/
theorem transcode_short (hlen : message.bytes.length ≤ headLength) :
    message.transcode cs = message := by
  rw [List.take_of_length_le hlen] at hhead
  obtain ⟨bytes, hzero, beyond⟩ := message
  simp only [CString.transcode, CString.mk.injEq, and_true]
  exact h.convert_ascii hhead

theorem transcode_length_le {n : Nat} (hn : n ≤ headLength) :
    n ≤ (message.transcode cs).strlen ↔ n ≤ message.strlen := by
  have htake := congrArg List.length (convert_take h hhead)
  rw [List.length_take, List.length_take] at htake
  show n ≤ (cs.convert message.bytes).length ↔ n ≤ message.bytes.length
  omega

theorem transcode_get {k : Nat} (hk : k < headLength) :
    (message.transcode cs).get k = message.get k := by
  by_cases hlen : message.bytes.length ≤ headLength
  · rw [transcode_short h hhead hlen]
  · have hlt : k < message.strlen := by
      show k < message.bytes.length
      omega
    have hlt' : k < (message.transcode cs).strlen :=
      (transcode_length_le h hhead (Nat.succ_le_of_lt hk)).2 hlt
    rw [CString.get_of_lt hlt, CString.get_of_lt hlt']
    have htake := congrArg (·[k]?) (convert_take h hhead)
    simp only [List.getElem?_take_of_lt hk] at htake
    rw [List.getD_eq_getElem?_getD, List.getD_eq_getElem?_getD]
    exact congrArg (Option.getD · 0) htake

theorem transcode_start {s : Bytes} (hs : s.length ≤ headLength) :
    s <+: (message.transcode cs).bytes ↔ s <+: message.bytes := by
  have htake : (cs.convert message.bytes).take s.length
      = message.bytes.take s.length := by
    have hboth := congrArg (List.take s.length) (convert_take h hhead)
    rwa [List.take_take, List.take_take, Nat.min_eq_left hs] at hboth
  rw [List.prefix_iff_eq_take, List.prefix_iff_eq_take]
  show s = (cs.convert message.bytes).take s.length ↔ _
  rw [htake]

theorem detectedParams_transcode {p : EdiParams} {d : EdiDetector}
    (hreads : ∀ k ∈ detectedReads d, k < headLength) :
    detectedParams (message.transcode cs) p d = detectedParams message p d := by
  have hbyte : ∀ (pos : Nat) (dflt : UInt8),
      pos ∈ [d.segmentSeparatorPos, d.elementSeparatorPos,
        d.subelementSeparatorPos, d.tagSeparatorPos, d.escapePos] →
      detectedByte (message.transcode cs) d pos dflt
        = detectedByte message d pos dflt := by
    intro pos dflt hpos
    unfold detectedByte
    split_ifs with hzero
    · rfl
    · refine transcode_get h hhead (hreads _ ?_)
      exact List.mem_map.2 ⟨pos, List.mem_filter.2 ⟨hpos, by simpa using hzero⟩, rfl⟩
  unfold detectedParams
  rw [hbyte _ _ (by simp), hbyte _ _ (by simp), hbyte _ _ (by simp),
    hbyte _ _ (by simp), hbyte _ _ (by simp)]

/-- The same dialect is detected. -/
theorem presetDetection_transcode :
    presetDetection (message.transcode cs) = presetDetection message := by
  unfold presetDetection
  simp only [transcode_start h hhead (s := ascii "UNA") (by decide),
    transcode_start h hhead (s := ascii "UNB") (by decide),
    transcode_start h hhead (s := ascii "STX") (by decide),
    transcode_start h hhead (s := ascii "ISA") (by decide),
    transcode_length_le h hhead (show 9 ≤ headLength by decide),
    detectedParams_transcode h hhead (d := unaDetector) (by decide),
    detectedParams_transcode h hhead (d := unbDetector) (by decide),
    detectedParams_transcode h hhead (d := stxDetector) (by decide),
    detectedParams_transcode h hhead (d := isaDetector) (by decide)]

end Detection

/-! ## The whole parser -/

/-- A parser that was made for parameters finds no byte above ASCII. -/
theorem ediParserInit_inAscii {params : EdiParams}
    (hv : 0x0100 ≤ params.version) :
    (ediParserInit (some params)).InAscii := by
  have hsmall : ∀ {c x : UInt8}, (charVal c == (x.toNat : Int)) = true →
      c < 0x80 := by
    intro c x hcx
    rw [charVal_beq_toNat, Bool.and_eq_true, beq_iff_eq, decide_eq_true_eq] at hcx
    rw [hcx.1, UInt8.lt_iff_toNat_lt]
    exact hcx.2
  rw [ediParserInit_of_version hv]
  constructor
  · intro c hc
    exact hsmall (Bool.and_eq_true_iff.1 hc).2
  · intro first c hc
    simp only [EdiParser.stops, EdiParser.isSub, EdiParser.isData,
      EdiParser.isTag, EdiParser.isSeg, Bool.or_eq_true, Bool.and_eq_true] at hc
    rcases hc with ((hc | ⟨-, hc⟩) | ⟨-, hc⟩) | hc <;> exact hsmall hc

theorem presetDetection_version {message : CString} {params : EdiParams}
    {skip : Nat} (hfound : presetDetection message = some (params, skip)) :
    params.version = ediVersion ∧ skip ≤ message.strlen ∧ skip ≤ headLength := by
  unfold presetDetection at hfound
  split_ifs at hfound with huna
  · obtain ⟨rfl, rfl⟩ := Prod.mk.inj (Option.some.inj hfound)
    exact ⟨rfl, huna.2, by decide⟩
  all_goals
    obtain ⟨rfl, rfl⟩ := Prod.mk.inj (Option.some.inj hfound)
    exact ⟨rfl, Nat.zero_le _, Nat.zero_le _⟩

/-- A message in UTF-8 is parsed to the same segments, with converted values. -/
theorem ediParserParse_transcode {cs : Charset} (h : cs.OverAscii)
    {edi : EdiLib} (hedi : edi.HasPresets) {oparser : EdiParser}
    (hdetect : oparser.detect = 1) {message : CString}
    (hhead : IsAscii (message.bytes.take headLength)) :
    (ediParserParse edi oparser (message.transcode cs)).2.map
        (·.segments.map EdiSegment.contents)
      = (ediParserParse edi oparser message).2.map
        (·.segments.map fun x => (x.recode cs).contents) := by
  have hsame : (ediDetect edi.detectparams (message.transcode cs)).found
      = (ediDetect edi.detectparams message).found := by
    rw [ediDetect_preset hedi, ediDetect_preset hedi,
      presetDetection_transcode h hhead]
  cases hfound : (ediDetect edi.detectparams message).found with
  | none =>
    rw [hfound] at hsame
    rw [ediParserParse, if_pos hdetect, hsame, ediParserParse, if_pos hdetect,
      hfound]
    rfl
  | some r =>
    obtain ⟨params, skip⟩ := r
    rw [hfound] at hsame
    rw [ediDetect_preset hedi] at hfound
    obtain ⟨hversion, hskip, hskip'⟩ := presetDetection_version hfound
    rw [← ediDetect_preset hedi] at hfound
    have htake : IsAscii (message.bytes.take skip) := by
      intro c hc
      refine hhead c ?_
      rw [← Nat.min_eq_left hskip', ← List.take_take] at hc
      exact List.mem_of_mem_take hc
    rw [ediParserParse_detected hdetect hsame,
      ediParserParse_detected hdetect hfound]
    show some _ = some _
    refine congrArg some ?_
    rw [show (message.transcode cs).bytes = cs.convert message.bytes from rfl,
      convert_drop h htake hskip]
    exact segmentLoop_recode h (ediParserInit_inAscii (by rw [hversion]; decide))
      _ _ _

/-! ## The conversion -/

section Steps

variable (f : Bytes → Bytes)

/-- The part with its string changed. -/
def Part.recode : Part → Part
  | .plain text => .plain text
  | .escaped src => .escaped (f src)

/-- The item with its strings changed. -/
def Xml.recode : Xml → Xml
  | .comment parts => .comment (parts.map (Part.recode f))
  | .chars parts => .chars (parts.map (Part.recode f))
  | x => x

/-- The step with its strings changed. -/
def Step.recode : Step → Step
  | .out xs => .out (xs.map (Xml.recode f))
  | .element name val => .element name (f val)
  | s => s

/-- What is written on a condition has no strings. -/
theorem outIf_recode {c : Prop} [Decidable c] {xs : List Xml}
    (hxs : xs.map (Xml.recode f) = xs) :
    (outIf c xs).map (Step.recode f) = outIf c xs := by
  unfold outIf
  split_ifs
  · simp [Step.recode, hxs]
  · rfl

theorem error_recode (opts : Edi2xmlConfig) (msg : Bytes) :
    (error opts msg).map (Step.recode f) = error opts msg := by
  rw [error, List.map_cons, outIf_recode f rfl]
  rfl

end Steps

/-- What is written of the tables, or compared with a message, is ASCII. -/
structure AsciiTables (all : EdistructAll) : Prop where
  elems : ∀ e ∈ all.elems, IsAscii e.title
  codes : ∀ t ∈ all.codes, ∀ z ∈ t.vals, IsAscii z.name ∧ IsAscii z.title

/-- A value that is in the tables is ASCII, and so is its title. -/
theorem AsciiTables.found {all : EdistructAll} (hall : AsciiTables all)
    {name val : Bytes} {z : EdistructCoded}
    (hz : findCodedValue all name val = some (some z)) :
    IsAscii val ∧ IsAscii z.title := by
  obtain ⟨t, ht, -, hmem, rfl⟩ := findCodedValue_sound hz
  exact hall.codes t ht z hmem

/-- A value as the parser makes it. -/
def EdiValue.Measured (v : EdiValue) : Prop := v = .ofBytes v.value

/-- What holds for the values of an element, and for no value, holds for those that
fit. -/
theorem elementFit_values {f : EdiValue → Prop} (hempty : f ⟨[], 0⟩)
    (child : EdistructChild) (cstruct : Option EdistructComposite)
    {e : EdiElement} (he : ∀ v ∈ e.values, f v) :
    match elementFit child cstruct e with
    | .composite values => ∀ v ∈ values, f v
    | .simple v => f v
    | _ => True := by
  have hsimple : f e.simpleValue := by
    cases e with
    | untyped => exact hempty
    | simple v => exact he v (List.mem_singleton.2 rfl)
    | composite vs => exact hempty
  unfold elementFit
  cases child.isComposite with
  | false =>
    cases e with
    | simple v => exact hsimple
    | _ => trivial
  | true =>
    cases e with
    | composite vs => exact he
    | _ =>
      cases cstruct with
      | none => trivial
      | some c =>
        dsimp only
        cases canBeTruncated c with
        | none => trivial
        | some b =>
          cases b with
          | true => exact List.forall_mem_singleton.2 hsimple
          | false => trivial

section Convert

variable {cs : Charset} (h : cs.OverAscii) (opts : Edi2xmlConfig)
  {all : EdistructAll} (hall : AsciiTables all)
include h hall

theorem findActualValue_recode {t : EdistructCodedElements}
    (ht : t ∈ all.codes) (val : Bytes) :
    findActualValue t (cs.convert val) = findActualValue t val := by
  by_cases hval : IsAscii val
  · rw [h.convert_ascii hval]
  · have habsent : ∀ z ∈ t.vals, z.name ≠ val ∧ z.name ≠ cs.convert val := by
      intro z hz
      have hname := (hall.codes t ht z hz).1
      constructor
      · rintro rfl
        exact hval hname
      · intro heq
        have hsame := (h.convert_eq_iff hname val).1 heq.symm
        rw [hsame] at hval
        exact hval hname
    unfold findActualValue
    by_cases hvals : t.vals = []
    · rw [hvals, BinarySearch.find_nil, BinarySearch.find_nil]
    · rw [find_absent hvals fun z hz => (habsent z hz).1,
        find_absent hvals fun z hz => (habsent z hz).2]

theorem findCodedValue_recode (name val : Bytes) :
    findCodedValue all name (cs.convert val) = findCodedValue all name val := by
  unfold findCodedValue
  cases hfind : BinarySearch.find
      (fun e : EdistructCodedElements => strcmp name e.el) all.codes with
  | none => rfl
  | some r =>
    cases r with
    | none => rfl
    | some t =>
      exact findActualValue_recode h hall (BinarySearch.find_sound hfind).1 val

theorem codedToXml_recode (name val : Bytes) :
    codedToXml opts all name (cs.convert val)
      = ((codedToXml opts all name val).1.map (Step.recode cs.convert),
        (codedToXml opts all name val).2.map (·.map (Xml.recode cs.convert))) := by
  unfold codedToXml
  rw [findCodedValue_recode h hall]
  cases hfind : findCodedValue all name val with
  | none => rfl
  | some r =>
    cases r with
    | none => rfl
    | some z =>
      obtain ⟨hval, htitle⟩ := hall.found hfind
      dsimp only
      rw [h.convert_ascii hval, outIf_recode cs.convert rfl]
      split_ifs
      · rfl
      · simp [Xml.recode, Part.recode, h.convert_ascii htitle]
      · rfl

theorem elementToXml_recode (name val : Bytes) :
    elementToXml opts all name (cs.convert val)
      = (elementToXml opts all name val).map (Step.recode cs.convert) := by
  rw [elementToXml, elementToXml, List.map_cons, List.map_append,
    outIf_recode cs.convert rfl]
  refine congrArg (Step.element name (cs.convert val) :: ·) (congrArg _ ?_)
  cases findEdistructElement all name with
  | none => rfl
  | some r =>
    cases r with
    | none => exact (error_recode cs.convert opts _).symm
    | some e =>
      dsimp only
      by_cases hcoded : e.isCoded = true
      · rw [if_pos hcoded, if_pos hcoded, codedToXml_recode h opts hall]
        cases (codedToXml opts all name val).2 <;>
          simp [Step.recode, Xml.recode, Part.recode, newline]
      · rw [if_neg hcoded, if_neg hcoded]
        rfl

theorem elementMissingXml_recode (name : Bytes) :
    (elementMissingXml opts all name).map (Step.recode cs.convert)
      = elementMissingXml opts all name := by
  unfold elementMissingXml
  split_ifs
  · cases hfind : findEdistructElement all name with
    | none => rfl
    | some r =>
      cases r with
      | none => rfl
      | some e =>
        have htitle := hall.elems e (BinarySearch.find_sound hfind).1
        simp [Step.recode, Xml.recode, Part.recode, newline,
          h.convert_ascii htitle]
  · rfl

theorem componentsToXml_recode (children : List EdistructChild)
    {values : List EdiValue} (hvalues : ∀ v ∈ values, v.Measured) :
    componentsToXml opts all children (values.map (·.recode cs))
      = (componentsToXml opts all children values).map (Step.recode cs.convert) := by
  induction children generalizing values with
  | nil => cases values <;> rfl
  | cons c children ih =>
    cases values with
    | nil =>
      rw [List.map_nil, componentsToXml, List.map_append,
        elementMissingXml_recode h opts hall]
      exact congrArg _ (ih hvalues)
    | cons v values =>
      rw [List.forall_mem_cons] at hvalues
      have hlength : (v.recode cs).valuelen ≠ 0 ↔ v.valuelen ≠ 0 := by
        rw [hvalues.1]
        show (cs.convert v.value).length ≠ 0 ↔ v.value.length ≠ 0
        rw [ne_eq, ne_eq, List.length_eq_zero_iff, List.length_eq_zero_iff,
          h.convert_eq_iff (by decide)]
      rw [List.map_cons, componentsToXml, componentsToXml, List.map_append,
        ih hvalues.2]
      refine congrArg (· ++ _) ?_
      by_cases hv : v.valuelen ≠ 0
      · rw [if_pos hv, if_pos (hlength.2 hv)]
        exact elementToXml_recode h opts hall c.code v.value
      · rw [if_neg hv, if_neg fun hr => hv (hlength.1 hr),
          elementMissingXml_recode h opts hall]

theorem compositeToXml_recode (code : Bytes)
    (cstruct : Option EdistructComposite) {values : List EdiValue}
    (hvalues : ∀ v ∈ values, v.Measured) :
    compositeToXml opts all code cstruct (values.map (·.recode cs))
      = (compositeToXml opts all code cstruct values).map (Step.recode cs.convert) := by
  unfold compositeToXml
  rw [List.map_append, outIf_recode cs.convert rfl]
  refine congrArg _ ?_
  cases cstruct with
  | none => rfl
  | some c =>
    dsimp only
    rw [componentsToXml_recode h opts hall c.children hvalues]
    simp [Step.recode, Xml.recode, newline, Part.recode]

/-- How a converted element fits. -/
def Fit.recode (cs : Charset) : Fit → Fit
  | .simple v => .simple (v.recode cs)
  | .composite values => .composite (values.map (·.recode cs))
  | x => x

omit h hall in
theorem elementFit_recode (cs : Charset) (child : EdistructChild)
    (cstruct : Option EdistructComposite) (e : EdiElement) :
    elementFit child cstruct (e.recode cs)
      = (elementFit child cstruct e).recode cs := by
  have hempty : EdiValue.recode cs ⟨[], 0⟩ = ⟨[], 0⟩ := rfl
  unfold elementFit
  cases child.isComposite with
  | false => cases e <;> rfl
  | true =>
    cases e with
    | composite values => rfl
    | untyped =>
      cases cstruct with
      | none => rfl
      | some c =>
        cases hc : canBeTruncated c with
        | none => simp [EdiElement.recode, hc, Fit.recode]
        | some b =>
          cases b <;> simp [EdiElement.recode, EdiElement.simpleValue, hc,
            Fit.recode, hempty]
    | simple v =>
      cases cstruct with
      | none => rfl
      | some c =>
        cases hc : canBeTruncated c with
        | none => simp [EdiElement.recode, hc, Fit.recode]
        | some b =>
          cases b <;> simp [EdiElement.recode, EdiElement.simpleValue, hc,
            Fit.recode]

/-- The values of an element are as the parser makes them. -/
def EdiElement.Measured (e : EdiElement) : Prop := ∀ v ∈ e.values, v.Measured

theorem childrenToXml_recode (children : List EdistructChild)
    {es : List EdiElement} (hes : ∀ e ∈ es, e.Measured) :
    childrenToXml opts all children (es.map (·.recode cs))
      = ((childrenToXml opts all children es).1.map (Step.recode cs.convert),
        (childrenToXml opts all children es).2.map (·.recode cs)) := by
  induction children generalizing es with
  | nil => cases es <;> rfl
  | cons child children ih =>
    have hmissing := error_recode cs.convert opts
      (ascii "mandatory element " ++ child.code ++ ascii " is missing")
    cases hstruct : childStruct all child with
    | none =>
      cases es <;> simp only [childrenToXml, hstruct, List.map_cons, List.map_nil] <;>
        rfl
    | some cstruct =>
      cases es with
      | nil =>
        simp only [childrenToXml, hstruct, List.map_nil]
        split_ifs
        · exact ih hes
        · rw [hmissing, List.map_nil]
      | cons e es =>
        rw [List.forall_mem_cons] at hes
        have hrest := ih hes.2
        have hfit := elementFit_recode cs child cstruct e
        simp only [childrenToXml, hstruct, List.map_cons]
        rw [hfit]
        cases hkind : elementFit child cstruct e with
        | fault f => rfl
        | mismatch =>
          simp only [Fit.recode]
          split_ifs
          · rw [hrest, List.map_append, elementMissingXml_recode h opts hall]
          · rw [hmissing, List.map_cons]
        | composite values =>
          simp only [Fit.recode]
          rw [hrest, List.map_append,
            compositeToXml_recode h opts hall _ _ (by
              have hvalues := elementFit_values (show EdiValue.Measured ⟨[], 0⟩
                from rfl) child cstruct hes.1
              rwa [hkind] at hvalues)]
        | simple v =>
          simp only [Fit.recode]
          rw [hrest, List.map_append]
          exact congrArg (fun x => (x ++ _, _))
            (elementToXml_recode h opts hall child.code v.value)

omit hall in
theorem dataElements_recode {tag : Bytes} (htag : IsAscii tag)
    (es : List EdiElement) :
    dataElements tag (es.map (·.recode cs))
      = (dataElements tag es).map (·.recode cs) := by
  cases es with
  | nil => rfl
  | cons e es =>
    cases e with
    | untyped => rfl
    | composite vs => rfl
    | simple v =>
      have hsame : (v.recode cs).value = tag ↔ v.value = tag :=
        h.convert_eq_iff htag v.value
      rw [List.map_cons]
      show dataElements tag (.simple (v.recode cs) :: _) = _
      unfold dataElements
      dsimp only
      by_cases hv : v.value = tag
      · rw [if_pos hv, if_pos (hsame.2 hv)]
      · rw [if_neg hv, if_neg fun hr => hv (hsame.1 hr)]
        rfl

omit h hall in
theorem extraData_recode (tag : Bytes) (es : List EdiElement) :
    extraData opts tag (es.map (·.recode cs))
      = (extraData opts tag es).map (Step.recode cs.convert) := by
  unfold extraData
  simp only [List.map_eq_nil_iff, List.length_map]
  split_ifs
  · rfl
  · rw [error_recode]
  · rw [error_recode]

omit h hall in
theorem parseMessageHeader_recode (cs : Charset) (opts : Edi2xmlConfig) (x : EdiSegment) :
    parseMessageHeader opts (x.recode cs)
      = (parseMessageHeader opts x).map (Step.recode cs.convert) := by
  have hheader : ∀ es : List EdiElement,
      isMessageHeader (es.map (·.recode cs)) = isMessageHeader es := by
    intro es
    match es with
    | [_, _, .composite values] => simp [isMessageHeader, EdiElement.recode]
    | [_, _, .untyped] => rfl
    | [_, _, .simple v] => rfl
    | [] => rfl
    | [_] => rfl
    | [_, _] => rfl
    | _ :: _ :: e :: _ :: _ => cases e <;> rfl
  unfold parseMessageHeader
  rw [show (x.recode cs).elements = x.elements.map (·.recode cs) from rfl,
    hheader, List.length_map]
  split_ifs
  · rfl
  · rw [error_recode]

/-- What a segment of a converted message has for its tag, and for its values. -/
structure EdiSegment.Plain (x : EdiSegment) : Prop where
  tag : ∀ tag ∈ x.tag, IsAscii tag
  values : ∀ e ∈ x.elements, e.Measured

theorem segmentToXml_recode {x : EdiSegment} (hx : x.Plain) :
    segmentToXml opts all (x.recode cs)
      = (segmentToXml opts all x).map (Step.recode cs.convert) := by
  obtain ⟨es, tag, offset⟩ := x
  cases tag with
  | none => rfl
  | some tag =>
    have htag : IsAscii tag := hx.tag tag rfl
    have hdata : ∀ e ∈ dataElements tag es, e.Measured := by
      intro e he
      refine hx.values e ?_
      unfold dataElements at he
      split at he
      · split_ifs at he
        · exact List.mem_cons_of_mem _ he
        · exact he
      · exact he
    unfold segmentToXml
    simp only [EdiSegment.recode, Option.map_some, h.convert_ascii htag]
    cases findEdistructSegment all tag with
    | none => rfl
    | some r =>
      cases r with
      | none => exact (error_recode cs.convert opts _).symm
      | some sstruct =>
        simp only [List.map_eq_nil_iff]
        split_ifs
        · rfl
        · rw [dataElements_recode h htag, childrenToXml_recode h opts hall _ hdata,
            extraData_recode, List.map_append, outIf_recode cs.convert rfl]
          simp [Step.recode, Xml.recode, newline, Part.recode]

/-- A converted segment is written with converted strings. -/
theorem convSegment_recode {x : EdiSegment} (hx : x.Plain) :
    convSegment opts all (x.recode cs)
      = (convSegment opts all x).map (Step.recode cs.convert) := by
  have hsegment := segmentToXml_recode h opts hall hx
  have hheader := parseMessageHeader_recode cs opts x
  obtain ⟨es, tag, offset⟩ := x
  cases tag with
  | none => rfl
  | some tag =>
    have htag : IsAscii tag := hx.tag tag rfl
    unfold convSegment
    rw [hsegment]
    simp only [EdiSegment.recode, Option.map_some, h.convert_ascii htag]
      at hheader ⊢
    simp only [List.map_append]
    rw [outIf_recode cs.convert rfl, outIf_recode cs.convert rfl, outIf_recode cs.convert rfl,
      outIf_recode cs.convert rfl, outIf_recode cs.convert rfl, outIf_recode cs.convert rfl]
    by_cases hunh : tag = ascii "UNH"
    · simp only [if_pos hunh, hheader]
    · simp only [if_neg hunh, List.map_nil]

end Convert

/-! ## The values of a message -/

section Values

variable {p : EdiParser}

theorem memcpyescape_sublist (e : Bool) (src : Bytes) :
    (memcpyescape p e src).Sublist src := by
  fun_induction memcpyescape p e src with
  | case1 => exact List.Sublist.refl _
  | case2 c src ih => exact ih.cons_cons c
  | case3 c src hc ih => exact ih.cons c
  | case4 c src hc ih => exact ih.cons_cons c

/-- The pieces of a message, and what is left of it, are parts of it. -/
theorem rawPieces_sublist (first : Bool) (m : Bytes) :
    (∀ x ∈ (rawPieces p first m).1, x.raw.Sublist m) ∧
      (rawPieces p first m).2.Sublist m := by
  fun_induction rawPieces p first m with
  | case1 => simp
  | case2 => simp
  | case3 first c l hseg raw hscan =>
    refine ⟨List.forall_mem_singleton.2 ?_, List.nil_sublist _⟩
    rw [← scanValue_concat hscan]
    exact List.sublist_append_left raw _
  | case4 first c l hseg raw d ds hscan hd =>
    rw [← scanValue_concat hscan]
    exact ⟨List.forall_mem_singleton.2 (List.sublist_append_left raw _),
      List.sublist_append_right raw _⟩
  | case5 first c l hseg raw d ds hscan hd ih =>
    have hrest : ds.Sublist (c :: l) := by
      rw [← scanValue_concat hscan]
      exact (List.sublist_cons_self d ds).trans (List.sublist_append_right raw _)
    refine ⟨List.forall_mem_cons.2 ⟨?_, fun x hx => (ih.1 x hx).trans hrest⟩,
      ih.2.trans hrest⟩
    rw [← scanValue_concat hscan]
    exact List.sublist_append_left raw _

theorem rawSegments_sublist (total : Nat) (m : Bytes) :
    ∀ s ∈ rawSegments p total m, ∀ x ∈ s.pieces, x.raw.Sublist m := by
  fun_induction rawSegments p total m with
  | case1 => simp
  | case2 m c l hdrop offset pieces hpieces =>
    have hl : (c :: l).Sublist m := hdrop ▸ List.dropWhile_sublist _
    have hraw := (rawPieces_sublist (p := p) true (c :: l)).1
    rw [hpieces] at hraw
    exact List.forall_mem_singleton.2 fun x hx => (hraw x hx).trans hl
  | case3 m c l hdrop offset pieces d rest hpieces ih =>
    have hl : (c :: l).Sublist m := hdrop ▸ List.dropWhile_sublist _
    obtain ⟨hraw, hrest⟩ := rawPieces_sublist (p := p) true (c :: l)
    rw [hpieces] at hraw hrest
    refine List.forall_mem_cons.2 ⟨fun x hx => (hraw x hx).trans hl, ?_⟩
    intro s hs x hx
    exact (ih s hs x hx).trans
      ((List.sublist_cons_self d rest).trans (hrest.trans hl))

/-- All values that are stored so far are like that. -/
def SegState.All (f : EdiValue → Prop) (st : SegState) : Prop :=
  ∀ e ∈ st.elements, ∀ v ∈ e.values, f v

theorem EdiElement.values_store (e : EdiElement) (v : EdiValue) (sub : Bool) :
    ∀ w ∈ (e.store v sub).values, w ∈ e.values ∨ w = v := by
  cases e <;> cases sub <;>
    simp [EdiElement.store, EdiElement.values, or_comm]

theorem SegState.All.record {f : EdiValue → Prop} {st : SegState}
    (h : st.All f) {x : RawPiece} (hx : f (x.value p)) :
    (recordPiece p st x).All f := by
  have hopen : st.openElement.All f := by
    unfold SegState.openElement
    split_ifs
    · intro e he
      rcases List.mem_append.1 he with he | he
      · exact h e he
      · obtain rfl := List.mem_singleton.1 he
        exact fun v hv => nomatch hv
    · exact h
  intro e he
  unfold recordPiece at he
  generalize st.openElement = opened at hopen he
  obtain ⟨before, el, tag, newel⟩ := opened
  cases el with
  | none => exact hopen e he
  | some el =>
    rcases List.mem_append.1 he with he | he
    · exact hopen e (List.mem_append_left _ he)
    · obtain rfl := List.mem_singleton.1 he
      intro v hv
      rcases EdiElement.values_store _ _ _ v hv with hv | rfl
      · exact hopen el (List.mem_append_right _ (List.mem_singleton.2 rfl)) v hv
      · exact hx

/-- The values of a message are as the parser makes them, of bytes of the
message. -/
theorem segmentLoop_values (total : Nat) (m : Bytes) :
    ∀ x ∈ (segmentLoop p total m).1, ∀ e ∈ x.elements, ∀ v ∈ e.values,
      v.Measured ∧ v.value.Sublist m := by
  intro x hx
  rw [segmentLoop_eq] at hx
  obtain ⟨s, hs, rfl⟩ := List.mem_map.1 hx
  have hfold : ∀ (xs : List RawPiece) (st : SegState),
      (∀ x ∈ xs, x.raw.Sublist m) →
      st.All (fun v => v.Measured ∧ v.value.Sublist m) →
      (xs.foldl (recordPiece p) st).All
        fun v => v.Measured ∧ v.value.Sublist m := by
    intro xs
    induction xs with
    | nil => exact fun _ _ hst => hst
    | cons x xs ih =>
      intro st hxs hst
      rw [List.forall_mem_cons] at hxs
      refine ih _ hxs.2 (hst.record ⟨rfl, ?_⟩)
      exact (memcpyescape_sublist false x.raw).trans hxs.1
  exact hfold s.pieces SegState.start (rawSegments_sublist total m s hs)
    fun e he => nomatch he

end Values

/-! ## The strings of a conversion -/

/-- All strings of some steps are like that. -/
def Sources (f : Bytes → Prop) (steps : List Step) : Prop :=
  ∀ src, some src ∈ steps.flatMap Step.sources → f src

section Sources

variable {f : Bytes → Prop} {ss ts : List Step}

@[simp] theorem sources_nil : Sources f [] := fun _ hsrc => nomatch hsrc

@[simp] theorem sources_append :
    Sources f (ss ++ ts) ↔ Sources f ss ∧ Sources f ts := by
  simp only [Sources, List.flatMap_append, List.mem_append, or_imp,
    forall_and]

@[simp] theorem sources_out (xs : List Xml) :
    Sources f (.out xs :: ss) ↔
      (∀ src ∈ xs.flatMap Xml.sources, f src) ∧ Sources f ss := by
  simp only [Sources, List.flatMap_cons, List.mem_append, or_imp, forall_and,
    Step.sources, List.mem_map, Option.some.injEq, exists_eq_right]

@[simp] theorem sources_error (msg : Bytes) :
    Sources f (.error msg :: ss) ↔ Sources f ss := by
  simp [Sources, Step.sources]

@[simp] theorem sources_element (name val : Bytes) :
    Sources f (.element name val :: ss) ↔ Sources f ss := by
  simp [Sources, Step.sources]

@[simp] theorem sources_fault (x : Fault) :
    Sources f (.fault x :: ss) ↔ Sources f ss := by
  simp [Sources, Step.sources]

theorem sources_outIf {c : Prop} [Decidable c] {xs : List Xml}
    (hxs : xs.flatMap Xml.sources = []) : Sources f (outIf c xs) := by
  unfold outIf
  split_ifs
  · simp [hxs]
  · exact sources_nil

variable (opts : Edi2xmlConfig) {all : EdistructAll}

theorem sources_err (msg : Bytes) : Sources f (error opts msg) := by
  rw [error, sources_error]
  exact sources_outIf rfl

/-- The titles of the tables are like that. -/
structure TitlesAre (f : Bytes → Prop) (all : EdistructAll) : Prop where
  elems : ∀ e ∈ all.elems, f e.title
  codes : ∀ t ∈ all.codes, ∀ z ∈ t.vals, f z.title

variable (hall : TitlesAre f all)
include hall

theorem sources_elementToXml (name : Bytes) {val : Bytes} (hval : f val) :
    Sources f (elementToXml opts all name val) := by
  rw [elementToXml, sources_element, sources_append]
  refine ⟨sources_outIf rfl, ?_⟩
  cases findEdistructElement all name with
  | none => simp
  | some r =>
    cases r with
    | none => exact sources_err opts _
    | some e =>
      have hplain : ∀ src ∈ (Xml.chars [.escaped val]).sources, f src := by
        simpa [Xml.sources] using hval
      have hcoded : Sources f (codedToXml opts all name val).1 ∧
          ∀ xs, (codedToXml opts all name val).2 = some xs →
            ∀ src ∈ xs.flatMap Xml.sources, f src := by
        unfold codedToXml
        cases hfind : findCodedValue all name val with
        | none => simp
        | some r =>
          cases r with
          | none => simp
          | some z =>
            obtain ⟨t, ht, -, hz, -⟩ := findCodedValue_sound hfind
            have htitle := hall.codes t ht z hz
            refine ⟨sources_outIf rfl, fun xs hxs => ?_⟩
            split_ifs at hxs <;> obtain rfl := Option.some.inj hxs <;>
              simp [Xml.sources, htitle]
      dsimp only
      by_cases hc : e.isCoded = true
      · rw [if_pos hc]
        cases hsome : (codedToXml opts all name val).2 with
        | none => simp [Xml.sources, hcoded.1, hval, newline]
        | some xs =>
          have hxs := hcoded.2 xs hsome
          simp only [sources_out, sources_append, sources_nil, and_true,
            Option.getD_some, List.flatMap_append, List.mem_append, or_imp,
            forall_and]
          exact ⟨by simp [Xml.sources], hcoded.1, hxs, by simp [Xml.sources, newline]⟩
      · rw [if_neg hc]
        simp [Xml.sources, hval, newline]

theorem sources_elementMissingXml (name : Bytes) :
    Sources f (elementMissingXml opts all name) := by
  unfold elementMissingXml
  split_ifs
  · cases hfind : findEdistructElement all name with
    | none => simp
    | some r =>
      cases r with
      | none => simp [Xml.sources, newline]
      | some e =>
        have htitle := hall.elems e (BinarySearch.find_sound hfind).1
        simp [Xml.sources, newline, htitle]
  · exact sources_nil

theorem sources_componentsToXml (children : List EdistructChild)
    {values : List EdiValue} (hvalues : ∀ v ∈ values, f v.value) :
    Sources f (componentsToXml opts all children values) := by
  induction children generalizing values with
  | nil => exact sources_nil
  | cons c children ih =>
    cases values with
    | nil =>
      rw [componentsToXml, sources_append]
      exact ⟨sources_elementMissingXml opts hall c.code, ih hvalues⟩
    | cons v values =>
      rw [List.forall_mem_cons] at hvalues
      rw [componentsToXml, sources_append]
      refine ⟨?_, ih hvalues.2⟩
      split_ifs
      · exact sources_elementToXml opts hall c.code hvalues.1
      · exact sources_elementMissingXml opts hall c.code

variable (hempty : f [])
include hempty

theorem sources_childrenToXml (children : List EdistructChild)
    {es : List EdiElement} (hes : ∀ e ∈ es, ∀ v ∈ e.values, f v.value) :
    Sources f (childrenToXml opts all children es).1 := by
  have hcomposite : ∀ (code : Bytes) (cstruct : Option EdistructComposite)
      {values : List EdiValue}, (∀ v ∈ values, f v.value) →
      Sources f (compositeToXml opts all code cstruct values) := by
    intro code cstruct values hvalues
    unfold compositeToXml
    rw [sources_append]
    refine ⟨sources_outIf rfl, ?_⟩
    cases cstruct with
    | none => simp
    | some c =>
      simp [Xml.sources, newline,
        sources_componentsToXml opts hall c.children hvalues]
  fun_induction childrenToXml opts all children es with
  | case1 => exact sources_nil
  | case2 => simp
  | case3 child children _ _ _ ih => exact ih hes
  | case4 => exact sources_err opts _
  | case5 => simp
  | case6 child children _ e es _ _ _ r ih =>
    rw [List.forall_mem_cons] at hes
    rw [sources_append]
    exact ⟨sources_elementMissingXml opts hall child.code, ih hes.2⟩
  | case7 => exact sources_err opts _
  | case8 child children cstruct e es hstruct values hfit r ih =>
    rw [List.forall_mem_cons] at hes
    have hvalues := elementFit_values (f := fun v => f v.value) hempty
      child cstruct hes.1
    rw [hfit] at hvalues
    rw [sources_append]
    exact ⟨hcomposite child.code cstruct hvalues, ih hes.2⟩
  | case9 child children cstruct e es hstruct v hfit r ih =>
    rw [List.forall_mem_cons] at hes
    have hvalue := elementFit_values (f := fun v => f v.value) hempty
      child cstruct hes.1
    rw [hfit] at hvalue
    rw [sources_append]
    exact ⟨sources_elementToXml opts hall child.code hvalue, ih hes.2⟩

/-- The strings of a segment are its values, and titles. -/
theorem sources_convSegment {x : EdiSegment}
    (hx : ∀ e ∈ x.elements, ∀ v ∈ e.values, f v.value) :
    Sources f (convSegment opts all x) := by
  have hsegment : Sources f (segmentToXml opts all x) := by
    unfold segmentToXml
    cases x.tag with
    | none => simp
    | some tag =>
      dsimp only
      cases findEdistructSegment all tag with
      | none => simp
      | some r =>
        cases r with
        | none => exact sources_err opts _
        | some sstruct =>
          have hdata : ∀ e ∈ dataElements tag x.elements, ∀ v ∈ e.values,
              f v.value := by
            intro e he
            refine hx e ?_
            unfold dataElements at he
            split at he
            · next es heq =>
              rw [heq]
              split_ifs at he
              · exact List.mem_cons_of_mem _ he
              · exact he
            · exact he
          have hchildren := sources_childrenToXml opts hall hempty
            sstruct.children hdata
          have hextra : Sources f (extraData opts tag (childrenToXml opts all
              sstruct.children (dataElements tag x.elements)).2) := by
            unfold extraData
            split_ifs
            · exact sources_nil
            · exact sources_err opts _
            · exact sources_err opts _
          dsimp only
          split_ifs
          · simp
          · rw [sources_append]
            refine ⟨sources_outIf rfl, ?_⟩
            simp [Xml.sources, newline, hchildren, hextra]
  have hheader : Sources f (parseMessageHeader opts x) := by
    unfold parseMessageHeader
    split_ifs
    · exact sources_nil
    · exact sources_err opts _
  unfold convSegment
  cases x.tag with
  | none => simp
  | some tag =>
    simp only [sources_append]
    refine ⟨⟨⟨⟨⟨⟨⟨sources_outIf rfl, sources_outIf rfl⟩, ?_⟩, sources_outIf rfl⟩,
      hsegment⟩, sources_outIf rfl⟩, sources_outIf rfl⟩, sources_outIf rfl⟩
    split_ifs
    · exact hheader
    · exact sources_nil

end Sources

/-! ## Strings that all go through -/

section Through

variable {σ : Type} {lib : Iconv σ} {heap : Realloc} {conv : Descriptor σ}
  {f : Bytes → Bytes}

/-- A string goes through the descriptor, which stays as it is. -/
def GoesThrough (lib : Iconv σ) (heap : Realloc) (conv : Descriptor σ)
    (f : Bytes → Bytes) (src : Bytes) : Prop :=
  (translateString lib heap src).run conv = .ok (f src, conv)

theorem mapM_through {α β : Type} {t : α → Translation σ β} {k : α → β}
    {as : List α} (h : ∀ a ∈ as, (t a).run conv = .ok (k a, conv)) :
    (as.mapM t).run conv = .ok (as.map k, conv) := by
  induction as with
  | nil => rfl
  | cons a as ih =>
    rw [List.forall_mem_cons] at h
    rw [List.mapM_cons, StateT.run_bind, h.1]
    show ((as.mapM t >>= fun bs => pure (k a :: bs)).run conv) = _
    rw [StateT.run_bind, ih h.2]
    rfl

theorem map_through {α β : Type} {x : Translation σ α} {a : α} (k : α → β)
    (h : x.run conv = .ok (a, conv)) :
    (k <$> x).run conv = .ok (k a, conv) := by
  rw [StateT.run_map, h]
  rfl

theorem part_through {part : Part}
    (h : ∀ src, part = .escaped src → GoesThrough lib heap conv f src) :
    (part.translate lib heap).run conv = .ok (part.recode f, conv) := by
  cases part with
  | plain text => rfl
  | escaped src => exact map_through Part.escaped (h src rfl)

theorem item_through {x : Xml}
    (h : ∀ src ∈ x.sources, GoesThrough lib heap conv f src) :
    (x.translate lib heap).run conv = .ok (x.recode f, conv) := by
  have hparts : ∀ parts : List Part,
      (∀ src ∈ (Xml.chars parts).sources, GoesThrough lib heap conv f src) →
      (parts.mapM (Part.translate lib heap)).run conv
        = .ok (parts.map (Part.recode f), conv) := by
    intro parts hsources
    refine mapM_through fun part hpart => part_through fun src hsrc => ?_
    subst hsrc
    exact hsources src (List.mem_filterMap.2 ⟨_, hpart, rfl⟩)
  cases x with
  | comment parts => exact map_through Xml.comment (hparts parts h)
  | chars parts => exact map_through Xml.chars (hparts parts h)
  | openTag name attrs => rfl
  | closeTag name => rfl
  | emptyTag name => rfl

/-- Steps whose strings all go through are done as those with other strings. -/
theorem performSteps_through {opts : Edi2xmlConfig} {steps : List Step}
    (h : Sources (GoesThrough lib heap conv f) steps) (out : Outbuf) :
    performSteps lib heap opts conv out steps
      = match emitSteps opts out (steps.map (Step.recode f)) with
        | none => .error .astray
        | some out => .ok (conv, out) := by
  induction steps generalizing out with
  | nil => rfl
  | cons s steps ih =>
    rw [← List.singleton_append, sources_append] at h
    have hnext : performSteps lib heap opts conv out (s :: steps)
        = match (s.recode f).emit opts out with
          | none => .error .astray
          | some out => performSteps lib heap opts conv out steps := by
      rw [performSteps]
      cases s with
      | out xs =>
        have hxs := ((sources_out xs).1 h.1).1
        have hrun : (xs.mapM (Xml.translate lib heap)).run conv
            = .ok (xs.map (Xml.recode f), conv) :=
          mapM_through fun x hx => item_through fun src hsrc =>
            hxs src (List.mem_flatMap.2 ⟨x, hx, hsrc⟩)
        rw [Step.translate, map_through Step.out hrun]
        rfl
      | _ => rfl
    rw [hnext, emitSteps, List.map_cons, List.foldlM_cons]
    cases (s.recode f).emit opts out with
    | none => rfl
    | some out => exact ih h.2 out

end Through

/-! ## The same document -/

/-- A string with space enough in the first block that it is converted into. -/
def Charset.Fits (cs : Charset) (s : Bytes) : Prop :=
  0 ∉ s ∧ (cs.convert s).length ≤ 2 * s.length ∧
    2 * s.length < 64 * 1024 * 1024

theorem Charset.Fits.goesThrough {cs : Charset} {s : Bytes} (hs : cs.Fits s)
    (heap : Realloc) : GoesThrough cs.iconv heap (.opened ()) cs.convert s := by
  unfold GoesThrough
  show translateString cs.iconv heap s (.opened ()) = _
  rw [translateString, doConv_fits cs heap hs.1 hs.2.1 hs.2.2]

/-- A part of a string fits, if no character of it has more than two bytes. -/
theorem Charset.fits_sublist {cs : Charset} {m s : Bytes} (hzero : 0 ∉ m)
    (htwo : ∀ c ∈ m, (cs.utf8 c).length ≤ 2)
    (hshort : 2 * m.length < 64 * 1024 * 1024) (hs : s.Sublist m) :
    cs.Fits s := by
  have hlength : ∀ s : Bytes, (∀ c ∈ s, (cs.utf8 c).length ≤ 2) →
      (cs.convert s).length ≤ 2 * s.length := by
    intro s
    induction s with
    | nil => exact fun _ => Nat.le_refl 0
    | cons c s ih =>
      intro hall
      rw [List.forall_mem_cons] at hall
      have hrest := ih hall.2
      rw [cs.length_convert_cons, List.length_cons]
      omega
  have hle := hs.length_le
  exact ⟨fun hmem => hzero (hs.subset hmem),
    hlength s fun c hc => htwo c (hs.subset hc), by omega⟩

section Same

variable {cs : Charset} (h : cs.OverAscii) (heap : Realloc)
  (opts : Edi2xmlConfig) {all : EdistructAll} (hall : AsciiTables all)
  (htitles : TitlesAre cs.Fits all)

include h hall htitles

/-- Segments through the descriptor come to what the steps of the converted segments
come to. -/
theorem segmentsOutcome_transcode {segs segs' : List EdiSegment}
    (hsame : segs'.map EdiSegment.contents
      = segs.map fun x => (x.recode cs).contents)
    (hplain : ∀ x ∈ segs, x.Plain)
    (hfits : ∀ x ∈ segs, ∀ e ∈ x.elements, ∀ v ∈ e.values, cs.Fits v.value)
    (out : Outbuf) (offset : Nat) :
    ∃ offset', segmentsOutcome cs.iconv heap opts all (.opened ()) out offset segs
      = emitOutcome opts out offset' (convSegments opts all segs') := by
  induction segs generalizing segs' out offset with
  | nil =>
    obtain rfl := List.map_eq_nil_iff.1 hsame
    exact ⟨offset, rfl⟩
  | cons seg segs ih =>
    obtain ⟨seg', segs', rfl⟩ : ∃ seg' rest, segs' = seg' :: rest := by
      cases segs' with
      | nil => cases hsame
      | cons seg' rest => exact ⟨seg', rest, rfl⟩
    obtain ⟨hseg, hsegs⟩ := List.cons.inj hsame
    rw [List.forall_mem_cons] at hplain hfits
    have hconv : convSegment opts all seg'
        = (convSegment opts all seg).map (Step.recode cs.convert) := by
      rw [← convSegment_recode h opts hall hplain.1]
      obtain ⟨helements, htag⟩ := Prod.mk.inj hseg
      simp only [convSegment, segmentToXml, parseMessageHeader, helements, htag]
    have hempty : cs.Fits [] := ⟨List.not_mem_nil, Nat.le_refl 0, by decide⟩
    have hsources : Sources (GoesThrough cs.iconv heap (.opened ()) cs.convert)
        (convSegment opts all seg) := fun src hsrc =>
      (sources_convSegment opts htitles hempty hfits.1 src hsrc).goesThrough heap
    rw [segmentsOutcome, performSteps_through hsources, ← hconv, convSegments,
      List.flatMap_cons]
    unfold emitOutcome at ih ⊢
    rw [emitSteps_append]
    cases emitSteps opts out (convSegment opts all seg') with
    | none => exact ⟨offset, rfl⟩
    | some out => exact ih hsegs hplain.2 hfits.2 out seg.offset

end Same

/-- A message that may be transcoded in front of the parser: it starts with ASCII,
its tags are ASCII, and its characters have no more than two bytes each. -/
structure Transcodable (cs : Charset) (edi : EdiLib) (message : CString) : Prop where
  head : IsAscii (message.bytes.take headLength)
  tags : ∀ ichg ∈ (ediParserParse (ediInit edi) (ediParserCreate edi none).2
    message).2, ∀ x ∈ ichg.segments, ∀ tag ∈ x.tag, IsAscii tag
  twoBytes : ∀ c ∈ message.bytes, (cs.utf8 c).length ≤ 2
  short : 2 * message.bytes.length < 64 * 1024 * 1024

/-- The values of a parsed message are as the parser makes them, of bytes of the
message. -/
theorem ediParserParse_values {edi : EdiLib} {oparser : EdiParser}
    (hdetect : oparser.detect = 1) {message : CString} {ichg : EdiInterchange}
    (hparse : (ediParserParse edi oparser message).2 = some ichg) :
    ∀ x ∈ ichg.segments, ∀ e ∈ x.elements, ∀ v ∈ e.values,
      v.Measured ∧ v.value.Sublist message.bytes := by
  cases hfound : (ediDetect edi.detectparams message).found with
  | none =>
    rw [ediParserParse, if_pos hdetect, hfound] at hparse
    cases hparse
  | some r =>
    obtain ⟨params, skip⟩ := r
    rw [ediParserParse_detected hdetect hfound] at hparse
    obtain rfl := Option.some.inj hparse
    intro x hx e he v hv
    obtain ⟨hmeasured, hsub⟩ := segmentLoop_values _ _ x hx e he v hv
    exact ⟨hmeasured, hsub.trans (List.drop_sublist _ _)⟩

section Document

variable {cs : Charset} (h : cs.OverAscii) (heap : Realloc)
  (opts : Edi2xmlConfig) {all : EdistructAll} (hall : AsciiTables all)
  (htitles : TitlesAre cs.Fits all)
include h hall htitles

/-- Both conversions do the same steps, one of them behind the encoding line. -/
theorem outcome_transcode {edi : EdiLib} (hedi : (ediInit edi).HasPresets)
    {message : CString} (hm : Transcodable cs edi message) (enc : Bytes) :
    (outcome cs.iconv heap opts all edi message (some enc) = none ∧
      outcome cs.iconv heap opts all edi (message.transcode cs) none = none) ∨
    ∃ steps offset offset',
      outcome cs.iconv heap opts all edi message (some enc)
        = some (emitOutcome opts (.buffer [encodingLine.text]) offset steps) ∧
      outcome cs.iconv heap opts all edi (message.transcode cs) none
        = some (emitOutcome opts (.buffer []) offset' steps) := by
  have hdetect : (ediParserCreate edi none).2.detect = 1 := rfl
  have hparse := ediParserParse_transcode h hedi hdetect hm.head
  have henc : outcome cs.iconv heap opts all edi message (some enc)
      = messageOutcome cs.iconv heap opts all (.opened ())
        (.buffer [encodingLine.text]) edi message := rfl
  have hnone : outcome cs.iconv heap opts all edi (message.transcode cs) none
      = messageOutcome cs.iconv heap opts all .off (.buffer []) edi
        (message.transcode cs) := rfl
  rw [henc, hnone]
  unfold messageOutcome
  cases hplain : (ediParserParse (ediInit edi) (ediParserCreate edi none).2
      message).2 with
  | none =>
    rw [hplain] at hparse
    rw [Option.map_eq_none_iff.1 hparse]
    exact Or.inl ⟨rfl, rfl⟩
  | some ichg =>
    rw [hplain] at hparse
    obtain ⟨ichg', hplain', hsame⟩ := Option.map_eq_some_iff.1 hparse
    have hvalues := ediParserParse_values hdetect hplain
    rw [hplain', Option.map_some, Option.map_some]
    obtain ⟨offset, hopened⟩ := segmentsOutcome_transcode h heap opts hall htitles
      hsame (fun x hx => ⟨hm.tags ichg hplain x hx,
        fun e he v hv => (hvalues x hx e he v hv).1⟩)
      (fun x hx e he v hv => Charset.fits_sublist message.nulFree hm.twoBytes
        hm.short (hvalues x hx e he v hv).2) (.buffer [encodingLine.text]) 0
    obtain ⟨offset', hoff⟩ := @segmentsOutcome_off _ cs.iconv heap opts all
      (.buffer []) 0 ichg'.segments
    exact Or.inr ⟨_, offset, offset', congrArg some hopened, congrArg some hoff⟩

/-- A message is converted through a charset as in UTF-8 without one: where both
conversions come back, one gives a document exactly if the other does, and it is the
same behind its first line.  This line moves all texts in the buffer, so that `output`
can go astray in one of the conversions only. -/
theorem edi2xmlConv2_transcodes (g : Globals Unit)
    (hedi : (ediInit g.edi).HasPresets) {message : CString}
    (hm : Transcodable cs g.edi message) (enc : Bytes)
    (hcharset : ∃ g' r, g.edi2xmlConv2 cs.iconv heap opts all message (some enc)
      = .returns g' r)
    (hutf8 : ∃ g' r, g.edi2xmlConv2 cs.iconv heap opts all (message.transcode cs)
      none = .returns g' r) (texts : List Bytes) :
    (texts ≠ [] ∧ ∃ g', g.edi2xmlConv2 cs.iconv heap opts all message (some enc)
      = .returns g'
        (some (ascii "<?xml version=\"1.0\" encoding=\"UTF-8\"?>\n" :: texts))) ↔
    ∃ g', g.edi2xmlConv2 cs.iconv heap opts all (message.transcode cs) none
      = .returns g' (some texts) := by
  rw [conv2_document_iff, conv2_document_iff]
  rcases outcome_transcode h heap opts hall htitles hedi hm enc with
    ⟨hnone, hnone'⟩ | ⟨steps, offset, offset', hopened, hoff⟩
  · rw [hnone, hnone']
    simp
  · have hback : ∀ {out : Outbuf} {offset : Nat} {message : CString}
        {enc : Option Bytes}, outcome cs.iconv heap opts all g.edi message enc
          = some (emitOutcome opts out offset steps) →
        (∃ g' r, g.edi2xmlConv2 cs.iconv heap opts all message enc
          = .returns g' r) →
        emitOutcome opts out offset steps
          = .document (out.append ((outputs steps).map OutputCall.text)) offset := by
      rintro out offset message enc hout ⟨g', r, hreturns⟩
      unfold emitOutcome at hout ⊢
      cases hemit : emitSteps opts out steps with
      | none =>
        rw [hemit] at hout
        obtain ⟨c, hc⟩ := conv2_astray cs.iconv heap opts all g hout
        rw [hreturns] at hc
        cases hc
      | some out' => rw [(emitSteps_eq_some_iff.1 hemit).2]
    rw [hopened, hoff, hback hopened hcharset, hback hoff hutf8]
    simp [Outcome.texts, Outbuf.append, Outbuf.texts, encodingLine]

end Document

/-! ## A western message -/

theorem western_overAscii : western.OverAscii where
  ascii c hc := if_pos hc
  other c hc := by
    have hge : 128 ≤ c.toNat := by
      rw [UInt8.lt_iff_toNat_lt] at hc
      exact Nat.le_of_not_lt hc
    show ∀ d ∈ westernUtf8 c, ¬ d < 0x80
    unfold westernUtf8
    rw [if_neg hc]
    split_ifs with heuro hlow
    · exact forall_mem_of_all (by decide)
    · exact List.forall_mem_cons.2 ⟨by decide, List.forall_mem_singleton.2 hc⟩
    · have hc' : 192 ≤ c.toNat := by
        rw [UInt8.lt_iff_toNat_lt] at hlow
        exact Nat.le_of_not_lt hlow
      have hsub : (c - 0x40).toNat = c.toNat - 64 :=
        UInt8.toNat_sub_of_le _ _ (UInt8.le_iff_toNat_le.2 (by
          show 64 ≤ c.toNat
          omega))
      refine List.forall_mem_cons.2 ⟨by decide, List.forall_mem_singleton.2 ?_⟩
      rw [UInt8.lt_iff_toNat_lt, hsub]
      show ¬ c.toNat - 64 < 128
      omega

/-- An acute accent behind a long header. -/
def westernText : CString :=
  .ofBytes (ascii "UNB+" ++ List.replicate 102 65 ++ ascii "'BGM+" ++ [0xE9] ++
    ascii "'") (by decide)

theorem westernText_transcodable :
    Transcodable western EdiLib.start westernText where
  head := forall_mem_of_all (by decide +kernel)
  tags := by
    intro ichg hichg
    have hall : ∀ i ∈ (ediParserParse (ediInit EdiLib.start)
        (ediParserCreate EdiLib.start none).2 westernText).2,
        (i.segments.all fun x => x.tag.all fun tag => decide (IsAscii tag))
          = true := by
      decide +kernel
    intro x hx tag htag
    have hx' := List.all_eq_true.1 (hall ichg hichg) x hx
    rw [Option.all_eq_true] at hx'
    exact of_decide_eq_true (hx' tag htag)
  twoBytes := forall_mem_of_all (by decide +kernel)
  short := by decide +kernel

theorem sampleTables_ascii : AsciiTables sampleTables where
  elems := by
    intro e he
    simp only [sampleTables, List.mem_cons, List.not_mem_nil, or_false] at he
    rcases he with rfl | rfl <;> exact forall_mem_of_all (by decide)
  codes := by
    intro t ht z hz
    obtain rfl := List.mem_singleton.1 ht
    obtain rfl := List.mem_singleton.1 hz
    exact ⟨forall_mem_of_all (by decide), forall_mem_of_all (by decide)⟩

theorem sampleTables_fits : TitlesAre western.Fits sampleTables where
  elems := by
    intro e he
    simp only [sampleTables, List.mem_cons, List.not_mem_nil, or_false] at he
    rcases he with rfl | rfl <;> exact ⟨by decide, by decide, by decide⟩
  codes := by
    intro t ht z hz
    obtain rfl := List.mem_singleton.1 ht
    obtain rfl := List.mem_singleton.1 hz
    exact ⟨by decide, by decide, by decide⟩

/-- The document is that of the message in UTF-8. -/
theorem edi2xmlConv2_transcodes_sample :
    ∃ (g' : Globals Unit) (root : Bytes),
      (Globals.start Unit EdiLib.start).edi2xmlConv2 western.iconv sampleHeap
        plainConfig sampleTables westernText (some (ascii "LATIN1"))
      = .returns g' (some
        [ascii "<?xml version=\"1.0\" encoding=\"UTF-8\"?>\n", root,
          ascii "<S:Begin>\n", ascii "<E:Number>",
          [0xC3, 0xA9] ++ ascii "</E:Number>\n", ascii "</S:Begin>\n"]) := by
  have htexts : ∃ root, (outcome western.iconv sampleHeap plainConfig sampleTables
      EdiLib.start (westernText.transcode western) none).bind Outcome.texts
      = some [root, ascii "<S:Begin>\n", ascii "<E:Number>",
          [0xC3, 0xA9] ++ ascii "</E:Number>\n", ascii "</S:Begin>\n"] := by
    refine ⟨ascii ("<X:interchange xmlns:X=\"http://www.ctm.ru/edi/xchg\"" ++
      " xmlns:S=\"http://www.ctm.ru/edi/segs\"" ++
      " xmlns:C=\"http://www.ctm.ru/edi/comps\"" ++
      " xmlns:E=\"http://www.ctm.ru/edi/els\"" ++
      " xmlns:Z=\"http://www.ctm.ru/edi/codes\">\n"), ?_⟩
    decide +kernel
  obtain ⟨root, htexts⟩ := htexts
  have hplain := (conv2_document_iff western.iconv sampleHeap plainConfig
    sampleTables (Globals.start Unit EdiLib.start) (westernText.transcode western)
    none _).2 ⟨List.cons_ne_nil _ _, htexts⟩
  have hopened : ((outcome western.iconv sampleHeap plainConfig sampleTables
      EdiLib.start westernText (some (ascii "LATIN1"))).bind Outcome.texts).any
        (· ≠ []) = true := by
    decide +kernel
  obtain ⟨more, hmore, hne⟩ := (Option.any_eq_true _ _).1 hopened
  obtain ⟨k, hback⟩ := (conv2_document_iff western.iconv sampleHeap plainConfig
    sampleTables (Globals.start Unit EdiLib.start) westernText
    (some (ascii "LATIN1")) more).2 ⟨of_decide_eq_true hne, hmore⟩
  obtain ⟨k', hplain⟩ := hplain
  obtain ⟨-, g', hconv⟩ := (edi2xmlConv2_transcodes western_overAscii sampleHeap
    plainConfig sampleTables_ascii sampleTables_fits
    (Globals.start Unit EdiLib.start) ediInit_hasPresets westernText_transcodable
    (ascii "LATIN1") ⟨k, _, hback⟩ ⟨k', _, hplain⟩ _).2 ⟨k', hplain⟩
  exact ⟨g', root, hconv⟩

end Libedi
