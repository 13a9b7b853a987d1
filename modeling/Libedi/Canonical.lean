import Libedi.Lib.CanonicalText
import Libedi.Rebuild

/-!
# Canonical messages

A canonical message is one that the builder could have written: every segment
is closed, every release character releases a special byte, and no separator
stands in front of the end of a segment, where the parser records nothing.  Such
a message is built again as it was parsed (`build_parse_canonical`), although
the parse tree keeps neither separators nor escapes.

The proof goes through the grammar.  Each of its cuts is undone by a join
(`EscapedText.intercalate_split`), and `EscapedText.escape_unescape` gives back
the text of a component.
-/

namespace Libedi

open BoundedOutput EscapedText

/-- The bytes of a message, each with a flag that says that it is escaped. -/
def Separators.marks (s : Separators) (m : Bytes) : List (UInt8 × Bool) :=
  marked s.isEscape false m

/-- A message as the builder writes it. -/
structure Separators.Canonical (s : Separators) (m : Bytes) : Prop where
  /-- The last byte is an unescaped segment separator. -/
  closed : ∀ x ∈ (s.marks m).getLast?, x = (s.seg, false)
  /-- The first segment does not start with a newline. -/
  first : ∀ c ∈ m.head?, isNewline c = false
  /-- No other segment starts with a newline. -/
  newline : (s.marks m).IsChain fun x y =>
    x = (s.seg, false) → isNewline y.1 = false
  /-- An unescaped release character stands in front of a special byte. -/
  release : (s.marks m).IsChain fun x y =>
    x = (s.escape, false) → y.1 ∈ [s.data, s.sub, s.seg, s.escape]
  /-- No segment ends in an unescaped separator. -/
  ends : (s.marks m).IsChain fun x y =>
    y = (s.seg, false) → x ≠ (s.data, false) ∧ x ≠ (s.sub, false)

/-! ## One segment -/

namespace Grammar

variable {s : Separators}

theorem element_values_eq (cs : List Bytes) :
    (element s cs).values = cs.map (value s) := by
  rcases cs with - | ⟨c, - | ⟨d, cs⟩⟩ <;> rfl

/-- Where the tag separator is the data separator, a segment is split at it. -/
theorem elementTexts_eq_split (h : s.tag = s.data) (raw : Bytes) :
    elementTexts s raw = split s.isEscape (· == s.data) false raw := by
  unfold elementTexts
  rw [h]
  rcases hscan : scan s.isEscape (· == s.data) false raw with ⟨e, - | ⟨d, es⟩⟩
  · obtain rfl := scan_eq_end hscan
    exact (split_of_scan_snd_eq_nil (congrArg Prod.snd hscan)).symm
  · obtain ⟨hunb, hstop, hesc, happ⟩ := scan_eq_stop hscan
    rw [← happ, split_append_sep hunb hstop hesc]

/-- Without an empty component at the end every element is recorded. -/
theorem readElements_eq_map {es : List (List Bytes)}
    (h : ∀ cs ∈ es.getLast?, cs.getLast? ≠ some []) :
    readElements s es = es.map (element s) := by
  rcases List.eq_nil_or_concat es with rfl | ⟨es, cs, rfl⟩
  · rfl
  · have hcs := h cs (by simp)
    simp [readElements, lastElement, hcs]

/-- A segment that does not end in a separator has no empty component at its
end. -/
theorem last_component_ne_nil (h : s.tag = s.data) {raw : Bytes} (hne : raw ≠ [])
    (hunb : Unbroken s.isEscape (· == s.seg) false raw)
    (hends : ∀ x ∈ (s.marks raw).getLast?,
      x ≠ (s.data, false) ∧ x ≠ (s.sub, false)) :
    ∀ cs ∈ ((elementTexts s raw).map (components s)).getLast?, cs.getLast? ≠ some [] := by
  intro cs hcs hlast
  rw [elementTexts_eq_split h, List.getLast?_map] at hcs
  obtain ⟨e, he, rfl⟩ := Option.map_eq_some_iff.1 hcs
  rcases getLast?_split hlast with rfl | ⟨c, hc, hmarks⟩
  · -- the last element is empty, so a data separator stands in front of it
    obtain ⟨c, hc, hmarks⟩ := (getLast?_split he).resolve_left hne
    obtain rfl : c = s.data := by simpa using hc
    exact (hends _ hmarks).1 rfl
  · obtain rfl : c = s.sub := by simpa using hc
    obtain ⟨ps, hps⟩ := List.getLast?_eq_some_iff.1 he
    have hsuffix := marked_last_piece (by simp) s.isEscape_data hunb hps
    have hraw : (s.marks raw).getLast? = some (s.sub, false) := by
      obtain ⟨front, hfront⟩ := hsuffix
      rw [Separators.marks, ← hfront, List.getLast?_append, hmarks]
      rfl
    exact (hends _ hraw).2 rfl

end Grammar

namespace Separators.Fits

variable {s : Separators} {params : EdiParams} (h : s.Fits params)
  (htag : s.tag = s.data)
include h htag

/-- The text of a component comes back from its value. -/
theorem escapeBytes_value {c : Bytes}
    (hunb : Unbroken s.isEscape
      (fun d => d == s.sub || (d == s.data || d == s.seg)) false c)
    (htight : Tight s.isEscape (isSpecial params) (marked s.isEscape false c)) :
    escapeBytes params (Grammar.value s c).value = c := by
  refine escape_unescape (fun d hd => ?_) (fun d hd => ?_) hunb htight
  · rw [(h.isEscape_iff d).1 hd, h.escape]
  · rcases (h.isSpecial_iff d).1 hd with rfl | rfl | rfl | rfl | rfl
    · simp
    · simp
    · simp
    · simp [htag]
    · exact Or.inl ((h.isEscape_iff _).2 rfl)

/-- The text of a canonical segment comes back from its elements. -/
theorem elementsText_elements {raw : Bytes}
    (hunb : Unbroken s.isEscape (· == s.seg) false raw)
    (htight : Tight s.isEscape (isSpecial params) (s.marks raw))
    (hends : ∀ x ∈ (s.marks raw).getLast?,
      x ≠ (s.data, false) ∧ x ≠ (s.sub, false)) :
    elementsText params (Grammar.elements s raw) = raw := by
  by_cases hne : raw = []
  · subst hne
    rfl
  have htagParams : params.tagSeparator = params.elementSeparator := by
    rw [h.tag, h.data, htag]
  have hcomponents : ∀ e ∈ Grammar.elementTexts s raw,
      elementText params (Grammar.element s (Grammar.components s e)) = e := by
    intro e he
    rw [Grammar.elementTexts_eq_split htag] at he
    obtain ⟨hunbe, hmarks⟩ := of_mem_split hunb he
    have hvalues : ∀ c ∈ Grammar.components s e,
        escapeBytes params (Grammar.value s c).value = c := by
      intro c hc
      obtain ⟨hunbc, hmarksc⟩ := of_mem_split hunbe hc
      have htightc := htight.infix (hmarksc.trans hmarks)
      exact h.escapeBytes_value htag hunbc htightc
    rw [elementText, Grammar.element_values_eq, List.map_map, h.sub]
    have hmap := (List.map_congr_left hvalues).trans (List.map_id _)
    show [s.sub].intercalate ((Grammar.components s e).map fun c =>
      escapeBytes params (Grammar.value s c).value) = e
    rw [hmap]
    exact intercalate_split (by simp) false e
  rw [elementsText_eq_intercalate htagParams, Grammar.elements,
    Grammar.readElements_eq_map (Grammar.last_component_ne_nil htag hne hunb hends),
    List.map_map, List.map_map, h.data]
  have hmap := (List.map_congr_left hcomponents).trans (List.map_id _)
  show [s.data].intercalate ((Grammar.elementTexts s raw).map fun e =>
    elementText params (Grammar.element s (Grammar.components s e))) = raw
  rw [hmap, Grammar.elementTexts_eq_split htag]
  exact intercalate_split (by simp) false raw

end Separators.Fits

/-! ## The whole message -/

/-- The first segment of a canonical message is cut off at an unescaped segment
separator, and the rest is canonical again. -/
theorem Separators.Canonical.cut {s : Separators} {m : Bytes}
    (h : s.Canonical m) (hne : m ≠ []) :
    ∃ raw rest, Grammar.segmentText s m = (raw, s.seg :: rest) ∧
      s.Canonical rest ∧ Unbroken s.isEscape (· == s.seg) false raw ∧
      (s.marks raw).IsChain (fun x y =>
        x = (s.escape, false) → y.1 ∈ [s.data, s.sub, s.seg, s.escape]) ∧
      ∀ x ∈ (s.marks raw).getLast?,
        x ≠ (s.data, false) ∧ x ≠ (s.sub, false) := by
  rcases hscan : Grammar.segmentText s m with ⟨raw, - | ⟨d, rest⟩⟩
  · exfalso
    have hmarks : s.marks m ≠ [] := by
      intro hnil
      have hhead : (marked s.isEscape false m).head?
          = m.head?.map (·, false) := head?_marked false m
      rw [← Separators.marks, hnil, List.head?_nil, eq_comm,
        Option.map_eq_none_iff, List.head?_eq_none_iff] at hhead
      exact hne hhead
    have hlast := h.closed _ (List.getLast?_eq_some_getLast hmarks)
    have hmem := List.getLast_mem hmarks
    rw [hlast] at hmem
    have hstop := marked_of_scan_end (congrArg Prod.snd hscan) hmem rfl
      s.isEscape_seg
    simp at hstop
  · obtain ⟨hunb, hstop, -, -⟩ := scan_eq_stop hscan
    obtain rfl : d = s.seg := by simpa using hstop
    have hmarks : s.marks m
        = s.marks raw ++ (s.seg, false) :: s.marks rest := marked_of_scan hscan
    have hnewline := h.newline
    have hrelease := h.release
    have hends := h.ends
    rw [hmarks] at hnewline hrelease hends
    obtain ⟨hhead, hnewline'⟩ := List.isChain_cons.1 hnewline.right_of_append
    refine ⟨raw, rest, rfl, ⟨?_, ?_, hnewline', ?_, ?_⟩, hunb,
      hrelease.left_of_append, ?_⟩
    · intro x hx
      refine h.closed x ?_
      rw [hmarks, List.getLast?_append, List.getLast?_cons, Option.mem_def.1 hx]
      rfl
    · intro c hc
      refine hhead (c, false) ?_ rfl
      rw [Separators.marks, head?_marked, Option.mem_def.1 hc]
      rfl
    · exact hrelease.right_of_append.tail
    · exact hends.right_of_append.tail
    · intro x hx
      exact (List.isChain_append.1 hends).2.2 x hx _ rfl rfl

/-- What the parser reads of a canonical message has the text of the message. -/
theorem Separators.Fits.segmentsText_segments {s : Separators}
    {params : EdiParams} (h : s.Fits params) (htag : s.tag = s.data)
    (total : Nat) {m : Bytes} (hm : s.Canonical m) :
    segmentsText params (Grammar.segments s total m) = m := by
  have hfirst : ∀ {m : Bytes}, s.Canonical m → m.dropWhile isNewline = m := by
    intro m hm
    cases m with
    | nil => rfl
    | cons c cs =>
      rw [List.dropWhile_cons_of_neg (by simp [hm.first c rfl])]
  fun_induction Grammar.segments s total m with
  | case1 m hdrop =>
    rw [hfirst hm] at hdrop
    rw [hdrop]
    rfl
  | case2 m c cs hdrop offset raw htext =>
    rw [hfirst hm] at hdrop
    obtain ⟨raw', rest, hcut, -⟩ := hm.cut (by simp [hdrop])
    rw [hdrop, htext] at hcut
    simp at hcut
  | case3 m c cs hdrop offset raw d rest htext ih =>
    rw [hfirst hm] at hdrop
    obtain ⟨raw', rest', hcut, hrest, hunb, hrelease, hends⟩ :=
      hm.cut (by simp [hdrop])
    rw [hdrop, htext] at hcut
    obtain ⟨rfl, rfl, rfl⟩ : raw = raw' ∧ d = s.seg ∧ rest = rest' := by
      simpa using hcut
    have htight : Tight s.isEscape (isSpecial params) (s.marks raw) := by
      refine hrelease.imp fun x y hxy hesc hflag => ?_
      have hx : x = (s.escape, false) :=
        Prod.ext ((h.isEscape_iff x.1).1 hesc) hflag
      have hy := hxy hx
      simp only [List.mem_cons, List.not_mem_nil, or_false] at hy
      rw [h.isSpecial_iff]
      tauto
    have hraw := h.elementsText_elements htag hunb htight hends
    have happ := scan_fst_append_snd s.isEscape (· == s.seg) false (c :: cs)
    rw [← Grammar.segmentText, htext] at happ
    rw [segmentsText_cons, ih hrest, hdrop, ← happ, h.seg]
    exact congrArg (· ++ s.seg :: rest) hraw

/-- A canonical message of UN/EDIFACT is built again as it was parsed. -/
theorem build_parse_canonical {lib : EdiLib} (hlib : lib.HasPresets)
    {oparser : EdiParser} (hdetect : oparser.detect = 1)
    (pun : List EdiValue → EdiValue) {m : CString}
    (hunb : ascii "UNB" <+: m.bytes) (hm : edifactSeparators.Canonical m.bytes)
    (mem : Nat → UInt8) {buflen : UInt64} (hlen : m.strlen < buflen.toNat) :
    ∃ i buf, (ediParserParse lib oparser m).2 = some i ∧
      ediInterchangeBuild pun i none mem buflen = some (buf, m.strlen) ∧
      ∀ k ≤ m.strlen, buf.mem k = m.get k := by
  obtain ⟨d, hd, -, hparser⟩ := edifactSeparators_speaks.detected m hunb
  have hparse := ediParserParse_detected hdetect
    ((ediDetect_preset hlib m).trans hd)
  rw [hparser, List.drop_zero, segmentLoop_eq_grammar] at hparse
  have hread := congrArg Prod.snd hparse
  have htext := edifactSeparators_fits.segmentsText_segments rfl m.strlen hm
  have hbuilt := builtAs_segmentsText pun (filled_of_parse hdetect hread)
  rw [htext] at hbuilt
  obtain ⟨buf, m', hbuild, hget, hbytes⟩ := hbuilt mem buflen hlen
  have hstrlen : m'.strlen = m.strlen := congrArg List.length hbytes
  refine ⟨_, buf, hread, by rw [hbuild, hstrlen], fun k hk => ?_⟩
  rw [← hget]
  rcases Nat.lt_or_eq_of_le hk with hlt | rfl
  · rw [CString.get_of_lt hlt, CString.get_of_lt (hstrlen ▸ hlt), hbytes]
  · rw [CString.get_strlen, ← hstrlen, CString.get_strlen]

/-- Two empty elements, an escaped separator and an empty segment. -/
def canonicalMessage : CString :=
  .ofBytes (ascii "UNB+++a?+:b''UNZ+1'") (by decide)

theorem canonicalMessage_canonical :
    edifactSeparators.Canonical canonicalMessage.bytes where
  closed := by decide +kernel
  first c hc := by
    obtain rfl : 'U'.toUInt8 = c := Option.some.inj hc
    decide
  newline := by decide +kernel
  release := by decide +kernel
  ends := by decide +kernel

theorem build_parse_canonical_sample :
    ∃ i buf, (ediParserParse (ediInit EdiLib.start)
        (ediParserCreate EdiLib.start none).2 canonicalMessage).2 = some i ∧
      ediInterchangeBuild (fun _ => .ofBytes []) i none (fun _ => 0) 20
        = some (buf, canonicalMessage.strlen) ∧
      ∀ k ≤ canonicalMessage.strlen, buf.mem k = canonicalMessage.get k :=
  build_parse_canonical ediInit_hasPresets rfl _ (by decide +kernel)
    canonicalMessage_canonical _ (by decide +kernel)

end Libedi
