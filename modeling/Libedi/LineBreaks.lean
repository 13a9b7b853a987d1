import Mathlib.Data.List.TakeWhile
import Libedi.Scanner

/-!
# Messages in pieces

Behind a closed segment the segment loop starts afresh.  No flag and no element
survives the segment separator, and newlines are skipped there and nowhere else.
So a message may be cut at such a place, and line breaks may be put there
(`segmentLoop_lineBreaks`).

All of this holds for any separators, also for those that collide with each
other, with CR or with LF.
-/

namespace Libedi

open EscapedText

/-! ## A stop is not affected by what follows -/

theorem scanValue_append {p : EdiParser} {first : Bool} {m raw ds : Bytes}
    {d : UInt8} (h : scanValue p first false m = (raw, d :: ds)) (r : Bytes) :
    scanValue p first false (m ++ r) = (raw, d :: (ds ++ r)) := by
  rw [scanValue_eq_scan] at h ⊢
  obtain ⟨hunb, hstop, hesc, happ⟩ := scan_eq_stop h
  rw [← happ, List.append_assoc, List.cons_append,
    scan_append_stop hunb hstop hesc]

theorem elementLoop_append {p : EdiParser} {st st' : SegState}
    {m ds : Bytes} {d : UInt8} (h : elementLoop p st m = (st', d :: ds))
    (r : Bytes) : elementLoop p st (m ++ r) = (st', d :: (ds ++ r)) := by
  fun_induction elementLoop p st m with
  | case1 => simp at h
  | case2 st c cs hseg =>
    obtain ⟨rfl, rfl, rfl⟩ : st = st' ∧ c = d ∧ cs = ds := by simpa using h
    rw [List.cons_append, elementLoop, if_pos hseg]
  | case3 => simp at h
  | case4 st c cs hseg raw d' ds' hscan stored hd =>
    obtain ⟨hst, rfl, rfl⟩ : stored = st' ∧ d' = d ∧ ds' = ds := by
      simpa using h
    have happ := scanValue_append hscan r
    rw [List.cons_append] at happ ⊢
    rw [elementLoop_stop (eq_false_of_ne_true hseg) happ hd, ← hst]
  | case5 st c cs hseg raw d' ds' hscan stored hd ih =>
    have happ := scanValue_append hscan r
    rw [List.cons_append] at happ ⊢
    rw [elementLoop_next (eq_false_of_ne_true hseg) happ (eq_false_of_ne_true hd)]
    exact ih h

/-! ## Segment boundaries -/

/-- Newlines at the start of a message do not count. -/
theorem segmentLoop_congr {p : EdiParser} {total : Nat} {m m' : Bytes}
    (h : m.dropWhile isNewline = m'.dropWhile isNewline) :
    segmentLoop p total m = segmentLoop p total m' := by
  by_cases hnil : m'.dropWhile isNewline = []
  · rw [segmentLoop_nil (h.trans hnil), segmentLoop_nil hnil]
  · rcases hloop : elementLoop p SegState.start (m'.dropWhile isNewline)
      with ⟨st, - | ⟨d, rest⟩⟩
    · rw [segmentLoop_open h hnil hloop, segmentLoop_open rfl hnil hloop]
    · rw [segmentLoop_closed h hnil hloop, segmentLoop_closed rfl hnil hloop]

theorem segmentLoop_newlines {p : EdiParser} {total : Nat} {w : Bytes}
    (hw : ∀ c ∈ w, isNewline c = true) (m : Bytes) :
    segmentLoop p total (w ++ m) = segmentLoop p total m :=
  segmentLoop_congr (List.dropWhile_append_of_pos hw)

/-- The segment, `n` bytes further into a message. -/
def EdiSegment.shift (n : Nat) (s : EdiSegment) : EdiSegment :=
  { s with offset := n + s.offset }

/-- More in front of a message moves its segments and nothing else. -/
theorem segmentLoop_shift (p : EdiParser) (n : Nat) {total : Nat} {m : Bytes}
    (h : m.length ≤ total) :
    segmentLoop p (n + total) m
      = Prod.map (List.map (·.shift n)) id (segmentLoop p total m) := by
  have hoffset : ∀ {m l : Bytes}, m.length ≤ total →
      m.dropWhile isNewline = l → l.length ≤ total ∧
        n + total - l.length = n + (total - l.length) := by
    intro m l hm hl
    have hle := dropWhile_length_le isNewline m
    rw [hl] at hle
    omega
  fun_induction segmentLoop p total m with
  | case1 m hdrop => rw [segmentLoop_nil hdrop]; rfl
  | case2 m c cs hdrop offset st hloop =>
    rw [segmentLoop_open hdrop (by simp) hloop, (hoffset h hdrop).2]
    rfl
  | case3 m c cs hdrop offset st d rest hloop ih =>
    have hlen := elementLoop_snd_length_le p SegState.start (c :: cs)
    rw [hloop, List.length_cons] at hlen
    have hle := (hoffset h hdrop).1
    rw [segmentLoop_closed hdrop (by simp) hloop, (hoffset h hdrop).2,
      ih (by omega)]
    rfl

/-- Behind a message that ends with a closed segment the loop starts afresh. -/
theorem segmentLoop_append {p : EdiParser} {total : Nat} {a : Bytes}
    (ha : (segmentLoop p total a).2 ≠ .unterminated) (r : Bytes) :
    segmentLoop p (total + r.length) (a ++ r)
      = Prod.map ((segmentLoop p total a).1 ++ ·) id
          (segmentLoop p (total + r.length) r) := by
  fun_induction segmentLoop p total a with
  | case1 a hdrop =>
    have hall : ∀ c ∈ a, isNewline c = true := List.dropWhile_eq_nil_iff.1 hdrop
    rw [segmentLoop_newlines hall]
    rfl
  | case2 a c cs hdrop offset st hloop => simp at ha
  | case3 a c cs hdrop offset st d rest hloop ih =>
    have hdrop' : (a ++ r).dropWhile isNewline = c :: cs ++ r := by
      rw [List.dropWhile_append, hdrop]
      rfl
    have hoffset : total + r.length - (c :: cs ++ r).length
        = total - (c :: cs).length := by
      rw [List.length_append]
      omega
    rw [segmentLoop_closed hdrop' (by simp) (elementLoop_append hloop r),
      hoffset, ih ha]
    rfl

/-- Parsing goes segment by segment, and line breaks between segments change
nothing but offsets.  `k` is the number of bytes that the detection has
skipped. -/
theorem segmentLoop_lineBreaks (p : EdiParser) (k : Nat) {a w : Bytes}
    (ha : a = [] ∨ (segmentLoop p (k + a.length) a).2 ≠ .unterminated)
    (hw : ∀ c ∈ w, isNewline c = true) (b : Bytes) :
    segmentLoop p (k + (a ++ w ++ b).length) (a ++ w ++ b)
        = ((segmentLoop p (k + a.length) a).1 ++
            (segmentLoop p (k + b.length) b).1.map
              (·.shift (a.length + w.length)),
          (segmentLoop p (k + b.length) b).2) ∧
      ∀ w' : Bytes, (∀ c ∈ w', isNewline c = true) →
        (segmentLoop p (k + (a ++ w' ++ b).length) (a ++ w' ++ b)).2
            = (segmentLoop p (k + (a ++ w ++ b).length) (a ++ w ++ b)).2 ∧
          (segmentLoop p (k + (a ++ w' ++ b).length) (a ++ w' ++ b)).1.map
              (fun s => (s.elements, s.tag))
            = (segmentLoop p (k + (a ++ w ++ b).length) (a ++ w ++ b)).1.map
              fun s => (s.elements, s.tag) := by
  have hclosed : (segmentLoop p (k + a.length) a).2 ≠ .unterminated := by
    rcases ha with rfl | ha
    · rw [segmentLoop_nil rfl]
      simp
    · exact ha
  have hcut : ∀ w : Bytes, (∀ c ∈ w, isNewline c = true) →
      segmentLoop p (k + (a ++ w ++ b).length) (a ++ w ++ b)
        = ((segmentLoop p (k + a.length) a).1 ++
            (segmentLoop p (k + b.length) b).1.map
              (·.shift (a.length + w.length)),
          (segmentLoop p (k + b.length) b).2) := by
    intro w hw
    have htotal : k + (a ++ w ++ b).length
        = k + a.length + (w ++ b).length := by
      rw [List.append_assoc, List.length_append]
      omega
    have hshift : k + a.length + (w ++ b).length
        = a.length + w.length + (k + b.length) := by
      rw [List.length_append]
      omega
    rw [htotal, List.append_assoc, segmentLoop_append hclosed, hshift,
      segmentLoop_newlines hw, segmentLoop_shift p _ (Nat.le_add_left _ k)]
    rfl
  refine ⟨hcut w hw, fun w' hw' => ?_⟩
  rw [hcut w hw, hcut w' hw']
  refine ⟨rfl, ?_⟩
  simp only [List.map_append, List.map_map]
  rfl

theorem segmentLoop_lineBreaks_sample :
    segmentLoop (ediParserInit none)
        (0 + (ascii "UNB+a'" ++ ascii "\r\n" ++ ascii "UNZ+").length)
        (ascii "UNB+a'" ++ ascii "\r\n" ++ ascii "UNZ+")
      = ((segmentLoop (ediParserInit none) (0 + (ascii "UNB+a'").length)
            (ascii "UNB+a'")).1 ++
          (segmentLoop (ediParserInit none) (0 + (ascii "UNZ+").length)
            (ascii "UNZ+")).1.map
              (·.shift ((ascii "UNB+a'").length + (ascii "\r\n").length)),
        (segmentLoop (ediParserInit none) (0 + (ascii "UNZ+").length)
          (ascii "UNZ+")).2) :=
  (segmentLoop_lineBreaks (ediParserInit none) 0
    (Or.inr (by decide +kernel)) (by decide +kernel) _).1

end Libedi
