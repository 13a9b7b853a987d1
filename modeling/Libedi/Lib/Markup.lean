import Mathlib.Data.List.Basic

/-!
# Text and markup

A scanner for XML text that tells character data from markup: tags, comments,
processing instructions and CDATA sections.  It runs byte by byte, so texts can
be put together (`run_append`), and it fails where a text is not well formed at
this level.

What is inside a tag is not looked at, but for quotes: a `>` between quotes does
not end the tag.  Document type declarations are not read.
-/

namespace Markup

/-- What a text consists of. -/
inductive Event where
  | char (c : UInt8)
  | reference (name : List UInt8)
  | tag (body : List UInt8)
  | comment (body : List UInt8)
  | instruction (body : List UInt8)
  | cdata (body : List UInt8)
  deriving DecidableEq, Repr

/-- Where the scanner is.  A number counts the dashes, question marks or
brackets that may be the beginning of the end. -/
inductive State where
  | text
  | reference (name : List UInt8)
  | less
  | bang (read : List UInt8)
  | tag (body : List UInt8) (quote : Option UInt8)
  | comment (body : List UInt8)
  | commentDash (body : List UInt8)
  | commentEnd (body : List UInt8)
  | instruction (body : List UInt8)
  | instructionEnd (body : List UInt8)
  | cdata (body : List UInt8)
  | cdataBracket (body : List UInt8)
  | cdataEnd (body : List UInt8)
  deriving DecidableEq, Repr

/-- What follows `<!` in a comment. -/
def commentStart : List UInt8 := ['-', '-'].map Char.toUInt8

/-- What follows `<!` in a CDATA section. -/
def cdataStart : List UInt8 := ['[', 'C', 'D', 'A', 'T', 'A', '['].map Char.toUInt8

/-- A byte behind `<!` and `read`. -/
def stepBang (read : List UInt8) : Option State :=
  if read = commentStart then some (.comment [])
  else if read = cdataStart then some (.cdata [])
  else if read <+: commentStart ∨ read <+: cdataStart then some (.bang read)
  else none

/-- The next byte: the state behind it, and the event that it completes. -/
def step (s : State) (c : UInt8) : Option (State × List Event) :=
  match s with
  | .text =>
    if c = '<'.toUInt8 then some (.less, [])
    else if c = '&'.toUInt8 then some (.reference [], [])
    else some (.text, [.char c])
  | .reference name =>
    if c = ';'.toUInt8 then some (.text, [.reference name])
    else if c = '<'.toUInt8 ∨ c = '&'.toUInt8 then none
    else some (.reference (name ++ [c]), [])
  | .less =>
    if c = '!'.toUInt8 then some (.bang [], [])
    else if c = '?'.toUInt8 then some (.instruction [], [])
    else if c = '<'.toUInt8 ∨ c = '>'.toUInt8 ∨ c = '"'.toUInt8 ∨
        c = '\''.toUInt8 then none
    else some (.tag [c] none, [])
  | .bang read => (stepBang (read ++ [c])).map fun s => (s, [])
  | .tag body none =>
    if c = '>'.toUInt8 then some (.text, [.tag body])
    else if c = '<'.toUInt8 then none
    else if c = '"'.toUInt8 ∨ c = '\''.toUInt8 then
      some (.tag (body ++ [c]) (some c), [])
    else some (.tag (body ++ [c]) none, [])
  | .tag body (some q) =>
    if c = '<'.toUInt8 then none
    else if c = q then some (.tag (body ++ [c]) none, [])
    else some (.tag (body ++ [c]) (some q), [])
  | .comment body =>
    if c = '-'.toUInt8 then some (.commentDash body, [])
    else some (.comment (body ++ [c]), [])
  | .commentDash body =>
    if c = '-'.toUInt8 then some (.commentEnd body, [])
    else some (.comment (body ++ ['-'.toUInt8, c]), [])
  | .commentEnd body =>
    if c = '>'.toUInt8 then some (.text, [.comment body]) else none
  | .instruction body =>
    if c = '?'.toUInt8 then some (.instructionEnd body, [])
    else some (.instruction (body ++ [c]), [])
  | .instructionEnd body =>
    if c = '>'.toUInt8 then some (.text, [.instruction body])
    else if c = '?'.toUInt8 then some (.instructionEnd (body ++ [c]), [])
    else some (.instruction (body ++ ['?'.toUInt8, c]), [])
  | .cdata body =>
    if c = ']'.toUInt8 then some (.cdataBracket body, [])
    else some (.cdata (body ++ [c]), [])
  | .cdataBracket body =>
    if c = ']'.toUInt8 then some (.cdataEnd body, [])
    else some (.cdata (body ++ [']'.toUInt8, c]), [])
  | .cdataEnd body =>
    if c = '>'.toUInt8 then some (.text, [.cdata body])
    else if c = ']'.toUInt8 then some (.cdataEnd (body ++ [c]), [])
    else some (.cdata (body ++ [']'.toUInt8, ']'.toUInt8, c]), [])

/-- A text: the state behind it, and its events. -/
def run (s : State) : List UInt8 → Option (State × List Event)
  | [] => some (s, [])
  | c :: cs =>
    (step s c).bind fun r => (run r.1 cs).map fun t => (t.1, r.2 ++ t.2)

/-- The events of a text that is complete. -/
def scan (text : List UInt8) : Option (List Event) :=
  (run .text text).bind fun r => if r.1 = .text then some r.2 else none

/-- From the state `s` the text leads to `s'` by these events. -/
def Reads (s : State) (text : List UInt8) (s' : State) (es : List Event) :
    Prop :=
  run s text = some (s', es)

instance (s : State) (text : List UInt8) (s' : State) (es : List Event) :
    Decidable (Reads s text s' es) :=
  inferInstanceAs (Decidable (_ = _))

theorem scan_eq_some_iff {text : List UInt8} {es : List Event} :
    scan text = some es ↔ Reads .text text .text es := by
  unfold scan Reads
  cases run .text text with
  | none => simp
  | some r =>
    obtain ⟨s, fs⟩ := r
    simp

section Reads

variable {s s' s'' : State} {es fs : List Event} {c : UInt8}
  {as bs : List UInt8}

theorem Reads.nil (s : State) : Reads s [] s [] := rfl

theorem Reads.cons (hc : step s c = some (s', es)) (h : Reads s' as s'' fs) :
    Reads s (c :: as) s'' (es ++ fs) := by
  rw [Reads] at h
  rw [Reads, run, hc, Option.bind_some, h]
  rfl

/-- A byte that completes no event. -/
theorem Reads.cons_nil (hc : step s c = some (s', []))
    (h : Reads s' as s'' fs) : Reads s (c :: as) s'' fs :=
  Reads.cons hc h

theorem run_append_of_reads (h : Reads s as s' es) (bs : List UInt8) :
    run s (as ++ bs) = (run s' bs).map fun t => (t.1, es ++ t.2) := by
  induction as generalizing s es with
  | nil =>
    obtain ⟨rfl, rfl⟩ := Prod.mk.inj (Option.some.inj h)
    simp
  | cons a as ih =>
    rw [Reads, run] at h
    obtain ⟨r, hr, hmap⟩ := Option.bind_eq_some_iff.1 h
    obtain ⟨t, ht, heq⟩ := Option.map_eq_some_iff.1 hmap
    obtain ⟨rfl, rfl⟩ := Prod.mk.inj heq
    have hrest : run r.1 (as ++ bs)
        = (run t.1 bs).map fun u => (u.1, t.2 ++ u.2) := ih ht
    rw [List.cons_append, run, hr, Option.bind_some, hrest, Option.map_map]
    simp [Function.comp_def]

/-- One text behind the other. -/
theorem Reads.append (ha : Reads s as s' es) (hb : Reads s' bs s'' fs) :
    Reads s (as ++ bs) s'' (es ++ fs) := by
  rw [Reads] at hb
  rw [Reads, run_append_of_reads ha, hb]
  rfl

/-- Texts that each lead back to the state that they started in. -/
theorem Reads.flatMap {ι : Type*} {l : List ι} {text : ι → List UInt8}
    {events : ι → List Event}
    (h : ∀ i ∈ l, Reads s (text i) s (events i)) :
    Reads s (l.flatMap text) s (l.flatMap events) := by
  induction l with
  | nil => exact .nil s
  | cons i l ih =>
    rw [List.forall_mem_cons] at h
    exact h.1.append (ih h.2)

end Reads

/-! ## Well-formed pieces -/

/-- Character data. -/
theorem reads_chars {cs : List UInt8}
    (h : ∀ c ∈ cs, c ≠ '<'.toUInt8 ∧ c ≠ '&'.toUInt8) :
    Reads .text cs .text (cs.map .char) := by
  induction cs with
  | nil => exact .nil _
  | cons c cs ih =>
    rw [List.forall_mem_cons] at h
    have hc : step .text c = some (.text, [.char c]) := by
      simp [step, h.1.1, h.1.2]
    exact Reads.cons hc (ih h.2)

/-- Bytes that may stand in a tag outside of quotes. -/
def TagByte (c : UInt8) : Prop :=
  c ≠ '>'.toUInt8 ∧ c ≠ '<'.toUInt8 ∧ c ≠ '"'.toUInt8 ∧ c ≠ '\''.toUInt8

instance (c : UInt8) : Decidable (TagByte c) :=
  inferInstanceAs (Decidable (_ ∧ _))

/-- The inside of a tag, without quotes. -/
theorem reads_tag {body : List UInt8} (acc : List UInt8)
    (h : ∀ c ∈ body, TagByte c) :
    Reads (.tag acc none) body (.tag (acc ++ body) none) [] := by
  induction body generalizing acc with
  | nil => simpa using Reads.nil _
  | cons c body ih =>
    rw [List.forall_mem_cons] at h
    obtain ⟨⟨hgt, hlt, hquote, hapos⟩, hbody⟩ := h
    have hc : step (.tag acc none) c = some (.tag (acc ++ [c]) none, []) := by
      simp [step, hgt, hlt, hquote, hapos]
    refine Reads.cons_nil hc ?_
    simpa using ih (acc ++ [c]) hbody

/-- The inside of quotes. -/
theorem reads_quoted {q : UInt8} {value : List UInt8} (acc : List UInt8)
    (h : ∀ c ∈ value, c ≠ '<'.toUInt8 ∧ c ≠ q) :
    Reads (.tag acc (some q)) value (.tag (acc ++ value) (some q)) [] := by
  induction value generalizing acc with
  | nil => simpa using Reads.nil _
  | cons c value ih =>
    rw [List.forall_mem_cons] at h
    have hc : step (.tag acc (some q)) c
        = some (.tag (acc ++ [c]) (some q), []) := by
      simp [step, h.1.1, h.1.2]
    refine Reads.cons_nil hc ?_
    simpa using ih (acc ++ [c]) h.2

/-- What a tag does not start with. -/
def TagStart (c : UInt8) : Prop :=
  c ≠ '!'.toUInt8 ∧ c ≠ '?'.toUInt8 ∧ TagByte c

instance (c : UInt8) : Decidable (TagStart c) :=
  inferInstanceAs (Decidable (_ ∧ _))

theorem reads_tagStart {c : UInt8} (hc : TagStart c) :
    Reads .text ['<'.toUInt8, c] (.tag [c] none) [] := by
  obtain ⟨hbang, hquestion, hgt, hlt, hquote, hapos⟩ := hc
  have hless : step .text '<'.toUInt8 = some (.less, []) := by simp [step]
  have htag : step .less c = some (.tag [c] none, []) := by
    simp [step, hbang, hquestion, hgt, hlt, hquote, hapos]
  exact Reads.cons_nil hless (Reads.cons_nil htag (.nil _))

theorem reads_tagEnd (body : List UInt8) :
    Reads (.tag body none) ['>'.toUInt8] .text [.tag body] := by
  simp [Reads, run, step]

/-- A tag without quotes. -/
theorem reads_tagText {c : UInt8} {body : List UInt8} (hc : TagStart c)
    (h : ∀ b ∈ body, TagByte b) :
    Reads .text ('<'.toUInt8 :: c :: (body ++ ['>'.toUInt8])) .text
      [.tag (c :: body)] := by
  have hbody := (reads_tag [c] h).append (reads_tagEnd ([c] ++ body))
  exact (reads_tagStart hc).append hbody

/-- A tag with one value in quotes at its end. -/
theorem reads_quotedTagText {c : UInt8} {body value : List UInt8}
    (hc : TagStart c) (h : ∀ b ∈ body, TagByte b)
    (hvalue : ∀ b ∈ value, b ≠ '<'.toUInt8 ∧ b ≠ '"'.toUInt8) :
    Reads .text ('<'.toUInt8 :: c :: (body ++ ('"'.toUInt8 :: (value ++
        ['"'.toUInt8, '>'.toUInt8])))) .text
      [.tag (c :: (body ++ ('"'.toUInt8 :: (value ++ ['"'.toUInt8]))))] := by
  have hopen : step (.tag ([c] ++ body) none) '"'.toUInt8
      = some (.tag ([c] ++ body ++ ['"'.toUInt8]) (some '"'.toUInt8), []) := by
    simp only [step]
    rw [if_neg (by decide), if_neg (by decide), if_pos (Or.inl trivial)]
  have hclose : step (.tag ([c] ++ body ++ ['"'.toUInt8] ++ value)
      (some '"'.toUInt8)) '"'.toUInt8
      = some (.tag ([c] ++ body ++ ['"'.toUInt8] ++ value ++ ['"'.toUInt8])
        none, []) := by
    simp only [step]
    rw [if_neg (by decide), if_pos trivial]
  have hend := Reads.cons_nil hclose (reads_tagEnd _)
  have hinside := Reads.cons_nil hopen ((reads_quoted _ hvalue).append hend)
  have hall := (reads_tagStart hc).append ((reads_tag [c] h).append hinside)
  simpa using hall

/-- Two dashes in a row. -/
def doubleDash : List UInt8 := ['-'.toUInt8, '-'.toUInt8]

theorem not_doubleDash_of_cons {c : UInt8} {body : List UInt8}
    (h : ¬ doubleDash <:+: c :: body) : ¬ doubleDash <:+: body :=
  fun hbody => h (List.infix_cons hbody)

theorem step_comment (acc : List UInt8) {c : UInt8} (hc : c ≠ '-'.toUInt8) :
    step (.comment acc) c = some (.comment (acc ++ [c]), []) := by
  simp [step, hc]

/-- A single dash in a comment. -/
theorem reads_dash (acc : List UInt8) {c : UInt8} (hc : c ≠ '-'.toUInt8) :
    Reads (.comment acc) ['-'.toUInt8, c]
      (.comment (acc ++ ['-'.toUInt8, c])) [] := by
  simp [Reads, run, step, hc]

/-- The inside of a comment may hold any text without two dashes in a row that
does not end in a dash. -/
theorem reads_comment : ∀ (body acc : List UInt8), ¬ doubleDash <:+: body →
    body.getLast? ≠ some '-'.toUInt8 →
    Reads (.comment acc) body (.comment (acc ++ body)) []
  | [], acc, _, _ => by simpa using Reads.nil _
  | [c], acc, _, hlast => by
    have hc : c ≠ '-'.toUInt8 := by simpa using hlast
    simp [Reads, run, step, hc]
  | c :: d :: body, acc, h, hlast => by
    rw [List.getLast?_cons_cons] at hlast
    by_cases hc : c = '-'.toUInt8
    · subst hc
      have hd : d ≠ '-'.toUInt8 := by
        rintro rfl
        exact h (List.prefix_append doubleDash body).isInfix
      have hlast' : body.getLast? ≠ some '-'.toUInt8 := by
        cases body with
        | nil => simp
        | cons e body => simpa [List.getLast?_cons_cons] using hlast
      have hbody := reads_comment body (acc ++ ['-'.toUInt8, d])
        (not_doubleDash_of_cons (not_doubleDash_of_cons h)) hlast'
      have hdash := (reads_dash acc hd).append hbody
      simpa using hdash
    · have hbody := reads_comment (d :: body) (acc ++ [c])
        (not_doubleDash_of_cons h) hlast
      refine Reads.cons_nil (step_comment acc hc) ?_
      simpa using hbody

theorem doubleDash_cons_iff {c : UInt8} (hc : c ≠ '-'.toUInt8)
    (body : List UInt8) :
    doubleDash <:+: c :: body ↔ doubleDash <:+: body := by
  rw [List.infix_cons_iff, or_iff_right]
  rintro ⟨behind, hbehind⟩
  exact hc (List.head_eq_of_cons_eq hbehind).symm

/-- Two dashes in a row are taken for the end of a comment. -/
theorem reads_comment_doubleDash : ∀ (body : List UInt8),
    doubleDash <:+: body → ∃ before behind,
      body = before ++ doubleDash ++ behind ∧ ∀ acc,
        Reads (.comment acc) (before ++ doubleDash)
          (.commentEnd (acc ++ before)) []
  | [], h => by simp [doubleDash] at h
  | [c], h => by
    have hlen := h.length_le
    simp [doubleDash] at hlen
  | c :: d :: body, h => by
    by_cases hc : c = '-'.toUInt8
    · subst hc
      by_cases hd : d = '-'.toUInt8
      · subst hd
        refine ⟨[], body, rfl, fun acc => ?_⟩
        simp [Reads, run, step, doubleDash]
      · have hbody : doubleDash <:+: body := by
          rw [List.infix_cons_iff, doubleDash_cons_iff hd] at h
          rcases h with hstart | hbody
          · exact absurd (List.cons_prefix_cons.1
              (List.cons_prefix_cons.1 hstart).2).1.symm hd
          · exact hbody
        obtain ⟨before, behind, hsplit, hreads⟩ :=
          reads_comment_doubleDash body hbody
        refine ⟨'-'.toUInt8 :: d :: before, behind, by simp [hsplit],
          fun acc => ?_⟩
        have hdash := (reads_dash acc hd).append
          (hreads (acc ++ ['-'.toUInt8, d]))
        simpa using hdash
    · rw [doubleDash_cons_iff hc] at h
      obtain ⟨before, behind, hsplit, hreads⟩ :=
        reads_comment_doubleDash (d :: body) h
      refine ⟨c :: before, behind, by simp [hsplit], fun acc => ?_⟩
      refine Reads.cons_nil (step_comment acc hc) ?_
      simpa using hreads (acc ++ [c])

/-- A comment around a text. -/
def commentText (body : List UInt8) : List UInt8 :=
  ['<'.toUInt8, '!'.toUInt8] ++ commentStart ++ body ++
    (commentStart ++ ['>'.toUInt8])

theorem reads_commentStart :
    Reads .text (['<'.toUInt8, '!'.toUInt8] ++ commentStart) (.comment []) [] := by
  decide

theorem reads_commentEnd (body : List UInt8) :
    Reads (.comment body) (commentStart ++ ['>'.toUInt8]) .text
      [.comment body] := by
  simp [Reads, run, step, commentStart]

theorem reads_commentText {body : List UInt8} (h : ¬ doubleDash <:+: body)
    (hlast : body.getLast? ≠ some '-'.toUInt8) :
    Reads .text (commentText body) .text [.comment body] :=
  (reads_commentStart.append (reads_comment body [] h hlast)).append
    (reads_commentEnd body)

/-- With two dashes in a row in it a comment is not read back. -/
theorem not_reads_commentText {body : List UInt8} (h : doubleDash <:+: body)
    (rest : List UInt8) (s : State) (es : List Event) :
    ¬ Reads .text (commentText body ++ rest) s (.comment body :: es) := by
  obtain ⟨before, behind, hsplit, hreads⟩ := reads_comment_doubleDash body h
  have hstart := reads_commentStart.append (hreads [])
  have htext : commentText body ++ rest
      = ['<'.toUInt8, '!'.toUInt8] ++ commentStart ++ (before ++ doubleDash) ++
        (behind ++ (commentStart ++ ['>'.toUInt8] ++ rest)) := by
    simp [commentText, hsplit]
  rw [htext, Reads, run_append_of_reads hstart]
  generalize behind ++ (commentStart ++ ['>'.toUInt8] ++ rest) = text
  rw [List.nil_append, List.nil_append]
  intro heq
  obtain ⟨t, ht, heq⟩ := Option.map_eq_some_iff.1 heq
  obtain ⟨rfl, hevents⟩ := Prod.mk.inj heq
  cases text with
  | nil =>
    obtain ⟨-, hnil⟩ := Prod.mk.inj (Option.some.inj ht)
    simp [← hnil] at hevents
  | cons c text =>
    rw [run, step] at ht
    split at ht
    · obtain ⟨u, -, hu⟩ := Option.map_eq_some_iff.1 ht
      have hbody : before = body ∧ u.2 = es := by
        simpa [← hu] using hevents
      have hlen := congrArg List.length hsplit
      rw [hbody.1, List.length_append, List.length_append] at hlen
      have hdash : doubleDash.length = 2 := rfl
      omega
    · simp at ht

end Markup
