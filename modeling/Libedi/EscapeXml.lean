import Libedi.Build
import Libedi.Convert
import Libedi.Lib.Entities
import Libedi.Lib.Formatted

/-!
# The memory of `escape_xml`

`escape_xml` of `libedixml/output.c`, without a conversion of charsets.  `Convert`
has the text that it makes (`escapeXml`).  Here is the block that it makes the text
in, which is asked for anew in front of each word of four or five bytes.

A store behind the end of the block has no result.  So `escapeXmlLoop_holds` says
that `len` is ahead of `pos` all the time, by the rest of the source and its NUL.
Lengths are numbers of any size there.  With those of `size_t` it is the same if
the blocks that are asked for fit into memory (`escapeXmlLoop_sizeAdd`).
-/

namespace Libedi

open Formatted

/-- `r`, `len` and `pos`. -/
structure EscapeBuffer where
  r : Block
  len : Nat
  pos : Nat

namespace EscapeBuffer

/-- `r[pos++] = c;` -/
def put (o : EscapeBuffer) (c : UInt8) : Option EscapeBuffer :=
  (o.r.store o.pos [c]).map fun r => { o with r := r, pos := o.pos + 1 }

/-- Some bytes, one after the other. -/
def puts (o : EscapeBuffer) (s : Bytes) : Option EscapeBuffer := s.foldlM put o

end EscapeBuffer

section Memory

-- How lengths are added, and what is in memory that was not stored to.
variable (add : Nat → Nat → Nat) (stale : Nat → UInt8)

/-- `len += n; r = realloc(r, len);` -/
def EscapeBuffer.grow (o : EscapeBuffer) (n : Nat) : EscapeBuffer :=
  let len := add o.len n
  { o with r := o.r.resize stale len, len := len }

/-- The loop of `escape_xml`. -/
def escapeXmlLoop : Bytes → EscapeBuffer → Option EscapeBuffer
  | [], o => some o
  | c :: src, o =>
    if c = '<'.toUInt8 then
      ((o.grow add stale 4).puts (ascii "&lt;")).bind (escapeXmlLoop src)
    else if c = '&'.toUInt8 then
      ((o.grow add stale 5).puts (ascii "&amp;")).bind (escapeXmlLoop src)
    else (o.put c).bind (escapeXmlLoop src)

/-- `escape_xml`: the block that it returns. -/
def escapeXmlBlock (src : Bytes) : Option Block :=
  let len := add src.length 1
  (escapeXmlLoop add stale src ⟨⟨len, stale⟩, len, 0⟩).bind fun o =>
    o.r.store o.pos [0]

/-- The lengths that `escape_xml` asks for from a length on, first to last. -/
def escapeXmlLengths (len : Nat) : Bytes → List Nat
  | [] => [len]
  | c :: src =>
    if c = '<'.toUInt8 then len :: escapeXmlLengths (add len 4) src
    else if c = '&'.toUInt8 then len :: escapeXmlLengths (add len 5) src
    else escapeXmlLengths len src

end Memory

/-! ## The words -/

/-- The words of `escape_xml`. -/
def xmlEntities : List (UInt8 × Bytes) :=
  [('<'.toUInt8, ascii "&lt;"), ('&'.toUInt8, ascii "&amp;")]

/-- Each `&lt;` becomes `<` and each `&amp;` becomes `&`, in one pass from left to
right. -/
def unescapeXml : Bytes → Bytes := Entities.decode xmlEntities

theorem xmlEntities_readable : Entities.Readable xmlEntities '&'.toUInt8 := by
  constructor <;> decide

theorem escapeXml_cons (c : UInt8) (src : Bytes) :
    escapeXml (c :: src)
      = (if c = '<'.toUInt8 then ascii "&lt;"
        else if c = '&'.toUInt8 then ascii "&amp;" else [c]) ++ escapeXml src :=
  rfl

theorem escapeXml_eq_encode (src : Bytes) :
    escapeXml src = Entities.encode xmlEntities src := by
  refine congrArg src.flatMap (funext fun c => ?_)
  by_cases hlt : c = '<'.toUInt8
  · rw [if_pos hlt, hlt]
    rfl
  · by_cases hamp : c = '&'.toUInt8
    · rw [if_neg hlt, if_pos hamp, hamp]
      rfl
    · have hnone : xmlEntities.lookup c = none := by
        rw [xmlEntities, List.lookup_cons, beq_false_of_ne hlt, List.lookup_cons,
          beq_false_of_ne hamp]
        rfl
      rw [if_neg hlt, if_neg hamp, Entities.word, hnone, Option.getD_none]

/-- The text has only bytes of the source, without the `<`, and of the words. -/
theorem notMem_escapeXml {c : UInt8} (hwords : ∀ e ∈ xmlEntities, c ∉ e.2)
    {src : Bytes} (hc : c ∉ src ∨ (xmlEntities.lookup c).isSome = true) :
    c ∉ escapeXml src := by
  rw [escapeXml_eq_encode]
  intro hmem
  rcases Entities.mem_encode hmem with ⟨hsrc, hnone⟩ | ⟨e, he, hin⟩
  · rw [hnone] at hc
    exact hc.elim (fun hno => hno hsrc) (by simp)
  · exact hwords e he hin

/-! ## The block -/

namespace EscapeBuffer

/-- The block starts with the text, and there is space for `left` bytes more. -/
structure Holds (o : EscapeBuffer) (t : Bytes) (left : Nat) : Prop where
  pos : o.pos = t.length
  block : o.r.Holds t
  room : o.r.room = o.len
  ahead : t.length + left ≤ o.len

variable {o o' : EscapeBuffer} {t s : Bytes} {left n : Nat}
  {stale : Nat → UInt8}

theorem Holds.mono (h : o.Holds t left) (hn : n ≤ left) : o.Holds t n where
  pos := h.pos
  block := h.block
  room := h.room
  ahead := by
    have hle := h.ahead
    omega

theorem Holds.grow (h : o.Holds t left) (n : Nat) :
    (o.grow (· + ·) stale n).Holds t (left + n) where
  pos := h.pos
  block := by
    have hle := h.ahead
    apply h.block.resize
    show t.length ≤ o.len + n
    omega
  room := rfl
  ahead := by
    have hle := h.ahead
    show t.length + (left + n) ≤ o.len + n
    omega

theorem Holds.put (h : o.Holds t (left + 1)) (c : UInt8) :
    ∃ o', o.put c = some o' ∧ o'.Holds (t ++ [c]) left := by
  have hle := h.ahead
  have hroom : t.length + [c].length ≤ o.r.room := by
    rw [h.room, List.length_singleton]
    omega
  obtain ⟨r, hr⟩ := Block.store_eq_some_iff.2 hroom
  refine ⟨{ o with r := r, pos := o.pos + 1 }, ?_, ?_⟩
  · rw [EscapeBuffer.put, h.pos, hr]
    rfl
  · constructor
    · show o.pos + 1 = _
      rw [h.pos, List.length_append, List.length_singleton]
    · exact h.block.store hr
    · show r.room = o.len
      rw [Block.room_store hr, h.room]
    · show (t ++ [c]).length + left ≤ o.len
      rw [List.length_append, List.length_singleton]
      omega

theorem Holds.puts (h : o.Holds t (left + s.length)) :
    ∃ o', o.puts s = some o' ∧ o'.Holds (t ++ s) left := by
  induction s generalizing o t with
  | nil =>
    rw [List.append_nil]
    exact ⟨o, rfl, h⟩
  | cons c s ih =>
    obtain ⟨p, hput, hp⟩ := h.put c
    obtain ⟨o', hputs, ho'⟩ := ih hp
    refine ⟨o', ?_, ?_⟩
    · rw [EscapeBuffer.puts, List.foldlM_cons, hput]
      exact hputs
    · rwa [List.append_cons]

theorem puts_singleton (o : EscapeBuffer) (c : UInt8) : o.puts [c] = o.put c :=
  Option.bind_fun_some _

/-- Storing bytes leaves the length as it is. -/
theorem puts_len (h : o.puts s = some o') : o'.len = o.len := by
  induction s generalizing o with
  | nil =>
    obtain rfl := Option.some.inj h
    rfl
  | cons c s ih =>
    rw [EscapeBuffer.puts, List.foldlM_cons] at h
    obtain ⟨p, hput, hrest⟩ := Option.bind_eq_some_iff.1 h
    obtain ⟨r, -, rfl⟩ := Option.map_eq_some_iff.1 hput
    have hlen := ih hrest
    exact hlen

end EscapeBuffer

/-! ## The loop -/

/-- What `escape_xml` does for a byte.  Either it grows the block by the length of a
word and stores the word, or it stores the byte. -/
theorem escapeXml_cases (stale : Nat → UInt8) (c : UInt8) :
    (∃ n w, n ≤ 5 ∧ w.length = n ∧
      (∀ src, escapeXml (c :: src) = w ++ escapeXml src) ∧
      (∀ add src o, escapeXmlLoop add stale (c :: src) o
        = ((o.grow add stale n).puts w).bind (escapeXmlLoop add stale src)) ∧
      ∀ add src len, escapeXmlLengths add len (c :: src)
        = len :: escapeXmlLengths add (add len n) src) ∨
    ((∀ src, escapeXml (c :: src) = [c] ++ escapeXml src) ∧
      (∀ add src o, escapeXmlLoop add stale (c :: src) o
        = (o.puts [c]).bind (escapeXmlLoop add stale src)) ∧
      ∀ add src len, escapeXmlLengths add len (c :: src)
        = escapeXmlLengths add len src) := by
  by_cases hlt : c = '<'.toUInt8
  · refine Or.inl ⟨4, ascii "&lt;", by decide, rfl, ?_, ?_, ?_⟩
    · intro src
      rw [escapeXml_cons, if_pos hlt]
    · intro add src o
      rw [escapeXmlLoop, if_pos hlt]
    · intro add src len
      rw [escapeXmlLengths, if_pos hlt]
  by_cases hamp : c = '&'.toUInt8
  · refine Or.inl ⟨5, ascii "&amp;", by decide, rfl, ?_, ?_, ?_⟩
    · intro src
      rw [escapeXml_cons, if_neg hlt, if_pos hamp]
    · intro add src o
      rw [escapeXmlLoop, if_neg hlt, if_pos hamp]
    · intro add src len
      rw [escapeXmlLengths, if_neg hlt, if_pos hamp]
  · refine Or.inr ⟨?_, ?_, ?_⟩
    · intro src
      rw [escapeXml_cons, if_neg hlt, if_neg hamp]
    · intro add src o
      rw [escapeXmlLoop, if_neg hlt, if_neg hamp, EscapeBuffer.puts_singleton]
    · intro add src len
      rw [escapeXmlLengths, if_neg hlt, if_neg hamp]

/-- The length stays ahead of the position by the rest of the source and its NUL. -/
theorem escapeXmlLoop_holds (stale : Nat → UInt8) {o : EscapeBuffer} {t : Bytes}
    (src : Bytes) (h : o.Holds t (src.length + 1)) :
    ∃ o', escapeXmlLoop (· + ·) stale src o = some o' ∧
      o'.Holds (t ++ escapeXml src) 1 := by
  induction src generalizing o t with
  | nil => exact ⟨o, rfl, by simpa [escapeXml] using h⟩
  | cons c src ih =>
    rw [List.length_cons] at h
    rcases escapeXml_cases stale c with
      ⟨n, w, -, hw, htext, hloop, -⟩ | ⟨htext, hloop, -⟩
    · have hgrown : (o.grow (· + ·) stale n).Holds t (src.length + 1 + w.length) :=
        (h.grow n).mono (by omega)
      obtain ⟨p, hputs, hp⟩ := hgrown.puts
      obtain ⟨o', hrest, ho'⟩ := ih hp
      refine ⟨o', ?_, ?_⟩
      · rw [hloop, hputs, Option.bind_some, hrest]
      · rwa [htext, ← List.append_assoc]
    · obtain ⟨p, hputs, hp⟩ := EscapeBuffer.Holds.puts (s := [c]) h
      obtain ⟨o', hrest, ho'⟩ := ih hp
      refine ⟨o', ?_, ?_⟩
      · rw [hloop, hputs, Option.bind_some, hrest]
      · rwa [htext, ← List.append_assoc]

/-! ## Lengths -/

theorem escapeXmlLengths_ne_nil (add : Nat → Nat → Nat) (len : Nat) (src : Bytes) :
    escapeXmlLengths add len src ≠ [] := by
  induction src with
  | nil => exact List.cons_ne_nil _ _
  | cons c src ih =>
    rw [escapeXmlLengths]
    split_ifs
    · exact List.cons_ne_nil _ _
    · exact List.cons_ne_nil _ _
    · exact ih

/-- `len` is what was asked for last. -/
theorem escapeXmlLoop_len (add : Nat → Nat → Nat) (stale : Nat → UInt8)
    {o o' : EscapeBuffer} {src : Bytes}
    (h : escapeXmlLoop add stale src o = some o') :
    (escapeXmlLengths add o.len src).getLast? = some o'.len := by
  induction src generalizing o with
  | nil =>
    obtain rfl := Option.some.inj h
    rfl
  | cons c src ih =>
    rcases escapeXml_cases stale c with
      ⟨n, w, -, -, -, hloop, hlengths⟩ | ⟨-, hloop, hlengths⟩
    · rw [hloop] at h
      obtain ⟨p, hputs, hrest⟩ := Option.bind_eq_some_iff.1 h
      have hlen : p.len = add o.len n := EscapeBuffer.puts_len hputs
      rw [hlengths, List.getLast?_cons_of_ne_nil (escapeXmlLengths_ne_nil _ _ _),
        ← hlen]
      exact ih hrest
    · rw [hloop] at h
      obtain ⟨p, hputs, hrest⟩ := Option.bind_eq_some_iff.1 h
      rw [hlengths, ← EscapeBuffer.puts_len hputs]
      exact ih hrest

/-- A length that fits beside a source of `n` bytes does not wrap as long as the
blocks were made for that source: they are less than seven times its size, and a
length next to the end of the address space leaves no room for such a source. -/
theorem sizeAdd_of_beside {len k n : Nat} (hk : k ≤ 5) (hlen : len ≤ 6 * n + 1)
    (hfits : len + (n + 1) < 2 ^ 64) : sizeAdd len k = len + k := by
  have hlt : len + k < 2 ^ 64 := by omega
  exact Nat.mod_eq_of_lt hlt

/-- Lengths of `size_t` do not wrap if the blocks that are asked for have space in
memory beside the source. -/
theorem escapeXmlLoop_sizeAdd (stale : Nat → UInt8) {o : EscapeBuffer} {n : Nat}
    {src : Bytes} (hlen : o.len + 5 * src.length ≤ 6 * n + 1)
    (hfits : ∀ len ∈ escapeXmlLengths sizeAdd o.len src, len + (n + 1) < 2 ^ 64) :
    escapeXmlLoop sizeAdd stale src o = escapeXmlLoop (· + ·) stale src o := by
  induction src generalizing o with
  | nil => rfl
  | cons c src ih =>
    rw [List.length_cons] at hlen
    rcases escapeXml_cases stale c with
      ⟨k, w, hk, -, -, hloop, hlengths⟩ | ⟨-, hloop, hlengths⟩
    · rw [hlengths, List.forall_mem_cons] at hfits
      have hadd : sizeAdd o.len k = o.len + k :=
        sizeAdd_of_beside hk (by omega) hfits.1
      have hsame : o.grow sizeAdd stale k = o.grow (· + ·) stale k := by
        simp only [EscapeBuffer.grow, hadd]
      rw [hloop, hloop, hsame]
      refine Option.bind_congr fun p hputs => ?_
      have hp : p.len = o.len + k := EscapeBuffer.puts_len hputs
      apply ih
      · rw [hp]
        omega
      · rw [hp, ← hadd]
        exact hfits.2
    · rw [hlengths] at hfits
      rw [hloop, hloop]
      refine Option.bind_congr fun p hputs => ?_
      have hp : p.len = o.len := EscapeBuffer.puts_len hputs
      apply ih
      · rw [hp]
        omega
      · rwa [hp]

/-! ## `escape_xml` -/

/-- The block that is returned holds the text and a NUL, and has the length that
was asked for last. -/
theorem escapeXmlBlock_holds (stale : Nat → UInt8) (src : Bytes) :
    ∃ b, escapeXmlBlock (· + ·) stale src = some b ∧
      (escapeXmlLengths (· + ·) (src.length + 1) src).getLast? = some b.room ∧
      b.Holds (escapeXml src ++ [0]) := by
  have hfirst : EscapeBuffer.Holds ⟨⟨src.length + 1, stale⟩, src.length + 1, 0⟩ []
      (src.length + 1) :=
    ⟨rfl, Block.Holds.nil _, rfl, Nat.le_of_eq (Nat.zero_add _)⟩
  obtain ⟨o, hloop, ho⟩ := escapeXmlLoop_holds stale src hfirst
  rw [List.nil_append] at ho
  obtain ⟨b, hstore⟩ : ∃ b, o.r.store o.pos [0] = some b := by
    rw [Block.store_eq_some_iff, ho.pos, ho.room]
    exact ho.ahead
  refine ⟨b, ?_, ?_, ?_⟩
  · rw [escapeXmlBlock, hloop]
    exact hstore
  · rw [Block.room_store hstore, ho.room]
    exact escapeXmlLoop_len _ _ hloop
  · rw [ho.pos] at hstore
    exact ho.block.store hstore

/-- The same block with lengths of `size_t`. -/
theorem escapeXmlBlock_sizeAdd (stale : Nat → UInt8) {src : Bytes}
    (hfits : ∀ len ∈ escapeXmlLengths sizeAdd (sizeAdd src.length 1) src,
      len + (src.length + 1) < 2 ^ 64) :
    escapeXmlBlock sizeAdd stale src = escapeXmlBlock (· + ·) stale src := by
  have hlast := List.getLast_mem
    (escapeXmlLengths_ne_nil sizeAdd (sizeAdd src.length 1) src)
  have hlen : sizeAdd src.length 1 = src.length + 1 := by
    have hlt := hfits _ hlast
    exact Nat.mod_eq_of_lt (by omega)
  rw [hlen] at hfits
  rw [escapeXmlBlock, escapeXmlBlock, hlen,
    escapeXmlLoop_sizeAdd stale (by simp only; omega) hfits]

/-- Escaped text is exact: it is stored inside of the block, ends with its NUL, has
no `<` and can be decoded. -/
theorem escapeXml_exact (stale : Nat → UInt8) :
    (∀ src : CString, ∃ b,
      escapeXmlBlock (· + ·) stale src.bytes = some b ∧
      (escapeXmlLengths (· + ·) (src.bytes.length + 1) src.bytes).getLast?
        = some b.room ∧
      b.Holds (escapeXml src.bytes ++ [0]) ∧
      0 ∉ escapeXml src.bytes ∧
      '<'.toUInt8 ∉ escapeXml src.bytes ∧
      unescapeXml (escapeXml src.bytes) = src.bytes ∧
      ((∀ len ∈ escapeXmlLengths sizeAdd (sizeAdd src.bytes.length 1) src.bytes,
        len + (src.bytes.length + 1) < 2 ^ 64) →
          escapeXmlBlock sizeAdd stale src.bytes = some b)) ∧
    ∀ src src' : CString,
      escapeXml src.bytes = escapeXml src'.bytes → src.bytes = src'.bytes := by
  constructor
  · intro src
    obtain ⟨b, hb, hroom, hholds⟩ := escapeXmlBlock_holds stale src.bytes
    refine ⟨b, hb, hroom, hholds, ?_, ?_, ?_, ?_⟩
    · exact notMem_escapeXml (by decide) (Or.inl src.nulFree)
    · exact notMem_escapeXml (by decide) (Or.inr (by decide))
    · rw [escapeXml_eq_encode]
      exact xmlEntities_readable.decode_encode src.bytes
    · intro hfits
      rw [escapeXmlBlock_sizeAdd stale hfits, hb]
  · intro src src' h
    rw [escapeXml_eq_encode, escapeXml_eq_encode] at h
    exact xmlEntities_readable.encode_injective h

end Libedi
