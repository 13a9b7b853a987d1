import Libedi.Convert

/-!
# Conversion of charsets

`do_conv` of `libedixml/output.c`.

`iconv` is not part of the sources.  It is a parameter here (`Iconv`), and so is
what `realloc` does with a block and what the memory held before (`Realloc`).

`do_conv` ends in one of three ways (`Converted`): with a converted string, with
an exception, or by going astray (`Crash`).  A pointer into a block that
`realloc` has moved is kept as `none`.
-/

namespace Libedi

/-- Where the process ends or its memory is corrupted. -/
inductive Crash where
  /-- The conversion of a segment goes astray. -/
  | fault (f : Fault)
  /-- `iconv` gets a descriptor that is not open. -/
  | descriptor
  /-- A store outside of the buffer. -/
  | stray
  /-- `assert(!"...")`. -/
  | assertion
  /-- `outbufptr` points to a variable that is gone. -/
  | outbuf
  /-- `assert(!edixml_excp_text)`. -/
  | pending
  /-- `strlen` of `edixml_excp_text`, which is a null pointer. -/
  | noText
  /-- A second formatting from a `va_list` that has been consumed, or a buffer
  that is longer than its variables can say. -/
  | format
  deriving DecidableEq, Repr

/-! ## The library -/

/-- How `iconv` returns, by `errno` if it is with `-1`. -/
inductive IconvEnd where
  | done
  | e2big
  | eilseq
  | einval
  | other
  deriving DecidableEq, Repr

/-- What a call of `iconv` does: the descriptor behind it, how many bytes of the
input it has read, and the bytes that it has stored. -/
structure IconvCall (σ : Type) where
  cd : σ
  read : Nat
  stored : Bytes
  ending : IconvEnd

/-- `iconv_open` to UTF-8, and `iconv` with what is left of the input and of the
room for the output. -/
structure Iconv (σ : Type) where
  iconvOpen : Bytes → Option σ
  iconv : σ → Bytes → Nat → IconvCall σ
  /-- All input is read if it returns without `-1`. -/
  done_reads : ∀ cd src dstleft, (iconv cd src dstleft).ending = .done →
    src.length ≤ (iconv cd src dstleft).read

/-- Whether `realloc` moves a block of one size to have another, and what the
memory held before. -/
structure Realloc where
  moves : Nat → Nat → Bool
  stale : Nat → UInt8

/-! ## `do_conv` -/

/-- How `do_conv` ends. -/
inductive Converted (σ : Type) where
  | text (cd : σ) (dst : Bytes)
  | exception (cd : σ) (msg : Bytes)
  | crash (c : Crash)

/-- The block at `dstbuf`.  `dst` is given from its start. -/
structure ConvBuf where
  room : Nat
  bytes : Nat → UInt8
  dst : Option Nat
  dstleft : Nat

/-- The bytes that `iconv` stores from `dst` on. -/
def ConvBuf.store (b : ConvBuf) (stored : Bytes) : Option ConvBuf :=
  match b.dst with
  | none => if stored = [] then some b else none
  | some dst =>
    if dst + stored.length ≤ b.room then
      some { b with
        bytes := fun i =>
          if dst ≤ i then (stored[i - dst]?).getD (b.bytes i) else b.bytes i
        dst := some (dst + stored.length)
        dstleft := b.dstleft - stored.length }
    else none

/-- The case `E2BIG`, with `dstlen` as it is then.  `dstpos` is added to a pointer
that is at `dstpos` already. -/
def ConvBuf.grow (heap : Realloc) (b : ConvBuf) (dstlen : Nat) : ConvBuf where
  room := dstlen
  bytes := b.bytes
  dst := if heap.moves b.room dstlen then none else b.dst.map fun dst => dst + dst
  dstleft := b.dstleft + 100

/-- The string at `dstbuf` after `*dst = '\0'`. -/
def ConvBuf.finish (b : ConvBuf) : Option Bytes :=
  match b.dst with
  | none => none
  | some dst =>
    if dst < b.room then
      some (((List.range dst).map b.bytes).takeWhile (· ≠ 0))
    else none

variable {σ : Type} (lib : Iconv σ) (heap : Realloc)

/-- The loop of `do_conv`. -/
def doConvLoop (cd : σ) (src : Bytes) (dstlen : Nat) (b : ConvBuf) :
    Converted σ :=
  if dstlen < 64 * 1024 * 1024 then
    let call := lib.iconv cd src b.dstleft
    match b.store call.stored with
    | none => .crash .stray
    | some b =>
      match call.ending with
      | .e2big =>
        doConvLoop call.cd (src.drop call.read) (dstlen + 100)
          (b.grow heap (dstlen + 100))
      | .eilseq =>
        .exception call.cd (ascii "An invalid multibyte sequence: \"" ++
          src.drop call.read ++ ascii "\"")
      | .einval =>
        .exception call.cd (ascii "An incomplete multibyte sequence has been " ++
          ascii "encountered in the input")
      | .other => .crash .assertion
      | .done =>
        -- nothing of the input is left
        match b.finish with
        | none => .crash .stray
        | some dst => .text call.cd dst
  else .crash .assertion
termination_by 64 * 1024 * 1024 - dstlen

/-- `do_conv`. -/
def doConv (cd : σ) (src : Bytes) : Converted σ :=
  doConvLoop lib heap cd src (2 * src.length)
    ⟨2 * src.length + 1, heap.stale, some 0, 2 * src.length⟩

/-- A conversion goes astray in other ways than those of the exceptions. -/
theorem doConvLoop_crash {cd : σ} {src : Bytes} {dstlen : Nat} {b : ConvBuf}
    {c : Crash} (h : doConvLoop lib heap cd src dstlen b = .crash c) :
    c ≠ .pending ∧ c ≠ .noText := by
  fun_induction doConvLoop lib heap cd src dstlen b with
  | case1 => cases h; decide
  | case2 _ _ _ _ _ _ _ _ _ ih => exact ih h
  | case3 => cases h
  | case4 => cases h
  | case5 => cases h; decide
  | case6 => cases h; decide
  | case7 => cases h
  | case8 => cases h; decide

theorem doConv_crash {cd : σ} {src : Bytes} {c : Crash}
    (h : doConv lib heap cd src = .crash c) : c ≠ .pending ∧ c ≠ .noText :=
  doConvLoop_crash lib heap h

end Libedi
