import Libedi.Data
import Libedi.Lib.Formatted

/-!
# The buffer of `output`

`output_init` and `output` of `libedixml/output.c`, with a pointer to a buffer.

`output` formats into the rest of the buffer, and where that is too short makes
the buffer longer and formats once more.  Both times it hands the same `va_list`
to `vsnprintf`, which has taken the arguments of the call from it the first
time.  So a call that needs the longer buffer works only with a format that
takes no arguments.

`Steady` is the invariant between two calls: the size of the buffer is the first
multiple of 1024 behind its text.  It gives the space that a call finds, and so
which calls need more (`CallFits`).
-/

namespace Libedi

open Formatted

variable {κ α : Type*} (print : κ → α → Bytes) (stale : Nat → UInt8)

/-- `*outbufptr`, `outbufsize` and `outbufpos`. -/
structure OutputBuffer where
  block : Option Block
  outbufsize : Nat
  outbufpos : Nat

namespace OutputBuffer

/-- `output_init`, with what is in the variable that it gets a pointer to. -/
def outputInit (block : Option Block) : OutputBuffer where
  block := block
  outbufsize := 0
  outbufpos := 0

/-- `outbufsize += 1024`, and `realloc` with it.  A size of zero frees. -/
def grow (o : OutputBuffer) : OutputBuffer :=
  let outbufsize := (o.outbufsize + 1024) % 0x100000000
  { o with
    outbufsize := outbufsize
    block :=
      if outbufsize = 0 then none
      else some ((o.block.getD ⟨0, stale⟩).resize stale outbufsize) }

/-- `outbufsize - outbufpos`. -/
def avail (o : OutputBuffer) : Int :=
  toInt32 (o.outbufsize - o.outbufpos)

/-- The loop of `output`, with the arguments that are left in `ap`. -/
def outputLoop : Nat → OutputBuffer → List (Item κ) → List α →
    Option OutputBuffer
  | 0, _, _, _ => none
  | fuel + 1, o, format, ap =>
    match o.block with
    | none => outputLoop fuel (o.grow stale) format ap
    | some b =>
      match expand print format ap with
      | none => none
      | some (text, ap) =>
        match b.vsnprintf o.outbufpos (toSize o.avail) text with
        | none => none
        | some b =>
          if 0 ≤ returned text ∧ returned text < o.avail then
            some { o with
              block := some b
              outbufpos :=
                (o.outbufpos + (returned text).toNat) % 0x100000000 }
          else
            outputLoop fuel ({ o with block := some b }.grow stale) format ap

/-- `output`. -/
def output (fuel : Nat) (o : OutputBuffer) (c : Call κ α) :
    Option OutputBuffer :=
  outputLoop print stale fuel o c.format c.args

/-- Calls of `output`, one after the other. -/
def outputs (fuel : Nat) : OutputBuffer → List (Call κ α) →
    Option OutputBuffer
  | o, [] => some o
  | o, c :: calls =>
    match output print stale fuel o c with
    | none => none
    | some o => outputs fuel o calls

/-- The buffer is the text and a terminator, and its variables say so. -/
structure Holds (o : OutputBuffer) (text : Bytes) : Prop where
  block : ∃ b, o.block = some b ∧ b.room = o.outbufsize ∧
    b.Holds (text ++ [0])
  pos : o.outbufpos = text.length
  lt : o.outbufpos < o.outbufsize

/-! ## More fuel -/

variable {print stale} {o o' : OutputBuffer} {format : List (Item κ)}
  {ap : List α} {fuel fuel' : Nat}

theorem outputLoop_mono (hle : fuel ≤ fuel')
    (h : outputLoop print stale fuel o format ap = some o') :
    outputLoop print stale fuel' o format ap = some o' := by
  induction fuel generalizing o ap fuel' with
  | zero => simp [outputLoop] at h
  | succ fuel ih =>
    obtain ⟨n, rfl⟩ : ∃ n, fuel' = n + 1 := ⟨fuel' - 1, by omega⟩
    have hn : fuel ≤ n := by omega
    unfold outputLoop at h ⊢
    split at h
    · exact ih hn h
    · split at h
      · cases h
      · split at h
        · cases h
        · split
          · next hbreak => rwa [if_pos hbreak] at h
          · next hbreak =>
            rw [if_neg hbreak] at h
            exact ih hn h

/-- The result of a loop does not depend on the fuel. -/
theorem outputLoop_unique {p p' : OutputBuffer}
    (h : outputLoop print stale fuel o format ap = some p)
    (h' : outputLoop print stale fuel' o format ap = some p') : p = p' := by
  have hl := outputLoop_mono (Nat.le_max_left fuel fuel') h
  have hr := outputLoop_mono (Nat.le_max_right fuel fuel') h'
  exact Option.some.inj (hl.symm.trans hr)

theorem outputs_mono {calls : List (Call κ α)} (hle : fuel ≤ fuel')
    (h : outputs print stale fuel o calls = some o') :
    outputs print stale fuel' o calls = some o' := by
  induction calls generalizing o with
  | nil => exact h
  | cons c calls ih =>
    unfold outputs at h ⊢
    split at h
    · cases h
    · next p hp =>
      have hmore : output print stale fuel' o c = some p :=
        outputLoop_mono hle hp
      rw [hmore]
      exact ih h

/-! ## The loop -/

/-- The first multiple of 1024 behind a position. -/
def grownTo (n : Nat) : Nat := 1024 * (n / 1024 + 1)

/-- The buffer starts with the text, and there is room behind it. -/
structure Open (o : OutputBuffer) (text : Bytes) : Prop where
  block : ∃ b, o.block = some b ∧ b.room = o.outbufsize ∧ b.Holds text
  pos : o.outbufpos = text.length
  lt : text.length < o.outbufsize
  fits : o.outbufsize < 0x100000000

/-- The buffer between two calls. -/
structure Steady (o : OutputBuffer) (text : Bytes) : Prop
    extends Holds o text where
  size : o.outbufsize = grownTo text.length
  fits : o.outbufsize < 0x100000000

variable {text t : Bytes} {rest : List α}

theorem Steady.isOpen (h : Steady o text) : Open o text where
  block := by
    obtain ⟨b, hb, hroom, hholds⟩ := h.block
    exact ⟨b, hb, hroom, hholds.left⟩
  pos := h.pos
  lt := h.pos ▸ h.lt
  fits := h.fits

theorem Open.avail_eq (h : Open o text)
    (hroom : o.outbufsize < text.length + 0x80000000) :
    o.avail = ((o.outbufsize - text.length : Nat) : Int) := by
  have hlt := h.lt
  have hsub : (o.outbufsize : Int) - o.outbufpos
      = ((o.outbufsize - text.length : Nat) : Int) := by
    rw [h.pos]
    omega
  have hint : o.outbufsize - text.length < 0x80000000 := by omega
  rw [avail, hsub]
  exact toInt32_of_lt hint

theorem outbufpos_grow : (o.grow stale).outbufpos = o.outbufpos := by
  simp only [OutputBuffer.grow]

/-- Growing keeps the text. -/
theorem Open.grow (h : Open o text) (stale : Nat → UInt8)
    (hfits : o.outbufsize + 1024 < 0x100000000) :
    (o.grow stale).outbufsize = o.outbufsize + 1024 ∧
      Open (o.grow stale) text := by
  have hsize : (o.grow stale).outbufsize = o.outbufsize + 1024 :=
    Nat.mod_eq_of_lt hfits
  obtain ⟨b, hb, hroom, hholds⟩ := h.block
  have hlt := h.lt
  have hzero : ¬ (o.outbufsize + 1024) % 0x100000000 = 0 := by omega
  refine ⟨hsize, ⟨b.resize stale (o.grow stale).outbufsize, ?_, rfl, ?_⟩,
    outbufpos_grow.trans h.pos, by omega, by omega⟩
  · simp only [OutputBuffer.grow, if_neg hzero, hb, Option.getD_some]
  · exact hholds.resize (by omega)

/-- A text that there is room for ends the loop. -/
theorem outputLoop_last (h : Open o text)
    (hroom : o.outbufsize < text.length + 0x80000000)
    (hexpand : expand print format ap = some (t, rest))
    (hlt : text.length + t.length < o.outbufsize) (fuel : Nat) :
    ∃ o', outputLoop print stale (fuel + 1) o format ap = some o' ∧
      o'.outbufsize = o.outbufsize ∧ Holds o' (text ++ t) := by
  obtain ⟨b, hb, hbroom, hholds⟩ := h.block
  have havail := h.avail_eq hroom
  have hfits := h.fits
  obtain ⟨b', hprint, hroom', -, hall⟩ :=
    hholds.vsnprintf (o.outbufsize - text.length) (by omega) t
  have hreturned : returned t = t.length := if_pos (by omega)
  have hbreak : 0 ≤ returned t ∧ returned t < o.avail := by
    rw [hreturned, havail]
    omega
  have hspace : toSize o.avail = o.outbufsize - text.length := by
    rw [havail]
    exact toSize_of_lt (by omega)
  have hpos : (o.outbufpos + (returned t).toNat) % 0x100000000
      = (text ++ t).length := by
    rw [hreturned, h.pos, Int.toNat_natCast, List.length_append]
    exact Nat.mod_eq_of_lt (by omega)
  let o' : OutputBuffer := { o with
    block := some b'
    outbufpos := (o.outbufpos + (returned t).toNat) % 0x100000000 }
  refine ⟨o', ?_, rfl, ⟨b', rfl, hroom'.trans hbroom, hall (by omega)⟩, hpos,
    ?_⟩
  · simp only [outputLoop, hb, hexpand, h.pos, hspace, hprint, if_pos hbreak, o']
  · show (o.outbufpos + (returned t).toNat) % 0x100000000 < o.outbufsize
    rw [hpos, List.length_append]
    exact hlt

variable (stale) in
/-- A text that there is no room for is formatted once more. -/
theorem outputLoop_next (h : Open o text)
    (hroom : o.outbufsize < text.length + 0x80000000)
    (hexpand : expand print format ap = some (t, rest))
    (hge : o.outbufsize ≤ text.length + t.length) (fuel : Nat) :
    ∃ p : OutputBuffer, outputLoop print stale (fuel + 1) o format ap
        = outputLoop print stale fuel (p.grow stale) format rest ∧
      p.outbufsize = o.outbufsize ∧ Open p text := by
  obtain ⟨b, hb, hbroom, hholds⟩ := h.block
  have havail := h.avail_eq hroom
  have hlt := h.lt
  obtain ⟨b', hprint, hroom', hkept, -⟩ :=
    hholds.vsnprintf (o.outbufsize - text.length) (by omega) t
  have hspace : toSize o.avail = o.outbufsize - text.length := by
    rw [havail]
    exact toSize_of_lt (by omega)
  have hbreak : ¬ (0 ≤ returned t ∧ returned t < o.avail) := by
    rw [havail, returned]
    split <;> omega
  refine ⟨{ o with block := some b' }, ?_, rfl,
    ⟨b', rfl, hroom'.trans hbroom, hkept⟩, h.pos, hlt, h.fits⟩
  simp only [outputLoop, hb, hexpand, h.pos, hspace, hprint, if_neg hbreak]

variable (stale) in
/-- A format without arguments prints the same each time, so the buffer may
grow until the text fits. -/
theorem outputLoop_grows {n : Nat} (h : Open o text)
    (hsize : o.outbufsize + 1024 * n = grownTo (text.length + t.length))
    (hfits : grownTo (text.length + t.length) < 0x100000000)
    (hroom : grownTo (text.length + t.length) < text.length + 0x80000000)
    (hexpand : expand print format ap = some (t, rest))
    (hagain : n = 0 ∨ rest = ap) :
    ∃ o', outputLoop print stale (n + 1) o format ap = some o' ∧
      Steady o' (text ++ t) := by
  have hend : text.length + t.length < grownTo (text.length + t.length) := by
    unfold grownTo
    omega
  induction n generalizing o with
  | zero =>
    have hsize : o.outbufsize = grownTo (text.length + t.length) := by omega
    obtain ⟨o', ho', hsize', hholds⟩ :=
      outputLoop_last h (by omega) hexpand (by omega) 0
    refine ⟨o', ho', hholds, ?_, by omega⟩
    rw [hsize', hsize, List.length_append]
  | succ n ih =>
    have hshort : o.outbufsize ≤ text.length + t.length := by
      unfold grownTo at hsize
      omega
    obtain ⟨p, hp, hpsize, hopen⟩ :=
      outputLoop_next stale h (by omega) hexpand hshort (n + 1)
    obtain ⟨hgrown, hgrow⟩ := hopen.grow stale (by omega)
    have hrest : rest = ap := hagain.resolve_left (Nat.succ_ne_zero n)
    rw [hp, hrest]
    exact ih hgrow (by omega) (Or.inr hrest)

/-- A format with conversions has no text for the second time. -/
theorem outputLoop_again (hformat : arity format ≠ 0) (fuel : Nat)
    (o : OutputBuffer) : outputLoop print stale fuel o format [] = none := by
  induction fuel generalizing o with
  | zero => rfl
  | succ fuel ih =>
    unfold outputLoop
    split
    · exact ih _
    · rw [expand_nil_eq_none print hformat]

/-! ## One call -/

/-- The buffer before the first call, or between two of them. -/
def Ready (o : OutputBuffer) (text : Bytes) : Prop :=
  o = outputInit none ∧ text = [] ∨ Steady o text

/-- The call works at a position of the buffer: what it prints fits what is left
of the last 1024 bytes, or its format takes no arguments, and the sizes are ones
that an `unsigned int` and an `int` can hold. -/
structure CallFits (print : κ → α → Bytes) (pos : Nat) (c : Call κ α) :
    Prop where
  once : pos % 1024 + (c.text print).length < 1024 ∨ arity c.format = 0
  size : grownTo (pos + (c.text print).length) < 0x100000000
  room : grownTo (pos + (c.text print).length) < pos + 0x80000000

theorem grow_outputInit : (outputInit none).grow stale =
    ⟨some ((⟨0, stale⟩ : Block).resize stale 1024), 1024, 0⟩ := by
  simp [outputInit, OutputBuffer.grow]

theorem outputLoop_outputInit (fuel : Nat) (format : List (Item κ))
    (ap : List α) :
    outputLoop print stale (fuel + 1) (outputInit none) format ap
      = outputLoop print stale fuel
          ⟨some ((⟨0, stale⟩ : Block).resize stale 1024), 1024, 0⟩
          format ap := by
  rw [← grow_outputInit]
  rfl

variable (print stale) in
/-- The loop finds a buffer at the first call too. -/
theorem Ready.outputLoop_eq (h : Ready o text) :
    ∃ p, Open p text ∧ p.outbufsize = grownTo text.length ∧
      ∃ n, ∀ (fuel : Nat) (format : List (Item κ)) (ap : List α),
        outputLoop print stale (fuel + n) o format ap
          = outputLoop print stale fuel p format ap := by
  obtain ⟨rfl, rfl⟩ | hsteady := h
  · exact ⟨_, ⟨⟨_, rfl, rfl, .nil _⟩, rfl, (by decide : 0 < 1024),
      (by decide : 1024 < 0x100000000)⟩, rfl, 1, outputLoop_outputInit⟩
  · exact ⟨o, hsteady.isOpen, hsteady.size, 0, fun _ _ _ => rfl⟩

variable (stale) in
/-- One call. -/
theorem output_steady (h : Ready o text) {c : Call κ α}
    (hc : CallFits print text.length c) :
    ∃ fuel o', output print stale fuel o c = some o' ∧
      Steady o' (text ++ c.text print) := by
  obtain ⟨p, hopen, hsize, m, hloop⟩ := h.outputLoop_eq print stale
  obtain ⟨n, hn⟩ : ∃ n, p.outbufsize + 1024 * n
      = grownTo (text.length + (c.text print).length) := by
    refine ⟨(text.length + (c.text print).length) / 1024 - text.length / 1024, ?_⟩
    rw [hsize]
    unfold grownTo
    omega
  have hagain : n = 0 ∨ [] = c.args := by
    obtain hlt | harity := hc.once
    · left
      rw [hsize] at hn
      unfold grownTo at hn
      omega
    · exact Or.inr (Call.args_eq_nil harity).symm
  obtain ⟨o', ho', hsteady⟩ :=
    outputLoop_grows stale hopen hn hc.size hc.room
      (c.expand_eq print) hagain
  exact ⟨n + 1 + m, o', (hloop _ _ _).trans ho', hsteady⟩

/-! ## When it works -/

/-- What the size of the buffer always is. -/
structure Aligned (o : OutputBuffer) : Prop where
  dvd : o.outbufsize % 1024 = 0
  lt : o.outbufsize < 0x100000000

theorem Aligned.grow (h : Aligned o) : Aligned (o.grow stale) := by
  have hdvd := h.dvd
  have hsize : (o.grow stale).outbufsize
      = (o.outbufsize + 1024) % 0x100000000 := by
    simp only [OutputBuffer.grow]
  constructor <;> rw [hsize] <;> omega

theorem Ready.aligned (h : Ready o text) : Aligned o := by
  obtain ⟨rfl, -⟩ | hsteady := h
  · exact ⟨rfl, by decide⟩
  · refine ⟨?_, hsteady.fits⟩
    rw [hsteady.size, grownTo, Nat.mul_mod_right]

/-- A loop that ends has found room for a text. -/
theorem outputLoop_returns (ho : Aligned o)
    (h : outputLoop print stale fuel o format ap = some o') :
    Aligned o' ∧ ∃ as t rest, expand print format as = some (t, rest) ∧
      t.length < 0x80000000 ∧
      t.length < toInt32 (o'.outbufsize - o.outbufpos) := by
  induction fuel generalizing o ap with
  | zero => simp [outputLoop] at h
  | succ fuel ih =>
    unfold outputLoop at h
    split at h
    · have hgrown := ih ho.grow h
      rwa [outbufpos_grow] at hgrown
    · split at h
      · cases h
      · next t rest hexpand =>
        split at h
        · cases h
        · next b hb =>
          split at h
          · next hbreak =>
            cases h
            have hlt : t.length < 0x80000000 := by
              by_contra hge
              rw [returned, if_neg hge] at hbreak
              omega
            have hlen : returned t = t.length := if_pos hlt
            rw [hlen, avail] at hbreak
            exact ⟨⟨ho.dvd, ho.lt⟩, ap, t, rest, hexpand, hlt, hbreak.2⟩
          · have hblock : Aligned { o with block := some b } :=
              ⟨ho.dvd, ho.lt⟩
            have hgrown := ih hblock.grow h
            rwa [outbufpos_grow] at hgrown

/-- The text of a format without conversions. -/
theorem expand_of_arity_eq_zero (print : κ → α → Bytes)
    (hformat : arity format = 0) (as ap : List α) :
    (expand print format as).map Prod.fst
      = (expand print format ap).map Prod.fst := by
  induction format with
  | nil => rfl
  | cons item format ih =>
    cases item with
    | text t =>
      have hrest := ih hformat
      simp only [expand, Option.map_map]
      cases hl : expand print format as <;> cases hr : expand print format ap <;>
        simp_all
    | conv spec => simp [arity] at hformat

/-- The call works if it returns with a buffer that is not too long. -/
theorem Ready.callFits (h : Ready o text) {c : Call κ α}
    (hout : output print stale fuel o c = some o')
    (hsize : grownTo (text.length + (c.text print).length) < 0x100000000) :
    CallFits print text.length c := by
  obtain ⟨p, hopen, hpsize, m, hloop⟩ := h.outputLoop_eq print stale
  have hmore : outputLoop print stale (fuel + 1 + m) o c.format c.args
      = some o' := outputLoop_mono (by omega) hout
  rw [hloop] at hmore
  have hexpand := c.expand_eq print
  have honce : text.length % 1024 + (c.text print).length < 1024 ∨
      arity c.format = 0 := by
    by_contra hnot
    have hproom : p.outbufsize < text.length + 0x80000000 := by
      rw [hpsize, grownTo]
      omega
    have hshort : p.outbufsize ≤ text.length + (c.text print).length := by
      rw [hpsize, grownTo]
      omega
    obtain ⟨q, hq, -⟩ := outputLoop_next stale hopen hproom hexpand hshort fuel
    rw [hq, outputLoop_again (fun harity => hnot (Or.inr harity))] at hmore
    cases hmore
  refine ⟨honce, hsize, ?_⟩
  obtain hlt | harity := honce
  · unfold grownTo
    omega
  · obtain ⟨haligned, as, t, rest, has, htlt, htspace⟩ :=
      outputLoop_returns h.aligned hout
    have htext : t = c.text print := by
      have hsame := expand_of_arity_eq_zero print harity as c.args
      rw [has, hexpand] at hsame
      exact Option.some.inj hsame
    have hpos : o.outbufpos = text.length := by
      obtain ⟨rfl, rfl⟩ | hsteady := h
      · rfl
      · exact hsteady.pos
    have hdvd := haligned.dvd
    rw [htext, hpos, toInt32] at htspace
    unfold grownTo at hsize ⊢
    split at htspace <;> omega

/-! ## The length decides -/

/-- What `CallFits` says, by the length of the text, and by whether the format
takes no arguments. -/
def Fits (pos : Nat) (noArguments : Bool) (length : Nat) : Prop :=
  (pos % 1024 + length < 1024 ∨ noArguments = true) ∧
    grownTo (pos + length) < 0x100000000 ∧
    grownTo (pos + length) < pos + 0x80000000

instance (pos : Nat) (noArguments : Bool) (length : Nat) :
    Decidable (Fits pos noArguments length) :=
  inferInstanceAs (Decidable (_ ∧ _ ∧ _))

theorem callFits_iff {pos : Nat} {c : Call κ α} :
    CallFits print pos c ↔
      Fits pos (decide (arity c.format = 0)) (c.text print).length := by
  rw [Fits, decide_eq_true_iff]
  exact ⟨fun h => ⟨h.once, h.size, h.room⟩, fun h => ⟨h.1, h.2.1, h.2.2⟩⟩

/-- A buffer that has been freed is too short for what is printed behind its old
text. -/
theorem outputLoop_freed (hblock : o.block = none) (hsize : o.outbufsize = 0)
    (hge : 1024 ≤ o.outbufpos) (hspace : toSize (toInt32 ((1024 : Nat) - o.outbufpos)) ≠ 0)
    (fuel : Nat) : outputLoop print stale fuel o format ap = none := by
  cases fuel with
  | zero => rfl
  | succ fuel =>
    rw [outputLoop, hblock]
    dsimp only
    cases fuel with
    | zero => rfl
    | succ fuel =>
      have hgrown : o.grow stale = ⟨some ((⟨0, stale⟩ : Block).resize stale 1024),
          1024, o.outbufpos⟩ := by
        simp [OutputBuffer.grow, hblock, hsize]
      rw [hgrown, outputLoop]
      dsimp only
      cases expand print format ap with
      | none => rfl
      | some r =>
        have hstore : ∀ text, ((⟨0, stale⟩ : Block).resize stale 1024).vsnprintf
            o.outbufpos (toSize (toInt32 ((1024 : Nat) - o.outbufpos))) text
              = none := by
          intro text
          rw [Block.vsnprintf, if_neg hspace, Block.store, if_neg]
          simp only [Block.resize, List.length_append, List.length_singleton]
          omega
        dsimp only
        rw [avail]
        dsimp only
        rw [hstore]

/-- A call that ends works: with arguments it has found room for its text the first
time, and a text without arguments that is short does not need a buffer longer than
`outbufsize` can say. -/
theorem Ready.callFits_of_ends (h : Ready o text) {c : Call κ α}
    (hshort : arity c.format = 0 → (c.text print).length < 1024)
    (hout : output print stale fuel o c = some o') :
    CallFits print text.length c := by
  refine h.callFits hout ?_
  obtain ⟨p, hopen, hpsize, m, hloop⟩ := h.outputLoop_eq print stale
  have hfits := hopen.fits
  rw [hpsize] at hfits
  by_contra hlong
  have hmore : outputLoop print stale (fuel + 1 + m) o c.format c.args
      = some o' := outputLoop_mono (by omega) hout
  rw [hloop] at hmore
  have hexpand := c.expand_eq print
  have hpos : ¬ text.length % 1024 + (c.text print).length < 1024 := by
    intro hlt
    unfold grownTo at hfits hlong
    omega
  have hproom : p.outbufsize < text.length + 0x80000000 := by
    rw [hpsize, grownTo]
    omega
  have hnext : p.outbufsize ≤ text.length + (c.text print).length := by
    rw [hpsize, grownTo]
    omega
  obtain ⟨q, hq, hqsize, hqopen⟩ :=
    outputLoop_next stale hopen hproom hexpand hnext fuel
  rw [hq] at hmore
  by_cases harity : arity c.format = 0
  · -- The buffer has its greatest size, and the next one is zero.
    have hlt := hshort harity
    have hlast : q.outbufsize = 0xFFFFFC00 := by
      rw [hqsize, hpsize]
      unfold grownTo at hfits hlong ⊢
      omega
    have hzero : (q.outbufsize + 1024) % 0x100000000 = 0 := by rw [hlast]
    have hfreed : outputLoop print stale fuel (q.grow stale) c.format []
        = none := by
      have hqpos := hqopen.pos
      have hbound : q.outbufsize = grownTo text.length := hqsize.trans hpsize
      rw [hlast, grownTo] at hbound
      refine outputLoop_freed ?_ ?_ ?_ ?_ fuel
      · simp only [OutputBuffer.grow, hzero, if_true]
      · simp only [OutputBuffer.grow, hzero]
      · rw [outbufpos_grow, hqpos]
        omega
      · rw [outbufpos_grow, hqpos, toSize, toInt32]
        split <;> omega
    rw [hfreed] at hmore
    cases hmore
  · rw [outputLoop_again harity] at hmore
    cases hmore

/-- A call ends exactly if it works, if its format has some space to spare without
arguments. -/
theorem output_ends_iff (print : κ → α → Bytes) (stale : Nat → UInt8)
    (h : Ready o text) {c : Call κ α}
    (hshort : arity c.format = 0 → (c.text print).length < 1024) :
    (∃ fuel o', output print stale fuel o c = some o') ↔
      Fits text.length (decide (arity c.format = 0)) (c.text print).length := by
  rw [← callFits_iff]
  constructor
  · rintro ⟨fuel, o', hout⟩
    exact h.callFits_of_ends hshort hout
  · intro hfit
    obtain ⟨fuel, o', hout, -⟩ := output_steady stale h hfit
    exact ⟨fuel, o', hout⟩

/-! ## Sequences of calls -/

/-- Each call works at the position where the calls in front of it end. -/
def CallsFit (print : κ → α → Bytes) : Nat → List (Call κ α) → Prop
  | _, [] => True
  | pos, c :: calls =>
    CallFits print pos c ∧
      CallsFit print (pos + (c.text print).length) calls

theorem outputs_cons_eq_some {c : Call κ α} {calls : List (Call κ α)}
    (h : outputs print stale fuel o (c :: calls) = some o') :
    ∃ p, output print stale fuel o c = some p ∧
      outputs print stale fuel p calls = some o' := by
  unfold outputs at h
  split at h
  · cases h
  · next p hp => exact ⟨p, hp, h⟩

theorem outputs_cons {n m : Nat} {p : OutputBuffer} {c : Call κ α}
    {calls : List (Call κ α)} (hp : output print stale n o c = some p)
    (h : outputs print stale m p calls = some o') :
    outputs print stale (max n m) o (c :: calls) = some o' := by
  have hone : output print stale (max n m) o c = some p :=
    outputLoop_mono (Nat.le_max_left n m) hp
  unfold outputs
  rw [hone]
  exact outputs_mono (Nat.le_max_right n m) h

/-- A run of calls that all work. -/
theorem outputs_steady {c : Call κ α} {calls : List (Call κ α)}
    (h : Ready o text) (hfit : CallsFit print text.length (c :: calls)) :
    ∃ fuel o', outputs print stale fuel o (c :: calls) = some o' ∧
      Steady o' (text ++ (c :: calls).flatMap (Call.text print)) := by
  induction calls generalizing o text c with
  | nil =>
    obtain ⟨n, p, hp, hsteady⟩ := output_steady stale h hfit.1
    exact ⟨max n n, p, outputs_cons hp rfl, by simpa using hsteady⟩
  | cons d calls ih =>
    obtain ⟨n, p, hp, hsteady⟩ := output_steady stale h hfit.1
    have hrest := hfit.2
    rw [← List.length_append] at hrest
    obtain ⟨m, o', ho', hlast⟩ := ih (Or.inr hsteady) hrest
    rw [List.append_assoc, ← List.flatMap_cons] at hlast
    exact ⟨max n m, o', outputs_cons hp ho', hlast⟩

theorem outputs_aligned {calls : List (Call κ α)} (h : Aligned o)
    (hrun : outputs print stale fuel o calls = some o') : Aligned o' := by
  induction calls generalizing o with
  | nil =>
    cases hrun
    exact h
  | cons c calls ih =>
    obtain ⟨p, hp, hrun⟩ := outputs_cons_eq_some hrun
    exact ih (outputLoop_returns h hp).1 hrun

theorem grownTo_mono {m n : Nat} (h : m ≤ n) : grownTo m ≤ grownTo n :=
  Nat.mul_le_mul_left 1024 (Nat.succ_le_succ (Nat.div_le_div_right h))

/-- In a run that returns with a buffer that is not too long, all calls work. -/
theorem callsFit_of_outputs {calls : List (Call κ α)} (h : Ready o text)
    (hrun : outputs print stale fuel o calls = some o')
    (hsize : grownTo (text ++ calls.flatMap (Call.text print)).length
      < 0x100000000) :
    CallsFit print text.length calls := by
  induction calls generalizing o text with
  | nil => trivial
  | cons c calls ih =>
    obtain ⟨p, hp, hrun⟩ := outputs_cons_eq_some hrun
    have hall : text ++ (c :: calls).flatMap (Call.text print)
        = text ++ c.text print ++ calls.flatMap (Call.text print) := by
      rw [List.flatMap_cons, List.append_assoc]
    rw [hall] at hsize
    have hle : grownTo (text.length + (c.text print).length)
        ≤ grownTo (text ++ c.text print ++
            calls.flatMap (Call.text print)).length :=
      grownTo_mono (by simp only [List.length_append]; omega)
    have hfit : CallFits print text.length c :=
      h.callFits hp (Nat.lt_of_le_of_lt hle hsize)
    obtain ⟨n, q, hq, hsteady⟩ := output_steady stale h hfit
    have hsame : q = p := outputLoop_unique hq hp
    rw [hsame] at hsteady
    have hrest := ih (Or.inr hsteady) hrun hsize
    rw [List.length_append] at hrest
    exact ⟨hfit, hrest⟩

/-- The buffer is the concatenation of the calls exactly if each call works at
its position. -/
theorem outputs_holds_iff (print : κ → α → Bytes) (stale : Nat → UInt8)
    (c : Call κ α) (calls : List (Call κ α)) :
    (∃ fuel o, outputs print stale fuel (outputInit none) (c :: calls) = some o ∧
      o.Holds ((c :: calls).flatMap (Call.text print))) ↔
      CallsFit print 0 (c :: calls) := by
  have hready : Ready (outputInit none) [] := Or.inl ⟨rfl, rfl⟩
  constructor
  · rintro ⟨fuel, o, hrun, hholds⟩
    have haligned := outputs_aligned hready.aligned hrun
    have hdvd := haligned.dvd
    have hlt := haligned.lt
    have hpos := hholds.pos
    have hend := hholds.lt
    refine callsFit_of_outputs hready hrun ?_
    rw [List.nil_append, grownTo, ← hpos]
    omega
  · intro hfit
    obtain ⟨fuel, o, hrun, hsteady⟩ := outputs_steady hready hfit
    exact ⟨fuel, o, hrun, hsteady.toHolds⟩

/-- `%s`, the only conversion that the formats of `conv.c` have. -/
def printString (_ : Unit) (s : Bytes) : Bytes := s

/-- `output("%s", buf)` with a text that fills the first 1024 bytes. -/
def longCall : Call Unit Bytes where
  format := [.conv ()]
  args := [List.replicate 1024 'x'.toUInt8]
  arity_eq := rfl

theorem length_longCall : (longCall.text printString).length = 1024 := by
  have htext : longCall.text printString
      = List.replicate 1024 'x'.toUInt8 ++ [] := rfl
  rw [htext, List.append_nil, List.length_replicate]

/-- It is formatted a second time, without its argument. -/
theorem output_longCall_fails :
    ¬ ∃ fuel o, outputs printString (fun _ => 0) fuel (outputInit none)
        [longCall] = some o ∧
      o.Holds ([longCall].flatMap (Call.text printString)) := by
  rintro ⟨fuel, o, hrun, -⟩
  have hready : Ready (outputInit none) [] := Or.inl ⟨rfl, rfl⟩
  obtain ⟨p, hp, -⟩ := outputs_cons_eq_some hrun
  have hfit : CallFits printString 0 longCall :=
    hready.callFits hp (by rw [length_longCall]; decide)
  obtain hlt | harity := hfit.once
  · rw [length_longCall] at hlt
    omega
  · exact absurd harity (by decide)

end OutputBuffer

end Libedi
