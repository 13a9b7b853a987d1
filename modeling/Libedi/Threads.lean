import Libedi.KeptDialects
import Libedi.Lib.Monitor
import Libedi.Parse

/-!
# The library in many threads

With `LIBEDI_USE_PTHREAD` the registry of `libedi/detect.c` is used under the mutex
`detectlock`, and `edi__init` of `libedi/init.c` runs under `edi__init_lock`.  Each
function that uses them is a program here, with a step for each access to the
registry.  A record that a search looks at is read in one step.  A search returns
what its record is while the mutex is held; the C code returns a pointer to it.

`libSystem` puts them together, and each of its programs does on its own what the
function does (`body_run`, `detectInit_run`).  So the threads are answered as if their
calls were made one after the other (`threads_serial`), and a message is parsed in
the same way whatever the other threads do, unless they register the name of its
dialect (`threads_parse`).

Allocations succeed, and a parser is not shared between threads.
-/

namespace Libedi

open Monitor (Prog System Reachable answersOf)

/-- A program on the array `detectparams`. -/
abbrev LibProg (R : Type) := Prog (List EdiRegparams) R

/-! ## The functions of `detect.c` -/

section Programs

variable {R : Type}

/-- A loop over the records from `c` on, for `turns` turns at most: `visit` tells
whether it ends at a record, and how. -/
def recordsLoop (visit : Nat → EdiRegparams → Option (LibProg R))
    (missing : LibProg R) : Nat → Nat → LibProg R
  | 0, _ => missing
  | turns + 1, c => .read fun rps =>
    match rps[c]? with
    | none => missing
    | some rp => (visit c rp).getD (recordsLoop visit missing turns (c + 1))

/-- The loop, from the first record on. -/
def forRecords (visit : Nat → EdiRegparams → Option (LibProg R))
    (missing : LibProg R) : LibProg R :=
  .read fun rps => recordsLoop visit missing (rps.length + 1) 0

/-- `edi_detect_get`, behind `edi__init`. -/
def detectGetProg (name : Bytes) (result : Option EdiRegparams → R) :
    LibProg R :=
  .lock (forRecords (fun _ rp =>
    if hasName name rp then some (.unlock (.ret (result (some rp)))) else none)
    (.unlock (.ret (result none))))

/-- `edi__detect`. -/
def detectProg (message : CString) (result : Option (EdiParams × Nat) → R) :
    LibProg R :=
  .lock (forRecords (fun _ rp =>
    (tryDetectors message rp.params rp.detectors).found.map fun found =>
      .unlock (.ret (result (some found))))
    (.unlock (.ret (result none))))

/-- The end of `edi__detect_register_params` for a new record: it is stored and
counted, filled, and named. -/
def appendProg (tbuf : Option Bytes) (params : EdiParams) (result : Nat → R) :
    LibProg R :=
  .read fun rps =>
    let c := rps.length
    .write (· ++ [zeroRegparams]) <|
    .write (·.modify c fun p => ediDetectRpInit p params) <|
    match tbuf with
    | none => .unlock (.ret (result c))
    | some t => .write (·.modify c fun p => { p with name := t })
      (.unlock (.ret (result c)))

/-- `edi__detect_register_params`. -/
def registerParamsProg (name : Option Bytes) (params : EdiParams)
    (result : Nat → R) : LibProg R :=
  .lock (match name.map (·.take 31) with
    | none => appendProg none params result
    | some tbuf => forRecords (fun c rp =>
        if hasName tbuf rp then
          some (.write (·.modify c ediDetectRpCleanup) <|
            .write (·.modify c fun rp => ediDetectRpInit rp params) <|
            .unlock (.ret (result c)))
        else none)
      (appendProg (some tbuf) params result))

/-- `edi__detect_register`: room for the detector, and the detector. -/
def registerProg (p : Nat) (detector : EdiDetector) : LibProg Unit :=
  .lock <| .write (·.modify p fun rp => { rp with
      nalloc := if rp.detectors.length + 1 > rp.nalloc
        then rp.detectors.length + 1 else rp.nalloc }) <|
    .write (·.modify p fun rp =>
      { rp with detectors := rp.detectors ++ [detector] }) <|
    .unlock (.ret ())

/-- The loop of `edi__detect_regset`. -/
def registerAllProg (p : Nat) : List EdiDetector → LibProg Unit
  | [] => .ret ()
  | d :: ds => (registerProg p d).bind fun _ => registerAllProg p ds

/-- `edi__detect_regset`, which takes the lock for each detector anew. -/
def regsetProg (name : Bytes) (src : EdiParams) (detectors : List EdiDetector) :
    LibProg Unit :=
  (registerParamsProg (some name) src id).bind fun p =>
    registerAllProg p (detectors.takeWhile (·.detectstr.isSome))

/-- `edi__detect_init`. -/
def detectInitProg : LibProg Unit :=
  (regsetProg (ascii "UN/EDIFACT") ediEdifactParams ediEdifactDetectors).bind
    fun _ => (regsetProg (ascii "TRADACOMS") ediTradacomsParams
      ediTradacomsDetectors).bind
    fun _ => regsetProg (ascii "ANSI X12") ediX12Params ediX12Detectors

end Programs

/-! ## The calls -/

/-- A call of the library, with its arguments. -/
inductive LibCall where
  | paramsRegister (name : Option Bytes) (params : EdiParams)
  | detectGet (name : Bytes)
  | detectGetParams (name : Bytes)
  | parserCreate (params : Option EdiParams)
  | parserParse (oparser : EdiParser) (message : CString)

/-- What a call returns.  A parse also changes its parser. -/
inductive LibResult where
  | registered (p : Nat)
  | found (rp : Option EdiRegparams)
  | params (params : Option EdiParams)
  | created (p : EdiParser)
  | parsed (oparser : EdiParser) (msg : Option EdiInterchange)
  deriving DecidableEq

/-- A call on its own. -/
def LibCall.call (lib : EdiLib) : LibCall → EdiLib × LibResult
  | paramsRegister name params =>
    let r := ediParamsRegister lib name params
    (r.1, .registered r.2)
  | detectGet name =>
    let r := ediDetectGet lib name
    (r.1, .found r.2)
  | detectGetParams name =>
    let r := ediDetectGetParams lib name
    (r.1, .params r.2)
  | parserCreate params =>
    let r := ediParserCreate lib params
    (r.1, .created r.2)
  | parserParse oparser message =>
    let r := ediParserParse lib oparser message
    (lib, .parsed r.1 r.2)

/-- `edi_parser_parse` behind the detection. -/
def parseDetected (oparser : EdiParser) (message : CString)
    (found : Option (EdiParams × Nat)) : EdiParser × Option EdiInterchange :=
  match found with
  | none => (oparser, none)
  | some (params, skip) =>
    if params.version ≠ 0 then
      let r := parseBody (ediParserInit (some params)) message.strlen
        (message.bytes.drop skip)
      (oparser, some r.2)
    else
      let r := parseBody oparser message.strlen (message.bytes.drop skip)
      (r.1, some r.2)

/-- The functions of the library.  `edi_parser_parse` does not call `edi__init`: its
parser was made by a function that did. -/
def libSystem : System LibCall (List EdiRegparams) LibResult where
  setup := detectInitProg
  direct
    | .parserParse _ _ => true
    | _ => false
  body
    | .paramsRegister name params => registerParamsProg name params .registered
    | .detectGet name => detectGetProg name .found
    | .detectGetParams name =>
      detectGetProg name fun rp => .params (rp.map (·.params))
    | .parserCreate params =>
      .ret (.created (ediParserCreate ⟨true, []⟩ params).2)
    | .parserParse oparser message =>
      if oparser.detect = 1 then
        detectProg message fun found =>
          let r := parseDetected oparser message found
          .parsed r.1 r.2
      else
        let r := parseBody oparser message.strlen message.bytes
        .ret (.parsed r.1 (some r.2))

/-! ## What the programs do on their own -/

section Run

variable {R : Type}

/-- The loop ends at the first record where it is told to. -/
theorem recordsLoop_run (visit : Nat → EdiRegparams → Option (LibProg R))
    (missing : LibProg R) {turns c : Nat} {rps : List EdiRegparams}
    (hturns : rps.length < turns + c) :
    (recordsLoop visit missing turns c).run rps
      = (((rps.zipIdx.drop c).findSome? fun x => visit x.2 x.1).getD
        missing).run rps := by
  induction turns generalizing c with
  | zero =>
    have hnil : rps.zipIdx.drop c = [] :=
      List.drop_eq_nil_of_le (by rw [List.length_zipIdx]; omega)
    rw [hnil]
    rfl
  | succ turns ih =>
    have hrest := ih (c := c + 1) (by omega)
    rw [recordsLoop, Prog.run]
    by_cases hc : c < rps.length
    · have hlen : c < rps.zipIdx.length := by rwa [List.length_zipIdx]
      have hzip : rps.zipIdx[c] = (rps[c], c) := by simp
      rw [List.getElem?_eq_getElem hc, List.drop_eq_getElem_cons hlen, hzip,
        List.findSome?_cons]
      cases hvisit : visit c rps[c] with
      | some p => simp [hvisit]
      | none => simpa [hvisit] using hrest
    · have hnil : rps.zipIdx.drop c = [] :=
        List.drop_eq_nil_of_le (by rw [List.length_zipIdx]; omega)
      rw [List.getElem?_eq_none (by omega), hnil]
      rfl

theorem forRecords_run (visit : Nat → EdiRegparams → Option (LibProg R))
    (missing : LibProg R) (rps : List EdiRegparams) :
    (forRecords visit missing).run rps
      = ((rps.zipIdx.findSome? fun x => visit x.2 x.1).getD missing).run rps := by
  rw [forRecords, Prog.run, recordsLoop_run _ _ (by omega), List.drop_zero]

/-- A loop that does not look at the index. -/
theorem findSome?_zipIdx {β : Type*} (f : EdiRegparams → Option β)
    (rps : List EdiRegparams) :
    rps.zipIdx.findSome? (fun x => f x.1) = rps.findSome? f := by
  have hmap := List.findSome?_map (p := f) (f := Prod.fst) (l := rps.zipIdx)
  rw [List.zipIdx_map_fst] at hmap
  exact hmap.symm

/-- A loop that ends at the first item of some kind. -/
theorem findSome?_if {α β : Type*} (p : α → Bool) (g : α → β) (l : List α) :
    (l.findSome? fun x => if p x then some (g x) else none)
      = (l.find? p).map g := by
  induction l with
  | nil => rfl
  | cons a l ih =>
    rw [List.findSome?_cons, List.find?_cons]
    cases hp : p a with
    | true => rfl
    | false => exact ih

theorem modify_append_length {α : Type*} (l : List α) (a : α) (f : α → α) :
    (l ++ [a]).modify l.length f = l ++ [f a] := by
  rw [List.modify_eq_take_cons_drop (by simp)]
  simp

theorem detectGetProg_run (name : Bytes) (result : Option EdiRegparams → R)
    (rps : List EdiRegparams) :
    (detectGetProg name result).run rps
      = (rps, result (rps.find? (hasName name))) := by
  have hloop := findSome?_zipIdx (fun rp => if hasName name rp then
    some (Prog.unlock (.ret (result (some rp)))) else (none : Option (LibProg R))) rps
  rw [detectGetProg, Prog.run, forRecords_run, hloop, findSome?_if]
  cases rps.find? (hasName name) <;> rfl

theorem detectProg_run (message : CString)
    (result : Option (EdiParams × Nat) → R) (rps : List EdiRegparams) :
    (detectProg message result).run rps
      = (rps, result (ediDetect rps message).found) := by
  have hloop := findSome?_zipIdx (fun rp =>
    (tryDetectors message rp.params rp.detectors).found.map fun found =>
      (Prog.unlock (.ret (result (some found))) : LibProg R)) rps
  have hfound : (ediDetect rps message).found
      = rps.findSome? (EdiRegparams.detect message) := tryParams_found message rps
  have hmap : rps.findSome? (fun rp =>
      (tryDetectors message rp.params rp.detectors).found.map fun found =>
        (Prog.unlock (.ret (result (some found))) : LibProg R))
      = (rps.findSome? (EdiRegparams.detect message)).map
        fun found => .unlock (.ret (result (some found))) :=
    List.map_findSome?.symm
  rw [detectProg, Prog.run, forRecords_run, hfound, hloop]
  rw [hmap]
  cases rps.findSome? (EdiRegparams.detect message) <;> rfl

theorem appendProg_run (tbuf : Option Bytes) (params : EdiParams)
    (result : Nat → R) (rps : List EdiRegparams) :
    (appendProg tbuf params result).run rps
      = ((appendParams rps tbuf params).1,
        result (appendParams rps tbuf params).2) := by
  have hinit : ((rps ++ [zeroRegparams]).modify rps.length fun p =>
      ediDetectRpInit p params)
      = rps ++ [ediDetectRpInit zeroRegparams params] :=
    modify_append_length rps _ _
  cases tbuf with
  | none => simp only [appendProg, Prog.run, hinit, appendParams]
  | some t =>
    simp only [appendProg, Prog.run, hinit, modify_append_length, appendParams]

theorem registerParamsProg_run (name : Option Bytes) (params : EdiParams)
    (result : Nat → R) (rps : List EdiRegparams) :
    (registerParamsProg name params result).run rps
      = ((ediDetectRegisterParams rps name params).1,
        result (ediDetectRegisterParams rps name params).2) := by
  rw [registerParamsProg, Prog.run, ediDetectRegisterParams]
  cases name.map (·.take 31) with
  | none => exact appendProg_run none params result rps
  | some tbuf =>
    have hloop := findSome?_if (fun x : EdiRegparams × Nat => hasName tbuf x.1)
      (fun x => (Prog.write (·.modify x.2 ediDetectRpCleanup) <|
        .write (·.modify x.2 fun rp => ediDetectRpInit rp params) <|
        .unlock (.ret (result x.2)) : LibProg R)) rps.zipIdx
    have hindex : rps.findIdx? (hasName tbuf)
        = (rps.zipIdx.find? fun x => hasName tbuf x.1).map Prod.snd :=
      List.findIdx?_eq_fst_find?_zipIdx
    dsimp only at hloop ⊢
    rw [forRecords_run, hloop, hindex]
    cases rps.zipIdx.find? fun x => hasName tbuf x.1 with
    | none => exact appendProg_run (some tbuf) params result rps
    | some x => simp [Prog.run, List.modify_modify_eq, Function.comp_def]

theorem registerProg_run (p : Nat) (d : EdiDetector) (rps : List EdiRegparams) :
    (registerProg p d).run rps
      = (rps.modify p fun rp => ediDetectRegister rp d, ()) := by
  simp only [registerProg, Prog.run, List.modify_modify_eq]
  rfl

theorem registerAllProg_run (p : Nat) (ds : List EdiDetector)
    (rps : List EdiRegparams) :
    (registerAllProg p ds).run rps
      = (rps.modify p fun rp => ds.foldl ediDetectRegister rp, ()) := by
  induction ds generalizing rps with
  | nil => exact congrArg (·, ()) (List.modify_id p rps).symm
  | cons d ds ih =>
    rw [registerAllProg, Prog.run_bind, registerProg_run, ih,
      List.modify_modify_eq]
    rfl

theorem regsetProg_run (name : Bytes) (src : EdiParams)
    (detectors : List EdiDetector) (rps : List EdiRegparams) :
    (regsetProg name src detectors).run rps
      = (ediDetectRegset rps name src detectors, ()) := by
  rw [regsetProg, Prog.run_bind, registerParamsProg_run, registerAllProg_run]
  rfl

/-- `edi__detect_init` registers the presets. -/
theorem detectInitProg_run (rps : List EdiRegparams) :
    detectInitProg.run rps = (ediDetectInit rps, ()) := by
  rw [detectInitProg, Prog.run_bind, regsetProg_run, Prog.run_bind,
    regsetProg_run, regsetProg_run]
  rfl

theorem ediParserParse_eq (lib : EdiLib) (oparser : EdiParser)
    (message : CString) :
    ediParserParse lib oparser message
      = if oparser.detect = 1 then
        parseDetected oparser message (ediDetect lib.detectparams message).found
      else
        let r := parseBody oparser message.strlen message.bytes
        (r.1, some r.2) := rfl

/-- The program of a call does what the call does on its own, in a library that is
set up. -/
theorem body_run (c : LibCall) (rps : List EdiRegparams) :
    (libSystem.body c).run rps
      = ((c.call ⟨true, rps⟩).1.detectparams, (c.call ⟨true, rps⟩).2) := by
  cases c with
  | paramsRegister name params =>
    exact registerParamsProg_run name params LibResult.registered rps
  | detectGet name => exact detectGetProg_run name LibResult.found rps
  | detectGetParams name =>
    exact detectGetProg_run name (fun rp => LibResult.params (rp.map (·.params))) rps
  | parserCreate params => rfl
  | parserParse oparser message =>
    simp only [LibCall.call, ediParserParse_eq, libSystem]
    split_ifs with hdetect
    · exact detectProg_run message _ rps
    · rfl

end Run

/-! ## One section for each call -/

section Sections

variable {R : Type}

theorem recordsLoop_lastSection {visit : Nat → EdiRegparams → Option (LibProg R)}
    {missing : LibProg R} (hmissing : missing.LastSection)
    (hvisit : ∀ c rp, ∀ p ∈ visit c rp, p.LastSection) (turns c : Nat) :
    (recordsLoop visit missing turns c).LastSection := by
  induction turns generalizing c with
  | zero => exact hmissing
  | succ turns ih =>
    intro rps
    dsimp only
    cases rps[c]? with
    | none => exact hmissing
    | some rp =>
      cases hp : visit c rp with
      | none => simpa [hp] using ih (c + 1)
      | some p => simpa [hp] using hvisit c rp p hp

theorem forRecords_lastSection {visit : Nat → EdiRegparams → Option (LibProg R)}
    {missing : LibProg R} (hmissing : missing.LastSection)
    (hvisit : ∀ c rp, ∀ p ∈ visit c rp, p.LastSection) :
    (forRecords visit missing).LastSection :=
  fun rps => recordsLoop_lastSection hmissing hvisit (rps.length + 1) 0

theorem detectGetProg_oneSection (name : Bytes)
    (result : Option EdiRegparams → R) :
    (detectGetProg name result).OneSection := by
  refine forRecords_lastSection ⟨_, rfl⟩ fun c rp p hp => ?_
  split_ifs at hp
  · obtain rfl := Option.some.inj hp
    exact ⟨_, rfl⟩
  · cases hp

theorem detectProg_oneSection (message : CString)
    (result : Option (EdiParams × Nat) → R) :
    (detectProg message result).OneSection := by
  refine forRecords_lastSection ⟨_, rfl⟩ fun c rp p hp => ?_
  obtain ⟨found, -, rfl⟩ := Option.map_eq_some_iff.1 hp
  exact ⟨_, rfl⟩

theorem appendProg_lastSection (tbuf : Option Bytes) (params : EdiParams)
    (result : Nat → R) : (appendProg tbuf params result).LastSection := by
  intro rps
  cases tbuf with
  | none => exact ⟨_, rfl⟩
  | some t => exact ⟨_, rfl⟩

theorem registerParamsProg_oneSection (name : Option Bytes) (params : EdiParams)
    (result : Nat → R) : (registerParamsProg name params result).OneSection := by
  rw [registerParamsProg]
  cases name.map (·.take 31) with
  | none => exact appendProg_lastSection none params result
  | some tbuf =>
    refine forRecords_lastSection (appendProg_lastSection _ params result)
      fun c rp p hp => ?_
    split_ifs at hp
    · obtain rfl := Option.some.inj hp
      exact ⟨_, rfl⟩
    · cases hp

theorem registerProg_oneSection (p : Nat) (d : EdiDetector) :
    (registerProg p d).OneSection := ⟨_, rfl⟩

theorem registerAllProg_sections (p : Nat) (ds : List EdiDetector) :
    (registerAllProg p ds).Sections ∧ (registerAllProg p ds).held = false := by
  induction ds with
  | nil => exact ⟨trivial, rfl⟩
  | cons d ds ih =>
    have hone := (registerProg_oneSection p d).sections
    exact ⟨hone.1.bind fun _ => ih.symm,
      (Prog.held_bind fun _ => ih.2).trans hone.2⟩

theorem regsetProg_sections (name : Bytes) (src : EdiParams)
    (detectors : List EdiDetector) :
    (regsetProg name src detectors).Sections ∧
      (regsetProg name src detectors).held = false := by
  have hone := (registerParamsProg_oneSection (some name) src id).sections
  have hrest := fun p => registerAllProg_sections p
    (detectors.takeWhile (·.detectstr.isSome))
  exact ⟨hone.1.bind fun p => (hrest p).symm,
    (Prog.held_bind fun p => (hrest p).2).trans hone.2⟩

/-- Each call uses the registry in one section at most, and `edi__detect_init` in
several. -/
theorem libSystem_proper : libSystem.Proper where
  setup := by
    have hone := regsetProg_sections (ascii "UN/EDIFACT") ediEdifactParams
      ediEdifactDetectors
    have htwo := regsetProg_sections (ascii "TRADACOMS") ediTradacomsParams
      ediTradacomsDetectors
    have hthree := regsetProg_sections (ascii "ANSI X12") ediX12Params
      ediX12Detectors
    exact ⟨hone.1.bind fun _ => ⟨(Prog.held_bind fun _ => hthree.2).trans htwo.2,
        htwo.1.bind fun _ => hthree.symm⟩,
      (Prog.held_bind fun _ => (Prog.held_bind fun _ => hthree.2).trans
        htwo.2).trans hone.2⟩
  body := by
    intro c
    cases c with
    | paramsRegister name params =>
      exact registerParamsProg_oneSection name params _
    | detectGet name => exact detectGetProg_oneSection name _
    | detectGetParams name =>
      exact detectGetProg_oneSection name
        fun rp => LibResult.params (rp.map (·.params))
    | parserCreate params => trivial
    | parserParse oparser message =>
      dsimp only [libSystem]
      split_ifs
      · exact detectProg_oneSection message _
      · trivial

end Sections

/-! ## All threads -/

section Threads

variable {ι : Type}

/-- Calls one after the other, with their results. -/
def libAnswers (lib : EdiLib) :
    List (ι × LibCall) → List (ι × LibCall × LibResult)
  | [] => []
  | (t, c) :: l => (t, c, (c.call lib).2) :: libAnswers (c.call lib).1 l

/-- The library behind some calls. -/
def libAfter (lib : EdiLib) (l : List (ι × LibCall)) : EdiLib :=
  l.foldl (fun lib x => (x.2.call lib).1) lib

theorem call_complete (c : LibCall) (rps : List EdiRegparams) :
    (c.call ⟨true, rps⟩).1 = ⟨true, (c.call ⟨true, rps⟩).1.detectparams⟩ := by
  cases c <;> rfl

theorem answers_eq (rps : List EdiRegparams) (l : List (ι × LibCall)) :
    libSystem.answers rps l = libAnswers ⟨true, rps⟩ l := by
  induction l generalizing rps with
  | nil => rfl
  | cons x l ih =>
    obtain ⟨t, c⟩ := x
    rw [System.answers, libAnswers, body_run, ih, ← call_complete]

theorem after_eq (rps : List EdiRegparams) (l : List (ι × LibCall)) :
    (⟨true, libSystem.after rps l⟩ : EdiLib) = libAfter ⟨true, rps⟩ l := by
  induction l generalizing rps with
  | nil => rfl
  | cons x l ih =>
    obtain ⟨t, c⟩ := x
    rw [System.after, body_run, ih, ← call_complete]
    rfl

theorem setup_eq : (⟨true, (libSystem.setup.run []).1⟩ : EdiLib)
    = ediInit EdiLib.start := by
  rw [show libSystem.setup = detectInitProg from rfl, detectInitProg_run]
  rfl

variable [DecidableEq ι]

/-- Any number of threads, each with its calls, in any order of their steps.  What
the calls return is what they return one after the other, in the order in which they
took the mutex, in a library with its presets; when no call is made any more, the
registry is the one that this leaves behind.  A call that has returned is before all
that take the mutex later.  As long as a call is made, some thread can go on. -/
theorem threads_serial {calls : ι → List LibCall}
    {s : Monitor.State ι LibCall (List EdiRegparams) LibResult}
    (h : Reachable libSystem [] calls s) :
    (∀ t, s.returned t
        <+: answersOf t (libAnswers (ediInit EdiLib.start) s.log)) ∧
      (∀ t, (s.returned t).map Prod.fst <+: calls t) ∧
      ((∀ t, s.phase t = .idle) → s.log ≠ [] →
        (∀ t, s.returned t
          = answersOf t (libAnswers (ediInit EdiLib.start) s.log)) ∧
        s.data = (libAfter (ediInit EdiLib.start) s.log).detectparams) ∧
      (∀ s', Relation.ReflTransGen (Monitor.Step libSystem) s s' →
        s.log <+: s'.log) ∧
      ((∃ t, s.phase t ≠ .idle) → ∃ s', Monitor.Step libSystem s s') := by
  have hserial := h.serial libSystem_proper
  have hanswers : libSystem.answers (libSystem.setup.run []).1 s.log
      = libAnswers (ediInit EdiLib.start) s.log := by
    rw [answers_eq, setup_eq]
  have hafter := after_eq (libSystem.setup.run []).1 s.log
  rw [setup_eq] at hafter
  refine ⟨fun t => ?_, hserial.inOrder, fun hidle hlog => ?_,
    fun s' hrun => Monitor.log_grows hrun, fun ⟨t, ht⟩ => ?_⟩
  · rw [← hanswers]
    exact hserial.returned t
  · obtain ⟨hall, hdata⟩ := hserial.quiet hidle
    rw [← hafter, ← hanswers]
    exact ⟨hall, hdata hlog⟩
  · exact h.progress libSystem_proper ht

/-- A message of a preset dialect. -/
def threadMessage : CString := .ofBytes (ascii "UNB+1'AB+1'") (by decide)

/-- One thread parses a message, the other one registers a dialect and looks it
up. -/
def threadCalls : Bool → List LibCall
  | false => [.parserCreate none,
      .parserParse (ediParserCreate EdiLib.start none).2 threadMessage]
  | true => [.paramsRegister (some (ascii "MINE")) ediX12Params,
      .detectGetParams (ascii "MINE")]

/-- The two threads, after enough steps in turn.  The registration is before the
parse, and the search behind it. -/
def threadsDone : Monitor.State Bool LibCall (List EdiRegparams) LibResult :=
  Monitor.exec libSystem (.start [] threadCalls)
    (List.replicate 120 [true, false]).flatten

theorem threadsDone_reachable :
    Reachable libSystem [] threadCalls threadsDone :=
  Reachable.start.exec _

theorem threads_serial_sample :
    threadsDone.log.map Prod.fst = [true, false, false, true] ∧
    (threadsDone.returned true).map Prod.snd
      = [.registered 3, .params (some ediX12Params)] ∧
    ∀ t, threadsDone.returned t
      <+: answersOf t (libAnswers (ediInit EdiLib.start) threadsDone.log) :=
  ⟨by decide +kernel, by decide +kernel,
    (threads_serial threadsDone_reachable).1⟩

/-! ## Messages that are parsed beside registrations -/

/-- The calls of `edi_params_register`. -/
def LibCall.registration : LibCall → Option (Option Bytes × EdiParams)
  | paramsRegister name params => some (name, params)
  | _ => none

/-- No registration is for the dialect of the message. -/
def KeepsDialect (regs : List (Option Bytes × EdiParams)) (message : CString) :
    Prop :=
  ∀ rp ∈ dialectOf message, NotRegistered regs rp

omit [DecidableEq ι] in
/-- The library behind some calls, by the registrations among them. -/
theorem Registered.call {regs : List (Option Bytes × EdiParams)} {lib : EdiLib}
    (h : Registered regs lib) (c : LibCall) :
    Registered (regs ++ c.registration.toList) (c.call lib).1 := by
  have hinit := ediInit_of_complete h.initialised
  cases c with
  | paramsRegister name params => exact h.register (name, params)
  | detectGet name => simpa [LibCall.registration, LibCall.call, ediDetectGet, hinit]
  | detectGetParams name =>
    simpa [LibCall.registration, LibCall.call, ediDetectGetParams, ediDetectGet,
      hinit]
  | parserCreate params =>
    simpa [LibCall.registration, LibCall.call, ediParserCreate, hinit]
  | parserParse oparser message => simpa [LibCall.registration, LibCall.call]

omit [DecidableEq ι] in
/-- What detects the message is there, or nothing ever did. -/
theorem KeepsDialect.findSome?_eq {regs : List (Option Bytes × EdiParams)}
    {message : CString} (h : KeepsDialect regs message) :
    (presetRecords.filter (NotRegistered regs ·)).findSome?
        (EdiRegparams.detect message)
      = presetRecords.findSome? (EdiRegparams.detect message) := by
  cases hdialect : dialectOf message with
  | none =>
    have hnone : ∀ rp ∈ presetRecords, rp.detect message = none := by
      simpa [dialectOf] using hdialect
    rw [List.findSome?_eq_none_iff.2 hnone, List.findSome?_eq_none_iff.2
      fun rp hrp => hnone rp (List.mem_of_mem_filter hrp)]
  | some rp =>
    have hfind : presetRecords.find? (fun rp => (rp.detect message).isSome)
        = some rp := hdialect
    have hrp := List.mem_of_find?_eq_some hfind
    have hsome : (rp.detect message).isSome = true := by
      simpa using List.find?_some hfind
    have hone : ∀ rp' ∈ presetRecords,
        (rp'.detect message).isSome = true → rp' = rp :=
      fun rp' hrp' hsome' => eq_of_detect hrp' hrp hsome' hsome
    have hkept : rp ∈ presetRecords.filter (NotRegistered regs ·) :=
      List.mem_filter.2 ⟨hrp, decide_eq_true (h rp hdialect)⟩
    rw [findSome?_eq_of_unique hrp hone, findSome?_eq_of_unique hkept
      fun rp' hrp' => hone rp' (List.mem_of_mem_filter hrp')]

omit [DecidableEq ι] in
/-- The message is parsed as in a library with its presets only. -/
theorem Registered.parse {regs : List (Option Bytes × EdiParams)} {lib : EdiLib}
    (h : Registered regs lib) {message : CString}
    (hkeeps : KeepsDialect regs message) (oparser : EdiParser) :
    ediParserParse lib oparser message
      = ediParserParse (ediInit EdiLib.start) oparser message := by
  have hfound : (ediDetect lib.detectparams message).found
      = (ediDetect (ediInit EdiLib.start).detectparams message).found := by
    have hpresets : (ediDetect (ediInit EdiLib.start).detectparams message).found
        = presetRecords.findSome? (EdiRegparams.detect message) := by
      rw [ediInit_start]
      exact tryParams_found message presetRecords
    rw [hpresets, ← hkeeps.findSome?_eq, ← h.detectors,
      findSome?_detect_filter]
    exact tryParams_found message lib.detectparams
  rw [ediParserParse_eq, ediParserParse_eq, hfound]

omit [DecidableEq ι] in
theorem libAnswers_parse {regs : List (Option Bytes × EdiParams)} {lib : EdiLib}
    (h : Registered regs lib) {l : List (ι × LibCall)} {t : ι}
    {oparser : EdiParser} {message : CString} {r : LibResult}
    (hkeeps : KeepsDialect (regs ++ l.filterMap fun x => x.2.registration) message)
    (hr : (t, .parserParse oparser message, r) ∈ libAnswers lib l) :
    r = .parsed (ediParserParse (ediInit EdiLib.start) oparser message).1
      (ediParserParse (ediInit EdiLib.start) oparser message).2 := by
  induction l generalizing regs lib with
  | nil => cases hr
  | cons x l ih =>
    obtain ⟨u, c⟩ := x
    rcases List.mem_cons.1 hr with heq | hr
    · cases heq
      have hfirst : KeepsDialect regs message := fun rp hrp d hd =>
        hkeeps rp hrp d (List.mem_append_left _ hd)
      rw [LibCall.call, h.parse hfirst]
    · refine ih (h.call c) ?_ hr
      rw [List.append_assoc]
      cases hc : c.registration <;> simpa [hc] using hkeeps

/-- Whatever the other threads do, and in any order of the steps: a message is
parsed as in a library with its presets only, unless some thread registers the name
of its dialect. -/
theorem threads_parse {calls : ι → List LibCall}
    {s : Monitor.State ι LibCall (List EdiRegparams) LibResult}
    (h : Reachable libSystem [] calls s) {t : ι} {oparser : EdiParser}
    {message : CString} {r : LibResult}
    (hr : (.parserParse oparser message, r) ∈ s.returned t)
    (hkeeps : ∀ u name params, .paramsRegister name params ∈ calls u →
      ∀ rp ∈ dialectOf message, name ≠ some rp.name) :
    r = .parsed (ediParserParse (ediInit EdiLib.start) oparser message).1
      (ediParserParse (ediInit EdiLib.start) oparser message).2 := by
  have hserial := h.serial libSystem_proper
  have hanswers : libSystem.answers (libSystem.setup.run []).1 s.log
      = libAnswers (ediInit EdiLib.start) s.log := by
    rw [answers_eq, setup_eq]
  have hmem := (hserial.returned t).subset hr
  rw [hanswers] at hmem
  obtain ⟨⟨u, x⟩, hx, rfl⟩ := List.mem_map.1 hmem
  refine libAnswers_parse registered_init ?_ (List.mem_of_mem_filter hx)
  rw [List.nil_append]
  intro rp hrp c hc
  obtain ⟨⟨v, call⟩, hv, hcall⟩ := List.mem_filterMap.1 hc
  cases call with
  | paramsRegister name params =>
    obtain rfl := Option.some.inj hcall
    exact hkeeps v name params (hserial.made _ hv) rp hrp
  | _ => cases hcall

theorem threadsDone_returned :
    (threadsDone.returned false).map Prod.fst = threadCalls false :=
  ((threadsDone_reachable.serial libSystem_proper).inOrder false).eq_of_length
    (by decide +kernel)

/-- The message is of a dialect, and it is parsed behind the registration of another
one. -/
theorem threads_parse_sample :
    (dialectOf threadMessage).map (·.name) = some (ascii "UN/EDIFACT") ∧
    ∃ r, (.parserParse (ediParserCreate EdiLib.start none).2 threadMessage, r)
          ∈ threadsDone.returned false ∧
      r = .parsed (ediParserParse (ediInit EdiLib.start)
          (ediParserCreate EdiLib.start none).2 threadMessage).1
        (ediParserParse (ediInit EdiLib.start)
          (ediParserCreate EdiLib.start none).2 threadMessage).2 := by
  have hcall : LibCall.parserParse (ediParserCreate EdiLib.start none).2 threadMessage
      ∈ threadCalls false :=
    List.mem_cons_of_mem _ (List.mem_singleton.2 rfl)
  rw [← threadsDone_returned] at hcall
  obtain ⟨⟨c, r⟩, hr, rfl⟩ := List.mem_map.1 hcall
  refine ⟨by decide +kernel, r, hr, threads_parse threadsDone_reachable hr ?_⟩
  intro u name params hregister rp hrp
  cases u with
  | false => simp [threadCalls] at hregister
  | true =>
    have hname : name = some (ascii "MINE") := by
      simp only [threadCalls, List.mem_cons, List.not_mem_nil, or_false,
        LibCall.paramsRegister.injEq, reduceCtorEq] at hregister
      exact hregister.1
    have hpreset : rp ∈ presetRecords := List.mem_of_find?_eq_some hrp
    subst hname
    revert hpreset rp
    decide +kernel

end Threads

end Libedi
