import Libedi.Directory
import Libedi.ErrorReport
import Libedi.Getopt

/-!
# The program

`xml/edi2xml.c`: the program that reads its options, loads the tables, and converts a
file.  This is the build for Windows, whose `getopt` is that of
`win32/wingetopt.cpp`; other systems have one of their own.

`edi2xmlMain_options` says what the program makes of a command line: it converts the
file if the options are spelled as they should be, and otherwise shows its help.
`edi2xmlMain_prints` says that what is printed for the file is what `edi2xml_conv2`
gives for its text, and when the program exits with `0`.
-/

namespace Libedi

open CommandLine (Item Spelling)

/-! ## Files -/

/-- The files there are, by their names. -/
abbrev FileSystem := Bytes → Option Bytes

/-- What the program finds around it: the files, what is read of a file that is
opened in text mode, what is in the memory behind it, the parser of the tables, and
`DATADIR`. -/
structure Environment where
  files : FileSystem
  textMode : Bytes → Bytes
  junk : Nat → UInt8
  expat : Expat
  datadir : Bytes

/-- `load_whole_file`, by what is read of the file.  The text ends at its first NUL,
and `junk` is behind it. -/
def loadWholeFile (junk : Nat → UInt8) (file : Bytes) : CString where
  bytes := file.takeWhile (· ≠ 0)
  nulFree := fun h => by simpa using List.mem_takeWhile_imp h
  beyond k := (file ++ [0]).getD k (junk k)

/-- `concat_path`. -/
def concatPath (dir fn : Bytes) : Bytes := dir ++ '/'.toUInt8 :: fn

/-- The files that `edistruct_load_xml_files` opens. -/
def schemaFiles (files : FileSystem) (dir : Bytes) : XmlFiles where
  segs := files (concatPath dir (ascii "segs.xml"))
  comps := files (concatPath dir (ascii "comps.xml"))
  elems := files (concatPath dir (ascii "elems.xml"))
  coded := files (concatPath dir (ascii "coded.xml"))

/-! ## The program -/

/-- How the program ends: with the result of `main` and what it has printed, or in a
way that is not followed here. -/
inductive ProgramEnd where
  | exit (r : Int) (out : Bytes)
  | astray
  deriving DecidableEq, Repr

/-- `help`. -/
def helpText : Bytes := ascii ("\nUsage: edi2xml [opts] edi_file.txt > file.xml\n" ++
  "opts:\n" ++
  "\t-h : this help\n" ++
  "\t-c [s][e][c] : turn on xml comments for segment names, element names and " ++
    "coded values respectively.\n" ++
  "\t-d : translate coded values\n" ++
  "\t-e : translate coded values into empty elements (implies -d)\n" ++
  "\t-x CHARSET : decode strings from given charset\n" ++
  "\t-S /some/dir : set xml schema location\n")

/-- The variables of `main`, and those of the library. -/
structure MainVars (σ : Type) where
  g : Globals σ
  opts : Edi2xmlConfig
  schemaDir : Bytes

/-- A letter behind `-c`. -/
def commentOption (opts : Edi2xmlConfig) (c : UInt8) : Edi2xmlConfig :=
  if c = 's'.toUInt8 then { opts with commentsSegmentNames := true }
  else if c = 'e'.toUInt8 then { opts with commentsElementNames := true }
  else if c = 'c'.toUInt8 then { opts with commentsCodedValues := true }
  else opts

/-- The options of the program. -/
def mainOptions : Bytes := ascii "?hc:dex:S:"

/-- `edi2xml_opts` in front of the options. -/
def mainConfig : Edi2xmlConfig := ⟨false, false, false, true, false, false⟩

section Main

variable {σ : Type} (lib : Iconv σ) (heap : Realloc)

/-- The `switch` of `main`, for the option `ch`. -/
def mainOption (v : MainVars σ) (ch : UInt8) (optarg : Option Bytes) :
    Except ProgramEnd (MainVars σ) :=
  if ch = 'c'.toUInt8 then
    match optarg with
    | none => .error .astray
    | some letters => .ok { v with opts := letters.foldl commentOption v.opts }
  else if ch = 'e'.toUInt8 then
    .ok { v with opts := { v.opts with
      translateCodedToElements := true
      translateCodedValues := true } }
  else if ch = 'd'.toUInt8 then
    .ok { v with opts := { v.opts with translateCodedValues := true } }
  else if ch = 'x'.toUInt8 then
    match optarg with
    | none => .error .astray
    | some enc =>
      match v.g.outputSetEnc lib enc with
      | .returns g _ => .ok { v with g := g }
      | _ => .error .astray
  else if ch = 'S'.toUInt8 then
    match optarg with
    | none => .error .astray
    | some dir => .ok { v with schemaDir := dir }
  else .error (.exit 0 helpText)

variable (env : Environment)

/-- The part of `main` behind the options, for the file `name`. -/
def convertFile (v : MainVars σ) (name : Bytes) : ProgramEnd :=
  match loadXmlFiles env.expat ⟨[], [], [], []⟩
      (schemaFiles env.files v.schemaDir) with
  | none => .astray
  | some (_, all) =>
    match env.files name with
    | none => .exit 1 []
    | some file =>
      match v.g.edi2xmlConv lib heap v.opts all
          (loadWholeFile env.junk (env.textMode file)) with
      | .returns g r =>
        match g.outbuf with
        | .buffer (text :: texts) => .exit r ((text :: texts).flatten ++ ascii "\n")
        | _ => .astray
      | _ => .astray

/-- The test of `argc` behind the options, and the rest. -/
def mainRest (v : MainVars σ) : List Bytes → ProgramEnd
  | [name] => convertFile lib heap env v name
  | _ => .exit 0 helpText

/-- `main`. -/
def edi2xmlMain (argv : List Bytes) : ProgramEnd :=
  let start : MainVars σ :=
    ⟨(Globals.start σ EdiLib.start).outputInit, mainConfig, env.datadir⟩
  match whileGetopt argv mainOptions (mainOption lib) .start start with
  | none => .astray
  | some (.error e) => e
  | some (.ok (v, vars)) => mainRest lib heap env vars (argv.drop v.optind)

end Main

/-! ## What the options choose -/

/-- An option that shows the help. -/
def ShowsHelp : Item UInt8 → Prop
  | .flag c => c = 'h'.toUInt8 ∨ c = '?'.toUInt8
  | .value _ _ => False
  | .unknown _ | .lacking _ => True

instance (i : Item UInt8) : Decidable (ShowsHelp i) :=
  match i with
  | .flag _ => inferInstanceAs (Decidable (_ ∨ _))
  | .value _ _ => inferInstanceAs (Decidable False)
  | .unknown _ => inferInstanceAs (Decidable True)
  | .lacking _ => inferInstanceAs (Decidable True)

/-- The values of an option. -/
def optionValues (c : UInt8) (items : List (Item UInt8)) : List Bytes :=
  items.filterMap fun
    | .value d arg => if d = c then some arg else none
    | _ => none

/-- The letters behind `-c`. -/
def commentLetters (items : List (Item UInt8)) : Bytes :=
  (optionValues 'c'.toUInt8 items).flatten

/-- The options of the conversion. -/
def chosenConfig (items : List (Item UInt8)) : Edi2xmlConfig where
  commentsSegmentNames := 's'.toUInt8 ∈ commentLetters items
  commentsCodedValues := 'c'.toUInt8 ∈ commentLetters items
  commentsElementNames := 'e'.toUInt8 ∈ commentLetters items
  commentsErrors := true
  translateCodedValues :=
    .flag 'd'.toUInt8 ∈ items ∨ .flag 'e'.toUInt8 ∈ items
  translateCodedToElements := .flag 'e'.toUInt8 ∈ items

/-- The directory of the tables. -/
def chosenDir (datadir : Bytes) (items : List (Item UInt8)) : Bytes :=
  (optionValues 'S'.toUInt8 items).getLast?.getD datadir

/-- The charsets. -/
def chosenCharsets (items : List (Item UInt8)) : List Bytes :=
  optionValues 'x'.toUInt8 items

/-- The first line of a document, for each charset that is known. -/
def openedHeaders {σ : Type} (lib : Iconv σ) (encs : List Bytes) : List Bytes :=
  (encs.filter fun enc => (lib.iconvOpen enc).isSome).map fun _ => encodingLine.text

/-- The variables behind the options. -/
def chosenVars {σ : Type} (lib : Iconv σ) (datadir : Bytes)
    (items : List (Item UInt8)) : MainVars σ where
  g := { Globals.start σ EdiLib.start with
    conv := descriptorFor lib (chosenCharsets items).getLast?
    outbuf := .buffer (openedHeaders lib (chosenCharsets items)) }
  opts := chosenConfig items
  schemaDir := chosenDir datadir items

/-! ## The options are read -/

section Options

variable {σ : Type} (lib : Iconv σ) (datadir : Bytes)

theorem optionValues_concat (c : UInt8) (items : List (Item UInt8))
    (i : Item UInt8) :
    optionValues c (items ++ [i]) = optionValues c items ++ optionValues c [i] :=
  List.filterMap_append

/-- The letters of the program. -/
theorem mainOptions_kind {c : UInt8} {kind : CommandLine.Kind}
    (h : (getoptRules mainOptions).kind c = some kind) :
    kind = .flag ∧ c ∈ ascii "?hde" ∨ kind = .value ∧ c ∈ ascii "cxS" := by
  have hmem : c ∈ mainOptions := by
    by_contra hnot
    have hnone : (getoptRules mainOptions).kind c = none := if_pos (Or.inr hnot)
    rw [hnone] at h
    cases h
  have hall : ∀ c ∈ mainOptions, (getoptRules mainOptions).kind c = none ∨
      (getoptRules mainOptions).kind c = some .flag ∧ c ∈ ascii "?hde" ∨
      (getoptRules mainOptions).kind c = some .value ∧ c ∈ ascii "cxS" :=
    forall_mem_of_all (by decide +kernel)
  rcases hall c hmem with hnone | ⟨hflag, hc⟩ | ⟨hvalue, hc⟩
  · rw [hnone] at h
    cases h
  · rw [hflag] at h
    exact Or.inl ⟨(Option.some.inj h).symm, hc⟩
  · rw [hvalue] at h
    exact Or.inr ⟨(Option.some.inj h).symm, hc⟩

theorem mainOptions_mark :
    (getoptRules mainOptions).kind (getoptRules mainOptions).mark = none := by
  decide +kernel

/-- The letters behind one `-c`. -/
theorem foldl_commentOption (opts : Edi2xmlConfig) (letters : Bytes) :
    letters.foldl commentOption opts = { opts with
      commentsSegmentNames :=
        opts.commentsSegmentNames || decide ('s'.toUInt8 ∈ letters)
      commentsCodedValues :=
        opts.commentsCodedValues || decide ('c'.toUInt8 ∈ letters)
      commentsElementNames :=
        opts.commentsElementNames || decide ('e'.toUInt8 ∈ letters) } := by
  have hse : 's'.toUInt8 ≠ 'e'.toUInt8 := by decide
  have hsc : 's'.toUInt8 ≠ 'c'.toUInt8 := by decide
  have hec : 'e'.toUInt8 ≠ 'c'.toUInt8 := by decide
  induction letters generalizing opts with
  | nil => simp
  | cons c letters ih =>
    rw [List.foldl_cons, ih]
    unfold commentOption
    split_ifs with hs he hc
    · subst hs
      simp [hse.symm, hsc.symm]
    · subst he
      simp [hse, hec.symm]
    · subst hc
      simp [hsc, hec]
    · simp [Ne.symm hs, Ne.symm he, Ne.symm hc]

theorem openedHeaders_concat (encs : List Bytes) (enc : Bytes) :
    openedHeaders lib (encs ++ [enc])
      = openedHeaders lib encs ++ openedHeaders lib [enc] := by
  rw [openedHeaders, List.filter_append, List.map_append]
  rfl

/-- The first lines of that many charsets are short enough for the buffer. -/
theorem openedHeaders_fit {encs : List Bytes} (h : encs.length < 2 ^ 24) :
    OutputBuffer.Fits (openedHeaders lib encs).flatten.length true
      encodingLine.text.length := by
  have hline : encodingLine.text.length = 39 := by decide
  have hall : ∀ l : List Bytes,
      (l.map fun _ => encodingLine.text).flatten.length = 39 * l.length := by
    intro l
    induction l with
    | nil => rfl
    | cons enc l ih =>
      rw [List.map_cons, List.flatten_cons, List.length_append, ih, hline,
        List.length_cons]
      omega
  have hlen : (openedHeaders lib encs).flatten.length ≤ 39 * encs.length := by
    rw [openedHeaders, hall]
    exact Nat.mul_le_mul_left _ (List.length_filter_le _ _)
  rw [hline]
  refine ⟨Or.inr rfl, ?_, ?_⟩ <;>
  · rw [OutputBuffer.grownTo]
    omega

theorem commentLetters_concat (items : List (Item UInt8)) (i : Item UInt8) :
    commentLetters (items ++ [i]) = commentLetters items ++ commentLetters [i] := by
  rw [commentLetters, optionValues_concat, List.flatten_append]
  rfl

theorem chosenConfig_concat (items : List (Item UInt8)) (i : Item UInt8) :
    chosenConfig (items ++ [i])
      = { commentsSegmentNames := (chosenConfig items).commentsSegmentNames ||
            decide ('s'.toUInt8 ∈ commentLetters [i])
          commentsCodedValues := (chosenConfig items).commentsCodedValues ||
            decide ('c'.toUInt8 ∈ commentLetters [i])
          commentsElementNames := (chosenConfig items).commentsElementNames ||
            decide ('e'.toUInt8 ∈ commentLetters [i])
          commentsErrors := true
          translateCodedValues := (chosenConfig items).translateCodedValues ||
            (decide (.flag 'd'.toUInt8 = i) || decide (.flag 'e'.toUInt8 = i))
          translateCodedToElements :=
            (chosenConfig items).translateCodedToElements ||
              decide (.flag 'e'.toUInt8 = i) } := by
  simp only [chosenConfig, commentLetters_concat, List.mem_append,
    List.mem_singleton, Bool.decide_or, Edi2xmlConfig.mk.injEq, true_and, and_true]
  ac_rfl

/-- A flag changes the configuration only. -/
theorem chosenVars_flag (items : List (Item UInt8)) (c : UInt8) :
    chosenVars lib datadir (items ++ [.flag c])
      = { chosenVars lib datadir items with
          opts := chosenConfig (items ++ [.flag c]) } := by
  have hvalues : ∀ d, optionValues d (items ++ [.flag c])
      = optionValues d items := fun d => by
    rw [optionValues_concat]
    exact List.append_nil _
  simp only [chosenVars, chosenDir, chosenCharsets, hvalues]

/-- `-d` or `-e` behind other options. -/
theorem mainOption_flag (items : List (Item UInt8)) {c : UInt8}
    (hc : c = 'd'.toUInt8 ∨ c = 'e'.toUInt8) :
    mainOption lib (chosenVars lib datadir items) c none
      = .ok (chosenVars lib datadir (items ++ [.flag c])) := by
  have hletters : commentLetters [.flag c] = [] := rfl
  rw [chosenVars_flag, chosenConfig_concat, hletters]
  simp only [List.not_mem_nil, decide_false, Bool.or_false]
  rcases hc with rfl | rfl
  · simp only [decide_true, Bool.or_true, Item.flag.injEq,
      show ¬ 'e'.toUInt8 = 'd'.toUInt8 by decide, decide_false, Bool.or_false]
    rfl
  · simp only [decide_true, Bool.or_true]
    rfl

/-- A value adds to the charsets, the directory and the letters of the comments. -/
theorem chosenVars_value (items : List (Item UInt8)) (c : UInt8) (arg : Bytes) :
    chosenVars lib datadir (items ++ [.value c arg])
      = ⟨{ Globals.start σ EdiLib.start with
          conv := descriptorFor lib
            (chosenCharsets items ++ chosenCharsets [.value c arg]).getLast?
          outbuf := .buffer (openedHeaders lib
            (chosenCharsets items ++ chosenCharsets [.value c arg])) },
        { chosenConfig items with
          commentsSegmentNames := (chosenConfig items).commentsSegmentNames ||
            decide ('s'.toUInt8 ∈ commentLetters [.value c arg])
          commentsCodedValues := (chosenConfig items).commentsCodedValues ||
            decide ('c'.toUInt8 ∈ commentLetters [.value c arg])
          commentsElementNames := (chosenConfig items).commentsElementNames ||
            decide ('e'.toUInt8 ∈ commentLetters [.value c arg]) },
        (optionValues 'S'.toUInt8 items ++
          optionValues 'S'.toUInt8 [.value c arg]).getLast?.getD datadir⟩ := by
  rw [chosenVars, chosenDir, chosenCharsets, optionValues_concat,
    optionValues_concat, chosenConfig_concat]
  simp only [reduceCtorEq, decide_false, Bool.or_false]
  rfl

/-- `-c` behind other options. -/
theorem mainOption_comments (items : List (Item UInt8)) (arg : Bytes) :
    mainOption lib (chosenVars lib datadir items) 'c'.toUInt8 (some arg)
      = .ok (chosenVars lib datadir (items ++ [.value 'c'.toUInt8 arg])) := by
  have hoption : mainOption lib (chosenVars lib datadir items) 'c'.toUInt8 (some arg)
      = .ok { chosenVars lib datadir items with
        opts := arg.foldl commentOption (chosenConfig items) } := rfl
  have hletters : commentLetters [.value 'c'.toUInt8 arg] = arg :=
    List.append_nil arg
  rw [hoption, foldl_commentOption, chosenVars_value, hletters,
    show chosenCharsets [.value 'c'.toUInt8 arg] = [] from rfl,
    show optionValues 'S'.toUInt8 [.value 'c'.toUInt8 arg] = [] from rfl,
    List.append_nil, List.append_nil]
  rfl

/-- `-x` behind other options. -/
theorem mainOption_charset (items : List (Item UInt8)) (arg : Bytes)
    (hfew : (chosenCharsets items).length < 2 ^ 24) :
    mainOption lib (chosenVars lib datadir items) 'x'.toUInt8 (some arg)
      = .ok (chosenVars lib datadir (items ++ [.value 'x'.toUInt8 arg])) := by
  have hoption : mainOption lib (chosenVars lib datadir items) 'x'.toUInt8
      (some arg) = match (chosenVars lib datadir items).g.outputSetEnc lib arg with
        | .returns g _ => .ok { chosenVars lib datadir items with g := g }
        | _ => .error .astray := rfl
  have hletters : commentLetters [.value 'x'.toUInt8 arg] = [] := rfl
  rw [hoption, chosenVars_value, hletters,
    show chosenCharsets [.value 'x'.toUInt8 arg] = [arg] from rfl,
    show optionValues 'S'.toUInt8 [.value 'x'.toUInt8 arg] = [] from rfl,
    List.append_nil, List.getLast?_concat, openedHeaders_concat]
  simp only [List.not_mem_nil, decide_false, Bool.or_false]
  unfold Globals.outputSetEnc descriptorFor
  rw [Option.bind_some]
  cases hopen : lib.iconvOpen arg with
  | none =>
    rw [show openedHeaders lib [arg] = [] by simp [openedHeaders, hopen],
      List.append_nil]
    rfl
  | some cd =>
    rw [show openedHeaders lib [arg] = [encodingLine.text] by
      simp [openedHeaders, hopen]]
    have hwritten : Outbuf.output
        (.buffer (openedHeaders lib (chosenCharsets items))) encodingLine
        = .ok (.buffer (openedHeaders lib (chosenCharsets items) ++
          [encodingLine.text])) :=
      if_pos (openedHeaders_fit lib hfew)
    dsimp only [chosenVars, Globals.output]
    rw [hwritten]
    rfl

/-- `-S` behind other options. -/
theorem mainOption_schema (items : List (Item UInt8)) (arg : Bytes) :
    mainOption lib (chosenVars lib datadir items) 'S'.toUInt8 (some arg)
      = .ok (chosenVars lib datadir (items ++ [.value 'S'.toUInt8 arg])) := by
  have hletters : commentLetters [.value 'S'.toUInt8 arg] = [] := rfl
  rw [chosenVars_value, hletters,
    show chosenCharsets [.value 'S'.toUInt8 arg] = [] from rfl,
    show optionValues 'S'.toUInt8 [.value 'S'.toUInt8 arg] = [arg] from rfl,
    List.append_nil, List.getLast?_concat]
  simp only [List.not_mem_nil, decide_false, Bool.or_false]
  rfl

/-- An option is chosen behind others. -/
theorem mainOption_step (items : List (Item UInt8)) {i : Item UInt8}
    (hfew : (chosenCharsets items).length < 2 ^ 24)
    (hvalid : i.Valid (getoptRules mainOptions)) (hhelp : ¬ ShowsHelp i) :
    mainOption lib (chosenVars lib datadir items) (optionLetter i) (optionValue i)
      = .ok (chosenVars lib datadir (items ++ [i])) := by
  cases i with
  | unknown | lacking => exact hvalid.elim
  | flag c =>
    obtain ⟨-, hc⟩ := (mainOptions_kind hvalid).resolve_right (by simp)
    have hall : ∀ c ∈ ascii "?hde", (c = 'h'.toUInt8 ∨ c = '?'.toUInt8) ∨
        c = 'd'.toUInt8 ∨ c = 'e'.toUInt8 := forall_mem_of_all (by decide)
    exact mainOption_flag lib datadir items ((hall c hc).resolve_left hhelp)
  | value c arg =>
    obtain ⟨-, hc⟩ := (mainOptions_kind hvalid).resolve_left (by simp)
    have hall : ∀ c ∈ ascii "cxS", c = 'c'.toUInt8 ∨ c = 'x'.toUInt8 ∨
        c = 'S'.toUInt8 := forall_mem_of_all (by decide)
    rcases hall c hc with rfl | rfl | rfl
    · exact mainOption_comments lib datadir items arg
    · exact mainOption_charset lib datadir items arg hfew
    · exact mainOption_schema lib datadir items arg

/-- The options of a command line, up to the first one that shows the help. -/
theorem mainOption_fold (items : List (Item UInt8))
    (hitems : ∀ i ∈ items, i.Known → i.Valid (getoptRules mainOptions))
    (hfew : (chosenCharsets items).length < 2 ^ 24) :
    items.foldlM (fun v i => mainOption lib v (optionLetter i) (optionValue i))
        ⟨(Globals.start σ EdiLib.start).outputInit, mainConfig, datadir⟩
      = if ∀ i ∈ items, ¬ ShowsHelp i then .ok (chosenVars lib datadir items)
        else .error (.exit 0 helpText) := by
  induction items using List.reverseRecOn with
  | nil => exact (if_pos fun _ hi => nomatch hi).symm
  | append_singleton items i ih =>
    rw [List.forall_mem_append, List.forall_mem_singleton] at hitems
    have hbefore : (chosenCharsets items).length < 2 ^ 24 := by
      rw [chosenCharsets, optionValues_concat, List.length_append] at hfew
      exact Nat.lt_of_add_right_lt hfew
    rw [List.foldlM_append, ih hitems.1 hbefore]
    simp only [List.forall_mem_append, List.forall_mem_singleton]
    by_cases hall : ∀ i ∈ items, ¬ ShowsHelp i
    · rw [if_pos hall]
      by_cases hi : ShowsHelp i
      · rw [if_neg fun hboth => hboth.2 hi]
        have hstop : mainOption lib (chosenVars lib datadir items) (optionLetter i)
            (optionValue i) = .error (.exit 0 helpText) := by
          cases i with
          | flag c => rcases hi with rfl | rfl <;> rfl
          | value => exact hi.elim
          | unknown | lacking => rfl
        show (mainOption lib _ _ _ >>= pure) = _
        rw [bind_pure, hstop]
      · rw [if_pos ⟨hall, hi⟩]
        have hknown : i.Known := by
          cases i with
          | flag | value => trivial
          | unknown | lacking => exact hi trivial
        show (mainOption lib _ _ _ >>= pure) = _
        rw [bind_pure, mainOption_step lib datadir items hbefore
          (hitems.2 hknown) hi]
    · rw [if_neg hall, if_neg fun hboth => hall hboth.1]
      rfl

end Options

/-! ## The command line -/

section Run

variable {σ : Type} (lib : Iconv σ) (heap : Realloc) (env : Environment)
  (argv : List Bytes)

theorem length_optionValues_le (c : UInt8) (items : List (Item UInt8)) :
    (optionValues c items).length ≤ items.countP Item.HasValue := by
  induction items with
  | nil => exact Nat.le_refl 0
  | cons i items ih =>
    cases i with
    | flag | unknown | lacking => exact ih
    | value d arg =>
      have hcount : (Item.value d arg :: items).countP Item.HasValue
          = items.countP Item.HasValue + 1 := List.countP_cons_of_pos rfl
      have hvalues : (optionValues c (.value d arg :: items)).length
          ≤ (optionValues c items).length + 1 := by
        by_cases hd : d = c <;> simp [optionValues, hd]
      omega

/-- What `main` does, by the options that are read. -/
theorem edi2xmlMain_read (hargs : argv.length < 2 ^ 24)
    {items : List (Item UInt8)} {rest : List Bytes}
    (hread : CommandLine.read (getoptRules mainOptions) [] argv.tail
      = (items, rest)) :
    edi2xmlMain lib heap env argv
      = if ∀ i ∈ items, ¬ ShowsHelp i then
          mainRest lib heap env (chosenVars lib env.datadir items) rest
        else .exit 0 helpText := by
  have hvalid := CommandLine.valid_of_read (r := getoptRules mainOptions) []
    argv.tail
  have hcount := CommandLine.countP_hasValue_le (r := getoptRules mainOptions) []
    argv.tail
  have hquery : ∀ (v : MainVars σ) (a b : Option Bytes),
      mainOption lib v '?'.toUInt8 a = mainOption lib v '?'.toUInt8 b :=
    fun _ _ _ => rfl
  obtain ⟨r, hr, hmap⟩ := whileGetopt_read hquery argv mainOptions
    ⟨(Globals.start σ EdiLib.start).outputInit, mainConfig, env.datadir⟩
  rw [hread] at hvalid hmap hcount
  have hfew : (chosenCharsets items).length < 2 ^ 24 := by
    have hle := length_optionValues_le 'x'.toUInt8 items
    rw [if_pos rfl, List.length_tail] at hcount
    exact Nat.lt_of_le_of_lt (hle.trans (hcount.trans (Nat.sub_le _ _))) hargs
  rw [mainOption_fold lib env.datadir items hvalid hfew] at hmap
  unfold edi2xmlMain
  dsimp only
  rw [hr]
  by_cases hall : ∀ i ∈ items, ¬ ShowsHelp i
  · rw [if_pos hall] at hmap ⊢
    cases r with
    | error e => cases hmap
    | ok p =>
      obtain ⟨v, vars⟩ := p
      have heq : (argv.drop v.optind, vars)
          = (rest, chosenVars lib env.datadir items) :=
        Except.ok.inj hmap
      obtain ⟨hdrop, rfl⟩ := Prod.mk.inj heq
      dsimp only
      rw [hdrop]
  · rw [if_neg hall] at hmap ⊢
    cases r with
    | error e => exact Except.error.inj hmap
    | ok p => cases hmap

theorem edi2xmlMain_spelled (hargs : argv.length < 2 ^ 24)
    {items : List (Item UInt8)} {name : Bytes}
    (hspelling : Spelling (getoptRules mainOptions) items argv.tail [name])
    (hhelp : ∀ i ∈ items, ¬ ShowsHelp i) :
    edi2xmlMain lib heap env argv
      = convertFile lib heap env (chosenVars lib env.datadir items) name := by
  rw [edi2xmlMain_read lib heap env argv hargs
    (hspelling.read mainOptions_mark), if_pos hhelp]
  rfl

/-- The program converts a file if its command line spells options that do not show
the help, with one argument behind them, and does what the options choose, however
they are spelled.  With any other command line it shows the help.  The first lines
that the charsets print fit the buffer, as there are not too many arguments. -/
theorem edi2xmlMain_options (hargs : argv.length < 2 ^ 24) :
    (∀ items name, Spelling (getoptRules mainOptions) items argv.tail [name] →
      (∀ i ∈ items, ¬ ShowsHelp i) →
      edi2xmlMain lib heap env argv
        = convertFile lib heap env (chosenVars lib env.datadir items) name) ∧
    ((¬ ∃ items name, Spelling (getoptRules mainOptions) items argv.tail [name] ∧
      ∀ i ∈ items, ¬ ShowsHelp i) →
      edi2xmlMain lib heap env argv = .exit 0 helpText) := by
  constructor
  · exact fun items name => edi2xmlMain_spelled lib heap env argv hargs
  · intro hnot
    cases hread : CommandLine.read (getoptRules mainOptions) [] argv.tail with
    | mk items rest =>
      rw [edi2xmlMain_read lib heap env argv hargs hread]
      split_ifs with hall
      · have hknown : ∀ i ∈ items, i.Known := by
          intro i hi
          cases i with
          | flag | value => trivial
          | unknown | lacking => exact hall _ hi trivial
        have hspelling := (CommandLine.read_iff mainOptions_mark).1 ⟨hread, hknown⟩
        match rest with
        | [] => rfl
        | [name] => exact absurd ⟨items, name, hspelling, hall⟩ hnot
        | _ :: _ :: _ => rfl
      · rfl

end Run

/-! ## What is printed -/

section Printed

variable {σ : Type} (lib : Iconv σ) (heap : Realloc) (env : Environment)

/-- `printf("%s\n", outbuf); return r;`, with these texts in the buffer. -/
def printed (r : Int) (texts : List Bytes) : ProgramEnd :=
  if texts = [] then .astray else .exit r (texts.flatten ++ ascii "\n")

theorem printed_eq_exit {q r : Int} {texts : List Bytes} {out : Bytes} :
    printed q texts = .exit r out ↔
      q = r ∧ texts ≠ [] ∧ texts.flatten ++ ascii "\n" = out := by
  unfold printed
  split_ifs with hnil
  · simp [hnil]
  · simp [hnil]

/-- The last lines of `main` print the texts that the buffer has. -/
theorem printed_buffer {σ : Type} {g : Globals σ} (q : Int) {texts : List Bytes}
    (hbuffer : g.outbuf = .buffer texts) :
    (match g.outbuf with
      | .buffer (text :: texts) =>
        ProgramEnd.exit q ((text :: texts).flatten ++ ascii "\n")
      | _ => .astray) = printed q texts := by
  rw [hbuffer]
  cases texts <;> rfl

/-- A message comes to the same in the program as in `edi2xml_conv2`, if the charsets
in front of the last one are unknown. -/
theorem chosenVars_outcome (opts : Edi2xmlConfig) (all : EdistructAll)
    (items : List (Item UInt8)) (ediText : CString)
    (hcharsets : ∀ enc ∈ (chosenCharsets items).dropLast,
      lib.iconvOpen enc = none) :
    messageOutcome lib heap opts all
        (descriptorFor lib (chosenCharsets items).getLast?)
        (.buffer (openedHeaders lib (chosenCharsets items))) EdiLib.start ediText
      = outcome lib heap opts all EdiLib.start ediText
          (chosenCharsets items).getLast? := by
  have hheaders : openedHeaders lib (chosenCharsets items)
      = openedHeaders lib (chosenCharsets items).getLast?.toList := by
    rcases List.eq_nil_or_concat' (chosenCharsets items) with hnil | ⟨init, last, heq⟩
    · rw [hnil]
      rfl
    · rw [heq] at hcharsets ⊢
      rw [List.dropLast_concat] at hcharsets
      have hearlier : openedHeaders lib init = [] := by
        unfold openedHeaders
        rw [List.map_eq_nil_iff, List.filter_eq_nil_iff]
        exact fun enc henc => by simp [hcharsets enc henc]
      rw [List.getLast?_concat, openedHeaders_concat, hearlier]
      rfl
  rw [hheaders]
  unfold outcome descriptorFor openedHeaders
  cases (chosenCharsets items).getLast? with
  | none => rfl
  | some enc =>
    rw [Option.bind_some]
    cases hopen : lib.iconvOpen enc with
    | none => simp [hopen]
    | some cd => simp [hopen]

/-- With tables and a file, the program prints what `edi2xml_conv` leaves in its
buffer. -/
theorem convertFile_eq (items : List (Item UInt8)) {name file : Bytes} {r : Int}
    {all : EdistructAll}
    (hload : loadXmlFiles env.expat ⟨[], [], [], []⟩
      (schemaFiles env.files (chosenDir env.datadir items)) = some (r, all))
    (hfile : env.files name = some file) :
    convertFile lib heap env (chosenVars lib env.datadir items) name
      = match (chosenVars lib env.datadir items).g.edi2xmlConv lib heap
          (chosenConfig items) all (loadWholeFile env.junk (env.textMode file)) with
        | .returns g r =>
          match g.outbuf with
          | .buffer (text :: texts) =>
            .exit r ((text :: texts).flatten ++ ascii "\n")
          | _ => .astray
        | _ => .astray := by
  unfold convertFile
  rw [show (chosenVars lib env.datadir items).schemaDir
    = chosenDir env.datadir items from rfl, hload]
  dsimp only
  rw [hfile]
  rfl

/-- What the program does with its file, by what its message comes to. -/
theorem convertFile_outcome (items : List (Item UInt8)) {name file : Bytes} {r : Int}
    {all : EdistructAll}
    (hload : loadXmlFiles env.expat ⟨[], [], [], []⟩
      (schemaFiles env.files (chosenDir env.datadir items)) = some (r, all))
    (hfile : env.files name = some file)
    (hcharsets : ∀ enc ∈ (chosenCharsets items).dropLast,
      lib.iconvOpen enc = none) :
    match outcome lib heap (chosenConfig items) all EdiLib.start
        (loadWholeFile env.junk (env.textMode file))
        (chosenCharsets items).getLast? with
    | none => convertFile lib heap env (chosenVars lib env.datadir items) name
        = printed (-1) (openedHeaders lib (chosenCharsets items))
    | some (.document out _) =>
      convertFile lib heap env (chosenVars lib env.datadir items) name
        = printed 0 out.texts
    | some (.refused _ _) | some .astray =>
      convertFile lib heap env (chosenVars lib env.datadir items) name
        = .astray := by
  have hconv : Returns (chosenConfig items)
      (chosenVars lib env.datadir items).g _ _ _ :=
    returns_edi2xmlConv lib heap (chosenConfig items) all
      (chosenVars lib env.datadir items).g
      (loadWholeFile env.junk (env.textMode file))
  rw [convertFile_eq lib heap env items hload hfile,
    ← chosenVars_outcome lib heap (chosenConfig items) all items _ hcharsets]
  have hvars : (chosenVars lib env.datadir items).g.conv
        = descriptorFor lib (chosenCharsets items).getLast? ∧
      (chosenVars lib env.datadir items).g.outbuf
        = .buffer (openedHeaders lib (chosenCharsets items)) ∧
      (chosenVars lib env.datadir items).g.edi = EdiLib.start := ⟨rfl, rfl, rfl⟩
  rw [hvars.1, hvars.2.1, hvars.2.2] at hconv
  cases hparse : messageOutcome lib heap (chosenConfig items) all
      (descriptorFor lib (chosenCharsets items).getLast?)
      (.buffer (openedHeaders lib (chosenCharsets items))) EdiLib.start
      (loadWholeFile env.junk (env.textMode file)) with
  | none =>
    rw [hparse] at hconv
    rw [show Globals.edi2xmlConv _ lib heap (chosenConfig items) all _ = _ from hconv]
    exact printed_buffer _ rfl
  | some o =>
    rw [hparse] at hconv
    cases o with
    | document out offset =>
      obtain ⟨conv, hreturns, -⟩ := hconv
      obtain ⟨ichg, -, hsegs⟩ := Option.map_eq_some_iff.1 hparse
      obtain ⟨more, rfl⟩ := segmentsOutcome_append hsegs
      rw [hreturns]
      exact printed_buffer 0 rfl
    | refused msg offset =>
      rcases hconv with ⟨-, hreturns⟩ | ⟨hpending, -⟩
      · have hcomments : (chosenConfig items).commentsErrors = true := rfl
        rw [if_pos hcomments] at hreturns
        rw [hreturns]
      · exact absurd rfl hpending
    | astray =>
      obtain ⟨c, hcrash, -⟩ := hconv
      rw [hcrash]

/-- `edi2xml_conv2` fails for a message that is not parsed. -/
theorem conv2_fails (opts : Edi2xmlConfig) (all : EdistructAll) (edi : EdiLib)
    (ediText : CString) (enc : Option Bytes)
    (h : outcome lib heap opts all edi ediText enc = none) :
    ∃ g', (Globals.start σ edi).edi2xmlConv2 lib heap opts all ediText enc
      = .returns g' none := by
  have hcall := conv2_refines lib heap opts all (g := Globals.start σ edi)
    (s := ⟨edi, none, 0, []⟩) ⟨rfl, rfl, rfl, rfl⟩ ediText enc
  rw [Session.call] at hcall
  dsimp only at hcall
  rw [h] at hcall
  obtain ⟨g', hrun, -⟩ := hcall
  rw [SessionCall.run] at hrun
  cases hconv : (Globals.start σ edi).edi2xmlConv2 lib heap opts all ediText enc with
  | returns g r =>
    rw [hconv] at hrun
    cases r with
    | none => exact ⟨g, rfl⟩
    | some texts => cases hrun
  | raised g =>
    rw [hconv] at hrun
    cases hrun
  | crashed c =>
    rw [hconv] at hrun
    cases hrun

/-- What the program prints for its file, by what `edi2xml_conv2` gives. -/
theorem convertFile_exit (items : List (Item UInt8)) {name file : Bytes} {r : Int}
    {all : EdistructAll}
    (hload : loadXmlFiles env.expat ⟨[], [], [], []⟩
      (schemaFiles env.files (chosenDir env.datadir items)) = some (r, all))
    (hfile : env.files name = some file)
    (hcharsets : ∀ enc ∈ (chosenCharsets items).dropLast,
      lib.iconvOpen enc = none) :
    (∀ out, convertFile lib heap env (chosenVars lib env.datadir items) name
        = .exit 0 out ↔
      ∃ g' texts, (Globals.start σ EdiLib.start).edi2xmlConv2 lib heap
          (chosenConfig items) all (loadWholeFile env.junk (env.textMode file))
          (chosenCharsets items).getLast? = .returns g' (some texts) ∧
        out = texts.flatten ++ ascii "\n") ∧
    ∀ q out, convertFile lib heap env (chosenVars lib env.datadir items) name
        = .exit q out →
      q = 0 ∨ q = -1 ∧ ∃ g', (Globals.start σ EdiLib.start).edi2xmlConv2 lib heap
        (chosenConfig items) all (loadWholeFile env.junk (env.textMode file))
        (chosenCharsets items).getLast? = .returns g' none := by
  have hfile' := convertFile_outcome lib heap env items hload hfile hcharsets
  have hdocument : ∀ texts, (∃ g', (Globals.start σ EdiLib.start).edi2xmlConv2 lib
      heap (chosenConfig items) all (loadWholeFile env.junk (env.textMode file))
      (chosenCharsets items).getLast? = .returns g' (some texts)) ↔
      texts ≠ [] ∧ (outcome lib heap (chosenConfig items) all EdiLib.start
        (loadWholeFile env.junk (env.textMode file))
        (chosenCharsets items).getLast?).bind Outcome.texts = some texts :=
    conv2_document_iff lib heap (chosenConfig items) all
      (Globals.start σ EdiLib.start) (loadWholeFile env.junk (env.textMode file)) _
  have hnone : ∀ {e : ProgramEnd}, (∀ out, e ≠ .exit 0 out) →
      (outcome lib heap (chosenConfig items) all EdiLib.start
        (loadWholeFile env.junk (env.textMode file))
        (chosenCharsets items).getLast?).bind Outcome.texts = none →
      ∀ out, e = .exit 0 out ↔
        ∃ g' texts, (Globals.start σ EdiLib.start).edi2xmlConv2 lib heap
          (chosenConfig items) all (loadWholeFile env.junk (env.textMode file))
          (chosenCharsets items).getLast? = .returns g' (some texts) ∧
        out = texts.flatten ++ ascii "\n" := by
    intro e hexit htexts out
    refine iff_of_false (hexit out) ?_
    rintro ⟨g', texts, hconv, -⟩
    have hsome := ((hdocument texts).1 ⟨g', hconv⟩).2
    rw [htexts] at hsome
    cases hsome
  cases hout : outcome lib heap (chosenConfig items) all EdiLib.start
      (loadWholeFile env.junk (env.textMode file))
      (chosenCharsets items).getLast? with
  | none =>
    have hfails := conv2_fails lib heap _ all _ _ _ hout
    simp only [hout] at hfile'
    rw [hfile']
    refine ⟨hnone (fun out h => ?_) (by rw [hout]; rfl), fun q out h =>
      Or.inr ⟨(printed_eq_exit.1 h).1.symm, hfails⟩⟩
    exact absurd (printed_eq_exit.1 h).1 (by decide)
  | some o =>
    cases o with
    | astray | refused =>
      simp only [hout] at hfile'
      rw [hfile']
      exact ⟨hnone (fun out h => by cases h) (by rw [hout]; rfl),
        fun q out h => by cases h⟩
    | document more offset =>
      simp only [hout] at hfile' hdocument
      rw [hfile']
      refine ⟨fun out => ?_, fun q out h => Or.inl (printed_eq_exit.1 h).1.symm⟩
      rw [printed_eq_exit]
      constructor
      · rintro ⟨-, hne, rfl⟩
        obtain ⟨g', hconv⟩ := (hdocument more.texts).2 ⟨hne, rfl⟩
        exact ⟨g', more.texts, hconv, rfl⟩
      · rintro ⟨g', texts, hconv, rfl⟩
        obtain ⟨hne, htexts⟩ := (hdocument texts).1 ⟨g', hconv⟩
        obtain rfl := Option.some.inj htexts
        exact ⟨rfl, hne, rfl⟩

/-- The program exits with `0` exactly if `edi2xml_conv2` gives a document for its
file, the charset and the options of the command line, and that is what it has
printed.  The charsets in front of the last one are unknown: each one that is known
would print the first line once more. -/
theorem edi2xmlMain_prints {argv : List Bytes} (hargs : argv.length < 2 ^ 24)
    {items : List (Item UInt8)} {name file : Bytes} {r : Int} {all : EdistructAll}
    (hspelling : Spelling (getoptRules mainOptions) items argv.tail [name])
    (hhelp : ∀ i ∈ items, ¬ ShowsHelp i)
    (hload : loadXmlFiles env.expat ⟨[], [], [], []⟩
      (schemaFiles env.files (chosenDir env.datadir items)) = some (r, all))
    (hfile : env.files name = some file)
    (hcharsets : ∀ enc ∈ (chosenCharsets items).dropLast, lib.iconvOpen enc = none) :
    (∀ out, edi2xmlMain lib heap env argv = .exit 0 out ↔
      ∃ g' texts, (Globals.start σ EdiLib.start).edi2xmlConv2 lib heap
          (chosenConfig items) all (loadWholeFile env.junk (env.textMode file))
          (chosenCharsets items).getLast? = .returns g' (some texts) ∧
        out = texts.flatten ++ ascii "\n") ∧
    ∀ q out, edi2xmlMain lib heap env argv = .exit q out →
      q = 0 ∨ q = -1 ∧ ∃ g', (Globals.start σ EdiLib.start).edi2xmlConv2 lib heap
        (chosenConfig items) all (loadWholeFile env.junk (env.textMode file))
        (chosenCharsets items).getLast? = .returns g' none := by
  rw [edi2xmlMain_spelled lib heap env argv hargs hspelling hhelp]
  exact convertFile_exit lib heap env items hload hfile hcharsets

end Printed

/-! ## A run -/

/-- The files of the small directory, and a message. -/
def sampleFiles : FileSystem := fun name =>
  if name = ascii "d/segs.xml" then (sampleDirectory.files id).segs
  else if name = ascii "d/comps.xml" then (sampleDirectory.files id).comps
  else if name = ascii "d/elems.xml" then (sampleDirectory.files id).elems
  else if name = ascii "d/coded.xml" then (sampleDirectory.files id).coded
  else if name = ascii "m.edi" then some (ascii "UNB+7'UNZ+x'")
  else none

theorem sampleFiles_schema :
    schemaFiles sampleFiles (ascii "d") = sampleDirectory.files id := by
  have hsegs : sampleFiles (concatPath (ascii "d") (ascii "segs.xml"))
      = (sampleDirectory.files id).segs := if_pos (by decide)
  have hcomps : sampleFiles (concatPath (ascii "d") (ascii "comps.xml"))
      = (sampleDirectory.files id).comps :=
    (if_neg (by decide)).trans (if_pos (by decide))
  have helems : sampleFiles (concatPath (ascii "d") (ascii "elems.xml"))
      = (sampleDirectory.files id).elems :=
    (if_neg (by decide)).trans ((if_neg (by decide)).trans (if_pos (by decide)))
  have hcoded : sampleFiles (concatPath (ascii "d") (ascii "coded.xml"))
      = (sampleDirectory.files id).coded :=
    (if_neg (by decide)).trans ((if_neg (by decide)).trans
      ((if_neg (by decide)).trans (if_pos (by decide))))
  rw [schemaFiles, hsegs, hcomps, helems, hcoded]

theorem sampleFiles_message :
    sampleFiles (ascii "m.edi") = some (ascii "UNB+7'UNZ+x'") :=
  (if_neg (by decide)).trans ((if_neg (by decide)).trans
    ((if_neg (by decide)).trans ((if_neg (by decide)).trans
      (if_pos (by decide)))))

/-- The small directory around the program. -/
def sampleEnvironment : Environment where
  files := sampleFiles
  textMode := id
  junk := fun _ => 0
  expat := wholeTexts
  datadir := []

/-- `edi2xml -dSd m.edi` converts its file, and `edi2xml` shows the help. -/
theorem edi2xmlMain_options_sample :
    edi2xmlMain asciiIconv sampleHeap sampleEnvironment
        [ascii "edi2xml", ascii "-dSd", ascii "m.edi"]
      = convertFile asciiIconv sampleHeap sampleEnvironment
          (chosenVars asciiIconv []
            [.flag 'd'.toUInt8, .value 'S'.toUInt8 (ascii "d")]) (ascii "m.edi") ∧
    edi2xmlMain asciiIconv sampleHeap sampleEnvironment [ascii "edi2xml"]
      = .exit 0 helpText := by
  constructor
  · refine (edi2xmlMain_options asciiIconv sampleHeap sampleEnvironment _
      (by decide)).1 _ _ ?_ (List.forall_mem_cons.2 ⟨by decide,
        List.forall_mem_singleton.2 id⟩)
    exact @Spelling.attached _ (getoptRules mainOptions) ['d'.toUInt8] _ _ _ _ _
      (List.forall_mem_singleton.2 (by decide +kernel)) (by decide +kernel)
      (by decide) (.stop (show 'm'.toUInt8 ≠ '-'.toUInt8 by decide))
  · refine (edi2xmlMain_options asciiIconv sampleHeap sampleEnvironment _
      (by decide)).2 ?_
    rintro ⟨items, name, hspelling, -⟩
    have hread := hspelling.read mainOptions_mark
    rw [List.tail_cons, CommandLine.read] at hread
    exact absurd (Prod.mk.inj hread).2 (by simp)

/-- `edi2xml -S d -xASCII m.edi` -/
theorem edi2xmlMain_prints_sample :
    ∃ out events, edi2xmlMain asciiIconv sampleHeap sampleEnvironment
        [ascii "edi2xml", ascii "-S", ascii "d", ascii "-xASCII", ascii "m.edi"]
        = .exit 0 out ∧
      XmlReader.read out = some events ∧
      (XmlReader.leaves events).filter (fun x => isElementName x.1)
        = [(ascii "E:partys_number", ascii "7"),
          (ascii "E:partys_number", ascii "x")] := by
  let items : List (Item UInt8) := [.value 'S'.toUInt8 (ascii "d"),
    .value 'x'.toUInt8 (ascii "ASCII")]
  have hspelling : Spelling (getoptRules mainOptions) items
      (List.tail [ascii "edi2xml", ascii "-S", ascii "d", ascii "-xASCII",
        ascii "m.edi"]) [ascii "m.edi"] :=
    @Spelling.apart _ (getoptRules mainOptions) [] _ _ _ _
      (fun _ h => nomatch h) (by decide +kernel) _
      (@Spelling.attached _ (getoptRules mainOptions) [] _ _ _ _ _
        (fun _ h => nomatch h) (by decide +kernel) (by decide)
        (.stop (show 'm'.toUInt8 ≠ '-'.toUInt8 by decide)))
  have hload : loadXmlFiles sampleEnvironment.expat ⟨[], [], [], []⟩
      (schemaFiles sampleEnvironment.files (chosenDir sampleEnvironment.datadir items))
      = some (0, sampleDirectory.tables) := by
    rw [show chosenDir sampleEnvironment.datadir items = ascii "d" from rfl,
      show sampleEnvironment.files = sampleFiles from rfl, sampleFiles_schema]
    exact sampleDirectory_clean.load keysOrder_id wholeTexts_deliversLines
      sampleDirectory_short ⟨[], [], [], []⟩
  have htexts : ((outcome asciiIconv sampleHeap (chosenConfig items)
      sampleDirectory.tables EdiLib.start
      (loadWholeFile (fun _ => 0) (ascii "UNB+7'UNZ+x'"))
      (chosenCharsets items).getLast?).bind Outcome.texts).map (fun texts =>
        (XmlReader.read (texts.flatten ++ ascii "\n")).map fun events =>
          (XmlReader.leaves events).filter fun x => isElementName x.1)
      = some (some [(ascii "E:partys_number", ascii "7"),
          (ascii "E:partys_number", ascii "x")]) := by
    rw [sampleDirectory_tables]
    decide +kernel
  obtain ⟨texts, houtcome, hread⟩ := Option.map_eq_some_iff.1 htexts
  obtain ⟨events, hevents, hleaves⟩ := Option.map_eq_some_iff.1 hread
  have hne : texts ≠ [] := by
    rintro rfl
    have hnone : XmlReader.read ([].flatten ++ ascii "\n") = none := by decide
    rw [hnone] at hevents
    cases hevents
  obtain ⟨g', hconv⟩ := (conv2_document_iff asciiIconv sampleHeap (chosenConfig items)
    sampleDirectory.tables (Globals.start Unit EdiLib.start) _ _ texts).2
      ⟨hne, houtcome⟩
  exact ⟨_, events, ((edi2xmlMain_prints asciiIconv sampleHeap sampleEnvironment
    (by decide) hspelling (forall_mem_of_all (by decide +kernel)) hload
    sampleFiles_message (fun _ h => nomatch h)).1 _).2 ⟨g', texts, hconv, rfl⟩,
    hevents, hleaves⟩

/-! ## From a directory to what is printed -/

theorem loadWholeFile_bytes (junk : Nat → UInt8) {file : Bytes} (h : 0 ∉ file) :
    (loadWholeFile junk file).bytes = file :=
  List.takeWhile_eq_self_iff.2 fun _ hc =>
    decide_eq_true fun hzero => h (hzero ▸ hc)

theorem CString.map_get (m : CString) : (List.range m.strlen).map m.get = m.bytes := by
  refine List.ext_getElem (by simp [CString.strlen]) fun k hk hk' => ?_
  rw [List.getElem_map, List.getElem_range, CString.get_of_lt hk',
    List.getD_eq_getElem?_getD, List.getElem?_eq_getElem hk', Option.getD_some]

end Libedi
