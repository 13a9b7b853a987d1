import Libedi.Data
import Libedi.Lib.CommandLine

/-!
# `getopt`

`getopt` of `win32/wingetopt.cpp`, and a loop over it.

`getopt` keeps the number of the argument and the place in it from one call to the
next.  `getopt_step` says that a call takes one option off the command line, in the
sense of `CommandLine.read`.  So a loop over `getopt` is a fold over the options
that are read (`whileGetopt_read`), and no argument is read behind its end.
-/

namespace Libedi

open CommandLine (Item Rules)

/-! ## The function -/

/-- The variables that are left from one call to the next. -/
structure GetoptVars where
  optind : Nat
  sp : Nat
  optarg : Option Bytes
  deriving DecidableEq, Repr

/-- The variables when the process starts. -/
def GetoptVars.start : GetoptVars := ⟨1, 1, none⟩

/-- `argv[optind][++sp] == '\0'`, and what is done then.  `behind` are the bytes
behind the letter. -/
def GetoptVars.next (v : GetoptVars) (behind : Bytes) : GetoptVars :=
  if behind = [] then { v with optind := v.optind + 1, sp := 1 }
  else { v with sp := v.sp + 1 }

/-- The letter has a colon behind it in `opts`. -/
def takesValue (opts : Bytes) (c : UInt8) : Bool :=
  (opts.drop (opts.idxOf c + 1)).head? = some ':'.toUInt8

/-- The part of `getopt` behind its first `if`, for the argument `arg`.  It is `none`
if there is no letter left in `arg`. -/
def getoptLetter (argv : List Bytes) (opts : Bytes) (v : GetoptVars)
    (arg : Bytes) : Option (GetoptVars × UInt8) :=
  match arg.drop v.sp with
  | [] => none
  | c :: behind =>
    if c = ':'.toUInt8 ∨ c ∉ opts then some (v.next behind, '?'.toUInt8)
    else if takesValue opts c then
      if behind ≠ [] then some (⟨v.optind + 1, 1, some behind⟩, c)
      else
        match argv[v.optind + 1]? with
        | none => some (⟨v.optind + 1, 1, v.optarg⟩, '?'.toUInt8)
        | some value => some (⟨v.optind + 2, 1, some value⟩, c)
    else some ({ v.next behind with optarg := none }, c)

/-- `getopt`, with `none` for `EOF`.  The result is `none` if it reads behind an
argument. -/
def getopt (argv : List Bytes) (opts : Bytes) (v : GetoptVars) :
    Option (GetoptVars × Option UInt8) :=
  match argv[v.optind]? with
  | none => if v.sp = 1 then some (v, none) else none
  | some arg =>
    let letter := (getoptLetter argv opts v arg).map (Prod.map id some)
    if v.sp = 1 then
      match arg with
      | m :: _ :: _ =>
        if m ≠ '-'.toUInt8 then some (v, none)
        else if arg = ascii "--" then
          some ({ v with optind := v.optind + 1 }, none)
        else letter
      | _ => some (v, none)
    else letter

/-! ## A loop over it -/

theorem getoptLetter_optind {argv : List Bytes} {opts : Bytes} {v v' : GetoptVars}
    {arg : Bytes} {ch : UInt8}
    (h : getoptLetter argv opts v arg = some (v', ch)) :
    v.optind < v'.optind ∨
      v'.optind = v.optind ∧ v.sp < v'.sp ∧ v.sp < arg.length := by
  have hnext : ∀ c behind, arg.drop v.sp = c :: behind →
      v.optind < (v.next behind).optind ∨ (v.next behind).optind = v.optind ∧
        v.sp < (v.next behind).sp ∧ v.sp < arg.length := by
    intro c behind hdrop
    have hlen := congrArg List.length hdrop
    rw [List.length_drop, List.length_cons] at hlen
    unfold GetoptVars.next
    split_ifs
    · exact Or.inl (Nat.lt_succ_self _)
    · exact Or.inr ⟨rfl, Nat.lt_succ_self _, by omega⟩
  unfold getoptLetter at h
  split at h
  · cases h
  · next c behind hdrop =>
    split_ifs at h with hunknown hvalue hbehind
    · obtain ⟨rfl, -⟩ := Prod.mk.inj (Option.some.inj h)
      exact hnext c behind hdrop
    · obtain ⟨rfl, -⟩ := Prod.mk.inj (Option.some.inj h)
      exact Or.inl (Nat.lt_succ_self _)
    · split at h
      · obtain ⟨rfl, -⟩ := Prod.mk.inj (Option.some.inj h)
        exact Or.inl (Nat.lt_succ_self _)
      · obtain ⟨rfl, -⟩ := Prod.mk.inj (Option.some.inj h)
        exact Or.inl (by show v.optind < v.optind + 2; omega)
    · obtain ⟨rfl, -⟩ := Prod.mk.inj (Option.some.inj h)
      exact hnext c behind hdrop

/-- A call that finds an option has used up some of the command line. -/
theorem getopt_optind {argv : List Bytes} {opts : Bytes} {v v' : GetoptVars}
    {ch : UInt8} (h : getopt argv opts v = some (v', some ch)) :
    v.optind < argv.length ∧ (v.optind < v'.optind ∨
      v'.optind = v.optind ∧ v.sp < v'.sp ∧
        v.sp < (argv.getD v.optind []).length) := by
  unfold getopt at h
  cases harg : argv[v.optind]? with
  | none =>
    rw [harg] at h
    dsimp only at h
    split_ifs at h
    cases h
  | some arg =>
    have hletter : (getoptLetter argv opts v arg).map (Prod.map id some)
        = some (v', some ch) := by
      rw [harg] at h
      dsimp only at h
      split at h
      · split at h
        · split at h
          · cases h
          · split at h
            · cases h
            · exact h
        · cases h
      · exact h
    obtain ⟨⟨v'', ch'⟩, hsome, heq⟩ := Option.map_eq_some_iff.1 hletter
    obtain ⟨rfl, -⟩ := Prod.mk.inj heq
    have hlt := (List.getElem?_eq_some_iff.1 harg).1
    rw [List.getD_eq_getElem?_getD, harg]
    exact ⟨hlt, getoptLetter_optind hsome⟩

/-- `while((ch = getopt(argc, argv, opts)) != -1) body`, where the body may leave the
loop. -/
def whileGetopt {σ ε : Type} (argv : List Bytes) (opts : Bytes)
    (body : σ → UInt8 → Option Bytes → Except ε σ) (v : GetoptVars) (s : σ) :
    Option (Except ε (GetoptVars × σ)) :=
  match _h : getopt argv opts v with
  | none => none
  | some (v, none) => some (.ok (v, s))
  | some (v, some ch) =>
    match body s ch v.optarg with
    | .error e => some (.error e)
    | .ok s => whileGetopt argv opts body v s
termination_by (argv.length - v.optind, (argv.getD v.optind []).length - v.sp)
decreasing_by
  obtain ⟨hlt, hless | ⟨hsame, hsp, hlen⟩⟩ := getopt_optind _h
  · exact Prod.Lex.left _ _ (by omega)
  · rw [hsame]
    exact Prod.Lex.right _ (by omega)

/-! ## What is read -/

/-- The options that `opts` has. -/
def getoptRules (opts : Bytes) : Rules UInt8 where
  mark := '-'.toUInt8
  kind c :=
    if c = ':'.toUInt8 ∨ c ∉ opts then none
    else if takesValue opts c then some .value
    else some .flag

/-- What `getopt` returns for an option. -/
def optionLetter : Item UInt8 → UInt8
  | .flag c | .value c _ => c
  | .unknown _ | .lacking _ => '?'.toUInt8

/-- `optarg` for an option. -/
def optionValue : Item UInt8 → Option Bytes
  | .value _ arg => some arg
  | _ => none

section Step

variable {argv : List Bytes}

/-- The variables stand in front of these letters and arguments. -/
inductive GetoptVars.At (argv : List Bytes) :
    GetoptVars → Bytes → List Bytes → Prop where
  | argument (optind : Nat) (optarg : Option Bytes) :
    At argv ⟨optind, 1, optarg⟩ [] (argv.drop optind)
  | letters {optind sp : Nat} {arg : Bytes} (harg : argv[optind]? = some arg)
      (hsp : 1 < sp) (hlt : sp < arg.length) (optarg : Option Bytes) :
    At argv ⟨optind, sp, optarg⟩ (arg.drop sp) (argv.drop (optind + 1))

/-- A call of `getopt` that ends in this way takes an option off the command line. -/
def TakesOption (argv : List Bytes) (opts letters : Bytes) (args : List Bytes)
    (v' : GetoptVars) (ch : UInt8) : Prop :=
  ∃ item letters' args', v'.At argv letters' args' ∧
    CommandLine.read (getoptRules opts) letters args
      = Prod.map (item :: ·) id
          (CommandLine.read (getoptRules opts) letters' args') ∧
    ch = optionLetter item ∧ (ch = '?'.toUInt8 ∨ v'.optarg = optionValue item)

variable (opts : Bytes)

theorem GetoptVars.at_next {v : GetoptVars} {arg behind : Bytes} {c : UInt8}
    (harg : argv[v.optind]? = some arg) (hsp : 1 ≤ v.sp)
    (hdrop : arg.drop v.sp = c :: behind) (optarg : Option Bytes) :
    GetoptVars.At argv { v.next behind with optarg := optarg } behind
      (argv.drop (v.optind + 1)) := by
  have hlen := congrArg List.length hdrop
  rw [List.length_drop, List.length_cons] at hlen
  unfold GetoptVars.next
  split_ifs with hbehind
  · subst hbehind
    exact .argument (v.optind + 1) optarg
  · have hpos := List.length_pos_iff.2 hbehind
    have hrest : arg.drop (v.sp + 1) = behind := by
      rw [← List.drop_drop, hdrop]
      rfl
    rw [← hrest]
    exact .letters harg (show 1 < v.sp + 1 by omega)
      (show v.sp + 1 < arg.length by omega) optarg

theorem getoptLetter_step {v : GetoptVars} {arg : Bytes}
    (harg : argv[v.optind]? = some arg) (hsp : 1 ≤ v.sp)
    (hlt : v.sp < arg.length) :
    ∃ v' ch, getoptLetter argv opts v arg = some (v', ch) ∧
      TakesOption argv opts (arg.drop v.sp) (argv.drop (v.optind + 1)) v' ch := by
  obtain ⟨c, behind, hdrop⟩ := List.exists_cons_of_length_pos
    (l := arg.drop v.sp) (by rw [List.length_drop]; omega)
  have hat := GetoptVars.at_next harg hsp hdrop
  unfold getoptLetter
  rw [hdrop]
  dsimp only
  by_cases hunknown : c = ':'.toUInt8 ∨ c ∉ opts
  · rw [if_pos hunknown]
    refine ⟨_, _, rfl, .unknown c, _, _, hat (v.next behind).optarg, ?_, rfl,
      Or.inl rfl⟩
    exact CommandLine.read_unknown (if_pos hunknown) behind _
  rw [if_neg hunknown]
  cases hvalue : takesValue opts c with
  | false =>
    have hkind : (getoptRules opts).kind c = some .flag := by
      simp [getoptRules, hunknown, hvalue]
    rw [if_neg (by simp)]
    exact ⟨_, _, rfl, .flag c, _, _, hat none, CommandLine.read_flag hkind behind _,
      rfl, Or.inr rfl⟩
  | true =>
    have hkind : (getoptRules opts).kind c = some .value := by
      simp [getoptRules, hunknown, hvalue]
    rw [if_pos rfl]
    by_cases hbehind : behind ≠ []
    · rw [if_pos hbehind]
      exact ⟨_, _, rfl, .value c behind, _, _, .argument _ _,
        CommandLine.read_attached hkind hbehind _, rfl, Or.inr rfl⟩
    · rw [if_neg hbehind]
      obtain rfl := not_not.1 hbehind
      cases hnext : argv[v.optind + 1]? with
      | none =>
        have hnil : argv.drop (v.optind + 1) = [] :=
          List.drop_eq_nil_of_le (List.getElem?_eq_none_iff.1 hnext)
        refine ⟨_, _, rfl, .lacking c, _, _, .argument _ _, ?_, rfl, Or.inl rfl⟩
        rw [hnil, CommandLine.read_lacking hkind,
          CommandLine.read_stops (show (getoptRules opts).Stops [] from trivial)]
        rfl
      | some value =>
        have hcons : argv.drop (v.optind + 1)
            = value :: argv.drop (v.optind + 2) := by
          obtain ⟨hlt', hget⟩ := List.getElem?_eq_some_iff.1 hnext
          rw [List.drop_eq_getElem_cons hlt', hget]
        refine ⟨_, _, rfl, .value c value, _, _, .argument _ _, ?_, rfl,
          Or.inr rfl⟩
        rw [hcons]
        exact CommandLine.read_apart hkind value _

/-- A call of `getopt` finds the end of the options, or takes one of them. -/
theorem getopt_step {v : GetoptVars} {letters : Bytes} {args : List Bytes}
    (hv : v.At argv letters args) :
    (∃ v', getopt argv opts v = some (v', none) ∧
      CommandLine.read (getoptRules opts) letters args
        = ([], argv.drop v'.optind)) ∨
    ∃ v' ch, getopt argv opts v = some (v', some ch) ∧
      TakesOption argv opts letters args v' ch := by
  cases hv with
  | @letters optind sp arg harg hsp hlt optarg =>
    obtain ⟨v', ch, hletter, htakes⟩ := getoptLetter_step opts
      (v := ⟨optind, sp, optarg⟩) harg (Nat.le_of_lt hsp) hlt
    refine Or.inr ⟨v', ch, ?_, htakes⟩
    unfold getopt
    dsimp only
    rw [harg]
    dsimp only
    rw [if_neg (by omega), hletter]
    rfl
  | argument optind optarg =>
    have hstop : (getoptRules opts).Stops (argv.drop optind) →
        CommandLine.read (getoptRules opts) [] (argv.drop optind)
          = ([], argv.drop optind) := CommandLine.read_stops
    unfold getopt
    dsimp only
    cases harg : argv[optind]? with
    | none =>
      have hnil : argv.drop optind = [] :=
        List.drop_eq_nil_of_le (List.getElem?_eq_none_iff.1 harg)
      exact Or.inl ⟨_, if_pos rfl, hstop (by rw [hnil]; trivial)⟩
    | some arg =>
      have hcons : argv.drop optind = arg :: argv.drop (optind + 1) := by
        obtain ⟨hlt, hget⟩ := List.getElem?_eq_some_iff.1 harg
        rw [List.drop_eq_getElem_cons hlt, hget]
      dsimp only
      rw [if_pos rfl]
      match arg with
      | [] => exact Or.inl ⟨_, rfl, hstop (by rw [hcons]; trivial)⟩
      | [m] => exact Or.inl ⟨_, rfl, hstop (by rw [hcons]; trivial)⟩
      | m :: c :: cs =>
        dsimp only
        by_cases hm : m = '-'.toUInt8
        · subst hm
          rw [if_neg (fun hne => hne rfl)]
          by_cases hmarks : c = '-'.toUInt8 ∧ cs = []
          · obtain ⟨rfl, rfl⟩ := hmarks
            refine Or.inl ⟨_, if_pos (by decide), ?_⟩
            rw [hcons]
            exact CommandLine.read_marks _
          · rw [if_neg (by
              intro heq
              obtain ⟨-, hrest⟩ := List.cons.inj heq
              obtain ⟨rfl, rfl⟩ := List.cons.inj hrest
              exact hmarks ⟨rfl, rfl⟩)]
            obtain ⟨v', ch, hletter, htakes⟩ := getoptLetter_step opts
              (v := ⟨optind, 1, optarg⟩) harg (Nat.le_refl 1)
              (by simp)
            refine Or.inr ⟨v', ch, by rw [hletter]; rfl, ?_⟩
            obtain ⟨item, letters', args', hat, hread, hrest⟩ := htakes
            refine ⟨item, letters', args', hat, ?_, hrest⟩
            rw [hcons]
            exact (CommandLine.read_letters hmarks _).trans hread
        · rw [if_pos hm]
          exact Or.inl ⟨_, rfl, hstop (by rw [hcons]; exact hm)⟩

/-- A loop over `getopt` is a fold over the options of the command line, and `optind`
is at the arguments behind them in the end. -/
theorem whileGetopt_at {σ ε : Type} {body : σ → UInt8 → Option Bytes → Except ε σ}
    (hbody : ∀ s a b, body s '?'.toUInt8 a = body s '?'.toUInt8 b)
    {v : GetoptVars} {letters : Bytes} {args : List Bytes}
    (hv : v.At argv letters args) (s : σ) :
    ∃ r, whileGetopt argv opts body v s = some r ∧
      r.map (Prod.map (fun v => argv.drop v.optind) id)
        = ((CommandLine.read (getoptRules opts) letters args).1.foldlM
            (fun s item => body s (optionLetter item) (optionValue item)) s).map
          fun s => ((CommandLine.read (getoptRules opts) letters args).2, s) := by
  fun_induction whileGetopt argv opts body v s generalizing letters args with
  | case1 v s hgetopt =>
    rcases getopt_step opts hv with ⟨v', h, -⟩ | ⟨v', ch, h, -⟩
    · rw [hgetopt] at h
      cases h
    · rw [hgetopt] at h
      cases h
  | case2 v s v' hgetopt =>
    rcases getopt_step opts hv with ⟨v'', h, hread⟩ | ⟨v'', ch, h, -⟩
    · rw [hgetopt] at h
      cases h
      exact ⟨_, rfl, by rw [hread]; rfl⟩
    · rw [hgetopt] at h
      cases h
  | case3 v s v' ch hgetopt e hstop =>
    rcases getopt_step opts hv with ⟨v'', h, -⟩ | ⟨v'', ch', h, htakes⟩
    · rw [hgetopt] at h
      cases h
    · rw [hgetopt] at h
      cases h
      obtain ⟨item, letters', args', -, hread, rfl, harg⟩ := htakes
      have hstep : body s (optionLetter item) (optionValue item) = .error e := by
        rcases harg with hquery | harg
        · rw [hquery] at hstop ⊢
          rw [← hstop]
          exact hbody s _ _
        · rw [← harg, hstop]
      refine ⟨_, rfl, ?_⟩
      rw [hread, Prod.map_fst, List.foldlM_cons, hstep]
      rfl
  | case4 v s v' ch hgetopt s' hgoes ih =>
    rcases getopt_step opts hv with ⟨v'', h, -⟩ | ⟨v'', ch', h, htakes⟩
    · rw [hgetopt] at h
      cases h
    · rw [hgetopt] at h
      cases h
      obtain ⟨item, letters', args', hat, hread, rfl, harg⟩ := htakes
      have hstep : body s (optionLetter item) (optionValue item) = .ok s' := by
        rcases harg with hquery | harg
        · rw [hquery] at hgoes ⊢
          rw [← hgoes]
          exact hbody s _ _
        · rw [← harg, hgoes]
      obtain ⟨r, hr, hmap⟩ := ih hat
      refine ⟨r, hr, ?_⟩
      rw [hread, hmap, Prod.map_fst, Prod.map_snd, List.foldlM_cons, hstep]
      rfl

end Step

/-- The same from the start of the process. -/
theorem whileGetopt_read {σ ε : Type} {body : σ → UInt8 → Option Bytes → Except ε σ}
    (hbody : ∀ s a b, body s '?'.toUInt8 a = body s '?'.toUInt8 b)
    (argv : List Bytes) (opts : Bytes) (s : σ) :
    ∃ r, whileGetopt argv opts body .start s = some r ∧
      r.map (Prod.map (fun v => argv.drop v.optind) id)
        = ((CommandLine.read (getoptRules opts) [] argv.tail).1.foldlM
            (fun s item => body s (optionLetter item) (optionValue item)) s).map
          fun s => ((CommandLine.read (getoptRules opts) [] argv.tail).2, s) := by
  rw [← List.drop_one]
  exact whileGetopt_at opts hbody (.argument 1 none) s

end Libedi
