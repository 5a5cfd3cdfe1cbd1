import Pipewright.Command
import Mathlib.Control.Monad.Basic

/-!
# Layers of options

To read arguments on top of options is to read them alone and to merge what they
say, and merging is associative. So it does not matter where a list of arguments is
cut: the words of the environment are read in one go, those of the command line one
by one, and the options are those of the one list (`Command.options_layered`). Only
the pairs that name a file take no part.
-/

namespace Pipewright

namespace BuildOptions

/-! ## Merging -/

theorem merge_empty (o : BuildOptions) : o.merge {} = o := by
  cases o
  simp [merge]

theorem empty_merge (o : BuildOptions) : merge {} o = o := by
  obtain ⟨c, l, p⟩ := o
  cases c <;> cases l <;> rfl

theorem merge_assoc (x y z : BuildOptions) : (x.merge y).merge z = x.merge (y.merge z) := by
  obtain ⟨c, l, p⟩ := z
  cases c <;> cases l <;> simp [merge, Bool.or_assoc]

/-! ## Reading -/

theorem read_eq (o : BuildOptions) (arg : String) : o.read arg = o.merge <$> read {} arg := by
  unfold read
  cases hlang : after? "--lang=".toList arg.toList with
  | some name =>
    cases hl : Language.ofText (String.ofList name) with
    | error e => simp only [hl]; rfl
    | ok l =>
      simp only [hl]
      exact congrArg Except.ok (by simp [merge])
  | none =>
    cases hclass : after? "--class=".toList arg.toList with
    | some name =>
      by_cases hblank : name.all isBlank = true
      · simp only [hblank, if_true]; rfl
      · simp only [hblank, Bool.false_eq_true, if_false]
        exact congrArg Except.ok (by simp [merge])
    | none =>
      refine congrArg Except.ok ?_
      by_cases hpreview : arg = "--previz"
      · simp [hpreview, merge]
      · simp [hpreview, merge_empty]

/-- Reading on top of options is merging with what is read alone. -/
theorem foldlM_read (o : BuildOptions) (args : List String) :
    args.foldlM read o = o.merge <$> ofArguments args := by
  induction args generalizing o with
  | nil => exact congrArg Except.ok (merge_empty o).symm
  | cons arg args ih =>
    unfold ofArguments
    rw [List.foldlM_cons, List.foldlM_cons, read_eq]
    cases read {} arg with
    | error e => rfl
    | ok x =>
      change args.foldlM read (o.merge x) = o.merge <$> args.foldlM read x
      rw [ih, ih]
      cases ofArguments args with
      | error e => rfl
      | ok y => exact congrArg Except.ok (merge_assoc o x y)

theorem ofArguments_append (a b : List String) : ofArguments (a ++ b) = do
    let x ← ofArguments a
    let y ← ofArguments b
    return x.merge y := by
  have hsplit : ofArguments (a ++ b) = ofArguments a >>= fun x => b.foldlM read x := List.foldlM_append
  rw [hsplit]
  refine bind_congr fun x => ?_
  rw [foldlM_read]
  rfl

theorem ofArguments_cons_ok {arg : String} {x : BuildOptions} (h : ofArguments [arg] = .ok x) (args : List String) :
    ofArguments (arg :: args) = x.merge <$> ofArguments args := by
  rw [← List.singleton_append, ofArguments_append, h]
  rfl

theorem ofArguments_cons_error {arg : String} {e : OptionsError} (h : ofArguments [arg] = .error e)
    (args : List String) : ofArguments (arg :: args) = .error e := by
  rw [← List.singleton_append, ofArguments_append, h]
  rfl

/-- The first argument that is an error counts. -/
theorem ofArguments_eq_error_iff {args : List String} {e : OptionsError} :
    ofArguments args = .error e ↔ ∃ front arg behind, args = front ++ arg :: behind ∧
      (∀ other ∈ front, ∃ o, ofArguments [other] = .ok o) ∧ ofArguments [arg] = .error e := by
  induction args with
  | nil => exact iff_of_false (fun h => nomatch h) (by simp)
  | cons a args ih =>
    cases ha : ofArguments [a] with
    | error e' =>
      rw [ofArguments_cons_error ha]
      constructor
      · rintro ⟨⟩
        exact ⟨[], a, args, rfl, by simp, ha⟩
      · rintro ⟨front, arg, behind, hargs, hfront, harg⟩
        cases front with
        | nil =>
          obtain ⟨rfl, -⟩ := List.cons.inj hargs
          exact ha.symm.trans harg
        | cons other front =>
          obtain ⟨rfl, -⟩ := List.cons.inj hargs
          obtain ⟨o, ho⟩ := hfront a List.mem_cons_self
          rw [ha] at ho
          cases ho
    | ok x =>
      have hrest : ofArguments (a :: args) = .error e ↔ ofArguments args = .error e := by
        rw [ofArguments_cons_ok ha]
        cases ofArguments args with
        | error e' => rfl
        | ok y => exact iff_of_false (fun h => nomatch h) fun h => nomatch h
      rw [hrest, ih]
      constructor
      · rintro ⟨front, arg, behind, rfl, hfront, harg⟩
        exact ⟨a :: front, arg, behind, rfl, List.forall_mem_cons.mpr ⟨⟨x, ha⟩, hfront⟩, harg⟩
      · rintro ⟨front, arg, behind, hargs, hfront, harg⟩
        cases front with
        | nil =>
          obtain ⟨rfl, -⟩ := List.cons.inj hargs
          rw [ha] at harg
          cases harg
        | cons other front =>
          obtain ⟨rfl, rfl⟩ := List.cons.inj hargs
          exact ⟨front, arg, behind, rfl, (List.forall_mem_cons.mp hfront).2, harg⟩

end BuildOptions

namespace Command

open BuildOptions

/-! ## The arguments of the command line -/

/-- The arguments without each `-o` that has one behind it, and without that one. -/
def optionArguments : List String → List String
  | "-o" :: _ :: rest => optionArguments rest
  | arg :: rest => arg :: optionArguments rest
  | [] => []

def outputPath : List String → Option String
  | "-o" :: path :: rest => outputPath rest <|> some path
  | _ :: rest => outputPath rest
  | [] => none

def environmentWords : Option String → List String
  | none => []
  | some text => words isBlank text

def saysNothing (arg : String) : Bool :=
  match ofArguments [arg] with
  | .ok o => o = {}
  | .error _ => false

def warnings (args : List String) : String :=
  String.join ((args.filter saysNothing).map warning)

theorem warnings_append (a b : List String) : warnings (a ++ b) = warnings a ++ warnings b := by
  rw [warnings, List.filter_append, List.map_append, String.join_append]
  rfl

theorem warnings_cons {arg : String} {o : BuildOptions} (h : ofArguments [arg] = .ok o) (args : List String) :
    warnings (arg :: args) = (if o = {} then warning arg else "") ++ warnings args := by
  rw [← List.singleton_append, warnings_append]
  congr 1
  by_cases ho : o = {} <;> simp [warnings, saysNothing, h, ho]

/-- What reading arguments on top of a request comes to, by what they say without the pairs. An error comes with the
warnings about some arguments in front of it. -/
inductive ReadsAs (args : List String) (r : Request) :
    Except OptionsError BuildOptions → Except (String × OptionsError) Request → Prop
  | ok (o : BuildOptions) : ReadsAs args r (.ok o) (.ok
      { options := r.options.merge o, output := outputPath args <|> r.output
        warnings := r.warnings ++ warnings (optionArguments args) })
  | error (e : OptionsError) {front : List String} (hfront : front <+: optionArguments args) :
      ReadsAs args r (.error e) (.error (r.warnings ++ warnings front, e))

/-- An argument that is no such pair is read on its own. -/
theorem ReadsAs.cons {arg : String} {rest : List String} {r : Request} {x : BuildOptions}
    {said : Except OptionsError BuildOptions} {result : Except (String × OptionsError) Request}
    (hsingle : optionArguments (arg :: rest) = arg :: optionArguments rest)
    (houtput : outputPath (arg :: rest) = outputPath rest) (hx : ofArguments [arg] = .ok x)
    (h : ReadsAs rest ⟨r.options.merge x, r.output, r.warnings ++ if x = {} then warning arg else ""⟩ said result) :
    ReadsAs (arg :: rest) r (x.merge <$> said) result := by
  have hwarnings : ∀ front, r.warnings ++ warnings (arg :: front) =
      (r.warnings ++ if x = {} then warning arg else "") ++ warnings front := by
    intro front
    rw [warnings_cons hx, String.append_assoc]
  cases h with
  | ok o =>
    have hdone : ReadsAs (arg :: rest) r _ _ := .ok (x.merge o)
    rwa [hsingle, hwarnings, houtput, ← merge_assoc] at hdone
  | error e hfront =>
    rw [← hwarnings]
    refine .error e ?_
    rw [hsingle]
    exact (List.prefix_cons_inj arg).mpr hfront

theorem ReadsAs.pair {path : String} {rest : List String} {r : Request} {said : Except OptionsError BuildOptions}
    {result : Except (String × OptionsError) Request} (h : ReadsAs rest { r with output := some path } said result) :
    ReadsAs ("-o" :: path :: rest) r said result := by
  cases h with
  | ok o =>
    have hdone : ReadsAs ("-o" :: path :: rest) r _ _ := .ok o
    have hlast : (outputPath ("-o" :: path :: rest) <|> r.output) = (outputPath rest <|> some path) := by
      rw [outputPath]
      cases outputPath rest <;> rfl
    rwa [hlast] at hdone
  | error e hfront =>
    refine ReadsAs.error e ?_
    exact hfront

theorem readArguments_reads (args : List String) (r : Request) :
    ReadsAs args r (ofArguments (optionArguments args)) (readArguments args r) := by
  have hnone : warnings [] = "" := rfl
  fun_induction readArguments args r with
  | case1 r =>
    have hrequest : (Except.ok r : Except (String × OptionsError) Request) = .ok
        { options := r.options.merge {}, output := outputPath [] <|> r.output, warnings := r.warnings ++ warnings [] } := by
      rw [merge_empty, hnone, String.append_empty]
      rfl
    rw [hrequest]
    exact .ok {}
  | case2 path rest r ih => exact ReadsAs.pair ih
  | case3 arg rest r hpair e he =>
    have hfirst : ReadsAs (arg :: rest) r (.error e) (.error (r.warnings ++ warnings [], e)) :=
      .error e (List.nil_prefix)
    rw [optionArguments.eq_2 _ _ hpair, ofArguments_cons_error he]
    rwa [hnone, String.append_empty] at hfirst
  | case4 arg rest r hpair hsaid ih =>
    have hsingle := optionArguments.eq_2 _ _ hpair
    rw [hsingle, ofArguments_cons_ok hsaid]
    refine .cons hsingle (outputPath.eq_2 _ _ hpair) hsaid ?_
    rw [merge_empty, if_pos rfl]
    exact ih
  | case5 arg rest r hpair options hsaid hsome ih =>
    have hsingle := optionArguments.eq_2 _ _ hpair
    rw [hsingle, ofArguments_cons_ok hsaid]
    refine .cons hsingle (outputPath.eq_2 _ _ hpair) hsaid ?_
    rw [if_neg hsome, String.append_empty]
    exact ih

/-! ## Reports -/

def Reports (args : List String) (e : OptionsError) (report : String) : Prop :=
  report = errorLine s!"{optionsVariable}: {e.message}" ∨
    ∃ front, front <+: args ∧ report = warnings front ++ errorLine e.message

def Rejects (args : List String) (e : OptionsError) (run : Run) : Prop :=
  ∃ report, Reports args e report ∧ run = .exit { stderr := report, status := 1 }

theorem head?_append {a : String} {c : Char} (h : a.toList.head? = some c) (b : String) :
    (a ++ b).toList.head? = some c := by
  rw [String.toList_append, List.head?_append, h]
  rfl

theorem head?_optionMessage (e : OptionsError) :
    e.message.toList.head? = some 'i' ∨ e.message.toList.head? = some '-' := by
  cases e with
  | language cause => exact .inl (head?_append (a := "invalid --lang: ") (by decide +kernel) _)
  | emptyClassName => exact .inr (by decide +kernel)

theorem head?_buildMessage (b : BuildError) : b.message.toList.head? = some 'c' :=
  head?_append (head?_append (head?_append (a := "code generation failed during ") (by decide +kernel) _) _) _

theorem head?_environmentMessage (message : String) : s!"{optionsVariable}: {message}".toList.head? = some 'V' :=
  head?_append (head?_append (a := optionsVariable) (by decide +kernel) _) _

theorem errorLine_inj {message other : String} (h : errorLine message = errorLine other) : message = other := by
  change "error: " ++ message ++ "\n" = "error: " ++ other ++ "\n" at h
  rwa [String.append_left_inj, String.append_right_inj] at h

theorem head?_errorLine (message : String) : (errorLine message).toList.head? = some 'e' :=
  head?_append (head?_append (a := "error: ") (by decide +kernel) _) _

theorem head?_warning (arg : String) : (warning arg).toList.head? = some 'w' :=
  head?_append (head?_append (a := "warning: ignoring unknown option '") (by decide +kernel) _) _

/-- Behind warnings there is no other error line than the one. -/
theorem message_eq_of_errorLine {args : List String} {message other : String}
    (h : warnings args ++ errorLine message = errorLine other) : message = other := by
  cases hargs : args.filter saysNothing with
  | nil =>
    have hnone : warnings args = "" := by rw [warnings, hargs]; rfl
    rw [hnone, String.empty_append] at h
    exact errorLine_inj h
  | cons arg rest =>
    have hwarning : (errorLine other).toList.head? = some 'w' := by
      rw [← h, warnings, hargs, List.map_cons, String.join_cons]
      exact head?_append (head?_append (head?_warning arg) _) _
    rw [head?_errorLine] at hwarning
    exact absurd hwarning (by decide)

theorem not_reports_build {args : List String} {e : OptionsError} {b : BuildError} :
    ¬ Reports args e (warnings args ++ errorLine b.message) := by
  have hhead := head?_buildMessage b
  rintro (h | ⟨front, ⟨behind, rfl⟩, h⟩)
  · rw [message_eq_of_errorLine h, head?_environmentMessage] at hhead
    exact absurd hhead (by decide)
  · rw [warnings_append, String.append_assoc, String.append_right_inj] at h
    rw [message_eq_of_errorLine h] at hhead
    rcases head?_optionMessage e with he | he
    · rw [he] at hhead
      exact absurd hhead (by decide)
    · rw [he] at hhead
      exact absurd hhead (by decide)

/-- What comes of generating with options is no report of an error in options. -/
theorem not_rejects_generate {args : List String} {r : Request} (hr : r.warnings = warnings args) (e : OptionsError) :
    ¬ Rejects args e (generate r) := by
  rintro ⟨report, hreport, h⟩
  unfold generate at h
  cases hdemo : Nodes.buildDemo r.options with
  | error b =>
    simp only [hdemo, Run.exit.injEq, Outcome.mk.injEq] at h
    obtain ⟨-, rfl, -⟩ := h
    rw [hr] at hreport
    exact not_reports_build hreport
  | ok b =>
    have hstatus : exitStatus (some b) ≠ 1 := by
      change (if b.hasUnresolved then 2 else 0) ≠ 1
      split <;> decide
    cases houtput : r.output with
    | none =>
      simp only [hdemo, houtput, Run.exit.injEq, Outcome.mk.injEq] at h
      exact hstatus h.2.2
    | some path => simp [hdemo, houtput] at h

/-! ## The program -/

theorem environmentOptions_eq (environment : Option String) :
    environmentOptions environment = ofArguments (environmentWords environment) := by
  cases environment <;> rfl

theorem runGenerate_eq (args : List String) (environment : Option String) :
    match ofArguments (environmentWords environment ++ optionArguments args) with
    | .ok options => runGenerate args environment = generate
        { options, output := outputPath args, warnings := warnings (optionArguments args) }
    | .error e => Rejects (optionArguments args) e (runGenerate args environment) := by
  unfold runGenerate
  rw [environmentOptions_eq, ofArguments_append]
  cases ofArguments (environmentWords environment) with
  | error e => exact ⟨_, .inl rfl, rfl⟩
  | ok o =>
    have hreads := readArguments_reads args { options := o }
    dsimp only
    generalize ofArguments (optionArguments args) = said at hreads ⊢
    generalize readArguments args { options := o } = result at hreads ⊢
    cases hreads with
    | ok x =>
      have hpath : (outputPath args <|> none) = outputPath args := by cases outputPath args <;> rfl
      change generate { options := o.merge x, output := outputPath args <|> none, warnings := _ } = generate _
      rw [hpath, String.empty_append]
    | error e hfront => exact ⟨_, .inr ⟨_, hfront, rfl⟩, by rw [String.empty_append]⟩

/-- Options are read as one list, wherever it is cut. A run of `generate` works with what the words of the environment
and then the arguments say, those that name a file apart, and it reports an option error just if there is one in these. -/
theorem options_layered :
    (∀ a b, ofArguments (a ++ b) = do
      let x ← ofArguments a
      let y ← ofArguments b
      return x.merge y) ∧
    (∀ args e, ofArguments args = .error e ↔ ∃ front arg behind, args = front ++ arg :: behind ∧
      (∀ other ∈ front, ∃ o, ofArguments [other] = .ok o) ∧ ofArguments [arg] = .error e) ∧
    (∀ x y z : BuildOptions, (x.merge y).merge z = x.merge (y.merge z)) ∧
    (∀ o : BuildOptions, merge {} o = o ∧ o.merge {} = o) ∧
    ∀ args environment,
      let given := ofArguments (environmentWords environment ++ optionArguments args)
      let run := run ("generate" :: args) environment
      (match given with
        | .ok options => run = generate
            { options, output := outputPath args, warnings := warnings (optionArguments args) }
        | .error e => Rejects (optionArguments args) e run) ∧
      ((∃ e, Rejects (optionArguments args) e run) ↔ ∃ e, given = .error e) ∧
      Command.run ("gen" :: args) environment = run := by
  refine ⟨ofArguments_append, fun _ _ => ofArguments_eq_error_iff, merge_assoc,
    fun o => ⟨empty_merge o, merge_empty o⟩, fun args environment => ?_⟩
  intro given run
  have hgen : Command.run ("gen" :: args) environment = run := rfl
  have hcases : match given with
      | .ok options => run = generate
          { options, output := outputPath args, warnings := warnings (optionArguments args) }
      | .error e => Rejects (optionArguments args) e run := runGenerate_eq args environment
  clear_value given
  refine ⟨hcases, ?_, hgen⟩
  cases given with
  | error e => exact ⟨fun _ => ⟨e, rfl⟩, fun _ => ⟨e, hcases⟩⟩
  | ok options =>
    refine iff_of_false ?_ fun h => nomatch h
    rintro ⟨e, he⟩
    dsimp only at hcases
    rw [hcases] at he
    exact not_rejects_generate rfl e he

/-- The path looks like an option, the `-o` at the end has no path, and the second class name is blank. -/
theorem options_layered_defaults :
    let defaults := some "--lang=python  --class=FromEnv"
    run ["generate", "-o", "--previz", "--lang=java", "-o"] defaults = generate
      { options := { className? := some "FromEnv", language? := some .java }, output := some "--previz"
        warnings := warning "-o" } ∧
    Rejects ["--previz", "--class= "] .emptyClassName (run ["generate", "--previz", "--class= "] defaults) := by
  intro defaults
  obtain ⟨-, -, -, -, hrun⟩ := options_layered
  have hgiven : ofArguments (environmentWords defaults ++ optionArguments ["-o", "--previz", "--lang=java", "-o"]) =
      .ok { className? := some "FromEnv", language? := some .java } := by decide +kernel
  have hfails : ofArguments (environmentWords defaults ++ optionArguments ["--previz", "--class= "]) =
      .error .emptyClassName := by decide +kernel
  have hfirst := (hrun ["-o", "--previz", "--lang=java", "-o"] defaults).1
  have hsecond := (hrun ["--previz", "--class= "] defaults).1
  rw [hgiven] at hfirst
  rw [hfails] at hsecond
  have hwarnings : warnings (optionArguments ["-o", "--previz", "--lang=java", "-o"]) = warning "-o" := by
    decide +kernel
  exact ⟨hwarnings ▸ hfirst, hsecond⟩

end Command

end Pipewright
