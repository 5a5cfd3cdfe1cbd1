import Mathlib.Logic.Function.Basic
import Pipewright.Language.Line
import Pipewright.Proofs.Casts
import Pipewright.Proofs.Integers

/-!
# Counting loops

What each language makes of the header of a counting loop, read from its lexemes:
Java tests and counts on in every round with what the variables hold then; the
others take the limit and the step once, Lua with the limit included. Whatever the
operands are, the variable takes the values from the start on below the limit
(`Language.loop?_forHeader`), in Java where the limit does not depend on it.
-/

namespace Pipewright

/-! ## Rounds -/

/-- The values of the loop variable, round by round, from the first one on. -/
inductive Rounds (again : Int → Prop) (next : Int → Int) : Int → List Int → Prop
  | stop {v : Int} (h : ¬again v) : Rounds again next v []
  | round {v : Int} {vs : List Int} (h : again v) (rest : Rounds again next (next v) vs) : Rounds again next v (v :: vs)

/-- How many of the values `s`, `s + k`, `s + 2 * k`, … are below `m`. -/
def countBelow (s m k : Int) : Nat := ((m - s + k - 1) / k).toNat

def valuesBelow (s m k : Int) : List Int := (List.range (countBelow s m k)).map fun j : Nat => s + k * j

section

variable {s m k : Int}

theorem lt_countBelow_iff (hk : 0 < k) (j : Nat) : j < countBelow s m k ↔ s + k * j < m := by
  have hle : ((j : Int) + 1) * k = k * j + k := by rw [Int.add_mul, Int.mul_comm, Int.one_mul]
  rw [countBelow, Int.lt_toNat, Int.lt_iff_add_one_le, Int.le_ediv_iff_mul_le hk, hle]
  omega

theorem countBelow_of_le (hk : 0 < k) (h : m ≤ s) : countBelow s m k = 0 := by
  have hzero := lt_countBelow_iff (s := s) (m := m) hk 0
  simp only [Int.natCast_zero, Int.mul_zero] at hzero
  omega

theorem countBelow_of_lt (hk : 0 < k) (h : s < m) : countBelow s m k = countBelow (s + k) m k + 1 := by
  have hshift : m - s + k - 1 = (m - (s + k) + k - 1) + 1 * k := by omega
  have hpos : 0 ≤ (m - (s + k) + k - 1) / k := Int.ediv_nonneg (by omega) (Int.le_of_lt hk)
  rw [countBelow, countBelow, hshift, Int.add_mul_ediv_right _ _ (Int.ne_of_gt hk)]
  omega

theorem valuesBelow_of_le (hk : 0 < k) (h : m ≤ s) : valuesBelow s m k = [] := by
  rw [valuesBelow, countBelow_of_le hk h]
  rfl

theorem valuesBelow_of_lt (hk : 0 < k) (h : s < m) : valuesBelow s m k = s :: valuesBelow (s + k) m k := by
  rw [valuesBelow, valuesBelow, countBelow_of_lt hk h, List.range_succ_eq_map, List.map_cons, List.map_map]
  congr 1
  · simp
  · refine List.map_congr_left fun j _ => ?_
    simp only [Function.comp_apply, Int.natCast_succ, Int.mul_add]
    omega

/-- A variable that grows by `k` in each round while it is below `m` takes the values below `m`, and no others. -/
theorem rounds_iff {again : Int → Prop} {next : Int → Int} (hk : 0 < k) (hagain : ∀ v, again v ↔ v < m)
    (hnext : ∀ v, next v = v + k) (vs : List Int) : Rounds again next s vs ↔ vs = valuesBelow s m k := by
  constructor
  · intro h
    induction h with
    | stop h => rw [valuesBelow_of_le hk (Int.not_lt.mp (mt (hagain _).mpr h))]
    | round h _ ih => rw [valuesBelow_of_lt hk ((hagain _).mp h), ← hnext, ih]
  · rintro rfl
    generalize hn : countBelow s m k = n
    induction n generalizing s with
    | zero =>
      have hle : m ≤ s := Int.not_lt.mp fun h => by simp [countBelow_of_lt hk h] at hn
      rw [valuesBelow_of_le hk hle]
      exact .stop (mt (hagain s).mp (Int.not_lt.mpr hle))
    | succ n ih =>
      have hlt : s < m := Int.not_le.mp fun h => by simp [countBelow_of_le hk h] at hn
      rw [countBelow_of_lt hk hlt] at hn
      rw [valuesBelow_of_lt hk hlt]
      refine .round ((hagain s).mpr hlt) ?_
      rw [hnext]
      exact ih (by omega)

end

example : valuesBelow (-3) 5 3 = [-3, 0, 3] ∧ valuesBelow 5 5 1 = [] := by decide

/-! ## Loops -/

inductive Loop where
  /-- Before each round `left < right` is tested, behind it `step` is added. -/
  | tested (var : String) (start left right step : Term Atom)
  /-- The limit and the step are taken once. -/
  | ranged (var : String) (start limit step : Term Atom) (inclusive : Bool)
deriving DecidableEq, Repr

namespace Loop

def var : Loop → String
  | tested var .. | ranged var .. => var

/-- The values that the loop variable takes. A range with a step that is not positive counts down or is an error. -/
def Yields (env : String → Int) : Loop → List Int → Prop
  | tested var start left right step, vs =>
    let at_ (v : Int) : String → Int := Function.update env var v
    Rounds (fun v => left.eval (at_ v) < right.eval (at_ v)) (fun v => v + step.eval (at_ v)) (start.eval env) vs
  | ranged _ start limit step inclusive, vs =>
    0 < step.eval env ∧
      Rounds (fun v => if inclusive then v ≤ limit.eval env else v < limit.eval env) (· + step.eval env)
        (start.eval env) vs

end Loop

/-! ## Reading a header -/

namespace Language

variable (l : Language)

def pieces (separator closing : Lexeme) (ts : List Lexeme) : List (List Lexeme) :=
  let placed := l.placed true ts
  if placed.getLast? = some closing then placed.dropLast.splitOn separator else []

def ranged? (var : String) (inclusive : Bool) : List (List Lexeme) → Option Loop
  | [start, limit] => do return .ranged var (← l.term? start) (← l.term? limit) (.leaf (.integer 1)) inclusive
  | [start, limit, step] => do
    return .ranged var (← l.term? start) (← l.term? limit) (← l.term? step) inclusive
  | _ => none

def test? (ts : List Lexeme) : Option (Term Atom × Term Atom) :=
  match l.read (.wants []) ts with
  | some (.binary (.mark "<") a b) => do return (← a.term?, ← b.term?)
  | _ => none

def update? (var : String) : List Lexeme → Option (Term Atom)
  | .word w :: .mark m :: ts =>
    if w ≠ var then none
    else if m = "++" ∧ ts = [] then some (.leaf (.integer 1))
    else if m = "+=" then l.term? ts
    else none
  | _ => none

/-- The declared variable stands between its type and the start, in which it has no value yet. -/
def tested? (declaration : List Lexeme) (parts : List (List Lexeme)) : Option Loop :=
  match declaration.getLast?, parts with
  | some (.word var), [start, test, update] => do
    let start ← l.term? start
    let test ← l.test? test
    let step ← l.update? var update
    let ty := declaration.dropLast
    if ty.head?.any Lexeme.isWord && ty.all Lexeme.inType && !start.names.contains var then
      some (.tested var start test.1 test.2 step)
    else none
  | _, _ => none

def loop? (header : String) : Option Loop :=
  match l, lexemes header with
  | java, .word "for" :: .mark "(" :: rest =>
    java.tested? (rest.takeWhile (· != .mark "="))
      (java.pieces (.mark ";") (.mark ")") ((rest.dropWhile (· != .mark "=")).tail))
  | kotlin, .word "for" :: .mark "(" :: .word var :: .word "in" :: rest =>
    match kotlin.pieces (.mark "until") (.mark ")") rest with
    | [start, limit] => kotlin.ranged? var false (start :: limit.splitOn (.mark "step"))
    | _ => none
  | lua, .word "for" :: .word var :: .mark "=" :: rest =>
    lua.ranged? var true (lua.pieces (.mark ",") (.mark "do") rest)
  | python, .word "for" :: .word var :: .word "in" :: .word "range" :: .mark "(" :: rest =>
    python.ranged? var false (python.pieces (.mark ",") (.mark ")") rest)
  | _, _ => none

end Language

example : Language.kotlin.loop? "for(step in -2 until step step 3)" =
    some (.ranged "step" (.leaf (.integer (-2))) (.leaf (.name "step")) (.leaf (.integer 3)) false) := by
  decide +kernel

example : Language.lua.loop? "for i = 0, a * b - 1 do" =
    some (.ranged "i" (.leaf (.integer 0))
      (.combine .difference (.combine .product (.leaf (.name "a")) (.leaf (.name "b"))) (.leaf (.integer 1)))
      (.leaf (.integer 1)) true) := by
  decide +kernel

/-! ## The lexemes of a header -/

theorem lexemes_append_comma (a b : String) : lexemes (a ++ ", " ++ b) = lexemes a ++ .mark "," :: lexemes b := by
  have hcut : a ++ ", " ++ b = a ++ "," ++ " " ++ b := by simp [← String.toList_inj]
  rw [hcut, lexemes_append_blank]
  have hcomma : lexemes (a ++ ",") = lexemes a ++ [.mark ","] := by
    unfold lexemes
    rw [String.toList_append]
    exact Lexeme.scan_alone (by decide) [] a.toList []
  rw [hcomma, List.append_assoc, List.singleton_append]

theorem lexemes_append_step (a : String) (step : Option String) :
    lexemes (a ++ step.elim "" fun k => ", " ++ k) = lexemes a ++ step.elim [] fun k => .mark "," :: lexemes k := by
  cases step with
  | none => simp
  | some k => simp only [Option.elim_some, ← String.append_assoc, lexemes_append_comma]

theorem IsWord.lexemes_update {w : String} (hw : IsWord w) (step : Option String) :
    lexemes (w ++ step.elim "++" fun k => " " ++ "+=" ++ " " ++ k) =
      .word w :: step.elim [.mark "++"] fun k => .mark "+=" :: lexemes k := by
  cases step with
  | none => exact hw.lexemes_append (c := '+') (by decide) (by decide) ['+']
  | some k =>
    have hplus : lexemes "+=" = [.mark "+="] := by decide
    simp only [Option.elim_some, ← String.append_assoc, lexemes_between hplus, hw.lexemes_eq, List.singleton_append]

namespace Language

variable {var : Variable} {start limit : Value} {step : Option Value}

theorem lexemes_forHeader_java (hvar : IsWord var.name) :
    lexemes (java.forHeader var start limit step) = .word "for" :: .mark "(" ::
      (lexemes var.ty.spelling ++ .word var.name :: .mark "=" :: (lexemes start.text ++ .mark ";" ::
        ((.word var.name :: .mark "<" :: lexemes limit.text) ++ .mark ";" ::
          ((.word var.name :: (otherStep? step).elim [.mark "++"] fun k => .mark "+=" :: lexemes k) ++
            [.mark ")"])))) := by
  have hfor : lexemes "for" = [.word "for"] := by decide
  have hequals : lexemes "=" = [.mark "="] := by decide
  have hbreak : lexemes ";" = [.mark ";"] := by decide
  have hless : lexemes "<" = [.mark "<"] := by decide
  have htext : java.forHeader var start limit step = "for" ++ "(" ++ (var.ty.spelling ++ " " ++ (var.name ++ " " ++
      "=" ++ " " ++ (start.text ++ " " ++ ";" ++ " " ++ (var.name ++ " " ++ "<" ++ " " ++ (limit.text ++ " " ++
      ";" ++ " " ++ (var.name ++ (otherStep? step).elim "++" fun k => " " ++ "+=" ++ " " ++ k)))))) ++ ")" := by
    unfold forHeader
    rw [← String.toList_inj]
    cases otherStep? step <;> simp [toString]
  rw [htext, lexemes_call, hfor, lexemes_append_blank, lexemes_between hequals, lexemes_between hbreak,
    lexemes_between hless, lexemes_between hbreak, hvar.lexemes_update, hvar.lexemes_eq]
  simp

theorem lexemes_forHeader_kotlin (hvar : IsWord var.name) :
    lexemes (kotlin.forHeader var start limit step) = .word "for" :: .mark "(" :: .word var.name :: .word "in" ::
      (lexemes start.operandText ++ .word "until" :: ((lexemes limit.operandText ++
        (otherStep? step).elim [] fun k => .word "step" :: lexemes k) ++ [.mark ")"])) := by
  have hfor : lexemes "for" = [.word "for"] := by decide
  have hin : lexemes "in" = [.word "in"] := by decide
  have huntil : lexemes "until" = [.word "until"] := by decide
  have hstep : lexemes (limit.operandText ++ (otherStep? step).elim "" fun k => " " ++ "step" ++ " " ++ k) =
      lexemes limit.operandText ++ (otherStep? step).elim [] fun k => .word "step" :: lexemes k := by
    have hword : lexemes "step" = [.word "step"] := by decide
    cases otherStep? step with
    | none => simp
    | some k => simp only [Option.elim_some, ← String.append_assoc, lexemes_between hword]
  have htext : kotlin.forHeader var start limit step = "for" ++ "(" ++ (var.name ++ " " ++ "in" ++ " " ++
      (start.operandText ++ " " ++ "until" ++ " " ++
        (limit.operandText ++ (otherStep? step).elim "" fun k => " " ++ "step" ++ " " ++ k))) ++ ")" := by
    unfold forHeader
    rw [← String.toList_inj]
    cases otherStep? step <;> simp [toString]
  rw [htext, lexemes_call, hfor, lexemes_between hin, lexemes_between huntil, hstep, hvar.lexemes_eq]
  simp

theorem lexemes_forHeader_lua (hvar : IsWord var.name) :
    lexemes (lua.forHeader var start limit step) = .word "for" :: .word var.name :: .mark "=" ::
      (lexemes start.text ++ .mark "," :: ((lexemes (limit.operandText ++ " - 1") ++
        (otherStep? step).elim [] fun k => .mark "," :: lexemes k) ++ [.word "do"])) := by
  have hfor : lexemes "for" = [.word "for"] := by decide
  have hequals : lexemes "=" = [.mark "="] := by decide
  have hdo : lexemes "do" = [.word "do"] := by decide
  have htext : lua.forHeader var start limit step = "for" ++ " " ++ (var.name ++ " " ++ "=" ++ " " ++
      (start.text ++ ", " ++ (limit.operandText ++ " - 1" ++ (otherStep? step).elim "" fun k => ", " ++ k) ++
        " " ++ "do")) := by
    unfold forHeader
    rw [← String.toList_inj]
    cases otherStep? step <;> simp [toString]
  rw [htext, lexemes_append_blank, hfor, lexemes_between hequals, lexemes_append_blank, hdo, lexemes_append_comma,
    lexemes_append_step, hvar.lexemes_eq]
  simp

theorem lexemes_forHeader_python (hvar : IsWord var.name) :
    lexemes (python.forHeader var start limit step) =
      .word "for" :: .word var.name :: .word "in" :: .word "range" :: .mark "(" ::
        (lexemes start.text ++ .mark "," :: ((lexemes limit.text ++
          (otherStep? step).elim [] fun k => .mark "," :: lexemes k) ++ [.mark ")"])) := by
  have hfor : lexemes "for" = [.word "for"] := by decide
  have hin : lexemes "in" = [.word "in"] := by decide
  have hrange : lexemes "range" = [.word "range"] := by decide
  have htext : python.forHeader var start limit step = "for" ++ " " ++ (var.name ++ " " ++ "in" ++ " " ++
      ("range" ++ "(" ++ (start.text ++ ", " ++
        (limit.text ++ (otherStep? step).elim "" fun k => ", " ++ k)) ++ ")")) := by
    unfold forHeader
    rw [← String.toList_inj]
    cases otherStep? step <;> simp [toString]
  rw [htext, lexemes_append_blank, hfor, lexemes_between hin, lexemes_call, hrange, lexemes_append_comma,
    lexemes_append_step, hvar.lexemes_eq]
  simp

/-! ## Pieces -/

variable {l : Language} {p p' r r' : Nat} {ts us : List Lexeme} {e : Phrase} {t sep closing : Lexeme} {k : Int}

theorem pieces_eq (h : l.placed true ts = us ++ [closing]) : l.pieces sep closing ts = us.splitOn sep := by
  simp [pieces, h]

theorem placed_then (h : Spells l p r ts us e) (ht : ∀ rest, l.placed false (t :: rest) = sep :: l.placed true rest)
    (rest : List Lexeme) : l.placed true (ts ++ t :: rest) = us ++ sep :: l.placed true rest := by
  rw [h.placed, ht]

/-- A step that is absent or has no text counts by one; otherwise it is a positive literal. -/
def IsStep (step : Option Value) (k : Int) : Prop :=
  (step.bind Value.text? = none ∧ k = 1) ∨ (0 < k ∧ step.bind Value.text? = some (toString k))

theorem IsStep.pos (h : IsStep step k) : 0 < k := by
  rcases h with ⟨-, rfl⟩ | ⟨hk, -⟩
  · exact Int.one_pos
  · exact hk

/-- The step `1` is not spelled. -/
theorem IsStep.other (h : IsStep step k) :
    (otherStep? step = none ∧ k = 1) ∨ otherStep? step = some (toString k) := by
  unfold otherStep?
  rcases h with ⟨hnone, rfl⟩ | ⟨hk, htext⟩
  · rw [hnone]
    exact .inl ⟨rfl, rfl⟩
  · rw [htext]
    by_cases hone : toString k = "1"
    · have hread := integer?_toString k
      rw [hone] at hread ⊢
      exact .inl ⟨rfl, (Option.some.inj hread).symm⟩
    · exact .inr (Option.filter_eq_some_iff.mpr ⟨rfl, by simpa using hone⟩)

theorem spells_step (l : Language) (k : Int) :
    Spells l 6 6 (lexemes (toString k)) [.word (toString k)] (Term.leaf (Operand.integer l k)).atoms.phrase :=
  Atom.spells (a := .integer k) trivial 6 6

theorem placed_limit (hstep : IsStep step k) (h : Spells l p r ts us e)
    (ht : ∀ rest, l.placed false (t :: rest) = sep :: l.placed true rest) (rest : List Lexeme) :
    l.placed true ((ts ++ (otherStep? step).elim [] fun k => t :: lexemes k) ++ rest) =
      (us ++ (otherStep? step).elim [] fun k => [sep, .word k]) ++ l.placed false rest := by
  rcases hstep.other with ⟨hnone, -⟩ | hsome
  · rw [hnone]
    simpa using h.placed rest
  · rw [hsome]
    simp only [Option.elim_some, List.append_assoc, List.cons_append]
    rw [placed_then h ht, (spells_step l k).placed]
    simp

variable {start limit : Term (Operand l)} {ss ls ss' ls' : List Lexeme}

theorem ranged?_eq (hstep : IsStep step k) (hs : Spells l p r ss ss' start.atoms.phrase)
    (hl : Spells l p r ls ls' limit.atoms.phrase) (hfree : sep ∉ ls') (hword : ∀ w, sep ≠ .word w) (var : String)
    (inclusive : Bool) :
    l.ranged? var inclusive (ss' :: (ls' ++ (otherStep? step).elim [] fun k => [sep, .word k]).splitOn sep) =
      some (.ranged var start.atoms limit.atoms (.leaf (.integer k)) inclusive) := by
  rcases hstep.other with ⟨hnone, rfl⟩ | hsome
  · have hsplit : (ls' ++ []).splitOn sep = [ls'] := by rw [List.append_nil, List.splitOn_eq_singleton hfree]
    rw [hnone, Option.elim_none, hsplit, ranged?, hs.term?_eq, hl.term?_eq]
    rfl
  · have hk : sep ∉ [Lexeme.word (toString k)] := by simpa using hword _
    rw [hsome, Option.elim_some, List.splitOn_append_cons_self_of_not_mem hfree, List.splitOn_eq_singleton hk, ranged?,
      hs.term?_eq, hl.term?_eq, (spells_step l k).term?_eq]
    rfl

/-! ## Headers are read back -/

theorem mark_not_mem {m : String} (h : Spells l p r ts us e) (hm : m ∉ ["(", ")", "+", "-", "*", "<"]) :
    .mark m ∉ us := fun hmem => hm (h.marks m hmem)

theorem loop?_kotlin {start limit : Term (Operand kotlin)} (hvar : IsVariableName kotlin var.name)
    (hstep : IsStep step k) :
    kotlin.loop? (kotlin.forHeader var start.value limit.value step) =
      some (.ranged var.name start.atoms limit.atoms (.leaf (.integer k)) false) := by
  obtain ⟨ss, hs⟩ := start.spells_operandText
  obtain ⟨ls, hl⟩ := limit.spells_operandText
  have huntil := placed_infix (l := kotlin) (w := "until") (by decide)
  have hby := placed_infix (l := kotlin) (w := "step") (by decide)
  let tail := ls ++ (otherStep? step).elim [] fun k => [.mark "step", .word k]
  have hplaced : kotlin.placed true (lexemes start.value.operandText ++ .word "until" ::
      ((lexemes limit.value.operandText ++ (otherStep? step).elim [] fun k => .word "step" :: lexemes k) ++
        [.mark ")"])) = (ss ++ .mark "until" :: tail) ++ [.mark ")"] := by
    rw [placed_then (hs 6 6) huntil, placed_limit hstep (hl 6 6) hby, placed_close]
    simp [placed, tail]
  have htail : .mark "until" ∉ tail := by
    have hls := mark_not_mem (hl 6 6) (m := "until") (by decide)
    cases h : otherStep? step <;> simp [tail, h, hls]
  unfold loop?
  simp only [lexemes_forHeader_kotlin hvar.isWord]
  rw [pieces_eq hplaced, List.splitOn_append_cons_self_of_not_mem (mark_not_mem (hs 6 6) (by decide)),
    List.splitOn_eq_singleton htail]
  exact ranged?_eq hstep (hs 6 6) (hl 6 6) (mark_not_mem (hl 6 6) (by decide)) (by simp) var.name false

theorem loop?_lua {start limit : Term (Operand lua)} (hvar : IsVariableName lua var.name) (hstep : IsStep step k) :
    lua.loop? (lua.forHeader var start.value limit.value step) =
      some (.ranged var.name start.atoms (.combine .difference limit.atoms (.leaf (.integer 1))) (.leaf (.integer k))
        true) := by
  -- the limit with the one that is taken off is a term of its own
  let lower : Term (Operand lua) := .combine .difference limit (.leaf (.integer lua 1))
  have hlower : limit.value.operandText ++ " - 1" = lower.value.text := by
    have hone : (lua.int 1).operandText = "1" := by decide
    rw [Term.value_combine, Arithmetic.combine_text, Term.value_leaf, Operand.integer, hone]
    simp [String.append_assoc, Operation.arithmetic, Arithmetic.sign]
  obtain ⟨ss, hs⟩ := start.spells_text
  obtain ⟨ls, hl⟩ := lower.spells_text
  have hcomma : ∀ rest, lua.placed false (.mark "," :: rest) = .mark "," :: lua.placed true rest :=
    placed_mark (by decide) (by decide)
  have hplaced : lua.placed true (lexemes start.value.text ++ .mark "," ::
      ((lexemes (limit.value.operandText ++ " - 1") ++ (otherStep? step).elim [] fun k => .mark "," :: lexemes k) ++
        [.word "do"])) =
      (ss ++ .mark "," :: (ls ++ (otherStep? step).elim [] fun k => [.mark ",", .word k])) ++ [.mark "do"] := by
    rw [hlower, placed_then hs hcomma, placed_limit hstep hl hcomma, placed_infix (by decide)]
    simp [placed]
  unfold loop?
  simp only [lexemes_forHeader_lua hvar.isWord]
  rw [pieces_eq hplaced, List.splitOn_append_cons_self_of_not_mem (mark_not_mem hs (by decide))]
  exact ranged?_eq hstep hs hl (mark_not_mem hl (by decide)) (by simp) var.name true

theorem loop?_python {start limit : Term (Operand python)} (hvar : IsVariableName python var.name)
    (hstep : IsStep step k) :
    python.loop? (python.forHeader var start.value limit.value step) =
      some (.ranged var.name start.atoms limit.atoms (.leaf (.integer k)) false) := by
  obtain ⟨ss, hs⟩ := start.spells_text
  obtain ⟨ls, hl⟩ := limit.spells_text
  have hcomma : ∀ rest, python.placed false (.mark "," :: rest) = .mark "," :: python.placed true rest :=
    placed_mark (by decide) (by decide)
  have hplaced : python.placed true (lexemes start.value.text ++ .mark "," ::
      ((lexemes limit.value.text ++ (otherStep? step).elim [] fun k => .mark "," :: lexemes k) ++ [.mark ")"])) =
      (ss ++ .mark "," :: (ls ++ (otherStep? step).elim [] fun k => [.mark ",", .word k])) ++ [.mark ")"] := by
    rw [placed_then hs hcomma, placed_limit hstep hl hcomma, placed_close]
    simp [placed]
  unfold loop?
  simp only [lexemes_forHeader_python hvar.isWord]
  rw [pieces_eq hplaced, List.splitOn_append_cons_self_of_not_mem (mark_not_mem hs (by decide))]
  exact ranged?_eq hstep hs hl (mark_not_mem hl (by decide)) (by simp) var.name false

theorem test?_eq {limit : Term (Operand l)} {w : String} (hw : IsVariableName l w)
    (h : Spells l p r ts us (.binary (.mark "<") (.word w) limit.atoms.phrase)) :
    l.test? us = some (.leaf (.name w), limit.atoms) := by
  have hname : (Phrase.word w).term? = some (.leaf (.name w)) := by
    rw [Phrase.term?, Atom.ofWord, hw.integer]
  rw [test?, h.read_eq]
  simp only [hname, limit.term?_phrase]
  rfl

theorem update?_eq {w : String} (hstep : IsStep step k) :
    l.update? w (.word w :: (otherStep? step).elim [.mark "++"] fun k => [.mark "+=", .word k]) =
      some (.leaf (.integer k)) := by
  rcases hstep.other with ⟨hnone, rfl⟩ | hsome
  · rw [hnone]
    simp [update?]
  · rw [hsome]
    have hk : l.term? [.word (toString k)] = some (.leaf (.integer k)) := (spells_step l k).term?_eq
    simp only [Option.elim_some, update?, hk]
    simp

theorem placed_update {w : String} (hw : IsVariableName l w) (hstep : IsStep step k) :
    l.placed true ((.word w :: (otherStep? step).elim [.mark "++"] fun k => .mark "+=" :: lexemes k) ++ [.mark ")"]) =
      (.word w :: (otherStep? step).elim [.mark "++"] fun k => [.mark "+=", .word k]) ++ [.mark ")"] := by
  have hsign : ∀ m rest, m ≠ ")" →
      l.placed true (.word w :: .mark m :: rest) = .word w :: .mark m :: l.placed true rest :=
    fun m rest hm => by rw [placed_word hw.negation, placed_mark hm (by simp)]
  rcases hstep.other with ⟨hnone, -⟩ | hsome
  · rw [hnone]
    simp only [Option.elim_none, List.cons_append, List.nil_append]
    rw [hsign "++" _ (by decide), placed_close]
    rfl
  · rw [hsome]
    simp only [Option.elim_some, List.cons_append, List.nil_append]
    rw [hsign "+=" _ (by decide), (spells_step l k).placed, placed_close]
    rfl

theorem spells_test {limit : Term (Operand java)} {w : String} (hw : IsVariableName java w)
    (h : Spells java 6 6 ts us limit.atoms.phrase) :
    Spells java 5 5 (.word w :: .mark "<" :: ts) (.word w :: .mark "<" :: us)
      (.binary (.mark "<") (.word w) limit.atoms.phrase) :=
  Spells.operator (m := "<") (q := 5) (by decide) (by decide) (Spells.word hw.negation hw.strength) h (by decide)
    (by decide)

/-- Two pieces with `;` behind them, and a last one. -/
theorem pieces_three {vs vs' : List Lexeme} {f : Phrase} (hs : Spells l p r ss ss' e) (ht : Spells l p' r' ts us f)
    (hv : l.placed true (vs ++ [closing]) = vs' ++ [closing]) (hfree : .mark ";" ∉ vs') :
    l.pieces (.mark ";") closing (ss ++ .mark ";" :: (ts ++ .mark ";" :: (vs ++ [closing]))) = [ss', us, vs'] := by
  have hbreak : ∀ rest, l.placed false (.mark ";" :: rest) = .mark ";" :: l.placed true rest :=
    placed_mark (by decide) (by decide)
  have hplaced : l.placed true (ss ++ .mark ";" :: (ts ++ .mark ";" :: (vs ++ [closing]))) =
      (ss' ++ .mark ";" :: (us ++ .mark ";" :: vs')) ++ [closing] := by
    rw [placed_then hs hbreak, placed_then ht hbreak, hv]
    simp
  rw [pieces_eq hplaced, List.splitOn_append_cons_self_of_not_mem (mark_not_mem hs (by decide)),
    List.splitOn_append_cons_self_of_not_mem (mark_not_mem ht (by decide)), List.splitOn_eq_singleton hfree]

theorem tested?_eq {start limit : Term (Operand l)} {ty : List Lexeme} {w : String} (hw : IsVariableName l w)
    (hty : Lexeme.IsType ty) (hstep : IsStep step k) (hs : Spells l p r ss ss' start.atoms.phrase)
    (ht : Spells l p' r' ts us (.binary (.mark "<") (.word w) limit.atoms.phrase)) (hfresh : w ∉ start.atoms.names) :
    l.tested? (ty ++ [.word w])
        [ss', us, .word w :: (otherStep? step).elim [.mark "++"] fun k => [.mark "+=", .word k]] =
      some (.tested w start.atoms (.leaf (.name w)) limit.atoms (.leaf (.integer k))) := by
  have hdeclared : (ty.head?.any Lexeme.isWord && ty.all Lexeme.inType && !start.atoms.names.contains w) = true := by
    simp [hty.first, List.all_eq_true.mpr hty.all, hfresh]
  unfold tested?
  simp only [List.getLast?_concat, List.dropLast_concat, hs.term?_eq, test?_eq hw ht, Option.bind_eq_bind,
    Option.bind_some, hdeclared]
  rw [update?_eq hstep]
  rfl

theorem loop?_java {start limit : Term (Operand java)} (hvar : IsVariableName java var.name)
    (hty : IsTypeText var.ty.spelling) (hstep : IsStep step k) (hfresh : var.name ∉ start.atoms.names) :
    java.loop? (java.forHeader var start.value limit.value step) =
      some (.tested var.name start.atoms (.leaf (.name var.name)) limit.atoms (.leaf (.integer k))) := by
  obtain ⟨ss, hs⟩ := start.spells_text
  obtain ⟨ls, hl⟩ := limit.spells_text
  have hdeclaration : ∀ t ∈ lexemes var.ty.spelling ++ [.word var.name], (t != .mark "=") = true := by
    intro t ht
    have hne : t ≠ .mark "=" := by
      rintro rfl
      rcases List.mem_append.mp ht with ht | ht
      · exact absurd (hty.isType.all _ ht) (by decide)
      · simp at ht
    simpa using hne
  have hcut : ∀ rest, lexemes var.ty.spelling ++ .word var.name :: .mark "=" :: rest =
      (lexemes var.ty.spelling ++ [.word var.name]) ++ .mark "=" :: rest := by simp
  have hupdate : .mark ";" ∉ Lexeme.word var.name :: (otherStep? step).elim [.mark "++"] fun k =>
      [.mark "+=", .word k] := by
    cases otherStep? step <;> simp
  unfold loop?
  simp only [lexemes_forHeader_java hvar.isWord]
  rw [hcut, List.takeWhile_append_of_pos hdeclaration, List.dropWhile_append_of_pos hdeclaration,
    List.takeWhile_cons_of_neg (by simp), List.dropWhile_cons_of_neg (by simp), List.tail_cons, List.append_nil,
    pieces_three hs (spells_test hvar hl) (placed_update hvar hstep) hupdate]
  exact tested?_eq hvar hty.isType hstep hs (spells_test hvar hl) hfresh

end Language

/-! ## All loops count alike -/

namespace Loop

variable {var : String} {start limit : Term Atom} {k : Int}

theorem yields_exclusive (hk : 0 < k) (env : String → Int) (vs : List Int) :
    (ranged var start limit (.leaf (.integer k)) false).Yields env vs ↔
      vs = valuesBelow (start.eval env) (limit.eval env) k := by
  have hrounds : Rounds (fun v => if false then v ≤ limit.eval env else v < limit.eval env) (· + k)
      (start.eval env) vs ↔ vs = valuesBelow (start.eval env) (limit.eval env) k :=
    rounds_iff hk (fun v => Iff.rfl) (fun v => rfl) vs
  rw [← hrounds]
  exact and_iff_right hk

/-- Up to one less and that included is below. -/
theorem yields_inclusive (hk : 0 < k) (env : String → Int) (vs : List Int) :
    (ranged var start (.combine .difference limit (.leaf (.integer 1))) (.leaf (.integer k)) true).Yields env vs ↔
      vs = valuesBelow (start.eval env) (limit.eval env) k := by
  have hrounds : Rounds (· ≤ limit.eval env - 1) (· + k) (start.eval env) vs ↔
      vs = valuesBelow (start.eval env) (limit.eval env) k :=
    rounds_iff hk (fun v => Int.le_sub_one_iff) (fun v => rfl) vs
  rw [← hrounds]
  exact and_iff_right hk

/-- A limit that does not depend on the loop variable is the same in every round. -/
theorem yields_tested (hk : 0 < k) (hfresh : var ∉ limit.names) (env : String → Int) (vs : List Int) :
    (tested var start (.leaf (.name var)) limit (.leaf (.integer k))).Yields env vs ↔
      vs = valuesBelow (start.eval env) (limit.eval env) k := by
  have hlimit : ∀ v, limit.eval (Function.update env var v) = limit.eval env := fun v =>
    Term.eval_congr fun w hw => Function.update_of_ne (fun h : w = var => hfresh (h ▸ hw)) v env
  refine rounds_iff hk (fun v => ?_) (fun v => rfl) vs
  rw [hlimit]
  simp [Term.eval, Atom.eval]

end Loop

namespace Language

/-- Whatever arithmetic the start and the limit are, and whether the step is spelled or not: the header is read as a
loop over the values from the start on below the limit. In Java the loop variable hides another one of its name, so
neither of them may mention it. -/
theorem loop?_forHeader (l : Language) {var : Variable} (start limit : Term (Operand l)) {step : Option Value} {k : Int}
    (hvar : IsVariableName l var.name) (hty : l = java → IsTypeText var.ty.spelling) (hstep : IsStep step k)
    (hfresh : l = java → var.name ∉ start.atoms.names ∧ var.name ∉ limit.atoms.names) :
    ∃ loop, l.loop? (l.forHeader var start.value limit.value step) = some loop ∧ loop.var = var.name ∧
      ∀ env vs, loop.Yields env vs ↔ vs = valuesBelow (start.atoms.eval env) (limit.atoms.eval env) k := by
  cases l with
  | java =>
    obtain ⟨hstart, hlimit⟩ := hfresh rfl
    exact ⟨_, loop?_java hvar (hty rfl) hstep hstart, rfl, Loop.yields_tested hstep.pos hlimit⟩
  | kotlin => exact ⟨_, loop?_kotlin hvar hstep, rfl, Loop.yields_exclusive hstep.pos⟩
  | lua => exact ⟨_, loop?_lua hvar hstep, rfl, Loop.yields_inclusive hstep.pos⟩
  | python => exact ⟨_, loop?_python hvar hstep, rfl, Loop.yields_exclusive hstep.pos⟩

theorem loop?_forHeader_sum : ∃ loop, java.loop? "for(int i = a - -5 ; i < (a + b) * 2 ; i += 2)" = some loop ∧
    loop.Yields (fun w => if w = "a" then 1 else 4) [6, 8] := by
  let var : Variable := .typed java.intType "i"
  let a : Term (Operand java) := .leaf (.ofVariable (.typed java.intType "a") (by decide))
  let b : Term (Operand java) := .leaf (.ofVariable (.typed java.intType "b") (by decide))
  let start : Term (Operand java) := .combine .difference a (.leaf (.integer java (-5)))
  let limit : Term (Operand java) := .combine .product (.combine .sum a b) (.leaf (.integer java 2))
  have hstep : IsStep (some (java.int 2)) 2 := .inr ⟨by decide, rfl⟩
  have hvar : IsVariableName java var.name := by decide
  have hty : IsTypeText var.ty.spelling := by decide
  have hfresh : var.name ∉ start.atoms.names ∧ var.name ∉ limit.atoms.names := by decide
  obtain ⟨loop, hread, -, hyields⟩ := loop?_forHeader java start limit hvar (fun _ => hty) hstep fun _ => hfresh
  have htext : java.forHeader var start.value limit.value (some (java.int 2)) =
      "for(int i = a - -5 ; i < (a + b) * 2 ; i += 2)" := by decide
  exact ⟨loop, htext ▸ hread, (hyields _ _).mpr (by decide)⟩

/-- From zero while `i` is below `i`: the variable is compared with itself, whatever `i` was before. -/
theorem loop?_own_limit : ∃ (var : Variable) (start limit : Term (Operand java)), IsVariableName java var.name ∧
    IsTypeText var.ty.spelling ∧ java.forHeader var start.value limit.value none = "for(int i = 0 ; i < i ; i++)" ∧
    ∃ loop, java.loop? "for(int i = 0 ; i < i ; i++)" = some loop ∧
      ∃ env, valuesBelow (start.atoms.eval env) (limit.atoms.eval env) 1 = [0, 1, 2] ∧ loop.Yields env [] ∧
        ¬loop.Yields env [0, 1, 2] := by
  refine ⟨.typed java.intType "i", .leaf (.integer java 0), .leaf (.ofVariable (.typed java.intType "i") (by decide)),
    by decide, by decide, by decide, _, rfl, fun _ => 3, by decide, .stop (by decide), fun h => ?_⟩
  cases h with
  | round h => exact absurd h (by decide)

end Language

end Pipewright
