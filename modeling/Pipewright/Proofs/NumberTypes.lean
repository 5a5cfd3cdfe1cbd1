import Pipewright.Proofs.Grouping

/-!
# Number types

Double is wider than float, float than long, and long than int, which also stands
for every type that is no number. An operation has the widest type among its two
operands. An operand that is an operation stands for all its leaves there, so a
formula has the widest type among its leaves, in whatever order they stand and
however they are grouped (`Formula.ty_widest`).
-/

namespace Pipewright

/-! ## The widest type -/

namespace Language

variable (l : Language)

def widest (types : List Ty) : Ty :=
  if types.contains l.doubleType then l.doubleType
  else if types.contains l.floatType then l.floatType
  else if types.contains l.longType then l.longType
  else l.intType

def width (types : List Ty) : Nat :=
  if types.contains l.doubleType then 3
  else if types.contains l.floatType then 2
  else if types.contains l.longType then 1
  else 0

def ofWidth : Nat → Ty
  | 0 => l.intType
  | 1 => l.longType
  | 2 => l.floatType
  | _ => l.doubleType

theorem widest_eq_ofWidth (types : List Ty) : l.widest types = l.ofWidth (l.width types) := by
  unfold widest width
  split
  · rfl
  · split
    · rfl
    · split <;> rfl

theorem width_le (types : List Ty) : l.width types ≤ 3 := by
  unfold width
  split
  · exact Nat.le_refl 3
  · split
    · decide
    · split <;> decide

theorem width_append (xs ys : List Ty) : l.width (xs ++ ys) = max (l.width xs) (l.width ys) := by
  simp only [width, List.contains_append, Bool.or_eq_true]
  cases xs.contains l.doubleType <;> cases ys.contains l.doubleType <;> cases xs.contains l.floatType <;>
    cases ys.contains l.floatType <;> cases xs.contains l.longType <;> cases ys.contains l.longType <;> rfl

theorem width_ofWidth (hl : l ≠ .python) {n : Nat} (hn : n ≤ 3) : l.width [l.ofWidth n] = n := by
  have hall : ∀ n < 4, l.width [l.ofWidth n] = n := by
    cases l with
    | python => exact absurd rfl hl
    | java | kotlin | lua => decide
  exact hall n (Nat.lt_succ_of_le hn)

theorem widest_python (types : List Ty) : python.widest types = Catalog.Python.noType := by
  rw [widest_eq_ofWidth]
  unfold ofWidth
  split <;> rfl

/-- Among other types, the widest of some stands for all of them. -/
theorem widest_cons_widest (xs ys : List Ty) : l.widest (l.widest xs :: ys) = l.widest (xs ++ ys) := by
  by_cases hl : l = .python
  · -- all number types are one there, which is wide and narrow at once
    subst hl
    rw [widest_python, widest_python]
  · have hwidth : l.width (l.widest xs :: ys) = l.width (xs ++ ys) := by
      rw [← List.singleton_append, width_append, width_append, widest_eq_ofWidth,
        width_ofWidth l hl (l.width_le xs)]
    rw [widest_eq_ofWidth, hwidth, ← widest_eq_ofWidth]

theorem widest_perm {xs ys : List Ty} (h : xs.Perm ys) : l.widest xs = l.widest ys := by
  have hcontains : ∀ t, xs.contains t = ys.contains t := by
    intro t
    rw [List.contains_eq_any_beq, List.contains_eq_any_beq]
    exact h.any_eq
  simp only [widest, hcontains]

/-! ## Operations -/

theorem numberType_eq_widest (a b : Ty) : l.numberType a b = l.widest [a, b] := by
  simp only [numberType, widest, List.contains_cons, List.contains_nil, Bool.or_false, BEq.comm (a := l.doubleType),
    BEq.comm (a := l.floatType), BEq.comm (a := l.longType)]

theorem ty_arithmetic (a b : Value) (operator : String) : (l.arithmetic a operator b).ty = l.widest [a.ty, b.ty] :=
  l.numberType_eq_widest a.ty b.ty

end Language

theorem Arithmetic.combine_eq (l : Language) (o : Arithmetic) (a b : Value) :
    o.combine l a b = l.arithmetic a o.sign b := by
  cases o <;> rfl

/-! ## Formulas -/

/-- Arithmetic on values of any types, numbers or not. -/
inductive Formula where
  | leaf (v : Value)
  | calculate (o : Arithmetic) (left right : Formula)
  | arithmetic (left : Formula) (operator : String) (right : Formula)

namespace Formula

def value (l : Language) : Formula → Value
  | leaf v => v
  | calculate o a b => o.combine l (a.value l) (b.value l)
  | arithmetic a operator b => l.arithmetic (a.value l) operator (b.value l)

def leafTypes : Formula → List Ty
  | leaf v => [v.ty]
  | calculate _ a b => a.leafTypes ++ b.leafTypes
  | arithmetic a _ b => a.leafTypes ++ b.leafTypes

variable {l : Language}

/-- Among other types, a formula widens an expression just as all its leaves would. -/
def StandsForLeaves (l : Language) (e : Formula) : Prop :=
  ∀ others, l.widest ((e.value l).ty :: others) = l.widest (e.leafTypes ++ others)

theorem StandsForLeaves.operands {a b : Formula} (ha : a.StandsForLeaves l) (hb : b.StandsForLeaves l)
    (others : List Ty) : l.widest ((a.value l).ty :: (b.value l).ty :: others) =
      l.widest (a.leafTypes ++ b.leafTypes ++ others) := by
  calc l.widest ((a.value l).ty :: (b.value l).ty :: others)
      = l.widest (a.leafTypes ++ (b.value l).ty :: others) := ha _
    _ = l.widest ((b.value l).ty :: (a.leafTypes ++ others)) := l.widest_perm List.perm_middle
    _ = l.widest (b.leafTypes ++ (a.leafTypes ++ others)) := hb _
    _ = l.widest (a.leafTypes ++ b.leafTypes ++ others) := l.widest_perm (by
      rw [← List.append_assoc]
      exact List.perm_append_comm.append_right others)

theorem StandsForLeaves.operation {a b : Formula} (ha : a.StandsForLeaves l) (hb : b.StandsForLeaves l)
    (operator : String) (others : List Ty) :
    l.widest ((l.arithmetic (a.value l) operator (b.value l)).ty :: others) =
      l.widest (a.leafTypes ++ b.leafTypes ++ others) := by
  rw [Language.ty_arithmetic, Language.widest_cons_widest]
  exact ha.operands hb others

theorem standsForLeaves (l : Language) (e : Formula) : e.StandsForLeaves l := by
  induction e with
  | leaf v => exact fun others => rfl
  | calculate o a b iha ihb =>
    intro others
    rw [value, Arithmetic.combine_eq]
    exact iha.operation ihb o.sign others
  | arithmetic a operator b iha ihb => exact iha.operation ihb operator

theorem ty_operation (l : Language) (a b : Formula) (operator : String) :
    (l.arithmetic (a.value l) operator (b.value l)).ty = l.widest (a.leafTypes ++ b.leafTypes) := by
  have hoperands := (a.standsForLeaves l).operands (b.standsForLeaves l) []
  rw [List.append_nil] at hoperands
  rw [Language.ty_arithmetic, hoperands]

theorem ty_eq_widest (l : Language) {e : Formula} (h : ∀ v, e ≠ leaf v) : (e.value l).ty = l.widest e.leafTypes := by
  cases e with
  | leaf v => exact absurd rfl (h v)
  | calculate o a b =>
    rw [value, Arithmetic.combine_eq]
    exact ty_operation l a b o.sign
  | arithmetic a operator b => exact ty_operation l a b operator

/-- A formula with at least one operation has the widest number type among its leaves, so another one whose leaves have
the same types in any order and grouping has the same type. -/
theorem ty_widest (l : Language) (e : Formula) (h : ∀ v, e ≠ leaf v) :
    (e.value l).ty = l.widest e.leafTypes ∧
      ∀ e' : Formula, (∀ v, e' ≠ leaf v) → e'.leafTypes.Perm e.leafTypes → (e'.value l).ty = (e.value l).ty := by
  refine ⟨ty_eq_widest l h, fun e' h' hperm => ?_⟩
  rw [ty_eq_widest l h, ty_eq_widest l h', l.widest_perm hperm]

/-- A text, an int and a long in two groupings and orders. -/
theorem ty_widest_regrouped :
    let text := leaf (Language.java.string "n")
    let e := arithmetic (calculate .sum text (leaf (Language.java.int 1))) "%" (leaf (Language.java.long 2))
    let e' := calculate .product (leaf (Language.java.int 1)) (calculate .sum (leaf (Language.java.long 2)) text)
    (∀ v, e ≠ leaf v) ∧ (∀ v, e' ≠ leaf v) ∧ (e.value .java).ty = Catalog.long ∧ (e'.value .java).ty = Catalog.long := by
  intro text e e'
  have he : ∀ v, e ≠ leaf v := fun v => Formula.noConfusion
  have he' : ∀ v, e' ≠ leaf v := fun v => Formula.noConfusion
  have hperm : ([Catalog.int, Catalog.long] ++ [Catalog.Java.string]).Perm
      ([Catalog.Java.string] ++ [Catalog.int, Catalog.long]) := List.perm_append_comm
  obtain ⟨hty, hregrouped⟩ := ty_widest .java e he
  have hlong : (e.value .java).ty = Catalog.long := by
    rw [hty]
    rfl
  exact ⟨he, he', hlong, (hregrouped e' he' hperm).trans hlong⟩

end Formula

end Pipewright
