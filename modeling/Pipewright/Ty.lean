/-!
# Types of the generated program

A type is a short name, the package it lives in and its generic arguments. Those
three decide equality; whether and as what a type is imported does not. A builtin
is a type whose package is its own name.
-/

namespace Pipewright

inductive ImportRule where
  /-- When it has a package other than its own name. -/
  | auto
  | never
  /-- When it has a package. -/
  | always
deriving DecidableEq, Repr

inductive Ty where
  | mk (name package : String) (generics : List Ty) (importing : Option Ty) (isArray : Bool) (rule : ImportRule)
deriving Repr

namespace Ty

def name : Ty → String
  | mk n _ _ _ _ _ => n

def package : Ty → String
  | mk _ p _ _ _ _ => p

def generics : Ty → List Ty
  | mk _ _ g _ _ _ => g

def importing : Ty → Option Ty
  | mk _ _ _ i _ _ => i

def isArray : Ty → Bool
  | mk _ _ _ _ a _ => a

def rule : Ty → ImportRule
  | mk _ _ _ _ _ r => r

def of (name package : String) : Ty :=
  mk name package [] none false .auto

def builtin (name : String) : Ty :=
  of name name

def empty : Ty :=
  of "" ""

instance : Inhabited Ty := ⟨empty⟩

def withGenerics : Ty → List Ty → Ty
  | mk n p _ i a r, g => mk n p g i a r

def importedAs : Ty → Ty → Ty
  | mk n p g _ a r, target => mk n p g (some target) a r

def asArray : Ty → Ty
  | mk n p g i _ r => mk n p g i true r

def withRule : Ty → ImportRule → Ty
  | mk n p g i a _, r => mk n p g i a r

mutual

/-- Equality of names, packages and generic arguments. -/
def same : Ty → Ty → Bool
  | mk n p g _ _ _, mk n' p' g' _ _ _ => n == n' && p == p' && sameAll g g'

def sameAll : List Ty → List Ty → Bool
  | [], [] => true
  | t :: ts, u :: us => same t u && sameAll ts us
  | _, _ => false

end

instance : BEq Ty := ⟨same⟩

def isEmpty (t : Ty) : Bool :=
  t.name.isEmpty && t.package.isEmpty

mutual

/-- The type that is imported when this one is used: the end of the chain of replacements. -/
def importTarget : Ty → Ty
  | t@(mk _ _ _ i _ _) => targetOr t i

def targetOr (t : Ty) : Option Ty → Ty
  | none => t
  | some next => next.importTarget

end

def shouldImport (t : Ty) : Bool :=
  match t.rule with
  | .never => false
  | .always => !t.package.isEmpty
  | .auto => !t.package.isEmpty && t.package != t.name

mutual

def spelling : Ty → String
  | mk n _ [] _ _ _ => n
  | mk n _ (t :: ts) _ _ _ => n ++ "<" ++ ", ".intercalate (spellings (t :: ts)) ++ ">"

def spellings : List Ty → List String
  | [] => []
  | t :: ts => t.spelling :: spellings ts

end

def qualifiedName (t : Ty) : String :=
  if t.package.isEmpty || t.package == t.name then t.name else t.package ++ "." ++ t.name

/-- Equality is an equivalence although it overlooks the import data. -/
theorem same_refl : ∀ t : Ty, same t t = true
  | mk n p g _ _ _ => by simp [same, sameAll_refl g]
where
  sameAll_refl : ∀ ts : List Ty, sameAll ts ts = true
    | [] => rfl
    | t :: ts => by simp [sameAll, same_refl t, sameAll_refl ts]

theorem same_symm : ∀ t u : Ty, same t u = true → same u t = true
  | mk n p g _ _ _, mk n' p' g' _ _ _, h => by
    simp only [same, Bool.and_eq_true, beq_iff_eq] at h ⊢
    exact ⟨⟨h.1.1.symm, h.1.2.symm⟩, sameAll_symm g g' h.2⟩
where
  sameAll_symm : ∀ ts us : List Ty, sameAll ts us = true → sameAll us ts = true
    | [], [], _ => rfl
    | t :: ts, u :: us, h => by
      simp only [sameAll, Bool.and_eq_true] at h ⊢
      exact ⟨same_symm t u h.1, sameAll_symm ts us h.2⟩

theorem same_trans : ∀ t u v : Ty, same t u = true → same u v = true → same t v = true
  | mk _ _ g _ _ _, mk _ _ g' _ _ _, mk _ _ g'' _ _ _, h, h' => by
    simp only [same, Bool.and_eq_true, beq_iff_eq] at h h' ⊢
    exact ⟨⟨h.1.1.trans h'.1.1, h.1.2.trans h'.1.2⟩, sameAll_trans g g' g'' h.2 h'.2⟩
where
  sameAll_trans : ∀ ts us vs : List Ty, sameAll ts us = true → sameAll us vs = true → sameAll ts vs = true
    | [], [], [], _, _ => rfl
    | t :: ts, u :: us, v :: vs, h, h' => by
      simp only [sameAll, Bool.and_eq_true] at h h' ⊢
      exact ⟨same_trans t u v h.1 h'.1, sameAll_trans ts us vs h.2 h'.2⟩

instance : EquivBEq Ty where
  rfl := same_refl _
  symm := same_symm _ _
  trans := same_trans _ _ _

end Ty

end Pipewright
