import Pipewright.ImportScope
import Pipewright.Marker

/-!
# Placeholders

A placeholder is a value that may only be known when the program is complete.
Until then its marker stands in the text. The recipe behind it is a tree of
questions to the pass that resolves it, so it can be run, and reasoned about,
question by question.
-/

namespace Pipewright

/-- When a placeholder is substituted: with the others, or after all of those. -/
inductive Tier where
  | normal
  | last
deriving DecidableEq, Repr, Inhabited

def Tier.name : Tier → String
  | normal => "normal"
  | last => "last"

inductive Resolved where
  | text (text : String)
  | value (value : Value)
deriving Repr

namespace Resolved

def toText : Resolved → String
  | text t => t
  | value v => v.text

def imports : Resolved → List Ty
  | text _ => []
  | value v => v.imports

def toValue : Resolved → Value
  | text t => .raw t
  | value v => v

end Resolved

structure Placeholder where
  id : Nat
  tier : Tier
deriving DecidableEq, Repr

inductive Resolvable where
  | now (value : Resolved)
  | later (placeholder : Placeholder)
deriving Repr

namespace Resolvable

def isNow : Resolvable → Bool
  | now _ => true
  | later _ => false

def placeholder? : Resolvable → Option Placeholder
  | now _ => none
  | later p => some p

def toText : Resolvable → String
  | now r => r.toText
  | later p => Marker.text p.id

/-- A value to embed in a program. That of a placeholder has no type and no imports yet. -/
def toValue : Resolvable → Value
  | now r => r.toValue
  | later p => .raw (Marker.text p.id)

end Resolvable

/-- A placeholder that was asked for while it was being resolved. -/
structure Cycle where
  id : Nat
  /-- The placeholders being resolved then, the innermost first. -/
  stack : List Nat
deriving DecidableEq, Repr

/-- `a -> b -> a` -/
def Cycle.path (c : Cycle) : String :=
  " -> ".intercalate ((c.id :: c.stack).reverse.map toString)

structure View where
  imports : ImportScope
  tier : Tier
  /-- The placeholders being resolved, the innermost first. -/
  inFlight : List Nat
  cycles : List Cycle
  registered : Nat

/-- How a placeholder finds its value: questions to the pass, with what to do on each answer. `σ` is the
state that recipes share with each other outside the pass. -/
inductive Recipe (σ : Type) where
  | give (result : Option Resolved)
  | look (k : View → Recipe σ)
  /-- Registers a type; the answer says whether it is new. -/
  | register (ty : Ty) (k : Bool → Recipe σ)
  | ask (r : Resolvable) (k : Option Resolved → Recipe σ)
  | load (k : σ → Recipe σ)
  | store (s : σ) (next : Recipe σ)

namespace Recipe

variable {σ : Type}

def needing (r : Resolvable) (k : Resolved → Recipe σ) : Recipe σ :=
  .ask r fun
    | some value => k value
    | none => .give none

/-- What a recipe finds where there is no pass: it sees and registers nothing, and no placeholder has a value. -/
def alone : Recipe σ → σ → Option Resolved × σ
  | give result, s => (result, s)
  | look k, s => (k ⟨.empty, .normal, [], [], 0⟩).alone s
  | register _ k, s => (k false).alone s
  | ask (.now value) k, s => (k (some value)).alone s
  | ask (.later _) k, s => (k none).alone s
  | load k, s => (k s).alone s
  | store s next, _ => next.alone s

def ofProbe (probe : σ → Option Resolved × σ) : Recipe σ :=
  .load fun s => .store (probe s).2 (.give (probe s).1)

def ofSupplier (supplier : σ → Option Resolvable × σ) : Recipe σ :=
  .load fun s => .store (supplier s).2 <| match (supplier s).1 with
    | some r => .ask r .give
    | none => .give none

end Recipe

/-- A step of a recipe: given what to do with its answer, the recipe from there on. -/
def Query (σ α : Type) : Type := (α → Recipe σ) → Recipe σ

namespace Query

variable {σ : Type}

instance : Monad (Query σ) where
  pure a := fun k => k a
  bind x f := fun k => x fun a => f a k

def view : Query σ View := Recipe.look
def register (ty : Ty) : Query σ Bool := Recipe.register ty
def ask (r : Resolvable) : Query σ (Option Resolved) := Recipe.ask r
def outside : Query σ σ := Recipe.load
def setOutside (s : σ) : Query σ Unit := fun k => Recipe.store s (k ())

def recipe (x : Query σ (Option Resolved)) : Recipe σ := x .give

end Query

end Pipewright
