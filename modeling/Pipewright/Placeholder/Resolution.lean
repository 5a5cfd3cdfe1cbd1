import Pipewright.Descent
import Pipewright.Placeholder.Registry

/-!
# Resolution

Replaces every marker of a text by what its placeholder gives. The normal tier
is swept until nothing changes, then the last tier; a normal placeholder that gave
up because it asked for one of the last tier is tried again there.

A marker that is left as it is registers no imports. A placeholder in flight is
never entered again, so each step deeper leaves fewer placeholders to enter and
resolution ends.
-/

namespace Pipewright

structure Progress (σ : Type) where
  imports : ImportScope
  cycles : List Cycle := []
  /-- How often a placeholder of the last tier was asked for too early. -/
  deferred : Nat := 0
  /-- Normal placeholders that gave up because of that. -/
  waiting : List Nat := []
  outside : σ

namespace Progress

variable {σ : Type}

def registerAll (p : Progress σ) (types : List Ty) : Progress σ :=
  { p with imports := p.imports.registerAll types }

def recordCycle (p : Progress σ) (id : Nat) (stack : List Nat) : Progress σ :=
  { p with cycles := p.cycles ++ [⟨id, stack⟩] }

structure Mark where
  imports : Nat
  cycles : Nat
  deferred : Nat
deriving DecidableEq, Repr

def mark (p : Progress σ) : Mark := ⟨p.imports.size, p.cycles.length, p.deferred⟩

def giveUp (p : Progress σ) (start : Mark) (id : Nat) : Progress σ :=
  { p with
    waiting := if start.deferred < p.deferred && !p.waiting.contains id then id :: p.waiting else p.waiting
    imports := p.imports.truncate start.imports }

end Progress

def Recipe.run {σ : Type} (view : Progress σ → View) (answer : Resolvable → Progress σ → Option Resolved × Progress σ) :
    Recipe σ → Progress σ → Option Resolved × Progress σ
  | give result, p => (result, p)
  | look k, p => (k (view p)).run view answer p
  | register ty k, p => (k (p.imports.lacks ty)).run view answer (p.registerAll [ty])
  | ask r k, p =>
    let (result, p) := answer r p
    (k result).run view answer p
  | load k, p => (k p.outside).run view answer p
  | store s next, p => next.run view answer { p with outside := s }

structure Sweep (σ : Type) where
  /-- The new text, piece by piece. -/
  pieces : List String
  changed : Bool
  progress : Progress σ

def Sweep.text {σ : Type} (s : Sweep σ) : String := String.join s.pieces

def sweepSegments {σ : Type} (expand : Nat → Progress σ → Option String × Progress σ) :
    List Segment → Progress σ → Sweep σ
  | [], p => ⟨[], false, p⟩
  | .plain text :: rest, p =>
    let s := sweepSegments expand rest p
    { s with pieces := text :: s.pieces }
  | .marker id raw :: rest, p =>
    match expand id p with
    | (some text, p) =>
      let s := sweepSegments expand rest p
      { s with pieces := text :: s.pieces, changed := true }
    | (none, p) =>
      let s := sweepSegments expand rest p
      { s with pieces := raw :: s.pieces }

namespace Registry

variable {σ : Type} (reg : Registry σ)

def ids : List Nat := List.range reg.size

def view (tier : Tier) (stack : List Nat) (p : Progress σ) : View :=
  { imports := p.imports, tier, inFlight := stack, cycles := p.cycles, registered := reg.size }

/-- Resolves a value by its placeholder. Nothing comes of one of the last tier that is asked for in the normal
tier, nor of one in flight. -/
def resolve (tier : Tier) (stack : List Nat) (r : Resolvable) (p : Progress σ) : Option Resolved × Progress σ :=
  match r with
  | .now value => (some value, p)
  | .later ⟨id, own⟩ =>
    if own = .last ∧ tier = .normal then (none, { p with deferred := p.deferred + 1 })
    else if hs : stack.contains id then (none, p.recordCycle id stack)
    else if hid : id < reg.size then
      reg.entries[id].recipe.run (reg.view tier (id :: stack))
        (fun r p => resolve tier (id :: stack) r p) p
    else (none, p)
termination_by remaining reg.ids stack
decreasing_by exact remaining_enter_lt (List.mem_range.2 hid) (by simpa using hs)

/-- What stands for the marker of `id` once everything in it is substituted, if nothing in it fails. -/
def expand (tier : Tier) (stack : List Nat) (id : Nat) (p : Progress σ) : Option String × Progress σ :=
  if hid : id < reg.size then
    let entry := reg.entries[id]
    if entry.tier ≠ tier ∧ ¬(tier = .last ∧ p.waiting.contains id) then (none, p)
    else if hs : stack.contains id then (none, p.recordCycle id stack)
    else
      let start := p.mark
      match entry.recipe.run (reg.view tier (id :: stack)) (reg.resolve tier (id :: stack)) p with
      | (none, p) => (none, p.giveUp start id)
      | (some result, p) =>
        let s := sweepSegments (fun inner p => expand tier (id :: stack) inner p)
          (segments result.toText) (p.registerAll result.imports)
        if s.progress.cycles.length = start.cycles then (some s.text, s.progress)
        else (none, s.progress.giveUp start id)
  else (none, p)
termination_by remaining reg.ids stack
decreasing_by exact remaining_enter_lt (List.mem_range.2 hid) (by simpa using hs)

def sweep (tier : Tier) (text : String) (p : Progress σ) : Sweep σ :=
  sweepSegments (reg.expand tier []) (segments text) p

def sweeps (tier : Tier) : (count : Nat) → String → Progress σ → String × Progress σ
  | 0, text, p => (text, p)
  | count + 1, text, p =>
    let s := reg.sweep tier text p
    if s.changed then sweeps tier count s.text s.progress else (s.text, s.progress)

def maxSweeps : Nat := 64

end Registry

structure Resolution (σ : Type) where
  text : String
  progress : Progress σ

namespace Resolution

variable {σ : Type} (r : Resolution σ)

def unresolved : List Nat := markerIds r.text

def isComplete : Bool := r.unresolved.isEmpty

end Resolution

def Registry.resolveText {σ : Type} (reg : Registry σ) (text : String) (imports : ImportScope) (outside : σ) :
    Resolution σ :=
  let (text, p) := reg.sweeps .normal maxSweeps text { imports, outside }
  let (text, p) := reg.sweeps .last maxSweeps text p
  { text, progress := p }

end Pipewright
