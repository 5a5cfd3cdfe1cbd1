import Pipewright.Placeholder.Basic

/-!
# The registry of placeholders

The placeholders of one pass with their recipes. Ids count up from zero.
-/

namespace Pipewright

structure Entry (σ : Type) where
  tier : Tier
  recipe : Recipe σ

structure Registry (σ : Type) where
  entries : Array (Entry σ)

namespace Registry

variable {σ : Type}

def empty : Registry σ := ⟨#[]⟩

instance : Inhabited (Registry σ) := ⟨empty⟩

def size (reg : Registry σ) : Nat := reg.entries.size

def entry? (reg : Registry σ) (id : Nat) : Option (Entry σ) := reg.entries[id]?

def tier? (reg : Registry σ) (id : Nat) : Option Tier := (reg.entry? id).map Entry.tier

def register (reg : Registry σ) (tier : Tier) (recipe : Recipe σ) : Placeholder × Registry σ :=
  (⟨reg.size, tier⟩, ⟨reg.entries.push ⟨tier, recipe⟩⟩)

/-- The value of a probe if it has one, else a placeholder that probes again at each attempt. -/
def ofProbe (reg : Registry σ) (probe : σ → Option Resolved × σ) (s : σ) : Resolvable × Registry σ × σ :=
  match probe s with
  | (some value, s) => (.now value, reg, s)
  | (none, s) =>
    let (p, reg) := reg.register .normal (.ofProbe probe)
    (.later p, reg, s)

def ofSupplier (reg : Registry σ) (supplier : σ → Option Resolvable × σ) (s : σ) : Resolvable × Registry σ × σ :=
  match supplier s with
  | (some r, s) => (r, reg, s)
  | (none, s) =>
    let (p, reg) := reg.register .normal (.ofSupplier supplier)
    (.later p, reg, s)

def dependent (reg : Registry σ) (dependency : Resolvable) (f : Resolved → Recipe σ) : Placeholder × Registry σ :=
  reg.register .normal (.needing dependency f)

def dependent2 (reg : Registry σ) (first second : Resolvable) (f : Resolved → Resolved → Recipe σ) :
    Placeholder × Registry σ :=
  reg.register .normal (.needing first fun a => .needing second fun b => f a b)

end Registry

end Pipewright
