import Pipewright.Catalog
import Pipewright.Proofs.Attempts

/-!
# Registration

A placeholder that is handed out carries its recipe, and the registry keeps the recipe
under its id. So there are two routes to it: a recipe asks for the value, or the marker
is expanded. Whatever is registered later, both run the same recipe, and the marker
expands to what the sweep makes of the text of the value
(`Registry.History.expand_agrees`).
-/

namespace Pipewright

variable {σ : Type}

structure Held (σ : Type) extends Placeholder where
  recipe : Recipe σ

namespace Held

def entry (x : Held σ) : Entry σ := ⟨x.tier, x.recipe⟩

def resolve (x : Held σ) (reg : Registry σ) (tier : Tier) (stack : List Nat) (p : Progress σ) :
    Option Resolved × Progress σ :=
  if x.tier = .last ∧ tier = .normal then (none, { p with deferred := p.deferred + 1 })
  else if stack.contains x.id then (none, p.recordCycle x.id stack)
  else x.recipe.run (reg.view tier (x.id :: stack)) (reg.resolve tier (x.id :: stack)) p

end Held

inductive Request (σ : Type) where
  | placeholder (tier : Tier) (recipe : Recipe σ)
  | probe (probe : σ → Option Resolved × σ)
  | supplier (supplier : σ → Option Resolvable × σ)
  | dependent (dependency : Resolvable) (f : Resolved → Recipe σ)
  | dependent2 (first second : Resolvable) (f : Resolved → Resolved → Recipe σ)

namespace Request

/-- What a request is answered with, and the registry and the outside state after it. -/
def answer (reg : Registry σ) (s : σ) : Request σ → Resolvable × Registry σ × σ
  | placeholder tier recipe => (.later (reg.register tier recipe).1, (reg.register tier recipe).2, s)
  | probe f => reg.ofProbe f s
  | supplier f => reg.ofSupplier f s
  | dependent r f => (.later (reg.dependent r f).1, (reg.dependent r f).2, s)
  | dependent2 a b f => (.later (reg.dependent2 a b f).1, (reg.dependent2 a b f).2, s)

def tier : Request σ → Tier
  | placeholder tier _ => tier
  | _ => .normal

def recipe : Request σ → Recipe σ
  | placeholder _ recipe => recipe
  | probe f => .ofProbe f
  | supplier f => .ofSupplier f
  | dependent r f => .needing r f
  | dependent2 a b f => .needing a fun x => .needing b fun y => f x y

def held? (reg : Registry σ) (s : σ) (q : Request σ) : Option (Held σ) :=
  match (q.answer reg s).1 with
  | .later p => if reg.size < (q.answer reg s).2.1.size then some ⟨p, q.recipe⟩ else none
  | .now _ => none

end Request

namespace Registry

variable (reg : Registry σ) (s : σ)

theorem ofProbe_cases (f : σ → Option Resolved × σ) :
    (∃ value next, reg.ofProbe f s = (.now value, reg, next)) ∨
      ∃ next, reg.ofProbe f s =
        (.later ⟨reg.size, .normal⟩, ⟨reg.entries.push ⟨.normal, (Request.probe f).recipe⟩⟩, next) := by
  unfold ofProbe
  split
  · rename_i value next _
    exact .inl ⟨value, next, rfl⟩
  · rename_i next _
    exact .inr ⟨next, rfl⟩

theorem ofSupplier_cases (f : σ → Option Resolvable × σ) :
    (∃ r next, reg.ofSupplier f s = (r, reg, next)) ∨
      ∃ next, reg.ofSupplier f s =
        (.later ⟨reg.size, .normal⟩, ⟨reg.entries.push ⟨.normal, (Request.supplier f).recipe⟩⟩, next) := by
  unfold ofSupplier
  split
  · rename_i r next _
    exact .inl ⟨r, next, rfl⟩
  · rename_i next _
    exact .inr ⟨next, rfl⟩

end Registry

namespace Request

variable {reg : Registry σ} {s next : σ} {q : Request σ}

theorem held?_eq_none {r : Resolvable} (h : q.answer reg s = (r, reg, next)) : q.held? reg s = none := by
  rw [held?, h]
  cases r with
  | now value => rfl
  | later p => exact if_neg (Nat.lt_irrefl _)

theorem held?_eq_some {p : Placeholder} {e : Entry σ} (h : q.answer reg s = (.later p, ⟨reg.entries.push e⟩, next)) :
    q.held? reg s = some ⟨p, q.recipe⟩ := by
  rw [held?, h]
  exact if_pos (by simp [Registry.size])

/-- A request leaves the registry as it is, or it is answered with a placeholder for one more entry. -/
theorem answer_cases (reg : Registry σ) (s : σ) (q : Request σ) :
    (∃ r next, q.answer reg s = (r, reg, next)) ∨
      ∃ next, q.answer reg s = (.later ⟨reg.size, q.tier⟩, ⟨reg.entries.push ⟨q.tier, q.recipe⟩⟩, next) := by
  cases q with
  | placeholder tier recipe => exact .inr ⟨s, rfl⟩
  | probe f =>
    rcases reg.ofProbe_cases s f with ⟨value, next, h⟩ | h
    · exact .inl ⟨.now value, next, h⟩
    · exact .inr h
  | supplier f => exact reg.ofSupplier_cases s f
  | dependent r f => exact .inr ⟨s, rfl⟩
  | dependent2 a b f => exact .inr ⟨s, rfl⟩

end Request

namespace Registry

/-- A registry that requests have led to from an empty one, with the placeholders that were registered for them. -/
inductive History : List (Held σ) → Registry σ → Prop
  | empty : History [] .empty
  | request {held : List (Held σ)} {reg : Registry σ} (q : Request σ) (s : σ) : History held reg →
      History (held ++ (q.held? reg s).toList) (q.answer reg s).2.1

namespace History

variable {held : List (Held σ)} {reg : Registry σ} {x : Held σ}

theorem entries (h : History held reg) : reg.entries.toList = held.map Held.entry := by
  induction h with
  | empty => rfl
  | @request held reg q s _ ih =>
    rcases q.answer_cases reg s with ⟨r, next, h⟩ | ⟨next, h⟩
    · rw [Request.held?_eq_none h, h, ih]
      simp
    · rw [Request.held?_eq_some h, h, Array.toList_push, ih]
      simp [Held.entry]

theorem size_eq (h : History held reg) : reg.size = held.length := by
  have hlength := congrArg List.length h.entries
  rw [Array.length_toList, List.length_map] at hlength
  exact hlength

/-- Ids count up, so the id of a placeholder is its place among those that were handed out. -/
theorem ids_eq (h : History held reg) : held.map (·.id) = List.range held.length := by
  induction h with
  | empty => rfl
  | @request held reg q s hbefore ih =>
    rcases q.answer_cases reg s with ⟨r, next, h⟩ | ⟨next, h⟩
    · rw [Request.held?_eq_none h]
      simpa using ih
    · rw [Request.held?_eq_some h]
      simp [ih, List.range_succ, hbefore.size_eq]

theorem entry_eq (h : History held reg) (hx : x ∈ held) : ∃ hid : x.id < reg.size, reg.entries[x.id] = x.entry := by
  obtain ⟨i, hi, rfl⟩ := List.mem_iff_getElem.mp hx
  have hid : held[i].id = i := by
    have hget := congrArg (fun l => l[i]?) h.ids_eq
    simpa [hi] using hget
  have hsize : i < reg.size := h.size_eq ▸ hi
  refine ⟨hid.symm ▸ hsize, ?_⟩
  simp only [hid]
  have hget := congrArg (fun l => l[i]?) h.entries
  simpa [hi, show i < reg.entries.size from hsize] using hget

theorem tier?_eq (h : History held reg) (hx : x ∈ held) : reg.tier? x.id = some x.tier := by
  obtain ⟨hid, hentry⟩ := h.entry_eq hx
  exact reg.tier?_eq_some_iff.mpr ⟨hid, by rw [hentry]; rfl⟩

/-- The recipe that a placeholder carries is the one that the registry keeps. -/
theorem call_eq (h : History held reg) (hx : x ∈ held) (tier : Tier) (stack : List Nat) (hid : x.id < reg.size)
    (p : Progress σ) : reg.call tier stack hid p =
      x.recipe.run (reg.view tier (x.id :: stack)) (reg.resolve tier (x.id :: stack)) p := by
  obtain ⟨_, hentry⟩ := h.entry_eq hx
  rw [call, hentry]
  rfl

theorem resolve_eq (h : History held reg) (hx : x ∈ held) (tier : Tier) (stack : List Nat) (p : Progress σ) :
    reg.resolve tier stack (.later x.toPlaceholder) p = x.resolve reg tier stack p := by
  obtain ⟨hid, -⟩ := h.entry_eq hx
  rw [Registry.resolve, Held.resolve]
  split
  · rfl
  split
  · rfl
  · exact h.call_eq hx tier stack hid p

theorem resolve_own (h : History held reg) (hx : x ∈ held) (hid : x.id < reg.size) (p : Progress σ) :
    x.resolve reg x.tier [] p = reg.call x.tier [] hid p := by
  have htier : ¬(x.tier = .last ∧ x.tier = .normal) := by
    rintro ⟨hlast, hnormal⟩
    rw [hlast] at hnormal
    cases hnormal
  rw [Held.resolve, if_neg htier, if_neg (by simp), h.call_eq hx]

/-- However many placeholders are registered after it, a placeholder has an id of its own, for which the registry
keeps its tier, and it gives the same by the recipe it carries and by the one in the registry. Where nothing is in
flight, in its own tier, nothing comes of its marker if nothing comes of asking for its value. Else the marker
expands to the sweep over the text of that value with the placeholder in flight, unless a cycle is met. -/
theorem expand_agrees (h : History held reg) :
    (held.map (·.id)).Nodup ∧ ∀ x ∈ held, reg.tier? x.id = some x.tier ∧
      (∀ tier stack p, reg.resolve tier stack (.later x.toPlaceholder) p = x.resolve reg tier stack p) ∧
      ∀ p : Progress σ,
        ((x.resolve reg x.tier [] p).1 = none → (reg.expand x.tier [] x.id p).1 = none) ∧
        ∀ r q, x.resolve reg x.tier [] p = (some r, q) →
          let s := sweepSegments (reg.expand x.tier [x.id]) (segments r.toText) (q.registerAll r.imports)
          (s.progress.cycles = p.cycles → reg.expand x.tier [] x.id p = (some s.text, s.progress)) ∧
            (s.progress.cycles ≠ p.cycles → (reg.expand x.tier [] x.id p).1 = none) := by
  refine ⟨h.ids_eq ▸ List.nodup_range, fun x hx => ⟨h.tier?_eq hx, h.resolve_eq hx, fun p => ?_⟩⟩
  obtain ⟨hid, hentry⟩ := h.entry_eq hx
  have hopen : reg.IsOpen x.tier hid p := .inl (by rw [hentry]; rfl)
  have hfree : x.id ∉ ([] : List Nat) := List.not_mem_nil
  rw [h.resolve_own hx hid p]
  refine ⟨fun hnone => ?_, fun r q hcall => ?_⟩
  · have hcall : reg.call x.tier [] hid p = (none, (reg.call x.tier [] hid p).2) := Prod.ext hnone rfl
    rw [(Attempts.without hid hopen hfree hcall).expand_eq]
  · intro s
    have hgrows : p.cycles <+: s.progress.cycles := by
      have k := reg.keeps_grows x.tier
      exact (k.inner trivial hid hopen hfree hcall (k.expand [x.id] trivial)).cycles
    refine ⟨fun hsame => ?_, fun hcycle => ?_⟩
    · exact (Attempts.done hid hopen hfree hcall (congrArg List.length hsame)).expand_eq
    · have hlonger : s.progress.cycles.length ≠ p.cycles.length := fun hlength =>
        hcycle (hgrows.eq_of_length hlength.symm).symm
      rw [(Attempts.undone hid hopen hfree hcall hlonger).expand_eq]

def relayed : List (Held Unit) :=
  [⟨⟨0, .last⟩, .give (some (.text "<@vg#1#@>!"))⟩,
    ⟨⟨1, .last⟩, .give (some (.value (.new Catalog.OpenCv.rect "r")))⟩,
    ⟨⟨2, .normal⟩, (Request.supplier fun _ => (none, ())).recipe⟩]

def relay : Registry Unit := ⟨(relayed.map Held.entry).toArray⟩

/-- The probe in between has its value, so nothing is registered for it. -/
theorem history_relay : History relayed relay :=
  (((History.empty.request (.placeholder .last (.give (some (.text "<@vg#1#@>!")))) ()).request
    (.placeholder .last (.give (some (.value (.new Catalog.OpenCv.rect "r"))))) ()).request
    (.probe fun _ => (some (.text "now"), ())) ()).request (.supplier fun _ => (none, ())) ()

theorem expand_agrees_relay :
    let p : Progress Unit := { imports := .empty, outside := () }
    History relayed relay ∧ relay.resolve .last [] (.later ⟨0, .last⟩) p = (some (.text "<@vg#1#@>!"), p) ∧
      (relay.expand .last [] 0 p).1 = some "r!" ∧ (relay.expand .normal [] 2 p).1 = none := by
  intro p
  obtain ⟨-, hroutes⟩ := history_relay.expand_agrees
  obtain ⟨-, hvalue, hexpand⟩ := hroutes relayed[0] (List.getElem_mem _)
  obtain ⟨-, -, hmissing⟩ := hroutes relayed[2] (List.getElem_mem _)
  obtain ⟨hdone, -⟩ := (hexpand p).2 (.text "<@vg#1#@>!") p rfl
  let s := sweepSegments (relay.expand .last [0]) (segments "<@vg#1#@>!") p
  have hcycles : s.progress.cycles = p.cycles := by decide +kernel
  have htext : s.text = "r!" := by decide +kernel
  refine ⟨history_relay, hvalue .last [] p, ?_, (hmissing p).1 rfl⟩
  rw [← htext]
  exact congrArg Prod.fst (hdone hcycles)

end History

end Registry

end Pipewright
