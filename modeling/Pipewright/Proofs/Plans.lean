import Pipewright.Proofs.Attempts

/-!
# Recipes by plan

A recipe goes by a plan if what it gives depends on the values it asks for and on
nothing else, and nothing comes of it once one of them is missing. What comes of
asking is then a function of the tier and of what is in flight (`Planned.found`):
a value, or the one reason why there is none. The fewer are in flight, the fewer
the reasons (`Planned.found_of_subset`).
-/

namespace Pipewright

variable {σ : Type}

/-- What a recipe gives in the end, or the next value without which it gives nothing. -/
inductive Plan where
  | give (result : Option Resolved)
  | need (r : Resolvable) (next : Resolved → Plan)

/-- The recipe goes by the plan whatever it sees, and it keeps the outside state in `ok`. -/
def Recipe.Follows (ok : σ → Prop) : Recipe σ → Plan → Prop
  | give result, plan => plan = .give result
  | look k, plan => ∀ v, (k v).Follows ok plan
  | register _ k, plan => ∀ isNew, (k isNew).Follows ok plan
  | ask r k, plan => ∃ next, plan = .need r next ∧ (k none).Follows ok (.give none) ∧
      ∀ v, (k (some v)).Follows ok (next v)
  | load k, plan => ∀ s, ok s → (k s).Follows ok plan
  | store s next, plan => ok s ∧ next.Follows ok plan

/-- The recipe asks for nothing, and whatever it sees, it gives a text without markers. -/
def Recipe.Reads (ok : σ → Prop) : Recipe σ → Prop
  | give result => ∃ r, result = some r ∧ markerIds r.toText = []
  | look k => ∀ v, (k v).Reads ok
  | register _ k => ∀ isNew, (k isNew).Reads ok
  | ask _ _ => False
  | load k => ∀ s, ok s → (k s).Reads ok
  | store s next => ok s ∧ next.Reads ok

/-! ## Traces -/

/-- What a step of resolution leaves in the progress, besides imports and the outside state. -/
structure Trace where
  cycles : Nat := 0
  requests : Nat := 0
  waits : List Nat := []

namespace Trace

def append (s t : Trace) : Trace := ⟨s.cycles + t.cycles, s.requests + t.requests, s.waits ++ t.waits⟩

def total (f : Nat → Trace) : List Nat → Trace
  | [] => {}
  | id :: ids => (f id).append (total f ids)

section
variable {f g : Nat → Trace} {ids : List Nat}

theorem total_cycles_eq_zero : (total f ids).cycles = 0 ↔ ∀ id ∈ ids, (f id).cycles = 0 := by
  induction ids with
  | nil => simp [total]
  | cons id ids ih => simp [total, append, ih]

theorem total_requests_pos : 0 < (total f ids).requests ↔ ∃ id ∈ ids, 0 < (f id).requests := by
  induction ids with
  | nil => simp [total]
  | cons id ids ih =>
    have hadd : 0 < (f id).requests + (total f ids).requests ↔
        0 < (f id).requests ∨ 0 < (total f ids).requests := by omega
    simp [total, append, hadd, ih]

theorem mem_total_waits {k : Nat} : k ∈ (total f ids).waits ↔ ∃ id ∈ ids, k ∈ (f id).waits := by
  induction ids with
  | nil => simp [total]
  | cons id ids ih => simp [total, append, ih]

theorem total_congr (h : ∀ id ∈ ids, f id = g id) : total f ids = total g ids := by
  induction ids with
  | nil => rfl
  | cons id ids ih =>
    rw [total, total, h id (List.mem_cons_self ..), ih fun k hk => h k (List.mem_cons_of_mem _ hk)]

end

structure Leads (t : Trace) (p q : Progress σ) : Prop where
  cycles : q.cycles.length = p.cycles.length + t.cycles
  deferred : q.deferred = p.deferred + t.requests
  waiting : ∀ k, k ∈ q.waiting ↔ k ∈ p.waiting ∨ k ∈ t.waits

variable {s t : Trace} {p q r : Progress σ}

theorem Leads.refl (p : Progress σ) : ({} : Trace).Leads p p := ⟨rfl, rfl, by simp⟩

theorem Leads.registerAll (p : Progress σ) (types : List Ty) : ({} : Trace).Leads p (p.registerAll types) :=
  { refl p with }

theorem Leads.store (p : Progress σ) (s : σ) : ({} : Trace).Leads p { p with outside := s } :=
  { refl p with }

theorem Leads.recordCycle (p : Progress σ) (id : Nat) (stack : List Nat) :
    ({ cycles := 1 } : Trace).Leads p (p.recordCycle id stack) :=
  { refl p with cycles := by simp [Progress.recordCycle] }

theorem Leads.early (p : Progress σ) : ({ requests := 1 } : Trace).Leads p { p with deferred := p.deferred + 1 } :=
  { refl p with deferred := rfl }

theorem Leads.append (h : s.Leads p q) (h' : t.Leads q r) : (s.append t).Leads p r := by
  refine ⟨?_, ?_, fun k => ?_⟩
  · rw [h'.cycles, h.cycles, Nat.add_assoc]; rfl
  · rw [h'.deferred, h.deferred, Nat.add_assoc]; rfl
  · rw [h'.waiting, h.waiting, or_assoc, Trace.append, List.mem_append]

theorem nil_append (t : Trace) : ({} : Trace).append t = t := by simp [append]

theorem append_nil (t : Trace) : t.append {} = t := by simp [append]

theorem Leads.after_nil (h : ({} : Trace).Leads p q) (h' : t.Leads q r) : t.Leads p r :=
  nil_append t ▸ h.append h'

theorem Leads.before_nil (h : t.Leads p q) (h' : ({} : Trace).Leads q r) : t.Leads p r :=
  append_nil t ▸ h.append h'

end Trace

/-! ## Asking -/

inductive Found where
  | value (r : Resolved)
  | absent
  /-- It is being resolved already. -/
  | looped
  /-- It belongs to the last tier, and that has not begun. -/
  | early

namespace Found

def value? : Found → Option Resolved
  | value r => some r
  | _ => none

theorem eq_value {f : Found} {r : Resolved} (h : f.value? = some r) : f = .value r := by
  cases f with
  | value _ => exact congrArg value (Option.some.inj h)
  | absent => cases h
  | looped => cases h
  | early => cases h

def trace : Found → Trace
  | looped => { cycles := 1 }
  | early => { requests := 1 }
  | _ => {}

theorem waits_eq_nil (f : Found) : f.trace.waits = [] := by
  cases f <;> rfl

structure Shows (ok : σ → Prop) (f : Found) (p : Progress σ) (o : Option Resolved × Progress σ) : Prop where
  value : o.1 = f.value?
  leads : f.trace.Leads p o.2
  outside : ok o.2.outside

variable {ok : σ → Prop} {f : Found} {p q : Progress σ} {o : Option Resolved × Progress σ}

theorem Shows.after (h : ({} : Trace).Leads p q) (h' : f.Shows ok q o) : f.Shows ok p o :=
  ⟨h'.value, h.after_nil h'.leads, h'.outside⟩

/-- A missing value decides what is found. -/
theorem Shows.before_absent {found : Option Resolved} (h : f.Shows ok p (found, q)) (hn : f.value? = none)
    (h' : absent.Shows ok q o) : f.Shows ok p o :=
  ⟨h'.value.trans hn.symm, h.leads.before_nil h'.leads, h'.outside⟩

end Found

namespace Plan

def found (find : Resolvable → Found) : Plan → Found
  | give none => .absent
  | give (some r) => .value r
  | need r next =>
    match find r with
    | .value v => (next v).found find
    | missing => missing

def Needs (A : Placeholder → Prop) : Plan → Prop
  | give _ => True
  | need r next => (∀ d, r = .later d → A d) ∧ ∀ v, (next v).Needs A

theorem found_of_no_cycle {find find' : Resolvable → Found}
    (h : ∀ r, (find r).trace.cycles = 0 → find' r = find r) {plan : Plan}
    (hc : (plan.found find).trace.cycles = 0) : plan.found find' = plan.found find := by
  induction plan with
  | give result => cases result <;> rfl
  | need r next ih =>
    rw [found] at hc
    have hr : (find r).trace.cycles = 0 := by
      cases hf : find r with
      | looped => rw [hf] at hc; exact hc
      | value _ => rfl
      | absent => rfl
      | early => rfl
    rw [found, found, h r hr]
    cases hf : find r with
    | value v => rw [hf] at hc; exact ih v hc
    | absent => rfl
    | looped => rfl
    | early => rfl

end Plan

namespace Recipe

section
variable {ok : σ → Prop}

theorem follows_needing {r : Resolvable} {k : Resolved → Recipe σ} {next : Resolved → Plan}
    (h : ∀ v, (k v).Follows ok (next v)) : (needing r k).Follows ok (.need r next) :=
  ⟨next, rfl, rfl, h⟩

theorem follows_ofProbe {probe : σ → Option Resolved × σ} {result : Option Resolved}
    (h : ∀ s, ok s → (probe s).1 = result ∧ ok (probe s).2) : (ofProbe probe).Follows ok (.give result) :=
  fun s hs => ⟨(h s hs).2, congrArg Plan.give (h s hs).1.symm⟩

theorem follows_ofSupplier (supplier : σ → Option Resolvable × σ) {r : Resolvable}
    (h : ∀ s, ok s → (supplier s).1 = some r ∧ ok (supplier s).2) :
    (ofSupplier supplier).Follows ok (.need r fun v => .give (some v)) := by
  intro s hs
  obtain ⟨hr, hok⟩ := h s hs
  refine ⟨hok, ?_⟩
  simp only [hr]
  exact ⟨_, rfl, rfl, fun v => rfl⟩

end

variable {ok : σ → Prop} {view : Progress σ → View}
  {answer : Resolvable → Progress σ → Option Resolved × Progress σ}

theorem Follows.within {recipe : Recipe σ} : ∀ {plan : Plan}, recipe.Follows ok plan →
    recipe.Within (fun _ => True) ok := by
  induction recipe with
  | give _ => exact fun _ => trivial
  | look k ih => exact fun h v => ih v (h v)
  | register _ k ih => exact fun h isNew => ih isNew (h isNew)
  | load k ih => exact fun h s hs => ih s (h s hs)
  | store s next ih => exact fun h => ⟨h.1, ih h.2⟩
  | ask r k ih =>
    rintro _ ⟨next, -, hnone, hsome⟩
    refine ⟨trivial, fun found => ?_⟩
    cases found with
    | none => exact ih none hnone
    | some v => exact ih (some v) (hsome v)

theorem Reads.within {recipe : Recipe σ} (h : recipe.Reads ok) : recipe.Within (fun _ => True) ok := by
  induction recipe with
  | give _ => trivial
  | look k ih => exact fun v => ih v (h v)
  | register _ k ih => exact fun isNew => ih isNew (h isNew)
  | ask r k ih => exact h.elim
  | load k ih => exact fun s hs => ih s (h s hs)
  | store s next ih => exact ⟨h.1, ih h.2⟩

theorem Follows.run_shows {A : Placeholder → Prop} {find : Resolvable → Found}
    (hanswer : ∀ r, (∀ d, r = .later d → A d) → ∀ p, ok p.outside → (find r).Shows ok p (answer r p))
    {recipe : Recipe σ} : ∀ {plan : Plan}, recipe.Follows ok plan → plan.Needs A → ∀ p, ok p.outside →
      (plan.found find).Shows ok p (recipe.run view answer p) := by
  induction recipe with
  | give result =>
    intro plan hf _ p hp
    cases hf
    cases result <;> exact ⟨rfl, .refl p, hp⟩
  | look k ih => exact fun hf hn p hp => ih _ (hf _) hn p hp
  | register ty k ih =>
    exact fun hf hn p hp => .after (.registerAll p [ty]) (ih _ (hf _) hn (p.registerAll [ty]) hp)
  | load k ih => exact fun hf hn p hp => ih _ (hf _ hp) hn p hp
  | store s next ih =>
    exact fun hf hn p _ => .after (.store p s) (ih hf.2 hn { p with outside := s } hf.1)
  | ask r k ih =>
    intro plan hf hn p hp
    obtain ⟨next, rfl, hnone, hsome⟩ := hf
    have hr := hanswer r hn.1 p hp
    rw [run, Plan.found]
    cases ha : answer r p with
    | mk found q =>
      rw [ha] at hr
      -- a missing value ends the plan, so what the recipe still does shows nothing more
      have hmissing : (find r).value? = none → (find r).Shows ok p ((k found).run view answer q) := by
        intro hv
        obtain rfl : found = none := hr.value.trans hv
        exact hr.before_absent hv (ih none hnone trivial q hr.outside)
      cases hfind : find r with
      | value v =>
        rw [hfind] at hr
        obtain rfl : found = some v := hr.value
        exact .after hr.leads (ih (some v) (hsome v) (hn.2 v) q hr.outside)
      | absent => rw [hfind] at hmissing; exact hmissing rfl
      | looped => rw [hfind] at hmissing; exact hmissing rfl
      | early => rw [hfind] at hmissing; exact hmissing rfl

theorem Follows.run_calm {A : Placeholder → Prop}
    (hanswer : ∀ r, (∀ d, r = .later d → A d) → ∀ p, ok p.outside →
      ok (answer r p).2.outside ∧ p.Calm (answer r p).2)
    {recipe : Recipe σ} : ∀ {plan : Plan}, recipe.Follows ok plan → plan.Needs A → ∀ p, ok p.outside →
      ok (recipe.run view answer p).2.outside ∧ p.Calm (recipe.run view answer p).2 := by
  induction recipe with
  | give result => exact fun _ _ p hp => ⟨hp, .refl p⟩
  | look k ih => exact fun hf hn p hp => ih _ (hf _) hn p hp
  | register ty k ih =>
    intro plan hf hn p hp
    obtain ⟨hok, hcalm⟩ := ih _ (hf _) hn (p.registerAll [ty]) hp
    exact ⟨hok, { hcalm with }⟩
  | load k ih => exact fun hf hn p hp => ih _ (hf _ hp) hn p hp
  | store s next ih =>
    intro plan hf hn p _
    obtain ⟨hok, hcalm⟩ := ih hf.2 hn { p with outside := s } hf.1
    exact ⟨hok, { hcalm with }⟩
  | ask r k ih =>
    intro plan hf hn p hp
    obtain ⟨next, rfl, hnone, hsome⟩ := hf
    obtain ⟨hok, hcalm⟩ := hanswer r hn.1 p hp
    have hrest : ok ((k (answer r p).1).run view answer (answer r p).2).2.outside ∧
        (answer r p).2.Calm ((k (answer r p).1).run view answer (answer r p).2).2 := by
      cases hfound : (answer r p).1 with
      | none => exact ih none hnone trivial _ hok
      | some v => exact ih (some v) (hsome v) (hn.2 v) _ hok
    exact ⟨hrest.1, hcalm.trans hrest.2⟩

theorem Reads.run_gives {recipe : Recipe σ} (h : recipe.Reads ok) (p : Progress σ) (hp : ok p.outside) :
    ∃ r, markerIds r.toText = [] ∧ (Found.value r).Shows ok p (recipe.run view answer p) := by
  induction recipe generalizing p with
  | give result =>
    obtain ⟨r, rfl, hr⟩ := h
    exact ⟨r, hr, rfl, .refl p, hp⟩
  | look k ih => exact ih _ (h _) p hp
  | register ty k ih =>
    obtain ⟨r, hr, hs⟩ := ih _ (h _) (p.registerAll [ty]) hp
    exact ⟨r, hr, .after (.registerAll p [ty]) hs⟩
  | ask r k ih => exact h.elim
  | load k ih => exact ih _ (h _ hp) p hp
  | store s next ih =>
    obtain ⟨r, hr, hs⟩ := ih h.2 { p with outside := s } h.1
    exact ⟨r, hr, .after (.store p s) hs⟩

end Recipe

/-- A registry whose recipes go by plans, but for some of the last tier that only read. Nothing asks for those. -/
structure Planned (reg : Registry σ) (ok : σ → Prop) where
  plan? : Nat → Option Plan
  follows : ∀ {id} (h : id < reg.size) {plan}, plan? id = some plan → reg.entries[id].recipe.Follows ok plan
  reads : ∀ {id} (h : id < reg.size), plan? id = none →
    reg.entries[id].tier = .last ∧ reg.entries[id].recipe.Reads ok
  asks : ∀ {id} (_ : id < reg.size) {plan}, plan? id = some plan →
    plan.Needs fun d => d.id < reg.size → plan? d.id ≠ none

namespace Planned

variable {reg : Registry σ} {ok : σ → Prop} (c : Planned reg ok) (tier : Tier)

theorem confined (c : Planned reg ok) : reg.Confined ok := by
  intro id h
  cases hp : c.plan? id with
  | none => exact (c.reads h hp).2.within
  | some plan => exact (c.follows h hp).within

/-- The plan of a placeholder; what one gives that only reads stands for no text. -/
def plan (id : Nat) : Plan := (c.plan? id).getD (.give (some (.text "")))

def found (stack : List Nat) (r : Resolvable) : Found :=
  match r with
  | .now v => .value v
  | .later ⟨id, own⟩ =>
    if own = .last ∧ tier = .normal then .early
    else if _hs : stack.contains id then .looped
    else if _hid : id < reg.size then (c.plan id).found (fun r => found (id :: stack) r)
    else .absent
termination_by remaining reg.ids stack
decreasing_by exact remaining_enter_lt (List.mem_range.2 _hid) (by simpa using _hs)

def comes (stack : List Nat) (id : Nat) : Found := (c.plan id).found (c.found tier (id :: stack))

variable {c tier}

theorem call_shows_of {stack : List Nat} {id : Nat} (h : id < reg.size) {plan : Plan} (hp : c.plan? id = some plan)
    (hresolve : ∀ r, (∀ d, r = .later d → d.id < reg.size → c.plan? d.id ≠ none) → ∀ p, ok p.outside →
      (c.found tier (id :: stack) r).Shows ok p (reg.resolve tier (id :: stack) r p))
    (p : Progress σ) (hok : ok p.outside) : (c.comes tier stack id).Shows ok p (reg.call tier stack h p) := by
  have hplan : c.plan id = plan := by rw [Planned.plan, hp]; rfl
  rw [comes, hplan]
  exact Recipe.Follows.run_shows hresolve (c.follows h hp) (c.asks h hp) p hok

theorem resolve_shows (stack : List Nat) : ∀ r, (∀ d, r = .later d → d.id < reg.size → c.plan? d.id ≠ none) →
    ∀ p, ok p.outside → (c.found tier stack r).Shows ok p (reg.resolve tier stack r p) := by
  induction stack using reg.descent with
  | step stack ih =>
    intro r hr p hp
    cases r with
    | now v => rw [found, Registry.resolve]; exact ⟨rfl, .refl p, hp⟩
    | later d =>
      obtain ⟨id, own⟩ := d
      rw [found, Registry.resolve]
      by_cases hearly : own = .last ∧ tier = .normal
      · rw [if_pos hearly, if_pos hearly]; exact ⟨rfl, .early p, hp⟩
      · rw [if_neg hearly, if_neg hearly]
        by_cases hs : stack.contains id
        · rw [dif_pos hs, dif_pos hs]
          exact ⟨rfl, .recordCycle p id stack, hp⟩
        · rw [dif_neg hs, dif_neg hs]
          by_cases h : id < reg.size
          · rw [dif_pos h, dif_pos h]
            obtain ⟨plan, hplan⟩ := Option.ne_none_iff_exists'.mp (hr ⟨id, own⟩ rfl h)
            exact call_shows_of h hplan (ih id h (by simpa using hs)) p hp
          · rw [dif_neg h, dif_neg h]; exact ⟨rfl, .refl p, hp⟩

theorem call_shows {stack : List Nat} {id : Nat} (h : id < reg.size) {plan : Plan} (hp : c.plan? id = some plan)
    (p : Progress σ) (hok : ok p.outside) : (c.comes tier stack id).Shows ok p (reg.call tier stack h p) :=
  call_shows_of h hp (resolve_shows (id :: stack)) p hok

def Whole (c : Planned reg ok) : Prop := ∀ {id}, id < reg.size → c.plan? id ≠ none

section
variable {stack : List Nat} {id : Nat} (h : id < reg.size) {p q : Progress σ} (hok : ok p.outside)
include hok

variable (tier stack) in
theorem call_reads (hp : c.plan? id = none) :
    ∃ r, markerIds r.toText = [] ∧ (Found.value r).Shows ok p (reg.call tier stack h p) :=
  (c.reads h hp).2.run_gives p hok

theorem of_call_none (hc : reg.call tier stack h p = (none, q)) :
    (c.comes tier stack id).value? = none ∧ (c.comes tier stack id).trace.Leads p q ∧ ok q.outside := by
  cases hp : c.plan? id with
  | none =>
    obtain ⟨r, -, hs⟩ := call_reads tier stack h hok hp
    rw [hc] at hs
    cases hs.value
  | some plan =>
    have hs : (c.comes tier stack id).Shows ok p (reg.call tier stack h p) := call_shows h hp p hok
    rw [hc] at hs
    exact ⟨hs.value.symm, hs.leads, hs.outside⟩

theorem of_call_some {r : Resolved} (hc : reg.call tier stack h p = (some r, q)) :
    ∃ v, c.comes tier stack id = .value v ∧ markerIds v.toText = markerIds r.toText ∧ (c.plan? id ≠ none → v = r) ∧
      ({} : Trace).Leads p q ∧ ok q.outside := by
  cases hp : c.plan? id with
  | none =>
    obtain ⟨r', hr', hs⟩ := call_reads tier stack h hok hp
    rw [hc] at hs
    obtain rfl : r = r' := Option.some.inj hs.value
    have hplan : c.plan id = .give (some (.text "")) := by rw [Planned.plan, hp]; rfl
    refine ⟨.text "", ?_, ?_, fun hn => absurd rfl hn, hs.leads, hs.outside⟩
    · rw [comes, hplan]; rfl
    · rw [hr']; decide +kernel
  | some plan =>
    have hs : (c.comes tier stack id).Shows ok p (reg.call tier stack h p) := call_shows h hp p hok
    rw [hc] at hs
    cases hcomes : c.comes tier stack id with
    | value v =>
      rw [hcomes] at hs
      obtain rfl : r = v := Option.some.inj hs.value
      exact ⟨r, rfl, rfl, fun _ => rfl, hs.leads, hs.outside⟩
    | absent => rw [hcomes] at hs; cases hs.value
    | looped => rw [hcomes] at hs; cases hs.value
    | early => rw [hcomes] at hs; cases hs.value

end

/-! ## Fewer in flight -/

/-- Where no cycle is met, the same is found with fewer in flight. -/
theorem found_of_subset (stack : List Nat) : ∀ {stack' : List Nat}, stack' ⊆ stack → ∀ r,
    (c.found tier stack r).trace.cycles = 0 → c.found tier stack' r = c.found tier stack r := by
  induction stack using reg.descent with
  | step stack ih =>
    intro stack' hsub r hc
    cases r with
    | now v => rw [found, found]
    | later d =>
      obtain ⟨id, own⟩ := d
      rw [found] at hc ⊢
      rw [found]
      by_cases hearly : own = .last ∧ tier = .normal
      · rw [if_pos hearly, if_pos hearly]
      · rw [if_neg hearly] at hc ⊢
        rw [if_neg hearly]
        by_cases hs : stack.contains id
        -- only here it matters what is in flight, and this is a cycle
        · rw [dif_pos hs] at hc; cases hc
        · rw [dif_neg hs] at hc ⊢
          have hs : id ∉ stack := by simpa using hs
          have hs' : ¬ stack'.contains id := by simpa using fun hm => hs (hsub hm)
          rw [dif_neg hs']
          by_cases h : id < reg.size
          · rw [dif_pos h] at hc ⊢
            rw [dif_pos h]
            exact Plan.found_of_no_cycle (ih id h hs (List.cons_subset_cons id hsub)) hc
          · rw [dif_neg h, dif_neg h]

theorem comes_of_subset {stack stack' : List Nat} (hsub : stack' ⊆ stack) (id : Nat)
    (hc : (c.comes tier stack id).trace.cycles = 0) : c.comes tier stack' id = c.comes tier stack id :=
  Plan.found_of_no_cycle (found_of_subset (id :: stack) (List.cons_subset_cons id hsub)) hc

end Planned

end Pipewright
