import Pipewright.Nodes.Basic
import Pipewright.Proofs.Contracts
import Pipewright.Proofs.Outcomes
import Pipewright.Proofs.Scoping

/-!
# Names handed out and declared

A name that a node declares was handed out to it, and to nobody else. So no name
is declared twice, and what sessions and statements refer to is declared
(`Pass.Scoped`). Each step of a node's code is a lemma about this invariant.
-/

namespace Pipewright

variable {σ : Type}

/-! ## Names that can be handed out -/

/-- The names of the target maps, which are never handed out. -/
def Targets.maps : List String := ["rectTargets", "rotRectTargets"]

structure Grantable (name : String) : Prop where
  isName : IsName name
  not_map : name ∉ Targets.maps

instance (name : String) : Decidable (Grantable name) :=
  decidable_of_iff (IsName name ∧ Targets.maps.contains name = false)
    ⟨fun h => ⟨h.1, by simpa using h.2⟩, fun h => ⟨h.isName, by simpa using h.not_map⟩⟩

theorem isName_numbered {name : String} (h : IsName name) (k : Nat) : IsName (numbered name k) := by
  obtain ⟨digits, hne, hdigits, hlist⟩ := toList_numbered name k
  refine ⟨fun hempty => hne ?_, fun c hc => ?_⟩
  · rw [hempty] at hlist
    exact (List.append_eq_nil_iff.mp hlist.symm).2
  · rw [hlist, List.mem_append] at hc
    rcases hc with hc | hc
    · exact h.chars c hc
    · have hdigit := hdigits c hc
      simp [isWordChar, Char.isAlphanum, hdigit]

theorem Targets.isName_of_mem_maps {x : String} (h : x ∈ maps) : IsName x := by
  simp only [maps, List.mem_cons, List.not_mem_nil, or_false] at h
  rcases h with rfl | rfl <;> decide

theorem numbered_not_mem_maps (name : String) (k : Nat) : numbered name k ∉ Targets.maps := by
  obtain ⟨d, hlast, hdigit⟩ := isDigit_getLast_numbered name k
  intro h
  simp only [Targets.maps, List.mem_cons, List.not_mem_nil, or_false] at h
  rcases h with h | h
  · rw [h] at hlast
    cases hlast
    exact absurd hdigit (by decide)
  · rw [h] at hlast
    cases hlast
    exact absurd hdigit (by decide)

theorem Grantable.freshName {name : String} (h : Grantable name) (taken : List String) :
    Grantable (freshName taken name) := by
  rcases freshName_cases taken name with hsame | ⟨k, hk⟩
  · rwa [hsame]
  · rw [hk]
    exact ⟨isName_numbered h.isName k, numbered_not_mem_maps name k⟩

/-! ## The invariant -/

/-- A scope without work to do before a return, in which all declared names are those of its statements. -/
structure Scope.Intact (s : Scope) : Prop where
  declared : s.declared = declaredNames s.stmts
  hooks : s.hooks = []

theorem Scope.Adds.intact {s t : Scope} {added : List Stmt} (h : Adds s t added) (hs : s.Intact) : t.Intact where
  declared := by rw [h.declared, h.stmts, declaredNames_append, hs.declared]
  hooks := h.hooks.trans hs.hooks

theorem Workspace.dropped_modifyScope {w : Workspace σ} (h : ∀ target, (w.scope target).dropped = [])
    {build : Scope → Scope} {target : Target} (hbuild : (build (w.scope target)).dropped = (w.scope target).dropped)
    (other : Target) : ((w.modifyScope build target).scope other).dropped = [] := by
  rw [scope_modifyScope]
  split
  next heq => exact heq ▸ hbuild.trans (h target)
  next => exact h other

def Session.value? : Session → Option Value
  | .mat m => some m.value
  | .value v => some v
  | _ => none

/-- A marker of the call that shows an image of the known ones in the preview. -/
def Registry.Previews (reg : Registry (Surroundings σ)) (l : Language) (known : List String) (text : String) : Prop :=
  ∃ (call : Nat) (mat : Value) (conversion : Placeholder) (value : Value), text = Marker.text call ∧
    reg.entry? call = some ⟨.normal, Gen.streamRecipe l 0 mat conversion⟩ ∧
    reg.entry? conversion.id = some ⟨.normal, .give (some (.value value))⟩ ∧
    (value = .absent ∨ ∃ color, value = l.colorConversion color .rgb) ∧ mat.text ∈ known

theorem Registry.entry?_register {ρ : Type} (reg : Registry ρ) (tier : Tier) (recipe : Recipe ρ) :
    Registry.entry? (reg.register tier recipe).2 (reg.register tier recipe).1.id = some ⟨tier, recipe⟩ :=
  Array.getElem?_push_size

theorem Registry.entry?_register_of_some {ρ : Type} {reg : Registry ρ} {id : Nat} {entry : Entry ρ}
    (h : reg.entry? id = some entry) (tier : Tier) (recipe : Recipe ρ) :
    Registry.entry? (reg.register tier recipe).2 id = some entry := by
  obtain ⟨hlt, rfl⟩ := Array.getElem?_eq_some_iff.mp h
  exact Array.getElem?_push_lt hlt

namespace Pass

def declared (p : Pass σ) : List String := p.work.classStart.declared ++ p.work.processFrame.declared

/-- The names that some node may declare, or has declared. -/
def granted (p : Pass σ) : List String :=
  p.work.names ++ if p.work.hasFlag Targets.flag then Targets.maps else []

def fields (p : Pass σ) : List String := "input" :: p.work.classStart.declared

def unpreviewed (l : Language) (p : Pass σ) (text _name : String) : Prop :=
  ¬ p.work.registry.Previews l p.fields text

/-- The names in `known` are in scope, and those in `pending` are granted to the node at work but not declared yet. -/
structure Scoped (l : Language) (known pending : List String) (p : Pass σ) : Prop where
  language : p.language = l
  classStart : p.work.classStart.Intact
  processFrame : p.work.processFrame.Intact
  dropped : ∀ target, (p.work.scope target).dropped = []
  distinct : (p.declared ++ pending).Nodup
  handedOut : ∀ x ∈ p.work.names, Grantable x
  granted : p.declared ++ pending ⊆ p.granted
  /-- Only Python has local variables. -/
  local_python : l ≠ .python → p.work.processFrame.declared = []
  known : known ⊆ "input" :: p.declared
  stmts : StmtsScoped l (p.unpreviewed l) p.fields p.work.processFrame.stmts
  session : ∀ id session value, p.session? id = some session → session.value? = some value →
    value.text ∈ "input" :: p.declared

namespace Scoped

variable {l : Language} {known pending : List String} {p : Pass σ}

section
variable (h : p.Scoped l known pending)
include h

theorem isName_of_granted {x : String} (hx : x ∈ p.granted) : IsName x := by
  rcases List.mem_append.mp hx with hx | hx
  · exact (h.handedOut x hx).isName
  · split at hx
    · exact Targets.isName_of_mem_maps hx
    · cases hx

theorem isName {x : String} (hx : x ∈ known) : IsName x := by
  rcases List.mem_cons.mp (h.known hx) with rfl | hx
  · decide
  · exact h.isName_of_granted (h.granted (List.mem_append_left _ hx))

theorem mem_fields (hl : l ≠ .python) {x : String} (hx : x ∈ known) : x ∈ p.fields := by
  have hin := h.known hx
  rwa [Pass.declared, h.local_python hl, List.append_nil] at hin

/-- Statements stay in scope when there are more fields and more placeholders. -/
theorem stmts_mono (q : Pass σ) (hframe : q.work.processFrame.stmts = p.work.processFrame.stmts)
    (hfields : p.fields ⊆ q.fields)
    (hentries : ∀ id entry, p.work.registry.entry? id = some entry → q.work.registry.entry? id = some entry) :
    StmtsScoped l (q.unpreviewed l) q.fields q.work.processFrame.stmts := by
  rw [hframe]
  have hlooser : Looser (p.unpreviewed l) (q.unpreviewed l) p.fields q.fields := by
    refine ⟨hfields, fun text name hq => .inl ?_⟩
    rintro ⟨call, mat, conversion, value, htext, hcall, hconversion, hvalue, hmat⟩
    exact hq ⟨call, mat, conversion, value, htext, hentries _ _ hcall, hentries _ _ hconversion, hvalue, hfields hmat⟩
  exact hlooser.stmts h.stmts

/-- A name that is handed out is new. -/
theorem reserve {name : String} (hname : Grantable name) :
    { p with work := p.work.reserve (p.work.uniqueName name) }.Scoped l known
      (pending ++ [p.work.uniqueName name]) := by
  have hgrantable : Grantable (p.work.uniqueName name) := hname.freshName _
  have hnew : p.work.uniqueName name ∉ p.work.names ++ p.work.classStart.declared := freshName_not_mem _ _
  generalize p.work.uniqueName name = x at hgrantable hnew
  have hungranted : x ∉ p.granted := by
    intro hx
    rcases List.mem_append.mp hx with hx | hx
    · exact hnew (List.mem_append_left _ hx)
    · split at hx
      · exact hgrantable.not_map hx
      · cases hx
  have hmore : p.granted ⊆ ({ p with work := p.work.reserve x } : Pass σ).granted :=
    List.append_subset.mpr ⟨fun _ hy => List.mem_append_left _ (List.mem_append_left _ hy),
      List.subset_append_right _ _⟩
  refine { h with
    distinct := ?_
    handedOut := ?_
    granted := ?_ }
  · change (p.declared ++ (pending ++ [x])).Nodup
    rw [← List.append_assoc]
    refine h.distinct.append (List.nodup_singleton x) ?_
    intro y hy hyx
    obtain rfl := List.mem_singleton.mp hyx
    exact hungranted (h.granted hy)
  · intro y hy
    rcases List.mem_append.mp hy with hy | hy
    · exact h.handedOut y hy
    · obtain rfl := List.mem_singleton.mp hy
      exact hgrantable
  · change p.declared ++ (pending ++ [x]) ⊆ _
    rw [← List.append_assoc]
    intro y hy
    rcases List.mem_append.mp hy with hy | hy
    · exact hmore (h.granted hy)
    · exact List.mem_append_left _ (List.mem_append_right _ hy)

/-- The target maps are granted to the node that installs the flag. -/
theorem addFlag : { p with work := p.work.addFlag Targets.flag }.Scoped l known
    ((if p.work.hasFlag Targets.flag then [] else Targets.maps) ++ pending) := by
  by_cases hflag : p.work.hasFlag Targets.flag
  · simpa [Workspace.addFlag_of_has hflag, hflag] using h
  · have hnames : p.granted = p.work.names := by simp [Pass.granted, hflag]
    have hadd := Workspace.addFlag_of_new (Bool.eq_false_iff.mpr hflag)
    have hgranted : ({ p with work := p.work.addFlag Targets.flag } : Pass σ).granted =
        p.work.names ++ Targets.maps := by
      simp [Pass.granted, hadd, Workspace.hasFlag]
    -- up to here only names that were handed out are granted, and the maps are none of those
    have hnew : List.Disjoint Targets.maps (p.declared ++ pending) := by
      intro x hmap hx
      exact (h.handedOut x (hnames ▸ h.granted hx)).not_map hmap
    have hcomm : (p.declared ++ Targets.maps).Perm (Targets.maps ++ p.declared) := List.perm_append_comm
    have hswap : (p.declared ++ (Targets.maps ++ pending)).Perm (Targets.maps ++ (p.declared ++ pending)) := by
      simpa using hcomm.append_right pending
    have hmaps : Targets.maps.Nodup := by decide
    rw [if_neg hflag]
    rw [hadd] at hgranted ⊢
    refine { h with
      distinct := ?_
      granted := ?_ }
    · exact hswap.nodup_iff.mpr (hmaps.append h.distinct hnew)
    · rw [hgranted]
      refine List.Subset.trans hswap.subset (List.append_subset.mpr ⟨List.subset_append_right _ _, ?_⟩)
      exact List.Subset.trans (hnames ▸ h.granted) (List.subset_append_left _ _)

end

section
variable {xs : List String} (h : p.Scoped l known (xs ++ pending)) {build : Scope → Scope} {added : List Stmt}
include h

/-- Pending names are declared at the start of the class, among the names declared so far. -/
theorem declareFields (hadds : Scope.Adds p.work.classStart (build p.work.classStart) added)
    (hnames : declaredNames added = xs) :
    { p with work := p.work.modifyScope build .classStart }.Scoped l (xs ++ known) pending := by
  have hfields : (build p.work.classStart).declared = p.work.classStart.declared ++ xs := by
    rw [hadds.declared, hnames]
  have hdeclared : ({ p with work := p.work.modifyScope build .classStart } : Pass σ).declared =
      p.work.classStart.declared ++ xs ++ p.work.processFrame.declared :=
    congrArg (· ++ _) hfields
  have hperm : (({ p with work := p.work.modifyScope build .classStart } : Pass σ).declared ++ pending).Perm
      (p.declared ++ (xs ++ pending)) := by
    rw [hdeclared, Pass.declared]
    have hcomm : (xs ++ p.work.processFrame.declared).Perm (p.work.processFrame.declared ++ xs) :=
      List.perm_append_comm
    simpa using (hcomm.append_right pending).append_left p.work.classStart.declared
  have hmore : p.declared ⊆ ({ p with work := p.work.modifyScope build .classStart } : Pass σ).declared := by
    rw [hdeclared, Pass.declared]
    intro x hx
    simp only [List.mem_append] at hx ⊢
    tauto
  refine { h with
    classStart := hadds.intact h.classStart
    dropped := Workspace.dropped_modifyScope h.dropped hadds.dropped
    distinct := hperm.nodup_iff.mpr h.distinct
    granted := List.Subset.trans hperm.subset h.granted
    known := ?_
    stmts := ?_
    session := fun id session value hs hv => List.cons_subset_cons _ hmore (h.session id session value hs hv) }
  · refine List.append_subset.mpr ⟨fun x hx => List.mem_cons_of_mem _ ?_,
      List.Subset.trans h.known (List.cons_subset_cons _ hmore)⟩
    rw [hdeclared]
    exact List.mem_append_left _ (List.mem_append_right _ hx)
  · refine h.stmts_mono _ rfl (List.cons_subset_cons _ ?_) fun _ _ hentry => hentry
    change p.work.classStart.declared ⊆ (build p.work.classStart).declared
    rw [hfields]
    exact List.subset_append_left _ _

/-- Statements are added to the frame method, and pending names are declared there in Python. -/
theorem addStatements (hadds : Scope.Adds p.work.processFrame (build p.work.processFrame) added)
    (hnames : declaredNames added = xs) (hlocal : xs = [] ∨ l = .python)
    (hscoped : StmtsScoped l (p.unpreviewed l) known added) :
    { p with work := p.work.modifyScope build .processFrame }.Scoped l (xs ++ known) pending := by
  have hdeclared :
      ({ p with work := p.work.modifyScope build .processFrame } : Pass σ).declared = p.declared ++ xs := by
    change p.work.classStart.declared ++ (build p.work.processFrame).declared = _
    rw [hadds.declared, hnames, ← List.append_assoc]
    rfl
  have hmore : p.declared ⊆ ({ p with work := p.work.modifyScope build .processFrame } : Pass σ).declared :=
    hdeclared ▸ List.subset_append_left _ _
  refine { h with
    processFrame := hadds.intact h.processFrame
    dropped := Workspace.dropped_modifyScope h.dropped hadds.dropped
    distinct := ?_
    granted := ?_
    local_python := ?_
    known := ?_
    stmts := ?_
    session := fun id session value hs hv => List.cons_subset_cons _ hmore (h.session id session value hs hv) }
  · rw [hdeclared, List.append_assoc]
    exact h.distinct
  · rw [hdeclared, List.append_assoc]
    exact h.granted
  · intro hl
    change (build p.work.processFrame).declared = []
    rw [hadds.declared, hnames, h.local_python hl, hlocal.resolve_right hl, List.nil_append]
  · refine List.append_subset.mpr ⟨fun x hx => List.mem_cons_of_mem _ ?_,
      List.Subset.trans h.known (List.cons_subset_cons _ hmore)⟩
    rw [hdeclared]
    exact List.mem_append_right _ hx
  · change StmtsScoped l (p.unpreviewed l) p.fields (build p.work.processFrame).stmts
    rw [hadds.stmts, stmtsScoped_append, ← h.processFrame.declared]
    have hlooser : Looser (p.unpreviewed l) (p.unpreviewed l) known (p.fields ++ p.work.processFrame.declared) :=
      ⟨h.known, fun _ _ hm => .inl hm⟩
    exact ⟨h.stmts, hlooser.stmts hscoped⟩

end

section
variable (h : p.Scoped l known pending)
include h

theorem addPlaceholder (tier : Tier) (recipe : Recipe (Surroundings σ)) :
    { p with work := { p.work with registry := (p.work.registry.register tier recipe).2 } }.Scoped l known pending := by
  have hentries : ∀ id entry, p.work.registry.entry? id = some entry →
      Registry.entry? (p.work.registry.register tier recipe).2 id = some entry :=
    fun _ _ hentry => Registry.entry?_register_of_some hentry tier recipe
  exact { h with stmts := h.stmts_mono _ rfl (fun _ hx => hx) hentries }

/-- The session of a node may refer to what is known. -/
theorem store {session : Session} (hsession : ∀ value, session.value? = some value → value.text ∈ known) (id : Nat) :
    (p.store id session).Scoped l [] pending := by
  refine { h with
    known := List.nil_subset _
    session := ?_ }
  intro other found value hfound hvalue
  rw [Pass.session?, store_sessions, List.lookup_cons] at hfound
  split at hfound
  · cases hfound
    exact h.known (hsession value hvalue)
  · exact h.session other found value hfound hvalue

end

end Scoped

theorem scoped_new (options : BuildOptions) (outside : σ) : (new options outside).Scoped options.language [] [] where
  language := rfl
  classStart := ⟨rfl, rfl⟩
  processFrame := ⟨rfl, rfl⟩
  dropped target := by cases target <;> rfl
  distinct := List.nodup_nil
  handedOut x hx := absurd hx List.not_mem_nil
  granted := List.nil_subset _
  local_python _ := rfl
  known := List.nil_subset _
  stmts := trivial
  session _ _ _ h := by cases h

end Pass

/-! ## Steps of node code -/

def Scope.Declares (build : Scope → Scope) (xs : List String) : Prop :=
  ∀ s : Scope, (s.declared ++ xs).Nodup → ∃ added, Adds s (build s) added ∧ declaredNames added = xs

def Scope.Writes (build : Scope → Scope) (l : Language) (mentions : String → String → Prop) (known : List String) :
    Prop :=
  ∀ s : Scope, s.hooks = [] →
    ∃ added, Adds s (build s) added ∧ declaredNames added = [] ∧ StmtsScoped l mentions known added

namespace Scope

variable {l : Language} {mentions : String → String → Prop} {known : List String}

theorem Declares.field {x : String} {initial : Value} {visibility : Visibility} {label : Option String}
    {modifiers : Modifiers} : Declares (·.instanceVariable visibility ⟨x, initial⟩ label modifiers) [x] := by
  intro s hs
  have hnew : x ∉ s.declared := fun hx => (List.disjoint_of_nodup_append hs) hx (List.mem_singleton_self x)
  exact ⟨_, .instanceVariable visibility hnew label modifiers, rfl⟩

theorem Declares.andThen {build more : Scope → Scope} {xs ys : List String} (h : Declares build xs)
    (h' : Declares more ys) : Declares (fun s => more (build s)) (xs ++ ys) := by
  intro s hs
  rw [← List.append_assoc] at hs
  obtain ⟨added, hadds, hnames⟩ := h s (List.Nodup.of_append_left hs)
  obtain ⟨added', hadds', hnames'⟩ := h' (build s) (by rwa [hadds.declared, hnames])
  exact ⟨_, hadds.trans hadds', by simp [hnames, hnames']⟩

theorem Declares.group {build : Scope → Scope} {xs : List String} (h : Declares build xs) :
    Declares (·.group build) xs := by
  intro s hs
  obtain ⟨blank, hblank, hgap⟩ := Adds.beginGroup s
  have hnone := declaredNames_gap hgap
  obtain ⟨added, hadds, hnames⟩ := h s.beginGroup (by rwa [hblank.declared, hnone, List.append_nil])
  exact ⟨_, hblank.trans hadds, by simp [hnone, hnames]⟩

theorem Writes.act {action : Action} (h : action.Scoped l mentions known) :
    Writes (·.act action) l mentions known :=
  fun s _ => ⟨_, .push s rfl, rfl, h, trivial⟩

theorem Writes.ret {value : Option Value} (h : Covers l known value.toList) :
    Writes (·.ret value) l mentions known :=
  fun _ hs => ⟨_, .ret hs value, rfl, h, trivial⟩

theorem Writes.andThen {build more : Scope → Scope} (h : Writes build l mentions known)
    (h' : Writes more l mentions known) : Writes (fun s => more (build s)) l mentions known := by
  intro s hs
  obtain ⟨added, hadds, hnames, hscoped⟩ := h s hs
  obtain ⟨added', hadds', hnames', hscoped'⟩ := h' (build s) (hadds.hooks.trans hs)
  refine ⟨_, hadds.trans hadds', by simp [hnames, hnames'], ?_⟩
  rw [stmtsScoped_append, hnames, List.append_nil]
  exact ⟨hscoped, hscoped'⟩

/-- A body that declares nothing is in scope where it is built, and has dropped nothing. -/
theorem Writes.enclose {build : Scope → Scope} (h : Writes build l mentions known) (s : Scope) :
    BlockScoped l mentions known (build s.child).toBlock ∧ (build s.child).dropped = [] := by
  obtain ⟨added, hadds, -, hscoped⟩ := h s.child rfl
  refine ⟨?_, hadds.dropped⟩
  change StmtsScoped l mentions known (build s.child).stmts
  rw [hadds.stmts]
  exact hscoped

theorem Writes.foreach {var : Variable} {iterable : Value} {build : Scope → Scope} (h : Covers l known [iterable])
    (hbody : Writes build l mentions (var.name :: known)) : Writes (·.foreach var iterable build) l mentions known := by
  intro s _
  obtain ⟨hscoped, hdropped⟩ := hbody.enclose s
  exact ⟨_, .enclose s hdropped fun _ => rfl, rfl, ⟨h, hscoped⟩, trivial⟩

theorem Writes.forLoop {var : Variable} {start limit : Value} {build : Scope → Scope} (h : Covers l known [start])
    (hlimit : Covers l (var.name :: known) [limit]) (hbody : Writes build l mentions (var.name :: known)) :
    Writes (·.forLoop var start limit none build) l mentions known := by
  intro s _
  obtain ⟨hscoped, hdropped⟩ := hbody.enclose s
  exact ⟨_, .enclose s hdropped fun _ => rfl, rfl, ⟨h, hlimit, hscoped⟩, trivial⟩

end Scope

namespace Pass.Scoped

variable {l : Language} {known pending xs : List String} {p : Pass σ} {rely : Target → Pass σ → Pass σ → Prop}

open Gen

theorem uniqueVariable {name : String} {initial : Value} {post : Variable → Pass σ → Prop}
    (h : p.Scoped l known pending) (hname : Grantable name) {target : Target}
    (hpost : ∀ x q, q.Scoped l known (pending ++ [x]) → post ⟨x, initial⟩ q) :
    (Gen.uniqueVariable name initial).Ensures rely target p post :=
  ensures_uniqueVariable (hpost _ _ (h.reserve hname))

theorem register {tier : Tier} {recipe : Recipe (Surroundings σ)} {post : Placeholder → Pass σ → Prop}
    (h : p.Scoped l known pending) {target : Target}
    (hpost : ∀ placeholder q, q.Scoped l known pending →
      q.work.registry.entry? placeholder.id = some ⟨tier, recipe⟩ →
      (∀ id entry, p.work.registry.entry? id = some entry → q.work.registry.entry? id = some entry) →
      post placeholder q) : (Gen.register tier recipe).Ensures rely target p post :=
  ensures_register (hpost _ _ (h.addPlaceholder tier recipe) (Registry.entry?_register _ _ _)
    fun _ _ hentry => Registry.entry?_register_of_some hentry tier recipe)

theorem group {build : Scope → Scope} {post : Unit → Pass σ → Prop} {target : Target}
    (hbuild : Scope.Declares build xs) (h : p.Scoped l known (xs ++ pending))
    (hpost : ∀ q, q.Scoped l (xs ++ known) pending → post () q) : (Gen.group build).Ensures rely target p post := by
  refine ensures_group (hpost _ ?_)
  have hnodup : (p.work.classStart.declared ++ xs).Nodup :=
    h.distinct.sublist ((List.sublist_append_left _ _).append (List.sublist_append_left _ _))
  obtain ⟨added, hadds, hnames⟩ := hbuild.group p.work.classStart hnodup
  exact h.declareFields hadds hnames

theorem localVariable {x : String} {initial : Value} {post : Unit → Pass σ → Prop}
    (h : p.Scoped .python known (x :: pending)) (hinitial : Language.python.references initial.text ⊆ known)
    (hpost : ∀ q, q.Scoped .python (x :: known) pending → post () q) :
    (Gen.append (·.localVariable ⟨x, initial⟩)).Ensures rely .processFrame p post := by
  have hnew : x ∉ p.work.processFrame.declared := fun hx =>
    List.disjoint_of_nodup_append h.distinct (List.mem_append_right _ hx) List.mem_cons_self
  have hcovers : Covers .python known [initial] := covers_cons.mpr ⟨hinitial, covers_nil⟩
  have hpending : p.Scoped .python known ([x] ++ pending) := h
  exact ensures_append (hpost _ (hpending.addStatements (.localVariable hnew false) rfl (.inr rfl) ⟨hcovers, trivial⟩))

theorem append {build : Scope → Scope} {post : Unit → Pass σ → Prop} (h : p.Scoped l known pending)
    (hbuild : Scope.Writes build l (p.unpreviewed l) known)
    (hpost : ∀ q, q.Scoped l known pending → post () q) :
    (Gen.append build).Ensures rely .processFrame p post := by
  obtain ⟨added, hadds, hnames, hscoped⟩ := hbuild p.work.processFrame h.processFrame.hooks
  have hpending : p.Scoped l known ([] ++ pending) := h
  exact ensures_append (hpost _ (hpending.addStatements hadds hnames (.inl rfl) hscoped))

end Pass.Scoped

end Pipewright
