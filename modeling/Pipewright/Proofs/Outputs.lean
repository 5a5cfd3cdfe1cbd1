import Pipewright.Proofs.Generations
import Pipewright.Proofs.LateValues
import Pipewright.Proofs.Parts
import Pipewright.Proofs.Places

/-!
# Outputs read early or late

An output may be asked for before its node is generated. Then a marker stands for
it in the program, and the recipe behind it looks among the sessions when the
program is finished. As sessions are never replaced, the text is the same as if the
output had been asked for late (`Source.written_early_or_late`).
-/

namespace Pipewright

variable {σ : Type}

/-! ## A marker behind tabs -/

theorem markerIds_of_not_mem {text : String} (h : '<' ∉ text.toList) : markerIds text = [] :=
  (Reads.of_not_mem h).markerIds_eq.2

theorem open_not_mem_tabs (n : Nat) : '<' ∉ (tabs n).toList := by
  intro h
  rw [tabs, String.toList_ofList] at h
  cases List.eq_of_mem_replicate h

namespace Registry

variable (reg : Registry σ) (tier : Tier)

theorem sweep_plain {text : String} (h : markerIds text = []) (p : Progress σ) :
    (reg.sweep tier text p).Comes text false p := by
  rw [sweep, sweepSegments_of_plain _ (List.filterMap_eq_nil_iff.mp h)]
  exact ⟨join_segments text, rfl, rfl⟩

/-- A marker behind tabs. -/
theorem comes_tabbed {id : Nat} (hid : id < Marker.idBound) (n : Nat) (p : Progress σ) :
    (reg.sweep tier (tabs n ++ Marker.text id) p).Comes
      (tabs n ++ (reg.expand tier [] id p).1.getD (Marker.text id)) (reg.expand tier [] id p).1.isSome
      (reg.expand tier [] id p).2 := by
  have htabs := reg.sweep_plain tier (markerIds_of_not_mem (open_not_mem_tabs n)) p
  have haround := sweep_around hid htabs rfl (reg.sweep_empty tier _)
  rwa [String.append_empty, String.append_empty, Bool.or_false, Bool.false_or] at haround

theorem sweep_tabbed {id : Nat} (hid : id < Marker.idBound) (n : Nat) (p : Progress σ) :
    (reg.sweep tier (tabs n ++ Marker.text id) p).text =
      tabs n ++ (reg.expand tier [] id p).1.getD (Marker.text id) :=
  (reg.comes_tabbed tier hid n p).text

end Registry

/-! ## The recipe of an output -/

section
variable {source : Source} {output : String} {extract : GenValue → Option Resolved}

def Source.found? (source : Source) (output : String) (extract : GenValue → Option Resolved) (sessions : Sessions) :
    Option Resolved :=
  match sessions.lookup source.ref.id with
  | none => none
  | some session => (source.read session output).toOption.bind extract

theorem Gen.outputProbe_eq (s : Surroundings σ) :
    Gen.outputProbe source output extract s = (source.found? output extract s.sessions, s) := by
  unfold Gen.outputProbe Source.found?
  cases s.sessions.lookup source.ref.id with
  | none => rfl
  | some session => cases hread : source.read session output <;> simp [hread, Except.toOption]

theorem Gen.within_outputProbe (ok : Surroundings σ → Prop) :
    (Recipe.ofProbe (Gen.outputProbe source output extract)).Within (fun _ => True) ok := by
  intro s hs
  refine ⟨?_, trivial⟩
  rw [Gen.outputProbe_eq]
  exact hs

namespace Registry

variable {reg : Registry (Surroundings σ)}

def Probes (reg : Registry (Surroundings σ)) (source : Source) (output : String)
    (extract : GenValue → Option Resolved) (id : Nat) : Prop :=
  reg.entry? id = some ⟨.normal, .ofProbe (Gen.outputProbe source output extract)⟩

theorem Probes.call {id : Nat} (h : reg.Probes source output extract id) (tier : Tier) (stack : List Nat)
    (hid : id < reg.size) (p : Progress (Surroundings σ)) :
    reg.call tier stack hid p = (source.found? output extract p.outside.sessions, p) := by
  have hentry : reg.entries[id] = ⟨.normal, .ofProbe (Gen.outputProbe source output extract)⟩ :=
    (Array.getElem?_eq_some_iff.mp h).2
  rw [Registry.call, hentry]
  simp only [Recipe.ofProbe, Recipe.run, Gen.outputProbe_eq]

theorem Probes.expand_none {id : Nat} (h : reg.Probes source output extract id) {tier : Tier}
    {p : Progress (Surroundings σ)} (hnone : source.found? output extract p.outside.sessions = none) :
    (reg.expand tier [] id p).1 = none := by
  generalize he : reg.expand tier [] id p = o
  cases he ▸ reg.attempts tier [] id p with
  | unknown _ => rfl
  | closed _ _ => rfl
  | cycle _ _ _ => rfl
  | without _ _ _ _ => rfl
  | undone _ _ _ _ _ => rfl
  | done hid ho hs hc hl =>
    rw [h.call, hnone] at hc
    cases hc

theorem Probes.expand_some {id : Nat} (h : reg.Probes source output extract id) {p : Progress (Surroundings σ)}
    {r : Resolved} (hsome : source.found? output extract p.outside.sessions = some r) (hr : markerIds r.toText = []) :
    (reg.expand .normal [] id p).1 = some r.toText := by
  have hid : id < reg.size := (Array.getElem?_eq_some_iff.mp h).1
  have hentry : reg.entries[id] = ⟨.normal, .ofProbe (Gen.outputProbe source output extract)⟩ :=
    (Array.getElem?_eq_some_iff.mp h).2
  have hopen : reg.IsOpen .normal hid p := .inl (by rw [hentry])
  have hcall : reg.call .normal [] hid p = (some r, p) := by rw [h.call, hsome]
  obtain ⟨htext, hprogress⟩ := reg.inner_of_plain hr .normal [] id p
  have hdone : reg.Attempts .normal [] id p _ :=
    .done hid hopen List.not_mem_nil hcall (by rw [hprogress]; rfl)
  rw [hdone.expand_eq, htext]

/-- Where the line of the marker of an output is, the normal tier puts what there is for the output. -/
theorem Probes.turns {id : Nat} (h : reg.Probes source output extract id) (hid : id < Marker.idBound) {sessions : Sessions}
    {r : Resolved} (hsome : source.found? output extract sessions = some r) (hr : markerIds r.toText = []) (n : Nat) :
    reg.Turns .normal (·.sessions = sessions) (tabs n ++ Marker.text id) (tabs n ++ r.toText) := by
  intro p hp
  have hfound : source.found? output extract p.outside.sessions = some r := by rw [hp, hsome]
  rw [reg.sweep_tabbed .normal hid, h.expand_some hfound hr, Option.getD_some]

/-- A marker stays while there is nothing for its output. -/
theorem Probes.stays {id : Nat} (h : reg.Probes source output extract id) (hid : id < Marker.idBound) {sessions : Sessions}
    (hnone : source.found? output extract sessions = none) (n : Nat) (tier : Tier) :
    reg.Turns tier (·.sessions = sessions) (tabs n ++ Marker.text id) (tabs n ++ Marker.text id) := by
  intro p hp
  have hfound : source.found? output extract p.outside.sessions = none := by rw [hp, hnone]
  rw [reg.sweep_tabbed tier hid, h.expand_none hfound, Option.getD_none]

theorem turns_tabbed {text : String} (h : '<' ∉ text.toList) {ok : Surroundings σ → Prop} (n : Nat) (tier : Tier) :
    reg.Turns tier ok (tabs n ++ text) (tabs n ++ text) := by
  have hplain : '<' ∉ (tabs n ++ text).toList := by
    rw [String.toList_append, List.mem_append, not_or]
    exact ⟨open_not_mem_tabs n, h⟩
  exact fun p _ => (reg.sweep_plain tier (markerIds_of_not_mem hplain) p).text

end Registry

end

/-! ## Asking for an output -/

namespace Source

variable (source : Source) (output : String) (extract : GenValue → Option Resolved)

def placeholder (p : Pass σ) : Resolvable × Pass σ :=
  let (r, registry, _) := p.work.registry.ofProbe (Gen.outputProbe source output extract) p.surroundings
  (r, { p with work := { p.work with registry } })

variable {source output extract} {p : Pass σ}

theorem placeholder_some {r : Resolved} (h : source.found? output extract p.sessions = some r) :
    source.placeholder output extract p = (.now r, p) := by
  simp only [placeholder, Registry.ofProbe, Gen.outputProbe_eq, Pass.surroundings, h]

theorem placeholder_none (h : source.found? output extract p.sessions = none) :
    (source.placeholder output extract p).1 = .later ⟨p.work.registry.size, .normal⟩ ∧
      (source.placeholder output extract p).2.work.registry.Probes source output extract p.work.registry.size := by
  simp only [placeholder, Registry.ofProbe, Gen.outputProbe_eq, Pass.surroundings, h]
  exact ⟨rfl, Array.getElem?_push_size⟩

end Source

/-! ## From the call to the end -/

def Workspace.Registers (w w' : Workspace σ) : Prop := w.registry.entries.toList <+: w'.registry.entries.toList

namespace Pass

theorem finish_sessions (p : Pass σ) : p.finish.2.sessions = p.sessions := by
  cases h : (p.program.assemble p.language).result <;> simp only [finish, h]

theorem finish_registry (p : Pass σ) : p.finish.2.work.registry = p.work.registry := by
  cases h : (p.program.assemble p.language).result <;> simp only [finish, h]

theorem finish_language (p : Pass σ) : p.finish.2.language = p.language := by
  cases h : (p.program.assemble p.language).result <;> simp only [finish, h]

end Pass

namespace Graph

inductive Step (graph : Graph σ) : Live σ → Live σ → Prop
  | move {s t : Live σ} : graph.Move Workspace.Registers [] s t → graph.Step s t
  | initialStage {s : Live σ} : s.busy = [] → graph.Step s (s.update fun p => { p with stage := .initialGen })
  | endStage {s : Live σ} : s.busy = [] →
      graph.Step s (s.update fun p => { p with stage := .endGen, ending := [] })
  | finish {s : Live σ} : s.busy = [] → graph.Step s (s.update fun p => p.finish.2)

def Steps (graph : Graph σ) : Live σ → Live σ → Prop := Relation.ReflTransGen graph.Step

variable {graph : Graph σ} {s t : Live σ}

theorem Step.orderly (h : graph.Step s t) (hs : Orderly s) : Orderly t := by
  cases h with
  | move hmove => exact hs.move hmove
  | initialStage _ => exact hs.update _ rfl
  | endStage _ => exact hs.update _ rfl
  | finish _ => exact hs.update _ s.pass.finish_sessions

theorem Step.sessions (h : graph.Step s t) : s.pass.sessions <:+ t.pass.sessions := by
  cases h with
  | move hmove => exact (Moves.single hmove).sessions
  | initialStage _ => exact List.suffix_refl _
  | endStage _ => exact List.suffix_refl _
  | finish _ => simp only [Live.update_pass, Pass.finish_sessions, List.suffix_refl]

theorem Step.registers (h : graph.Step s t) : s.pass.work.Registers t.pass.work := by
  cases h with
  | move hmove =>
    cases hmove with
    | work hw => exact hw
    | defer _ _ =>
      rw [Live.update_pass, Pass.defer_work]
      exact List.prefix_refl _
    | _ => exact List.prefix_refl _
  | initialStage _ => exact List.prefix_refl _
  | endStage _ => exact List.prefix_refl _
  | finish _ => simp only [Workspace.Registers, Live.update_pass, Pass.finish_registry, List.prefix_refl]

theorem Step.language (h : graph.Step s t) : t.pass.language = s.pass.language := by
  cases h with
  | move hmove =>
    cases hmove with
    | defer _ _ => exact s.pass.defer_language _
    | _ => rfl
  | initialStage _ => rfl
  | endStage _ => rfl
  | finish _ => exact s.pass.finish_language

namespace Steps

/-- A request is answered in steps, if the code of the nodes only adds placeholders. -/
theorem generateWithin (hobeys : graph.Obeys Workspace.Registers) {depth position : Nat} {target : Target}
    {answer : Except GenError Unit} (hrun : graph.generateWithin depth position target s = some (answer, t)) :
    graph.Steps s t :=
  Relation.ReflTransGen.mono (fun _ _ => Step.move) _ _ ((generateWithin_moves hobeys hrun).2.mono List.nil_suffix)

theorem orderly (h : graph.Steps s t) (hs : Orderly s) : Orderly t := by
  induction h with
  | refl => exact hs
  | tail _ hstep ih => exact hstep.orderly ih

theorem sessions (h : graph.Steps s t) : s.pass.sessions <:+ t.pass.sessions := by
  induction h with
  | refl => exact List.suffix_refl _
  | tail _ hstep ih => exact ih.trans hstep.sessions

theorem registers (h : graph.Steps s t) : s.pass.work.Registers t.pass.work := by
  induction h with
  | refl => exact List.prefix_refl _
  | tail _ hstep ih => exact ih.trans hstep.registers

theorem language (h : graph.Steps s t) : t.pass.language = s.pass.language := by
  induction h with
  | refl => rfl
  | tail _ hstep ih => exact hstep.language.trans ih

end Steps

end Graph

/-! ## What stands at the place -/

section
variable {p : Pass σ} {target : Target} {b : Build} {block : String → Block} {written text : String}

def Pass.resolvedParts (p : Pass σ) (front line behind : String) : List String × Progress (Surroundings σ) :=
  p.work.registry.resolveParts [front, line, behind] (p.work.imports.registerAll (p.program.assemble p.language).uses)
    p.surroundings

/-- A line of a scope stands behind `front` and before `behind` in the assembled program, and the pass is finished by
resolving each of the three at its own place. -/
structure Pass.Parts (p : Pass σ) (target : Target) (b : Build) (block : String → Block) (written front : String)
    (indent : Nat) (behind : String) : Prop where
  lines : ∀ line, Visible line → ((p.program.fill (block line) target).assemble p.language).result =
    .ok ("\n".intercalate [front, tabs indent ++ line, behind])
  source : b.source = trim ("\n".intercalate (p.resolvedParts front (tabs indent ++ written) behind).1) ++ "\n"
  unresolved : b.unresolved = markerIds ("\n".intercalate (p.resolvedParts front (tabs indent ++ written) behind).1)
  imports : p.finish.2.work.imports = (p.resolvedParts front (tabs indent ++ written) behind).2.imports

theorem Pass.exists_parts {tabs : Nat} {before : List Stmt} {place : LinePlace} {behind : List Stmt}
    (htarget : Program.Places p.language target) (hfinish : p.finish.1 = .ok b)
    (hscope : (p.work.scope target).toBlock = .mk tabs (before ++ place.stmt written :: behind))
    (hwritten : Visible written) : ∃ front indent rest,
      p.Parts target b (fun line => .mk tabs (before ++ place.stmt line :: behind)) written front indent rest := by
  have hprogram : p.program = p.program.fill (.mk tabs (before ++ place.stmt written :: behind)) target := by
    rw [← hscope]
    cases target <;> rfl
  have hgap : Marker.Gap "\n" := ⟨'\n', rfl, by decide⟩
  have hthree : ∀ x y z, x ++ "\n" ++ y ++ "\n" ++ z = "\n".intercalate [x, y, z] := by
    simp [String.append_assoc]
  cases hassembled : (p.program.assemble p.language).result with
  | error e =>
    simp [Pass.finish, hassembled] at hfinish
  | ok assembled =>
    have hat := hassembled
    rw [hprogram] at hat
    obtain ⟨front, indent, rest, hlines⟩ := p.program.assemble_around htarget hwritten hat
    obtain rfl : "\n".intercalate [front, Pipewright.tabs indent ++ written, rest] = assembled := by
      have := hlines written hwritten
      rw [hat] at this
      rw [← hthree]
      exact (Except.ok.inj this).symm
    have himports : p.finish.2.work.imports =
        (p.resolvedParts front (Pipewright.tabs indent ++ written) rest).2.imports := by
      simp only [Pass.finish, hassembled, Registry.resolveText_intercalate _ hgap]
      rfl
    simp only [Pass.finish, hassembled, Registry.resolveText_intercalate _ hgap] at hfinish
    obtain rfl := Except.ok.inj hfinish
    refine ⟨front, indent, rest, fun line hline => ?_, rfl, rfl, himports⟩
    rw [← hthree]
    exact hlines line hline

/-- In the build, `text` stands where `written` stands in the assembled program, at the place of a line of a scope;
what the program has around that place is resolved at its own place. -/
def Pass.PutsIn (p : Pass σ) (target : Target) (b : Build) (block : String → Block) (written text : String) : Prop :=
  ∃ (front : String) (indent : Nat) (behind front' behind' : String),
    (∀ line, Visible line → ((p.program.fill (block line) target).assemble p.language).result =
      .ok ("\n".intercalate [front, tabs indent ++ line, behind])) ∧
    (p.work.registry.resolveParts [front, tabs indent ++ written, behind]
      (p.work.imports.registerAll (p.program.assemble p.language).uses) p.surroundings).1 =
        [front', tabs indent ++ text, behind'] ∧
    b.source = trim ("\n".intercalate [front', tabs indent ++ text, behind']) ++ "\n" ∧
    b.unresolved = markerIds ("\n".intercalate [front', tabs indent ++ text, behind'])

theorem Pass.Parts.putsIn {front behind : String} {indent : Nat} {ok : Surroundings σ → Prop}
    (h : p.Parts target b block written front indent behind)
    (hturns : ∀ n, p.work.registry.Turns .normal ok (tabs n ++ written) (tabs n ++ text))
    (hstays : ∀ n tier, p.work.registry.Turns tier ok (tabs n ++ text) (tabs n ++ text))
    (hok : ∀ tier line (q : Progress (Surroundings σ)), ok q.outside →
      ok (p.work.registry.sweep tier line q).progress.outside) (houtside : ok p.surroundings) :
    p.PutsIn target b block written text := by
  obtain ⟨front', behind', hparts⟩ := Registry.resolveParts_turns hok (hturns indent) (hstays indent) front behind
    (p.work.imports.registerAll (p.program.assemble p.language).uses) houtside
  have hsource := h.source
  have hunresolved := h.unresolved
  rw [Pass.resolvedParts, hparts] at hsource hunresolved
  exact ⟨front, indent, behind, front', behind', h.lines, hparts, hsource, hunresolved⟩

def Pass.Puts (p : Pass σ) (b : Build) (block : String → Block) (written text : String) : Prop :=
  p.PutsIn .processFrame b block written text

theorem Pass.puts {tabs : Nat} {before : List Stmt} {place : LinePlace} {behind : List Stmt}
    (hfinish : p.finish.1 = .ok b)
    (hframe : p.work.processFrame.toBlock = .mk tabs (before ++ place.stmt written :: behind))
    (hconfined : p.work.registry.Confined (·.sessions = p.sessions)) (hwritten : Visible written)
    (hturns : ∀ n, p.work.registry.Turns .normal (·.sessions = p.sessions) (Pipewright.tabs n ++ written)
      (Pipewright.tabs n ++ text))
    (hstays : ∀ n tier, p.work.registry.Turns tier (·.sessions = p.sessions) (Pipewright.tabs n ++ text)
      (Pipewright.tabs n ++ text)) :
    p.Puts b (fun line => .mk tabs (before ++ place.stmt line :: behind)) written text := by
  have hplaces : Program.Places p.language .processFrame := fun _ => by decide
  obtain ⟨front, indent, rest, hparts⟩ := Pass.exists_parts hplaces hfinish hframe hwritten
  exact hparts.putsIn hturns hstays (fun tier => hconfined.sweep tier) rfl

end

theorem Source.found?_of_suffix {source : Source} {output : String} {extract : GenValue → Option Resolved}
    {old new : Sessions} (h : old <:+ new) (hnew : (new.map Prod.fst).Nodup) {r : Resolved}
    (hold : source.found? output extract old = some r) : source.found? output extract new = some r := by
  unfold found? at hold ⊢
  cases hsession : old.lookup source.ref.id with
  | none => simp [hsession] at hold
  | some session =>
    rw [hsession] at hold
    rwa [lookup_of_suffix h hnew hsession]

theorem Source.found?_of_session {source : Source} {output : String} {extract : GenValue → Option Resolved}
    {p : Pass σ} {session : Session} {value : GenValue} {r : Resolved}
    (hsession : p.session? source.ref.id = some session) (hread : source.read session output = .ok value)
    (hextract : extract value = some r) : source.found? output extract p.sessions = some r := by
  simp only [Pass.session?] at hsession
  simp [found?, hsession, hread, hextract, Except.toOption]

theorem Source.found?_of_no_session {source : Source} {output : String} {extract : GenValue → Option Resolved}
    {p : Pass σ} (hnone : p.session? source.ref.id = none) : source.found? output extract p.sessions = none := by
  simp only [Pass.session?] at hnone
  simp [found?, hnone]

/-- A marker that the call returned is later still that of the output. -/
theorem Source.placeholder_probes {graph : Graph σ} {source : Source} {output : String}
    {extract : GenValue → Option Resolved} {s t : Live σ}
    (hsteps : graph.Steps (s.update fun p => (source.placeholder output extract p).2) t)
    (hsize : t.pass.work.registry.size ≤ Marker.idBound)
    (hnone : source.found? output extract s.pass.sessions = none) : ∃ d : Placeholder,
      (source.placeholder output extract s.pass).1 = .later d ∧ d.id < Marker.idBound ∧
        t.pass.work.registry.Probes source output extract d.id := by
  obtain ⟨hr, hprobes⟩ := placeholder_none hnone
  have hafter := Registry.entry?_of_prefix hsteps.registers hprobes
  have hid := (Array.getElem?_eq_some_iff.mp hafter).1
  exact ⟨_, hr, Nat.lt_of_lt_of_le hid hsize, hafter⟩

theorem Marker.visible_text {id : Nat} (h : id < idBound) : Visible (text id) := by
  have hspells := spells_text h
  obtain ⟨body, hbody, -⟩ := hspells.exists_body
  exact ⟨hspells.not_mem (by decide), '<', by simp [hbody], by decide⟩

/-- An output that is asked for and written at some place of the scope that processes a frame stands there in the
build, whether its node had been generated then or was generated later. That of a node without a session is left as
its marker. -/
theorem Source.written_early_or_late {graph : Graph σ} {source : Source} {output : String}
    {extract : GenValue → Option Resolved} {options : BuildOptions} {outside : σ} {s t : Live σ}
    (hs : graph.Steps { pass := Pass.new options outside } s)
    (hsteps : graph.Steps (s.update fun p => (source.placeholder output extract p).2) t)
    (hconfined : t.pass.work.registry.Confined (·.sessions = t.pass.sessions))
    (hsize : t.pass.work.registry.size ≤ Marker.idBound) {tabs : Nat} {before : List Stmt} {place : LinePlace}
    {behind : List Stmt} (hframe : t.pass.work.processFrame.toBlock =
      .mk tabs (before ++ place.stmt (source.placeholder output extract s.pass).1.toText :: behind))
    {b : Build} (hfinish : t.pass.finish.1 = .ok b) :
    (∀ generate target k, (Gen.outputPlaceholder source output extract target k).run generate s.pass =
      (k (.ok (source.placeholder output extract s.pass).1)).run generate
        (source.placeholder output extract s.pass).2) ∧
    (∀ session value r, t.pass.session? source.ref.id = some session → source.read session output = .ok value →
      extract value = some r → Visible r.toText → '<' ∉ r.toText.toList →
      t.pass.Puts b (fun line => .mk tabs (before ++ place.stmt line :: behind))
        (source.placeholder output extract s.pass).1.toText r.toText) ∧
    (t.pass.session? source.ref.id = none → ∃ d : Placeholder,
      (source.placeholder output extract s.pass).1 = .later d ∧ d.id ∈ b.unresolved ∧
      t.pass.Puts b (fun line => .mk tabs (before ++ place.stmt line :: behind)) (Marker.text d.id)
        (Marker.text d.id)) := by
  have horderly : Orderly (s.update fun p => (source.placeholder output extract p).2) :=
    (hs.orderly (.start rfl)).update _ rfl
  have hnodup := (hsteps.orderly horderly).keys_nodup
  have hsuffix : s.pass.sessions <:+ t.pass.sessions := hsteps.sessions
  refine ⟨fun generate target k => rfl, ?_, ?_⟩
  · intro session value r hsession hread hextract hvisible hopen
    have hplain := markerIds_of_not_mem hopen
    have hfound : source.found? output extract t.pass.sessions = some r :=
      found?_of_session hsession hread hextract
    have hstays : ∀ n tier, t.pass.work.registry.Turns tier (·.sessions = t.pass.sessions)
        (Pipewright.tabs n ++ r.toText) (Pipewright.tabs n ++ r.toText) := Registry.turns_tabbed hopen
    cases hearly : source.found? output extract s.pass.sessions with
    | some early =>
      have hsame : some early = some r := (found?_of_suffix hsuffix hnodup hearly).symm.trans hfound
      obtain rfl := Option.some.inj hsame
      rw [placeholder_some hearly] at hframe ⊢
      exact Pass.puts hfinish hframe hconfined hvisible (fun n => hstays n .normal) hstays
    | none =>
      obtain ⟨d, hr, hid, hprobes⟩ := placeholder_probes hsteps hsize hearly
      rw [hr] at hframe ⊢
      exact Pass.puts hfinish hframe hconfined (Marker.visible_text hid) (hprobes.turns hid hfound hplain) hstays
  · intro hnone
    have hmissing : source.found? output extract t.pass.sessions = none := found?_of_no_session hnone
    have hearly : source.found? output extract s.pass.sessions = none := by
      apply Option.eq_none_iff_forall_ne_some.mpr
      intro r hr
      have := found?_of_suffix hsuffix hnodup hr
      rw [hmissing] at this
      cases this
    obtain ⟨d, hr, hid, hprobes⟩ := placeholder_probes hsteps hsize hearly
    rw [hr] at hframe ⊢
    have hstays := hprobes.stays hid hmissing
    have hputs := Pass.puts hfinish hframe hconfined (Marker.visible_text hid) (fun n => hstays n .normal) hstays
    refine ⟨d, rfl, ?_, hputs⟩
    obtain ⟨front, indent, rest, front', rest', -, -, -, hunresolved⟩ := hputs
    rw [hunresolved, mem_markerIds_iff]
    exact ⟨Marker.text d.id, Marker.spells_text hid, (front' ++ "\n" ++ Pipewright.tabs indent).toList,
      ("\n" ++ rest').toList, by simp⟩

/-! ## An image that is read before it is there -/

namespace Nodes

def areaRef : NodeRef := ⟨7, "Area"⟩

def areaSource : Source := .ofMat 0 areaRef

def imageValue : GenValue → Option Resolved
  | .mat m => some (.value m.value)
  | _ => none

def area (text : String) : Graph Unit :=
  #[⟨areaRef, false, pure (.mat ⟨.raw text, .rgb, false⟩)⟩,
    ⟨⟨8, "Reader"⟩, false, do
      let r ← Gen.outputPlaceholder areaSource "output" imageValue
      Gen.append (·.write r.toText)
      Gen.inTarget .classEnd (Gen.append (·.write "done"))
      return .nothing⟩]

def areaProgram (text : String) (order : List Nat) : Option String :=
  ((area text).build { language? := some .python } order ()).1.toOption.map (·.source)

/-- The image is asked for and its marker written, and then its node is generated. -/
theorem written_area : ∃ (t : Live Unit) (b : Build), t.pass.finish.1 = .ok b ∧
    t.pass.Puts b (fun line => .mk 2 [.act (.raw line)]) (Marker.text 1) "image" := by
  let image : Session := .mat ⟨.raw "image", .rgb, false⟩
  let s : Live Unit := { pass := Pass.new { language? := some .python } () }
  let asked := s.update fun p => (areaSource.placeholder "output" imageValue p).2
  let written := asked.update fun p =>
    { p with work := { p.work with processFrame := p.work.processFrame.write (Marker.text 1) } }
  let entered := (written.note (.requested 7)).enter 7
  let t := (entered.leave 7 (.succeeded 7)).update (·.store 7 image)
  have hat : (area "image")[0]? = some (area "image")[0] := rfl
  have henters : ((area "image")[0]).Enters written.pass written.busy :=
    ⟨fun h => Bool.noConfusion h.1, rfl, List.not_mem_nil⟩
  have hwrite : (area "image").Step asked written := .move (.work (List.prefix_refl _))
  have henter : (area "image").Step written entered := .move (.enter hat henters List.nil_suffix)
  have hsucceed : (area "image").Step entered t := .move (.succeed image rfl List.nil_suffix)
  have hsteps : (area "image").Steps asked t := ((Relation.ReflTransGen.single hwrite).tail henter).tail hsucceed
  have himports : (Pass.importRecipe .python).Within (fun _ => True) (fun x : Surroundings Unit =>
      x.sessions = t.pass.sessions) := fun _ => trivial
  have hnew : (Pass.new { language? := some .python } ()).work.registry.Confined (·.sessions = t.pass.sessions) :=
    Registry.Confined.empty.register .last himports
  have hconfined : t.pass.work.registry.Confined (·.sessions = t.pass.sessions) :=
    hnew.register .normal (Gen.within_outputProbe _)
  have hframe : t.pass.work.processFrame.toBlock = .mk 2 ([] ++ LinePlace.here.stmt
      (areaSource.placeholder "output" imageValue s.pass).1.toText :: []) := rfl
  have hfinish : t.pass.finish.1.toOption.isSome = true := by decide +kernel
  cases h : t.pass.finish.1 with
  | error e => rw [h] at hfinish; cases hfinish
  | ok b =>
    obtain ⟨-, hput, -⟩ := Source.written_early_or_late .refl hsteps hconfined (by decide) hframe h
    exact ⟨t, b, h, hput image _ _ rfl rfl rfl ⟨by decide, 'i', by decide, rfl⟩ (by decide)⟩

/-- A blank output that is read early stands in the program; read late, it leaves an empty body. -/
theorem areaProgram_blank : " " ≠ "" ∧ '\n' ∉ " ".toList ∧ '<' ∉ " ".toList ∧
    areaProgram " " [1, 0] = some "def runPipeline(input, llrobot):\n\t \n\ndone\n" ∧
    areaProgram " " [0, 1] = some "def runPipeline(input, llrobot):\n\tpass\n\ndone\n" ∧
    areaProgram " " [1, 0] ≠ areaProgram " " [0, 1] := by
  refine ⟨by decide, by decide, by decide, ?_⟩
  decide +kernel

end Nodes

end Pipewright
