import Pipewright.Pass.Build
import Pipewright.Proofs.Attempts
import Pipewright.Proofs.Gaps
import Pipewright.Proofs.ImportText
import Pipewright.Proofs.Rendering

/-!
# The import block of a program

The import marker is the first of its program and belongs to the last tier, so
its block shows the imports at the end of the normal tier
(`Pass.finish_importBlock`). What the last tier substitutes behind it can still
register types; the block does not show those.
-/

namespace Pipewright

/-! ## The first line of a text -/

namespace Segment

theorem scan_line {cs : List Char} (rest : List Char) : ∀ {run : List Char},
    (∀ s ∈ scan run cs, s.id? = none) → scan run (cs ++ '\n' :: rest) = scan ('\n' :: (cs.reverse ++ run)) rest := by
  induction cs with
  | nil => exact fun {run} _ => scan_plain (Marker.at?_eq_none_of_ne (by decide) rest) run
  | cons c cs ih =>
    intro run h
    cases hm : Marker.at? (c :: cs) with
    | none =>
      rw [scan_plain hm] at h
      have hforeign : Marker.Foreign '\n' := by decide
      have hnext := Marker.at?_gap_eq_none hforeign hm rest
      rw [List.cons_append] at hnext ⊢
      rw [scan_plain hnext, ih h]
      simp
    | some found =>
      rw [scan_marker hm] at h
      cases h (marker _ _) (List.mem_append_right _ (List.mem_cons_self ..))

end Segment

theorem segments_marker {id : Nat} (h : id < Marker.idBound) (rest : String) :
    segments (Marker.text id ++ rest) = .marker id (Marker.text id) :: segments rest := by
  have hm := Marker.at?_text h rest.toList
  rw [segments, String.toList_append, Segment.scan_marker hm]
  rfl

section
variable {σ : Type} (expand : Nat → Progress σ → Option String × Progress σ)

theorem sweepSegments_ofRun (run : List Char) (segs : List Segment) (p : Progress σ) :
    (sweepSegments expand (Segment.ofRun run ++ segs) p).text.toList =
      run.reverse ++ (sweepSegments expand segs p).text.toList := by
  cases run with
  | nil => rfl
  | cons c run => simp [Segment.ofRun, sweepSegments_plain, Sweep.text]

theorem sweepSegments_scan_starts (run cs : List Char) (p : Progress σ) :
    ∃ more, (sweepSegments expand (Segment.scan run cs) p).text.toList = run.reverse ++ more := by
  match cs with
  | [] =>
    rw [Segment.scan_nil, ← List.append_nil (Segment.ofRun run), sweepSegments_ofRun]
    exact ⟨_, rfl⟩
  | c :: cs =>
    cases h : Marker.at? (c :: cs) with
    | none =>
      rw [Segment.scan_plain h]
      obtain ⟨more, hm⟩ := sweepSegments_scan_starts (c :: run) cs p
      exact ⟨c :: more, by rw [hm]; simp⟩
    | some found =>
      rw [Segment.scan_marker h, sweepSegments_ofRun]
      exact ⟨_, rfl⟩
termination_by cs.length

theorem sweepSegments_of_plain {segs : List Segment} (h : ∀ s ∈ segs, s.id? = none) (p : Progress σ) :
    sweepSegments expand segs p = ⟨segs.map Segment.text, false, p⟩ := by
  induction segs with
  | nil => rfl
  | cons s segs ih =>
    cases s with
    | plain t => rw [sweepSegments_plain, ih fun s hs => h s (List.mem_cons_of_mem _ hs)]; rfl
    | marker id raw => cases h (.marker id raw) (List.mem_cons_self ..)

end

theorem id?_of_containsMarker {text : String} (h : containsMarker text = false) :
    ∀ s ∈ segments text, s.id? = none := by
  have hids : markerIds text = [] := by simpa [containsMarker] using h
  exact List.filterMap_eq_nil_iff.mp hids

variable {σ : Type}

namespace Registry

variable {reg : Registry σ}

/-! ## Sweeps over a program -/

theorem sweep_line (reg : Registry σ) {line : String} (h : containsMarker line = false) (tier : Tier) (rest : String)
    (p : Progress σ) :
    ∃ more, (reg.sweep tier (line ++ "\n" ++ rest) p).text = line ++ "\n" ++ more := by
  have hchars : (line ++ "\n" ++ rest).toList = line.toList ++ '\n' :: rest.toList := by simp
  obtain ⟨more, hm⟩ := sweepSegments_scan_starts (reg.expand tier []) ('\n' :: (line.toList.reverse ++ []))
    rest.toList p
  refine ⟨String.ofList more, String.toList_injective ?_⟩
  rw [sweep, segments, hchars, Segment.scan_line _ (id?_of_containsMarker h), hm]
  simp

theorem sweeps_line {line : String} (h : containsMarker line = false) (tier : Tier) (count : Nat) :
    ∀ (rest : String) (p : Progress σ),
      ∃ more, (reg.sweeps tier count (line ++ "\n" ++ rest) p).1 = line ++ "\n" ++ more := by
  induction count with
  | zero => exact fun rest p => ⟨rest, rfl⟩
  | succ count ih =>
    intro rest p
    obtain ⟨more, hm⟩ := reg.sweep_line h tier rest p
    rw [sweeps_succ, hm]
    split
    · exact ih more _
    · exact ⟨more, rfl⟩

theorem sweep_marker {id : Nat} (hlt : id < Marker.idBound) {tier : Tier} (rest : String) {p q : Progress σ}
    {found : Option String} (he : reg.expand tier [] id p = (found, q)) :
    ∃ more, (reg.sweep tier (Marker.text id ++ "\n" ++ rest) p).text =
      found.getD (Marker.text id) ++ "\n" ++ more := by
  have hempty : containsMarker "" = false := by decide +kernel
  obtain ⟨more, hm⟩ := reg.sweep_line hempty tier rest q
  refine ⟨more, ?_⟩
  rw [String.empty_append, sweep] at hm
  rw [String.append_assoc, sweep, segments_marker hlt]
  cases found with
  | none =>
    rw [sweepSegments_none he, Sweep.text, String.join_cons, ← Sweep.text, hm]
    simp [String.append_assoc]
  | some text =>
    rw [sweepSegments_some he, Sweep.text, String.join_cons, ← Sweep.text, hm]
    simp [String.append_assoc]

/-! ## The import block in its registry -/

def IsImportBlock (reg : Registry (Surroundings σ)) (l : Language) (id : Nat) : Prop :=
  reg.entry? id = some ⟨.last, Pass.importRecipe l⟩

namespace IsImportBlock

variable {reg : Registry (Surroundings σ)} {l : Language} {id : Nat} (hid : reg.IsImportBlock l id)
include hid

theorem lt_size : id < reg.size := (Array.getElem?_eq_some_iff.mp hid).1

theorem getElem (h : id < reg.size) : reg.entries[id] = ⟨.last, Pass.importRecipe l⟩ :=
  (Array.getElem?_eq_some_iff.mp hid).2

theorem register (tier : Tier) (recipe : Recipe (Surroundings σ)) :
    (reg.register tier recipe).2.IsImportBlock l id := by
  have hne : id ≠ reg.entries.size := Nat.ne_of_lt hid.lt_size
  simp only [IsImportBlock, Registry.register, entry?, Array.getElem?_push]
  rw [if_neg hne]
  exact hid

theorem call {p : Progress (Surroundings σ)} {block : String} (hb : l.importBlock p.imports = .ok block) (tier : Tier)
    (stack : List Nat) (h : id < reg.size) : reg.call tier stack h p = (some (.text block), p) := by
  rw [Registry.call, hid.getElem h]
  simp only [Pass.importRecipe, Recipe.run, view, hb]

theorem expand_normal (stack : List Nat) (p : Progress (Surroundings σ)) :
    reg.expand .normal stack id p = (none, p) := by
  generalize he : reg.expand .normal stack id p = o
  have hclosed : ∀ h : id < reg.size, ¬ reg.IsOpen .normal h p := by
    intro h ho
    rcases ho with ho | ⟨hl, -⟩
    · rw [hid.getElem h] at ho; cases ho
    · cases hl
  cases he ▸ reg.attempts .normal stack id p with
  | unknown _ => rfl
  | closed _ _ => rfl
  | cycle h ho _ => exact absurd ho (hclosed h)
  | without h ho _ _ => exact absurd ho (hclosed h)
  | undone h ho _ _ _ => exact absurd ho (hclosed h)
  | done h ho _ _ _ => exact absurd ho (hclosed h)

theorem expand_last {p : Progress (Surroundings σ)} {block : String} (hb : l.importBlock p.imports = .ok block)
    (hfree : containsMarker block = false) : reg.expand .last [] id p = (some block, p) := by
  have hinner : reg.inner .last [] id (.text block) p = ⟨(segments block).map Segment.text, false, p⟩ :=
    sweepSegments_of_plain _ (id?_of_containsMarker hfree) p
  generalize he : reg.expand .last [] id p = o
  cases he ▸ reg.attempts .last [] id p with
  | unknown hn => exact absurd hid.lt_size hn
  | closed h hn => exact absurd (.inl (by rw [hid.getElem h])) hn
  | cycle h ho hm => cases hm
  | without h ho hm hc => rw [hid.call hb] at hc; cases hc
  | undone h ho hm hc hl =>
    rw [hid.call hb] at hc
    cases hc
    rw [hinner] at hl
    exact absurd rfl hl
  | done h ho hm hc hl =>
    rw [hid.call hb] at hc
    cases hc
    rw [hinner, Sweep.text, join_segments]

theorem sweeps_normal (hlt : id < Marker.idBound) (count : Nat) : ∀ (rest : String) (p : Progress (Surroundings σ)),
    ∃ more, (reg.sweeps .normal count (Marker.text id ++ "\n" ++ rest) p).1 = Marker.text id ++ "\n" ++ more := by
  induction count with
  | zero => exact fun rest p => ⟨rest, rfl⟩
  | succ count ih =>
    intro rest p
    obtain ⟨more, hm⟩ := sweep_marker hlt rest (hid.expand_normal [] p)
    rw [sweeps_succ, hm]
    split
    · exact ih more _
    · exact ⟨more, rfl⟩

theorem sweeps_last (hlt : id < Marker.idBound) (count : Nat) (rest : String) {p : Progress (Surroundings σ)}
    {block : String} (hb : l.importBlock p.imports = .ok block) (hfree : containsMarker block = false) :
    ∃ more, (reg.sweeps .last (count + 1) (Marker.text id ++ "\n" ++ rest) p).1 = block ++ "\n" ++ more := by
  obtain ⟨more, hm⟩ := sweep_marker hlt rest (hid.expand_last hb hfree)
  rw [sweeps_succ, hm]
  split
  · exact sweeps_line hfree .last count more _
  · exact ⟨more, rfl⟩

end IsImportBlock

end Registry

/-! ## Nothing else in the last tier -/

structure Progress.Idle (p q : Progress σ) : Prop where
  imports : q.imports = p.imports
  deferred : q.deferred = p.deferred
  waiting : q.waiting = p.waiting

namespace Progress.Idle

variable {p q r : Progress σ}

theorem refl (p : Progress σ) : Idle p p := ⟨rfl, rfl, rfl⟩

theorem trans (h : Idle p q) (h' : Idle q r) : Idle p r :=
  ⟨h'.imports.trans h.imports, h'.deferred.trans h.deferred, h'.waiting.trans h.waiting⟩

theorem giveUp (h : Idle p q) (id : Nat) : Idle p (q.giveUp p.mark id) := by
  refine ⟨?_, h.deferred, ?_⟩
  · exact ImportScope.truncate_of_prefix (h.imports ▸ List.prefix_refl _)
  · simp [Progress.giveUp, Progress.mark, h.deferred, h.waiting]

end Progress.Idle

def Progress.Unwaited (p q : Progress σ) : Prop := p.waiting = [] → Idle p q

theorem Progress.Unwaited.refl (p : Progress σ) : Unwaited p p := fun _ => .refl p

theorem Progress.Unwaited.trans {p q r : Progress σ} (h : Unwaited p q) (h' : Unwaited q r) : Unwaited p r :=
  fun hw => (h hw).trans (h' ((h hw).waiting.trans hw))

namespace Registry.IsImportBlock

variable {reg : Registry (Surroundings σ)} {l : Language} {id : Nat} (hid : reg.IsImportBlock l id)
  (hlone : ∀ k, reg.tier? k = some .last → k = id)
include hid hlone

/-- In the last tier only the import block is open, and it imports nothing. -/
theorem expand_idle (stack : List Nat) : ∀ k p, Progress.Unwaited p (reg.expand .last stack k p).2 := by
  induction stack using reg.descent with
  | step stack ih =>
    intro k p hw
    have hopen : ∀ h : k < reg.size, reg.IsOpen .last h p → k = id := by
      intro h ho
      rcases ho with ho | ⟨-, hm⟩
      · exact hlone k ((reg.tier?_eq_some_iff).mpr ⟨h, ho⟩)
      · rw [hw] at hm; cases hm
    obtain ⟨block, hb⟩ := l.importBlock_isOk p.imports
    -- the block may hold markers, and below it the same is open
    have hinner : ∀ h : k < reg.size, k ∉ stack →
        Progress.Idle p (reg.inner .last stack k (.text block) p).progress := fun h hm =>
      sweepSegments_keeps Progress.Unwaited.refl Progress.Unwaited.trans (ih k h hm) _ p hw
    generalize he : reg.expand .last stack k p = o
    cases he ▸ reg.attempts .last stack k p with
    | unknown _ => exact .refl p
    | closed _ _ => exact .refl p
    | cycle _ _ _ => exact ⟨rfl, rfl, rfl⟩
    | without h ho hm hc =>
      obtain rfl := hopen h ho
      rw [hid.call hb] at hc
      cases hc
    | undone h ho hm hc _ =>
      obtain rfl := hopen h ho
      rw [hid.call hb] at hc
      cases hc
      exact (hinner h hm).giveUp k
    | done h ho hm hc _ =>
      obtain rfl := hopen h ho
      rw [hid.call hb] at hc
      cases hc
      exact hinner h hm

theorem sweeps_idle (count : Nat) (text : String) (p : Progress (Surroundings σ)) :
    Progress.Unwaited p (reg.sweeps .last count text p).2 :=
  sweeps_keeps Progress.Unwaited.refl Progress.Unwaited.trans
    (fun _ => sweepSegments_keeps Progress.Unwaited.refl Progress.Unwaited.trans (hid.expand_idle hlone []) _)
    count text p

end Registry.IsImportBlock

namespace Pass

structure HasImportBlock (p : Pass σ) : Prop where
  block : p.work.registry.IsImportBlock p.language p.importMarker.id
  bound : p.importMarker.id < Marker.idBound

theorem hasImportBlock_new (options : BuildOptions) (outside : σ) : (new options outside).HasImportBlock :=
  ⟨rfl, Nat.two_pow_pos 32⟩

theorem HasImportBlock.register {p : Pass σ} (hp : p.HasImportBlock) (tier : Tier) (recipe : Recipe (Surroundings σ)) :
    { p with work := { p.work with registry := (p.work.registry.register tier recipe).2 } }.HasImportBlock :=
  ⟨hp.block.register tier recipe, hp.bound⟩

def normalTier (p : Pass σ) : String × Progress (Surroundings σ) :=
  let assembled := p.program.assemble p.language
  p.work.registry.normalTier (assembled.result.toOption.getD "") (p.work.imports.registerAll assembled.uses)
    p.surroundings

/-- The program behind a finished pass, and what the last tier makes of it. -/
theorem of_finish {p : Pass σ} {b : Build} (h : p.finish.1 = .ok b) :
    ∃ text, (p.program.assemble p.language).result = .ok text ∧
      p.normalTier = p.work.registry.normalTier text
        (p.work.imports.registerAll (p.program.assemble p.language).uses) p.surroundings ∧
      b.source = trim (p.work.registry.sweeps .last Registry.maxSweeps p.normalTier.1 p.normalTier.2).1 ++ "\n" ∧
      p.finish.2.work.imports =
        (p.work.registry.sweeps .last Registry.maxSweeps p.normalTier.1 p.normalTier.2).2.imports := by
  unfold normalTier finish at *
  simp only at h ⊢
  cases ha : (p.program.assemble p.language).result with
  | error e => rw [ha] at h; cases h
  | ok text =>
    rw [ha] at h
    cases h
    exact ⟨text, rfl, rfl, rfl, rfl⟩

variable {p : Pass σ} (hp : p.HasImportBlock)
include hp

theorem HasImportBlock.source_starts {b : Build} (h : p.finish.1 = .ok b) {block : String}
    (hb : p.language.importBlock p.normalTier.2.imports = .ok block) (hfree : containsMarker block = false) :
    ∃ rest, b.source = trim (block ++ "\n" ++ rest) ++ "\n" := by
  obtain ⟨text, ha, hn, hsource, -⟩ := of_finish h
  obtain ⟨rest, rfl⟩ := p.program.assemble_starts rfl ha
  obtain ⟨more, hm⟩ : ∃ more, p.normalTier.1 = Marker.text p.importMarker.id ++ "\n" ++ more := by
    rw [hn]
    exact hp.block.sweeps_normal hp.bound Registry.maxSweeps rest _
  obtain ⟨last, hlast⟩ := hp.block.sweeps_last hp.bound 63 more hb hfree
  rw [← hm] at hlast
  exact ⟨last, by rw [hsource, ← hlast]; rfl⟩

/-- What the import block of a finished pass has to do with the imports of that pass, of which the last tier has
added `late`. -/
structure ImportsOf (p : Pass σ) (b : Build) (block : String) (late : List Ty) : Prop where
  rendered : p.language.importBlock p.normalTier.2.imports = .ok block
  first : containsMarker block = false → ∃ rest, b.source = trim (block ++ "\n" ++ rest) ++ "\n"
  imports : p.finish.2.work.imports.types = p.normalTier.2.imports.types ++ late
  complete : (∀ t ∈ p.language.importedTypes ⟨late⟩, p.language.Shows p.normalTier.2.imports t) →
    p.language.importBlock p.finish.2.work.imports = .ok block
  lacking : (p.language.inClass = true → ∀ t ∈ p.language.importedTypes p.finish.2.work.imports, t.Plain) →
    (∃ t ∈ p.language.importedTypes ⟨late⟩, ¬ p.language.Shows p.normalTier.2.imports t) →
    p.language.importBlock p.finish.2.work.imports ≠ .ok block
  alone : (∀ k, p.work.registry.tier? k = some .last → k = p.importMarker.id) → p.normalTier.2.waiting = [] → late = []

/-- The block shows the imports at the end of the normal tier, and those of the whole pass just if it shows all that
the last tier adds to them. -/
theorem finish_importBlock {b : Build} (h : p.finish.1 = .ok b) : ∃ block late, p.ImportsOf b block late := by
  obtain ⟨block, hb⟩ := p.language.importBlock_isOk p.normalTier.2.imports
  obtain ⟨text, -, -, -, hfinal⟩ := of_finish h
  obtain ⟨late, hlate⟩ :=
    ((p.work.registry.keeps_grows .last).sweeps trivial Registry.maxSweeps p.normalTier.1 p.normalTier.2).imports
  rw [← hfinal] at hlate
  have hscope : p.finish.2.work.imports = ⟨p.normalTier.2.imports.types ++ late⟩ := ImportScope.ext hlate.symm
  refine ⟨block, late, hb, hp.source_starts h hb, hlate.symm, fun hshown => ?_, fun hplain hlacks heq => ?_,
    fun hlone hw => ?_⟩
  · rw [hscope, Language.importBlock_append_of_shows hshown]
    exact hb
  · obtain ⟨t, ht, hn⟩ := hlacks
    rw [hscope] at hplain heq
    exact hn ((Language.importBlock_append_iff hplain).mp (heq.trans hb.symm) t ht)
  · have hidle := (hp.block.sweeps_idle hlone Registry.maxSweeps p.normalTier.1 p.normalTier.2 hw).imports
    rw [← hfinal, hscope] at hidle
    exact List.append_right_eq_self.mp (congrArg ImportScope.types hidle)

omit hp

def lateImport : Pass Unit :=
  let start := new { language? := some .python } ()
  let (value, registry) := start.work.registry.register .last (.give (some (.value (.new Catalog.OpenCv.rect "r"))))
  { start with work := { start.work with registry, processFrame := (Scope.new 2).write (Marker.text value.id) } }

/-- Its block lacks the import of that value. -/
theorem finish_lateImport :
    ∃ b, lateImport.finish.1 = .ok b ∧ (∃ block late, lateImport.ImportsOf b block late) ∧
      (lateImport.language.importBlock lateImport.finish.2.work.imports).toOption ≠
        (lateImport.language.importBlock lateImport.normalTier.2.imports).toOption := by
  have hp : lateImport.HasImportBlock :=
    have h := (hasImportBlock_new { language? := some .python } ()).register .last
      (.give (some (.value (.new Catalog.OpenCv.rect "r"))))
    ⟨h.block, h.bound⟩
  have hok : lateImport.finish.1.toOption.isSome = true := by decide +kernel
  cases h : lateImport.finish.1 with
  | error e => rw [h] at hok; cases hok
  | ok b => exact ⟨b, rfl, finish_importBlock hp h, by decide +kernel⟩

end Pass

end Pipewright
