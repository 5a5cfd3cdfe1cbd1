import Pipewright.Proofs.Declarations
import Pipewright.Proofs.GuardedFeatures
import Pipewright.Proofs.Lockstep
import Pipewright.Proofs.Outputs

/-!
# Images in the preview

The call that shows an image stands in the program as a marker, and the constant
of its color conversion is a placeholder of its own. When the pass is finished, the
call is where the marker was and the imports of the constant are registered. Of the
image only its text gets into the call, so its imports are not (`streamed_image`).
-/

namespace Pipewright

variable {σ : Type}

/-! ## The call -/

namespace Language

variable (l : Language)

def previewCall (id : Int) (mat : Value) (color : ColorSpace) : String :=
  l.call (if l = .lua then "stream" else "streamFrame")
    [l.int id, mat, if color = .rgb then l.null l.voidType else l.colorConversion color .rgb]

variable {l}

theorem streamFrame_toRgb (h : l.supports .streamFrame = true) (id : Int) (mat : Value) (color : ColorSpace) :
    l.streamFrame (l.int id) mat (if (l.toRgb color).isAbsent then none else some (l.toRgb color)) =
      .ok (l.previewCall id mat color) := by
  have hpresent : (l.colorConversion color .rgb).isAbsent = false := by cases l <;> rfl
  have hgiven : (if (l.toRgb color).isAbsent then none else some (l.toRgb color)).getD (l.null l.voidType) =
      if color = .rgb then l.null l.voidType else l.colorConversion color .rgb := by
    unfold toRgb
    split
    · rfl
    · rw [hpresent]
      rfl
  unfold streamFrame previewCall
  rw [hgiven]
  cases l with
  | java | kotlin | lua => rfl
  | python => cases h

theorem open_not_mem_int (id : Int) : '<' ∉ (l.int id).text.toList := by
  intro h
  cases id with
  | ofNat n => exact absurd (Marker.isDigit_of_mem h) (by decide)
  | negSucc n =>
    have htext : (l.int (.negSucc n)).text = "-" ++ toString (n + 1) := rfl
    rw [htext, String.toList_append, List.mem_append] at h
    rcases h with h | h
    · exact absurd h (by decide)
    · exact absurd (Marker.isDigit_of_mem h) (by decide)

theorem open_not_mem_previewCall {mat : Value} (h : '<' ∉ mat.text.toList) (id : Int) (color : ColorSpace) :
    '<' ∉ (l.previewCall id mat color).toList := by
  have hid : '<' ∉ (l.int id).text.toList := open_not_mem_int id
  have hlast : '<' ∉ (if color = .rgb then l.null l.voidType else l.colorConversion color .rgb).text.toList := by
    split
    · cases l <;> decide
    · obtain ⟨constant, hconstant, htext⟩ := l.exists_colorConversion color .rgb
      have hname : '<' ∉ constant.toList := fun h => absurd (hconstant.chars _ h) (by decide)
      rw [htext, String.toList_append, List.mem_append, not_or]
      exact ⟨by split <;> decide, hname⟩
  have hmethod : '<' ∉ (if l = .lua then "stream" else "streamFrame").toList := by split <;> decide
  have hend : '<' ∉ l.semicolon.toList := by cases l <;> decide
  simp [previewCall, call, Value.commaSeparated, toString, hid, hlast, hmethod, hend, h]

end Language

/-! ## Growth along parts -/

namespace Registry

variable (reg : Registry σ) (tier : Tier)

theorem sweepParts_grows (parts : List String) : ∀ p : Progress σ, p.Grows (reg.sweepParts tier parts p).2.2 := by
  induction parts with
  | nil => exact .refl
  | cons part rest ih => exact fun p => (reg.grows_sweep tier part p).trans (ih _)

theorem sweepsParts_grows (count : Nat) : ∀ (parts : List String) (p : Progress σ),
    p.Grows (reg.sweepsParts tier count parts p).2 := by
  induction count with
  | zero => exact fun _ => .refl
  | succ count ih =>
    intro parts p
    have hfirst := reg.sweepParts_grows tier parts p
    rw [sweepsParts]
    split
    · exact hfirst.trans (ih _ _)
    · exact hfirst

/-- What the sweep of a part does to the progress is not lost. -/
theorem sweepParts_grows_of_mem {part : String} {parts : List String} (h : part ∈ parts) :
    ∀ p : Progress σ, ∃ q, (reg.sweep tier part q).progress.Grows (reg.sweepParts tier parts p).2.2 := by
  induction parts with
  | nil => cases h
  | cons first rest ih =>
    intro p
    rcases List.mem_cons.mp h with rfl | hrest
    · exact ⟨p, reg.sweepParts_grows tier rest _⟩
    · exact ih hrest _

theorem resolveParts_grows_of_mem {part : String} {parts : List String} (h : part ∈ parts) (imports : ImportScope)
    (outside : σ) :
    ∃ q, (reg.sweep .normal part q).progress.Grows (reg.resolveParts parts imports outside).2 := by
  obtain ⟨q, hq⟩ := reg.sweepParts_grows_of_mem .normal h { imports, outside }
  have hnormal : (reg.sweepParts .normal parts { imports, outside }).2.2.Grows
      (reg.sweepsParts .normal maxSweeps parts { imports, outside }).2 := by
    rw [maxSweeps, sweepsParts]
    split
    · exact reg.sweepsParts_grows .normal _ _ _
    · exact .refl _
  exact ⟨q, (hq.trans hnormal).trans (reg.sweepsParts_grows .last maxSweeps _ _)⟩

end Registry

/-! ## Its placeholder -/

namespace Registry

/-- Under `n` is the constant of the conversion to RGB, and under the next id the call that needs it. -/
structure Streams (reg : Registry (Surroundings σ)) (l : Language) (id : Int) (mat : Value) (color : ColorSpace)
    (n : Nat) : Prop where
  constant : reg.entry? n = some ⟨.normal, .give (some (.value (l.toRgb color)))⟩
  call : reg.entry? (n + 1) = some ⟨.normal, Gen.streamRecipe l id mat ⟨n, .normal⟩⟩

variable {reg : Registry (Surroundings σ)} {l : Language} {id : Int} {mat : Value} {color : ColorSpace} {n : Nat}

theorem Streams.lt_size (h : reg.Streams l id mat color n) : n + 1 < reg.size :=
  (Array.getElem?_eq_some_iff.mp h.call).1

theorem Streams.mono {reg' : Registry (Surroundings σ)} (h : reg.Streams l id mat color n)
    (hkept : reg.entries.toList <+: reg'.entries.toList) : reg'.Streams l id mat color n where
  constant := entry?_of_prefix hkept h.constant
  call := entry?_of_prefix hkept h.call

/-- What the call is found as: a text with the imports of the constant. -/
theorem Streams.call_eq (h : reg.Streams l id mat color n) (hl : l.supports .streamFrame = true)
    (p : Progress (Surroundings σ)) : ∃ r : Value, r.text = l.previewCall id mat color ∧
      r.imports = (l.toRgb color).imports ∧ reg.call .normal [] h.lt_size p = (some (.value r), p) := by
  have hlt : n < reg.size := Nat.lt_of_succ_lt h.lt_size
  -- only the call itself is in flight, so the constant can be asked for
  have hconstant : reg.resolve .normal [n + 1] (.later ⟨n, .normal⟩) p = (some (.value (l.toRgb color)), p) := by
    rw [resolve, if_neg (by simp), dif_neg (by simp), dif_pos hlt]
    exact Registry.call_eq h.constant .normal [n + 1] hlt p
  refine ⟨(Value.raw (l.previewCall id mat color)).withImportsOf
    (if (l.toRgb color).isAbsent then none else some (l.toRgb color)).toList, rfl, ?_, ?_⟩
  · cases l <;> cases color <;> rfl
  · have hstream := Language.streamFrame_toRgb hl id mat color
    rw [Registry.call_eq h.call]
    simp only [Gen.streamRecipe, Recipe.needing, Recipe.run, hconstant]
    split
    next text htext =>
      cases hstream.symm.trans htext
      rfl
    next e herror => cases hstream.symm.trans herror

variable (hl : l.supports .streamFrame = true) (hmat : '<' ∉ mat.text.toList)
include hl hmat

theorem Streams.expand (h : reg.Streams l id mat color n) (p : Progress (Surroundings σ)) :
    reg.expand .normal [] (n + 1) p =
      (some (l.previewCall id mat color), p.registerAll (l.toRgb color).imports) := by
  obtain ⟨r, htext, himports, hcall⟩ := h.call_eq hl p
  have hplain : markerIds (Resolved.value r).toText = [] := by
    refine markerIds_of_not_mem ?_
    rw [Resolved.toText, htext]
    exact Language.open_not_mem_previewCall hmat id color
  have hopen : reg.IsOpen .normal h.lt_size p := by
    obtain ⟨_, hentry⟩ := Array.getElem?_eq_some_iff.mp h.call
    exact .inl (congrArg Entry.tier hentry)
  -- the text holds no marker, so nothing in it can fail
  obtain ⟨hinner, hprogress⟩ := reg.inner_of_plain hplain .normal [] (n + 1) p
  have hdone : reg.Attempts .normal [] (n + 1) p _ :=
    .done h.lt_size hopen List.not_mem_nil hcall (by rw [hprogress]; rfl)
  rw [hdone.expand_eq, hinner, hprogress, Resolved.toText, htext, Resolved.imports, himports]

theorem Streams.comes (h : reg.Streams l id mat color n) (hid : n + 1 < Marker.idBound) (indent : Nat)
    (p : Progress (Surroundings σ)) : (reg.sweep .normal (tabs indent ++ Marker.text (n + 1)) p).Comes
      (tabs indent ++ l.previewCall id mat color) true (p.registerAll (l.toRgb color).imports) := by
  have hcomes := reg.comes_tabbed .normal hid indent p
  rwa [h.expand hl hmat] at hcomes

theorem Streams.turns (h : reg.Streams l id mat color n) (hid : n + 1 < Marker.idBound)
    (ok : Surroundings σ → Prop) (indent : Nat) : reg.Turns .normal ok (tabs indent ++ Marker.text (n + 1))
      (tabs indent ++ l.previewCall id mat color) :=
  fun p _ => (h.comes hl hmat hid indent p).text

/-- The sweep of the marker registers the imports of the constant, and nothing takes them away again. -/
theorem Streams.imports (h : reg.Streams l id mat color n) (hid : n + 1 < Marker.idBound) (front : String)
    (indent : Nat) (behind : String) (imports : ImportScope) (outside : Surroundings σ) :
    ∀ ty ∈ (l.toRgb color).imports,
      (reg.resolveParts [front, tabs indent ++ Marker.text (n + 1), behind] imports outside).2.imports.contains ty =
        true := by
  intro ty hty
  have hmem : tabs indent ++ Marker.text (n + 1) ∈ [front, tabs indent ++ Marker.text (n + 1), behind] :=
    List.mem_cons_of_mem front List.mem_cons_self
  obtain ⟨q, hgrows⟩ := reg.resolveParts_grows_of_mem hmem imports outside
  rw [(h.comes hl hmat hid indent q).progress] at hgrows
  apply ImportScope.contains_of_prefix hgrows.imports
  apply (ImportScope.contains_registerAll _ _ _).mpr
  exact .inr ⟨ty, hty, (List.mem_filter.mp hty).2, BEq.refl _⟩

end Registry

/-! ## What a call makes of the pass -/

namespace Workspace

variable (l : Language) (id : Int) (mat : Value) (color : ColorSpace) (target : Target) (w : Workspace σ)

theorem streams_stream :
    (w.stream l id mat color target).registry.Streams l id mat color w.registry.size := by
  let first := w.registry.register .normal (.give (some (.value (l.toRgb color))))
  have hregistry : (w.stream l id mat color target).registry =
      (first.2.register .normal (Gen.streamRecipe l id mat ⟨w.registry.size, .normal⟩)).2 := by
    cases target <;> rfl
  have hsize : first.2.size = w.registry.size + 1 := Array.size_push _
  rw [hregistry]
  constructor
  · exact Registry.entry?_register_of_some (Registry.entry?_register w.registry _ _) _ _
  · rw [← hsize]
    exact Registry.entry?_register first.2 _ _

theorem scope_stream : ((w.stream l id mat color target).scope target).stmts =
    (w.scope target).stmts ++ [.act (.raw (Marker.text (w.registry.size + 1)))] := by
  have hsize : (w.registry.register .normal (.give (some (.value (l.toRgb color))))).2.size = w.registry.size + 1 :=
    Array.size_push _
  rw [← hsize]
  cases target <;> rfl

end Workspace

theorem Gen.streamMat_congr {mat other : Value} (h : other.text = mat.text) (node : NodeRef) (id : Int)
    (color : ColorSpace) : (Gen.streamMat node id other color : Gen σ Unit) = Gen.streamMat node id mat color := by
  have hcall : ∀ (l : Language) conversion,
      l.streamFrame (l.int id) other conversion = l.streamFrame (l.int id) mat conversion := by
    intro l conversion
    cases l <;> simp [Language.streamFrame, Language.call, Value.commaSeparated, h]
  unfold Gen.streamMat Gen.streamRecipe
  simp only [hcall]

/-! ## From the call to the end -/

/-- An image that is shown in the preview writes a marker. When the pass is finished, the call with the text of the
image stands where the marker does, and the imports of the constant of its conversion are there. Those of the image
itself play no part: to the pass it is all the same as any other with this text. -/
theorem streamed_image {graph : Graph σ} {s t : Live σ} {target : Target} {mat : Value} {color : ColorSpace} {id : Int}
    (hpreview : s.pass.preview = true) (hsupports : s.pass.language.supports .streamFrame = true)
    (hsteps : graph.Steps
      (s.update fun p => { p with work := p.work.stream p.language id mat color target }) t)
    (hsize : t.pass.work.registry.size ≤ Marker.idBound) (hmat : '<' ∉ mat.text.toList) {tabs : Nat}
    {before : List Stmt} {place : LinePlace} {behind : List Stmt}
    (hscope : (t.pass.work.scope target).toBlock =
      .mk tabs (before ++ place.stmt (Marker.text (s.pass.work.registry.size + 1)) :: behind))
    {b : Build} (hfinish : t.pass.finish.1 = .ok b) :
    let l := s.pass.language
    let w := s.pass.work.stream l id mat color target
    let marker := Marker.text (s.pass.work.registry.size + 1)
    (∀ generate node, (Gen.streamMat node id mat color).Ends generate target s.pass (.ok ()) w) ∧
    (w.scope target).stmts = (s.pass.work.scope target).stmts ++ [.act (.raw marker)] ∧
    t.pass.PutsIn target b (fun line => .mk tabs (before ++ place.stmt line :: behind)) marker
      (l.previewCall id mat color) ∧
    (∀ ty ∈ (l.toRgb color).imports, t.pass.finish.2.work.imports.contains ty = true) ∧
    ∀ node (other : Value), other.text = mat.text →
      (Gen.streamMat node id other color : Gen σ Unit) = Gen.streamMat node id mat color := by
  intro l w marker
  have hstreams : t.pass.work.registry.Streams l id mat color s.pass.work.registry.size :=
    (s.pass.work.streams_stream l id mat color target).mono hsteps.registers
  have hid : s.pass.work.registry.size + 1 < Marker.idBound := Nat.lt_of_lt_of_le hstreams.lt_size hsize
  -- Python, which has no place for one of the scopes, cannot show images
  have hplaces : Program.Places t.pass.language target := by
    intro hpython
    have hl : l = .python := hsteps.language.symm.trans hpython
    have hlacks : Language.supports .python .streamFrame = true := hl ▸ hsupports
    cases hlacks
  obtain ⟨front, indent, rest, hparts⟩ := Pass.exists_parts hplaces hfinish hscope (Marker.visible_text hid)
  refine ⟨fun generate node => ?_, s.pass.work.scope_stream l id mat color target, ?_, ?_, ?_⟩
  · have hends := ends_streamMat generate target s.pass node id mat color
    simpa only [hpreview, hsupports, Bool.not_true, Bool.and_false, Bool.and_self, Bool.false_eq_true, if_false,
      if_true] using hends
  · have hopen : '<' ∉ (l.previewCall id mat color).toList := Language.open_not_mem_previewCall hmat id color
    exact hparts.putsIn (hstreams.turns hsupports hmat hid fun _ => True) (Registry.turns_tabbed hopen)
      (fun _ _ _ _ => trivial) trivial
  · rw [hparts.imports]
    exact hstreams.imports hsupports hmat hid front indent rest _ _
  · exact fun node other hother => Gen.streamMat_congr hother node id color

def filters : Ty := .of "Filters" "org.team.vision"

def blurred : Value := Language.lua.staticCallValue filters "blur" Catalog.OpenCv.mat [.raw "input"]

/-- The call needs two imports, but only that of the constant is there at the end. -/
theorem streamed_image_blurred :
    let p := Pass.new { language? := some .lua, preview := true } ()
    let shown := { p with work := p.work.stream .lua 0 blurred .hsv .processFrame }
    ∃ b, shown.finish.1 = .ok b ∧
      shown.PutsIn .processFrame b (fun line => .mk 2 [.act (.raw line)]) (Marker.text 2)
        "stream(0, Filters:blur(input), Imgproc.COLOR_HSV2RGB)" ∧
      shown.finish.2.work.imports.contains Catalog.OpenCv.imgproc = true ∧
      filters ∈ blurred.imports ∧ shown.finish.2.work.imports.contains filters = false := by
  intro p shown
  let s : Live Unit := { pass := p }
  have hsteps : Graph.Steps #[] (s.update fun p =>
      { p with work := p.work.stream p.language 0 blurred .hsv .processFrame }) { pass := shown } := .refl
  have hscope : (shown.work.scope .processFrame).toBlock =
      .mk 2 ([] ++ LinePlace.here.stmt (Marker.text (s.pass.work.registry.size + 1)) :: []) := rfl
  have hblock : shown.work.registry.IsImportBlock .lua 0 := rfl
  have hlone : ∀ k, shown.work.registry.tier? k = some .last → k = 0 := by
    intro k hk
    obtain ⟨hlt, -⟩ := shown.work.registry.tier?_eq_some_iff.mp hk
    have hsmall : k < 3 := hlt
    obtain rfl | rfl | rfl : k = 0 ∨ k = 1 ∨ k = 2 := by omega
    · rfl
    · cases hk
    · cases hk
  have hnormal : shown.normalTier.2.waiting = [] ∧ shown.normalTier.2.imports.contains filters = false := by
    decide +kernel
  have hfinish : shown.finish.1.toOption.isSome = true := by decide +kernel
  cases h : shown.finish.1 with
  | error e => rw [h] at hfinish; cases hfinish
  | ok b =>
    obtain ⟨-, -, hput, himports, -⟩ := streamed_image rfl rfl hsteps (by decide) (by decide +kernel) hscope h
    have hcall : Language.lua.previewCall 0 blurred .hsv =
        "stream(0, Filters:blur(input), Imgproc.COLOR_HSV2RGB)" := by decide +kernel
    refine ⟨b, rfl, hcall ▸ hput, himports _ List.mem_cons_self, ?_, ?_⟩
    · exact List.mem_cons_of_mem Catalog.OpenCv.mat List.mem_cons_self
    · obtain ⟨-, -, -, -, hlast⟩ := Pass.of_finish h
      rw [hlast, (hblock.sweeps_idle hlone _ _ _ hnormal.1).imports]
      exact hnormal.2

end Pipewright
