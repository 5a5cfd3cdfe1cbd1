import Pipewright.Nodes.Builtin
import Pipewright.Proofs.Naming

/-!
# The variables of the built-in nodes

The code of each built-in node refers only to variables that are declared where
it stands, and declares no name a second time. So does any program that they
make together, whatever the graph and the order.
-/

namespace Pipewright

variable {σ : Type}

open Gen

/-! ## Reading other nodes -/

def Source.Tells (source : Source) : Prop :=
  ∀ session output value carried, source.read session output = .ok value → value.carried? = some carried →
    session.value? = some carried

theorem Source.tells_ofMat (position : Nat) (ref : NodeRef) : (ofMat position ref).Tells := by
  intro session output value carried hread hcarried
  cases session with
  | mat m =>
    simp only [ofMat] at hread
    split at hread
    · cases hread
      exact hcarried
    · cases hread
  | _ => cases hread

theorem Source.tells_ofList (position : Nat) (ref : NodeRef) (name : String) (element : ListElement) :
    (ofList position ref name element).Tells := by
  intro session output value carried hread hcarried
  cases session with
  | value v =>
    simp only [ofList] at hread
    split at hread
    · cases hread
      exact hcarried
    · cases hread
  | _ => cases hread

theorem Source.tells_ofNothing (position : Nat) (ref : NodeRef) : (ofNothing position ref).Tells := by
  intro session output value carried hread
  cases session <;> cases hread

theorem GenValue.carried?_of_asMat {value : GenValue} {pin : Pin} {m : MatValue} (h : value.asMat pin = .ok m) :
    value.carried? = some m.value := by
  cases value with
  | mat _ =>
    cases h
    rfl
  | _ => cases h

theorem GenValue.carried?_of_asRuntimeList {value : GenValue} {pin : Pin} {element : ListElement} {v : Value}
    (h : value.asRuntimeList pin element = .ok v) : value.carried? = some v := by
  cases value with
  | runtimeList _ _ =>
    simp only [asRuntimeList] at h
    split at h
    · cases h
      rfl
    · cases h
  | _ => cases h

def Node.Scoped (node : Node σ) : Prop :=
  ∀ (l : Language) (p : Pass σ), p.Scoped l [] [] →
    node.code.Ensures (Graph.relying (Pass.Scoped l [] [])) .processFrame p fun session q =>
      (q.store node.ref.id session).Scoped l [] []

namespace Pass.Scoped

variable {l : Language} {known pending : List String} {p : Pass σ} {source : Source}

theorem outputOf (h : p.Scoped l [] []) (hsource : source.Tells) {output : String}
    {post : GenValue → Pass σ → Prop}
    (hpost : ∀ value q, (∀ carried, value.carried? = some carried → q.Scoped l [carried.text] []) → post value q) :
    (Gen.outputOf source output).Ensures (Graph.relying (Pass.Scoped l [] [])) .processFrame p post := by
  refine ensures_outputOf fun q session value hq hsession hread => hpost value q fun carried hcarried => ?_
  have hscoped := hq rfl h
  have hin := hscoped.session _ session carried hsession (hsource session output value carried hread hcarried)
  exact { hscoped with known := by simpa using hin }

theorem matOf (h : p.Scoped l [] []) (hsource : source.Tells) {output : String} {pin : Pin}
    {post : MatValue → Pass σ → Prop} (hpost : ∀ m q, q.Scoped l [m.value.text] [] → post m q) :
    (Gen.matOf source output pin).Ensures (Graph.relying (Pass.Scoped l [] [])) .processFrame p post := by
  refine ensures_bind (h.outputOf hsource fun value q hq => ensures_lift fun m hm => ?_)
  exact hpost m q (hq m.value (GenValue.carried?_of_asMat hm))

theorem colorInput (h : p.Scoped l [] []) (hsource : source.Tells) {ref : NodeRef} {post : MatValue → Pass σ → Prop}
    (hpost : ∀ m q, q.Scoped l [m.value.text] [] → post m q) :
    (Nodes.colorInput ref source).Ensures (Graph.relying (Pass.Scoped l [] [])) .processFrame p post :=
  ensures_bind (h.matOf hsource fun m q hq => ensures_bind (ensures_lift fun _ _ => ensures_pure (hpost m q hq)))

end Pass.Scoped

/-! ## The texts of expressions -/

@[simp] theorem Value.text_new (ty : Ty) (text : String) : (new ty text).text = text := rfl

@[simp] theorem Value.text_operation (ty : Ty) (text : String) : (operation ty text).text = text := rfl

@[simp] theorem Value.text_withImports (v : Value) (types : List Ty) : (v.withImports types).text = v.text := rfl

@[simp] theorem Value.text_withImportsOf (v : Value) (values : List Value) :
    (v.withImportsOf values).text = v.text := rfl

@[simp] theorem Variable.text_reference (v : Variable) : v.reference.text = v.name := rfl

@[simp] theorem Catalog.Python.name_cv2 : cv2.name = "cv2" := rfl

@[simp] theorem Language.text_staticCallValue (l : Language) (cls : Ty) (method : String) (returns : Ty)
    (args : List Value) : (l.staticCallValue cls method returns args).text =
      cls.name ++ l.methodMark ++ method ++ "(" ++ ", ".intercalate (args.map Value.text) ++ ")" := by
  simp [staticCallValue, Value.commaSeparated, toString]

@[simp] theorem Language.text_methodCallValue (l : Language) (callee : Value) (method : String) (returns : Ty)
    (args : List Value) : (l.methodCallValue callee method returns args).text =
      callee.text ++ l.methodMark ++ method ++ "(" ++ ", ".intercalate (args.map Value.text) ++ ")" := by
  simp [methodCallValue, Value.commaSeparated, toString]

/-- The constant of a color conversion, behind its module or class. -/
theorem Language.exists_colorConversion (l : Language) (source target : ColorSpace) : ∃ constant, IsName constant ∧
    (l.colorConversion source target).text = (if l = .python then "cv2." else "Imgproc.") ++ constant := by
  refine ⟨_, isName_conversion source target, ?_⟩
  cases l <;> simp [colorConversion, toString, ← String.append_assoc]

theorem Language.references_constant (l : Language) {name : String} (h : IsName name) :
    l.references (Catalog.OpenCv.constant name).text = [] :=
  l.references_imgproc h

theorem Language.references_colorConversion {l : Language} (hl : l ≠ .python) (source target : ColorSpace) :
    l.references (l.colorConversion source target).text = [] := by
  obtain ⟨constant, hconstant, htext⟩ := l.exists_colorConversion source target
  rw [htext, if_neg hl]
  exact l.references_imgproc hconstant

namespace Pass.Scoped

variable {l : Language} {known pending : List String} {p : Pass σ} (h : p.Scoped l known pending)
include h

theorem references {x : String} (hx : x ∈ known) : l.references x ⊆ known :=
  List.Subset.trans (l.references_name (h.isName hx)) (by simpa using hx)

theorem covers {values : List Value} (hvalues : ∀ v ∈ values, v.text ∈ known ∨ l.references v.text = []) :
    Covers l known values := by
  intro v hv
  rcases hvalues v hv with hname | hnone
  · exact h.references hname
  · exact hnone ▸ List.nil_subset _

/-- `cv2.cvtColor(x, cv2.constant)` -/
theorem references_convert {mat : Value} (hmat : mat.text ∈ known) (source target : ColorSpace) :
    Language.python.references (Language.python.staticCallValue Catalog.Python.cv2 "cvtColor" Catalog.Python.noType
      [mat, Language.python.colorConversion source target]).text ⊆ known := by
  obtain ⟨constant, hconstant, htext⟩ := Language.python.exists_colorConversion source target
  refine List.Subset.trans ?_ (List.cons_subset.mpr ⟨hmat, List.nil_subset _⟩)
  simpa [Language.methodMark, String.append_assoc] using
    Language.python.references_convert (h.isName hmat) hconstant htext

theorem references_inRange {mat lower upper : Value} (hmat : mat.text ∈ known) (hlower : lower.text ∈ known)
    (hupper : upper.text ∈ known) :
    Language.python.references (Language.python.staticCallValue Catalog.Python.cv2 "inRange" Catalog.Python.noType
      [mat, lower, upper]).text ⊆ known := by
  refine List.Subset.trans ?_ (List.cons_subset.mpr ⟨hmat, List.cons_subset.mpr ⟨hlower,
    List.cons_subset.mpr ⟨hupper, List.nil_subset _⟩⟩⟩)
  simpa [Language.methodMark, String.append_assoc] using
    Language.python.references_inRange (h.isName hmat) (h.isName hlower) (h.isName hupper)

theorem references_findContours {mat : Value} (hmat : mat.text ∈ known) :
    Language.python.references ((Language.python.staticCallValue Catalog.Python.cv2 "findContours" Catalog.Python.noType
      [mat, Catalog.Python.constant "RETR_EXTERNAL", Catalog.Python.constant "CHAIN_APPROX_SIMPLE"]).text ++ "[0]") ⊆
        known := by
  refine List.Subset.trans ?_ (List.cons_subset.mpr ⟨hmat, List.nil_subset _⟩)
  simpa [Language.methodMark, Catalog.Python.constant, toString, String.append_assoc] using
    Language.python.references_findContours (h.isName hmat)

end Pass.Scoped

namespace Nodes

theorem grantable_lowerName (c : ColorSpace) : Grantable (lowerName c) := by
  cases c <;> decide +kernel

theorem grantable_lowerName_append (c : ColorSpace) {ending : String} (h : ending = "Mat" ∨ ending = "BinaryMat") :
    Grantable (lowerName c ++ ending) := by
  rcases h with rfl | rfl <;> cases c <;> decide +kernel

theorem input_scoped (id : Nat) : (input id : Node σ).Scoped := by
  intro l p h
  have hinput : p.Scoped l ["input"] [] := { h with known := by simp }
  refine ensures_bind (ensures_language ?_)
  rw [h.language]
  cases l with
  | python | java | kotlin | lua => exact ensures_pure (hinput.store (by simp [Session.value?, MatValue.image]) id)

theorem convert_scoped (id : Nat) {source : Source} (hsource : source.Tells) (target : ColorSpace) :
    (convert id source target : Node σ).Scoped := by
  intro l p h
  refine ensures_bind (ensures_language ?_)
  refine ensures_bind (h.colorInput hsource fun m q hq => ?_)
  rw [h.language]
  by_cases hcolor : m.color = target
  · simp only [hcolor, if_true]
    exact ensures_pure (hq.store (by simp [Session.value?]) id)
  · simp only [hcolor, if_false]
    have hconversion : l ≠ .python → l.references (l.colorConversion m.color target).text = [] :=
      fun hl => Language.references_colorConversion hl _ _
    have hconverted := hq.references_convert (List.mem_singleton_self m.value.text) m.color target
    cases l with
    | python =>
      refine ensures_bind (hq.uniqueVariable (grantable_lowerName target) fun x q hq => ?_)
      refine ensures_bind (hq.localVariable hconverted fun q hq => ?_)
      exact ensures_pure (hq.store (by simp [Session.value?, MatValue.image]) id)
    | java | kotlin | lua =>
      refine ensures_bind (hq.uniqueVariable (grantable_lowerName_append target (.inl rfl)) fun x q hq => ?_)
      refine ensures_bind (hq.group .field fun q hq => ?_)
      refine ensures_bind (hq.append (.act ?_) fun q hq => ?_)
      · exact hq.covers (by simp [hconversion])
      · exact ensures_pure (hq.store (by simp [Session.value?, MatValue.image]) id)

theorem threshold_scoped (id : Nat) {source : Source} (hsource : source.Tells) (range : ScalarRange) :
    (threshold id source range : Node σ).Scoped := by
  intro l p h
  refine ensures_bind (ensures_language ?_)
  refine ensures_bind (h.colorInput hsource fun m q hq => ?_)
  rw [h.language]
  cases l with
  | python =>
    refine ensures_bind (hq.uniqueVariable (by decide) fun lower q hq => ?_)
    refine ensures_bind (hq.uniqueVariable (by decide) fun upper q hq => ?_)
    refine ensures_bind (hq.group (.andThen .field .field) fun q hq => ?_)
    refine ensures_bind (hq.uniqueVariable (by decide) fun mask q hq => ?_)
    refine ensures_bind (hq.localVariable (hq.references_inRange (by simp) (by simp) (by simp)) fun q hq => ?_)
    exact ensures_pure (hq.store (by simp [Session.value?, MatValue.mask]) id)
  | java | kotlin | lua =>
    refine ensures_bind (hq.uniqueVariable (by decide) fun lower q hq => ?_)
    refine ensures_bind (hq.uniqueVariable (by decide) fun upper q hq => ?_)
    refine ensures_bind (hq.uniqueVariable (grantable_lowerName_append _ (.inr rfl)) fun mask q hq => ?_)
    refine ensures_bind (hq.group (.andThen .field .field) fun q hq => ?_)
    refine ensures_bind (hq.group .field fun q hq => ?_)
    refine ensures_bind (hq.append (.act ?_) fun q hq => ?_)
    · exact hq.covers (by simp)
    · exact ensures_pure (hq.store (by simp [Session.value?, MatValue.mask]) id)

theorem contours_scoped (id : Nat) {source : Source} (hsource : source.Tells) :
    (contours id source : Node σ).Scoped := by
  intro l p h
  refine ensures_bind (ensures_language ?_)
  refine ensures_bind (h.matOf hsource fun m q hq => ?_)
  refine ensures_bind (ensures_lift fun _ _ => ?_)
  rw [h.language]
  have hconstants : l.references (Catalog.OpenCv.constant "RETR_EXTERNAL").text = [] ∧
      l.references (Catalog.OpenCv.constant "CHAIN_APPROX_SIMPLE").text = [] :=
    ⟨l.references_constant (by decide), l.references_constant (by decide)⟩
  cases l with
  | python =>
    refine ensures_bind (hq.uniqueVariable (by decide) fun found q hq => ?_)
    refine ensures_bind (hq.localVariable (hq.references_findContours (by simp)) fun q hq => ?_)
    exact ensures_pure (hq.store (by simp [Session.value?]) id)
  | java | kotlin | lua =>
    refine ensures_bind (hq.uniqueVariable (by decide) fun found q hq => ?_)
    refine ensures_bind (hq.uniqueVariable (by decide) fun hierarchy q hq => ?_)
    refine ensures_bind (hq.group (.andThen .field .field) fun q hq => ?_)
    refine ensures_bind (hq.append (.andThen (.andThen (.act ?_) (.act ?_)) (.act ?_)) fun q hq => ?_)
    · exact hq.covers (by simp)
    · exact hq.covers (by simp)
    · exact hq.covers (by simp [hconstants])
    · exact ensures_pure (hq.store (by simp [Session.value?]) id)

theorem dropped_method {s : Scope} {signature : MethodSignature} {build : Scope → Scope}
    (h : (build s.child).dropped = []) : (s.method signature build).dropped = s.dropped := by
  simp [Scope.method, Scope.enclose, Scope.push, h]

theorem dropped_accessors (l : Language) (s : Scope) : (Targets.accessors l s).dropped = s.dropped := by
  have hclearing : ∀ s, (Targets.clearing l s).dropped = s.dropped := fun _ => dropped_method rfl
  have hadding : ∀ k s, (Targets.adding l k s).dropped = s.dropped := fun _ _ => dropped_method rfl
  have hgetting : ∀ k s, (Targets.getting l k s).dropped = s.dropped := fun _ _ => dropped_method rfl
  have hgettingAll : ∀ k s, (Targets.gettingAll l k s).dropped = s.dropped := fun _ _ => dropped_method rfl
  simp only [Targets.accessors, hclearing, hadding, hgetting, hgettingAll]

theorem enableTargets_scoped {l : Language} {known : List String} {p : Pass σ} (h : p.Scoped l known [])
    {node : NodeRef} {rely : Target → Pass σ → Pass σ → Prop} :
    (enableTargets node).Ensures rely .processFrame p fun _ q => q.Scoped l known [] := by
  refine ensures_bind (ensures_requireFeature fun _ => ?_)
  refine ensures_bind (ensures_addFlag ?_)
  have hflag := h.addFlag
  cases hnew : p.work.hasFlag Targets.flag with
  | true =>
    rw [hnew] at hflag
    exact ensures_pure hflag
  | false =>
    rw [hnew] at hflag
    refine ensures_bind (ensures_language ?_)
    refine ensures_bind (hflag.append (.act ?_) fun q hq => ?_)
    · exact covers_nil
    · refine ensures_bind (hq.group (.andThen .field .field) fun q hq => ?_)
      -- the accessors stand at the end of the class, and of that scope only the dropped names matter
      refine ensures_inTarget (ensures_append ?_)
      exact { hq with
        dropped := Workspace.dropped_modifyScope hq.dropped (dropped_accessors _ _)
        known := List.Subset.trans (List.subset_append_right _ _) hq.known }

theorem publishing_writes {known : List String} {mentions : String → String → Prop} (label : String) {rects : Variable}
    (hrects : rects.name ∈ known) (hname : IsName rects.name) :
    Scope.Writes (publishing .java label rects) .java mentions known := by
  have hindex : IsName "i" := by decide
  have hstart : Language.java.references (Language.java.int 0).text = [] := by decide +kernel
  have hrect : [rects.name, "i"] ⊆ "i" :: known := by
    simp [hrects]
  refine .forLoop (covers_cons.mpr ⟨?_, covers_nil⟩) (covers_cons.mpr ⟨?_, covers_nil⟩)
    (.act (covers_cons.mpr ⟨?_, covers_cons.mpr ⟨?_, covers_nil⟩⟩))
  · rw [hstart]
    exact List.nil_subset _
  · have hcount : [rects.name] ⊆ "i" :: known := List.cons_subset.mpr ⟨List.mem_cons_of_mem _ hrects, List.nil_subset _⟩
    refine List.Subset.trans ?_ hcount
    simpa [Language.methodMark, String.append_assoc] using Language.java.references_size hname
  · refine List.Subset.trans ?_ (List.cons_subset_cons "i" (List.nil_subset known))
    simpa [targetName, Variable.typed, toString, String.append_assoc] using
      Language.java.references_labeled hindex label
  · refine List.Subset.trans ?_ hrect
    simpa [Language.methodMark, Variable.typed, String.append_assoc] using Language.java.references_get hname hindex

theorem boundingRects_scoped (id : Nat) {source : Source} (hsource : source.Tells) (label : Option String) :
    (boundingRects id source label : Node σ).Scoped := by
  intro l p h
  refine ensures_forLanguage fun hsupported => ?_
  refine ensures_bind (h.outputOf hsource fun value q hq => ?_)
  refine ensures_bind (ensures_lift fun found hfound => ?_)
  replace hq := hq found (GenValue.carried?_of_asRuntimeList hfound)
  rw [h.language] at hsupported ⊢
  cases l with
  | kotlin | lua => simp [boundingRectsLanguages] at hsupported
  | python =>
    refine ensures_bind (hq.uniqueVariable (by decide) fun rects q hq => ?_)
    refine ensures_bind (hq.localVariable ?_ fun q hq => ?_)
    · simpa [toString] using Language.references_comprehension (hq.isName (List.mem_singleton_self found.text))
    exact ensures_pure (hq.store (by simp [Session.value?]) id)
  | java =>
    have hrect : Language.java.references (Language.java.staticCallValue Catalog.OpenCv.imgproc "boundingRect"
        Catalog.OpenCv.rect [(Variable.typed Catalog.OpenCv.matOfPoint "contour").reference]).text ⊆ ["contour"] := by
      decide +kernel
    refine ensures_when (Pass.Scoped .java [found.text] []) hq (enableTargets_scoped hq) fun q hq => ?_
    refine ensures_bind (hq.uniqueVariable (by decide) fun rects q hq => ?_)
    refine ensures_bind (hq.group .field fun q hq => ?_)
    refine ensures_bind (hq.append (.andThen (.act ?_) (.foreach ?_ (.act ?_))) fun q hq => ?_)
    · exact hq.covers (by simp)
    · exact hq.covers (by simp)
    · have hrects := hq.references (List.mem_append_left _ (List.mem_singleton_self rects))
      have hcallee := List.Subset.trans hrects (List.subset_cons_self "contour" _)
      refine covers_cons.mpr ⟨hcallee, covers_cons.mpr ⟨List.Subset.trans hrect ?_, covers_nil⟩⟩
      simp [Variable.typed]
    cases label with
    | none => exact ensures_pure (hq.store (by simp [Session.value?]) id)
    | some label =>
      refine ensures_bind (hq.append (publishing_writes label ?_ (hq.isName ?_)) fun q hq => ?_)
      · simp
      · simp
      · exact ensures_pure (hq.store (by simp [Session.value?]) id)

theorem streamMat_scoped {l : Language} {known pending : List String} {p : Pass σ} (h : p.Scoped l known pending)
    {node : NodeRef} {mat : Value} (hmat : mat.text ∈ known) (color : ColorSpace)
    {rely : Target → Pass σ → Pass σ → Prop} :
    (streamMat node 0 mat color).Ensures rely .processFrame p fun _ q => q.Scoped l known pending := by
  refine ensures_bind (ensures_pass ?_)
  by_cases hpreview : p.preview
  · simp only [hpreview, if_true]
    refine ensures_bind (ensures_requireFeature fun hsupports => ?_)
    refine ensures_bind (ensures_language ?_)
    rw [h.language] at hsupports ⊢
    have hl : l ≠ .python := by
      rintro rfl
      cases hsupports
    -- the call is raw text, a marker whose placeholder reads the image and the conversion
    refine ensures_bind (h.register fun conversion q hq hconversion _ => ?_)
    refine ensures_bind (hq.register fun call r hr hcall hkept => ?_)
    refine hr.append (.act fun _ hunpreviewed => absurd ?_ hunpreviewed) fun q hq => hq
    refine ⟨call.id, mat, conversion, _, rfl, hcall, hkept _ _ hconversion, ?_, hr.mem_fields hl hmat⟩
    by_cases hcolor : color = .rgb
    · exact .inl (if_pos hcolor)
    · exact .inr ⟨color, if_neg hcolor⟩
  · simp only [hpreview]
    exact ensures_pure h

theorem output_scoped (id : Nat) {source : Source} (hsource : source.Tells) : (output id source : Node σ).Scoped := by
  intro l p h
  refine ensures_bind (h.matOf hsource fun m q hq => ?_)
  refine ensures_bind ((streamMat_scoped hq (by simp) m.color).imp fun _ q hq => ?_)
  refine ensures_bind (ensures_language ?_)
  rw [hq.language]
  cases l with
  | python =>
    refine ensures_bind (hq.append (.ret (covers_cons.mpr ⟨?_, covers_nil⟩)) fun q hq => ?_)
    · simpa [toString] using Language.references_returned .python (hq.isName (List.mem_singleton_self m.value.text))
    · exact ensures_pure (hq.store (by simp [Session.value?]) id)
  | java | kotlin | lua =>
    refine ensures_bind (hq.append (.ret (hq.covers (by simp))) fun q hq => ?_)
    exact ensures_pure (hq.store (by simp [Session.value?]) id)

end Nodes

/-! ## Graphs -/

namespace Builtin

theorem tells_source (position id : Nat) (b : Builtin) : (b.source position id).Tells := by
  cases b with
  | input | convert _ _ | threshold _ _ => exact Source.tells_ofMat _ _
  | contours _ | boundingRects _ _ => exact Source.tells_ofList _ _ _ _
  | output _ => exact Source.tells_ofNothing _ _

theorem node_scoped {sources : Nat → Source} (h : ∀ position, (sources position).Tells) (id : Nat) (b : Builtin) :
    (b.node sources id : Node σ).Scoped := by
  cases b with
  | input => exact Nodes.input_scoped id
  | convert s target => exact Nodes.convert_scoped id (h s) target
  | threshold s range => exact Nodes.threshold_scoped id (h s) range
  | contours s => exact Nodes.contours_scoped id (h s)
  | boundingRects s label => exact Nodes.boundingRects_scoped id (h s) label
  | output s => exact Nodes.output_scoped id (h s)

theorem graph_scoped (nodes : List (Nat × Builtin)) : ∀ node ∈ (graph nodes : Graph σ), node.Scoped := by
  intro node hnode
  simp only [graph, List.mem_toArray, List.mem_map] at hnode
  obtain ⟨⟨id, b⟩, -, rfl⟩ := hnode
  refine node_scoped (fun position => ?_) id b
  cases nodes[position]? with
  | none => exact Source.tells_ofNothing _ _
  | some entry => exact tells_source position entry.1 entry.2

theorem graph_keeps (nodes : List (Nat × Builtin)) (l : Language) :
    (graph nodes : Graph σ).Keeps (Pass.Scoped l [] []) where
  aside _ _ _ h := { h with }
  node node hnode p h := graph_scoped nodes node hnode l p h

end Builtin

end Pipewright
