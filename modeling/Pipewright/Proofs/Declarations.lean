import Pipewright.Nodes.Demo
import Pipewright.Proofs.Attempts
import Pipewright.Proofs.Variables

/-!
# Programs without undeclared variables

The programs that graphs of built-in nodes make declare each variable once, and
before its use. The only raw text of these nodes are markers of preview calls, so
what it mentions is what such a placeholder can give.
-/

namespace Pipewright

variable {σ : Type}

/-! ## What raw text mentions -/

/-- A name is mentioned by a text if it stands in it once each marker is replaced by something that its placeholder
can give. A text that is one marker mentions whatever its placeholder does. -/
inductive Registry.Mentions (reg : Registry σ) (l : Language) : String → String → Prop
  | text {text name : String} (given : Nat → String) : (∀ id, text ≠ Marker.text id) →
      (∀ id ∈ markerIds text, ∃ tier r, reg.Gives (fun _ => True) tier id r ∧ given id = r.toText) →
      name ∈ l.references (replaceMarkers (fun id => some (given id)) text) → Mentions reg l text name
  | marker {tier : Tier} {id : Nat} {r : Resolved} {name : String} : reg.Gives (fun _ => True) tier id r →
      name ∈ l.references r.toText → Mentions reg l (Marker.text id) name

theorem Marker.text_inj {a b : Nat} (h : text a = text b) : a = b := by
  have hlist := congrArg String.toList h
  have hdigits : numbered "" a = numbered "" b := String.toList_inj.mp (by simpa [text, numbered] using hlist)
  exact numbered_inj hdigits

theorem Registry.call_eq {reg : Registry σ} {id : Nat} {entry : Entry σ} (h : reg.entry? id = some entry) (tier : Tier)
    (stack : List Nat) (hlt : id < reg.size) (p : Progress σ) : reg.call tier stack hlt p =
      entry.recipe.run (reg.view tier (id :: stack)) (reg.resolve tier (id :: stack)) p := by
  obtain ⟨_, rfl⟩ := Array.getElem?_eq_some_iff.mp h
  rfl

/-! ## Preview calls -/

namespace Language

variable {l : Language}

theorem text_streamFrame {mat : Value} {conversion : Option Value} {text : String}
    (h : l.streamFrame (l.int 0) mat conversion = .ok text) : ∃ method, IsName method ∧
      text = method ++ "(0, " ++ mat.text ++ ", " ++
        ((conversion.getD (l.null l.voidType)).text ++ ")" ++ l.semicolon) := by
  have hzero : (l.int 0).text = "0" := rfl
  cases l with
  | python => cases h
  | java | kotlin =>
    cases h
    refine ⟨"streamFrame", by decide, String.toList_inj.mp ?_⟩
    simp [call, Value.commaSeparated, toString, hzero]
  | lua =>
    cases h
    refine ⟨"stream", by decide, String.toList_inj.mp ?_⟩
    simp [call, Value.commaSeparated, toString, hzero]

/-- The conversion in a preview call is a constant, or there is none. -/
theorem lexes_conversion {value : Value}
    (hvalue : value = .absent ∨ ∃ color, value = l.colorConversion color .rgb) (hl : l ≠ .python) :
    ∃ ts, Lexes (((if value.isAbsent then none else some value).getD (l.null l.voidType)).text ++ ")" ++
      l.semicolon).toList ts ∧ l.named false ts = [] := by
  rcases hvalue with rfl | ⟨color, rfl⟩
  · cases l with
    | python => exact absurd rfl hl
    | java => exact ⟨[.word "null", .mark ')', .mark ';'], by decide, by decide +kernel⟩
    | kotlin => exact ⟨[.word "null", .mark ')'], by decide, by decide +kernel⟩
    | lua => exact ⟨[.word "nil", .mark ')'], by decide, by decide +kernel⟩
  · obtain ⟨constant, hconstant, htext⟩ := l.exists_colorConversion color .rgb
    have hpresent : (l.colorConversion color .rgb).isAbsent = false := by cases l <;> rfl
    have hopen : Lexes "Imgproc.".toList [.word "Imgproc", .mark '.'] := by decide
    have hend : ∃ ts, Lexes l.semicolon.toList ts ∧ l.named false ts = [] := by
      cases l with
      | java => exact ⟨[.mark ';'], by decide, by decide⟩
      | kotlin | lua | python => exact ⟨[], by decide, rfl⟩
    obtain ⟨ts, hts, hnone⟩ := hend
    have h := (hopen.append (.name hconstant ')' (by decide))).append hts
    rw [hpresent]
    rw [if_neg hl] at htext
    refine ⟨_, by simpa [htext] using h, ?_⟩
    simp [named, isMemberMark, isCalled, imgproc_mem_typeNames, hnone]

theorem references_streamFrame {mat value : Value} {text : String} (hmat : IsName mat.text)
    (hvalue : value = .absent ∨ ∃ color, value = l.colorConversion color .rgb)
    (h : l.streamFrame (l.int 0) mat (if value.isAbsent then none else some value) = .ok text) :
    l.references text ⊆ [mat.text] := by
  obtain ⟨method, hmethod, rfl⟩ := text_streamFrame h
  have hl : l ≠ .python := by
    rintro rfl
    cases h
  obtain ⟨ts, hts, hnone⟩ := lexes_conversion hvalue hl
  exact l.references_stream hmat hmethod hts hnone

end Language

namespace Registry

variable {reg : Registry (Surroundings σ)} {l : Language}

/-- A placeholder of a preview call gives that call. -/
theorem Gives.streamFrame {ok : Surroundings σ → Prop} {tier : Tier} {id : Nat} {r : Resolved} {mat value : Value}
    {conversion : Placeholder} (h : reg.Gives ok tier id r)
    (hcall : reg.entry? id = some ⟨.normal, Gen.streamRecipe l 0 mat conversion⟩)
    (hconversion : reg.entry? conversion.id = some ⟨.normal, .give (some (.value value))⟩) :
    l.streamFrame (l.int 0) mat (if value.isAbsent then none else some value) = .ok r.toText := by
  obtain ⟨hlt, stack, p, -, hr⟩ := h
  rw [call_eq hcall] at hr
  simp only [Gen.streamRecipe, Recipe.needing, Recipe.run] at hr
  rcases reg.resolve_eq_call tier (id :: stack) conversion.id conversion.tier p with hnone | ⟨hid, hsome⟩
  · simp only [hnone] at hr
    cases hr
  · rw [call_eq hconversion] at hsome
    simp only [hsome, Recipe.run] at hr
    split at hr
    next text hstream =>
      cases hr
      exact hstream
    next => cases hr

/-- A marker of a preview call mentions a known name. -/
theorem Previews.of_mentions {known : List String} {text name : String} (h : reg.Previews l known text)
    (hknown : ∀ x ∈ known, IsName x) (hname : reg.Mentions l text name) : name ∈ known := by
  obtain ⟨call, mat, conversion, value, rfl, hcall, hconversion, hvalue, hmat⟩ := h
  generalize htext : Marker.text call = text at hname
  cases hname with
  | text _ hmarker _ _ => exact absurd htext.symm (hmarker call)
  | marker hgives hmention =>
    cases Marker.text_inj htext
    have hstream := hgives.streamFrame hcall hconversion
    have hin := Language.references_streamFrame (hknown _ hmat) hvalue hstream hmention
    exact List.mem_singleton.mp hin ▸ hmat

end Registry

/-! ## Programs -/

theorem Pass.Scoped.isName_of_mem_fields {l : Language} {known pending : List String} {p : Pass σ}
    (h : p.Scoped l known pending) {x : String} (hx : x ∈ p.fields) : IsName x := by
  rcases List.mem_cons.mp hx with rfl | hx
  · decide
  · exact h.isName_of_granted (h.granted (List.mem_append_left _ (List.mem_append_left _ hx)))

/-- A program of built-in nodes declares no variable twice and refers to none that is not declared. -/
theorem Builtin.generateProgram_scoped (nodes : List (Nat × Builtin)) (order : List Nat) (options : BuildOptions)
    (outside : σ) (p : Pass σ) (h : (graph nodes).generateProgram order (Pass.new options outside) = (.ok (), p)) :
    (declaredNames p.work.classStart.stmts ++ declaredNames p.work.processFrame.stmts).Nodup ∧
      (∀ target, (p.work.scope target).dropped = []) ∧
      StmtsScoped options.language (p.work.registry.Mentions options.language)
        ("input" :: declaredNames p.work.classStart.stmts) p.work.processFrame.stmts := by
  have hp := (graph_keeps nodes options.language).generateProgram (Pass.scoped_new options outside) h
  have hlooser : Looser (p.unpreviewed options.language) (p.work.registry.Mentions options.language)
      p.fields p.fields := by
    refine ⟨List.Subset.refl _, fun text name hname => ?_⟩
    by_cases hpreview : p.work.registry.Previews options.language p.fields text
    · exact .inr (hpreview.of_mentions (fun x hx => hp.isName_of_mem_fields hx) hname)
    · exact .inl hpreview
  have hdistinct := hp.distinct
  have hstmts := hlooser.stmts hp.stmts
  rw [List.append_nil, Pass.declared, hp.classStart.declared, hp.processFrame.declared] at hdistinct
  rw [Pass.fields, hp.classStart.declared] at hstmts
  exact ⟨hdistinct, hp.dropped, hstmts⟩

namespace Nodes

def twoMasks : List (Nat × Builtin) :=
  [(0, .input), (1, .convert 0 .hsv), (2, .threshold 1 yellow), (3, .contours 2), (4, .boundingRects 3 (some "yellow")),
    (5, .output 1), (6, .threshold 1 yellow), (7, .contours 6), (8, .boundingRects 3 none),
    (9, .boundingRects 7 (some "other"))]

def twoMasksPass : Pass Unit :=
  ((Builtin.graph twoMasks).generateProgram [5, 9, 4, 8] (Pass.new { preview := true } ())).2

theorem generateProgram_scoped_twoMasks :
    ((Builtin.graph twoMasks).generateProgram [5, 9, 4, 8] (Pass.new { preview := true } ())).1 = .ok () ∧
      (declaredNames twoMasksPass.work.classStart.stmts ++ declaredNames twoMasksPass.work.processFrame.stmts).Nodup ∧
      (∀ target, (twoMasksPass.work.scope target).dropped = []) ∧
      StmtsScoped .java (twoMasksPass.work.registry.Mentions .java)
        ("input" :: declaredNames twoMasksPass.work.classStart.stmts) twoMasksPass.work.processFrame.stmts := by
  have hok : ((Builtin.graph twoMasks).generateProgram [5, 9, 4, 8] (Pass.new { preview := true } ())).1 = .ok () := by
    decide +kernel
  exact ⟨hok, Builtin.generateProgram_scoped twoMasks [5, 9, 4, 8] { preview := true } () twoMasksPass
    (Prod.ext hok rfl)⟩

example : declaredNames twoMasksPass.work.classStart.stmts =
    ["hsvMat", "lower", "upper", "hsvBinaryMat", "contours", "hierarchy", "rectTargets", "rotRectTargets", "rects",
      "lower1", "upper1", "hsvBinaryMat1", "contours1", "hierarchy1", "rects1", "rects2"] := by
  decide +kernel

end Nodes

end Pipewright
