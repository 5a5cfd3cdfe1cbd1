import Pipewright.Proofs.Gaps
import Pipewright.Proofs.Lexemes
import Pipewright.Proofs.Rendering

/-!
# Class names

Any text can be given as the name of a class. What is written is an identifier,
and a name that is one already stays as it is. An identifier has no character that
opens a marker, and the blanks around it in the header of the class stand in none,
so a program has the same markers under every name (`class_names_safe`).
-/

namespace Pipewright

/-! ## Identifiers -/

structure IsClassName (name : String) : Prop where
  nonempty : name ≠ ""
  chars : name.toList.all (fun c => c.isAlpha || c.isDigit || c == '_') = true
  first : name.toList.head?.any Char.isDigit = false

instance (name : String) : Decidable (IsClassName name) :=
  decidable_of_iff (name ≠ "" ∧ name.toList.all (fun c => c.isAlpha || c.isDigit || c == '_') = true ∧
      name.toList.head?.any Char.isDigit = false)
    ⟨fun ⟨h, h', h''⟩ => ⟨h, h', h''⟩, fun ⟨h, h', h''⟩ => ⟨h, h', h''⟩⟩

theorem IsClassName.isWordChar {name : String} (h : IsClassName name) : ∀ c ∈ name.toList, isWordChar c = true :=
  List.all_eq_true.mp h.chars

theorem isClassName_ofList {c : Char} {cs : List Char} (hchars : ∀ d ∈ c :: cs, isWordChar d = true)
    (hfirst : c.isDigit = false) : IsClassName (String.ofList (c :: cs)) where
  nonempty := by simp
  chars := by
    rw [String.toList_ofList]
    exact List.all_eq_true.mpr hchars
  first := by
    rw [String.toList_ofList]
    exact hfirst

/-- A character that is kept, or the underscore in its place. -/
theorem isWordChar_kept (c : Char) : isWordChar (if isWordChar c then c else '_') = true := by
  split
  · assumption
  · decide

theorem isClassName_validIdentifier (name : String) : IsClassName (validIdentifier name) := by
  have hchars : ∀ d ∈ name.toList.map (fun c => if isWordChar c then c else '_'), isWordChar d = true := by
    intro d hd
    obtain ⟨c, -, rfl⟩ := List.mem_map.mp hd
    exact isWordChar_kept c
  unfold validIdentifier
  split
  case h_1 => decide
  case h_2 c rest hkept =>
    rw [hkept] at hchars
    -- the underscore that is put in front of a digit keeps all that was established before
    cases hdigit : c.isDigit with
    | true => exact isClassName_ofList (List.forall_mem_cons.mpr ⟨by decide, hchars⟩) (by decide)
    | false => exact isClassName_ofList hchars hdigit

theorem validIdentifier_eq_self {name : String} (h : IsClassName name) : validIdentifier name = name := by
  have hkept : name.toList.map (fun c => if isWordChar c then c else '_') = name.toList := by
    have hid : ∀ c ∈ name.toList, (if isWordChar c then c else '_') = id c := fun c hc => if_pos (h.isWordChar c hc)
    rw [List.map_congr_left hid, List.map_id]
  unfold validIdentifier
  rw [hkept]
  split
  case h_1 hnone => exact absurd (String.toList_eq_nil_iff.mp hnone) h.nonempty
  case h_2 c rest hname =>
    have hfirst := h.first
    rw [hname, List.head?_cons, Option.any_some] at hfirst
    rw [hfirst, if_neg Bool.false_ne_true, ← hname, String.ofList_toList]

theorem validIdentifier_eq_self_iff {name : String} : validIdentifier name = name ↔ IsClassName name :=
  ⟨fun h => h ▸ isClassName_validIdentifier name, validIdentifier_eq_self⟩

theorem IsClassName.open_not_mem {name : String} (h : IsClassName name) : '<' ∉ name.toList := fun hopen =>
  absurd (h.isWordChar '<' hopen) (by decide)

/-! ## Markers as they are written -/

def Segment.marker? : Segment → Option (Nat × String)
  | plain _ => none
  | marker id raw => some (id, raw)

/-- The markers of a text in their order, with any zeros in front of their numbers. -/
def markers (text : String) : List (Nat × String) := (segments text).filterMap Segment.marker?

theorem markers_of_not_mem {text : String} (h : '<' ∉ text.toList) : markers text = [] := by
  have hids : (segments text).filterMap Segment.id? = [] := (Reads.of_not_mem h).markerIds_eq.2
  rw [List.filterMap_eq_nil_iff] at hids
  refine List.filterMap_eq_nil_iff.mpr fun s hs => ?_
  cases s with
  | plain t => rfl
  | marker id raw => cases hids _ hs

theorem markers_gap {gap : String} (hgap : Marker.Gap gap) (a b : String) :
    markers (a ++ gap ++ b) = markers a ++ markers b := filterMap_segments_gap (fun _ => rfl) hgap a b

/-- A name between blanks adds no marker and is no part of one. -/
theorem markers_around {name : String} (h : IsClassName name) (front behind : String) :
    markers (front ++ " " ++ name ++ " " ++ behind) = markers front ++ markers behind := by
  rw [markers_gap Marker.gap_blank, markers_gap Marker.gap_blank, markers_of_not_mem h.open_not_mem, List.append_nil]

/-! ## The class around a program -/

theorem trim_between {front behind : String} (hfirst : front.toList.head?.any (!isBlank ·) = true)
    (hlast : behind.toList.getLast?.any (!isBlank ·) = true) (middle : String) :
    trim (front ++ middle ++ behind) = front ++ middle ++ behind := by
  obtain ⟨c, hc, hfront⟩ := (Option.any_eq_true ..).mp hfirst
  obtain ⟨d, hd, hbehind⟩ := (Option.any_eq_true ..).mp hlast
  apply trim_of_ends
  · intro b hb
    rw [String.toList_append, String.toList_append, List.append_assoc, List.head?_append, hc, Option.some_or,
      Option.mem_some_iff] at hb
    simpa [hb] using hfront
  · intro b hb
    rw [String.toList_append, List.getLast?_append, hd, Option.some_or, Option.mem_some_iff] at hb
    simpa [hb] using hbehind

def Program.signature (p : Program) (name : String) : ClassSignature :=
  { visibility := .isPublic, name
    parent := some (if p.preview then Catalog.OpenCv.streamablePipeline else Catalog.OpenCv.pipeline) }

namespace Language

/-- In the header of the class its name stands between blanks, of which none is trimmed. -/
theorem classHeader_around {l : Language} (hl : l.inClass = true) (p : Program) : ∃ front behind, ∀ name,
    l.classHeader (p.signature name) = .ok (front ++ (" " ++ name ++ " ") ++ behind) ∧
      trim (front ++ (" " ++ name ++ " ") ++ behind) = front ++ (" " ++ name ++ " ") ++ behind := by
  let parent := if p.preview then Catalog.OpenCv.streamablePipeline else Catalog.OpenCv.pipeline
  cases l with
  | java =>
    have hlast : ("extends " ++ parent.spelling).toList.getLast?.any (!isBlank ·) = true := by
      cases h : p.preview <;> simp only [parent, h] <;> decide +kernel
    refine ⟨"public class", "extends " ++ parent.spelling, fun name => ⟨?_, trim_between rfl hlast _⟩⟩
    refine congrArg Except.ok (String.toList_injective ?_)
    simp [Program.signature, parent, toString, Visibility.keyword]
  | kotlin =>
    have hlast : (": " ++ parent.spelling ++ "()").toList.getLast?.any (!isBlank ·) = true := by
      cases h : p.preview <;> simp only [parent, h] <;> decide +kernel
    refine ⟨"open class", ": " ++ parent.spelling ++ "()", fun name => ⟨?_, trim_between rfl hlast _⟩⟩
    refine congrArg Except.ok (String.toList_injective ?_)
    simp [Program.signature, parent, toString, nonPublic]
  | lua | python => cases hl

theorem block_inClass {l : Language} (hl : l.inClass = true) (header body : String) (n : Nat) :
    l.block header body n = tabs n ++ trim header ++ (" \x7b\n" ++ body ++ tabs n ++ "\x7d") := by
  cases l with
  | java | kotlin => simp only [block, String.append_assoc]
  | lua | python => cases hl

end Language

theorem RenderStyle.result_cls (style : RenderStyle) {n : Nat} {signature : ClassSignature} {header : String}
    (h : style.language.classHeader signature = .ok header) (body : Block) :
    (style.stmt n (.cls signature body)).result =
      (style.blockAt (n + 1) body).result.map fun text => style.language.block header text n ++ "\n" := by
  have hhead : (style.header n (.cls signature body)).result = .ok ("", header) := by
    rw [RenderStyle.header, h]
    rfl
  rw [stmt, Rendered.result_bind, hhead, Except.bind, Rendered.result_bind]
  cases (style.blockAt (n + 1) body).result with
  | error e => rfl
  | ok text =>
    refine congrArg Except.ok ?_
    rw [withBody, String.empty_append]

namespace Program

/-- Behind the import block, a declaration is written as it is anywhere else. -/
theorem opening_result (style : RenderStyle) (p : Program) : ∃ front, ∀ s : Stmt, s.isDeclarationBlock = true →
    (style.stmtsFrom 0 "" (p.opening.stmts ++ [s])).result = (style.stmt 0 s).result.map (front ++ ·) := by
  let out := "" ++ "" ++ indentLines 0 p.importMarker ++ "" ++ "\n"
  refine ⟨out ++ if lacksBlankLine out then "\n" else "", fun s hs => ?_⟩
  have hopening : p.opening.stmts = [.act (.raw p.importMarker), .blank] := rfl
  have hout : (style.stmtsFrom 0 "" (p.opening.stmts ++ [s])).result = (style.stmtsFrom 0 out [s]).result := by
    rw [hopening, List.cons_append, List.cons_append, List.nil_append, RenderStyle.stmtsFrom, RenderStyle.stmt]
    rfl
  rw [hout, RenderStyle.stmtsFrom, Rendered.result_bind, hs, Bool.true_and]
  cases (style.stmt 0 s).result with
  | error e => rfl
  | ok text =>
    change (style.stmtsFrom 0 _ []).result = _
    rw [RenderStyle.stmtsFrom]
    rfl

/-- Where programs are classes, the text of one is the same under every name apart from the name. -/
theorem assemble_named {l : Language} (hl : l.inClass = true) (p : Program) :
    ∃ around : Except LanguageError (String × String), ∀ name, ({ p with className := name }.assemble l).result =
      around.map fun (front, behind) => front ++ " " ++ validIdentifier name ++ " " ++ behind := by
  let style : RenderStyle := ⟨l, p.preview⟩
  obtain ⟨front, hfront⟩ := p.opening_result style
  obtain ⟨before, behind, hheader⟩ := l.classHeader_around hl p
  refine ⟨(style.blockAt 1 (p.members l).toBlock).result.map fun text =>
    (front ++ (tabs 0 ++ before), behind ++ (" \x7b\n" ++ text ++ tabs 0 ++ "\x7d") ++ "\n"), fun name => ?_⟩
  have hassemble : { p with className := name }.assemble l =
      style.stmtsFrom 0 "" (p.opening.stmts ++ [.cls (p.signature (validIdentifier name)) (p.members l).toBlock]) := by
    cases l with
    | java | kotlin =>
      rw [assemble, RenderStyle.block, Scope.toBlock, RenderStyle.blockAt]
      rfl
    | lua | python => cases hl
  obtain ⟨hname, htrim⟩ := hheader (validIdentifier name)
  rw [hassemble, hfront _ rfl, style.result_cls hname]
  cases (style.blockAt 1 (p.members l).toBlock).result with
  | error e => rfl
  | ok text =>
    refine congrArg Except.ok ?_
    change front ++ (l.block _ text 0 ++ "\n") = _
    rw [Language.block_inClass hl, htrim]
    simp only [String.append_assoc]

theorem markers_assemble (l : Language) (p : Program) (name : String) :
    ({ p with className := name }.assemble l).result.map markers = (p.assemble l).result.map markers := by
  cases hl : l.inClass with
  | false =>
    cases l with
    | java | kotlin => cases hl
    | lua | python => rfl
  | true =>
    obtain ⟨around, hassemble⟩ := p.assemble_named hl
    have hmarkers : ∀ name, ({ p with className := name }.assemble l).result.map markers =
        around.map fun (front, behind) => markers front ++ markers behind := by
      intro name
      rw [hassemble]
      cases around with
      | error e => rfl
      | ok found => exact congrArg Except.ok (markers_around (isClassName_validIdentifier name) found.1 found.2)
    exact (hmarkers name).trans (hmarkers p.className).symm

end Program

/-- What is written for a name is an identifier, it is the name itself exactly if that is one, and no more is done by
writing it again. The markers of a program do not depend on its name. -/
theorem class_names_safe :
    (∀ name, IsClassName (validIdentifier name) ∧ (validIdentifier name = name ↔ IsClassName name) ∧
      validIdentifier (validIdentifier name) = validIdentifier name) ∧
    ∀ (l : Language) (p : Program) (name : String),
      ({ p with className := name }.assemble l).result.map markers = (p.assemble l).result.map markers := by
  constructor
  · intro name
    have hname := isClassName_validIdentifier name
    exact ⟨hname, validIdentifier_eq_self_iff, validIdentifier_eq_self hname⟩
  · exact Program.markers_assemble

example : validIdentifier "<@vg#1#@>" = "__vg_1___" := by decide

end Pipewright
