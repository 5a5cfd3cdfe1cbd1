import Pipewright.Proofs.Indentation

/-!
# Rendering into an import scope

A renderer that carries an import scope along and registers each type on it at
the moment of its use. What it writes does not depend on the scope, and what it
registers is the list of types that rendering reports, also where it stops at an
error (`RenderStyle.writeBlock_eq`). That list is the same at every indentation,
and without a preview no label is a part of either (`RenderStyle.writeBlock_registers`).
-/

namespace Pipewright

/-- Steps with an import scope at hand. What was registered on it stays there where a later step fails. -/
abbrev Sinking := ExceptT LanguageError (StateM ImportScope)

namespace Sinking

variable {α : Type}

def sink (x : Sinking α) (imports : ImportScope) : Except LanguageError α × ImportScope := x.run.run imports

def importType (t : Ty) : Sinking Unit := modify (·.register t)

def importTypes (types : List Ty) : Sinking Unit := types.forM importType

def importValue (v : Value) : Sinking Unit := importTypes v.imports

def importValues (values : List Value) : Sinking Unit := values.forM importValue

end Sinking

def withBlankLine (text : String) : String := if lacksBlankLine text then text ++ "\n" else text

namespace RenderStyle

open Sinking

variable (style : RenderStyle)

def writeAction (n : Nat) (out : String) (a : Action) : Sinking String := do
  let l := style.language
  match a with
  | .assign target value =>
    importValue value
    return out ++ indentLines n (l.assignment target value)
  | .setElement target index value =>
    importValue index
    importValue value
    return out ++ indentLines n (l.elementAssignment target index value)
  | .assignInstance target value =>
    importValue value
    return out ++ indentLines n (l.instanceAssignment target value)
  | .staticCall cls method args =>
    importType cls
    importValues args
    return out ++ indentLines n (l.staticCall cls method args)
  | .methodCall callee method args =>
    importValue callee
    importValues args
    return out ++ indentLines n (l.methodCall callee method args)
  | .call method args =>
    importValues args
    return out ++ indentLines n (l.call method args)
  | .enumeration name values => return out ++ indentLines n (l.enumeration name values)
  | .comment text => return out ++ indentLines n (l.comment text)
  | .raw text => return out ++ indentLines n text

def writeBody (n : Nat) (out header : String) (body : Sinking String) : Sinking String := do
  let text ← body
  return out ++ style.language.block header text n ++ "\n"

mutual

def writeStmt (n : Nat) (out : String) : Stmt → Sinking String
  | .instanceVariable visibility var label modifiers => do
    importValue var.reference
    let label := if style.preview then label else none
    let text := style.language.instanceVariable visibility var label modifiers
    importTypes text.imports
    return out ++ aboveLine n text.above ++ indentLines n text.line
  | .localVariable var isFinal => do
    importValue var.reference
    return out ++ indentLines n (style.language.localVariable var isFinal)
  | .act a => style.writeAction n out a
  | .ret value => do
    value.forM importValue
    return out ++ indentLines n (style.language.returnLine value)
  | .blank => return out ++ "\n"
  | .nested block at_ => do
    let text ← writeBlock (at_.getD n) block
    return withBlankLine out ++ text
  | .ifThen condition body => do
    importValue condition
    style.writeBody n out (style.language.ifHeader condition) (writeBlock (n + 1) body)
  | .whileLoop condition body => do
    importValue condition
    style.writeBody n out (style.language.whileHeader condition) (writeBlock (n + 1) body)
  | .forLoop var start limit step body => do
    importValue var.reference
    importValue start
    importValue limit
    step.forM importValue
    style.writeBody n out (style.language.forHeader var start limit step) (writeBlock (n + 1) body)
  | .foreach var iterable body => do
    importValue var.reference
    importValue iterable
    style.writeBody n out (style.language.foreachHeader var iterable) (writeBlock (n + 1) body)
  | .method signature body => do
    importType signature.returns
    importValues (signature.parameters.map Parameter.reference)
    let text := style.language.methodHeader signature
    style.writeBody n (withBlankLine out ++ aboveLine n text.above) text.line (writeBlock (n + 1) body)
  | .constructor visibility className parameters body => do
    importValues (parameters.map Parameter.reference)
    let header ← ofExcept (style.language.constructorHeader visibility className parameters)
    style.writeBody n (withBlankLine out) header (writeBlock (n + 1) body)
  | .cls signature body => do
    let header ← ofExcept (style.language.classHeader signature)
    signature.parent.forM importType
    importTypes signature.interfaces
    style.writeBody n (withBlankLine out) header (writeBlock (n + 1) body)

def writeBlock (n : Nat) : Block → Sinking String
  | .mk _ stmts => writeStmts n "" stmts

def writeStmts (n : Nat) (out : String) : List Stmt → Sinking String
  | [] => return out
  | s :: rest => do
    let out ← writeStmt n out s
    writeStmts n out rest

end

end RenderStyle

/-! ## Types and values -/

namespace Sinking

theorem importTypes_nil : importTypes [] = pure () := rfl

theorem importTypes_cons (t : Ty) (types : List Ty) :
    importTypes (t :: types) = importType t >>= fun _ => importTypes types := rfl

theorem importTypes_append (xs ys : List Ty) :
    importTypes (xs ++ ys) = importTypes xs >>= fun _ => importTypes ys :=
  List.forM_append

theorem importValues_eq (values : List Value) : importValues values = importTypes (values.flatMap Value.imports) := by
  induction values with
  | nil => rfl
  | cons v values ih =>
    rw [List.flatMap_cons, importTypes_append, ← ih]
    rfl

theorem forM_importValue (value : Option Value) :
    value.forM importValue = importTypes (value.toList.flatMap Value.imports) := by
  cases value with
  | none => rfl
  | some v => rw [Option.toList_some, List.flatMap_singleton]; rfl

theorem forM_importType (t : Option Ty) : t.forM importType = importTypes t.toList := by
  cases t with
  | none => rfl
  | some t => exact (bind_pure (importType t)).symm

end Sinking

namespace Rendered

open Sinking

variable {α β : Type}

def into (x : Rendered α) : Sinking α := ExceptT.mk fun imports => (x.result, imports.registerAll x.uses)

theorem into_pure (a : α) : (pure a : Rendered α).into = pure a := rfl

theorem into_bind (x : Rendered α) (f : α → Rendered β) : (x >>= f).into = x.into >>= fun a => (f a).into := by
  obtain ⟨uses, result⟩ := x
  cases result with
  | error e => rfl
  | ok a =>
    funext imports
    change (_, imports.registerAll (uses ++ (f a).uses)) = (_, (imports.registerAll uses).registerAll (f a).uses)
    rw [ImportScope.registerAll, List.foldl_append]
    rfl

theorem into_report (types : List Ty) : (report types).into = importTypes types := by
  induction types with
  | nil => rfl
  | cons t types ih =>
    change _ = importType t >>= fun _ => importTypes types
    rw [← ih]
    rfl

theorem into_ok (uses : List Ty) (a : α) :
    (⟨uses, .ok a⟩ : Rendered α).into = importTypes uses >>= fun _ => pure a := by
  rw [← into_report]
  rfl

theorem into_ofExcept (x : Except LanguageError α) : (ofExcept x).into = MonadExcept.ofExcept x := by
  cases x <;> rfl

end Rendered

namespace RenderStyle

open Sinking Rendered

variable (style : RenderStyle)

theorem writeAction_eq (n : Nat) (out : String) (a : Action) :
    style.writeAction n out a = (style.action n a).into >>= fun text => pure (out ++ text) := by
  cases a <;>
    simp only [writeAction, action, into_ok, bind_assoc, pure_bind, importTypes_nil, importTypes_cons,
      importTypes_append, importValues_eq, importValue]

def gap (s : Stmt) (out : String) : String := if s.isDeclarationBlock && lacksBlankLine out then "\n" else ""

theorem withBlankLine_eq {s : Stmt} (hs : s.isDeclarationBlock = true) (out : String) :
    withBlankLine out = out ++ gap s out := by
  unfold withBlankLine gap
  rw [hs, Bool.true_and]
  split
  · rfl
  · rw [String.append_empty]

theorem gap_of_not {s : Stmt} (hs : s.isDeclarationBlock = false) (out : String) : gap s out = "" := by
  simp [gap, hs]

mutual

theorem writeStmt_eq : ∀ (s : Stmt) (n : Nat) (out : String),
    style.writeStmt n out s = (style.stmt n s).into >>= fun text => pure (out ++ gap s out ++ text)
  | .instanceVariable visibility var label modifiers, n, out => by
    rw [writeStmt, stmt, gap_of_not rfl]
    simp only [into_bind, into_report, into_pure, importValue, importTypes_append, bind_assoc, pure_bind,
      String.append_assoc, String.append_empty]
  | .localVariable var isFinal, n, out => by
    rw [writeStmt, stmt, gap_of_not rfl]
    simp only [into_bind, into_report, into_pure, importValue, bind_assoc, pure_bind, String.append_empty]
  | .act a, n, out => by
    rw [writeStmt, stmt, gap_of_not rfl, writeAction_eq, String.append_empty]
  | .ret value, n, out => by
    rw [writeStmt, stmt, gap_of_not rfl]
    simp only [into_bind, into_report, into_pure, forM_importValue, bind_assoc, pure_bind, String.append_empty]
  | .blank, n, out => by
    rw [writeStmt, stmt, gap_of_not rfl, into_pure, pure_bind, String.append_empty]
  | .nested body at_, n, out => by
    rw [writeStmt, stmt, writeBlock_eq body, withBlankLine_eq (s := .nested body at_) rfl]
  | .ifThen condition body, n, out | .whileLoop condition body, n, out => by
    rw [writeStmt, stmt, writeBlock_eq body, gap_of_not rfl, header]
    simp only [writeBody, withBody, into_bind, into_report, into_pure, importValue, bind_assoc, pure_bind,
      String.append_assoc, String.empty_append]
  | .forLoop var start limit step body, n, out => by
    rw [writeStmt, stmt, writeBlock_eq body, gap_of_not rfl, header]
    simp only [writeBody, withBody, into_bind, into_report, into_pure, importValue, importTypes_append,
      forM_importValue, bind_assoc, pure_bind, String.append_assoc, String.empty_append]
  | .foreach var iterable body, n, out => by
    rw [writeStmt, stmt, writeBlock_eq body, gap_of_not rfl, header]
    simp only [writeBody, withBody, into_bind, into_report, into_pure, importValue, importTypes_append,
      bind_assoc, pure_bind, String.append_assoc, String.empty_append]
  | .method signature body, n, out => by
    rw [writeStmt, stmt, writeBlock_eq body, withBlankLine_eq (s := .method signature body) rfl, header]
    simp only [writeBody, withBody, into_bind, into_report, into_pure, importTypes_cons, importValues_eq,
      List.flatMap_map, bind_assoc, pure_bind, String.append_assoc]
  | .constructor visibility className parameters body, n, out => by
    rw [writeStmt, stmt, writeBlock_eq body,
      withBlankLine_eq (s := .constructor visibility className parameters body) rfl, header]
    simp only [writeBody, withBody, into_bind, into_report, into_pure, into_ofExcept, importValues_eq,
      List.flatMap_map, bind_assoc, pure_bind, String.append_assoc, String.empty_append]
  | .cls signature body, n, out => by
    rw [writeStmt, stmt, writeBlock_eq body, withBlankLine_eq (s := .cls signature body) rfl, header]
    simp only [writeBody, withBody, into_bind, into_report, into_pure, into_ofExcept, importTypes_append,
      forM_importType, bind_assoc, pure_bind, String.append_assoc, String.empty_append]

theorem writeBlock_eq : ∀ (b : Block) (n : Nat), style.writeBlock n b = (style.blockAt n b).into
  | .mk _ stmts, n => by
    rw [writeBlock, blockAt]
    exact writeStmts_eq stmts n ""

theorem writeStmts_eq : ∀ (stmts : List Stmt) (n : Nat) (out : String),
    style.writeStmts n out stmts = (style.stmtsFrom n out stmts).into
  | [], n, out => by
    rw [writeStmts, stmtsFrom]
    rfl
  | s :: rest, n, out => by
    rw [writeStmts, stmtsFrom, into_bind, writeStmt_eq s, bind_assoc]
    simp only [pure_bind, writeStmts_eq rest]
    rfl

end

/-! ## Indentation -/

open Rendered (Alike report_alike)

theorem header_alike_any (n m : Nat) (s : Stmt) : Alike (fun _ _ => True) (style.header n s) (style.header m s) := by
  cases s with
  | cls signature body =>
    refine (Alike.refl (R := fun _ _ => True) (fun _ => trivial) (.ofExcept _)).bind fun _ _ _ => ?_
    exact (report_alike _).bind fun _ _ _ => .pure trivial
  | constructor visibility className parameters body =>
    refine (report_alike _).bind fun _ _ _ => ?_
    exact (Alike.refl (R := fun _ _ => True) (fun _ => trivial) (.ofExcept _)).bind fun _ _ _ => .pure trivial
  | ifThen _ _ | whileLoop _ _ | forLoop _ _ _ _ _ | foreach _ _ _ | method _ _ =>
    exact (report_alike _).bind fun _ _ _ => .pure trivial
  | _ => exact .pure trivial

theorem withBody_alike_any (n m : Nat) (s : Stmt) {x y : Rendered String} (hbody : Alike (fun _ _ => True) x y) :
    Alike (fun _ _ => True)
      (style.header n s >>= fun head => x >>= fun text => pure (style.withBody n head text))
      (style.header m s >>= fun head => y >>= fun text => pure (style.withBody m head text)) :=
  (style.header_alike_any n m s).bind fun _ _ _ => hbody.bind fun _ _ _ => .pure trivial

mutual

theorem stmt_alike_any : ∀ (s : Stmt) (n m : Nat), Alike (fun _ _ => True) (style.stmt n s) (style.stmt m s)
  | .instanceVariable visibility var label modifiers, n, m => by
    rw [stmt, stmt]
    exact (report_alike _).bind fun _ _ _ => .pure trivial
  | .localVariable var isFinal, n, m => by
    rw [stmt, stmt]
    exact (report_alike _).bind fun _ _ _ => .pure trivial
  | .act a, n, m => by
    rw [stmt, stmt]
    cases a <;> exact .ok _ trivial
  | .ret value, n, m => by
    rw [stmt, stmt]
    exact (report_alike _).bind fun _ _ _ => .pure trivial
  | .blank, n, m => by
    rw [stmt, stmt]
    exact .pure trivial
  | .nested body at_, n, m => by
    rw [stmt, stmt]
    exact blockAt_alike_any body _ _
  | .ifThen _ body, n, m | .whileLoop _ body, n, m | .forLoop _ _ _ _ body, n, m | .foreach _ _ body, n, m
  | .method _ body, n, m | .constructor _ _ _ body, n, m | .cls _ body, n, m => by
    rw [stmt, stmt]
    exact style.withBody_alike_any n m _ (blockAt_alike_any body _ _)

theorem blockAt_alike_any : ∀ (b : Block) (n m : Nat),
    Alike (fun _ _ => True) (style.blockAt n b) (style.blockAt m b)
  | .mk _ stmts, n, m => by
    rw [blockAt, blockAt]
    exact stmtsFrom_alike_any stmts n m "" ""

theorem stmtsFrom_alike_any : ∀ (stmts : List Stmt) (n m : Nat) (out out' : String),
    Alike (fun _ _ => True) (style.stmtsFrom n out stmts) (style.stmtsFrom m out' stmts)
  | [], n, m, out, out' => by
    rw [stmtsFrom, stmtsFrom]
    exact .pure trivial
  | s :: rest, n, m, out, out' => by
    rw [stmtsFrom, stmtsFrom]
    exact (stmt_alike_any s n m).bind fun _ _ _ => stmtsFrom_alike_any rest n m _ _

end

theorem uses_blockAt (b : Block) (n m : Nat) : (style.blockAt n b).uses = (style.blockAt m b).uses := by
  generalize hx : style.blockAt n b = x, hy : style.blockAt m b = y
  cases hx ▸ hy ▸ style.blockAt_alike_any b n m <;> rfl

end RenderStyle

/-! ## Labels -/

mutual

def Stmt.unlabeled : Stmt → Stmt
  | .instanceVariable visibility var _ modifiers => .instanceVariable visibility var none modifiers
  | .nested body at_ => .nested body.unlabeled at_
  | .ifThen condition body => .ifThen condition body.unlabeled
  | .whileLoop condition body => .whileLoop condition body.unlabeled
  | .forLoop var start limit step body => .forLoop var start limit step body.unlabeled
  | .foreach var iterable body => .foreach var iterable body.unlabeled
  | .method signature body => .method signature body.unlabeled
  | .constructor visibility className parameters body => .constructor visibility className parameters body.unlabeled
  | .cls signature body => .cls signature body.unlabeled
  | .localVariable var isFinal => .localVariable var isFinal
  | .act a => .act a
  | .ret value => .ret value
  | .blank => .blank

def Block.unlabeled : Block → Block
  | .mk tabs stmts => .mk tabs (withoutLabels stmts)

def withoutLabels : List Stmt → List Stmt
  | [] => []
  | s :: rest => s.unlabeled :: withoutLabels rest

end

theorem Stmt.isDeclarationBlock_unlabeled (s : Stmt) : s.unlabeled.isDeclarationBlock = s.isDeclarationBlock := by
  cases s <;> simp only [Stmt.unlabeled] <;> rfl

namespace RenderStyle

variable (style : RenderStyle)

mutual

theorem stmt_unlabeled (hpreview : style.preview = false) : ∀ (s : Stmt) (n : Nat),
    style.stmt n s.unlabeled = style.stmt n s
  | .instanceVariable visibility var label modifiers, n => by
    rw [Stmt.unlabeled, stmt, stmt, hpreview]
    rfl
  | .localVariable _ _, n | .act _, n | .ret _, n | .blank, n => by rw [Stmt.unlabeled]
  | .nested body at_, n => by rw [Stmt.unlabeled, stmt, stmt, blockAt_unlabeled hpreview body]
  | .ifThen _ body, n | .whileLoop _ body, n | .forLoop _ _ _ _ body, n | .foreach _ _ body, n
  | .method _ body, n | .constructor _ _ _ body, n | .cls _ body, n => by
    -- the header does not look at the body
    rw [Stmt.unlabeled, stmt, stmt, blockAt_unlabeled hpreview body]
    rfl

theorem blockAt_unlabeled (hpreview : style.preview = false) : ∀ (b : Block) (n : Nat),
    style.blockAt n b.unlabeled = style.blockAt n b
  | .mk _ stmts, n => by
    rw [Block.unlabeled, blockAt, blockAt]
    exact stmtsFrom_unlabeled hpreview stmts n ""

theorem stmtsFrom_unlabeled (hpreview : style.preview = false) : ∀ (stmts : List Stmt) (n : Nat) (out : String),
    style.stmtsFrom n out (withoutLabels stmts) = style.stmtsFrom n out stmts
  | [], n, out => by rw [withoutLabels]
  | s :: rest, n, out => by
    rw [withoutLabels, stmtsFrom, stmtsFrom, stmt_unlabeled hpreview s n, s.isDeclarationBlock_unlabeled]
    exact congrArg _ (funext fun text => stmtsFrom_unlabeled hpreview rest n _)

end

/-! ## What a block writes and registers -/

/-- What a block writes does not depend on the import scope, which ends as its start with the types of one list
registered, for every start and indentation and also where writing fails. Without a preview both are the same for
blocks that differ in labels alone. -/
theorem writeBlock_registers (b : Block) :
    (∃ uses, ∀ n, ∃ result, style.blockAt n b = ⟨uses, result⟩ ∧
        ∀ imports, (style.writeBlock n b).sink imports = (result, imports.registerAll uses)) ∧
      (style.preview = false → ∀ b' : Block, b'.unlabeled = b.unlabeled →
        ∀ n, style.writeBlock n b' = style.writeBlock n b) := by
  constructor
  · refine ⟨(style.blockAt 0 b).uses, fun n => ⟨(style.blockAt n b).result, ?_, ?_⟩⟩
    · rw [style.uses_blockAt b 0 n]
    · intro imports
      rw [writeBlock_eq, style.uses_blockAt b 0 n]
      rfl
  · intro hpreview b' hlabels n
    have hrendered : style.blockAt n b' = style.blockAt n b := by
      rw [← style.blockAt_unlabeled hpreview b', hlabels, style.blockAt_unlabeled hpreview b]
    rw [writeBlock_eq, writeBlock_eq, hrendered]

def labelled (label : Option String) : Block :=
  .mk 0 [.cls ⟨.isPublic, "Tuner", none, [], {}⟩
    (.mk 1 [.instanceVariable .isPrivate ⟨"blur", .new Catalog.int "3"⟩ label {}])]

theorem writeBlock_labelled : (labelled (some "Blur")).unlabeled = (labelled none).unlabeled ∧
    (⟨.java, false⟩ : RenderStyle).writeBlock 0 (labelled (some "Blur")) =
      (⟨.java, false⟩ : RenderStyle).writeBlock 0 (labelled none) :=
  have hlabels : (labelled (some "Blur")).unlabeled = (labelled none).unlabeled := rfl
  ⟨hlabels, (writeBlock_registers ⟨.java, false⟩ (labelled none)).2 rfl _ hlabels 0⟩

end RenderStyle

end Pipewright
