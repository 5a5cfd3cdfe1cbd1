import Pipewright.ImportScope
import Pipewright.Language.Line
import Pipewright.Scope.Stmt

/-!
# Rendering

The text of statements in a language, one per line behind tabs, and the types
that the text uses. Both depend on the statements alone; the types are reported
in order, also those before a construct that the language lacks.
-/

namespace Pipewright

/-- A result together with the types used on the way to it. -/
structure Rendered (α : Type) where
  uses : List Ty
  result : Except LanguageError α

namespace Rendered

variable {α β : Type}

def done (a : α) : Rendered α := ⟨[], .ok a⟩

def andThen (x : Rendered α) (f : α → Rendered β) : Rendered β :=
  match x.result with
  | .error e => ⟨x.uses, .error e⟩
  | .ok a =>
    let ⟨uses, result⟩ := f a
    ⟨x.uses ++ uses, result⟩

instance : Monad Rendered where
  pure := done
  bind := andThen

def report (types : List Ty) : Rendered Unit := ⟨types, .ok ()⟩

def ofExcept (x : Except LanguageError α) : Rendered α := ⟨[], x⟩

end Rendered

def lacksBlankLine (text : String) : Bool :=
  !text.isEmpty && !(['\n', '\n'].isSuffixOf text.toList)

structure RenderStyle where
  language : Language
  preview : Bool

namespace RenderStyle

variable (style : RenderStyle)

def action (indent : Nat) (a : Action) : Rendered String :=
  let l := style.language
  let text := indentLines indent
  match a with
  | .assign target value => ⟨value.imports, .ok (text (l.assignment target value))⟩
  | .setElement target index value =>
    ⟨index.imports ++ value.imports, .ok (text (l.elementAssignment target index value))⟩
  | .assignInstance target value => ⟨value.imports, .ok (text (l.instanceAssignment target value))⟩
  | .staticCall cls method args => ⟨cls :: args.flatMap Value.imports, .ok (text (l.staticCall cls method args))⟩
  | .methodCall callee method args =>
    ⟨callee.imports ++ args.flatMap Value.imports, .ok (text (l.methodCall callee method args))⟩
  | .call method args => ⟨args.flatMap Value.imports, .ok (text (l.call method args))⟩
  | .enumeration name values => ⟨[], .ok (text (l.enumeration name values))⟩
  | .comment t => ⟨[], .ok (text (l.comment t))⟩
  | .raw t => ⟨[], .ok (text t)⟩

def aboveLine (indent : Nat) : Option String → String
  | none => ""
  | some text => if text.isEmpty then "" else indentLines indent text

def header (indent : Nat) : Stmt → Rendered (String × String)
  | .ifThen condition _ => do
    .report condition.imports
    return ("", style.language.ifHeader condition)
  | .whileLoop condition _ => do
    .report condition.imports
    return ("", style.language.whileHeader condition)
  | .forLoop var start limit step _ => do
    .report (var.reference.imports ++ start.imports ++ limit.imports ++ step.toList.flatMap Value.imports)
    return ("", style.language.forHeader var start limit step)
  | .foreach var iterable _ => do
    .report (var.reference.imports ++ iterable.imports)
    return ("", style.language.foreachHeader var iterable)
  | .method signature _ => do
    .report (signature.returns :: signature.parameters.flatMap (·.reference.imports))
    let text := style.language.methodHeader signature
    return (aboveLine indent text.above, text.line)
  | .constructor visibility className parameters _ => do
    .report (parameters.flatMap (·.reference.imports))
    let text ← .ofExcept (style.language.constructorHeader visibility className parameters)
    return ("", text)
  | .cls signature _ => do
    let text ← .ofExcept (style.language.classHeader signature)
    .report (signature.parent.toList ++ signature.interfaces)
    return ("", text)
  | _ => return ("", "")

def withBody (indent : Nat) (head : String × String) (body : String) : String :=
  head.1 ++ style.language.block head.2 body indent ++ "\n"

mutual

def stmt (indent : Nat) : Stmt → Rendered String
  | .instanceVariable visibility var label modifiers => do
    let label := if style.preview then label else none
    let text := style.language.instanceVariable visibility var label modifiers
    .report (var.reference.imports ++ text.imports)
    return aboveLine indent text.above ++ indentLines indent text.line
  | .localVariable var isFinal => do
    .report var.reference.imports
    return indentLines indent (style.language.localVariable var isFinal)
  | .act a => style.action indent a
  | .ret value => do
    .report (value.toList.flatMap Value.imports)
    return indentLines indent (style.language.returnLine value)
  | .blank => return "\n"
  | .nested block at_ => blockAt (at_.getD indent) block
  | s@(.ifThen _ body) | s@(.whileLoop _ body) | s@(.forLoop _ _ _ _ body) | s@(.foreach _ _ body)
  | s@(.method _ body) | s@(.constructor _ _ _ body) | s@(.cls _ body) => do
    let head ← style.header indent s
    let text ← blockAt (indent + 1) body
    return style.withBody indent head text

def blockAt (indent : Nat) : Block → Rendered String
  | .mk _ stmts => stmtsFrom indent "" stmts

def stmtsFrom (indent : Nat) (out : String) : List Stmt → Rendered String
  | [] => return out
  | s :: rest => do
    let text ← stmt indent s
    let gap := if s.isDeclarationBlock && lacksBlankLine out then "\n" else ""
    stmtsFrom indent (out ++ gap ++ text) rest

end

def block (b : Block) : Rendered String := style.blockAt b.tabs b

end RenderStyle

end Pipewright
