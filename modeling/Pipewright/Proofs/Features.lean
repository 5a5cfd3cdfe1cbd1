import Pipewright.Render

/-!
# Features that a block needs

Rendering fails on statements that need a feature which the language lacks, and
on nothing else. A statement is rendered in front of its body, and bodies one
behind the other, so the first of them in this order decides the error
(`RenderStyle.blockAt_fails`).
-/

namespace Pipewright

/-! ## Document order -/

mutual

/-- A statement and all in its body, each in front of its own body. -/
def Stmt.preorder : Stmt → List Stmt
  | s@(.nested body _) | s@(.ifThen _ body) | s@(.whileLoop _ body) | s@(.forLoop _ _ _ _ body)
  | s@(.foreach _ _ body) | s@(.method _ body) | s@(.constructor _ _ _ body) | s@(.cls _ body) => s :: body.preorder
  | s => [s]

def Block.preorder : Block → List Stmt
  | .mk _ stmts => preorders stmts

def preorders : List Stmt → List Stmt
  | [] => []
  | s :: rest => s.preorder ++ preorders rest

end

/-- The feature that a statement needs and a language lacks. What stands in its body does not count. -/
def Language.lacks? (l : Language) : Stmt → Option Feature
  | .cls _ _ => if l.supports .classes then none else some .classes
  | .constructor _ _ _ _ => if l.supports .constructors then none else some .constructors
  | _ => none

/-! ## Failures -/

namespace Rendered

variable {α β : Type}

def failure? (x : Rendered α) : Option LanguageError :=
  match x.result with
  | .error e => some e
  | .ok _ => none

theorem failure?_eq_some_iff {x : Rendered α} {e : LanguageError} : x.failure? = some e ↔ x.result = .error e := by
  unfold failure?
  cases x.result <;> simp

@[simp] theorem failure?_pure (a : α) : (pure a : Rendered α).failure? = none := rfl

@[simp] theorem failure?_report (types : List Ty) : (report types).failure? = none := rfl

/-- Where the second step fails in the same way after any result of the first, the earlier failure decides. -/
theorem failure?_bind {x : Rendered α} {f : α → Rendered β} {o : Option LanguageError}
    (hf : ∀ a, (f a).failure? = o) : (x >>= f).failure? = x.failure?.or o := by
  change (x.andThen f).failure? = _
  obtain ⟨uses, result⟩ := x
  cases result with
  | error e => rfl
  | ok a => exact hf a

end Rendered

namespace RenderStyle

open Rendered (failure?_bind failure?_pure failure?_report)

variable (style : RenderStyle)

def firstFailure? (stmts : List Stmt) : Option LanguageError :=
  (stmts.findSome? style.language.lacks?).map (.unsupported style.language)

theorem firstFailure?_append (xs ys : List Stmt) :
    style.firstFailure? (xs ++ ys) = (style.firstFailure? xs).or (style.firstFailure? ys) := by
  unfold firstFailure?
  rw [List.findSome?_append, Option.map_or]

theorem firstFailure?_cons (s : Stmt) (ys : List Stmt) :
    style.firstFailure? (s :: ys) = (style.firstFailure? [s]).or (style.firstFailure? ys) :=
  style.firstFailure?_append [s] ys

theorem failure?_header (n : Nat) (s : Stmt) : (style.header n s).failure? = style.firstFailure? [s] := by
  obtain ⟨l, preview⟩ := style
  cases s with
  | constructor visibility className parameters body => cases l <;> rfl
  | cls signature body => cases l <;> rfl
  | _ => rfl

/-- A statement with a header fails on the header, else on its body. -/
theorem failure?_withBody (n : Nat) (s : Stmt) (x : Rendered String) :
    (style.header n s >>= fun head => x >>= fun text => pure (style.withBody n head text)).failure? =
      (style.firstFailure? [s]).or x.failure? := by
  rw [← style.failure?_header n s]
  refine failure?_bind fun head => ?_
  rw [failure?_bind (o := none) fun text => failure?_pure _, Option.or_none]

mutual

theorem failure?_stmt : ∀ (s : Stmt) (n : Nat), (style.stmt n s).failure? = style.firstFailure? s.preorder
  | .instanceVariable visibility var label modifiers, n => by
    rw [stmt]
    exact failure?_bind fun _ => failure?_pure _
  | .localVariable var isFinal, n => by
    rw [stmt]
    exact failure?_bind fun _ => failure?_pure _
  | .act a, n => by
    rw [stmt]
    cases a <;> rfl
  | .ret value, n => by
    rw [stmt]
    exact failure?_bind fun _ => failure?_pure _
  | .blank, n => by
    rw [stmt]
    rfl
  | .nested body at_, n => by
    rw [stmt, Stmt.preorder, firstFailure?_cons]
    exact failure?_blockAt body _
  | .ifThen _ body, n | .whileLoop _ body, n | .forLoop _ _ _ _ body, n | .foreach _ _ body, n
  | .method _ body, n | .constructor _ _ _ body, n | .cls _ body, n => by
    rw [stmt, Stmt.preorder, firstFailure?_cons, failure?_withBody, failure?_blockAt body (n + 1)]

theorem failure?_blockAt : ∀ (b : Block) (n : Nat), (style.blockAt n b).failure? = style.firstFailure? b.preorder
  | .mk _ stmts, n => by
    rw [blockAt, Block.preorder]
    exact failure?_stmtsFrom stmts n ""

theorem failure?_stmtsFrom : ∀ (stmts : List Stmt) (n : Nat) (out : String),
    (style.stmtsFrom n out stmts).failure? = style.firstFailure? (preorders stmts)
  | [], n, out => by
    rw [stmtsFrom, preorders]
    rfl
  | s :: rest, n, out => by
    rw [stmtsFrom, preorders, firstFailure?_append, ← failure?_stmt s n]
    exact failure?_bind fun text => failure?_stmtsFrom rest n _

end

/-- A block fails to render just when a statement in it lacks a feature, and then with the first such feature in
document order. -/
theorem blockAt_fails (n : Nat) (b : Block) :
    ((∃ e, (style.blockAt n b).result = .error e) ↔ ∃ s ∈ b.preorder, (style.language.lacks? s).isSome) ∧
      ∀ e, (style.blockAt n b).result = .error e ↔
        ∃ front s behind feature, b.preorder = front ++ s :: behind ∧
          (∀ t ∈ front, style.language.lacks? t = none) ∧ style.language.lacks? s = some feature ∧
            e = .unsupported style.language feature := by
  have hfails : ∀ e, (style.blockAt n b).result = .error e ↔ ∃ feature,
      b.preorder.findSome? style.language.lacks? = some feature ∧ e = .unsupported style.language feature := by
    intro e
    rw [← Rendered.failure?_eq_some_iff, failure?_blockAt, firstFailure?, Option.map_eq_some_iff]
    simp only [eq_comm]
  constructor
  · simp only [hfails]
    rw [← List.findSome?_isSome_iff, Option.isSome_iff_exists]
    constructor
    · rintro ⟨-, feature, hfeature, -⟩
      exact ⟨feature, hfeature⟩
    · rintro ⟨feature, hfeature⟩
      exact ⟨_, feature, hfeature, rfl⟩
  · intro e
    simp only [hfails, List.findSome?_eq_some_iff]
    constructor
    · rintro ⟨feature, ⟨front, s, behind, horder, hs, hfront⟩, he⟩
      exact ⟨front, s, behind, feature, horder, hfront, hs, he⟩
    · rintro ⟨front, s, behind, feature, horder, hfront, hs, he⟩
      exact ⟨feature, ⟨front, s, behind, horder, hs, hfront⟩, he⟩

example :
    let inner := Stmt.constructor .isPublic "Target" [] (.mk 2 [])
    let outer := Stmt.cls ⟨.isPublic, "Target", none, [], {}⟩ (.mk 2 [inner])
    ((⟨.lua, false⟩ : RenderStyle).blockAt 0 (.mk 0 [.blank, .ifThen (.raw "ready") (.mk 1 [outer]), inner])).result =
      .error (.unsupported .lua .classes) := by
  rfl

end RenderStyle

end Pipewright
