import Pipewright.Program
import Pipewright.Proofs.Segments

/-!
# What a program starts with

Statements are rendered one behind the other, so the text of the first ones
stands at the start. Every program opens with its import marker, which is thus
the first line of its text, in every language.
-/

namespace Pipewright

namespace Rendered

variable {α β : Type}

theorem result_bind (x : Rendered α) (f : α → Rendered β) :
    (x >>= f).result = x.result.bind fun a => (f a).result := by
  change (x.andThen f).result = _
  unfold andThen
  cases x.result <;> rfl

theorem bind_ok {x : Rendered α} {f : α → Rendered β} {b : β} :
    (x >>= f).result = .ok b ↔ ∃ a, x.result = .ok a ∧ (f a).result = .ok b := by
  rw [result_bind]
  cases x.result <;> simp [Except.bind]

theorem pure_ok {a b : α} : (pure a : Rendered α).result = .ok b ↔ a = b := by
  change Except.ok a = .ok b ↔ a = b
  simp

end Rendered

/-! ## Lines -/

theorem linesFrom_of_not_mem {cs : List Char} (h : '\n' ∉ cs) : ∀ run : List Char, run ≠ [] ∨ cs ≠ [] →
    linesFrom run cs = [run.reverse ++ cs] := by
  induction cs with
  | nil =>
    intro run hne
    cases run with
    | nil => exact absurd hne (by simp)
    | cons c run => simp [linesFrom]
  | cons c cs ih =>
    intro run _
    rw [List.mem_cons, not_or] at h
    have hc : c ≠ '\n' := Ne.symm h.1
    have hstep : linesFrom run (c :: cs) = linesFrom (c :: run) cs := by
      cases run <;> simp [linesFrom, hc]
    rw [hstep, ih h.2 (c :: run) (.inl (by simp))]
    simp

theorem indentLines_zero {text : String} (h : '\n' ∉ text.toList) (hne : text ≠ "") :
    indentLines 0 text = text ++ "\n" := by
  have hchars : text.toList ≠ [] := fun he => hne (String.toList_injective (by rw [he]; rfl))
  unfold indentLines lines
  rw [linesFrom_of_not_mem h [] (.inr hchars)]
  simp [hne, tabs]

theorem Marker.newline_not_mem_text (id : Nat) : '\n' ∉ (text id).toList := by
  intro h
  simp only [text, String.toList_ofList, List.mem_append] at h
  rcases h with (h | h) | h
  · exact absurd h (by decide)
  · exact absurd (isDigit_of_mem h) (by decide)
  · exact absurd h (by decide)

/-! ## Blocks -/

namespace RenderStyle

variable (style : RenderStyle)

theorem stmtsFrom_starts (indent : Nat) : ∀ (stmts : List Stmt) (out text : String),
    (style.stmtsFrom indent out stmts).result = .ok text → ∃ rest, text = out ++ rest
  | [], out, text, h => by
    rw [stmtsFrom, Rendered.pure_ok] at h
    exact ⟨"", by rw [← h, String.append_empty]⟩
  | s :: stmts, out, text, h => by
    rw [stmtsFrom, Rendered.bind_ok] at h
    obtain ⟨first, -, h⟩ := h
    obtain ⟨rest, rfl⟩ := stmtsFrom_starts indent stmts _ text h
    exact ⟨_, by rw [String.append_assoc, String.append_assoc]⟩

end RenderStyle

/-! ## Scopes -/

structure Scope.Continues (s t : Scope) : Prop where
  tabs : t.tabs = s.tabs
  stmts : s.stmts <+: t.stmts

namespace Scope.Continues

variable {s t u : Scope}

theorem refl (s : Scope) : Continues s s := ⟨rfl, List.prefix_refl _⟩

theorem trans (h : Continues s t) (h' : Continues t u) : Continues s u :=
  ⟨h'.tabs.trans h.tabs, h.stmts.trans h'.stmts⟩

theorem push (h : Continues s t) (stmt : Stmt) : Continues s (t.push stmt) :=
  h.trans ⟨rfl, List.prefix_append _ _⟩

theorem nest (h : Continues s t) (b : Block) (indent : Option Nat) : Continues s (t.nest b indent) := h.push _

theorem separate (h : Continues s t) : Continues s t.separate := by
  unfold Scope.separate
  split
  · exact h
  · exact h
  · exact h.push _

end Scope.Continues

namespace Program

variable (p : Program)

theorem opening_continues (l : Language) : Scope.Continues p.opening (p.scope l) := by
  have hpart : ∀ (s : Scope) (b : Block), Scope.Continues p.opening s →
      Scope.Continues p.opening (if b.isEmpty then s else (s.nest b (some 0)).separate) := by
    intro s b h
    split
    · exact h
    · exact (h.nest b _).separate
  have hstart := Scope.Continues.refl p.opening
  cases l with
  | python =>
    unfold scope
    simp only
    split
    · exact (hpart _ _ (hpart _ _ hstart)).push _
    · exact ((hpart _ _ (hpart _ _ hstart)).push _).nest _ _
  | java => exact hstart.push _
  | kotlin => exact hstart.push _
  | lua => exact hstart.nest _ _

/-- The first line of a program is its import marker. -/
theorem assemble_starts {l : Language} {id : Nat} (hid : p.importMarker = Marker.text id) {text : String}
    (h : (p.assemble l).result = .ok text) : ∃ rest, text = Marker.text id ++ "\n" ++ rest := by
  obtain ⟨htabs, stmts, hstmts⟩ := p.opening_continues l
  have hline : indentLines 0 (Marker.text id) = Marker.text id ++ "\n" :=
    indentLines_zero (Marker.newline_not_mem_text id) fun he => by
      have := congrArg (List.length ∘ String.toList) he
      simp [Marker.text, Marker.opening] at this
  have hopen : p.opening.stmts = [.act (.raw (Marker.text id)), .blank] := by rw [← hid]; rfl
  have hblock : (p.scope l).toBlock = .mk 0 (.act (.raw (Marker.text id)) :: .blank :: stmts) := by
    rw [Scope.toBlock, htabs, ← hstmts, hopen]; rfl
  rw [assemble, hblock, RenderStyle.block, RenderStyle.blockAt, RenderStyle.stmtsFrom, Rendered.bind_ok] at h
  obtain ⟨first, hfirst, h⟩ := h
  have hraw : first = Marker.text id ++ "\n" := by
    rw [RenderStyle.stmt] at hfirst
    exact (Except.ok.inj hfirst).symm.trans hline
  obtain ⟨rest, hrest⟩ := RenderStyle.stmtsFrom_starts _ _ _ _ _ h
  refine ⟨rest, ?_⟩
  rw [hrest, hraw]
  simp [Stmt.isDeclarationBlock]

end Program

end Pipewright
