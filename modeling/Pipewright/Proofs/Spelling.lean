import Pipewright.Proofs.Features
import Pipewright.Proofs.Gaps
import Pipewright.Proofs.Indentation

/-!
# What statements spell

A statement spells one or two texts of its own beside those of its body. Indented,
trimmed and put into blocks, they may lose white space, of which no marker has
any: each marker that some statement spells is found in the rendering of the
block around it, at any depth (`RenderStyle.markerIds_blockAt`).
-/

namespace Pipewright

/-! ## The texts of a statement -/

def Language.actionText (l : Language) : Action → String
  | .assign target value => l.assignment target value
  | .setElement target index value => l.elementAssignment target index value
  | .assignInstance target value => l.instanceAssignment target value
  | .staticCall cls method args => l.staticCall cls method args
  | .methodCall callee method args => l.methodCall callee method args
  | .call method args => l.call method args
  | .enumeration name values => l.enumeration name values
  | .comment text => l.comment text
  | .raw text => text

def RenderStyle.spelled (style : RenderStyle) : Stmt → List String
  | .instanceVariable visibility var label modifiers =>
    let label := if style.preview then label else none
    let text := style.language.instanceVariable visibility var label modifiers
    text.above.toList ++ [text.line]
  | .localVariable var isFinal => [style.language.localVariable var isFinal]
  | .act a => [style.language.actionText a]
  | .ret value => [style.language.returnLine value]
  | .ifThen condition _ => [style.language.ifHeader condition]
  | .whileLoop condition _ => [style.language.whileHeader condition]
  | .forLoop var start limit step _ => [style.language.forHeader var start limit step]
  | .foreach var iterable _ => [style.language.foreachHeader var iterable]
  | .method signature _ =>
    let text := style.language.methodHeader signature
    text.above.toList ++ [text.line]
  | .constructor visibility className parameters _ =>
    (style.language.constructorHeader visibility className parameters).toOption.toList
  | .cls signature _ => (style.language.classHeader signature).toOption.toList
  | .blank | .nested _ _ => []

/-! ## White space -/

theorem Marker.foreign_of_isBlank {c : Char} (h : isBlank c = true) : Foreign c := by
  have hmarks : (opening ++ closing).all (fun d => !isBlank d) = true := by decide
  refine ⟨fun hc => ?_, ?_⟩
  · simpa [h] using List.all_eq_true.mp hmarks c hc
  · by_contra hdigit
    have hbounds : 48 ≤ c.toNat ∧ c.toNat ≤ 57 := by
      simp only [Char.isDigit, Bool.and_eq_true, decide_eq_true_eq, Bool.not_eq_false] at hdigit
      exact ⟨UInt32.le_iff_toNat_le.mp hdigit.1, UInt32.le_iff_toNat_le.mp hdigit.2⟩
    simp only [isBlank, Bool.or_eq_true, Bool.and_eq_true, decide_eq_true_eq, beq_iff_eq] at h
    omega

theorem Marker.Spells.not_isBlank {raw : String} {id : Nat} (h : Spells raw id) :
    ∀ c ∈ raw.toList, isBlank c = false := by
  intro c hc
  by_contra hblank
  exact h.not_mem (foreign_of_isBlank (by simpa using hblank)) hc

section
variable {p : Char → Bool} {word : List Char} (hne : word ≠ []) (hp : ∀ c ∈ word, p c = false)
include hne hp

theorem infix_dropWhile {cs : List Char} (h : word <:+: cs) : word <:+: cs.dropWhile p := by
  induction cs with
  | nil => exact h
  | cons c cs ih =>
    by_cases hc : p c
    · rw [List.dropWhile_cons_of_pos hc]
      rcases List.infix_cons_iff.mp h with hstart | h
      · -- the word cannot start with a character that is dropped
        cases word with
        | nil => exact absurd rfl hne
        | cons w word =>
          have hw := hp w (List.mem_cons_self ..)
          rw [(List.cons_prefix_cons.mp hstart).1, hc] at hw
          cases hw
      · exact ih h
    · rwa [List.dropWhile_cons_of_neg hc]

theorem infix_dropTail {cs : List Char} (h : word <:+: cs) : word <:+: dropTail p cs := by
  rw [dropTail, ← List.reverse_infix, List.reverse_reverse]
  exact infix_dropWhile (by simpa using hne) (by simpa using hp) (List.reverse_infix.mpr h)

end

theorem infix_linesFrom {word : List Char} (hne : word ≠ []) (hn : '\n' ∉ word) (hr : '\r' ∉ word) {run cs : List Char}
    (h : word <:+: run.reverse ++ cs) : ∃ line ∈ linesFrom run cs, word <:+: line := by
  fun_induction linesFrom run cs with
  | case1 => exact absurd (by simpa using h) hne
  | case2 run _ => exact ⟨run.reverse, List.mem_singleton.mpr rfl, by simpa using h⟩
  | case3 run rest ih =>
    rw [infix_gap_iff hn, List.reverse_cons, infix_gap_iff hr] at h
    rcases h with (h | h) | h
    · exact ⟨run.reverse, List.mem_cons_self .., h⟩
    · exact absurd (List.infix_nil.mp h) hne
    · obtain ⟨line, hline, h⟩ := ih (by simpa using h)
      exact ⟨line, List.mem_cons_of_mem _ hline, h⟩
  | case4 run rest _ ih =>
    rw [infix_gap_iff hn] at h
    rcases h with h | h
    · exact ⟨run.reverse, List.mem_cons_self .., h⟩
    · obtain ⟨line, hline, h⟩ := ih (by simpa using h)
      exact ⟨line, List.mem_cons_of_mem _ hline, h⟩
  | case5 run c rest _ _ ih => exact ih (by simpa using h)

/-! ## Lines and blocks -/

theorem markerIds_of_isBlankText {text : String} (h : isBlankText text = true) : markerIds text = [] := by
  refine List.eq_nil_iff_forall_not_mem.mpr fun id hid => ?_
  obtain ⟨raw, hspells, hraw⟩ := mem_markerIds_iff.mp hid
  obtain ⟨body, hbody, -⟩ := hspells.exists_body
  have hopen : '<' ∈ raw.toList := by simp [hbody]
  have hblank := List.all_eq_true.mp h '<' (hraw.subset hopen)
  cases hblank

theorem infix_append (front part behind : String) : part.toList <:+: (front ++ part ++ behind).toList := by
  rw [String.toList_append, String.toList_append]
  exact List.infix_append _ _ _

theorem markerIds_subset_append_left (a b : String) : markerIds a ⊆ markerIds (a ++ b) := fun _ =>
  mem_markerIds_mono (by rw [String.toList_append]; exact (List.prefix_append _ _).isInfix)

theorem markerIds_subset_append_right (a b : String) : markerIds b ⊆ markerIds (a ++ b) := fun _ =>
  mem_markerIds_mono (by rw [String.toList_append]; exact (List.suffix_append _ _).isInfix)

theorem markerIds_subset_of_kept {a b : String} (h : ∀ word : List Char, word ≠ [] → (∀ c ∈ word, isBlank c = false) →
    word <:+: a.toList → word <:+: b.toList) : markerIds a ⊆ markerIds b := by
  intro id hid
  obtain ⟨raw, hspells, hraw⟩ := mem_markerIds_iff.mp hid
  obtain ⟨body, hbody, -⟩ := hspells.exists_body
  exact mem_markerIds_iff.mpr ⟨raw, hspells, h _ (by simp [hbody]) hspells.not_isBlank hraw⟩

theorem markerIds_trim (text : String) : markerIds text ⊆ markerIds (trim text) := by
  refine markerIds_subset_of_kept fun word hne hword h => ?_
  rw [trim, String.toList_ofList]
  exact infix_dropTail hne hword (infix_dropWhile hne hword h)

theorem Language.markerIds_withoutTail (text : String) : markerIds text ⊆ markerIds (withoutTail text) := by
  refine markerIds_subset_of_kept fun word hne hword h => ?_
  rw [withoutTail, String.toList_ofList]
  refine infix_dropTail hne (fun c hc => ?_) h
  by_contra hnewline
  obtain rfl : c = '\n' := by simpa using hnewline
  cases hword _ hc

theorem markerIds_indentLines (n : Nat) (text : String) : markerIds text ⊆ markerIds (indentLines n text) := by
  refine markerIds_subset_of_kept fun word hne hword h => ?_
  have hnot : ∀ c, isBlank c = true → c ∉ word := fun c hc hmem => by
    rw [hword c hmem] at hc
    cases hc
  have hstart : word <:+: ([] : List Char).reverse ++ text.toList := h
  obtain ⟨cs, hcs, h⟩ := infix_linesFrom hne (hnot _ rfl) (hnot _ rfl) hstart
  have hline : String.ofList cs ∈ lines text := List.mem_map_of_mem hcs
  obtain ⟨front, behind, hlines⟩ := List.append_of_mem hline
  have hfilled : (String.ofList cs).isEmpty = false := by
    rw [isEmpty_eq, String.toList_ofList, List.isEmpty_eq_false_iff]
    rintro rfl
    exact hne (List.infix_nil.mp h)
  unfold indentLines
  rw [hlines, List.map_append, List.map_cons, String.join_append, String.join_cons, hfilled, ← String.append_assoc]
  refine (String.toList_ofList (l := cs) ▸ h).trans ?_
  exact (infix_append _ _ _).trans (infix_append _ _ _)

theorem markerIds_aboveLine (n : Nat) (text : String) :
    markerIds text ⊆ markerIds (RenderStyle.aboveLine n (some text)) := by
  unfold RenderStyle.aboveLine
  by_cases hempty : text.isEmpty
  · rw [String.isEmpty_iff.mp hempty]
    exact List.Subset.refl _
  · simp only [hempty, Bool.false_eq_true, if_false]
    exact markerIds_indentLines n text

namespace Language

/-- What stands for a body in its block. Where blocks have no delimiter an empty body is spelled out. -/
def bodyText (l : Language) (body : String) : String :=
  if l = python ∧ isBlankText body then "pass" else withoutTail body

theorem exists_tail (text : String) : ∃ tail, text = withoutTail text ++ tail := by
  obtain ⟨tail, htail⟩ := List.reverse_suffix.mp
    (show (dropTail (· == '\n') text.toList).reverse <:+ text.toList.reverse by
      rw [dropTail, List.reverse_reverse]
      exact List.dropWhile_suffix _)
  refine ⟨String.ofList tail, String.toList_injective ?_⟩
  rw [withoutTail, String.toList_append, String.toList_ofList, String.toList_ofList, htail]

theorem block_parts (l : Language) (header body : String) (n : Nat) :
    ∃ middle behind, l.block header body n = tabs n ++ trim header ++ middle ++ l.bodyText body ++ behind := by
  obtain ⟨tail, htail⟩ := exists_tail body
  cases l with
  | python =>
    simp only [block, bodyText, true_and]
    split
    · exact ⟨":\n" ++ tabs n ++ "\t", "", by simp [String.append_assoc]⟩
    · exact ⟨":\n", "", by simp [String.append_assoc]⟩
  | java | kotlin =>
    simp only [block, bodyText, reduceCtorEq, false_and, if_false]
    generalize withoutTail body = text at htail
    subst htail
    exact ⟨" \x7b\n", tail ++ (tabs n ++ "\x7d"), by simp only [String.append_assoc]⟩
  | lua =>
    simp only [block, bodyText, reduceCtorEq, false_and, if_false]
    generalize withoutTail body = text at htail
    subst htail
    exact ⟨"\n", tail ++ (tabs n ++ "end"), by simp only [String.append_assoc]⟩

theorem markerIds_bodyText (l : Language) (body : String) : markerIds body ⊆ markerIds (l.bodyText body) := by
  unfold bodyText
  split
  · rename_i hblank
    rw [markerIds_of_isBlankText hblank.2]
    exact List.nil_subset _
  · exact markerIds_withoutTail body

theorem markerIds_block (l : Language) (header body : String) (n : Nat) :
    markerIds header ⊆ markerIds (l.block header body n) ∧ markerIds body ⊆ markerIds (l.block header body n) := by
  obtain ⟨middle, behind, hblock⟩ := l.block_parts header body n
  rw [hblock]
  constructor
  · refine List.Subset.trans (markerIds_trim header) (List.Subset.trans (markerIds_subset_append_right (tabs n) _) ?_)
    simp only [String.append_assoc]
    rw [← String.append_assoc]
    exact markerIds_subset_append_left _ _
  · refine List.Subset.trans (l.markerIds_bodyText body) (List.Subset.trans ?_ (markerIds_subset_append_left _ _))
    exact markerIds_subset_append_right _ _

end Language

/-! ## Statements -/

namespace RenderStyle

variable (style : RenderStyle)

theorem result_action (n : Nat) (a : Action) :
    (style.action n a).result = .ok (indentLines n (style.language.actionText a)) := by
  cases a <;> rfl

/-- What a statement spells in front of its body. -/
theorem markerIds_header {s : Stmt} (hs : s.body?.isSome) {n : Nat} {head : String × String}
    (h : (style.header n s).result = .ok head) :
    ∀ own ∈ style.spelled s, markerIds own ⊆ markerIds head.1 ∨ markerIds own ⊆ markerIds head.2 := by
  intro own hown
  cases s with
  | method signature body =>
    obtain rfl := Except.ok.inj h
    rcases List.mem_append.mp hown with hown | hown
    · rw [Option.mem_toList] at hown
      rw [hown]
      exact .inl (markerIds_aboveLine n own)
    · obtain rfl := List.mem_singleton.mp hown
      exact .inr (List.Subset.refl _)
  | constructor visibility className parameters body =>
    rw [header, Rendered.bind_ok] at h
    obtain ⟨-, -, h⟩ := h
    rw [Rendered.bind_ok] at h
    obtain ⟨text, htext, h⟩ := h
    obtain rfl := Rendered.pure_ok.mp h
    rw [spelled, show style.language.constructorHeader visibility className parameters = .ok text from htext] at hown
    obtain rfl := List.mem_singleton.mp hown
    exact .inr (List.Subset.refl _)
  | cls signature body =>
    rw [header, Rendered.bind_ok] at h
    obtain ⟨text, htext, h⟩ := h
    rw [Rendered.bind_ok] at h
    obtain ⟨-, -, h⟩ := h
    obtain rfl := Rendered.pure_ok.mp h
    rw [spelled, show style.language.classHeader signature = .ok text from htext] at hown
    obtain rfl := List.mem_singleton.mp hown
    exact .inr (List.Subset.refl _)
  | ifThen | whileLoop | forLoop | foreach =>
    obtain rfl := Except.ok.inj h
    obtain rfl := List.mem_singleton.mp hown
    exact .inr (List.Subset.refl _)
  | nested => cases hown
  | _ => cases hs

/-- A statement with a body spells its own texts and those of the body. -/
theorem markerIds_withBody {s : Stmt} (hs : s.body?.isSome) {n : Nat} {x : Rendered String} {text : String}
    (h : (style.header n s >>= fun head => x >>= fun body => pure (style.withBody n head body)).result = .ok text) :
    (∀ own ∈ style.spelled s, markerIds own ⊆ markerIds text) ∧
      ∃ body, x.result = .ok body ∧ markerIds body ⊆ markerIds text := by
  rw [Rendered.bind_ok] at h
  obtain ⟨head, hhead, h⟩ := h
  rw [Rendered.bind_ok] at h
  obtain ⟨body, hbody, h⟩ := h
  obtain rfl := Rendered.pure_ok.mp h
  obtain ⟨hline, hinner⟩ := style.language.markerIds_block head.2 body n
  have hblock : markerIds (style.language.block head.2 body n) ⊆ markerIds (style.withBody n head body) :=
    List.Subset.trans (markerIds_subset_append_right _ _) (markerIds_subset_append_left _ _)
  refine ⟨fun own hown => ?_, body, hbody, List.Subset.trans hinner hblock⟩
  rcases style.markerIds_header hs hhead own hown with h | h
  · rw [withBody, String.append_assoc]
    exact List.Subset.trans h (markerIds_subset_append_left _ _)
  · exact List.Subset.trans h (List.Subset.trans hline hblock)

mutual

theorem markerIds_stmt : ∀ (s : Stmt) {n : Nat} {text : String}, (style.stmt n s).result = .ok text →
    ∀ t ∈ s.preorder, ∀ own ∈ style.spelled t, markerIds own ⊆ markerIds text
  | .instanceVariable visibility var label modifiers, n, text, h, t, ht, own, hown => by
    obtain rfl := List.mem_singleton.mp ht
    rw [stmt] at h
    obtain rfl := Except.ok.inj h
    rcases List.mem_append.mp hown with hown | hown
    · rw [Option.mem_toList] at hown
      rw [hown]
      exact List.Subset.trans (markerIds_aboveLine n own) (markerIds_subset_append_left _ _)
    · obtain rfl := List.mem_singleton.mp hown
      exact List.Subset.trans (markerIds_indentLines n _) (markerIds_subset_append_right _ _)
  | .localVariable var isFinal, n, text, h, t, ht, own, hown => by
    obtain rfl := List.mem_singleton.mp ht
    rw [stmt] at h
    obtain rfl := Except.ok.inj h
    obtain rfl := List.mem_singleton.mp hown
    exact markerIds_indentLines n _
  | .act a, n, text, h, t, ht, own, hown => by
    obtain rfl := List.mem_singleton.mp ht
    rw [stmt, result_action] at h
    obtain rfl := Except.ok.inj h
    obtain rfl := List.mem_singleton.mp hown
    exact markerIds_indentLines n _
  | .ret value, n, text, h, t, ht, own, hown => by
    obtain rfl := List.mem_singleton.mp ht
    rw [stmt] at h
    obtain rfl := Except.ok.inj h
    obtain rfl := List.mem_singleton.mp hown
    exact markerIds_indentLines n _
  | .blank, n, text, h, t, ht, own, hown => by
    obtain rfl := List.mem_singleton.mp ht
    cases hown
  | .nested body at_, n, text, h, t, ht, own, hown => by
    rw [stmt] at h
    rw [Stmt.preorder] at ht
    rcases List.mem_cons.mp ht with rfl | ht
    · cases hown
    · exact markerIds_blockAt body h t ht own hown
  | .ifThen _ body, n, text, h, t, ht, own, hown | .whileLoop _ body, n, text, h, t, ht, own, hown
  | .forLoop _ _ _ _ body, n, text, h, t, ht, own, hown | .foreach _ _ body, n, text, h, t, ht, own, hown
  | .method _ body, n, text, h, t, ht, own, hown | .constructor _ _ _ body, n, text, h, t, ht, own, hown
  | .cls _ body, n, text, h, t, ht, own, hown => by
    rw [stmt] at h
    obtain ⟨hhead, inner, hbody, hinner⟩ := style.markerIds_withBody rfl h
    rw [Stmt.preorder] at ht
    rcases List.mem_cons.mp ht with rfl | ht
    · exact hhead own hown
    · exact List.Subset.trans (markerIds_blockAt body hbody t ht own hown) hinner

/-- Each marker that a statement at any depth of a block spells is found in the rendering of the block. -/
theorem markerIds_blockAt : ∀ (b : Block) {n : Nat} {text : String}, (style.blockAt n b).result = .ok text →
    ∀ t ∈ b.preorder, ∀ own ∈ style.spelled t, markerIds own ⊆ markerIds text
  | .mk _ stmts, n, text, h, t, ht, own, hown => by
    rw [blockAt] at h
    rw [Block.preorder] at ht
    exact markerIds_stmtsFrom stmts h t ht own hown

theorem markerIds_stmtsFrom : ∀ (stmts : List Stmt) {n : Nat} {out text : String},
    (style.stmtsFrom n out stmts).result = .ok text →
      ∀ t ∈ preorders stmts, ∀ own ∈ style.spelled t, markerIds own ⊆ markerIds text
  | [], n, out, text, h, t, ht, own, hown => by
    rw [preorders] at ht
    cases ht
  | s :: rest, n, out, text, h, t, ht, own, hown => by
    rw [stmtsFrom, Rendered.bind_ok] at h
    obtain ⟨first, hfirst, h⟩ := h
    rw [preorders] at ht
    rcases List.mem_append.mp ht with ht | ht
    · obtain ⟨more, rfl⟩ := style.stmtsFrom_starts n rest _ text h
      refine List.Subset.trans (markerIds_stmt s hfirst t ht own hown) ?_
      exact List.Subset.trans (markerIds_subset_append_right _ _) (markerIds_subset_append_left _ _)
    · exact markerIds_stmtsFrom rest h t ht own hown

end

end RenderStyle

end Pipewright
