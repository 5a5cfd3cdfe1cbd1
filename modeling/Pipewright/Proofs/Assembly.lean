import Pipewright.Proofs.Spelling

/-!
# The scopes in a program

A program is put together from scopes that are nested as they are or become the
bodies of its entry points. Its text holds their renderings one behind the other,
and each marker that they spell (`Program.assemble_slots`).
-/

namespace Pipewright

/-! ## Slots -/

structure Slot where
  indent : Nat
  block : Block
  /-- Whether it is the body of an entry point. -/
  isBody : Bool

/-- What stands at a place for the rendering of its scope, up to line feeds at the end. -/
def Slot.text (q : Slot) (l : Language) (rendering : String) : String :=
  if q.isBody then l.bodyText rendering else Language.withoutTail rendering

/-- The scopes that the text of a program is put together from, in their order. -/
def Program.slots (p : Program) : Language → List Slot
  | .python => [⟨0, p.classStart, false⟩, ⟨0, p.init, false⟩, ⟨1, p.processFrame, true⟩, ⟨0, p.classEnd, false⟩]
  | l =>
    let n := if l.inClass then 1 else 0
    [⟨n, p.classStart, false⟩, ⟨n + 1, p.init, true⟩, ⟨n + 1, p.processFrame, true⟩, ⟨n + 1, p.viewportTapped, true⟩,
      ⟨n, p.classEnd, false⟩]

theorem Language.block_whole {l : Language} (hl : l ≠ .python) (header body : String) (n : Nat) :
    ∃ front behind, l.block header body n = front ++ body ++ behind := by
  cases l with
  | python => exact absurd rfl hl
  | java | kotlin =>
    exact ⟨tabs n ++ trim header ++ " \x7b\n", tabs n ++ "\x7d", by simp only [block, String.append_assoc]⟩
  | lua => exact ⟨tabs n ++ trim header ++ "\n", tabs n ++ "end", by simp only [block, String.append_assoc]⟩

namespace RenderStyle

variable (style : RenderStyle)

/-- The scopes are rendered in a text, each behind the one before it. -/
def Holds : List Slot → String → Prop
  | [], _ => True
  | q :: rest, text => ∃ rendering front behind, (style.blockAt q.indent q.block).result = .ok rendering ∧
      text = front ++ q.text style.language rendering ++ behind ∧ Holds rest behind

variable {style}

theorem Holds.front {slots : List Slot} {text : String} (h : style.Holds slots text) (front : String) :
    style.Holds slots (front ++ text) := by
  cases slots with
  | nil => trivial
  | cons q rest =>
    obtain ⟨rendering, front', behind, hq, rfl, hrest⟩ := h
    exact ⟨rendering, front ++ front', behind, hq, by simp only [String.append_assoc], hrest⟩

theorem Holds.append {xs ys : List Slot} {a b : String} (hx : style.Holds xs a) (hy : style.Holds ys b) :
    style.Holds (xs ++ ys) (a ++ b) := by
  induction xs generalizing a with
  | nil => exact hy.front a
  | cons q rest ih =>
    obtain ⟨rendering, front, behind, hq, rfl, hrest⟩ := hx
    exact ⟨rendering, front, behind ++ b, hq, by simp only [String.append_assoc], ih hrest⟩

theorem Holds.within {slots : List Slot} {text : String} (h : style.Holds slots text) (front behind : String) :
    style.Holds slots (front ++ text ++ behind) := by
  have hnone : style.Holds [] behind := trivial
  have hend := (h.front front).append hnone
  rwa [List.append_nil] at hend

/-! ## What carries scopes -/

structure Carries (style : RenderStyle) (slots : List Slot) (within : List Stmt) (x : Rendered String) : Prop where
  holds : ∀ text, x.result = .ok text → style.Holds slots text
  inner : ∀ q ∈ slots, q.block.preorder ⊆ within
  fails : style.firstFailure? within = style.firstFailure? (slots.flatMap fun q => q.block.preorder)

theorem carries_of_plain {s : Stmt} (hs : s.preorder = [s]) (hlacks : style.language.lacks? s = none) (n : Nat) :
    style.Carries [] s.preorder (style.stmt n s) where
  holds _ _ := trivial
  inner _ hq := nomatch hq
  fails := by
    rw [hs]
    simp [firstFailure?, hlacks]

theorem firstFailure?_inside {s : Stmt} {body : Block} (hs : s.preorder = s :: body.preorder)
    (hlacks : style.language.lacks? s = none) : style.firstFailure? s.preorder = style.firstFailure? body.preorder := by
  rw [hs, firstFailure?_cons]
  simp [firstFailure?, hlacks]

theorem carries_block (n : Nat) (b : Block) : style.Carries [⟨n, b, false⟩] b.preorder (style.blockAt n b) where
  holds text h := by
    obtain ⟨tail, htail⟩ := Language.exists_tail text
    exact ⟨text, "", tail, h, by rw [String.empty_append]; exact htail, trivial⟩
  inner q hq := by
    obtain rfl := List.mem_singleton.mp hq
    exact List.Subset.refl _
  fails := by rw [List.flatMap_singleton]

theorem Carries.nested {slots : List Slot} {b : Block} {at_ : Option Nat} {n : Nat}
    (h : style.Carries slots b.preorder (style.blockAt (at_.getD n) b)) :
    style.Carries slots (Stmt.nested b at_).preorder (style.stmt n (.nested b at_)) where
  holds text hs := by
    rw [stmt] at hs
    exact h.holds text hs
  inner q hq := List.Subset.trans (h.inner q hq) (List.subset_cons_self _ _)
  fails := by
    rw [← h.fails]
    exact firstFailure?_inside rfl rfl

theorem result_withBody {s : Stmt} {n : Nat} {x : Rendered String} {text : String}
    (h : (style.header n s >>= fun head => x >>= fun body => pure (style.withBody n head body)).result = .ok text) :
    ∃ (head : String × String) (body : String), x.result = .ok body ∧
      text = head.1 ++ style.language.block head.2 body n ++ "\n" := by
  rw [Rendered.bind_ok] at h
  obtain ⟨head, -, h⟩ := h
  rw [Rendered.bind_ok] at h
  obtain ⟨body, hbody, h⟩ := h
  exact ⟨head, body, hbody, (Rendered.pure_ok.mp h).symm⟩

theorem carries_method (signature : MethodSignature) (b : Block) (n : Nat) :
    style.Carries [⟨n + 1, b, true⟩] (Stmt.method signature b).preorder (style.stmt n (.method signature b)) where
  holds text h := by
    rw [stmt] at h
    obtain ⟨head, body, hbody, rfl⟩ := result_withBody h
    obtain ⟨middle, behind, hblock⟩ := style.language.block_parts head.2 body n
    rw [hblock]
    exact ⟨body, head.1 ++ (tabs n ++ trim head.2 ++ middle), behind ++ "\n", hbody,
      by simp only [Slot.text, if_true, String.append_assoc], trivial⟩
  inner q hq := by
    obtain rfl := List.mem_singleton.mp hq
    exact List.subset_cons_self _ _
  fails := by
    rw [List.flatMap_singleton]
    exact firstFailure?_inside rfl rfl

/-- A class around statements that carry scopes. -/
theorem Carries.cls {slots : List Slot} {b : Block} {n : Nat}
    (h : style.Carries slots b.preorder (style.blockAt (n + 1) b)) (hl : style.language.inClass = true)
    (signature : ClassSignature) :
    style.Carries slots (Stmt.cls signature b).preorder (style.stmt n (.cls signature b)) where
  holds text hs := by
    rw [stmt] at hs
    obtain ⟨head, body, hbody, rfl⟩ := result_withBody hs
    have hpython : style.language ≠ .python := fun he => by
      rw [he] at hl
      cases hl
    obtain ⟨front, behind, hblock⟩ := Language.block_whole hpython head.2 body n
    rw [hblock]
    exact ((h.holds body hbody).within front behind).within head.1 "\n"
  inner q hq := List.Subset.trans (h.inner q hq) (List.subset_cons_self _ _)
  fails := by
    rw [← h.fails]
    refine firstFailure?_inside rfl ?_
    cases hlanguage : style.language <;> rw [hlanguage] at hl <;> first | rfl | cases hl

/-! ## Scopes under construction -/

def Builds (style : RenderStyle) (n : Nat) (s : Scope) (slots : List Slot) : Prop :=
  style.Carries slots (preorders s.stmts) (style.stmtsFrom n "" s.stmts)

theorem preorders_append (xs ys : List Stmt) : preorders (xs ++ ys) = preorders xs ++ preorders ys := by
  induction xs with
  | nil => rfl
  | cons s rest ih => rw [List.cons_append, preorders, preorders, ih, List.append_assoc]

theorem stmtsFrom_append_ok {n : Nat} {ys : List Stmt} {text : String} : ∀ {xs : List Stmt} {out : String},
    (style.stmtsFrom n out (xs ++ ys)).result = .ok text →
      ∃ mid, (style.stmtsFrom n out xs).result = .ok mid ∧ (style.stmtsFrom n mid ys).result = .ok text
  | [], out, h => ⟨out, by rw [stmtsFrom]; rfl, h⟩
  | s :: rest, out, h => by
    rw [List.cons_append, stmtsFrom, Rendered.bind_ok] at h
    obtain ⟨first, hfirst, h⟩ := h
    obtain ⟨mid, hmid, h⟩ := stmtsFrom_append_ok h
    refine ⟨mid, ?_, h⟩
    rw [stmtsFrom, Rendered.bind_ok]
    exact ⟨first, hfirst, hmid⟩

theorem builds_new (n tabs : Nat) : style.Builds n (Scope.new tabs) [] where
  holds _ _ := trivial
  inner _ hq := nomatch hq
  fails := rfl

namespace Builds

variable {n : Nat} {s : Scope} {xs ys : List Slot}

theorem push (h : style.Builds n s xs) {t : Stmt} (ht : style.Carries ys t.preorder (style.stmt n t)) :
    style.Builds n (s.push t) (xs ++ ys) where
  holds text hs := by
    obtain ⟨mid, hmid, hs⟩ := stmtsFrom_append_ok hs
    rw [stmtsFrom, Rendered.bind_ok] at hs
    obtain ⟨last, hlast, hs⟩ := hs
    rw [stmtsFrom, Rendered.pure_ok] at hs
    rw [← hs, String.append_assoc]
    exact (h.holds mid hmid).append ((ht.holds last hlast).front _)
  inner q hq := by
    rw [Scope.push, preorders_append]
    rcases List.mem_append.mp hq with hq | hq
    · exact List.Subset.trans (h.inner q hq) (List.subset_append_left _ _)
    · refine List.Subset.trans (ht.inner q hq) (List.Subset.trans ?_ (List.subset_append_right _ _))
      exact List.subset_append_left _ _
  fails := by
    rw [Scope.push, preorders_append, preorders, preorders, List.append_nil, firstFailure?_append, h.fails, ht.fails,
      List.flatMap_append, firstFailure?_append]

theorem push_plain (h : style.Builds n s xs) {t : Stmt} (ht : t.preorder = [t])
    (hlacks : style.language.lacks? t = none) : style.Builds n (s.push t) xs := by
  have hpush := h.push (carries_of_plain ht hlacks n)
  rwa [List.append_nil] at hpush

theorem separate (h : style.Builds n s xs) : style.Builds n s.separate xs := by
  unfold Scope.separate
  split
  · exact h
  · exact h
  · exact h.push_plain rfl rfl

theorem nest (h : style.Builds n s xs) (b : Block) (at_ : Option Nat) :
    style.Builds n (s.nest b at_) (xs ++ [⟨at_.getD n, b, false⟩]) :=
  h.push (carries_block _ b).nested

theorem method (h : style.Builds n s xs) (signature : MethodSignature) (b : Block) :
    style.Builds n (s.push (.method signature b)) (xs ++ [⟨n + 1, b, true⟩]) :=
  h.push (carries_method signature b n)

/-- A scope without statements may be left out. -/
theorem unless_empty {q : Slot} {t : Scope} (h : style.Builds n s xs) (ht : style.Builds n t (xs ++ [q]))
    (hq : q.text style.language "" = "") : style.Builds n (if q.block.isEmpty then s else t) (xs ++ [q]) := by
  split
  · rename_i hempty
    obtain ⟨tabs, hstmts⟩ : ∃ tabs, q.block = .mk tabs [] := by
      generalize q.block = b at hempty
      obtain ⟨tabs, stmts⟩ := b
      exact ⟨tabs, by rw [show stmts = [] from List.isEmpty_iff.mp hempty]⟩
    have hnone : q.block.preorder = [] := by
      rw [hstmts]
      rfl
    constructor
    · intro text hs
      have hslot : style.Holds [q] "" := by
        refine ⟨"", "", "", ?_, by rw [hq]; rfl, trivial⟩
        rw [hstmts, blockAt, stmtsFrom]
        rfl
      have hholds := (h.holds text hs).append hslot
      rwa [String.append_empty] at hholds
    · intro q' hq'
      rcases List.mem_append.mp hq' with hq' | hq'
      · exact h.inner q' hq'
      · obtain rfl := List.mem_singleton.mp hq'
        rw [hnone]
        exact List.nil_subset _
    · rw [h.fails, List.flatMap_append, List.flatMap_singleton, hnone, List.append_nil]
  · exact ht

end Builds

theorem Builds.toBlock {n : Nat} {s : Scope} {slots : List Slot} (h : style.Builds n s slots) :
    style.Carries slots s.toBlock.preorder (style.blockAt n s.toBlock) := by
  rw [Scope.toBlock, Block.preorder, blockAt]
  exact h

theorem exists_of_firstFailure? {slots : List Slot} {e : LanguageError}
    (h : style.firstFailure? (slots.flatMap fun q => q.block.preorder) = some e) :
    ∃ q ∈ slots, (style.blockAt q.indent q.block).result = .error e := by
  induction slots with
  | nil => cases h
  | cons q rest ih =>
    rw [List.flatMap_cons, firstFailure?_append, Option.or_eq_some_iff] at h
    rcases h with h | ⟨-, h⟩
    · exact ⟨q, List.mem_cons_self .., Rendered.failure?_eq_some_iff.mp ((style.failure?_blockAt q.block _).trans h)⟩
    · obtain ⟨q', hq', h⟩ := ih h
      exact ⟨q', List.mem_cons_of_mem _ hq', h⟩

end RenderStyle

/-! ## Programs -/

namespace Program

variable (p : Program)

theorem members_builds {l : Language} (hl : l ≠ .python) (n : Nat) :
    (⟨l, p.preview⟩ : RenderStyle).Builds n (p.members l)
      [⟨n, p.classStart, false⟩, ⟨n + 1, p.init, true⟩, ⟨n + 1, p.processFrame, true⟩, ⟨n + 1, p.viewportTapped, true⟩,
        ⟨n, p.classEnd, false⟩] := by
  have hempty : ∀ q : Slot, q.text l "" = "" := by
    intro q
    unfold Slot.text Language.bodyText
    rw [if_neg (fun h : l = .python ∧ _ => hl h.1)]
    split <;> rfl
  have hnew : (⟨l, p.preview⟩ : RenderStyle).Builds n (Scope.new 1) [] := RenderStyle.builds_new n 1
  have hstart := hnew.unless_empty (hnew.nest p.classStart none).separate (hempty _)
  have hinit := fun signature => hstart.unless_empty (hstart.method signature p.init).separate (hempty _)
  have hframe := fun first signature => (hinit first).method signature p.processFrame
  have htapped := fun first second signature =>
    (hframe first second).unless_empty ((hframe first second).separate.method signature p.viewportTapped) (hempty _)
  exact (htapped _ _ _).unless_empty ((htapped _ _ _).nest p.classEnd none) (hempty _)

theorem opening_builds (style : RenderStyle) : style.Builds 0 p.opening [] :=
  ((RenderStyle.builds_new 0 0).push_plain rfl rfl).separate

theorem scope_builds (l : Language) : (⟨l, p.preview⟩ : RenderStyle).Builds 0 (p.scope l) (p.slots l) := by
  have hopening := p.opening_builds ⟨l, p.preview⟩
  cases l with
  | python =>
    have hstart := hopening.unless_empty (hopening.nest p.classStart (some 0)).separate rfl
    have hinit := hstart.unless_empty (hstart.nest p.init (some 0)).separate rfl
    have hframe := fun signature => hinit.method signature p.processFrame
    exact (hframe _).unless_empty ((hframe _).nest p.classEnd (some 0)) rfl
  | java | kotlin => exact hopening.push ((p.members_builds (by decide) 1).toBlock.cls rfl _)
  | lua => exact hopening.push (p.members_builds (by decide) 0).toBlock.nested

/-- A program fails with the error of one of its scopes, or its text holds the rendering of each at its place and in
their order, and every marker that a statement at any depth of them spells. -/
theorem assemble_slots (l : Language) :
    let style : RenderStyle := ⟨l, p.preview⟩
    (∃ e, (p.assemble l).result = .error e ∧
        ∃ q ∈ p.slots l, (style.blockAt q.indent q.block).result = .error e) ∨
      ∃ text, (p.assemble l).result = .ok text ∧ style.Holds (p.slots l) text ∧
        ∀ q ∈ p.slots l, ∀ s ∈ q.block.preorder, ∀ own ∈ style.spelled s, markerIds own ⊆ markerIds text := by
  intro style
  have hcarries := (p.scope_builds l).toBlock
  have hassemble : p.assemble l = style.blockAt 0 (p.scope l).toBlock := by
    rw [assemble, RenderStyle.block, Scope.toBlock, Block.tabs, (p.opening_continues l).tabs]
    rfl
  rw [hassemble]
  cases hresult : (style.blockAt 0 (p.scope l).toBlock).result with
  | error e =>
    refine .inl ⟨e, rfl, RenderStyle.exists_of_firstFailure? ?_⟩
    rw [← hcarries.fails, ← RenderStyle.failure?_blockAt _ _ 0, Rendered.failure?_eq_some_iff]
    exact hresult
  | ok text =>
    refine .inr ⟨text, rfl, hcarries.holds text hresult, fun q hq s hs own hown => ?_⟩
    exact style.markerIds_blockAt _ hresult s (hcarries.inner q hq hs) own hown

def tapOnly : Program where
  className := "Tap"
  preview := false
  importMarker := Marker.text 0
  classStart := .mk 1 []
  init := .mk 2 []
  processFrame := .mk 2 []
  viewportTapped := .mk 2 [.act (.raw (Marker.text 1))]
  classEnd := .mk 1 []

def blankOnly : Program := { tapOnly with processFrame := .mk 2 [.act (.raw " ")], viewportTapped := .mk 2 [] }

/-- Where a program is one function, the marker of a tap is not in it, nor is a line of white space. -/
theorem python_loses_scopes :
    (∃ text, (tapOnly.assemble .python).result = .ok text ∧ 1 ∉ markerIds text ∧
        ∃ s ∈ tapOnly.viewportTapped.preorder, ∃ own ∈ (⟨.python, false⟩ : RenderStyle).spelled s, 1 ∈ markerIds own) ∧
      ∃ text rendering, (blankOnly.assemble .python).result = .ok text ∧
        ((⟨.python, false⟩ : RenderStyle).blockAt 1 blankOnly.processFrame).result = .ok rendering ∧
          ¬(Language.withoutTail rendering).toList <:+: text.toList := by
  have hpass : ∀ p : Program, (p.assemble .python).result.toOption =
      some "<@vg#0#@>\n\ndef runPipeline(input, llrobot):\n\tpass\n" →
        (p.assemble .python).result = .ok "<@vg#0#@>\n\ndef runPipeline(input, llrobot):\n\tpass\n" := by
    intro p h
    cases hresult : (p.assemble .python).result with
    | error e =>
      rw [hresult] at h
      cases h
    | ok text =>
      rw [hresult] at h
      exact congrArg Except.ok (Option.some.inj h)
  constructor
  · refine ⟨_, hpass tapOnly (by decide +kernel), by decide +kernel, .act (.raw (Marker.text 1)), ?_, Marker.text 1, ?_, ?_⟩
    · exact List.mem_singleton.mpr rfl
    · exact List.mem_singleton.mpr rfl
    · decide +kernel
  · refine ⟨_, "\t \n", hpass blankOnly (by decide +kernel), rfl, ?_⟩
    rw [← hasInfix_iff]
    decide +kernel

end Program

end Pipewright
