import Pipewright.Language.Expr
import Pipewright.Proofs.Gaps
import Pipewright.Proofs.ImportBlock

/-!
# Values that are known late

An arithmetic expression is built with the marker of an operand that is not known
yet, and the value is put there when the program is complete. The marker is a
plain constant, so nothing says then that the value has to stand in parentheses:
the text is the one that an early value gives just if it is no operation
(`Calculation.resolveText_value`).
-/

namespace Pipewright

/-- Arithmetic on operands that are known now or later. -/
inductive Calculation where
  | operand (r : Resolvable)
  | node (left : Calculation) (operator : String) (right : Calculation)

namespace Calculation

def value (l : Language) : Calculation → Value
  | operand r => r.toValue
  | node a operator b => l.arithmetic (a.value l) operator (b.value l)

def late : Calculation → List Placeholder
  | operand r => r.placeholder?.toList
  | node a _ b => a.late ++ b.late

/-- The same expression, had it been built with what its placeholders stand for. -/
def known (found : Nat → Resolved) : Calculation → Calculation
  | operand (.later d) => operand (.now (found d.id))
  | operand (.now r) => operand (.now r)
  | node a operator b => node (a.known found) operator (b.known found)

def Bare : Calculation → Prop
  | operand (.later _) => True
  | operand (.now r) => markerIds r.toText = []
  | node a operator b => a.Bare ∧ markerIds operator = [] ∧ b.Bare

end Calculation

variable {σ : Type}

/-! ## Placeholders with a value -/

structure Registry.Finds (reg : Registry σ) (ok : σ → Prop) (id : Nat) (r : Resolved) : Prop where
  normal : reg.tier? id = some .normal
  bound : id < Marker.idBound
  answer : ∀ p : Progress σ, ok p.outside → ∃ q, reg.resolve .normal [] (.later ⟨id, .normal⟩) p = (some r, q) ∧
    q.cycles.length = p.cycles.length ∧ ok q.outside

namespace Registry

variable {reg : Registry σ} {ok : σ → Prop}

theorem inner_of_plain (reg : Registry σ) {r : Resolved} (hr : markerIds r.toText = []) (tier : Tier)
    (stack : List Nat) (id : Nat) (p : Progress σ) :
    (reg.inner tier stack id r p).text = r.toText ∧
      (reg.inner tier stack id r p).progress = p.registerAll r.imports := by
  unfold inner
  rw [sweepSegments_of_plain _ (List.filterMap_eq_nil_iff.mp hr)]
  exact ⟨join_segments r.toText, rfl⟩

theorem Finds.expand {id : Nat} {r : Resolved} (h : reg.Finds ok id r) (hr : markerIds r.toText = [])
    {p : Progress σ} (hp : ok p.outside) :
    (reg.expand .normal [] id p).1 = some r.toText ∧ ok (reg.expand .normal [] id p).2.outside := by
  obtain ⟨hsize, htier⟩ := reg.tier?_eq_some_iff.mp h.normal
  obtain ⟨q, hanswer, hcycles, hq⟩ := h.answer p hp
  have hcall : reg.call .normal [] hsize p = (some r, q) := by
    rcases reg.resolve_eq_call .normal [] id .normal p with hnone | ⟨_, hcall⟩
    · rw [hanswer] at hnone
      cases hnone
    · rw [← hcall, hanswer]
  obtain ⟨htext, hprogress⟩ := reg.inner_of_plain hr .normal [] id q
  have hdone : reg.Attempts .normal [] id p _ :=
    .done hsize (.inl htier) List.not_mem_nil hcall (by rw [hprogress]; exact hcycles)
  rw [hdone.expand_eq, htext, hprogress]
  exact ⟨rfl, hq⟩

/-- A text without markers stays as it is. -/
theorem sweeps_of_plain {text : String} (h : markerIds text = []) (tier : Tier) (count : Nat) (p : Progress σ) :
    reg.sweeps tier count text p = (text, p) := by
  cases count with
  | zero => rfl
  | succ count =>
    have hsweep : reg.sweep tier text p = ⟨(segments text).map Segment.text, false, p⟩ :=
      sweepSegments_of_plain _ (List.filterMap_eq_nil_iff.mp h) p
    rw [sweeps_succ, hsweep]
    exact congrArg (·, p) (join_segments text)

/-- A text all of whose markers stand for plain texts is resolved in one sweep. -/
theorem resolveText_of_finds {text : String} {found : Nat → Resolved}
    (hfinds : ∀ id ∈ markerIds text, reg.Finds ok id (found id) ∧ markerIds (found id).toText = [])
    (hplain : markerIds (replaceMarkers (fun id => some (found id).toText) text) = [])
    (imports : ImportScope) {outside : σ} (hok : ok outside) :
    (reg.resolveText text imports outside).text = replaceMarkers (fun id => some (found id).toText) text := by
  obtain ⟨hpieces, -, -⟩ := sweepSegments_eq (I := fun p => ok p.outside) (segments text)
    (fun id hid p hp => (hfinds id hid).1.expand (hfinds id hid).2 hp) { imports, outside } hok
  have hsweep : (reg.sweep .normal text { imports, outside }).text =
      replaceMarkers (fun id => some (found id).toText) text := congrArg String.join hpieces
  have hmid : (reg.normalTier text imports outside).1 = replaceMarkers (fun id => some (found id).toText) text := by
    rw [normalTier, maxSweeps, sweeps_succ]
    split
    · rw [hsweep, sweeps_of_plain hplain]
    · exact hsweep
  rw [resolveText_eq]
  simp only [hmid, sweeps_of_plain hplain]

end Registry

/-! ## Texts of operations -/

theorem text_toValue (r : Resolvable) : r.toValue.text = r.toText := by
  cases r with
  | now r => cases r <;> rfl
  | later d => rfl

theorem Language.text_arithmetic (l : Language) (a b : Value) (operator : String) :
    (l.arithmetic a operator b).text = a.operandText ++ " " ++ operator ++ " " ++ b.operandText := rfl

theorem Language.kind_arithmetic (l : Language) (a b : Value) (operator : String) :
    (l.arithmetic a operator b).kind = .operation := rfl

theorem Value.operandText_of_operation {v : Value} (h : v.kind = .operation) :
    v.operandText = "" ++ "(" ++ (v.text ++ ")" ++ "") := by
  rw [operandText, if_pos h, String.append_empty, String.empty_append, String.append_assoc]

theorem Value.operandText_of_ne {v : Value} (h : v.kind ≠ .operation) : v.operandText = v.text := if_neg h

theorem mem_markerIds_operandText {v : Value} {id : Nat} : id ∈ markerIds v.operandText ↔ id ∈ markerIds v.text := by
  by_cases h : v.kind = .operation
  · rw [Value.operandText_of_operation h, mem_markerIds_gap Marker.gap_opening, mem_markerIds_gap Marker.gap_closing,
      markerIds_empty]
    simp
  · rw [Value.operandText_of_ne h]

theorem replaceMarkers_of_plain {text : String} (h : markerIds text = []) (f : Nat → Option String) :
    replaceMarkers f text = text := by
  rw [replaceMarkers_congr f (g := fun _ => none) (by simp [h]), replaceMarkers_none]

theorem replaceMarkers_text (f : Nat → Option String) {id : Nat} (h : id < Marker.idBound) :
    replaceMarkers f (Marker.text id) = (f id).getD (Marker.text id) := by
  rw [replaceMarkers, ← String.append_empty (s := Marker.text id), segments_marker h]
  simp [Segment.replace, segments_empty]

theorem replaceMarkers_operandText {v w : Value} {f : Nat → Option String} (hkind : v.kind = w.kind)
    (h : replaceMarkers f v.text = w.text) : replaceMarkers f v.operandText = w.operandText := by
  have hempty : replaceMarkers f "" = "" := replaceMarkers_of_plain markerIds_empty f
  by_cases hv : v.kind = .operation
  · rw [Value.operandText_of_operation hv, Value.operandText_of_operation (hkind ▸ hv),
      replaceMarkers_gap f Marker.gap_opening, replaceMarkers_gap f Marker.gap_closing, hempty, h]
  · rw [Value.operandText_of_ne hv, Value.operandText_of_ne (hkind ▸ hv), h]

namespace Calculation

variable (l : Language)

theorem mem_markerIds_node {a b : Calculation} {operator : String} {id : Nat} :
    id ∈ markerIds ((node a operator b).value l).text ↔
      id ∈ markerIds (a.value l).operandText ∨ id ∈ markerIds operator ∨ id ∈ markerIds (b.value l).operandText := by
  rw [value, Language.text_arithmetic, mem_markerIds_gap Marker.gap_blank, mem_markerIds_gap Marker.gap_blank, or_assoc]

/-- The markers of a bare expression are those of its placeholders. -/
theorem mem_late_of_mem_markerIds {e : Calculation} (he : e.Bare) (hbound : ∀ d ∈ e.late, d.id < Marker.idBound)
    {id : Nat} (hid : id ∈ markerIds (e.value l).text) : ∃ d ∈ e.late, d.id = id := by
  induction e with
  | operand r =>
    cases r with
    | now r =>
      rw [value, text_toValue, Resolvable.toText, show markerIds r.toText = [] from he] at hid
      cases hid
    | later d =>
      refine ⟨d, List.mem_singleton.mpr rfl, ?_⟩
      have hmarker := segments_marker (hbound d (List.mem_singleton.mpr rfl)) ""
      rw [value, text_toValue, Resolvable.toText, markerIds, ← String.append_empty (s := Marker.text d.id),
        hmarker] at hid
      simpa [Segment.id?, eq_comm, segments_empty] using hid
  | node a operator b iha ihb =>
    obtain ⟨ha, hop, hb⟩ := he
    rw [mem_markerIds_node, hop, mem_markerIds_operandText, mem_markerIds_operandText] at hid
    rcases hid with hid | hid | hid
    · obtain ⟨d, hd, rfl⟩ := iha ha (fun d hd => hbound d (List.mem_append_left _ hd)) hid
      exact ⟨d, List.mem_append_left _ hd, rfl⟩
    · cases hid
    · obtain ⟨d, hd, rfl⟩ := ihb hb (fun d hd => hbound d (List.mem_append_right _ hd)) hid
      exact ⟨d, List.mem_append_right _ hd, rfl⟩

theorem late_known (found : Nat → Resolved) (e : Calculation) : (e.known found).late = [] := by
  induction e with
  | operand r => cases r <;> rfl
  | node a operator b iha ihb => rw [known, late, iha, ihb, List.append_nil]

theorem bare_known (found : Nat → Resolved) {e : Calculation} (he : e.Bare)
    (hfound : ∀ d ∈ e.late, markerIds (found d.id).toText = []) : (e.known found).Bare := by
  induction e with
  | operand r =>
    cases r with
    | now r => exact he
    | later d => exact hfound d (List.mem_singleton.mpr rfl)
  | node a operator b iha ihb =>
    exact ⟨iha he.1 fun d hd => hfound d (List.mem_append_left _ hd), he.2.1,
      ihb he.2.2 fun d hd => hfound d (List.mem_append_right _ hd)⟩

theorem markerIds_of_late_nil {e : Calculation} (he : e.Bare) (hlate : e.late = []) :
    markerIds (e.value l).text = [] := by
  refine List.eq_nil_iff_forall_not_mem.mpr fun id hid => ?_
  obtain ⟨d, hd, -⟩ := mem_late_of_mem_markerIds l he (by simp [hlate]) hid
  simp [hlate] at hd

/-! ## What is put in place of the markers -/

/-- What a placeholder stands for is put in its place as a bare text. -/
theorem replaceMarkers_value (found : Nat → Resolved) {e : Calculation} (he : e.Bare)
    (hbound : ∀ d ∈ e.late, d.id < Marker.idBound) :
    (e.value l).kind = ((e.known fun id => .text (found id).toText).value l).kind ∧
      replaceMarkers (fun id => some (found id).toText) (e.value l).text =
        ((e.known fun id => .text (found id).toText).value l).text := by
  induction e with
  | operand r =>
    cases r with
    | now r =>
      refine ⟨rfl, ?_⟩
      rw [known, value, text_toValue]
      exact replaceMarkers_of_plain he _
    | later d =>
      refine ⟨rfl, ?_⟩
      rw [known, value, value, text_toValue, text_toValue]
      exact replaceMarkers_text _ (hbound d (List.mem_singleton.mpr rfl))
  | node a operator b iha ihb =>
    obtain ⟨hka, hta⟩ := iha he.1 fun d hd => hbound d (List.mem_append_left _ hd)
    obtain ⟨hkb, htb⟩ := ihb he.2.2 fun d hd => hbound d (List.mem_append_right _ hd)
    refine ⟨rfl, ?_⟩
    rw [known, value, value, Language.text_arithmetic, Language.text_arithmetic,
      replaceMarkers_gap _ Marker.gap_blank, replaceMarkers_gap _ Marker.gap_blank,
      replaceMarkers_operandText hka hta, replaceMarkers_operandText hkb htb, replaceMarkers_of_plain he.2.1]

/-! ## Parentheses -/

theorem operandText_known {found : Nat → Resolved} {e : Calculation}
    (h : ∀ d ∈ e.late, (found d.id).toValue.kind ≠ .operation) :
    ((e.known fun id => .text (found id).toText).value l).operandText = ((e.known found).value l).operandText := by
  induction e with
  | operand r =>
    cases r with
    | now r => rfl
    | later d =>
      have hkind := h d (List.mem_singleton.mpr rfl)
      exact (text_toValue (.now (found d.id))).symm.trans (Value.operandText_of_ne hkind).symm
  | node a operator b iha ihb =>
    have ha := iha fun d hd => h d (List.mem_append_left _ hd)
    have hb := ihb fun d hd => h d (List.mem_append_right _ hd)
    rw [known, known, value, value, Value.operandText_of_operation (l.kind_arithmetic _ _ _),
      Value.operandText_of_operation (l.kind_arithmetic _ _ _), Language.text_arithmetic, Language.text_arithmetic,
      ha, hb]

/-- An early operation has a pair of parentheses that a late one lacks. -/
theorem length_operandText (found : Nat → Resolved) (e : Calculation) :
    ((e.known found).value l).operandText.length =
      ((e.known fun id => .text (found id).toText).value l).operandText.length +
        2 * e.late.countP fun d => (found d.id).toValue.kind = .operation := by
  induction e with
  | operand r =>
    cases r with
    | now r => rfl
    | later d =>
      have htext : (found d.id).toValue.text = (found d.id).toText := text_toValue (.now (found d.id))
      have hpair : "(".length = 1 ∧ ")".length = 1 := ⟨rfl, rfl⟩
      change (found d.id).toValue.operandText.length = (found d.id).toText.length + _
      by_cases h : (found d.id).toValue.kind = .operation
      · rw [Value.operandText_of_operation h, htext]
        simp [late, Resolvable.placeholder?, h, hpair]
        omega
      · rw [Value.operandText_of_ne h, htext]
        simp [late, Resolvable.placeholder?, h]
  | node a operator b iha ihb =>
    rw [known, known, value, value, Value.operandText_of_operation (l.kind_arithmetic _ _ _),
      Value.operandText_of_operation (l.kind_arithmetic _ _ _), Language.text_arithmetic, Language.text_arithmetic,
      late, List.countP_append]
    simp only [String.length_append, iha, ihb]
    omega

/-- With late operations among the operands of an operation, its text is not the early one. -/
theorem text_known_iff (found : Nat → Resolved) (a b : Calculation) (operator : String) :
    (((node a operator b).known fun id => .text (found id).toText).value l).text =
        (((node a operator b).known found).value l).text ↔
      ∀ d ∈ (node a operator b).late, (found d.id).toValue.kind ≠ .operation := by
  have hoperation : ∀ found, (((node a operator b).known found).value l).kind = .operation := fun _ => rfl
  constructor
  · intro htext d hd hkind
    have hlength := length_operandText l found (node a operator b)
    rw [Value.operandText_of_operation (hoperation _), Value.operandText_of_operation (hoperation _), htext] at hlength
    have hcount : 0 < (node a operator b).late.countP fun d => (found d.id).toValue.kind = .operation :=
      List.countP_pos_iff.mpr ⟨d, hd, by simpa using hkind⟩
    omega
  · intro h
    rw [known, known, value, value, Language.text_arithmetic, Language.text_arithmetic,
      operandText_known l fun d hd => h d (List.mem_append_left _ hd),
      operandText_known l fun d hd => h d (List.mem_append_right _ hd)]

/-! ## Early and late -/

section
variable {reg : Registry σ} {ok : σ → Prop}

/-- An operation on operands that are found late is resolved to the text that they give as bare texts. That is the
text of the operation on the same operands known early just if none of them is an operation itself. -/
theorem resolveText_value (a : Calculation) (operator : String) (b : Calculation) (found : Nat → Resolved)
    (hbare : (node a operator b).Bare) (hfinds : ∀ d ∈ (node a operator b).late,
      reg.Finds ok d.id (found d.id) ∧ markerIds (found d.id).toText = [])
    (imports : ImportScope) {outside : σ} (hok : ok outside) :
    (reg.resolveText ((node a operator b).value l).text imports outside).text =
        (((node a operator b).known fun id => .text (found id).toText).value l).text ∧
      ((reg.resolveText ((node a operator b).value l).text imports outside).text =
          (((node a operator b).known found).value l).text ↔
        ∀ d ∈ (node a operator b).late, (found d.id).toValue.kind ≠ .operation) := by
  have hbound : ∀ d ∈ (node a operator b).late, d.id < Marker.idBound := fun d hd => (hfinds d hd).1.bound
  obtain ⟨-, hreplaced⟩ := replaceMarkers_value l found hbare hbound
  have hplain := markerIds_of_late_nil l
    (bare_known (fun id => .text (found id).toText) hbare fun d hd => (hfinds d hd).2) (late_known _ _)
  have hresolved : (reg.resolveText ((node a operator b).value l).text imports outside).text =
      (((node a operator b).known fun id => .text (found id).toText).value l).text := by
    rw [← hreplaced] at hplain ⊢
    refine Registry.resolveText_of_finds (fun id hid => ?_) hplain imports hok
    obtain ⟨d, hd, rfl⟩ := mem_late_of_mem_markerIds l hbare hbound hid
    exact hfinds d hd
  refine ⟨hresolved, ?_⟩
  rw [hresolved]
  exact text_known_iff l found a b operator

end

def lateSum : Calculation := node (operand (.later ⟨0, .normal⟩)) "*" (operand (.now (.value (.raw "x"))))

theorem resolveText_lateSum :
    let sum := Resolved.value (Language.java.sum (.raw "a") (.raw "b"))
    let reg : Registry Unit := ⟨#[⟨.normal, .give (some sum)⟩]⟩
    let late := (reg.resolveText (lateSum.value .java).text .empty ()).text
    let early := ((lateSum.known fun _ => sum).value .java).text
    late = "a + b * x" ∧ early = "(a + b) * x" ∧ late ≠ early := by
  intro sum reg late early
  have hfinds : reg.Finds (fun _ => True) 0 sum :=
    ⟨rfl, by decide, fun p _ => ⟨p, by rw [Registry.resolve]; rfl, rfl, trivial⟩⟩
  have hbare : lateSum.Bare :=
    ⟨trivial, by decide +kernel, show markerIds "x" = [] by decide +kernel⟩
  have hlates : ∀ d ∈ lateSum.late, reg.Finds (fun _ => True) d.id sum ∧ markerIds sum.toText = [] := by
    intro d hd
    obtain rfl := List.mem_singleton.mp hd
    exact ⟨hfinds, by decide +kernel⟩
  obtain ⟨hlate, hsame⟩ := resolveText_value .java _ _ _ (fun _ => sum) hbare hlates .empty trivial
  refine ⟨hlate.trans (by decide +kernel), by decide +kernel, fun heq => ?_⟩
  exact hsame.mp heq ⟨0, .normal⟩ (List.mem_singleton.mpr rfl) rfl

end Calculation

end Pipewright
