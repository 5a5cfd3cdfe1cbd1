import Pipewright.Proofs.Gaps
import Pipewright.Proofs.ImportBlock

/-!
# Resolution part by part

Where no marker reaches from one text into the next, both can be swept one after
the other. Behind a gap this is always so: hence the parts of a text that gaps
keep apart are resolved each at its own place (`Registry.resolveText_intercalate`).
-/

namespace Pipewright

/-! ## Cuts -/

/-- Whatever stands in front of these characters, no marker reaches into them. -/
def Marker.Cut (behind : List Char) : Prop :=
  ∀ front, front ≠ [] → ∀ {id : Nat} {digits rest : List Char}, at? (front ++ behind) = some (id, digits, rest) →
    ∃ more, at? front = some (id, digits, more) ∧ rest = more ++ behind

namespace Marker

theorem cut_open (behind : List Char) : Cut ('<' :: behind) :=
  fun _ hne _ _ _ h => at?_append_open hne h

theorem cut_foreign {c : Char} (hc : Foreign c) (behind : List Char) : Cut (c :: behind) :=
  fun front _ _ _ _ h => at?_gap hc front h

theorem cut_text {id : Nat} (h : id < idBound) (behind : List Char) : Cut ((text id).toList ++ behind) := by
  obtain ⟨body, htext, -⟩ := (spells_text h).exists_body
  rw [htext]
  exact cut_open _

theorem Cut.at?_eq_none {behind : List Char} (h : Cut behind) {front : List Char} (hne : front ≠ [])
    (hfront : at? front = none) : at? (front ++ behind) = none := by
  apply Option.eq_none_iff_forall_ne_some.mpr
  intro found hfound
  obtain ⟨id, digits, rest⟩ := found
  obtain ⟨more, hmore, -⟩ := h front hne hfound
  rw [hfront] at hmore
  cases hmore

end Marker

/-! ## Sweeps with the same outcome -/

variable {σ : Type}

structure Sweep.Same (s t : Sweep σ) : Prop where
  text : s.text = t.text
  changed : s.changed = t.changed
  progress : s.progress = t.progress

namespace Sweep.Same

variable {s t u : Sweep σ}

theorem refl (s : Sweep σ) : s.Same s := ⟨rfl, rfl, rfl⟩

theorem symm (h : s.Same t) : t.Same s := ⟨h.text.symm, h.changed.symm, h.progress.symm⟩

theorem trans (h : s.Same t) (h' : t.Same u) : s.Same u :=
  ⟨h.text.trans h'.text, h.changed.trans h'.changed, h.progress.trans h'.progress⟩

end Sweep.Same

section
variable {expand : Nat → Progress σ → Option String × Progress σ} {xs ys : List Segment}

theorem Sweep.Same.behind (h : ∀ p, (sweepSegments expand xs p).Same (sweepSegments expand ys p)) (zs : List Segment)
    (p : Progress σ) : (sweepSegments expand (zs ++ xs) p).Same (sweepSegments expand (zs ++ ys) p) := by
  have hrest := h (sweepSegments expand zs p).progress
  have htext := hrest.text
  rw [sweepSegments_append, sweepSegments_append]
  constructor
  · simp only [Sweep.text, String.join_append] at htext ⊢
    rw [htext]
  · simp only [hrest.changed]
  · exact hrest.progress

variable (expand)

theorem sweepSegments_run (run : List Char) (segs : List Segment) (p : Progress σ) :
    (sweepSegments expand (Segment.ofRun run ++ segs) p).text =
        String.ofList run.reverse ++ (sweepSegments expand segs p).text ∧
      (sweepSegments expand (Segment.ofRun run ++ segs) p).changed = (sweepSegments expand segs p).changed ∧
      (sweepSegments expand (Segment.ofRun run ++ segs) p).progress = (sweepSegments expand segs p).progress := by
  cases run with
  | nil => exact ⟨by simp [Segment.ofRun], rfl, rfl⟩
  | cons c run => exact ⟨by simp [Segment.ofRun, sweepSegments_plain, Sweep.text], rfl, rfl⟩

/-- An open run may as well be closed. -/
theorem sweepSegments_scan_run (run cs : List Char) (p : Progress σ) :
    (sweepSegments expand (Segment.scan run cs) p).Same
      (sweepSegments expand (Segment.ofRun run ++ Segment.scan [] cs) p) := by
  match cs with
  | [] =>
    rw [Segment.scan_nil, Segment.scan_nil]
    exact (List.append_nil (Segment.ofRun run)).symm ▸ .refl _
  | c :: rest =>
    cases h : Marker.at? (c :: rest) with
    | none =>
      rw [Segment.scan_plain h, Segment.scan_plain h]
      have hlong := sweepSegments_scan_run (c :: run) rest p
      have hshort := Sweep.Same.behind (sweepSegments_scan_run [c] rest) (Segment.ofRun run) p
      refine hlong.trans (.trans ?_ hshort.symm)
      obtain ⟨htext, hchanged, hprogress⟩ := sweepSegments_run expand (c :: run) (Segment.scan [] rest) p
      obtain ⟨htext', hchanged', hprogress'⟩ :=
        sweepSegments_run expand run (Segment.ofRun [c] ++ Segment.scan [] rest) p
      obtain ⟨htext'', hchanged'', hprogress''⟩ := sweepSegments_run expand [c] (Segment.scan [] rest) p
      constructor
      · rw [htext, htext', htext'', ← String.append_assoc, ← String.ofList_append]
        simp
      · rw [hchanged, hchanged', hchanged'']
      · rw [hprogress, hprogress', hprogress'']
    | some found =>
      rw [Segment.scan_marker h, Segment.scan_marker h]
      exact .refl _
termination_by cs.length

/-- In front of a cut and behind it. -/
theorem sweepSegments_scan_cut {behind : List Char} (hcut : Marker.Cut behind) (run cs : List Char) (p : Progress σ) :
    (sweepSegments expand (Segment.scan run (cs ++ behind)) p).Same
      (sweepSegments expand (Segment.scan run cs ++ Segment.scan [] behind) p) := by
  induction run, cs using Segment.scan.induct generalizing p with
  | case1 run =>
    rw [Segment.scan_nil]
    exact sweepSegments_scan_run expand run behind p
  | case2 run c rest h ih =>
    have hnone := hcut.at?_eq_none (List.cons_ne_nil c rest) h
    rw [List.cons_append] at hnone ⊢
    rw [Segment.scan_plain hnone, Segment.scan_plain h]
    exact ih p
  | case3 run c rest id digits after h hlt ih =>
    have hassoc : ∀ (xs ys zs : List Segment) (m : Segment), xs ++ m :: ys ++ zs = xs ++ m :: (ys ++ zs) := by simp
    rw [Segment.scan_marker (Marker.at?_append h behind), Segment.scan_marker h, hassoc]
    exact Sweep.Same.behind (fun p => Sweep.Same.behind ih [.marker id _] p) (Segment.ofRun run) p

end

structure Sweep.Comes (s : Sweep σ) (text : String) (changed : Bool) (p : Progress σ) : Prop where
  text : s.text = text
  changed : s.changed = changed
  progress : s.progress = p

theorem Sweep.comes (s : Sweep σ) : s.Comes s.text s.changed s.progress := ⟨rfl, rfl, rfl⟩

namespace Registry

variable (reg : Registry σ) (tier : Tier)

section
variable {reg tier} {a a' b b' : String} {changed changed' : Bool} {p q r : Progress σ}

theorem sweeps_of_comes (h : (reg.sweep tier a p).Comes a' changed q) (count : Nat) :
    reg.sweeps tier (count + 1) a p = if changed then reg.sweeps tier count a' q else (a', q) := by
  rw [sweeps_succ, h.text, h.changed, h.progress]

/-- Texts with a cut between them are swept one after the other. -/
theorem sweep_cut (hcut : Marker.Cut b.toList) (ha : (reg.sweep tier a p).Comes a' changed q)
    (hb : (reg.sweep tier b q).Comes b' changed' r) :
    (reg.sweep tier (a ++ b) p).Comes (a' ++ b') (changed || changed') r := by
  have hsame := sweepSegments_scan_cut (reg.expand tier []) hcut [] a.toList p
  rw [← String.toList_append, sweepSegments_append] at hsame
  obtain ⟨rfl, rfl, rfl⟩ := ha
  obtain ⟨rfl, rfl, rfl⟩ := hb
  exact ⟨hsame.text.trans String.join_append, hsame.changed, hsame.progress⟩

/-- A marker and what stands around it are swept one after the other. -/
theorem sweep_around {id : Nat} (hid : id < Marker.idBound) {found : Option String} {q' : Progress σ}
    (ha : (reg.sweep tier a p).Comes a' changed q) (he : reg.expand tier [] id q = (found, q'))
    (hb : (reg.sweep tier b q').Comes b' changed' r) : (reg.sweep tier (a ++ Marker.text id ++ b) p).Comes
      (a' ++ found.getD (Marker.text id) ++ b') (changed || (found.isSome || changed')) r := by
  have hcut : Marker.Cut (Marker.text id ++ b).toList := by
    rw [String.toList_append]
    exact Marker.cut_text hid _
  have hmarker : (reg.sweep tier (Marker.text id ++ b) q).Comes (found.getD (Marker.text id) ++ b')
      (found.isSome || changed') r := by
    obtain ⟨rfl, rfl, rfl⟩ := hb
    rw [sweep, segments_marker hid]
    cases found with
    | none =>
      rw [sweepSegments_none he]
      exact ⟨String.join_cons, rfl, rfl⟩
    | some text =>
      rw [sweepSegments_some he]
      exact ⟨String.join_cons, rfl, rfl⟩
  rw [String.append_assoc, String.append_assoc]
  exact sweep_cut hcut ha hmarker

theorem sweep_gap {gap : String} (hgap : Marker.Gap gap) (ha : (reg.sweep tier a p).Comes a' changed q)
    (hb : (reg.sweep tier b q).Comes b' changed' r) :
    (reg.sweep tier (a ++ gap ++ b) p).Comes (a' ++ gap ++ b') (changed || changed') r := by
  obtain ⟨c, hchars, hc⟩ := hgap
  have hcut : Marker.Cut (gap ++ b).toList := by
    rw [String.toList_append, hchars]
    exact Marker.cut_foreign hc _
  have hopen : (reg.sweep tier (gap ++ b) q).Same
      (sweepSegments (reg.expand tier []) (Segment.ofRun [c] ++ segments b) q) := by
    have hplain : Marker.at? (c :: b.toList) = none := Marker.at?_eq_none_of_ne (Marker.ne_open hc) _
    rw [sweep, segments, String.toList_append, hchars, List.singleton_append, Segment.scan_plain hplain]
    exact sweepSegments_scan_run _ [c] b.toList q
  have hone : String.ofList [c].reverse = gap := String.toList_injective (by simp [hchars])
  obtain ⟨htext, hchanged, hprogress⟩ := sweepSegments_run (reg.expand tier []) [c] (segments b) q
  have hbehind : (reg.sweep tier (gap ++ b) q).Comes (gap ++ b') changed' r := by
    refine ⟨hopen.text.trans (htext.trans ?_), hopen.changed.trans (hchanged.trans hb.changed),
      hopen.progress.trans (hprogress.trans hb.progress)⟩
    rw [hone, ← hb.text]
    rfl
  rw [String.append_assoc, String.append_assoc]
  exact sweep_cut hcut ha hbehind

end

/-! ## Parts -/

def sweepParts : List String → Progress σ → List String × Bool × Progress σ
  | [], p => ([], false, p)
  | part :: rest, p =>
    let s := reg.sweep tier part p
    let t := sweepParts rest s.progress
    (s.text :: t.1, s.changed || t.2.1, t.2.2)

def sweepsParts : (count : Nat) → List String → Progress σ → List String × Progress σ
  | 0, parts, p => (parts, p)
  | count + 1, parts, p =>
    let s := reg.sweepParts tier parts p
    if s.2.1 then sweepsParts count s.1 s.2.2 else (s.1, s.2.2)

/-- What becomes of each of some texts when they are resolved as one. -/
def resolveParts (parts : List String) (imports : ImportScope) (outside : σ) : List String × Progress σ :=
  let mid := reg.sweepsParts .normal maxSweeps parts { imports, outside }
  reg.sweepsParts .last maxSweeps mid.1 mid.2

theorem sweep_empty (p : Progress σ) : (reg.sweep tier "" p).Comes "" false p := by
  rw [sweep, segments_empty]
  exact ⟨rfl, rfl, rfl⟩

/-- A marker in the middle of three parts. -/
theorem sweepParts_around {id : Nat} (hid : id < Marker.idBound) {a a' b b' : String} {changed changed' : Bool}
    {found : Option String} {p q q' r : Progress σ} (ha : (reg.sweep tier a p).Comes a' changed q)
    (he : reg.expand tier [] id q = (found, q')) (hb : (reg.sweep tier b q').Comes b' changed' r) :
    reg.sweepParts tier [a, Marker.text id, b] p =
      ([a', found.getD (Marker.text id), b'], changed || (found.isSome || changed'), r) := by
  have hmarker := sweep_around hid (reg.sweep_empty tier q) he (reg.sweep_empty tier q')
  simp only [String.empty_append, String.append_empty, Bool.false_or, Bool.or_false] at hmarker
  simp only [sweepParts, ha.text, ha.changed, ha.progress, hmarker.text, hmarker.changed, hmarker.progress, hb.text,
    hb.changed, hb.progress, Bool.or_false]

theorem sweep_of_parts {reg : Registry σ} {tier : Tier} {id : Nat} (hid : id < Marker.idBound)
    {a a' between b b' : String} {changed : Bool} {p p' : Progress σ}
    (h : reg.sweepParts tier [a, Marker.text id, b] p = ([a', between, b'], changed, p')) :
    (reg.sweep tier (a ++ Marker.text id ++ b) p).Comes (a' ++ between ++ b') changed p' := by
  have ha := (reg.sweep tier a p).comes
  have hb := (reg.sweep tier b (reg.expand tier [] id (reg.sweep tier a p).progress).2).comes
  have hparts := reg.sweepParts_around tier hid ha rfl hb
  rw [h] at hparts
  injection hparts with htexts hrest
  injection hrest with hchanged hprogress
  simp only [List.cons.injEq, and_true] at htexts
  obtain ⟨rfl, rfl, rfl⟩ := htexts
  rw [hchanged, hprogress]
  exact sweep_around hid ha rfl hb

theorem sweepParts_ne_nil {part : String} {rest : List String} (p : Progress σ) :
    (reg.sweepParts tier (part :: rest) p).1 ≠ [] := List.cons_ne_nil _ _

theorem sweep_intercalate {gap : String} (hgap : Marker.Gap gap) (parts : List String) : ∀ p : Progress σ,
    (reg.sweep tier (gap.intercalate parts) p).Comes (gap.intercalate (reg.sweepParts tier parts p).1)
      (reg.sweepParts tier parts p).2.1 (reg.sweepParts tier parts p).2.2 := by
  induction parts with
  | nil =>
    intro p
    rw [String.intercalate_nil]
    exact reg.sweep_empty tier p
  | cons part rest ih =>
    intro p
    cases rest with
    | nil => exact ⟨by simp [sweepParts], by simp [sweepParts], by simp [sweepParts]⟩
    | cons next rest =>
      have hboth := sweep_gap hgap (reg.sweep tier part p).comes (ih (reg.sweep tier part p).progress)
      rw [← String.intercalate_cons_of_ne_nil (reg.sweepParts_ne_nil tier _)] at hboth
      rw [String.intercalate_cons_of_ne_nil (List.cons_ne_nil next rest)]
      exact hboth

theorem sweeps_intercalate {gap : String} (hgap : Marker.Gap gap) (count : Nat) :
    ∀ (parts : List String) (p : Progress σ), reg.sweeps tier count (gap.intercalate parts) p =
      (gap.intercalate (reg.sweepsParts tier count parts p).1, (reg.sweepsParts tier count parts p).2) := by
  induction count with
  | zero => exact fun parts p => rfl
  | succ count ih =>
    intro parts p
    rw [sweeps_of_comes (reg.sweep_intercalate tier hgap parts p), sweepsParts]
    split
    · exact ih _ _
    · rfl

/-- Parts of a text that gaps keep apart are resolved each at its place. -/
theorem resolveText_intercalate {gap : String} (hgap : Marker.Gap gap) (parts : List String) (imports : ImportScope)
    (outside : σ) : reg.resolveText (gap.intercalate parts) imports outside =
      ⟨gap.intercalate (reg.resolveParts parts imports outside).1, (reg.resolveParts parts imports outside).2⟩ := by
  rw [resolveText_eq, normalTier, sweeps_intercalate _ _ hgap]
  simp only [sweeps_intercalate _ _ hgap]
  rfl

/-- Whatever the progress, as long as the outside state is in `ok`, a sweep makes `b` of `a`. -/
def Turns (ok : σ → Prop) (a b : String) : Prop :=
  ∀ p : Progress σ, ok p.outside → (reg.sweep tier a p).text = b

section
variable {reg tier} {ok : σ → Prop}
  (hok : ∀ text (p : Progress σ), ok p.outside → ok (reg.sweep tier text p).progress.outside)
include hok

theorem sweepParts_turns {part turned : String} (h : reg.Turns tier ok part turned) (front behind : String)
    {p : Progress σ} (hp : ok p.outside) : ∃ front' behind' changed q,
      reg.sweepParts tier [front, part, behind] p = ([front', turned, behind'], changed, q) ∧ ok q.outside := by
  let first := reg.sweep tier front p
  let second := reg.sweep tier part first.progress
  let third := reg.sweep tier behind second.progress
  have hfirst : ok first.progress.outside := hok front p hp
  have hturned : second.text = turned := h _ hfirst
  have hthird : ok third.progress.outside := hok behind _ (hok part _ hfirst)
  have hparts : reg.sweepParts tier [front, part, behind] p =
      ([first.text, second.text, third.text], first.changed || (second.changed || (third.changed || false)),
        third.progress) := rfl
  rw [hturned] at hparts
  exact ⟨_, _, _, _, hparts, hthird⟩

/-- The part in the middle becomes what a sweep makes of it, if further sweeps leave that as it is. -/
theorem sweepsParts_turns {part turned : String} (hfirst : reg.Turns tier ok part turned)
    (hnext : reg.Turns tier ok turned turned) (count : Nat) : ∀ (front behind : String) (p : Progress σ), ok p.outside →
      ∃ front' behind' q, reg.sweepsParts tier (count + 1) [front, part, behind] p = ([front', turned, behind'], q) ∧
        ok q.outside := by
  induction count generalizing part with
  | zero =>
    intro front behind p hp
    obtain ⟨front', behind', changed, q, hparts, hq⟩ := sweepParts_turns hok hfirst front behind hp
    refine ⟨front', behind', q, ?_, hq⟩
    rw [sweepsParts, hparts]
    exact ite_self _
  | succ count ih =>
    intro front behind p hp
    obtain ⟨front', behind', changed, q, hparts, hq⟩ := sweepParts_turns hok hfirst front behind hp
    rw [sweepsParts, hparts]
    cases changed with
    | false => exact ⟨front', behind', q, rfl, hq⟩
    | true => exact ih hnext front' behind' q hq

end

/-- A part that the normal tier turns into one that stays becomes that when the parts around it are resolved too. -/
theorem resolveParts_turns {reg : Registry σ} {ok : σ → Prop} {part turned : String}
    (hok : ∀ tier text (p : Progress σ), ok p.outside → ok (reg.sweep tier text p).progress.outside)
    (hfirst : reg.Turns .normal ok part turned) (hstays : ∀ tier, reg.Turns tier ok turned turned)
    (front behind : String) (imports : ImportScope) {outside : σ} (houtside : ok outside) :
    ∃ front' behind', (reg.resolveParts [front, part, behind] imports outside).1 = [front', turned, behind'] := by
  obtain ⟨front', behind', q, hmid, hq⟩ :=
    sweepsParts_turns (hok .normal) hfirst (hstays .normal) 63 front behind { imports, outside } houtside
  obtain ⟨front'', behind'', q', hlast, -⟩ :=
    sweepsParts_turns (hok .last) (hstays .last) (hstays .last) 63 front' behind' q hq
  refine ⟨front'', behind'', ?_⟩
  unfold resolveParts maxSweeps
  rw [hmid]
  simp only [hlast]

end Registry

end Pipewright
