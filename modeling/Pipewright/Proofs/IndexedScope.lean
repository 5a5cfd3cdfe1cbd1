import Mathlib.Data.List.Nodup
import Pipewright.Catalog
import Pipewright.Proofs.ImportScope

/-!
# An import scope with an index

A scope goes through its list to find out whether it holds a type. One that keeps a
hashed index beside the list answers every call alike (`IndexedScope.Mirrors.reports_eq`).
What it forgets leaves the index as it leaves the list, since no two types of the list
are equal, so a rollback gives back the scope of its start as far as any call can tell
(`IndexedScope.represents`).
-/

namespace Pipewright

/-! ## Hashing -/

namespace Ty

mutual

def digest : Ty → UInt64
  | mk n p g _ _ _ => mixHash (hash n) (mixHash (hash p) (digestAll g))

def digestAll : List Ty → UInt64
  | [] => 7
  | t :: ts => mixHash t.digest (digestAll ts)

end

instance : Hashable Ty := ⟨digest⟩

theorem digest_eq_of_same : ∀ t u : Ty, same t u = true → t.digest = u.digest
  | mk n p g _ _ _, mk n' p' g' _ _ _, h => by
    simp only [same, Bool.and_eq_true, beq_iff_eq] at h
    obtain ⟨⟨rfl, rfl⟩, hg⟩ := h
    rw [digest, digest, digestAll_eq g g' hg]
where
  digestAll_eq : ∀ ts us : List Ty, sameAll ts us = true → digestAll ts = digestAll us
    | [], [], _ => rfl
    | t :: ts, u :: us, h => by
      simp only [sameAll, Bool.and_eq_true] at h
      rw [digestAll, digestAll, digest_eq_of_same t u h.1, digestAll_eq ts us h.2]

instance : LawfulHashable Ty where
  hash_eq t u := digest_eq_of_same t u

end Ty

/-! ## Calls -/

inductive ImportCall where
  | importType (t : Ty)
  | importValue (v : Value)
  | importValues (values : List Value)
  | contains (t : Ty)
  | truncate (count : Nat)

def ImportCall.Spares (count : Nat) : ImportCall → Prop
  | truncate left => count ≤ left
  | _ => True

namespace ImportScope

def call (s : ImportScope) : ImportCall → Option Bool × ImportScope
  | .importType t => (some (s.lacks t), s.register t)
  | .importValue v => (none, s.registerValue v)
  | .importValues values => (none, s.registerValues values)
  | .contains t => (some (s.contains t), s)
  | .truncate count => (none, s.truncate count)

def after (s : ImportScope) (calls : List ImportCall) : ImportScope :=
  calls.foldl (fun s c => (s.call c).2) s

/-- What calls can tell of a scope: the answer to each of them and the types there are after it. -/
def reports (s : ImportScope) : List ImportCall → List (Option Bool × List Ty)
  | [] => []
  | c :: calls => ((s.call c).1, (s.call c).2.types) :: (s.call c).2.reports calls

namespace Extends

variable {s t : ImportScope}

theorem truncate (h : s.Extends t) {count : Nat} (hc : s.size ≤ count) : s.Extends (t.truncate count) := by
  obtain ⟨new, ht, honce, hlacks⟩ := h
  refine ⟨new.take (count - s.size), ?_, honce.take, fun u hu => hlacks u (List.mem_of_mem_take hu)⟩
  rw [ImportScope.truncate, ht, List.take_append, List.take_of_length_le hc]
  rfl

/-- What a scope without repetitions forgets is not among what it keeps. -/
theorem of_truncate (h : empty.Extends t) (count : Nat) : (t.truncate count).Extends t := by
  obtain ⟨new, ht, honce, -⟩ := h
  obtain rfl : t.types = new := ht
  rw [← List.take_append_drop count t.types, List.pairwise_append] at honce
  obtain ⟨-, hdrop, hcross⟩ := honce
  refine ⟨t.types.drop count, (List.take_append_drop count t.types).symm, hdrop, fun u hu => ?_⟩
  rw [List.contains_eq_any_beq, List.any_eq_false]
  intro a ha
  simpa using hcross a ha u hu

theorem call (h : s.Extends t) {c : ImportCall} (hc : c.Spares s.size) : s.Extends (t.call c).2 := by
  cases c with
  | importType u => exact h.trans (.register t u)
  | importValue v => exact h.trans (.registerAll t v.imports)
  | importValues values => exact h.trans (.registerAll t _)
  | contains u => exact h
  | truncate count => exact h.truncate hc

theorem after (h : s.Extends t) {calls : List ImportCall} (hc : ∀ c ∈ calls, c.Spares s.size) :
    s.Extends (t.after calls) := by
  induction calls generalizing t with
  | nil => exact h
  | cons c calls ih =>
    obtain ⟨hc, hrest⟩ := List.forall_mem_cons.mp hc
    exact ih (h.call hc) hrest

end Extends

end ImportScope

/-! ## The index -/

structure IndexedScope where
  order : List Ty
  seen : Std.HashSet Ty

namespace IndexedScope

def empty : IndexedScope := ⟨[], ∅⟩

def contains (s : IndexedScope) (t : Ty) : Bool :=
  s.seen.contains t.importTarget

def importType (s : IndexedScope) (t : Ty) : Bool × IndexedScope :=
  if !t.shouldImport then (false, s)
  else if s.seen.contains t.importTarget then (false, s)
  else (true, ⟨s.order ++ [t.importTarget], s.seen.insert t.importTarget⟩)

def importValue (s : IndexedScope) (v : Value) : IndexedScope :=
  v.imports.foldl (fun s t => (s.importType t).2) s

def importValues (s : IndexedScope) (values : List Value) : IndexedScope :=
  values.foldl importValue s

def truncate (s : IndexedScope) (count : Nat) : IndexedScope :=
  ⟨s.order.take count, (s.order.drop count).foldl Std.HashSet.erase s.seen⟩

def call (s : IndexedScope) : ImportCall → Option Bool × IndexedScope
  | .importType t => (some (s.importType t).1, (s.importType t).2)
  | .importValue v => (none, s.importValue v)
  | .importValues values => (none, s.importValues values)
  | .contains t => (some (s.contains t), s)
  | .truncate count => (none, s.truncate count)

def after (s : IndexedScope) (calls : List ImportCall) : IndexedScope :=
  calls.foldl (fun s c => (s.call c).2) s

def reports (s : IndexedScope) : List ImportCall → List (Option Bool × List Ty)
  | [] => []
  | c :: calls => ((s.call c).1, (s.call c).2.order) :: (s.call c).2.reports calls

theorem contains_foldl_erase (types : List Ty) (seen : Std.HashSet Ty) (t : Ty) :
    (types.foldl Std.HashSet.erase seen).contains t = (seen.contains t && !types.contains t) := by
  induction types generalizing seen with
  | nil => simp
  | cons u types ih =>
    rw [List.foldl_cons, ih, Std.HashSet.contains_erase, List.contains_cons, BEq.comm (a := t)]
    cases u == t <;> simp

structure Mirrors (s : IndexedScope) (plain : ImportScope) : Prop where
  order : s.order = plain.types
  contains : ∀ t, s.contains t = plain.contains t
  once : ImportScope.empty.Extends plain

namespace Mirrors

variable {s : IndexedScope} {plain : ImportScope}

theorem empty : IndexedScope.empty.Mirrors .empty :=
  ⟨rfl, fun _ => Std.HashSet.contains_empty, .refl _⟩

theorem importType_fst (h : s.Mirrors plain) (t : Ty) : (s.importType t).1 = plain.lacks t := by
  have hseen : s.seen.contains t.importTarget = plain.contains t := h.contains t
  rw [importType, ImportScope.lacks, hseen]
  cases t.shouldImport <;> cases plain.contains t <;> rfl

theorem importType (h : s.Mirrors plain) (t : Ty) : (s.importType t).2.Mirrors (plain.register t) := by
  have hlacks := h.importType_fst t
  unfold IndexedScope.importType at hlacks ⊢
  unfold ImportScope.register
  rw [← hlacks]
  split
  · exact h
  split
  · exact h
  · rename_i hneeds hnew
    refine ⟨by rw [h.order]; rfl, fun u => ?_, ?_⟩
    · have hu : s.seen.contains u.importTarget = plain.contains u := h.contains u
      have hindex : (s.seen.insert t.importTarget).contains u.importTarget =
          (plain.contains u || u.importTarget == t.importTarget) := by
        rw [Std.HashSet.contains_insert, hu, Bool.or_comm, BEq.comm (a := t.importTarget)]
      change (s.seen.insert t.importTarget).contains u.importTarget =
        (plain.types ++ [t.importTarget]).contains u.importTarget
      rw [hindex, List.contains_append]
      simp [ImportScope.contains]
    · have hregister : plain.register t = ⟨plain.types ++ [t.importTarget]⟩ := by
        rw [ImportScope.register, ← hlacks, if_neg hneeds, if_neg hnew]
        rfl
      exact hregister ▸ h.once.trans (.register plain t)

theorem importAll (h : s.Mirrors plain) (types : List Ty) :
    (types.foldl (fun s t => (s.importType t).2) s).Mirrors (plain.registerAll types) := by
  induction types generalizing s plain with
  | nil => exact h
  | cons t types ih => exact ih (h.importType t)

theorem importValues (h : s.Mirrors plain) (values : List Value) :
    (s.importValues values).Mirrors (plain.registerValues values) := by
  induction values generalizing s plain with
  | nil => exact h
  | cons v values ih =>
    have hrest := ih (h.importAll v.imports)
    rw [ImportScope.registerValues, List.flatMap_cons, ImportScope.registerAll, List.foldl_append]
    exact hrest

theorem truncate (h : s.Mirrors plain) (count : Nat) : (s.truncate count).Mirrors (plain.truncate count) := by
  refine ⟨by rw [IndexedScope.truncate, h.order]; rfl, fun t => ?_, h.once.truncate (Nat.zero_le count)⟩
  have hdrop : plain.types.drop (plain.truncate count).size = plain.types.drop count := by
    rw [ImportScope.size, ImportScope.truncate, List.length_take, List.drop_eq_drop_iff]
    simp
  have ht : s.seen.contains t.importTarget = plain.contains t := h.contains t
  change ((s.order.drop count).foldl Std.HashSet.erase s.seen).contains t.importTarget = _
  rw [contains_foldl_erase, ht, (ImportScope.Extends.of_truncate h.once count).contains_eq t, hdrop, h.order]

theorem call (h : s.Mirrors plain) (c : ImportCall) :
    (s.call c).1 = (plain.call c).1 ∧ (s.call c).2.Mirrors (plain.call c).2 := by
  cases c with
  | importType t => exact ⟨congrArg some (h.importType_fst t), h.importType t⟩
  | importValue v => exact ⟨rfl, h.importAll v.imports⟩
  | importValues values => exact ⟨rfl, h.importValues values⟩
  | contains t => exact ⟨congrArg some (h.contains t), h⟩
  | truncate count => exact ⟨rfl, h.truncate count⟩

theorem after (h : s.Mirrors plain) (calls : List ImportCall) : (s.after calls).Mirrors (plain.after calls) := by
  induction calls generalizing s plain with
  | nil => exact h
  | cons c calls ih => exact ih (h.call c).2

theorem reports_eq (h : s.Mirrors plain) (calls : List ImportCall) : s.reports calls = plain.reports calls := by
  induction calls generalizing s plain with
  | nil => rfl
  | cons c calls ih =>
    obtain ⟨hanswer, hnext⟩ := h.call c
    rw [reports, ImportScope.reports, hanswer, hnext.order, ih hnext]

end Mirrors

/-- After any calls a scope with an index reports what one without it reports. No two of its types are equal, it
contains a type just if the import target is equal to one that is stored, and a registration answers whether it has
added that target at the end. As long as no call forgets one of the types that were there, they stay at the front;
forgetting all that has come behind them then leaves a scope that no call tells from the one before. -/
theorem represents (calls : List ImportCall) :
    let s := empty.after calls
    s.order = (ImportScope.empty.after calls).types ∧
      (∀ later, s.reports later = (ImportScope.empty.after calls).reports later) ∧
      (s.order.Pairwise fun a b => (b == a) = false) ∧
      (∀ t, s.contains t = true ↔ ∃ u ∈ s.order, (u == t.importTarget) = true) ∧
      (∀ t, (s.importType t).1 = (t.shouldImport && !s.contains t) ∧
        (s.importType t).2.order = s.order ++ if (s.importType t).1 then [t.importTarget] else []) ∧
      ∀ more, (∀ c ∈ more, c.Spares s.order.length) → s.order <+: (s.after more).order ∧
        ∀ later, ((s.after more).truncate s.order.length).reports later = s.reports later := by
  intro s
  have hs : s.Mirrors (ImportScope.empty.after calls) := Mirrors.empty.after calls
  generalize ImportScope.empty.after calls = plain at hs
  have horder := hs.order
  refine ⟨horder, hs.reports_eq, ?_, fun t => ?_, fun t => ⟨?_, ?_⟩, fun more hmore => ?_⟩
  · obtain ⟨new, hnew, honce, -⟩ := hs.once
    obtain rfl : plain.types = new := hnew
    exact horder ▸ honce
  · rw [hs.contains, ImportScope.contains, List.contains_eq_any_beq, List.any_eq_true, horder]
    simp only [BEq.comm (a := t.importTarget)]
  · rw [hs.importType_fst, ImportScope.lacks, hs.contains]
  · rw [(hs.importType t).order, hs.importType_fst, horder, ImportScope.register]
    split <;> simp
  · have hsize : s.order.length = plain.size := congrArg List.length horder
    rw [hsize] at hmore ⊢
    have hmirrors := hs.after more
    have hextends := (ImportScope.Extends.refl plain).after hmore
    refine ⟨?_, fun later => ?_⟩
    · rw [horder, hmirrors.order]
      exact hextends.isPrefix
    · have hback := hmirrors.truncate plain.size
      rw [ImportScope.truncate_of_prefix hextends.isPrefix] at hback
      rw [hback.reports_eq, hs.reports_eq]

/-- A value with a type that is there and one that is not, and an attempt inside that is taken back. -/
theorem represents_nested :
    let s := empty.after [.importType Catalog.OpenCv.mat, .importType Catalog.OpenCv.size]
    let more : List ImportCall := [.importValue (Catalog.OpenCv.constant "RETR_LIST"), .importType Catalog.OpenCv.mat,
      .importType Catalog.OpenCv.rect, .truncate 3, .importValues [.new Catalog.OpenCv.rect "r"]]
    s.order.length = 2 ∧ (∀ c ∈ more, c.Spares 2) ∧ s.contains Catalog.OpenCv.imgproc = false ∧
      (s.importType Catalog.OpenCv.imgproc).1 = true ∧
      ∀ later, ((s.after more).truncate 2).reports later = s.reports later := by
  intro s more
  obtain ⟨horder, -, -, hcontains, hanswers, hrollback⟩ :=
    represents [.importType Catalog.OpenCv.mat, .importType Catalog.OpenCv.size]
  have hlength : s.order.length = 2 := (congrArg List.length horder).trans rfl
  have hmore : ∀ c ∈ more, c.Spares 2 := by simp [more, ImportCall.Spares]
  have hnew : s.contains Catalog.OpenCv.imgproc = false := by
    refine Bool.eq_false_iff.mpr fun h => ?_
    obtain ⟨u, hu, hequal⟩ := (hcontains Catalog.OpenCv.imgproc).mp h
    rw [horder] at hu
    revert u
    decide
  refine ⟨hlength, hmore, hnew, ?_, ?_⟩
  · rw [(hanswers Catalog.OpenCv.imgproc).1, hnew]
    rfl
  · have hback := (hrollback more (hlength.symm ▸ hmore)).2
    rw [hlength] at hback
    exact hback

end IndexedScope

end Pipewright
