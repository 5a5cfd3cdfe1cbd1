import Mathlib.Data.List.Nodup
import Mathlib.Data.List.Perm.Subperm
import Pipewright.Proofs.Segments
import Pipewright.Scope.Builder
import Pipewright.Text

/-!
# Fresh names are fresh

The candidates of a name are pairwise distinct, and there is one more of them
than there are taken names, so one of them is free, and the first such is the
fresh name. A numbered name ends in a digit.
-/

namespace Pipewright

theorem numbered_inj {name : String} {j k : Nat} (h : numbered name j = numbered name k) : j = k := by
  have hdigits : (toString j).toList = (toString k).toList := by
    simpa [numbered] using congrArg String.toList h
  rw [Marker.toList_toString, Marker.toList_toString] at hdigits
  have hvalue := congrArg (Nat.ofDigitChars 10 · 0) hdigits
  simpa [Nat.ofDigitChars_ten_toDigits] using hvalue

theorem toList_numbered (name : String) (k : Nat) :
    ∃ digits, digits ≠ [] ∧ (∀ d ∈ digits, d.isDigit = true) ∧ (numbered name k).toList = name.toList ++ digits := by
  refine ⟨(toString k).toList, ?_, fun d hd => Marker.isDigit_of_mem hd, by simp [numbered]⟩
  rw [Marker.toList_toString]
  exact Nat.toDigits_ne_nil

theorem numbered_ne (name : String) (k : Nat) : numbered name k ≠ name := by
  obtain ⟨digits, hne, -, hlist⟩ := toList_numbered name k
  intro h
  rw [h] at hlist
  exact hne (by simpa using hlist)

/-- A numbered name ends in a digit. -/
theorem isDigit_getLast_numbered (name : String) (k : Nat) :
    ∃ d, (numbered name k).toList.getLast? = some d ∧ d.isDigit = true := by
  obtain ⟨digits, hne, hdigits, hlist⟩ := toList_numbered name k
  refine ⟨digits.getLast hne, ?_, hdigits _ (List.getLast_mem hne)⟩
  rw [hlist, List.getLast?_append_of_ne_nil _ hne, List.getLast?_eq_getLast_of_ne_nil hne]

/-- One of the numbered names is free if the name itself is taken. -/
theorem exists_numbered_not_mem {taken : List String} {name : String} (h : name ∈ taken) :
    ∃ k ∈ (List.range taken.length).map (· + 1), numbered name k ∉ taken := by
  by_contra hnone
  have hall : ∀ k ∈ (List.range taken.length).map (· + 1), numbered name k ∈ taken :=
    fun k hk => Classical.not_not.mp fun hfree => hnone ⟨k, hk, hfree⟩
  let candidates := name :: ((List.range taken.length).map (· + 1)).map (numbered name)
  have hsub : candidates ⊆ taken := by
    intro x hx
    rcases List.mem_cons.mp hx with rfl | hx
    · exact h
    · obtain ⟨k, hk, rfl⟩ := List.mem_map.mp hx
      exact hall k hk
  have hnodup : candidates.Nodup := by
    refine List.nodup_cons.mpr ⟨fun hx => ?_, ?_⟩
    · obtain ⟨k, -, hk⟩ := List.mem_map.mp hx
      exact numbered_ne name k hk
    · have hsucc : ((List.range taken.length).map (· + 1)).Nodup :=
        List.nodup_range.map (fun j k h => Nat.succ.inj h)
      exact hsucc.map fun j k h => numbered_inj h
  have hlength := (List.subperm_of_subset hnodup hsub).length_le
  simp only [candidates, List.length_cons, List.length_map, List.length_range] at hlength
  omega

inductive FirstFree (free : String → Prop) (name : String) : String → Prop
  | itself (h : free name) : FirstFree free name name
  | withNumber (k : Nat) (htaken : ¬ free name) (hpos : 1 ≤ k) (hfree : free (numbered name k))
      (hfirst : ∀ j, 1 ≤ j → j < k → ¬ free (numbered name j)) : FirstFree free name (numbered name k)

theorem FirstFree.free {free : String → Prop} {name found : String} (h : FirstFree free name found) : free found := by
  cases h with
  | itself hfree => exact hfree
  | withNumber _ _ _ hfree _ => exact hfree

/-- The number behind a taken name is the least free one, and there are enough candidates to find it. -/
theorem freshName_of_mem {taken : List String} {name : String} (h : name ∈ taken) : ∃ k, 1 ≤ k ∧ k ≤ taken.length ∧
    freshName taken name = numbered name k ∧ numbered name k ∉ taken ∧
    ∀ j, 1 ≤ j → j < k → numbered name j ∈ taken := by
  unfold freshName
  rw [if_pos (by simpa using h)]
  cases hfind : ((List.range taken.length).map (· + 1)).find? fun k => !taken.contains (numbered name k) with
  | none =>
    obtain ⟨k, hk, hfree⟩ := exists_numbered_not_mem h
    have := List.find?_eq_none.mp hfind k hk
    simp [hfree] at this
  | some k =>
    obtain ⟨hfree, i, hi, hget, hbefore⟩ := List.find?_eq_some_iff_getElem.mp hfind
    simp only [List.length_map, List.length_range] at hi
    simp only [List.getElem_map, List.getElem_range] at hget hbefore
    refine ⟨k, by omega, by omega, rfl, by simpa using hfree, ?_⟩
    intro j hpos hlt
    have htaken := hbefore (j - 1) (by omega)
    rw [Nat.sub_add_cancel hpos] at htaken
    simpa using htaken

theorem freshName_of_not_mem {taken : List String} {name : String} (h : name ∉ taken) : freshName taken name = name :=
  if_neg (by simpa using h)

theorem firstFree_freshName (taken : List String) (name : String) :
    FirstFree (· ∉ taken) name (freshName taken name) := by
  by_cases h : name ∈ taken
  · obtain ⟨k, hpos, -, hname, hfree, hfirst⟩ := freshName_of_mem h
    rw [hname]
    apply FirstFree.withNumber k (not_not_intro h) hpos hfree
    intro j hj hlt
    exact not_not_intro (hfirst j hj hlt)
  · rw [freshName_of_not_mem h]
    exact .itself h

theorem freshName_not_mem (taken : List String) (name : String) : freshName taken name ∉ taken := by
  by_cases h : name ∈ taken
  · obtain ⟨k, -, -, hname, hfree, -⟩ := freshName_of_mem h
    exact hname ▸ hfree
  · exact (freshName_of_not_mem h).symm ▸ h

/-- A fresh name is the name itself or a numbered one. -/
theorem freshName_cases (taken : List String) (name : String) :
    freshName taken name = name ∨ ∃ k, freshName taken name = numbered name k := by
  unfold freshName
  split
  · exact .inr ⟨_, rfl⟩
  · exact .inl rfl

end Pipewright
