/-!
# Descents

A descent enters one key after another and never one that it is inside already.
The number of keys it is not inside falls with every step, so it ends.
-/

namespace Pipewright

def remaining (keys entered : List Nat) : Nat :=
  keys.countP fun key => !entered.contains key

theorem remaining_cons (k : Nat) (keys entered : List Nat) :
    remaining (k :: keys) entered = remaining keys entered + if entered.contains k then 0 else 1 := by
  unfold remaining
  rw [List.countP_cons]
  cases entered.contains k <;> rfl

theorem remaining_enter_le (keys entered : List Nat) (key : Nat) :
    remaining keys (key :: entered) ≤ remaining keys entered :=
  List.countP_mono_left fun k _ hk => by
    simp only [List.contains_cons, Bool.not_eq_true', Bool.or_eq_false_iff] at hk ⊢
    exact hk.2

theorem remaining_enter_lt {keys entered : List Nat} {key : Nat} (hmem : key ∈ keys)
    (hnew : entered.contains key = false) : remaining keys (key :: entered) < remaining keys entered := by
  induction keys with
  | nil => cases hmem
  | cons k keys ih =>
    rw [remaining_cons, remaining_cons]
    have hle := remaining_enter_le keys entered key
    by_cases hk : k = key
    · rw [hk, hnew]
      simp only [List.contains_cons, BEq.rfl, Bool.true_or, if_true, Bool.false_eq_true, if_false]
      omega
    · have hlt := ih ((List.mem_cons.mp hmem).resolve_left (Ne.symm hk))
      simp only [List.contains_cons, beq_eq_false_iff_ne.mpr hk, Bool.false_or]
      omega

end Pipewright
