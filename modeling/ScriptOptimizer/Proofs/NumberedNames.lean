import Mathlib.Data.List.Nodup
import Mathlib.Data.Nat.Nth
import Mathlib.Data.Set.Finite.Basic
import ScriptOptimizer.Emission.State
import ScriptOptimizer.Proofs.OperandText
import ScriptOptimizer.Scope.Output

/-!
# Numbered names

A numbered name tells its name and its number. Among more numbered names than there are names taken, one
is free, so the search for a free one ends with the least free number. The names that one name gets, one
after the other, depend on the names that the script spells and on nothing else.
-/

namespace ScriptOptimizer

open IR (toDigits_inj)

theorem toList_numbered (name : String) (k : Nat) :
    (numbered name k).toList = name.toList ++ '$' :: Nat.toDigits 10 k := by
  have hk : (toString k).toList = Nat.toDigits 10 k := Nat.toList_repr
  rw [← hk]
  simp only [numbered, String.toList_append, List.append_assoc]
  rfl

/-- A numbered name tells its name and its number: the number is what follows the last `$`. -/
theorem numbered_inj {a b : String} {j k : Nat} (h : numbered a j = numbered b k) : a = b ∧ j = k := by
  have hsplit (name : String) (k : Nat) :
      (numbered name k).toList.reverse.takeWhile Char.isDigit = (Nat.toDigits 10 k).reverse ∧
      (numbered name k).toList.reverse.dropWhile Char.isDigit = '$' :: name.toList.reverse := by
    rw [toList_numbered, List.reverse_append, List.reverse_cons, List.append_assoc]
    exact Number.takeWhile_digits
      (fun c hc => Number.allDigits_decimalDigits k c (List.mem_reverse.mp hc)) (by simp)
  have ha := hsplit a j
  rw [h, (hsplit b k).1, (hsplit b k).2] at ha
  refine ⟨?_, (toDigits_inj (List.reverse_injective ha.1)).symm⟩
  exact (String.toList_injective (List.reverse_injective (List.cons.inj ha.2).2)).symm

theorem numbered_ne_empty (name : String) (k : Nat) : numbered name k ≠ "" := by
  intro h
  have hlist := congrArg String.toList h
  rw [toList_numbered] at hlist
  exact List.append_ne_nil_of_right_ne_nil _ (List.cons_ne_nil _ _) hlist

/-! ## The search for a free name -/

/-- Among consecutive names, one more than there are names taken, one is free. -/
theorem exists_free {f : Nat → String} (hf : f.Injective) (taken : List String) (a : Nat) :
    ∃ i, i ∈ List.range' a (taken.length + 1) ∧ f i ∉ taken := by
  by_contra h
  have hsub : (List.range' a (taken.length + 1)).map f ⊆ taken := by
    intro s hs
    obtain ⟨i, hi, rfl⟩ := List.mem_map.mp hs
    by_contra hfree
    exact h ⟨i, hi, hfree⟩
  have hle := (((List.nodup_range' (s := a)).map hf).subperm hsub).length_le
  simp at hle

namespace Names

variable (n : Names) (claimed : NameSet) (name : String)

/-- The search for a fresh name gives the least number whose name is neither claimed nor spelled. -/
theorem fresh_eq : ∃ k, n.fresh claimed name = numbered name (k + 1) ∧
    numbered name (k + 1) ∉ claimed ∧ numbered name (k + 1) ∉ n.reserved ∧
    ∀ j, j < k → numbered name (j + 1) ∈ claimed ∨ numbered name (j + 1) ∈ n.reserved := by
  let isFree := fun k => !claimed.contains (numbered name (k + 1)) && !n.reserved.contains (numbered name (k + 1))
  have hfree (k : Nat) : isFree k = true ↔
      numbered name (k + 1) ∉ claimed ∧ numbered name (k + 1) ∉ n.reserved := by
    simp only [isFree, Bool.and_eq_true, Bool.not_eq_true', ← Bool.not_eq_true, Std.TreeSet.contains_iff_mem]
  obtain ⟨i, hi, hi'⟩ := exists_free (f := fun k => numbered name (k + 1))
    (fun j k h => Nat.succ.inj (numbered_inj h).2) (claimed.toList ++ n.reserved.toList) 0
  have hsome : ((List.range (claimed.size + n.reserved.size + 1)).find? isFree).isSome :=
    List.find?_isSome.mpr ⟨i, by simpa [List.range_eq_range'] using hi, (hfree i).mpr (by simpa using hi')⟩
  obtain ⟨k, hk⟩ := Option.isSome_iff_exists.mp hsome
  obtain ⟨hk', -, hleast⟩ := List.find?_range_eq_some.mp hk
  refine ⟨k, ?_, ((hfree k).mp hk').1, ((hfree k).mp hk').2, fun j hj => ?_⟩
  · have hfind : ((List.range (claimed.size + n.reserved.size + 1)).find?
        ((fun c => !claimed.contains c && !n.reserved.contains c) ∘ fun k => numbered name (k + 1))) = some k := hk
    rw [fresh, List.find?_map, hfind]
    rfl
  · have hj := hleast j hj
    rw [Bool.not_eq_true', ← Bool.not_eq_true, hfree, not_and_or, not_not, not_not] at hj
    exact hj

/-- The number of the free name that a name gets when it got `i` others before: the names that the script
spells are left out. -/
noncomputable def freeNumber (reserved : NameSet) (name : String) (i : Nat) : Nat :=
  Nat.nth (fun k => numbered name (k + 1) ∉ reserved) i

theorem infinite_free (reserved : NameSet) (name : String) :
    Set.Infinite {k | numbered name (k + 1) ∉ reserved} := by
  refine Set.infinite_of_forall_exists_gt fun a => ?_
  obtain ⟨i, hi, hfree⟩ := exists_free (f := fun k => numbered name (k + 1))
    (fun j k h => Nat.succ.inj (numbered_inj h).2) reserved.toList (a + 1)
  exact ⟨i, fun hi => hfree (Std.TreeSet.mem_toList.mpr hi), (List.mem_range'_1.mp hi).1⟩

theorem freeNumber_inj {reserved : NameSet} {i j : Nat}
    (h : freeNumber reserved name i = freeNumber reserved name j) : i = j :=
  Nat.nth_injective (infinite_free reserved name) h

theorem freeNumber_not_mem (reserved : NameSet) (i : Nat) :
    numbered name (freeNumber reserved name i + 1) ∉ reserved :=
  Nat.nth_mem_of_infinite (infinite_free reserved name) i

/-- When the first `i` free names of a name are claimed and no others, it gets the next one. -/
theorem fresh_of_claimed {i : Nat} (h : ∀ j, numbered name (freeNumber n.reserved name j + 1) ∈ claimed ↔ j < i) :
    n.fresh claimed name = numbered name (freeNumber n.reserved name i + 1) := by
  obtain ⟨k, hk, hclaimed, hspelled, hleast⟩ := n.fresh_eq claimed name
  -- The number found is free, so it is one of those counted; the ones before it are claimed.
  obtain ⟨m, rfl⟩ : ∃ m, freeNumber n.reserved name m = k :=
    ⟨_, Nat.nth_count (p := fun k => numbered name (k + 1) ∉ n.reserved) hspelled⟩
  have hle : i ≤ m := Nat.le_of_not_lt fun hlt => hclaimed ((h m).mpr hlt)
  have hge : m ≤ i := by
    by_contra hlt
    have hbelow : freeNumber n.reserved name i < freeNumber n.reserved name m :=
      Nat.nth_strictMono (infinite_free n.reserved name) (Nat.lt_of_not_le hlt)
    rcases hleast _ hbelow with hi | hi
    · exact Nat.lt_irrefl i ((h i).mp hi)
    · exact freeNumber_not_mem name n.reserved i hi
  rw [hk, Nat.le_antisymm hge hle]

end Names

end ScriptOptimizer
