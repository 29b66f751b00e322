import Mathlib.Data.List.Nodup
import Mathlib.Data.List.Perm.Subperm
import FactGuard.Proofs.Bindings
import FactGuard.Site.Splice

/-!
# Fresh names

The searches for a fresh label and for a fresh local number their candidates and try as many of them
as there are names in use (`CandidateSearch`). The candidates are distinct, so they cannot all be in
use, and what the search returns is free (`CandidateSearch.not_mem`).
-/

namespace FactGuard

/-- Among distinct candidates, one of the first `names.length + 1` is not in use. -/
theorem exists_unused {candidate : Nat → String} (hinj : Function.Injective candidate)
    (names : List String) (start : Nat) :
    ∃ k ≤ names.length, candidate (start + k) ∉ names := by
  by_contra hall
  push Not at hall
  have hnodup : ((List.range (names.length + 1)).map fun k => candidate (start + k)).Nodup :=
    List.Nodup.map (fun a b h => by have := hinj h; omega) List.nodup_range
  have hsub : ((List.range (names.length + 1)).map fun k => candidate (start + k)) ⊆ names := by
    intro name hname
    obtain ⟨k, hk, rfl⟩ := List.mem_map.1 hname
    rw [List.mem_range] at hk
    exact hall k (by omega)
  -- More distinct candidates than names would be among the names.
  have hlen := (List.subperm_of_subset hnodup hsub).length_le
  simp only [List.length_map, List.length_range] at hlen
  omega

/-- A search returns the first candidate that is not in use, from a number on, or the last one that
it may try. -/
structure CandidateSearch (candidate : Nat → String) (used : List String)
    (search : (number tries : Nat) → String) : Prop where
  zero : ∀ number, search number 0 = candidate number
  succ : ∀ number tries, search number (tries + 1)
    = if candidate number ∈ used then search (number + 1) tries else candidate number

namespace CandidateSearch

variable {candidate : Nat → String} {used : List String} {search : (number tries : Nat) → String}

/-- A search passes candidates that are in use, and it stops before its last try at one that is not.
-/
theorem exists_number (h : CandidateSearch candidate used search) (number tries : Nat) :
    ∃ more ≤ tries, search number tries = candidate (number + more) ∧
      (∀ k < more, candidate (number + k) ∈ used) ∧
      (more < tries → candidate (number + more) ∉ used) := by
  -- By induction on the tries: a candidate in use is passed, and the search goes on from the next.
  induction tries generalizing number with
  | zero => exact ⟨0, Nat.le_refl 0, h.zero number, fun k hk => absurd hk (Nat.not_lt_zero k),
      fun hlt => absurd hlt (Nat.lt_irrefl 0)⟩
  | succ tries ih =>
    rw [h.succ]
    split_ifs with hused
    · obtain ⟨more, hle, heq, hpassed, hstop⟩ := ih (number + 1)
      have hshift : ∀ k, number + 1 + k = number + (k + 1) := fun k => by omega
      rw [hshift] at heq hstop
      refine ⟨more + 1, Nat.succ_le_succ hle, heq, fun k hk => ?_,
        fun hlt => hstop (Nat.lt_of_succ_lt_succ hlt)⟩
      cases k with
      | zero => exact hused
      | succ k =>
        rw [← hshift]
        exact hpassed k (Nat.lt_of_succ_lt_succ hk)
    · exact ⟨0, Nat.zero_le _, rfl, fun k hk => absurd hk (Nat.not_lt_zero k), fun _ => hused⟩

/-- A search for one of distinct candidates, with as many tries as there are names in use, ends at
one that is not. -/
theorem not_mem (h : CandidateSearch candidate used search)
    (hinj : Function.Injective candidate) {number tries : Nat} (hle : used.length ≤ tries) :
    search number tries ∉ used := by
  obtain ⟨more, hmore, heq, hpassed, hstop⟩ := h.exists_number number tries
  rw [heq]
  rcases Nat.lt_or_eq_of_le hmore with hlt | rfl
  · exact hstop hlt
  · -- All but the last are in use, and one is not, so the last is not.
    obtain ⟨k, hk, hfree⟩ := exists_unused hinj used number
    rcases Nat.lt_or_eq_of_le (Nat.le_trans hk hle) with hlt | rfl
    · exact absurd (hpassed k hlt) hfree
    · exact hfree

end CandidateSearch

/-- Numbers with the same digits are equal. -/
theorem toString_nat_injective : Function.Injective (toString : Nat → String) := by
  intro m n h
  -- Reading the digits gives back the number.
  have hlist : Nat.toDigits 10 m = Nat.toDigits 10 n := by
    rw [← Nat.toList_repr, ← Nat.toList_repr]
    exact congrArg String.toList h
  rw [← Nat.ofDigitChars_toDigits (b := 10) (by decide) (by decide) (n := m), hlist,
    Nat.ofDigitChars_toDigits (by decide) (by decide)]

theorem append_toString_injective (stem : String) :
    Function.Injective fun number : Nat => stem ++ toString number := fun _ _ h =>
  toString_nat_injective ((String.append_right_inj stem).1 h)

/-! ## Labels -/

/-- The numbered labels of a base are distinct. -/
theorem numberedLabel_injective (base : String) : Function.Injective (numberedLabel base) := by
  intro m n h
  unfold numberedLabel at h
  split_ifs at h with hm hn hn
  · omega
  · have := congrArg String.length h
    simp only [String.length_append] at this
    have : ".".length = 1 := rfl
    omega
  · have := congrArg String.length h
    simp only [String.length_append] at this
    have : ".".length = 1 := rfl
    omega
  · exact toString_nat_injective ((String.append_right_inj _).1 h)

/-- A numbered label is not empty unless its base is. -/
theorem numberedLabel_ne_empty {base : String} (hbase : base ≠ "") (number : Nat) :
    numberedLabel base number ≠ "" := by
  unfold numberedLabel
  split_ifs
  · exact hbase
  · intro h
    rw [String.append_assoc, String.append_eq_empty_iff] at h
    exact hbase h.1

theorem unusedLabel_search (labels : List String) (base : String) :
    CandidateSearch (numberedLabel base) labels (unusedLabel labels base) where
  zero _ := rfl
  succ number tries := by
    rw [unusedLabel]
    simp only [List.contains_iff_mem]

namespace Function

/-- A fresh label is that of no block. -/
theorem freshLabel_not_mem (f : Function) (base : String) : f.freshLabel base ∉ f.labels :=
  (unusedLabel_search f.labels base).not_mem (numberedLabel_injective base) (Nat.le_refl _)

/-- A fresh label is not empty unless its base is. -/
theorem freshLabel_ne_empty (f : Function) {base : String} (hbase : base ≠ "") :
    f.freshLabel base ≠ "" := by
  obtain ⟨k, -, hk, -⟩ := (unusedLabel_search f.labels base).exists_number 0 f.labels.length
  unfold freshLabel
  rw [hk]
  exact numberedLabel_ne_empty hbase _

/-! ## Locals -/

theorem unusedName_search (f : Function) (stem : String) :
    CandidateSearch (fun number => stem ++ toString number) f.declarations.names
      (f.unusedName stem) where
  zero _ := rfl
  succ number tries := by
    have hiff : (f.valueType? (stem ++ toString number)).isNone = true
        ↔ stem ++ toString number ∉ f.declarations.names := by
      rw [Option.isNone_iff_eq_none]
      exact Bindings.get?_eq_none_iff _ _
    rw [unusedName]
    simp only [hiff, ite_not]

/-- A fresh local has a name that is not declared. -/
theorem freshLocal_not_mem (f : Function) (stem : String) (ty : Ty) :
    (f.freshLocal stem ty).1 ∉ f.declarations.names :=
  (f.unusedName_search stem).not_mem (append_toString_injective stem)
    (Nat.le_of_eq (List.length_map _))

/-- A fresh local is declared behind the others. -/
theorem freshLocal_declarations (f : Function) (stem : String) (ty : Ty) :
    (f.freshLocal stem ty).2.declarations
      = f.declarations ++ [((f.freshLocal stem ty).1, ty)] := by
  simp [freshLocal, declarations]

end Function

end FactGuard
