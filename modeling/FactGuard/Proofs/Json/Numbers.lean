import Mathlib.Data.List.Basic
import FactGuard.Json.Token
import FactGuard.Json.Writer

/-!
# Numbers as words

A number is written as a bare word: the texts of integers and floats have characters of words only
(`isWord_int`, `isWord_float`). The word of an integer that fits into 64 bits is read as that
integer (`word?_int`).
-/

namespace FactGuard.Json

/-! ## Digits -/

namespace Numeral

/-- The digits that characters write. -/
def digitsOf (chars : List Char) : List Nat := chars.map fun c => c.toNat - '0'.toNat

/-- Digits alone are split off whole. -/
theorem spanDigits_eq {chars : List Char} (h : ∀ c ∈ chars, c.isDigit = true) :
    spanDigits chars = (digitsOf chars, []) := by
  induction chars with
  | nil => rfl
  | cons c rest ih =>
    have hc : digit? c = some (c.toNat - '0'.toNat) := if_pos (h c List.mem_cons_self)
    unfold spanDigits
    rw [hc, ih fun other hother => h other (List.mem_cons_of_mem _ hother)]
    rfl

/-- The digits of a number write it. -/
theorem natOfDigits_toDigits (n : Nat) : natOfDigits 10 (digitsOf (Nat.toDigits 10 n)) = n := by
  calc natOfDigits 10 (digitsOf (Nat.toDigits 10 n))
      = Nat.ofDigitChars 10 (Nat.toDigits 10 n) 0 := by
        unfold natOfDigits digitsOf Nat.ofDigitChars
        rw [List.foldl_map]
        simp only [Nat.mul_comm]
    _ = n := Nat.ofDigitChars_ten_toDigits

/-- Only the digits of zero start with zero. -/
theorem exists_digitsOf_toDigits (n : Nat) :
    ∃ d ds, digitsOf (Nat.toDigits 10 n) = d :: ds ∧ (d = 0 → n = 0 ∧ ds = []) := by
  induction n using Nat.strongRecOn with
  | ind n ih =>
    by_cases hlt : n < 10
    · refine ⟨n, [], ?_, fun h => ⟨h, rfl⟩⟩
      have hdigit : ∀ d < 10, digitsOf [d.digitChar] = [d] := by decide
      rw [Nat.toDigits_of_lt_base hlt, hdigit n hlt]
    · obtain ⟨d, ds, hdigits, hzero⟩ := ih (n / 10) (by omega)
      refine ⟨d, ds ++ digitsOf [(n % 10).digitChar], ?_, fun h => ?_⟩
      · rw [Nat.toDigits_eq_if (by decide), if_neg hlt]
        unfold digitsOf at hdigits ⊢
        rw [List.map_append, hdigits, List.cons_append]
      · have := (hzero h).1
        omega

theorem isDigit_of_mem_toDigits {n : Nat} {c : Char} (h : c ∈ Nat.toDigits 10 n) :
    c.isDigit = true := Nat.isDigit_of_mem_toDigits (by decide) (by decide) h

end Numeral

/-! ## Integers -/

/-- The text of an integer: the digits of its magnitude, behind a sign if it is below zero. -/
theorem toList_toString_int (value : Int) : (toString value).toList
    = if value < 0 then '-' :: Nat.toDigits 10 value.natAbs else Nat.toDigits 10 value.natAbs := by
  cases value with
  | ofNat n =>
    have hnot : ¬Int.ofNat n < 0 := Int.not_lt.2 (Int.natCast_nonneg n)
    rw [if_neg hnot]
    exact Nat.toList_repr
  | negSucc n =>
    rw [if_pos (Int.negSucc_lt_zero n)]
    show ("-" ++ Nat.repr (n + 1)).toList = _
    rw [String.toList_append, Nat.toList_repr]
    rfl

theorem toList_toString_int_ne_nil (value : Int) : (toString value).toList ≠ [] := by
  rw [toList_toString_int]
  split_ifs
  · exact List.cons_ne_nil _ _
  · exact Nat.toDigits_ne_nil

namespace Numeral

/-- The numeral that characters behind a sign, or behind none, write. -/
def unsigned? (negative : Bool) (chars : List Char) : Option Numeral :=
  match spanDigits chars with
  | ([], _) => none
  | (0 :: _ :: _, _) => none
  | (whole, rest) => (tail? rest).map fun t => ⟨negative, whole, t.1, t.2⟩

theorem ofChars?_minus (chars : List Char) : ofChars? ('-' :: chars) = unsigned? true chars := rfl

theorem ofChars?_cons {c : Char} (hc : c ≠ '-') (cs : List Char) :
    ofChars? (c :: cs) = unsigned? false (c :: cs) := by
  unfold ofChars?
  split
  · rename_i heq
    cases heq
    exact absurd rfl hc
  · rfl

end Numeral

/-- The numeral of an integer. -/
theorem ofChars?_int (value : Int) : Numeral.ofChars? (toString value).toList
    = some ⟨decide (value < 0), Numeral.digitsOf (Nat.toDigits 10 value.natAbs), none, none⟩ := by
  obtain ⟨d, ds, hdigits, hzero⟩ := Numeral.exists_digitsOf_toDigits value.natAbs
  have hspan := Numeral.spanDigits_eq fun c => Numeral.isDigit_of_mem_toDigits (n := value.natAbs)
  rw [hdigits] at hspan
  -- The digits do not start with a zero before another digit.
  have hwhole : ∀ negative, Numeral.unsigned? negative (Nat.toDigits 10 value.natAbs)
      = some ⟨negative, d :: ds, none, none⟩ := by
    intro negative
    unfold Numeral.unsigned?
    rw [hspan]
    cases d with
    | zero =>
      rw [(hzero rfl).2]
      rfl
    | succ d => rfl
  rw [toList_toString_int, hdigits]
  split_ifs with hneg
  · rw [Numeral.ofChars?_minus, hwhole, decide_eq_true hneg]
  · cases hchars : Nat.toDigits 10 value.natAbs with
    | nil => exact absurd hchars Nat.toDigits_ne_nil
    | cons c cs =>
      have hc : c ≠ '-' := by
        rintro rfl
        have := Numeral.isDigit_of_mem_toDigits (hchars ▸ List.mem_cons_self)
        cases this
      rw [Numeral.ofChars?_cons hc, ← hchars, hwhole, decide_eq_false hneg]

/-- The word of an integer of 64 bits is read as that integer. -/
theorem word?_int {value : Int} (hlower : -2 ^ 63 ≤ value) (hupper : value < 2 ^ 64) :
    word? (toString value).toList = some (.int value) := by
  -- It is none of the three names, since it starts with a sign or a digit.
  have hname : ∀ c cs, c ≠ '-' → c.isDigit = false → (toString value).toList ≠ c :: cs := by
    intro c cs hsign hdigit heq
    rw [toList_toString_int] at heq
    split_ifs at heq
    · cases heq
      exact hsign rfl
    · rw [Numeral.isDigit_of_mem_toDigits (heq ▸ List.mem_cons_self)] at hdigit
      cases hdigit
  have hvalue : (if value < 0 then -(value.natAbs : Int) else value.natAbs) = value := by omega
  have hzero : ¬(value < 0 ∧ value.natAbs = 0) := by omega
  unfold word?
  rw [if_neg (hname _ _ (by decide) rfl), if_neg (hname _ _ (by decide) rfl),
    if_neg (hname _ _ (by decide) rfl), ofChars?_int, Option.map_some]
  unfold Numeral.value
  simp only [Numeral.natOfDigits_toDigits, decide_eq_true_eq, Bool.and_eq_true, beq_iff_eq, hvalue,
    if_neg hzero, if_pos (And.intro hlower hupper)]

/-! ## Bare words -/

/-- Every character of the text may stand in a bare word. -/
def IsWord (text : String) : Prop := ∀ c ∈ text.toList, isWordChar c = true

instance : DecidablePred IsWord := fun text =>
  decidable_of_iff (text.toList.all isWordChar = true) List.all_eq_true

theorem IsWord.append {a b : String} (ha : IsWord a) (hb : IsWord b) : IsWord (a ++ b) := by
  intro c hc
  rw [String.toList_append] at hc
  rcases List.mem_append.1 hc with hc | hc
  · exact ha c hc
  · exact hb c hc

theorem isWord_ofList {chars : List Char} (h : ∀ c ∈ chars, c.isDigit = true) :
    IsWord (String.ofList chars) := by
  intro c hc
  rw [String.toList_ofList] at hc
  simp [isWordChar, Char.isAlphanum, h c hc]

theorem isWord_zeros (count : Nat) : IsWord (Decimal.zeros count) :=
  isWord_ofList fun c hc => by rw [List.eq_of_mem_replicate hc]; rfl

/-- The text of an integer is a bare word. -/
theorem isWord_int (value : Int) : IsWord (toString value) := by
  have hdigits : IsWord (String.ofList (Nat.toDigits 10 value.natAbs)) :=
    isWord_ofList fun _ => Numeral.isDigit_of_mem_toDigits
  unfold IsWord at hdigits ⊢
  rw [String.toList_ofList] at hdigits
  rw [toList_toString_int]
  split_ifs
  · exact List.forall_mem_cons.2 ⟨rfl, hdigits⟩
  · exact hdigits

/-- Digits with a point among them. -/
theorem isWord_positionalText {digits : List Char} (h : ∀ c ∈ digits, c.isDigit = true)
    (point : Int) : IsWord (floatLayout.positionalText digits point) := by
  have htake : ∀ n, ∀ c ∈ digits.take n, c.isDigit = true := fun n c hc =>
    h c (List.mem_of_mem_take hc)
  have hdrop : ∀ n, ∀ c ∈ digits.drop n, c.isDigit = true := fun n c hc =>
    h c (List.mem_of_mem_drop hc)
  have hpoint : IsWord "." := by decide
  have hzero : IsWord "0." := by decide
  have hwhole : IsWord floatLayout.afterWhole := by decide
  unfold Decimal.Layout.positionalText
  split_ifs
  · exact (hzero.append (isWord_zeros _)).append (isWord_ofList h)
  · exact ((isWord_ofList h).append (isWord_zeros _)).append hwhole
  · exact ((isWord_ofList (htake _)).append hpoint).append (isWord_ofList (hdrop _))

/-- Digits with an exponent. -/
theorem isWord_exponentText {digits : List Char} (h : ∀ c ∈ digits, c.isDigit = true)
    (point : Int) : IsWord (Decimal.exponentText digits point) := by
  have hhead : IsWord (String.ofList (digits.take 1)) :=
    isWord_ofList fun c hc => h c (List.mem_of_mem_take hc)
  have htail : IsWord (String.ofList (digits.drop 1)) :=
    isWord_ofList fun c hc => h c (List.mem_of_mem_drop hc)
  have hempty : IsWord "" := by decide
  have hpoint : IsWord "." := by decide
  have hsign : IsWord (if point - 1 < 0 then "" else "+") := by
    split_ifs <;> decide
  have hmark : IsWord "e" := by decide
  refine ((IsWord.append ?_ hmark).append hsign).append (isWord_int _)
  refine hhead.append ?_
  split_ifs
  · exact hempty
  · exact hpoint.append htail

theorem isWord_magnitudeText (bits : Nat) : IsWord (floatLayout.magnitudeText bits) := by
  have hdigits : ∀ n, ∀ c ∈ Nat.toDigits 10 n, c.isDigit = true := fun _ _ =>
    Numeral.isDigit_of_mem_toDigits
  unfold Decimal.Layout.magnitudeText
  dsimp only
  split_ifs
  · decide
  · exact isWord_positionalText (hdigits _) _
  · exact isWord_exponentText (hdigits _) _

/-- The text of a float is a bare word. -/
theorem isWord_float (x : Float) : IsWord (floatLayout.text x) := by
  have hnull : IsWord "null" := by decide
  have hminus : IsWord "-" := by decide
  have hempty : IsWord "" := by decide
  unfold Decimal.Layout.text
  dsimp only
  split_ifs
  · exact hnull
  · exact hnull
  · exact hnull
  · exact hminus.append (isWord_magnitudeText _)
  · exact hempty.append (isWord_magnitudeText _)

end FactGuard.Json
