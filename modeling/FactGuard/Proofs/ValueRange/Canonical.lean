import FactGuard.Proofs.Json.RoundTrip
import FactGuard.Proofs.Json.Values
import FactGuard.Proofs.Machine.Values
import FactGuard.ValueRange.Codec
import FactGuard.Proofs.ValueRange.Soundness
import FactGuard.Proofs.ValueRange.Sums

/-!
# Ranges have one form for each set

Equal bounds stand for the empty or the full set, and no constructor or operation makes others
(`ValueRange.Valid`). So two valid ranges of a width with the same members are equal
(`Valid.eq_of_members_eq`): unless they are empty or full, the lower bound is the one member whose
predecessor on the circle is missing, and the upper bound the one missing word whose predecessor is
a member. A document is read as a valid range or not at all (`valid_of_decode`), and a valid range
is read back from its document (`Valid.yields`).
-/

namespace FactGuard.ValueRange

variable {a b r s : ValueRange} {w target v : Nat}

/-! ## Valid ranges -/

/-- A range that is made of bounds is valid. -/
theorem valid_of_ofBounds {lower upper : Nat} (h : ofBounds w lower upper = .ok r) :
    IsWidth w ∧ r.Valid w := by
  have hw : IsWidth w := by
    have hmade := h
    unfold ofBounds at hmade
    obtain ⟨⟨⟩, hwidth, -⟩ := bind_eq_ok.1 hmade
    exact checkWidth_eq_ok_iff.1 hwidth
  rw [ofBounds_eq hw] at h
  split_ifs at h with hwide hequal
  cases h
  rw [← hw.modulus_eq] at hwide hequal
  exact ⟨hw, ⟨rfl, by dsimp only; omega, by dsimp only; omega⟩, by
    unfold widthMask
    dsimp only
    omega⟩

/-- The bounds of a valid range make it. -/
theorem Valid.ofBounds_eq_ok (hw : IsWidth w) (hr : r.Valid w) :
    ofBounds w r.lower r.upper = .ok r := by
  have hlower := hr.lower_lt
  have hupper := hr.upper_lt
  have hequal := hr.eq_or_eq
  rw [hw.widthMask_eq] at hequal
  rw [hw.modulus_eq] at hlower hupper
  rw [ofBounds_eq hw, if_neg (by omega), if_neg (by omega), ← hr.width_eq]

theorem valid_single (hw : IsWidth w) (value : Nat) : (single w value).Valid w := by
  have hone := hw.one_lt_modulus
  have hbounds := bounds_single w value
  exact ⟨fits_single w value, fun heq => by omega⟩

theorem valid_between (w least greatest : Nat) : (between w least greatest).Valid w := by
  refine ⟨fits_between w least greatest, ?_⟩
  have hnext := truncate_succ (truncate_lt w greatest)
  unfold between
  dsimp only
  split_ifs with hcross hfull
  · exact fun _ => .inl rfl
  · exact fun _ => .inr rfl
  · dsimp only
    omega

theorem IsInterval.valid (h : IsInterval w r) : r.Valid w := by
  cases h with
  | empty => exact valid_empty w
  | full => exact valid_full w
  | between least greatest => exact valid_between w least greatest

theorem Valid.hull (ha : a.Valid w) (hb : b.Valid w) : (a.hull b).Valid w := by
  rcases ha.hull_cases b with h | h | h
  · rwa [h]
  · rwa [h]
  · exact h.valid

theorem Valid.uremConstant (hr : r.Valid w) (divisor : Nat) : (r.uremConstant divisor).Valid w :=
  (hr.uremConstant_cases divisor).elim (fun h => by rwa [h]) IsInterval.valid

theorem Valid.truncate (hr : r.Valid w) (hle : target ≤ w) : (r.truncate target).Valid target := by
  rcases hr.truncate_cases hle with ⟨rfl, h⟩ | h
  · rwa [h]
  · exact h.valid

theorem Valid.zeroExtend (hr : r.Valid w) (target : Nat) : (r.zeroExtend target).Valid target := by
  by_cases hle : target ≤ w
  · rw [ValueRange.zeroExtend, hr.width_eq, if_pos hle]
    exact hr.truncate hle
  · exact (hr.isInterval_zeroExtend (by omega)).valid

theorem Valid.signExtend (hr : r.Valid w) (target : Nat) : (r.signExtend target).Valid target := by
  by_cases hle : target ≤ w
  · rw [ValueRange.signExtend, hr.width_eq, if_pos hle]
    exact hr.truncate hle
  · exact (hr.isInterval_signExtend (by omega)).valid

/-! ## One form for each set -/

/-- The word before a word on the circle. -/
def before (w v : Nat) : Nat := if v = 0 then modulus w - 1 else v - 1

theorem before_lt (hv : v < modulus w) : before w v < modulus w := by
  unfold before
  split_ifs <;> omega

/-- Unless the bounds are equal, the lower one is the word that is met while the word before it is
not, and the upper one the word that is not met while the word before it is. -/
theorem Fits.eq_bound_iff (hr : r.Fits w) (hne : r.lower ≠ r.upper) :
    (v = r.lower ↔ r.Has v ∧ ¬ r.Has (before w v)) ∧
      (v = r.upper ↔ ¬ r.Has v ∧ r.Has (before w v)) := by
  have hlower := hr.lower_lt
  have hupper := hr.upper_lt
  unfold Has before
  split_ifs <;> omega

/-- The bounds of a valid range are equal if it has all words, or none. -/
theorem Valid.lower_eq_upper_iff (hw : IsWidth w) (hr : r.Valid w) :
    r.lower = r.upper ↔ (∀ v < modulus w, r.Has v) ∨ ∀ v < modulus w, ¬ r.Has v := by
  constructor
  · intro heq
    have hone := hw.one_lt_modulus
    have hends := hr.eq_or_eq heq
    unfold widthMask at hends
    unfold Has
    rcases hends with hzero | hlast
    · exact .inr fun v _ => by omega
    · exact .inl fun v _ => by omega
  · intro h
    by_contra hne
    obtain ⟨hhas, hnot⟩ := (hr.toFits.eq_bound_iff hne).1.1 rfl
    rcases h with hall | hnone
    · exact hnot (hall _ (before_lt hr.lower_lt))
    · exact hnone _ hr.lower_lt hhas

/-- A valid range has no form but its own. -/
theorem Valid.eq_of_members_eq (hw : IsWidth w) (hr : r.Valid w) (hs : s.Valid w)
    (h : r.members = s.members) : r = s := by
  have hsame : ∀ v < modulus w, r.Has v ↔ s.Has v := fun v hv => by
    have hmem := Set.ext_iff.1 h v
    rw [mem_members_iff hw hr.toFits, mem_members_iff hw hs.toFits] at hmem
    exact (and_congr_right_iff.1 hmem) hv
  have hequal : r.lower = r.upper ↔ s.lower = s.upper := by
    rw [hr.lower_eq_upper_iff hw, hs.lower_eq_upper_iff hw]
    exact or_congr (forall₂_congr hsame) (forall₂_congr fun v hv => not_congr (hsame v hv))
  have hbounds : r.lower = s.lower ∧ r.upper = s.upper := by
    by_cases heq : r.lower = r.upper
    · -- Both ranges are empty, or both are full, and zero tells which.
      have heq' := hequal.1 heq
      have hends := hr.eq_or_eq heq
      have hends' := hs.eq_or_eq heq'
      have hzero := hsame 0 (modulus_pos w)
      have hone := hw.one_lt_modulus
      unfold widthMask at hends hends'
      unfold Has at hzero
      omega
    · have heq' := mt hequal.2 heq
      constructor
      · rw [(hs.toFits.eq_bound_iff heq').1, ← hsame _ hr.lower_lt,
          ← hsame _ (before_lt hr.lower_lt)]
        exact (hr.toFits.eq_bound_iff heq).1.1 rfl
      · rw [(hs.toFits.eq_bound_iff heq').2, ← hsame _ hr.upper_lt,
          ← hsame _ (before_lt hr.upper_lt)]
        exact (hr.toFits.eq_bound_iff heq).2.1 rfl
  cases r
  cases s
  obtain ⟨⟨⟨⟩, -, -⟩, -⟩ := hr
  obtain ⟨⟨⟨⟩, -, -⟩, -⟩ := hs
  obtain ⟨⟨⟩, ⟨⟩⟩ := hbounds
  rfl

/-! ## Documents -/

/-- A number that is read is the number of the document. -/
theorem eq_of_unsigned {bits n : Nat} {value : Json} (h : Json.unsigned bits value = .ok n) :
    value = .nat n := by
  unfold Json.unsigned at h
  split at h
  · split_ifs at h with hfits
    cases h
    rw [Json.nat, Int.toNat_of_nonneg hfits.1]
  · cases h

/-- The members that a record names are found in the object. -/
theorem mem_of_namedMembers {names : List String} {isClosed : Bool}
    {members : List (Option String × Json)} {found fields : Bindings Json}
    (h : Json.namedMembers names isClosed members found = .ok fields) :
    ∀ field ∈ fields, field ∈ found ∨ (some field.1, field.2) ∈ members := by
  -- By induction on the members, for whatever fields were found before them.
  induction members generalizing found with
  | nil =>
    cases h
    exact fun field hfield => .inl hfield
  | cons member rest ih =>
    obtain ⟨key, value⟩ := member
    have hrest : ∀ {found}, Json.namedMembers names isClosed rest found = .ok fields →
        ∀ field ∈ fields, field ∈ found ∨ (some field.1, field.2) ∈ (key, value) :: rest :=
      fun h field hfield => (ih h field hfield).imp_right (List.mem_cons_of_mem _)
    cases key with
    | none => cases h
    | some key =>
      unfold Json.namedMembers at h
      split_ifs at h
      · intro field hfield
        rcases hrest h field hfield with hfound | hmember
        · rcases List.mem_append.1 hfound with hfound | hnew
          · exact .inl hfound
          · rw [List.mem_singleton.1 hnew]
            exact .inr List.mem_cons_self
        · exact .inr hmember
      · exact hrest h

/-- A width that is read is the one of the document. -/
theorem width_mem_of_required {names : List String} {members : List (Option String × Json)}
    {fields : Bindings Json} (hfields : Json.namedMembers names false members [] = .ok fields)
    (h : Json.required fields "width" (Json.unsigned 32) = .ok w) :
    (some "width", Json.nat w) ∈ members := by
  unfold Json.required at h
  split at h
  · rename_i value hvalue
    rw [← eq_of_unsigned h]
    exact (mem_of_namedMembers hfields _ (Bindings.mem_of_get?_eq_some hvalue)).resolve_left
      List.not_mem_nil
  · cases h

theorem NamedSet.valid_range (set : NamedSet) (w : Nat) : (set.range w).Valid w := by
  cases set with
  | full => exact valid_full w
  | empty => exact valid_empty w

theorem width_mem_of_decodeNamed {members : List (Option String × Json)} {set : NamedSet}
    (h : decodeNamed members = .ok (w, set)) : (some "width", Json.nat w) ∈ members := by
  obtain ⟨fields, hfields, h⟩ := bind_eq_ok.1 h
  obtain ⟨width, hwidth, h⟩ := bind_eq_ok.1 h
  obtain ⟨_, -, h⟩ := bind_eq_ok.1 h
  cases h
  exact width_mem_of_required hfields hwidth

theorem width_mem_of_decodeBounds {members : List (Option String × Json)} {lower upper : Nat}
    (h : decodeBounds members = .ok (w, lower, upper)) :
    (some "width", Json.nat w) ∈ members := by
  obtain ⟨fields, hfields, h⟩ := bind_eq_ok.1 h
  obtain ⟨width, hwidth, h⟩ := bind_eq_ok.1 h
  obtain ⟨_, -, h⟩ := bind_eq_ok.1 h
  obtain ⟨_, -, h⟩ := bind_eq_ok.1 h
  cases h
  exact width_mem_of_required hfields hwidth

/-- A document that is read as a range is an object with the width of the range, which is valid. -/
theorem valid_of_decode {document : Json} (h : decode document = .ok r) :
    ∃ members w, document = .object members ∧ (some "width", Json.nat w) ∈ members ∧
      IsWidth w ∧ r.Valid w := by
  unfold decode at h
  obtain ⟨⟨⟩, -, h⟩ := bind_eq_ok.1 h
  split at h
  · split at h
    · rename_i width set hnamed
      split at h
      · rename_i hcheck
        obtain rfl : set.range width = r := Except.ok.inj h
        exact ⟨_, width, rfl, width_mem_of_decodeNamed hnamed, checkWidth_eq_ok_iff.1 hcheck,
          NamedSet.valid_range set width⟩
      · cases h
    · obtain ⟨⟨width, lower, upper⟩, hbounds, h⟩ := bind_eq_ok.1 h
      dsimp only at h
      split at h
      · rename_i hmade
        cases h
        exact ⟨_, width, rfl, width_mem_of_decodeBounds hbounds, valid_of_ofBounds hmade⟩
      · cases h
  · cases h

theorem unsigned_nat {bits n : Nat} (h : n < 2 ^ bits) : Json.unsigned bits (.nat n) = .ok n := by
  have hfits : (0 : Int) ≤ n ∧ (n : Int) < 2 ^ bits := ⟨Int.natCast_nonneg n, by exact_mod_cast h⟩
  exact if_pos hfits

theorem writable_nat {format : Json.TextFormat} {n : Nat} (h : n < 2 ^ 64) :
    (Json.nat n).Writable format := .int (by omega) (by omega)

theorem required_of_get? {α : Type} {fields : Bindings Json} {name : String} (value : Json)
    (h : fields.get? name = some value) (decode : Json.Decoder α) :
    Json.required fields name decode = decode value := by
  unfold Json.required
  rw [h]

/-- The name of a set is read at the width of the document. -/
theorem decodeNamed_eq_ok (hw : IsWidth w) (set : NamedSet) :
    decodeNamed [(some "width", .nat w), (some "set", .str set.name)] = .ok (w, set) := by
  have hle := hw.le
  refine bind_eq_ok.2 ⟨[("width", .nat w), ("set", .str set.name)], rfl,
    bind_eq_ok.2 ⟨w, ?_, bind_eq_ok.2 ⟨set, ?_, rfl⟩⟩⟩
  · rw [required_of_get? (.nat w) rfl]
    exact unsigned_nat (by omega)
  · rw [required_of_get? (.str set.name) rfl]
    cases set <;> rfl

/-- A document with bounds names no set. -/
theorem decodeNamed_ne_ok (w lower upper : Nat) (found : Nat × NamedSet) :
    decodeNamed [(some "width", .nat w), (some "lower", .nat lower), (some "upper", .nat upper)]
      ≠ .ok found := by
  intro h
  obtain ⟨fields, hfields, h⟩ := bind_eq_ok.1 h
  obtain ⟨_, -, h⟩ := bind_eq_ok.1 h
  obtain ⟨_, hset, -⟩ := bind_eq_ok.1 h
  cases hfields
  cases hset

/-- Bounds that are words are read at the width of the document. -/
theorem decodeBounds_eq_ok (hw : IsWidth w) {lower upper : Nat} (hlower : lower < 2 ^ 64)
    (hupper : upper < 2 ^ 64) :
    decodeBounds [(some "width", .nat w), (some "lower", .nat lower), (some "upper", .nat upper)]
      = .ok (w, lower, upper) := by
  have hle := hw.le
  refine bind_eq_ok.2 ⟨[("width", .nat w), ("lower", .nat lower), ("upper", .nat upper)], rfl,
    bind_eq_ok.2 ⟨w, ?_, bind_eq_ok.2 ⟨lower, ?_, bind_eq_ok.2 ⟨upper, ?_, rfl⟩⟩⟩⟩
  · rw [required_of_get? (.nat w) rfl]
    exact unsigned_nat (by omega)
  · rw [required_of_get? (.nat lower) rfl]
    exact unsigned_nat hlower
  · rw [required_of_get? (.nat upper) rfl]
    exact unsigned_nat hupper

/-- A named set is tried first. -/
theorem decode_of_named {members : List (Option String × Json)}
    (hexact : Json.untagged 0 (.object members) = .ok ()) {set : NamedSet} (hw : IsWidth w)
    (h : decodeNamed members = .ok (w, set)) : decode (.object members) = .ok (set.range w) := by
  refine bind_eq_ok.2 ⟨(), hexact, ?_⟩
  dsimp only
  rw [h]
  dsimp only
  rw [checkWidth_eq_ok_iff.2 hw]
  rfl

/-- Bounds are tried if no set is named. -/
theorem decode_of_bounds {members : List (Option String × Json)}
    (hexact : Json.untagged 0 (.object members) = .ok ())
    (hnamed : ∀ found, decodeNamed members ≠ .ok found) {lower upper : Nat}
    (h : decodeBounds members = .ok (w, lower, upper)) (hmade : ofBounds w lower upper = .ok r) :
    decode (.object members) = .ok r := by
  refine bind_eq_ok.2 ⟨(), hexact, ?_⟩
  dsimp only
  split
  · rename_i hfound
    exact absurd hfound (hnamed _)
  · refine bind_eq_ok.2 ⟨_, h, ?_⟩
    dsimp only
    rw [hmade]
    rfl

/-- A document with a named set yields the set at its width. -/
theorem yields_named (format : Json.TextFormat) (hw : IsWidth w) (set : NamedSet) :
    Json.Yields format (.obj [("width", .nat w), ("set", .str set.name)]) decode (set.range w) := by
  have hle := hw.le
  have hwidth : (Json.nat w).Writable format := writable_nat (by omega)
  exact ⟨.obj (by simp) (by simpa using ⟨hwidth, .str set.name⟩),
    decode_of_named (if_pos ⟨rfl, (by decide : 1 ≤ 127)⟩) hw (decodeNamed_eq_ok hw set)⟩

/-- A document with the bounds of a valid range yields the range. -/
theorem Valid.yields_bounds (format : Json.TextFormat) (hw : IsWidth w) (hr : r.Valid w) :
    Json.Yields format
      (.obj [("width", .nat w), ("lower", .nat r.lower), ("upper", .nat r.upper)]) decode r := by
  have hle := hw.le
  have hmodulus : modulus w ≤ 2 ^ 64 := Nat.pow_le_pow_right (by decide) (Nat.min_le_right w 64)
  have hlower := hr.lower_lt.trans_le hmodulus
  have hupper := hr.upper_lt.trans_le hmodulus
  have hwidth : (Json.nat w).Writable format := writable_nat (by omega)
  exact ⟨.obj (by simp) (by simpa using ⟨hwidth, writable_nat hlower, writable_nat hupper⟩),
    decode_of_bounds (if_pos ⟨rfl, (by decide : 1 ≤ 127)⟩) (decodeNamed_ne_ok w r.lower r.upper)
      (decodeBounds_eq_ok hw hlower hupper) (hr.ofBounds_eq_ok hw)⟩

theorem Fits.eq_mk (hr : r.Fits w) : r = ⟨w, r.lower, r.upper⟩ := by
  rw [← hr.width_eq]

/-- A valid range is read back from its document. -/
theorem Valid.yields (format : Json.TextFormat) (hw : IsWidth w) (hr : r.Valid w) :
    Json.Yields format r.encode decode r := by
  unfold encode
  rw [hr.width_eq]
  split_ifs with hfull hempty
  · have heq : NamedSet.full.range w = r := by
      rw [hr.toFits.isFull_iff] at hfull
      rw [hr.toFits.eq_mk, ← hfull.1, hfull.2]
      rfl
    have hread := yields_named format hw .full
    rwa [heq] at hread
  · have heq : NamedSet.empty.range w = r := by
      rw [isEmpty_iff] at hempty
      rw [hr.toFits.eq_mk, hempty.1, hempty.2]
      rfl
    have hread := yields_named format hw .empty
    rwa [heq] at hread
  · exact hr.yields_bounds format hw

theorem depth_encode_le (r : ValueRange) : r.encode.depth ≤ 1 := by
  unfold encode
  split_ifs <;> simp [Json.nat]

/-! ## Main result -/

/-- The valid ranges are closed under what makes ranges, and there is one for each set. Every range
that a constructor, a document or an operation gives is valid at its width; valid ranges of a width
are equal if they have the same members; and a valid range is read back from its document, and from
its text in every format that reads what it writes. -/
theorem canonical_closed (hw : IsWidth w) (hr : r.Valid w) (hs : s.Valid w) :
    ((∀ width lower upper made, ofBounds width lower upper = .ok made →
        IsWidth width ∧ made.Valid width) ∧
      (full w).Valid w ∧ (empty w).Valid w ∧ (∀ value, (single w value).Valid w) ∧
      (∀ least greatest, (between w least greatest).Valid w) ∧
      ∀ known : KnownBits, known.width = w → (ofKnownBits known).Valid w) ∧
    (∀ document read, decode document = .ok read →
      ∃ members width, document = .object members ∧ (some "width", Json.nat width) ∈ members ∧
        IsWidth width ∧ read.Valid width) ∧
    ((r.add s).Valid w ∧ (r.sub s).Valid w ∧ (r.hull s).Valid w ∧
      (∀ target, (r.zeroExtend target).Valid target ∧ (r.signExtend target).Valid target) ∧
      (∀ target ≤ w, (r.truncate target).Valid target) ∧
      ∀ divisor, (r.uremConstant divisor).Valid w) ∧
    (r = s ↔ r.members = s.members) ∧
    decode r.encode = .ok r ∧ ∀ format : Json.TextFormat, format.Spec →
      format.parse (format.compact r.encode) >>= decode = .ok r := by
  refine ⟨⟨fun _ _ _ _ => valid_of_ofBounds, valid_full w, valid_empty w, valid_single hw,
      valid_between w, fun known hknown => ?_⟩, fun _ _ => valid_of_decode,
    ⟨hr.toFits.valid_add hw hs.toFits, hr.toFits.valid_sub hw hs.toFits, hr.hull hs,
      fun target => ⟨hr.zeroExtend target, hr.signExtend target⟩, fun _ => hr.truncate,
      hr.uremConstant⟩,
    ⟨fun h => h ▸ rfl, hr.eq_of_members_eq hw hs⟩,
    (hr.yields Json.library.toTextFormat hw).decode_eq, fun format hformat => ?_⟩
  · rw [ofKnownBits, hknown]
    exact valid_between w _ _
  · have hback := hr.yields format hw
    have hdepth : r.encode.depth ≤ Json.depthLimit := r.depth_encode_le.trans (by decide)
    rw [hformat.parse_compact _ hback.writable hdepth]
    exact hback.decode_eq

/-- The bytes from 250 on and around to 3, and the greatest byte alone: their sum runs around from
249 to 2. The sets differ, and the first is read back from its bounds. -/
theorem canonical_closed_byte :
    let r : ValueRange := ⟨8, 250, 4⟩
    let s : ValueRange := ⟨8, 255, 0⟩
    IsWidth 8 ∧ r.Valid 8 ∧ s.Valid 8 ∧ (⟨8, 249, 3⟩ : ValueRange).Valid 8 ∧
      r.members ≠ s.members ∧
      Json.library.parse (Json.library.compact r.encode) >>= decode = .ok r := by
  intro r s
  have hw : IsWidth 8 := ⟨by decide, by decide⟩
  have hr : r.Valid 8 := ⟨⟨rfl, by decide, by decide⟩, by decide⟩
  have hs : s.Valid 8 := ⟨⟨rfl, by decide, by decide⟩, by decide⟩
  have hadd : r.add s = ⟨8, 249, 3⟩ := by decide
  obtain ⟨-, -, ⟨hsum, -⟩, hiff, -, htext⟩ := canonical_closed hw hr hs
  rw [hadd] at hsum
  exact ⟨hw, hr, hs, hsum, mt hiff.2 (by decide), htext _ Json.library_spec.toSpec⟩

end FactGuard.ValueRange
