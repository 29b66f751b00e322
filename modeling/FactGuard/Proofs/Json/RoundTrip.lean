import FactGuard.Proofs.Json.Library
import FactGuard.Proofs.Json.Numbers

/-!
# Reading what was written

A document that can be written is read back from its compact text (`parse_compact`). The proof
follows the lexer and the reader together through the text of a value: `Scan.At` and `Scan.Reaches`
say how far the reader comes with the tokens that the lexer has read. The decoders take the shapes
that are written by their definitions, so the library of this project is one (`library_spec`).
-/

namespace FactGuard.Json

/-! ## States of the lexer -/

namespace Scan

/-- The lexer has read the tokens: it stands behind them, or in a word that is the last one. -/
inductive Has : Scan → List Token → Prop
  | between (done : List Token) : Has ⟨.between, done⟩ done
  | inWord {chars : List Char} {value : Json} {done : List Token}
      (hword : word? chars.reverse = some value) :
      Has ⟨.inWord chars, done⟩ (.atom value :: done)

variable {s : Scan} {done : List Token} {p p' : Progress}

/-- A character that ends words is read as the first one behind the tokens. -/
theorem Has.step_eq (h : s.Has done) {c : Char} (hc : isWordChar c = false) :
    s.step c = begin? done c := by
  cases h with
  | between => rfl
  | inWord hword =>
    unfold step
    simp only [hc, hword]
    rfl

/-- The tokens of a text that ends here. -/
theorem Has.finish?_eq (h : s.Has done) : s.finish? = some done := by
  cases h with
  | between => rfl
  | inWord hword =>
    unfold finish?
    simp only [hword]
    rfl

/-- The lexer stands between tokens, with which the reader comes to `p`. -/
def At (s : Scan) (p : Progress) : Prop :=
  ∃ done, s = ⟨.between, done⟩ ∧ done.reverse.foldlM Progress.step (.awaitValue []) = some p

/-- The lexer has read tokens, with which the reader comes to `p`. -/
def Reaches (s : Scan) (p : Progress) : Prop :=
  ∃ done, s.Has done ∧ done.reverse.foldlM Progress.step (.awaitValue []) = some p

theorem At.reaches (h : s.At p) : s.Reaches p := by
  obtain ⟨done, rfl, hdone⟩ := h
  exact ⟨done, .between done, hdone⟩

/-- The lexer reads the characters and comes to a state of the given kind. -/
def Reads (s : Scan) (chars : List Char) (target : Scan → Prop) : Prop :=
  ∃ s', chars.foldlM step s = some s' ∧ target s'

theorem Reads.append {chars more : List Char} {middle target : Scan → Prop}
    (h : s.Reads chars middle) (hmore : ∀ s', middle s' → s'.Reads more target) :
    s.Reads (chars ++ more) target := by
  obtain ⟨s', hs', hmiddle⟩ := h
  obtain ⟨last, hlast, htarget⟩ := hmore s' hmiddle
  refine ⟨last, ?_, htarget⟩
  rw [List.foldlM_append, hs']
  exact hlast

theorem Reads.cons {c : Char} {chars : List Char} {middle target : Scan → Prop}
    (h : s.Reads [c] middle) (hmore : ∀ s', middle s' → s'.Reads chars target) :
    s.Reads (c :: chars) target := h.append hmore

theorem Reads.imp {chars : List Char} {target target' : Scan → Prop} (h : s.Reads chars target)
    (himp : ∀ s', target s' → target' s') : s.Reads chars target' := by
  obtain ⟨s', hs', htarget⟩ := h
  exact ⟨s', hs', himp s' htarget⟩

/-- The reader comes further with one token more. -/
theorem foldlM_cons {token : Token}
    (h : done.reverse.foldlM Progress.step (.awaitValue []) = some p)
    (hstep : p.step token = some p') :
    (token :: done).reverse.foldlM Progress.step (.awaitValue []) = some p' := by
  rw [List.reverse_cons, List.foldlM_append, h]
  show (List.foldlM Progress.step p [token]) = some p'
  rw [List.foldlM_cons, hstep]
  rfl

/-- A character that is a token. -/
theorem Reaches.step_token (h : s.Reaches p) {c : Char} {token : Token}
    (hc : isWordChar c = false)
    (hbegin : ∀ done, begin? done c = some ⟨.between, token :: done⟩)
    (hstep : p.step token = some p') : s.Reads [c] (·.At p') := by
  obtain ⟨done, hhas, hdone⟩ := h
  refine ⟨_, ?_, _, rfl, foldlM_cons hdone hstep⟩
  rw [List.foldlM_cons, hhas.step_eq hc, hbegin done]
  rfl

/-! ## Words -/

/-- The characters of a word are read one after another. -/
theorem foldlM_inWord {chars : List Char} (h : ∀ c ∈ chars, isWordChar c = true)
    (read : List Char) (done : List Token) :
    chars.foldlM step ⟨.inWord read, done⟩ = some ⟨.inWord (chars.reverse ++ read), done⟩ := by
  induction chars generalizing read with
  | nil => rfl
  | cons c rest ih =>
    have hstep : step ⟨.inWord read, done⟩ c = some ⟨.inWord (c :: read), done⟩ :=
      if_pos (h c List.mem_cons_self)
    rw [List.foldlM_cons, hstep]
    show rest.foldlM step ⟨.inWord (c :: read), done⟩ = _
    rw [ih fun other hother => h other (List.mem_cons_of_mem _ hother), List.reverse_cons,
      List.append_assoc]
    rfl

/-- A word is read from its first character on. -/
theorem foldlM_word {chars : List Char} (h : ∀ c ∈ chars, isWordChar c = true)
    (hne : chars ≠ []) (done : List Token) :
    chars.foldlM step ⟨.between, done⟩ = some ⟨.inWord chars.reverse, done⟩ := by
  obtain ⟨c, rest, rfl⟩ := List.exists_cons_of_ne_nil hne
  have hc := h c List.mem_cons_self
  have hblank : isBlank c = false := by
    by_contra hblank
    simp only [isBlank, Bool.not_eq_false, Bool.or_eq_true, beq_iff_eq] at hblank
    rcases hblank with ((rfl | rfl) | rfl) | rfl <;> cases hc
  have hstep : step ⟨.between, done⟩ c = some ⟨.inWord [c], done⟩ := by
    show begin? done c = _
    unfold begin?
    rw [hblank, hc]
    rfl
  rw [List.foldlM_cons, hstep]
  show rest.foldlM step ⟨.inWord [c], done⟩ = _
  rw [foldlM_inWord fun other hother => h other (List.mem_cons_of_mem _ hother)]
  simp

/-- A word is a value. -/
theorem At.read_word (h : s.At p) (text : String) (hword : IsWord text) (hne : text.toList ≠ [])
    {value : Json} (hvalue : word? text.toList = some value)
    (hstep : p.step (.atom value) = some p') : s.Reads text.toList (·.Reaches p') := by
  obtain ⟨done, rfl, hdone⟩ := h
  refine ⟨_, foldlM_word hword hne done, _, .inWord ?_, foldlM_cons hdone hstep⟩
  rw [List.reverse_reverse, hvalue]

/-! ## Strings -/

/-- A code unit below the surrogates is the character of its number. -/
theorem pushUnit_of_lt {unit : Nat} (h : unit < 0xD800) (chars : List Char) :
    Literal.pushUnit ⟨some chars, none⟩ unit = ⟨some (Char.ofNat unit :: chars), none⟩ := by
  have hlow : (decide (0xDC00 ≤ unit) && decide (unit ≤ 0xDFFF)) = false := by
    rw [decide_eq_false (by omega), Bool.false_and]
  unfold Literal.pushUnit
  simp only [hlow]
  rw [if_neg (by omega)]
  rfl

/-- A character of a string is read from what stands for it. -/
theorem foldlM_escapeChar (c : Char) (chars : List Char) (done : List Token) :
    (escapeChar c).foldlM step ⟨.inString ⟨some chars, none⟩, done⟩
      = some ⟨.inString ⟨some (c :: chars), none⟩, done⟩ := by
  have hdigit : ∀ d < 16, hexDigit? (hexChar d) = some d := by decide
  unfold escapeChar
  split
  any_goals rfl
  rename_i hquote hbackslash _ _ _ _ _
  split_ifs with hcontrol
  · -- A control character is written as its code unit.
    have hunit : (0 * 16 + c.toNat / 16) * 16 + c.toNat % 16 = c.toNat := by omega
    show [hexChar (c.toNat / 16), hexChar (c.toNat % 16)].foldlM step
      ⟨.inUnit ⟨some chars, none⟩ 0 2, done⟩ = _
    simp only [List.foldlM_cons, List.foldlM_nil, step, hdigit _ (show c.toNat / 16 < 16 by omega),
      hdigit _ (show c.toNat % 16 < 16 by omega), Option.map_some, Option.bind_eq_bind,
      Option.bind_some]
    rw [if_neg (by decide)]
    simp only [Option.bind_some, if_true]
    rw [hunit, pushUnit_of_lt (by omega), Char.ofNat_toNat]
    rfl
  · have hstep : step ⟨.inString ⟨some chars, none⟩, done⟩ c
        = some ⟨.inString ⟨some (c :: chars), none⟩, done⟩ := by
      unfold step
      simp only [if_neg hquote, if_neg hbackslash, if_neg hcontrol]
      rfl
    rw [List.foldlM_cons, hstep]
    rfl

theorem foldlM_flatMap_escapeChar (text chars : List Char) (done : List Token) :
    (text.flatMap escapeChar).foldlM step ⟨.inString ⟨some chars, none⟩, done⟩
      = some ⟨.inString ⟨some (text.reverse ++ chars), none⟩, done⟩ := by
  induction text generalizing chars with
  | nil => rfl
  | cons c rest ih =>
    rw [List.flatMap_cons, List.foldlM_append, foldlM_escapeChar]
    show (rest.flatMap escapeChar).foldlM step ⟨.inString ⟨some (c :: chars), none⟩, done⟩ = _
    rw [ih, List.reverse_cons, List.append_assoc]
    rfl

/-- A string literal is read as its text. -/
theorem At.read_string (h : s.At p) {text : String}
    (hstep : p.step (.atom (.string (some text))) = some p') :
    s.Reads (stringChars (some text)) (·.At p') := by
  obtain ⟨done, rfl, hdone⟩ := h
  have htext : Literal.text? ⟨some (text.toList.reverse ++ []), none⟩ = some text := by
    unfold Literal.text?
    simp
  refine ⟨_, ?_, _, rfl, foldlM_cons hdone hstep⟩
  show ((text.toList.flatMap escapeChar) ++ ['"']).foldlM step ⟨.inString ⟨some [], none⟩, done⟩ = _
  rw [List.foldlM_append, foldlM_flatMap_escapeChar]
  show some (Scan.mk .between (.atom (.string (Literal.text? ⟨some _, none⟩)) :: done)) = _
  rw [htext]

end Scan

/-! ## Values -/

/-- The reader awaits a value inside the open parts, which the next token starts unless it closes
an array. -/
def Progress.Opens (p : Progress) (stack : List Frame) : Prop :=
  ∀ token, token ≠ .closeBracket → p.step token = Progress.open? stack token

namespace Scan

variable {s : Scan} {p : Progress} {stack : List Frame}

/-- A float that is read back alone has a word. -/
theorem word?_float {value : Float}
    (h : parse (compact (.float value)) = .ok (.float value)) :
    (floatLayout.text value).toList ≠ [] ∧
      word? (floatLayout.text value).toList = some (.float value) := by
  have hparsed : ofText? (compact (.float value)) = some (.float value) := by
    unfold parse at h
    cases htext : ofText? (compact (.float value)) with
    | none =>
      rw [htext] at h
      cases h
    | some parsed =>
      rw [htext] at h
      rw [Except.ok.inj h]
  have htokens :
      (tokens? (floatLayout.text value).toList).bind ofTokens? = some (.float value) := by
    rw [← hparsed]
    unfold ofText? compact
    rw [String.toList_ofList]
    rfl
  have hne : (floatLayout.text value).toList ≠ [] := fun hempty => by
    rw [hempty] at htokens
    cases htokens
  refine ⟨hne, ?_⟩
  unfold tokens? start at htokens
  rw [foldlM_word (isWord_float value) hne] at htokens
  cases hword : word? (floatLayout.text value).toList with
  | none => simp [finish?, hword] at htokens
  | some word =>
    simp only [Option.bind_some, finish?, List.reverse_reverse, hword, Option.map_some] at htokens
    exact htokens

/-- The text of the value is read as the value, wherever one is awaited. -/
def ReadsAs (value : Json) : Prop :=
  ∀ s p stack, At s p → p.Opens stack →
    s.Reads (compactChars value) (·.Reaches (.complete value stack))

/-- The items of an array behind its first one. -/
theorem Reaches.read_items {rest : List Json} (hread : ∀ item ∈ rest, ReadsAs item) {first : Json}
    {done : List Json} (hs : s.Reaches (.complete first (.items done :: stack))) :
    s.Reads (compactItems rest)
      (·.Reaches (.complete (.array ((first :: done).reverse ++ rest)) stack)) := by
  -- By induction on the items: each one that is read moves to the front of those that are done.
  induction rest generalizing s first done with
  | nil =>
    rw [List.append_nil]
    exact (hs.step_token rfl (fun _ => rfl) rfl).imp fun _ => At.reaches
  | cons item rest ih =>
    have hcomma : s.Reads [','] (·.At (.awaitValue (.items (first :: done) :: stack))) :=
      hs.step_token rfl (fun _ => rfl) rfl
    have hitem := hread item List.mem_cons_self
    unfold compactItems
    refine (hcomma.cons fun _ h => ?_)
    refine (hitem _ _ _ h fun _ _ => rfl).append fun _ h => ?_
    have hrest := ih (fun other hother => hread other (List.mem_cons_of_mem _ hother)) h
    rwa [List.reverse_cons, List.append_assoc] at hrest

/-- The members of an object behind its first one. -/
theorem Reaches.read_members {rest : Bindings Json} (hread : ∀ m ∈ rest, ReadsAs m.2)
    {key : Option String} {value : Json} {done : List (Option String × Json)}
    (hs : s.Reaches (.complete value (.members done key :: stack))) :
    s.Reads (compactMembers (rest.map fun m => (some m.1, m.2)))
      (·.Reaches (.complete (.object (((key, value) :: done).reverse
        ++ rest.map fun m => (some m.1, m.2))) stack)) := by
  -- By induction on the members, as for the items of an array.
  induction rest generalizing s key value done with
  | nil =>
    rw [List.map_nil, List.append_nil]
    exact (hs.step_token rfl (fun _ => rfl) rfl).imp fun _ => At.reaches
  | cons m rest ih =>
    have hcomma : s.Reads [','] (·.At (.awaitKey ((key, value) :: done) stack)) :=
      hs.step_token rfl (fun _ => rfl) rfl
    have hvalue := hread m List.mem_cons_self
    rw [List.map_cons]
    unfold compactMembers
    rw [List.append_assoc, List.cons_append, List.cons_append]
    refine hcomma.cons fun _ h => (h.read_string rfl).append fun _ h => ?_
    refine (h.reaches.step_token rfl (fun _ => rfl) rfl).cons fun _ h => ?_
    refine (hvalue _ _ _ h fun _ _ => rfl).append fun _ h => ?_
    have hrest := ih (fun other hother => hread other (List.mem_cons_of_mem _ hother)) h
    rwa [List.reverse_cons, List.append_assoc] at hrest

/-- The text of a value that can be written is read as the value. -/
theorem readsAs {value : Json} (h : value.Writable library.toTextFormat) : ReadsAs value := by
  intro s p stack hs hp
  -- By induction on the value, whatever is awaited around it: its parts are read on a larger stack.
  induction h generalizing s p stack with
  | null =>
    exact hs.read_word "null" (by decide) (by decide) rfl ((hp _ (by simp)).trans rfl)
  | bool value =>
    cases value with
    | true => exact hs.read_word "true" (by decide) (by decide) rfl ((hp _ (by simp)).trans rfl)
    | false => exact hs.read_word "false" (by decide) (by decide) rfl ((hp _ (by simp)).trans rfl)
  | @int value hlower hupper =>
    exact hs.read_word _ (isWord_int value) (toList_toString_int_ne_nil value)
      (word?_int hlower hupper) ((hp _ (by simp)).trans rfl)
  | @float value hvalue =>
    have hparsed : parse (compact (.float value)) = .ok (.float value) := by
      simpa only [library] using hvalue
    obtain ⟨hne, hword⟩ := word?_float hparsed
    exact hs.read_word _ (isWord_float value) hne hword ((hp _ (by simp)).trans rfl)
  | str text => exact (hs.read_string ((hp _ (by simp)).trans rfl)).imp fun _ => At.reaches
  | @array items _ ih =>
    have hopen : s.Reads ['['] (·.At (.firstItem stack)) :=
      hs.reaches.step_token rfl (fun _ => rfl) ((hp _ (by simp)).trans rfl)
    cases items with
    | nil =>
      exact hopen.cons fun _ h =>
        (h.reaches.step_token rfl (fun _ => rfl) rfl).imp fun _ => At.reaches
    | cons item rest =>
      -- Behind the bracket an item is awaited, unless the array ends at once.
      have hfirst : ∀ token, token ≠ .closeBracket →
          (Progress.firstItem stack).step token = Progress.open? (.items [] :: stack) token := by
        intro token hne
        cases token <;> first | rfl | exact absurd rfl hne
      refine hopen.cons fun _ h => (ih item List.mem_cons_self _ _ _ h hfirst).append fun _ h => ?_
      exact h.read_items fun other hother => ih other (List.mem_cons_of_mem _ hother)
  | @obj members _ _ ih =>
    have hopen : s.Reads ['\x7b'] (·.At (.firstKey stack)) :=
      hs.reaches.step_token rfl (fun _ => rfl) ((hp _ (by simp)).trans rfl)
    cases members with
    | nil =>
      exact hopen.cons fun _ h =>
        (h.reaches.step_token rfl (fun _ => rfl) rfl).imp fun _ => At.reaches
    | cons m rest =>
      unfold obj
      rw [List.map_cons]
      unfold compactChars
      rw [List.append_assoc, List.cons_append, List.cons_append]
      refine hopen.cons fun _ h => (h.read_string rfl).append fun _ h => ?_
      refine (h.reaches.step_token rfl (fun _ => rfl) rfl).cons fun _ h => ?_
      refine (ih m List.mem_cons_self _ _ _ h fun _ _ => rfl).append fun _ h => ?_
      exact h.read_members fun other hother => ih other (List.mem_cons_of_mem _ hother)

end Scan

/-- Reading undoes writing. -/
theorem parse_compact {value : Json} (h : value.Writable library.toTextFormat) :
    parse (compact value) = .ok value := by
  have hstart : Scan.At .start (.awaitValue []) := ⟨[], rfl, rfl⟩
  obtain ⟨s, hread, done, hhas, hdone⟩ := Scan.readsAs h _ _ _ hstart fun _ _ => rfl
  have htokens : tokens? (compact value).toList = some done.reverse := by
    unfold tokens? compact
    rw [String.toList_ofList, hread, Option.bind_some, hhas.finish?_eq, Option.map_some]
  have hdocument : ofText? (compact value) = some value := by
    unfold ofText? ofTokens?
    rw [htokens, Option.bind_some, hdone]
    rfl
  unfold parse
  rw [hdocument]

/-! ## Shapes of data -/

/-- The members that name different fields are found one after another. -/
theorem namedMembers_map {names : List String} {isClosed : Bool} {members found : Bindings Json}
    (hnames : ∀ m ∈ members, m.1 ∈ names) (hkeys : (Bindings.names (found ++ members)).Nodup) :
    namedMembers names isClosed (members.map fun m => (some m.1, m.2)) found
      = .ok (found ++ members) := by
  -- By induction on the members, for whatever fields were found before them.
  induction members generalizing found with
  | nil => rw [List.map_nil, namedMembers, List.append_nil]
  | cons m rest ih =>
    have hmem : names.contains m.1 = true := List.contains_iff_mem.2 (hnames m List.mem_cons_self)
    rw [Bindings.names_append, Bindings.names_cons, List.nodup_append] at hkeys
    have hnew : (found.get? m.1).isSome = false := by
      rw [Option.isSome_eq_false_iff, Option.isNone_iff_eq_none, Bindings.get?_eq_none_iff]
      exact fun hfound => hkeys.2.2 m.1 hfound m.1 List.mem_cons_self rfl
    rw [List.map_cons, namedMembers, if_pos hmem, hnew, if_neg (by decide), ih]
    · rw [List.append_assoc]
      rfl
    · exact fun other hother => hnames other (List.mem_cons_of_mem _ hother)
    · rwa [List.append_assoc, Bindings.names_append, Bindings.names_append, List.nodup_append]

/-- The library of this project does what is asked of one. -/
theorem library_spec : library.Spec where
  parse_compact _ h _ := parse_compact h
  text_str _ := rfl
  boolean_bool _ := rfl
  signed_int _ hlower hupper := if_pos ⟨hlower, hupper⟩
  number_float _ h := if_pos h
  optional_null _ := rfl
  optional_some {_ decode document _} hnull h := by
    show optional decode document = _
    unfold optional
    split
    · exact absurd rfl hnull
    · rw [h]
      rfl
  listOf_array h := h
  pairOf_array {_ _ first second a b _ _} ha hb := by
    show (do return (← first a, ← second b)) = _
    rw [ha, hb]
    rfl
  variant_str _ := rfl
  variant_obj _ _ := rfl
  plainVariant_str _ := rfl
  record_obj members hkeys := by
    refine ⟨members, ?_, fun m hm => Bindings.get?_eq_some_of_mem hkeys hm⟩
    exact namedMembers_map (fun m hm => List.mem_map_of_mem hm) hkeys
  required_eq hfield h := by
    show required _ _ _ = _
    unfold required
    rw [hfield]
    exact h
  defaulted_eq default hfield h := by
    show defaulted _ _ default _ = _
    unfold defaulted
    rw [hfield]
    exact h

end FactGuard.Json
