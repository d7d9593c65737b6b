import ServiceInjection.Proofs.Outline.Parts

/-!
# Outline.Variables

Variable declarations as they are written: modifiers, a type and a name. A declaration is
read with the name it was written with, even where its type could pass for a modifier.
-/

namespace ServiceInjection

open Text List

/-! ### Words -/

namespace Text

/-- Whether a text is a word. -/
def IsName (cs : List Char) : Prop := cs ≠ [] ∧ ∀ c ∈ cs, isWord c = true

instance (cs : List Char) : Decidable (IsName cs) := inferInstanceAs (Decidable (_ ∧ _))

/-- Whether a text is a qualified name. -/
def IsQualified (cs : List Char) : Prop := cs ≠ [] ∧ ∀ c ∈ cs, isNameChar c = true

instance (cs : List Char) : Decidable (IsQualified cs) := inferInstanceAs (Decidable (_ ∧ _))

theorem run_append {accepts : Char → Bool} {taken rest : List Char} (hne : taken ≠ [])
    (htaken : ∀ c ∈ taken, accepts c = true) (hrest : ∀ c ∈ rest.head?, accepts c = false) :
    run accepts (taken ++ rest) = some (taken, rest) := by
  obtain ⟨htake, hdrop⟩ := span_append hrest taken
  rw [run, htake, hdrop, takeWhile_eq_self_iff.mpr htaken, dropWhile_eq_nil_iff.mpr htaken]
  cases taken with
  | nil => exact absurd rfl hne
  | cons c taken => rfl

/-- A word is read up to its end. -/
theorem word_append {name rest : List Char} (hname : IsName name)
    (hrest : ∀ c ∈ rest.head?, isWord c = false) : word (name ++ rest) = some (name, rest) :=
  run_append hname.1 hname.2 hrest

/-- The code points of the blanks. -/
def blankPoints : List Nat :=
  [0x09, 0x0A, 0x0B, 0x0C, 0x0D, 0x20, 0x85, 0xA0, 0x1680, 0x2000, 0x2001, 0x2002, 0x2003, 0x2004,
    0x2005, 0x2006, 0x2007, 0x2008, 0x2009, 0x200A, 0x2028, 0x2029, 0x202F, 0x205F, 0x3000]

/-- No blank belongs to a word. -/
theorem not_isWord_of_isBlank {c : Char} (h : isBlank c = true) : isWord c = false := by
  have hpoint : c.toNat ∈ blankPoints := by
    simp only [isBlank, Bool.or_eq_true, Bool.and_eq_true, decide_eq_true_eq, beq_iff_eq] at h
    simp only [blankPoints, mem_cons, not_mem_nil, or_false]
    omega
  have hall : ∀ n ∈ blankPoints, isWord (Char.ofNat n) = false := by decide +kernel
  have := hall _ hpoint
  rwa [Char.ofNat_toNat] at this

theorem not_isNameChar_of_isBlank {c : Char} (h : isBlank c = true) : isNameChar c = false := by
  rw [isNameChar, not_isWord_of_isBlank h, Bool.false_or, beq_eq_false_iff_ne]
  rintro rfl
  exact absurd h (by decide)

theorem isBlank_of_isNameChar {c : Char} (h : isNameChar c = true) : isBlank c = false := by
  cases hblank : isBlank c with
  | false => rfl
  | true => exact absurd h (by rw [not_isNameChar_of_isBlank hblank]; decide)

theorem isNameChar_of_isWord {c : Char} (h : isWord c = true) : isNameChar c = true := by
  rw [isNameChar, h, Bool.true_or]

theorem isTypeChar_of_isNameChar {c : Char} (h : isNameChar c = true) : isTypeChar c = true := by
  rw [isTypeChar, h, Bool.true_or]

theorem not_isTypeChar_of_isBlank {c : Char} (h : isBlank c = true) : isTypeChar c = false := by
  have hmarks : ∀ mark ∈ "|&()".toList, isBlank mark = false := by decide
  rw [isTypeChar, not_isNameChar_of_isBlank h, Bool.false_or, contains_eq_mem,
    decide_eq_false_iff_not]
  exact fun hmem => absurd h (by rw [hmarks c hmem]; decide)

end Text

/-! ### Names -/

/-- What may follow the name of a variable. -/
def EndsName (tail : List Char) : Prop := ∀ c ∈ tail.head?, isWord c = false

instance (tail : List Char) : Decidable (EndsName tail) := Option.decidableForallMem tail.head?

variable {words : List String} {marks : Bool} {name tail : List Char}

theorem typedName_dollar (hname : IsName name) (htail : EndsName tail) (front : List Char) :
    typedName marks front ('$' :: (name ++ tail)) = some (⟨front, none, name⟩, tail) := by
  have hword := word_append hname htail
  have hhint : typeHint ('$' :: (name ++ tail)) = none := by
    simp [typeHint, skipChar, run, show isTypeChar '$' = false by decide]
  cases marks <;>
    simp [typedName, hhint, skipChar, literal, literalChars, hword]

theorem oneOf_eq_none {cs : List Char} (h : ∀ w ∈ words, literal w cs = none) :
    oneOf words cs = none := by
  rw [oneOf, findSome?_eq_none_iff]
  intro w hw
  rw [h w hw]
  rfl

theorem modifier_dollar (hwords : ∀ w ∈ words, IsName w.toList) (cs : List Char) :
    modifier words ('$' :: cs) = none := by
  have hnone : oneOf words ('$' :: cs) = none := by
    refine oneOf_eq_none fun w hw => ?_
    obtain ⟨hne, hall⟩ := hwords w hw
    rw [literal]
    cases hchars : w.toList with
    | nil => exact absurd hchars hne
    | cons c rest =>
      have hc := hall c (by rw [hchars]; exact mem_cons_self)
      rw [literalChars, if_neg]
      intro heq
      rw [eq_of_beq heq] at hc
      exact absurd hc (by decide)
  rw [modifier, hnone]
  rfl

/-- A declaration without a type. -/
theorem declarationAfter_untyped (hwords : ∀ w ∈ words, IsName w.toList) (hname : IsName name)
    (htail : EndsName tail) (front : List Char) :
    declarationAfter words marks front ('$' :: (name ++ tail)) =
      some (⟨front, none, name⟩, tail) := by
  rw [declarationAfter, modifier_dollar hwords]
  exact typedName_dollar hname htail front

/-! ### Types -/

variable {hint : List Char}

theorem typedName_typed (hhint : IsQualified hint) (hname : IsName name) (htail : EndsName tail)
    (front : List Char) :
    typedName marks front (hint ++ ' ' :: '$' :: (name ++ tail)) =
      some (⟨front, some hint, name⟩, tail) := by
  have hword := word_append hname htail
  have hmark : ∀ c ∈ hint, c ≠ '?' := by
    rintro c hc rfl
    exact absurd (hhint.2 _ hc) (by decide)
  have hskip : skipChar '?' (hint ++ ' ' :: '$' :: (name ++ tail)) =
      hint ++ ' ' :: '$' :: (name ++ tail) ∧
      ((hint ++ ' ' :: '$' :: (name ++ tail)).head? == some '?') = false := by
    cases hint with
    | nil => exact absurd rfl hhint.1
    | cons c hint =>
      have hc := hmark c mem_cons_self
      simp [skipChar, Ne.symm hc, hc]
  have hrun : run isTypeChar (hint ++ ' ' :: '$' :: (name ++ tail)) =
      some (hint, ' ' :: '$' :: (name ++ tail)) :=
    run_append hhint.1 (fun c hc => isTypeChar_of_isNameChar (hhint.2 c hc))
      (by simp [show isTypeChar ' ' = false by decide])
  have hread : typeHint (hint ++ ' ' :: '$' :: (name ++ tail)) =
      some (hint, '$' :: (name ++ tail)) := by
    have hblanks : someBlanks (' ' :: '$' :: (name ++ tail)) = some ('$' :: (name ++ tail)) := by
      simp [someBlanks, blanks, show isBlank ' ' = true by decide,
        show isBlank '$' = false by decide]
    rw [typeHint, hskip.1, hrun, hskip.2]
    simp [hblanks]
  cases marks <;> simp [typedName, hread, skipChar, literal, literalChars, hword]

/-- A word that a text starts with ends within the type there. -/
theorem literal_typed {cs rest more : List Char} {keyword : String}
    (hkeyword : IsName keyword.toList) (h : literal keyword (cs ++ ' ' :: more) = some rest) :
    ∃ left, cs = keyword.toList ++ left ∧ rest = left ++ ' ' :: more := by
  rcases append_eq_append_iff.mp (literal_eq_some.mp h) with
    ⟨left, hleft, hmore⟩ | ⟨left, hleft, hmore⟩
  · -- The word holds no blank, so it does not reach behind the type.
    cases left with
    | nil => exact ⟨[], by simpa using hleft.symm, by simpa using hmore.symm⟩
    | cons c left =>
      cases hmore
      have hblank := hkeyword.2 ' ' (by rw [hleft]; simp)
      exact absurd hblank (by decide)
  · exact ⟨left, hleft, hmore⟩

/-- A type that starts with a modifier and blanks is that modifier. -/
theorem modifier_typed (hwords : ∀ w ∈ words, IsName w.toList) (hhint : IsQualified hint)
    {cs rest : List Char} (h : modifier words (hint ++ ' ' :: '$' :: cs) = some rest) :
    String.ofList hint ∈ words ∧ rest = '$' :: cs := by
  simp only [modifier, Option.bind_eq_bind, Option.bind_eq_some_iff] at h
  obtain ⟨⟨w, behind⟩, hone, hblanks⟩ := h
  obtain ⟨w', hw, hread⟩ := exists_of_findSome?_eq_some hone
  obtain ⟨behind', hliteral, heq⟩ := Option.map_eq_some_iff.mp hread
  obtain ⟨rfl, rfl⟩ := Prod.mk.inj heq
  obtain ⟨more, rfl, rfl⟩ := literal_typed (hwords w' hw) hliteral
  cases more with
  | nil =>
    refine ⟨by simpa using hw, ?_⟩
    have hrest : some ('$' :: cs) = some rest := by
      simpa [literal, literalChars, someBlanks, blanks, show isBlank ' ' = true by decide,
        show isBlank '$' = false by decide] using hblanks
    exact (Option.some.inj hrest).symm
  | cons c more =>
    have hc : isNameChar c = true := hhint.2 c (by simp)
    have hparen : ('(' == c) = false := by
      rw [beq_eq_false_iff_ne]
      rintro rfl
      exact absurd hc (by decide)
    have hblank := isBlank_of_isNameChar hc
    simp [literal, literalChars, hparen, someBlanks, hblank] at hblanks

/-- A declaration with a type that is no modifier. -/
theorem declarationAfter_typed (hwords : ∀ w ∈ words, IsName w.toList) (hhint : IsQualified hint)
    (hclass : String.ofList hint ∉ words) (hname : IsName name) (htail : EndsName tail)
    (front : List Char) :
    declarationAfter words marks front (hint ++ ' ' :: '$' :: (name ++ tail)) =
      some (⟨front, some hint, name⟩, tail) := by
  have hnone : modifier words (hint ++ ' ' :: '$' :: (name ++ tail)) = none := by
    rw [Option.eq_none_iff_forall_ne_some]
    intro rest hrest
    exact hclass (modifier_typed hwords hhint hrest).1
  rw [declarationAfter, hnone]
  exact typedName_typed hhint hname htail front

/-! ### Parameters -/

/-- A parameter keeps the text of its entry. -/
theorem Param.text_of? {cs masked : List Char} {param : Param} (h : Param.of? cs masked = some param) :
    param.text = String.ofList cs := by
  simp only [Param.of?, Option.bind_eq_bind, Option.bind_eq_some_iff] at h
  obtain ⟨decl, -, h⟩ := h
  exact Option.some.inj h ▸ rfl

end ServiceInjection
