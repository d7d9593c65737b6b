import ServiceInjection.Text.Names

/-!
# Text.Names

The two spellings of a name. Camel case can be read back from snake case, so property
names in camel case have parameter names of their own. Class names are compared up to the case
of their letters.
-/

namespace ServiceInjection.Text

open List

/-! ### ASCII letters -/

/-- What holds of all characters with codes between two bounds. -/
theorem forall_between {test : Char → Bool} {low high : Nat}
    (hall : ∀ n ≤ high, low ≤ n → test (Char.ofNat n) = true) {c : Char} (hlow : low ≤ c.toNat)
    (hhigh : c.toNat ≤ high) : test c = true :=
  Char.ofNat_toNat c ▸ hall c.toNat hhigh hlow

theorem forall_isUpper {test : Char → Bool} (hall : ∀ n ≤ 90, 65 ≤ n → test (Char.ofNat n) = true)
    {c : Char} (h : c.isUpper = true) : test c = true := by
  have hcode : 65 ≤ c.toNat ∧ c.toNat ≤ 90 := by
    simpa [UInt32.le_iff_toNat_le] using of_decide_eq_true h
  exact forall_between hall hcode.1 hcode.2

/-- A capital is the capital of its small letter, which is a letter and no capital. -/
theorem toLower_of_isUpper {c : Char} (h : c.isUpper = true) :
    c.toLower.toUpper = c ∧ c.toLower.isAlphanum = true ∧ c.toLower.isUpper = false := by
  have htest := @forall_isUpper (fun c => c.toLower.toUpper = c ∧ c.toLower.isAlphanum = true ∧
    c.toLower.isUpper = false) (by decide) c h
  simpa using htest

theorem toLower_of_not_isUpper {c : Char} (h : c.isUpper = false) : c.toLower = c :=
  dif_neg (of_decide_eq_false h)

/-- A test that does not tell capitals from small letters. -/
theorem apply_toLower {test : Char → Bool}
    (hall : ∀ n ≤ 90, 65 ≤ n → (test (Char.ofNat n).toLower == test (Char.ofNat n)) = true)
    (c : Char) : test c.toLower = test c := by
  cases h : c.isUpper with
  | true => exact beq_iff_eq.mp (@forall_isUpper (fun c => test c.toLower == test c) hall c h)
  | false => rw [toLower_of_not_isUpper h]

theorem isUpper_toLower (c : Char) : c.toLower.isUpper = false := by
  cases h : c.isUpper with
  | true => exact (toLower_of_isUpper h).2.2
  | false => rw [toLower_of_not_isUpper h, h]

theorem isAlphanum_toLower {c : Char} (h : c.isAlphanum = true) : c.toLower.isAlphanum = true := by
  cases hupper : c.isUpper with
  | true => exact (toLower_of_isUpper hupper).2.1
  | false => rwa [toLower_of_not_isUpper hupper]

theorem isAlphanum_toUpper {c : Char} (h : c.isAlphanum = true) : c.toUpper.isAlphanum = true := by
  by_cases hlower : 'a'.val ≤ c.val ∧ c.val ≤ 'z'.val
  · have hcode : 97 ≤ c.toNat ∧ c.toNat ≤ 122 := by
      simpa [UInt32.le_iff_toNat_le] using hlower
    exact @forall_between (fun c => c.toUpper.isAlphanum) 97 122 (by decide) c hcode.1 hcode.2
  · have hsame : c.toUpper = c := dif_neg hlower
    rwa [hsame]

/-! ### Reading snake case -/

theorem camelTail_of_isAlphanum {cs : List Char} (h : ∀ c ∈ cs, c.isAlphanum = true) :
    camelTail false cs = cs := by
  induction cs with
  | nil => rfl
  | cons c cs ih =>
    obtain ⟨hc, hcs⟩ := forall_mem_cons.mp h
    rw [camelTail, if_pos hc, if_neg (by decide), ih hcs]

theorem camelTail_snakeTail {cs : List Char} (h : ∀ c ∈ cs, c.isAlphanum = true) :
    camelTail false (snakeTail cs) = cs := by
  induction cs with
  | nil => rfl
  | cons c cs ih =>
    obtain ⟨hc, hcs⟩ := forall_mem_cons.mp h
    rw [snakeTail]
    split
    · rename_i hupper
      obtain ⟨hback, hletter, -⟩ := toLower_of_isUpper hupper
      rw [camelTail, if_neg (by decide), camelTail, if_pos hletter, if_pos rfl, hback, ih hcs]
    · rw [camelTail, if_pos hc, if_neg (by decide), ih hcs]

theorem isAlphanum_of_mem_camelTail {capital : Bool} {cs : List Char} {c : Char}
    (h : c ∈ camelTail capital cs) : c.isAlphanum = true := by
  fun_induction camelTail capital cs with
  | case1 => cases h
  | case2 capital d cs hd ih =>
    rcases mem_cons.mp h with rfl | h
    · split
      · exact isAlphanum_toUpper hd
      · exact hd
    · exact ih h
  | case3 capital d cs hd ih => exact ih h

/-- A word in camel case starts with no capital and consists of letters and digits. -/
theorem camelWord_cases (cs : List Char) :
    camelWord cs = [] ∨ ∃ c rest, camelWord cs = c :: rest ∧ c.isUpper = false ∧
      c.isAlphanum = true ∧ ∀ d ∈ rest, d.isAlphanum = true := by
  fun_induction camelWord cs with
  | case1 => exact .inl rfl
  | case2 c cs hc =>
    exact .inr ⟨_, _, rfl, isUpper_toLower c, isAlphanum_toLower hc,
      fun _ => isAlphanum_of_mem_camelTail⟩
  | case3 c cs hc ih => exact ih

/-- A word in camel case can be read back from a tail that gives its own. A digit in front is
guarded by an underscore, which is dropped and comes back. -/
theorem camelCase_guardDigit {c : Char} {tail rest : List Char} (hupper : c.isUpper = false)
    (hletter : c.isAlphanum = true) (htail : camelTail false tail = rest) :
    camelCase (String.ofList (guardDigit (c :: tail))) = String.ofList (guardDigit (c :: rest)) := by
  have hword : camelWord (guardDigit (c :: tail)) = c :: rest := by
    have hback : camelWord (c :: tail) = c :: rest := by
      rw [camelWord, if_pos hletter, toLower_of_not_isUpper hupper, htail]
    rw [guardDigit]
    split
    · rw [camelWord, if_neg (by decide), hback]
    · exact hback
  rw [camelCase, String.toList_ofList, hword]

theorem snakeCase_guardDigit {c : Char} (rest : List Char) (hupper : c.isUpper = false) :
    snakeCase (String.ofList (guardDigit (c :: rest))) =
      String.ofList (guardDigit (c :: snakeTail rest)) := by
  rw [snakeCase, String.toList_ofList, guardDigit, guardDigit]
  by_cases hdigit : c.isDigit = true
  · simp only [if_pos hdigit, snakeTail, hupper]
    rfl
  · simp only [if_neg hdigit, toLower_of_not_isUpper hupper]

theorem camelCase_camelCase (id : String) : camelCase (camelCase id) = camelCase id := by
  rw [camelCase.eq_def id]
  rcases camelWord_cases id.toList with hword | ⟨c, rest, hword, hupper, hletter, hrest⟩
  · rw [hword]
    rfl
  · rw [hword]
    exact camelCase_guardDigit hupper hletter (camelTail_of_isAlphanum hrest)

/-- A property name in camel case can be read back from the parameter name. -/
theorem camelCase_snakeCase {name : String} (h : camelCase name = name) :
    camelCase (snakeCase name) = name := by
  rw [← h, camelCase.eq_def name]
  rcases camelWord_cases name.toList with hword | ⟨c, rest, hword, hupper, hletter, hrest⟩
  · rw [hword]
    rfl
  · rw [hword, snakeCase_guardDigit rest hupper]
    exact camelCase_guardDigit hupper hletter (camelTail_snakeTail hrest)

/-- **Derived names.** The property name of a service id is in camel case already, it can be read
back from the parameter name, and so ids with different property names have different parameter
names. -/
theorem derivedNames_roundTrip (id : String) :
    camelCase (camelCase id) = camelCase id ∧
      camelCase (snakeCase (camelCase id)) = camelCase id ∧
      ∀ other, snakeCase (camelCase id) = snakeCase (camelCase other) ↔
        camelCase id = camelCase other := by
  have hback : ∀ name, camelCase (snakeCase (camelCase name)) = camelCase name :=
    fun name => camelCase_snakeCase (camelCase_camelCase name)
  refine ⟨camelCase_camelCase id, hback id, fun other => ⟨fun heq => ?_, fun heq => heq ▸ rfl⟩⟩
  rw [← hback id, heq, hback other]

/-! ### Class names -/

theorem sameName_refl (a : String) : sameName a a = true := by
  rw [sameName, beq_iff_eq]

theorem sameName_comm (a b : String) : sameName a b = sameName b a := by
  rw [sameName, sameName, Bool.eq_iff_iff, beq_iff_eq, beq_iff_eq, eq_comm]

theorem sameName_trans {a b c : String} (hab : sameName a b = true) (hbc : sameName b c = true) :
    sameName a c = true := by
  rw [sameName, beq_iff_eq] at *
  exact hab.trans hbc

theorem not_mem_shortName (name : String) : '\\' ∉ (shortName name).toList := by
  rw [shortName, String.toList_ofList, mem_reverse]
  intro hmem
  simpa using all_eq_true.mp all_takeWhile _ hmem

theorem sameName_shortName {a b : String} (h : sameName a b = true) :
    sameName (shortName a) (shortName b) = true := by
  have hslash : ∀ c : Char, (c.toLower == '\\') = (c == '\\') :=
    @apply_toLower (· == '\\') (by decide)
  have hshort : ∀ name : String, (shortName name).toList.map Char.toLower =
      ((dropRoot (name.toList.map Char.toLower)).reverse.takeWhile (· != '\\')).reverse := by
    intro name
    simp only [shortName, dropRoot, String.toList_ofList, dropWhile_map, takeWhile_map,
      ← map_reverse, Function.comp_def, bne, hslash]
  rw [sameName, beq_iff_eq] at h ⊢
  rw [hshort, hshort, h]

theorem unrooted_unrooted (name : String) : unrooted (unrooted name) = unrooted name := by
  rw [unrooted, unrooted, String.toList_ofList, dropRoot, dropRoot]
  congr 1
  cases hrest : name.toList.dropWhile (· == '\\') with
  | nil => rfl
  | cons c rest =>
    have hnot := head?_dropWhile_not (· == '\\') name.toList
    rw [hrest] at hnot
    exact dropWhile_cons_of_neg (by simpa using hnot)

end ServiceInjection.Text
