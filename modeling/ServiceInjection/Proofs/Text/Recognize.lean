import ServiceInjection.Source.Expressions

/-!
# Text.Recognize

What recognisers read. A recogniser that succeeds has read a prefix of its input,
and the lemmas here say what that prefix looks like: one for each piece of
`Text.Recognize` and for the expressions that fetch a service. A match of a search
is a success of its recogniser at the place of the match (`of_mem_allMatches`), and a text
that a recogniser reads is found where it was written (`matchesFrom_hit`).
-/

namespace ServiceInjection

open List

variable {cs rest : List Char} {c : Char}

namespace Text

/-- A property of all characters of a text is decided along the text, and not by a search
through all characters. -/
instance (priority := 2000) decidableForallMem {p : Char → Prop} [DecidablePred p]
    (cs : List Char) : Decidable (∀ c ∈ cs, p c) := List.decidableBAll p cs

/-! ### Pieces -/

theorem literalChars_eq_some {expected : List Char} :
    literalChars expected cs = some rest ↔ cs = expected ++ rest := by
  induction expected generalizing cs with
  | nil => simp [literalChars]
  | cons e es ih =>
    cases cs with
    | nil => simp [literalChars]
    | cons c cs =>
      rw [literalChars]
      by_cases hc : e = c
      · subst hc
        simp [ih]
      · have hc' : ¬ c = e := fun h => hc h.symm
        simp [hc, hc']

theorem literal_eq_some {expected : String} :
    literal expected cs = some rest ↔ cs = expected.toList ++ rest :=
  literalChars_eq_some

theorem literal_eq_none {expected : String} {d : Char} {es : List Char}
    (hexpected : expected.toList = d :: es) (hne : d ≠ c) : literal expected (c :: cs) = none := by
  rw [literal, hexpected, literalChars, if_neg (by simpa using hne)]

theorem exists_blanks (cs : List Char) :
    ∃ gap, (∀ c ∈ gap, isBlank c = true) ∧ cs = gap ++ blanks cs :=
  ⟨cs.takeWhile isBlank, fun _ hc => all_eq_true.mp all_takeWhile _ hc,
    (takeWhile_append_dropWhile).symm⟩

theorem exists_skipChar (c : Char) (cs : List Char) :
    ∃ skipped, (skipped = [] ∨ skipped = [c]) ∧ cs = skipped ++ skipChar c cs := by
  cases cs with
  | nil => exact ⟨[], Or.inl rfl, rfl⟩
  | cons d cs =>
    by_cases hd : c = d
    · subst hd
      exact ⟨[c], Or.inr rfl, by simp [skipChar]⟩
    · exact ⟨[], Or.inl rfl, by simp [skipChar, hd]⟩

theorem run_eq_some {accepts : Char → Bool} {taken : List Char}
    (h : run accepts cs = some (taken, rest)) :
    cs = taken ++ rest ∧ taken ≠ [] ∧ ∀ c ∈ taken, accepts c = true := by
  unfold run at h
  split at h
  · cases h
  · rename_i hne
    obtain ⟨rfl, rfl⟩ : cs.takeWhile accepts = taken ∧ cs.dropWhile accepts = rest := by
      simpa using h
    exact ⟨(takeWhile_append_dropWhile).symm, hne,
      fun _ hc => all_eq_true.mp all_takeWhile _ hc⟩

theorem word_eq_some {name : List Char} (h : word cs = some (name, rest)) :
    cs = name ++ rest ∧ name ≠ [] ∧ ∀ c ∈ name, isWord c = true :=
  run_eq_some h

theorem upTo_eq_some {stop : Char} {content : List Char} (h : upTo stop cs = some (content, rest)) :
    cs = content ++ stop :: rest ∧ stop ∉ content := by
  unfold upTo at h
  split at h
  · cases h
  · rename_i d tail hdrop
    obtain ⟨rfl, rfl⟩ : cs.takeWhile (· != stop) = content ∧ tail = rest := by simpa using h
    have hd : d = stop := by
      have hhead := head?_dropWhile_not (· != stop) cs
      rw [hdrop] at hhead
      simpa using hhead
    refine ⟨?_, ?_⟩
    · rw [hd] at hdrop
      rw [← hdrop, takeWhile_append_dropWhile]
    · intro hmem
      simpa using all_eq_true.mp all_takeWhile _ hmem

/-- Whether a character is one of the two quotes. -/
def IsQuote (c : Char) : Prop := c = '\'' ∨ c = '"'

theorem quoted_eq_some {content : List Char} (h : quoted cs = some (content, rest)) :
    ∃ quote, IsQuote quote ∧ cs = quote :: (content ++ quote :: rest) ∧ quote ∉ content := by
  unfold quoted at h
  split at h
  · obtain ⟨rfl, hnot⟩ := upTo_eq_some h
    exact ⟨_, Or.inl rfl, rfl, hnot⟩
  · obtain ⟨rfl, hnot⟩ := upTo_eq_some h
    exact ⟨_, Or.inr rfl, rfl, hnot⟩
  · cases h

/-! ### Searches -/

/-- The matches behind index `index` are successes of the recogniser there. -/
theorem of_mem_matchesFrom {α : Type} {recognize : List Char → Option (α × List Char)}
    {skip index : Nat} {m : Match α} (h : m ∈ matchesFrom recognize skip index cs) :
    ∃ k rest, k < cs.length ∧ m.start = index + k ∧
      recognize (cs.drop k) = some (m.value, rest) ∧
      m.stop = m.start + ((cs.drop k).length - rest.length) := by
  induction cs generalizing skip index with
  | nil => simp [matchesFrom] at h
  | cons c cs ih =>
    have hlater : ∀ {skip}, m ∈ matchesFrom recognize skip (index + 1) cs →
        ∃ k rest, k < (c :: cs).length ∧ m.start = index + k ∧
          recognize ((c :: cs).drop k) = some (m.value, rest) ∧
          m.stop = m.start + (((c :: cs).drop k).length - rest.length) := by
      intro skip hm
      obtain ⟨k, rest, hk, hstart, hread, hstop⟩ := ih hm
      exact ⟨k + 1, rest, by simpa using hk, by omega, hread, hstop⟩
    cases skip with
    | succ skip => exact hlater (by simpa [matchesFrom] using h)
    | zero =>
      rw [matchesFrom] at h
      split at h
      · rename_i value rest hread
        rcases mem_cons.mp h with rfl | hm
        · exact ⟨0, rest, by simp, rfl, hread, rfl⟩
        · exact hlater hm
      · exact hlater h

/-- A match of a search is a success of its recogniser. -/
theorem of_mem_allMatches {α : Type} {recognize : List Char → Option (α × List Char)} {m : Match α}
    (h : m ∈ allMatches recognize cs) :
    m.start < cs.length ∧ ∃ rest, recognize (cs.drop m.start) = some (m.value, rest) ∧
      m.stop = m.start + ((cs.drop m.start).length - rest.length) := by
  obtain ⟨k, rest, hk, hstart, hread, hstop⟩ := of_mem_matchesFrom h
  have hk' : k = m.start := by omega
  subst hk'
  exact ⟨hk, rest, hread, hstop⟩

/-- The leftmost match is a success of the recogniser at its place. -/
theorem of_firstMatchFrom {α : Type} {allowed : Option Char → Bool}
    {recognize : List Char → Option (α × List Char)} {before : Option Char} {index : Nat}
    {m : Match α} (h : firstMatchFrom allowed recognize before index cs = some m) :
    ∃ front text rest, cs = front ++ text ∧ recognize text = some (m.value, rest) ∧
      m.stop = index + front.length + (text.length - rest.length) := by
  induction cs generalizing before index with
  | nil => cases h
  | cons c cs ih =>
    rw [firstMatchFrom] at h
    split at h
    · rename_i value rest hhit
      cases h
      split at hhit
      · exact ⟨[], c :: cs, rest, rfl, hhit, rfl⟩
      · cases hhit
    · obtain ⟨front, text, rest, rfl, hhit, hstop⟩ := ih h
      exact ⟨c :: front, text, rest, rfl, hhit, by rw [hstop, length_cons]; omega⟩

end Text

/-! ### Expressions -/

open Text

theorem variableExpr_eq_some {name : List Char} (h : variableExpr cs = some (name, rest)) :
    cs = '$' :: (name ++ rest) ∧ name ≠ [] ∧ ∀ c ∈ name, isWord c = true := by
  simp only [variableExpr, Option.bind_eq_bind, Option.bind_eq_some_iff] at h
  obtain ⟨cs', hdollar, hword⟩ := h
  obtain ⟨rfl, hname⟩ := word_eq_some hword
  exact ⟨literal_eq_some.mp hdollar, hname⟩

theorem arrowTo_eq_some (h : arrowTo cs = some rest) :
    ∃ gap gap', (∀ c ∈ gap, isBlank c = true) ∧ (∀ c ∈ gap', isBlank c = true) ∧
      cs = gap ++ '-' :: '>' :: (gap' ++ rest) := by
  simp only [arrowTo, Option.map_eq_some_iff] at h
  obtain ⟨behind, harrow, rfl⟩ := h
  obtain ⟨gap, hgap, hcs⟩ := exists_blanks cs
  obtain ⟨gap', hgap', hbehind⟩ := exists_blanks behind
  refine ⟨gap, gap', hgap, hgap', ?_⟩
  rw [literal_eq_some.mp harrow] at hcs
  rw [hcs, ← hbehind]
  rfl

theorem quotedCall_eq_some {id : List Char} (h : quotedCall cs = some (id, rest)) :
    ∃ gap quote gap', (∀ c ∈ gap, isBlank c = true) ∧ IsQuote quote ∧ quote ∉ id ∧
      (∀ c ∈ gap', isBlank c = true) ∧
      cs = '(' :: (gap ++ quote :: (id ++ quote :: (gap' ++ ')' :: rest))) := by
  simp only [quotedCall, Option.bind_eq_bind, Option.bind_eq_some_iff, Option.some.injEq,
    Prod.mk.injEq, Prod.exists] at h
  obtain ⟨inner, hopen, content, behind, hquoted, after, hclose, rfl, rfl⟩ := h
  obtain ⟨gap, hgap, hinner⟩ := exists_blanks inner
  obtain ⟨quote, hquote, hcontent, hnot⟩ := quoted_eq_some hquoted
  obtain ⟨gap', hgap', hbehind⟩ := exists_blanks behind
  refine ⟨gap, quote, gap', hgap, hquote, hnot, hgap', ?_⟩
  rw [literal_eq_some.mp hclose] at hbehind
  rw [literal_eq_some.mp hopen, hinner, hcontent, hbehind]
  rfl

/-- `$container->get('id')`, piece by piece. -/
theorem containerGet_eq_some {fetch : ContainerGet} (h : containerGet cs = some (fetch, rest)) :
    ∃ gap gap' behind, fetch.container ≠ [] ∧ (∀ c ∈ fetch.container, isWord c = true) ∧
      (∀ c ∈ gap, isBlank c = true) ∧ (∀ c ∈ gap', isBlank c = true) ∧
      quotedCall behind = some (fetch.serviceId, rest) ∧
      cs = '$' :: (fetch.container ++ (gap ++ '-' :: '>' :: (gap' ++ ("get".toList ++ behind)))) := by
  simp only [containerGet, Option.bind_eq_bind, Option.bind_eq_some_iff, Option.some.injEq,
    Prod.mk.injEq, Prod.exists] at h
  obtain ⟨container, afterName, hname, afterArrow, harrow, behind, hget, id, rest', hcall, rfl, rfl⟩ := h
  obtain ⟨hcs, hne, hword⟩ := variableExpr_eq_some hname
  obtain ⟨gap, gap', hgap, hgap', hafter⟩ := arrowTo_eq_some harrow
  refine ⟨gap, gap', behind, hne, hword, hgap, hgap', hcall, ?_⟩
  rw [hcs, hafter, literal_eq_some.mp hget]

namespace Text

/-! ### Finding what was written -/

theorem blanks_cons (hc : isBlank c = false) (cs : List Char) :
    blanks (c :: cs) = c :: cs := dropWhile_cons_of_neg (by simp [hc])

/-- What the characters of a text are read up to stays the same if no such character follows. -/
theorem span_append {accepts : Char → Bool} (h : ∀ c ∈ rest.head?, accepts c = false)
    (cs : List Char) : (cs ++ rest).takeWhile accepts = cs.takeWhile accepts ∧
      (cs ++ rest).dropWhile accepts = cs.dropWhile accepts ++ rest := by
  induction cs with
  | nil =>
    cases rest with
    | nil => exact ⟨rfl, rfl⟩
    | cons c rest => simp [h c rfl]
  | cons c cs ih =>
    rw [cons_append, takeWhile_cons, takeWhile_cons, dropWhile_cons, dropWhile_cons, ih.1, ih.2]
    split <;> exact ⟨rfl, rfl⟩

theorem upTo_append {stop : Char} (h : stop ∉ cs) (rest : List Char) :
    upTo stop (cs ++ stop :: rest) = some (cs, rest) := by
  have hcs : ∀ c ∈ cs, (c != stop) = true := by
    intro c hc
    simp only [bne_iff_ne]
    rintro rfl
    exact h hc
  rw [upTo, dropWhile_append_of_pos hcs, takeWhile_append_of_pos hcs]
  simp

section

variable {α : Type} {recognize : List Char → Option (α × List Char)}

theorem matchesFrom_skip (skip index : Nat) (cs : List Char) :
    matchesFrom recognize skip index cs = matchesFrom recognize 0 (index + skip) (cs.drop skip) := by
  induction skip generalizing index cs with
  | zero => rfl
  | succ skip ih =>
    cases cs with
    | nil => simp [matchesFrom]
    | cons c cs =>
      rw [matchesFrom, ih, drop_succ_cons]
      congr 1
      omega

/-- No match starts in front of a text if none starts with one of the characters there. -/
theorem matchesFrom_append {front : List Char} (h : ∀ c ∈ front, ∀ cs, recognize (c :: cs) = none)
    (index : Nat) (cs : List Char) :
    matchesFrom recognize 0 index (front ++ cs) =
      matchesFrom recognize 0 (index + front.length) cs := by
  induction front generalizing index with
  | nil => rfl
  | cons c front ih =>
    obtain ⟨hc, hfront⟩ := forall_mem_cons.mp h
    rw [cons_append, matchesFrom, hc]
    simp only
    rw [ih hfront, length_cons]
    congr 1
    omega

/-- A match is followed by the matches behind it. -/
theorem matchesFrom_hit {hit : List Char} {value : α} (hne : hit ≠ [])
    (h : recognize (hit ++ rest) = some (value, rest)) (index : Nat) :
    matchesFrom recognize 0 index (hit ++ rest) =
      ⟨index, index + hit.length, value⟩ :: matchesFrom recognize 0 (index + hit.length) rest := by
  cases hit with
  | nil => exact absurd rfl hne
  | cons c hit =>
    rw [cons_append] at h ⊢
    rw [matchesFrom, h]
    simp only [length_cons, length_append]
    rw [matchesFrom_skip]
    have hlength : hit.length + rest.length + 1 - rest.length = hit.length + 1 := by omega
    rw [hlength, Nat.add_sub_cancel, drop_left,
      show index + 1 + hit.length = index + (hit.length + 1) by omega]

/-- A recogniser that needs a character finds nothing in a text without it. -/
theorem matchesFrom_eq_nil {needed : Char}
    (hneeds : ∀ cs hit, recognize cs = some hit → needed ∈ cs) (h : needed ∉ cs) (skip index : Nat) :
    matchesFrom recognize skip index cs = [] := by
  rw [eq_nil_iff_forall_not_mem]
  intro m hm
  obtain ⟨k, rest, -, -, hread, -⟩ := of_mem_matchesFrom hm
  exact h (mem_of_mem_drop (hneeds _ _ hread))

/-- The first match of a word, behind characters that no match starts with. -/
theorem firstMatchFrom_append {allowed : Option Char → Bool} {front : List Char}
    (h : ∀ c ∈ front, ∀ cs, recognize (c :: cs) = none) (before : Option Char) (index : Nat)
    (cs : List Char) :
    firstMatchFrom allowed recognize before index (front ++ cs) =
      firstMatchFrom allowed recognize (front.getLast?.or before) (index + front.length) cs := by
  induction front generalizing before index with
  | nil => rfl
  | cons c front ih =>
    obtain ⟨hc, hfront⟩ := forall_mem_cons.mp h
    rw [cons_append, firstMatchFrom, hc]
    simp only [ite_self]
    rw [ih hfront, length_cons, show index + 1 + front.length = index + (front.length + 1) by omega]
    congr 1
    rw [getLast?_cons]
    cases front.getLast? <;> rfl

theorem firstMatchFrom_hit {allowed : Option Char → Bool} {hit rest : List Char} {value : α}
    {before : Option Char} (hne : hit ≠ []) (hallowed : allowed before = true)
    (h : recognize (hit ++ rest) = some (value, rest)) (index : Nat) :
    firstMatchFrom allowed recognize before index (hit ++ rest) =
      some ⟨index, index + hit.length, value⟩ := by
  cases hit with
  | nil => exact absurd rfl hne
  | cons c hit =>
    rw [cons_append] at h ⊢
    rw [firstMatchFrom, if_pos hallowed, h]
    simp only [length_cons, length_append]
    congr 2
    omega

theorem firstMatchFrom_eq_none {allowed : Option Char → Bool}
    (h : ∀ tail, tail <:+ cs → recognize tail = none) (before : Option Char) (index : Nat) :
    firstMatchFrom allowed recognize before index cs = none := by
  induction cs generalizing before index with
  | nil => rfl
  | cons c cs ih =>
    rw [firstMatchFrom, h _ (suffix_refl _)]
    simp only [ite_self]
    exact ih (fun tail htail => h tail (htail.trans (suffix_cons c cs))) _ _

end

end Text

end ServiceInjection
