import ServiceInjection.Call.Detect
import ServiceInjection.Proofs.Edit.Position
import ServiceInjection.Proofs.Source.Lex

/-!
# Call.Disjoint

The calls found in a source do not overlap. The four shapes of call are searched
one after the other on the same line, so two matches of different searches could
share characters. They do not: a call is a head without parentheses and a body in
parentheses (`Stands`), a head has no shorter head at its end but the one without
the backslash, which is not taken for a reference to the class, and no head starts
inside a body (`Stands.stop_le_start`). So the calls come in the order of the text, and
cutting a line at the columns of a call gives back its text (`detect_exact`).
-/

namespace ServiceInjection.Text

theorem width16_take_mono (cs : List Char) {i j : Nat} (h : i ≤ j) :
    width16 (cs.take i) ≤ width16 (cs.take j) := by
  obtain ⟨k, rfl⟩ := Nat.exists_eq_add_of_le h
  rw [List.take_add, width16_append]
  omega

theorem width16_take_lt {cs : List Char} {i j : Nat} (h : i < j) (hj : j ≤ cs.length) :
    width16 (cs.take i) < width16 (cs.take j) := by
  have hstep : width16 (cs.take (i + 1)) = width16 (cs.take i) + units16 (cs.get ⟨i, by omega⟩) := by
    rw [List.take_succ_eq_append_getElem (by omega), width16_append]
    rfl
  have hpos := units16_pos (cs.get ⟨i, by omega⟩)
  have hmono : width16 (cs.take (i + 1)) ≤ width16 (cs.take j) := width16_take_mono cs h
  omega

end ServiceInjection.Text

namespace ServiceInjection.StaticCall

open Text List

variable {i j n : Nat} {cs head rest id : List Char} {c : Char} {line : Line} {call : StaticCall}

/-! ### The text of a call -/

/-- What a call has in front of its first parenthesis. -/
inductive CallHead : List Char → Prop
  | locator {slash name : List Char} (hslash : slash = [] ∨ slash = ['\\'])
      (hname : ∀ c ∈ name, isWord c = true) : CallHead (slash ++ "Drupal::".toList ++ name)
  | container {name gap gap' : List Char} (hname : ∀ c ∈ name, isWord c = true)
      (hgap : ∀ c ∈ gap, isBlank c = true) (hgap' : ∀ c ∈ gap', isBlank c = true) :
      CallHead ('$' :: (name ++ (gap ++ '-' :: '>' :: (gap' ++ "get".toList))))

/-- What a call has between its first parenthesis and its last: a quoted id, with
the rest of a chain of calls in front of it, or arguments without parentheses. -/
inductive CallBody : List Char → Prop
  | quoted {lead id gap : List Char} {quote : Char}
      (hlead : ∀ c ∈ lead, isBlank c = true ∨ c ∈ ")->get(".toList) (hquote : IsQuote quote)
      (hid : quote ∉ id) (hgap : ∀ c ∈ gap, isBlank c = true) :
      CallBody (lead ++ quote :: (id ++ quote :: gap))
  | plain {arguments : List Char} (h : ∀ c ∈ arguments, c ≠ '(' ∧ c ≠ ')') : CallBody arguments

/-- Whether a call stands in a line from index `i` up to index `j`. -/
def Stands (line : Line) (i j : Nat) : Prop :=
  ∃ head body rest, CallHead head ∧ CallBody body ∧
    line.raw.drop i = head ++ '(' :: (body ++ ')' :: rest) ∧
    j = i + (head.length + body.length + 2) ∧ line.isCodeAt i = true ∧
    (head.head? = some 'D' → isDrupalReference line i = true)

/-- The characters that a call can start with. -/
def IsCallStart (c : Char) : Prop := c = '\\' ∨ c = 'D' ∨ c = '$'

theorem CallHead.eq_cons (h : CallHead head) : ∃ c tail, IsCallStart c ∧ head = c :: tail := by
  cases h with
  | locator hslash hname =>
    rcases hslash with rfl | rfl
    · exact ⟨'D', _, Or.inr (Or.inl rfl), rfl⟩
    · exact ⟨'\\', _, Or.inl rfl, rfl⟩
  | container hname hgap hgap' => exact ⟨'$', _, Or.inr (Or.inr rfl), rfl⟩

theorem IsCallStart.not_blank (h : IsCallStart c) : ¬ isBlank c = true := by
  rcases h with rfl | rfl | rfl <;> decide

theorem IsCallStart.not_isQuote (h : IsCallStart c) : ¬ IsQuote c := by
  rcases h with rfl | rfl | rfl <;> simp [IsQuote]

/-- Word characters and blanks are none of the signs that delimit a call. -/
theorem ne_of_isWord_or_isBlank (h : isWord c = true ∨ isBlank c = true) :
    c ≠ '(' ∧ c ≠ ')' ∧ c ≠ ':' ∧ c ≠ '$' ∧ c ≠ '/' ∧ c ≠ '#' ∧ ¬ IsQuote c := by
  refine ⟨?_, ?_, ?_, ?_, ?_, ?_, ?_⟩
  case refine_7 => rintro (rfl | rfl) <;> revert h <;> decide
  all_goals rintro rfl; revert h; decide

theorem CallHead.signs (h : CallHead head) (hc : c ∈ head) : c ≠ '(' ∧ c ≠ ')' ∧ IsPlain c := by
  have hother : (isWord c = true ∨ isBlank c = true) ∨ c ∈ "\\Drupal::$->get".toList := by
    cases h with
    | locator hslash hname =>
      rcases mem_append.mp hc with hc | hc
      · rcases hslash with rfl | rfl <;> right <;> revert hc <;> simp <;> grind
      · exact .inl (.inl (hname c hc))
    | container hname hgap hgap' =>
      simp only [mem_cons, mem_append] at hc
      rcases hc with rfl | hc | hc | rfl | rfl | hc | hc
      · right; decide
      · exact .inl (.inl (hname c hc))
      · exact .inl (.inr (hgap c hc))
      · right; decide
      · right; decide
      · exact .inl (.inr (hgap' c hc))
      · right; revert hc; simp; grind
  rcases hother with hword | hsign
  · obtain ⟨hopen, hclose, -, -, hslash, hhash, hquote⟩ := ne_of_isWord_or_isBlank hword
    exact ⟨hopen, hclose, hquote, hslash, hhash⟩
  · have hall : ∀ c ∈ "\\Drupal::$->get".toList, c ≠ '(' ∧ c ≠ ')' ∧ IsPlain c := by
        simp [IsPlain, IsQuote]
    exact hall c hsign

/-- Two texts without parentheses that are cut from one text at a parenthesis are
the same, and so are the parentheses. -/
theorem eq_of_append_paren {xs ys rest' : List Char} {p q : Char}
    (hxs : ∀ c ∈ xs, c ≠ '(' ∧ c ≠ ')') (hys : ∀ c ∈ ys, c ≠ '(' ∧ c ≠ ')') (hp : p = '(' ∨ p = ')')
    (hq : q = '(' ∨ q = ')') (h : xs ++ p :: rest = ys ++ q :: rest') : xs = ys ∧ p = q := by
  induction xs generalizing ys with
  | nil =>
    cases ys with
    | nil => exact ⟨rfl, (cons.inj h).1⟩
    | cons y ys =>
      obtain ⟨rfl, -⟩ := cons.inj h
      have hy := hys p mem_cons_self
      rcases hp with rfl | rfl <;> simp at hy
  | cons x xs ih =>
    cases ys with
    | nil =>
      obtain ⟨rfl, -⟩ := cons.inj h
      have hx := hxs x mem_cons_self
      rcases hq with rfl | rfl <;> simp at hx
    | cons y ys =>
      obtain ⟨rfl, htail⟩ := cons.inj h
      obtain ⟨rfl, rfl⟩ := ih (fun c hc => hxs c (mem_cons_of_mem x hc))
        (fun c hc => hys c (mem_cons_of_mem x hc)) htail
      exact ⟨rfl, rfl⟩

/-- Behind its dollar sign, a fetch from a variable has neither colon nor dollar sign. -/
theorem ne_of_mem_container {name gap gap' : List Char} (hname : ∀ c ∈ name, isWord c = true)
    (hgap : ∀ c ∈ gap, isBlank c = true) (hgap' : ∀ c ∈ gap', isBlank c = true)
    (hc : c ∈ name ++ (gap ++ '-' :: '>' :: (gap' ++ "get".toList))) : c ≠ ':' ∧ c ≠ '$' := by
  have hsigns : ∀ {c}, isWord c = true ∨ isBlank c = true → c ≠ ':' ∧ c ≠ '$' := fun h =>
    ⟨(ne_of_isWord_or_isBlank h).2.2.1, (ne_of_isWord_or_isBlank h).2.2.2.1⟩
  simp only [mem_cons, mem_append] at hc
  rcases hc with hc | hc | rfl | rfl | hc | hc
  · exact hsigns (.inl (hname c hc))
  · exact hsigns (.inr (hgap c hc))
  · decide
  · decide
  · exact hsigns (.inr (hgap' c hc))
  · have hget : ∀ c ∈ "get".toList, c ≠ ':' ∧ c ≠ '$' := by simp
    exact hget c hc

/-- The text in front of the colons of a reference to the class. -/
theorem takeWhile_locator {front slash : List Char} (name : List Char) (hfront : ':' ∉ front)
    (hslash : slash = [] ∨ slash = ['\\']) :
    (front ++ (slash ++ "Drupal::".toList ++ name)).takeWhile (· != ':') =
      front ++ slash ++ "Drupal".toList := by
  rw [takeWhile_append_of_pos]
  · rcases hslash with rfl | rfl <;> simp [takeWhile]
  · intro c hc
    have hne : c ≠ ':' := fun h => hfront (h ▸ hc)
    simpa using hne

/-- A head that ends another one is that head without its backslash. -/
theorem CallHead.eq_of_append {before : List Char} (h : CallHead (before ++ head))
    (hhead : CallHead head) (hbefore : before ≠ []) : before = ['\\'] ∧ head.head? = some 'D' := by
  generalize hwhole : before ++ head = whole at h
  have hmem : ∀ {c}, c ∈ head → c ∈ whole := fun hc => hwhole ▸ mem_append_right before hc
  cases hhead with
  | @locator slash name hslash hname =>
    cases h with
    | @locator slash' name' hslash' hname' =>
      -- Both heads have two colons, so the class name in front of them is the same one.
      have hfree : ∀ {name : List Char}, (∀ c ∈ name, isWord c = true) → name.count ':' = 0 :=
        fun hname => count_eq_zero.mpr fun hmem =>
          (ne_of_isWord_or_isBlank (.inl (hname _ hmem))).2.2.1 rfl
      have hslashes : ∀ {slash : List Char}, slash = [] ∨ slash = ['\\'] →
          slash.count ':' = 0 := by
        rintro _ (rfl | rfl) <;> rfl
      have hcount := congrArg (count ':') hwhole
      simp only [count_append, hfree hname, hfree hname', hslashes hslash,
        hslashes hslash'] at hcount
      have hnot : ':' ∉ before := count_eq_zero.mp (by omega)
      have hfront := congrArg (takeWhile (· != ':')) hwhole
      rw [takeWhile_locator name hnot hslash] at hfront
      have hright := takeWhile_locator name' not_mem_nil hslash'
      rw [nil_append, nil_append] at hright
      rw [hright] at hfront
      have hslashes : before ++ slash = slash' := append_cancel_right hfront
      rcases hslash' with rfl | rfl
      · exact absurd (append_eq_nil_iff.mp hslashes).1 hbefore
      · obtain ⟨b, rest, rfl⟩ := exists_cons_of_ne_nil hbefore
        obtain ⟨rfl, hrest⟩ := cons.inj hslashes
        obtain ⟨rfl, rfl⟩ := append_eq_nil_iff.mp hrest
        exact ⟨rfl, rfl⟩
    | container hname' hgap hgap' =>
      have hcolon := hmem (c := ':') (by simp)
      rcases mem_cons.mp hcolon with heq | hcolon
      · simp at heq
      · exact absurd rfl (ne_of_mem_container hname' hgap hgap' hcolon).1
  | container hname hgap hgap' =>
    cases h with
    | locator hslash hname' =>
      have hdollar := hmem mem_cons_self
      rcases mem_append.mp hdollar with hdollar | hdollar
      · rcases hslash with rfl | rfl <;> simp at hdollar
      · exact absurd rfl (ne_of_isWord_or_isBlank (.inl (hname' _ hdollar))).2.2.2.1
    | container hname' hgap₁ hgap₁' =>
      obtain ⟨b, rest, rfl⟩ := exists_cons_of_ne_nil hbefore
      obtain ⟨-, htail⟩ := cons.inj hwhole
      refine absurd rfl (ne_of_mem_container hname' hgap₁ hgap₁' ?_).2
      rw [← htail]
      exact mem_append_right rest mem_cons_self

/-! ### Two calls on one line -/

/-- The character of a quoted body where a call could start belongs to the id. -/
theorem index_in_id {lead gap : List Char} {quote : Char} {m : Nat}
    (hlead : ∀ c ∈ lead, isBlank c = true ∨ c ∈ ")->get(".toList) (hquote : IsQuote quote)
    (hgap : ∀ c ∈ gap, isBlank c = true) (hc : IsCallStart c)
    (hm : (lead ++ quote :: (id ++ quote :: gap))[m]? = some c) :
    ∃ k, k < id.length ∧ m = lead.length + 1 + k := by
  have hsigns : ∀ d ∈ ")->get(".toList, ¬ IsCallStart d := by
    simp [IsCallStart]
  have hne : c ≠ quote := fun h => hc.not_isQuote (h ▸ hquote)
  by_cases hlt : m < lead.length
  · rw [getElem?_append_left hlt] at hm
    rcases hlead c (mem_of_getElem? hm) with hblank | hsign
    · exact absurd hblank hc.not_blank
    · exact absurd hc (hsigns c hsign)
  · rw [getElem?_append_right (by omega)] at hm
    obtain ⟨k, hk⟩ : ∃ k, m - lead.length = k + 1 := by
      refine Nat.exists_eq_succ_of_ne_zero fun hzero => hne ?_
      rw [hzero] at hm
      exact (Option.some.inj hm).symm
    rw [hk, getElem?_cons_succ] at hm
    by_cases hk' : k < id.length
    · exact ⟨k, hk', by omega⟩
    · rw [getElem?_append_right (by omega)] at hm
      rcases mem_cons.mp (mem_of_getElem? hm) with rfl | hmem
      · exact absurd rfl hne
      · exact absurd (hgap c hmem) hc.not_blank

/-- No call starts inside the body of another one. -/
theorem CallBody.not_starts (hmasked : line.Masked) {m : Nat} {body head' behind : List Char}
    (hhead : CallHead head) (hbody : CallBody body)
    (hraw : line.raw.drop i = head ++ '(' :: (body ++ ')' :: rest)) (hcode : line.isCodeAt i = true)
    (hhead' : CallHead head') (hm : m < body.length)
    (hraw' : body.drop m ++ ')' :: rest = head' ++ '(' :: behind) :
    line.isCodeAt (i + (head.length + 1 + m)) = false := by
  cases hbody with
  | plain hplain =>
    -- The head in the body would have to pass the parenthesis that closes the body.
    have heq := eq_of_append_paren (fun c hc => hplain c (mem_of_mem_drop hc))
      (fun c hc => ⟨(hhead'.signs hc).1, (hhead'.signs hc).2.1⟩) (.inr rfl) (.inl rfl) hraw'
    exact absurd heq.2 (by decide)
  | @quoted lead id gap quote hlead hquote hid hgap =>
    obtain ⟨c, tail, hc, rfl⟩ := hhead'.eq_cons
    have hchar : (lead ++ quote :: (id ++ quote :: gap))[m]? = some c := by
      rw [drop_eq_getElem_cons hm] at hraw'
      rw [getElem?_eq_getElem hm, (cons.inj hraw').1]
    obtain ⟨k, hk, rfl⟩ := index_in_id hlead hquote hgap hc hchar
    obtain ⟨d, front, hd, rfl⟩ := hhead.eq_cons
    have hplain : ∀ e ∈ d :: (front ++ '(' :: lead), IsPlain e := by
      intro e he
      rw [← cons_append] at he
      rcases mem_append.mp he with he | he
      · exact (hhead.signs he).2.2
      · rcases mem_cons.mp he with rfl | he
        · decide
        · rcases hlead e he with hblank | hsign
          · obtain ⟨-, -, -, -, hslash, hhash, hquote⟩ := ne_of_isWord_or_isBlank (.inr hblank)
            exact ⟨hquote, hslash, hhash⟩
          · have hall : ∀ c ∈ ")->get(".toList, IsPlain c := by simp [IsPlain, IsQuote]
            exact hall e hsign
    have hcut : line.raw.drop i =
        d :: (front ++ '(' :: lead) ++ quote :: (id ++ quote :: (gap ++ ')' :: rest)) := by
      simpa using hraw
    have hhidden := hmasked.not_isCodeAt_of_quoted hcut hplain hcode hquote hid hk
    rw [← hhidden]
    congr 1
    simp
    omega

/-- A call that starts behind the start of another one starts behind its end. -/
theorem Stands.stop_le_start (hmasked : line.Masked) {i' j' : Nat} (h : Stands line i j)
    (h' : Stands line i' j') (hlt : i < i') : j ≤ i' := by
  obtain ⟨head, body, rest, hhead, hbody, hraw, rfl, hcode, -⟩ := h
  obtain ⟨head', body', rest', hhead', -, hraw', -, hcode', hreference⟩ := h'
  obtain ⟨k, rfl⟩ := Nat.exists_eq_add_of_lt hlt
  refine Nat.le_of_not_lt fun hinside => ?_
  have hdrop : (head ++ '(' :: (body ++ ')' :: rest)).drop (k + 1) =
      head' ++ '(' :: (body' ++ ')' :: rest') := by
    rw [← hraw', ← hraw, drop_drop, Nat.add_assoc]
  have hstart : ∀ {c tail}, head' ++ '(' :: (body' ++ ')' :: rest') = c :: tail →
      IsCallStart c := by
    obtain ⟨c', tail', hc', rfl⟩ := hhead'.eq_cons
    rintro c tail heq
    exact (cons.inj heq).1 ▸ hc'
  have hparens : ∀ {head : List Char}, CallHead head → ∀ c ∈ head, c ≠ '(' ∧ c ≠ ')' :=
    fun h c hc => ⟨(h.signs hc).1, (h.signs hc).2.1⟩
  rcases Nat.lt_trichotomy (k + 1) head.length with hin | hat | hbehind
  · -- In the head of the first call: only the head without the backslash starts there.
    rw [drop_append_of_le_length (by omega)] at hdrop
    obtain ⟨htail, -⟩ := eq_of_append_paren
      (fun c hc => hparens hhead c (mem_of_mem_drop hc)) (hparens hhead') (.inl rfl) (.inl rfl)
      hdrop
    have hwhole : head = head.take (k + 1) ++ head' := by rw [← htail, take_append_drop]
    have hnonempty : head.take (k + 1) ≠ [] := by
      intro hnil
      have hlength := congrArg length hnil
      rw [length_take, length_nil] at hlength
      omega
    obtain ⟨hslash, hclass⟩ := CallHead.eq_of_append (hwhole ▸ hhead) hhead' hnonempty
    have hk : k = 0 := by
      have hlength := congrArg length hslash
      rw [length_take, length_singleton] at hlength
      omega
    subst hk
    have hbefore : line.raw[i]? = some '\\' := by
      rw [← head?_drop, hraw, hwhole, hslash]
      rfl
    have href := hreference hclass
    simp [isDrupalReference, hbefore] at href
  · -- At the parenthesis behind the head.
    rw [hat, drop_left] at hdrop
    exact absurd (hstart hdrop.symm) (by simp [IsCallStart])
  · obtain ⟨m, rfl⟩ : ∃ m, k = head.length + m := ⟨k - head.length, by omega⟩
    rw [Nat.add_assoc, drop_length_add_append, Nat.add_comm m, Nat.add_comm 1 m,
      drop_succ_cons] at hdrop
    by_cases hm : m < body.length
    · rw [drop_append_of_le_length (by omega)] at hdrop
      have hhidden := CallBody.not_starts hmasked hhead hbody hraw hcode hhead' hm hdrop
      rw [show i + (head.length + 1 + m) = i + (head.length + m) + 1 by omega, hcode'] at hhidden
      cases hhidden
    · rw [show m = body.length by omega, drop_left] at hdrop
      exact absurd (hstart hdrop.symm) (by simp [IsCallStart])

/-! ### What the searches find -/

theorem drupalClass_eq_some (h : drupalClass cs = some rest) :
    ∃ slash, (slash = [] ∨ slash = ['\\']) ∧ cs = slash ++ "Drupal::".toList ++ rest := by
  obtain ⟨slash, hslash, hcs⟩ := exists_skipChar '\\' cs
  refine ⟨slash, hslash, ?_⟩
  rw [drupalClass, literal_eq_some] at h
  rw [hcs, h, append_assoc]

/-- A text that starts with a call, and what follows the call. -/
def StartsWithCall (cs rest : List Char) : Prop :=
  ∃ head body, CallHead head ∧ CallBody body ∧ cs = head ++ '(' :: (body ++ ')' :: rest)

theorem directCall_startsWithCall (h : directCall cs = some (id, rest)) :
    StartsWithCall cs rest := by
  simp only [directCall, Option.bind_eq_bind, Option.bind_eq_some_iff] at h
  obtain ⟨afterClass, hclass, afterName, hname, hcall⟩ := h
  obtain ⟨slash, hslash, hcs⟩ := drupalClass_eq_some hclass
  obtain ⟨gap, quote, gap', hgap, hquote, hid, hgap', hcall⟩ := quotedCall_eq_some hcall
  refine ⟨_, _, @CallHead.locator slash "service".toList hslash (by simp; decide),
    .quoted (fun c hc => .inl (hgap c hc)) hquote hid hgap', ?_⟩
  rw [hcs, literal_eq_some.mp hname, hcall]
  simp

theorem containerCall_startsWithCall (h : containerCall cs = some (id, rest)) :
    StartsWithCall cs rest := by
  simp only [containerCall, containerExpr, Option.bind_eq_bind, Option.bind_eq_some_iff] at h
  obtain ⟨afterExpr, ⟨afterClass, hclass, afterName, hname, hclose⟩, afterArrow, harrow,
    afterGet, hget, hcall⟩ := h
  obtain ⟨slash, hslash, hcs⟩ := drupalClass_eq_some hclass
  obtain ⟨inner, hinner, hafterName⟩ := exists_blanks afterName
  obtain ⟨left, right, hleft, hright, hafterExpr⟩ := arrowTo_eq_some harrow
  obtain ⟨gap, quote, gap', hgap, hquote, hid, hgap', hcall⟩ := quotedCall_eq_some hcall
  have hlead : ∀ c ∈ inner ++ ')' :: (left ++ '-' :: '>' :: (right ++ ("get(".toList ++ gap))),
      isBlank c = true ∨ c ∈ ")->get(".toList := by
    intro c hc
    have hget : ∀ c ∈ "get(".toList, c ∈ ")->get(".toList := by simp
    simp only [mem_append, mem_cons] at hc
    rcases hc with hc | rfl | hc | rfl | rfl | hc | hc | hc
    · exact .inl (hinner c hc)
    · right; decide
    · exact .inl (hleft c hc)
    · right; decide
    · right; decide
    · exact .inl (hright c hc)
    · exact .inr (hget c hc)
    · exact .inl (hgap c hc)
  refine ⟨_, _, @CallHead.locator slash "getContainer".toList hslash (by simp; decide),
    .quoted hlead hquote hid hgap', ?_⟩
  rw [hcs, literal_eq_some.mp hname, hafterName, literal_eq_some.mp hclose, hafterExpr,
    literal_eq_some.mp hget, hcall]
  simp

theorem shortcutCall_startsWithCall {value : List Char × List Char}
    (h : shortcutCall cs = some (value, rest)) : StartsWithCall cs rest := by
  simp only [shortcutCall, Option.bind_eq_bind, Option.bind_eq_some_iff, Option.some.injEq,
    Prod.mk.injEq, Prod.exists] at h
  obtain ⟨afterClass, hclass, name, afterName, hname, arguments, hopen, behind, hclose, -, rfl⟩ := h
  obtain ⟨slash, hslash, hcs⟩ := drupalClass_eq_some hclass
  obtain ⟨hafterClass, -, hword⟩ := word_eq_some hname
  refine ⟨_, arguments.takeWhile fun c => c != '(' && c != ')', .locator hslash hword,
    .plain fun c hc => ?_, ?_⟩
  · simpa using all_eq_true.mp all_takeWhile c hc
  · have hcut : (arguments.takeWhile fun c => c != '(' && c != ')') ++ ')' :: behind = arguments := by
      have hcut := takeWhile_append_dropWhile (p := fun c => c != '(' && c != ')')
        (l := arguments)
      rwa [literal_eq_some.mp hclose] at hcut
    rw [hcut, hcs, hafterClass, literal_eq_some.mp hopen]
    simp

theorem containerGet_startsWithCall {fetch : ContainerGet}
    (h : containerGet cs = some (fetch, rest)) : StartsWithCall cs rest := by
  obtain ⟨left, right, behind, -, hname, hleft, hright, hcall, hcs⟩ := containerGet_eq_some h
  obtain ⟨gap, quote, gap', hgap, hquote, hid, hgap', hcall⟩ := quotedCall_eq_some hcall
  refine ⟨_, _, .container hname hleft hright,
    .quoted (fun c hc => .inl (hgap c hc)) hquote hid hgap', ?_⟩
  rw [hcs, hcall]
  simp

/-- A match of a recogniser of calls stands in the line, if it is code and refers to
the class. -/
theorem stands_of_mem {α : Type} {recognize : List Char → Option (α × List Char)} {m : Match α}
    (hm : m ∈ allMatches recognize line.raw)
    (hcall : ∀ {cs value rest}, recognize cs = some (value, rest) → StartsWithCall cs rest)
    (hcode : line.isCodeAt m.start = true)
    (hreference : line.raw[m.start]? = some 'D' → isDrupalReference line m.start = true) :
    Stands line m.start m.stop := by
  obtain ⟨-, rest, hread, hstop⟩ := of_mem_allMatches hm
  obtain ⟨head, body, hhead, hbody, hraw⟩ := hcall hread
  refine ⟨head, body, rest, hhead, hbody, hraw, ?_, hcode, fun hclass => hreference ?_⟩
  · rw [hstop, hraw]
    simp
    omega
  · obtain ⟨c, tail, -, rfl⟩ := hhead.eq_cons
    rw [← head?_drop, hraw]
    exact hclass

/-- Whether a call is found where one stands: its line, its columns and its text are the
ones of a call in the source. -/
def Found (n : Nat) (line : Line) (call : StaticCall) : Prop :=
  call.line = n ∧ ∃ i j, Stands line i j ∧ call.startColumn = width16 (line.raw.take i) ∧
    call.endColumn = width16 (line.raw.take j) ∧
    call.text = String.ofList ((line.raw.take j).drop i)

theorem isCodeAt_of_isDrupalReference (h : isDrupalReference line i = true) :
    line.isCodeAt i = true :=
  (Bool.and_eq_true_iff.mp h).1

theorem found_of_mem_quotedCalls {recognize : List Char → Option (List Char × List Char)}
    {shape : CallShape}
    (hcall : ∀ {cs value rest}, recognize cs = some (value, rest) → StartsWithCall cs rest)
    (h : call ∈ quotedCalls recognize shape n line) : Found n line call := by
  obtain ⟨m, hm, hsome⟩ := mem_filterMap.mp h
  split at hsome
  · rename_i href
    obtain ⟨id, -, rfl⟩ := Option.map_eq_some_iff.mp hsome
    exact ⟨rfl, m.start, m.stop,
      stands_of_mem hm hcall (isCodeAt_of_isDrupalReference href) fun _ => href, rfl, rfl, rfl⟩
  · cases hsome

theorem found_of_mem_shortcutCalls (h : call ∈ shortcutCalls n line) : Found n line call := by
  obtain ⟨m, hm, hsome⟩ := mem_filterMap.mp h
  simp only [guard, Option.bind_eq_bind, Option.bind_eq_some_iff] at hsome
  obtain ⟨_, hguard, entry, -, _, -, hsome⟩ := hsome
  cases hsome
  have href : isDrupalReference line m.start = true := by
    split at hguard
    · assumption
    · cases hguard
  exact ⟨rfl, m.start, m.stop, stands_of_mem hm shortcutCall_startsWithCall
    (isCodeAt_of_isDrupalReference href) fun _ => href, rfl, rfl, rfl⟩

theorem found_of_mem_variableCalls {containers : List ContainerVariable}
    (h : call ∈ variableCalls containers n line) : Found n line call := by
  obtain ⟨m, hm, hsome⟩ := mem_filterMap.mp h
  split at hsome
  · rename_i hheld
    obtain ⟨id, -, rfl⟩ := Option.map_eq_some_iff.mp hsome
    refine ⟨rfl, m.start, m.stop, stands_of_mem hm containerGet_startsWithCall
      (Bool.and_eq_true_iff.mp hheld).1 fun hclass => ?_, rfl, rfl, rfl⟩
    obtain ⟨-, rest, hread, -⟩ := of_mem_allMatches hm
    obtain ⟨_, _, _, _, _, _, _, _, hraw⟩ := containerGet_eq_some hread
    rw [← head?_drop, hraw] at hclass
    simp at hclass
  · cases hsome

/-! ### Order -/

theorem dropSameStart_sublist (calls : List StaticCall) : (dropSameStart calls).Sublist calls := by
  induction calls with
  | nil => exact .slnil
  | cons call rest ih =>
    rw [dropSameStart]
    split
    · exact .cons_cons call (nil_sublist rest)
    · rename_i next others heq
      rw [heq] at ih
      split
      · exact .cons_cons call ((sublist_cons_self next others).trans ih)
      · exact .cons_cons call ih

/-- Of calls in the order of their columns, one remains at each column. -/
theorem pairwise_dropSameStart {calls : List StaticCall}
    (h : calls.Pairwise fun a b => a.startColumn ≤ b.startColumn) :
    (dropSameStart calls).Pairwise fun a b => a.startColumn < b.startColumn := by
  induction calls with
  | nil => exact .nil
  | cons call rest ih =>
    obtain ⟨hcall, hrest⟩ := pairwise_cons.mp h
    have hkept : ∀ b ∈ dropSameStart rest, call.startColumn ≤ b.startColumn := fun b hb =>
      hcall b ((dropSameStart_sublist rest).subset hb)
    have ih := ih hrest
    rw [dropSameStart]
    split
    · simp
    · rename_i next others heq
      rw [heq] at ih hkept
      obtain ⟨hnext, hothers⟩ := pairwise_cons.mp ih
      have hle := hkept next mem_cons_self
      split
      · rename_i hsame
        refine pairwise_cons.mpr ⟨fun b hb => ?_, hothers⟩
        exact Nat.lt_of_le_of_lt hle (hnext b hb)
      · rename_i hother
        have hlt : call.startColumn < next.startColumn := by
          simp at hother
          omega
        refine pairwise_cons.mpr ⟨fun b hb => ?_, ih⟩
        rcases mem_cons.mp hb with rfl | hb
        · exact hlt
        · exact Nat.lt_trans hlt (hnext b hb)

theorem orderCalls_subset {calls : List StaticCall} (h : call ∈ orderCalls calls) : call ∈ calls :=
  mem_mergeSort.mp ((dropSameStart_sublist _).subset h)

theorem pairwise_orderCalls (calls : List StaticCall) :
    (orderCalls calls).Pairwise fun a b => a.startColumn < b.startColumn := by
  refine pairwise_dropSameStart ?_
  have hsorted : (calls.mergeSort fun a b => a.startColumn ≤ b.startColumn).Pairwise
      fun a b => decide (a.startColumn ≤ b.startColumn) = true :=
    pairwise_mergeSort (fun a b c hab hbc => by simp at *; omega)
      (fun a b => by simp; omega) calls
  simpa using hsorted

/-! ### The calls of a source -/

theorem Stands.lt_and_le (h : Stands line i j) : i < j ∧ j ≤ line.raw.length := by
  obtain ⟨head, body, rest, -, -, hraw, rfl, -⟩ := h
  have hlength := congrArg length hraw
  simp only [length_drop, length_append, length_cons] at hlength
  omega

/-- A found call covers at least one column, and ends on its line. -/
theorem Found.columns (h : Found n line call) :
    call.startColumn < call.endColumn ∧ call.endColumn ≤ width16 line.raw := by
  obtain ⟨-, i, j, hstands, hstart, hstop, -⟩ := h
  obtain ⟨hlt, hle⟩ := hstands.lt_and_le
  rw [hstart, hstop]
  refine ⟨width16_take_lt hlt hle, ?_⟩
  have hmono := width16_take_mono line.raw hle
  rwa [take_length] at hmono

/-- Of two found calls on a line, the one that starts later starts behind the end of
the other. -/
theorem Found.endColumn_le {a b : StaticCall} (hmasked : line.Masked) (ha : Found n line a)
    (hb : Found n line b) (hlt : a.startColumn < b.startColumn) : a.endColumn ≤ b.startColumn := by
  obtain ⟨-, i, j, hstands, hstart, hstop, -⟩ := ha
  obtain ⟨-, i', j', hstands', hstart', -⟩ := hb
  have hi : i < i' := by
    refine Nat.lt_of_not_le fun hle => ?_
    have hmono := width16_take_mono line.raw hle
    omega
  rw [hstop, hstart']
  exact width16_take_mono line.raw (hstands.stop_le_start hmasked hstands' hi)

theorem found_of_mem_detectLine {state : ScanState} (h : call ∈ (detectLine state n line).1) :
    Found n line call := by
  have h := orderCalls_subset h
  simp only [mem_append] at h
  rcases h with ((h | h) | h) | h
  · exact found_of_mem_quotedCalls directCall_startsWithCall h
  · exact found_of_mem_quotedCalls containerCall_startsWithCall h
  · exact found_of_mem_shortcutCalls h
  · exact found_of_mem_variableCalls h

/-- Every call found in successive lines stands on one of them. -/
theorem found_of_mem_detectLines {state : ScanState} {lines : List Line}
    (h : call ∈ detectLines state n lines) :
    n ≤ call.line ∧ ∃ line, lines[call.line - n]? = some line ∧ Found call.line line call := by
  induction lines generalizing state n with
  | nil => simp [detectLines] at h
  | cons line rest ih =>
    rw [detectLines] at h
    rcases mem_append.mp h with h | h
    · have hfound := found_of_mem_detectLine h
      have hline := hfound.1
      subst hline
      exact ⟨Nat.le_refl _, line, by simp, hfound⟩
    · obtain ⟨hle, other, hother, hfound⟩ := ih h
      refine ⟨by omega, other, ?_, hfound⟩
      rw [show call.line - n = (call.line - (n + 1)) + 1 by omega, getElem?_cons_succ, hother]

/-- Whether a call ends where another one starts, or in front of it. -/
def Before (a b : StaticCall) : Prop :=
  a.line < b.line ∨ a.line = b.line ∧ a.endColumn ≤ b.startColumn

theorem pairwise_detectLines {lines : List Line} (hmasked : ∀ line ∈ lines, line.Masked)
    (state : ScanState) (n : Nat) : (detectLines state n lines).Pairwise Before := by
  induction lines generalizing state n with
  | nil => exact .nil
  | cons line rest ih =>
    rw [detectLines]
    refine pairwise_append.mpr ⟨?_, ih (fun l hl => hmasked l (.tail _ hl)) _ _, ?_⟩
    · refine (pairwise_orderCalls _).imp_of_mem fun ha hb hlt => ?_
      have hfa := found_of_mem_detectLine ha
      have hfb := found_of_mem_detectLine hb
      exact .inr ⟨hfa.1.trans hfb.1.symm,
        hfa.endColumn_le (hmasked line mem_cons_self) hfb hlt⟩
    · intro a ha b hb
      have hline := (found_of_mem_detectLine ha).1
      have hle := (found_of_mem_detectLines hb).1
      exact .inl (by omega)

/-- Every line of a source read from a text is a masked line. -/
theorem masked_of_mem_ofText {text : String} (h : line ∈ (Source.ofText text).lines) :
    line.Masked :=
  masked_of_mem_maskLines (show Mode.code.Valid from trivial) (fun _ => not_mem_of_mem_lines) h

/-- The calls of a source come in the order of the text and do not overlap. -/
theorem pairwise_detect (text : String) : (detect (Source.ofText text)).Pairwise Before :=
  pairwise_detectLines (fun _ h => masked_of_mem_ofText h) _ _

end ServiceInjection.StaticCall

namespace ServiceInjection

open Text

/-- Whether the character at a column of a line is code. -/
def Line.isCodeAtColumn (line : Line) (column : Nat) : Bool :=
  line.isCodeAt (upToColumn column line.raw).length

/-- The column of an index stands for the cell at the index. -/
theorem Line.isCodeAtColumn_width16 {line : Line} {i : Nat} (h : i ≤ line.raw.length) :
    line.isCodeAtColumn (width16 (line.raw.take i)) = line.isCodeAt i := by
  have hcolumn := upToColumn_width16_append (line.raw.take i) (line.raw.drop i)
  rw [List.take_append_drop] at hcolumn
  rw [isCodeAtColumn, hcolumn, List.length_take, Nat.min_eq_left h]

namespace StaticCall

/-- Whether a call starts in front of another one. -/
def StartsBefore (a b : StaticCall) : Prop :=
  a.line < b.line ∨ a.line = b.line ∧ a.startColumn < b.startColumn

/-- Whether a call says where it stands in a line: it starts in code, and its text is what
the line has between its columns. -/
def Located (line : Line) (call : StaticCall) : Prop :=
  line.isCodeAtColumn call.startColumn = true ∧
    bytesBetween? line.raw (byteOfColumn line.raw call.startColumn)
      (byteOfColumn line.raw call.endColumn) = some call.text.toList

theorem Found.located {n : Nat} {line : Line} {call : StaticCall} (h : Found n line call) :
    call.Located line := by
  obtain ⟨-, i, j, hstands, hstart, hstop, htext⟩ := h
  obtain ⟨hlt, hle⟩ := hstands.lt_and_le
  have hcode : line.isCodeAt i = true := by
    obtain ⟨_, _, _, _, _, _, _, hcode, _⟩ := hstands
    exact hcode
  refine ⟨?_, ?_⟩
  · rw [hstart, Line.isCodeAtColumn_width16 (by omega), hcode]
  · rw [hstart, hstop, bytesBetween?_columns (Nat.le_of_lt hlt), htext, String.toList_ofList]

theorem found_of_mem_detect {source : Source} {call : StaticCall} (h : call ∈ detect source) :
    call.line < source.size ∧ Found call.line (source.line call.line) call := by
  obtain ⟨-, line, hline, hfound⟩ := found_of_mem_detectLines h
  have hget : source.lines[call.line]? = some line := hline
  refine ⟨(List.getElem?_eq_some_iff.mp hget).1, ?_⟩
  rwa [Source.line, List.getD_eq_getElem?_getD, hget]

/-- A call that ends in front of another one starts in front of it. -/
theorem Before.startsBefore {source : Source} {a b : StaticCall} (ha : a ∈ detect source)
    (h : a.Before b) : a.StartsBefore b := by
  rcases h with hline | ⟨hline, hcolumn⟩
  · exact .inl hline
  · have hcovers := (found_of_mem_detect ha).2.columns.1
    exact .inr ⟨hline, by omega⟩

/-- **Exact calls.** The calls of a source come in strictly increasing order of their
starts, of two calls on a line the first ends before the second starts, and each stands on
a line of the source, starts there in code, and has for its text what the line has between
its columns. -/
theorem detect_exact (text : String) :
    (detect (Source.ofText text)).Pairwise
      (fun a b => a.StartsBefore b ∧ (a.line = b.line → a.endColumn ≤ b.startColumn)) ∧
    ∀ call ∈ detect (Source.ofText text), call.line < (Source.ofText text).size ∧
      call.Located ((Source.ofText text).line call.line) := by
  refine ⟨(pairwise_detect text).imp_of_mem fun ha _ hbefore => ?_, fun call hcall => ?_⟩
  · refine ⟨hbefore.startsBefore ha, fun hline => ?_⟩
    rcases hbefore with hother | ⟨-, hcolumn⟩
    · omega
    · exact hcolumn
  · obtain ⟨hline, hfound⟩ := found_of_mem_detect hcall
    exact ⟨hline, hfound.located⟩

end StaticCall

end ServiceInjection
