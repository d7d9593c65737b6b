import ServiceInjection.Proofs.Call.Disjoint
import ServiceInjection.Proofs.Source.Local

/-!
# Call.Traced

Which variables count as the container. The scan looks at brace depths only between lines:
it takes a variable for the container on a line if the last line that assigns it, that one
included, is followed by no line that starts less deep than the assigning line does
(`Source.Tracks`, `Fetches.mem_detect_iff`). So a fetch is found in front of an assignment
on its own line, behind a block that is closed on the line that opens it, and across
`} else {`. Where every line between the two is level, no block is opened in front of the
assignment on its line, and none is closed in front of the fetch on its line, the block of
the assignment is still open at the fetch (`Source.Tracks.traced`).
-/

namespace ServiceInjection

open Text StaticCall List

variable {line : Line} {i n k : Nat} {held : ContainerVariable} {source : Source}
  {name cs : List Char} {call : StaticCall} {m : Match ContainerGet}

/-! ### Brace depth -/

/-- Whether a line is nowhere less deep than at one of its ends. -/
def Line.Level (line : Line) : Prop :=
  ∀ col, min 0 line.braceBalance ≤ Line.braceBalance (line.take col)

/-- Where a line closes no brace, its depth does not fall. -/
theorem Line.braceBalance_take_nonneg {col : Nat} (h : '\x7d' ∉ line.code.take i) (hcol : col ≤ i) :
    0 ≤ Line.braceBalance (line.take col) := by
  have hnone : '\x7d' ∉ line.code.take col := fun hmem =>
    h ((take_sublist_take_left hcol).subset hmem)
  rw [braceBalance, code_take, count_eq_zero_of_not_mem hnone]
  omega

/-- A line that closes no brace is level. -/
theorem Line.level_of_not_mem (h : '\x7d' ∉ line.code) : line.Level := by
  intro col
  have hrise : 0 ≤ Line.braceBalance (line.take col) :=
    braceBalance_take_nonneg (fun hmem => h (mem_of_mem_take hmem)) (Nat.le_refl col)
  omega

/-! ### Assignments -/

/-- Whether a line assigns the container to a variable, in a statement that starts in
code. -/
def Line.Assigns (line : Line) (name : List Char) (m : Match (List Char)) : Prop :=
  m ∈ allMatches containerAssignment line.raw ∧ line.isCodeAt m.start = true ∧ m.value = name

/-- Whether line `n` assigns the container to a variable. -/
def Source.Assigns (source : Source) (name : List Char) (n : Nat) : Prop :=
  ∃ m, (source.line n).Assigns name m

/-- Whether the container is still in a variable on line `n` as the scan sees it: line `k`
is the last one to assign it, and no line behind it starts less deep. -/
structure Source.Tracks (source : Source) (name : List Char) (k n : Nat) : Prop where
  le : k ≤ n
  assigns : source.Assigns name k
  last : ∀ j, k < j → j ≤ n → ¬ source.Assigns name j
  deep : ∀ j, k < j → j ≤ n → source.depthBefore k ≤ source.depthBefore j

/-- Whether an assignment of the container to a variable ends in front of a place, and the
block that it stands in is not closed up to there. -/
def Source.Traced (source : Source) (name : List Char) (spot : Spot) : Prop :=
  ∃ k m, (source.line k).Assigns name m ∧ spot.before ⟨k, m.stop⟩ = false ∧
    ∀ place : Spot, place.before ⟨k, m.stop⟩ = false → spot.before place = false →
      source.depthAt ⟨k, m.stop⟩ ≤ source.depthAt place

namespace StaticCall

/-! ### What the scan holds -/

/-- The last assignment of a line to a variable sets its depth; the others are kept. -/
theorem mem_assignVariables {state : ScanState} : held ∈ assignVariables line state ↔
      (∃ m, line.Assigns held.name m) ∧ held.depth = state.depth ∨
        (¬ ∃ m, line.Assigns held.name m) ∧ held ∈ state.containers := by
  simp only [assignVariables, Line.Assigns]
  generalize allMatches containerAssignment line.raw = ms
  generalize state.containers = containers
  induction ms generalizing containers with
  | nil => simp
  | cons m ms ih =>
    rw [foldl_cons, ih]
    by_cases hcode : line.isCodeAt m.start = true
    · have hheld : held ∈ containers.filter (·.name != m.value) ++ [⟨m.value, state.depth⟩] ↔
          held ∈ containers ∧ held.name ≠ m.value ∨
            held.name = m.value ∧ held.depth = state.depth := by
        cases held
        simp
      simp only [hcode, if_true, hheld, mem_cons]
      grind
    · simp only [hcode, mem_cons]
      grind

/-- What the scan knows in front of a line. -/
def scanBefore (source : Source) : Nat → ScanState
  | 0 => {}
  | n + 1 => (detectLine (scanBefore source n) n (source.line n)).2

@[simp] theorem scanBefore_depth (source : Source) (n : Nat) :
    (scanBefore source n).depth = source.depthBefore n := by
  induction n with
  | zero => rfl
  | succ n ih =>
    show (scanBefore source n).depth + _ = _
    rw [ih]
    rfl

theorem mem_scanBefore_succ : held ∈ (scanBefore source (n + 1)).containers ↔
      held ∈ assignVariables (source.line n) (scanBefore source n) ∧
        held.depth ≤ source.depthBefore (n + 1) := by
  rw [← scanBefore_depth]
  exact mem_filter.trans (and_congr_right fun _ => decide_eq_true_iff)

theorem tracks_zero_iff : source.Tracks name k 0 ↔ k = 0 ∧ source.Assigns name 0 := by
  constructor
  · intro h
    obtain rfl : k = 0 := Nat.le_zero.mp h.le
    exact ⟨rfl, h.assigns⟩
  · rintro ⟨rfl, h⟩
    exact ⟨Nat.le_refl 0, h, by omega, by omega⟩

/-- One line further, the variable was assigned on that line, or it was not and the line
does not start less deep. -/
theorem tracks_succ_iff : source.Tracks name k (n + 1) ↔
      k = n + 1 ∧ source.Assigns name (n + 1) ∨
        ¬ source.Assigns name (n + 1) ∧ source.Tracks name k n ∧
          source.depthBefore k ≤ source.depthBefore (n + 1) := by
  constructor
  · intro h
    by_cases hk : k = n + 1
    · exact .inl ⟨hk, hk ▸ h.assigns⟩
    · have hle := h.le
      refine .inr ⟨h.last _ (by omega) (Nat.le_refl _), ?_, h.deep _ (by omega) (Nat.le_refl _)⟩
      exact ⟨by omega, h.assigns, fun j hj hn => h.last j hj (by omega),
        fun j hj hn => h.deep j hj (by omega)⟩
  · rintro (⟨rfl, h⟩ | ⟨hnot, h, hdeep⟩)
    · exact ⟨Nat.le_refl _, h, by omega, by omega⟩
    · refine ⟨Nat.le_succ_of_le h.le, h.assigns, fun j hj hn => ?_, fun j hj hn => ?_⟩
      · rcases Nat.lt_or_eq_of_le hn with hlt | rfl
        · exact h.last j hj (by omega)
        · exact hnot
      · rcases Nat.lt_or_eq_of_le hn with hlt | rfl
        · exact h.deep j hj (by omega)
        · exact hdeep

/-- The variables that hold the container on a line are those that are tracked there, with
the depth of the line that assigned them. -/
theorem mem_assignVariables_scanBefore :
    held ∈ assignVariables (source.line n) (scanBefore source n) ↔
      ∃ k, source.Tracks held.name k n ∧ held.depth = source.depthBefore k := by
  induction n with
  | zero =>
    simp only [mem_assignVariables, scanBefore, not_mem_nil, and_false, or_false,
      tracks_zero_iff]
    constructor
    · rintro ⟨hassigns, hdepth⟩
      exact ⟨0, ⟨rfl, hassigns⟩, hdepth⟩
    · rintro ⟨k, ⟨rfl, hassigns⟩, hdepth⟩
      exact ⟨hassigns, hdepth⟩
  | succ n ih =>
    rw [mem_assignVariables, mem_scanBefore_succ, ih, scanBefore_depth]
    simp only [tracks_succ_iff]
    constructor
    · rintro (⟨hassigns, hdepth⟩ | ⟨hnot, ⟨k, htracks, hdepth⟩, hdeep⟩)
      · exact ⟨n + 1, .inl ⟨rfl, hassigns⟩, hdepth⟩
      · exact ⟨k, .inr ⟨hnot, htracks, hdepth ▸ hdeep⟩, hdepth⟩
    · rintro ⟨k, ⟨rfl, hassigns⟩ | ⟨hnot, htracks, hdeep⟩, hdepth⟩
      · exact .inl ⟨hassigns, hdepth⟩
      · exact .inr ⟨hnot, ⟨k, htracks, hdepth⟩, hdepth ▸ hdeep⟩

/-! ### The calls of a line -/

theorem mem_detectLines_drop {source : Source} {call : StaticCall} {n : Nat} {rest : List Line}
    (h : source.lines.drop n = rest) :
    call ∈ detectLines (scanBefore source n) n rest ↔
      n ≤ call.line ∧ call.line < source.size ∧
        call ∈ (detectLine (scanBefore source call.line) call.line (source.line call.line)).1 := by
  induction rest generalizing n with
  | nil =>
    have hsize : source.size ≤ n := drop_eq_nil_iff.mp h
    simp only [detectLines, not_mem_nil, false_iff]
    omega
  | cons line rest ih =>
    have hn : n < source.lines.length := by
      refine Nat.lt_of_not_le fun hle => ?_
      rw [drop_eq_nil_of_le hle] at h
      cases h
    rw [drop_eq_getElem_cons hn] at h
    obtain ⟨hline, hrest⟩ := cons.inj h
    have hget : source.line n = line := by
      rw [Source.line, getD_eq_getElem?_getD, getElem?_eq_getElem hn, hline]
      rfl
    have hnext : (detectLine (scanBefore source n) n line).2 = scanBefore source (n + 1) := by
      rw [scanBefore, hget]
    rw [detectLines, mem_append, hnext, ih hrest]
    constructor
    · rintro (hcall | ⟨hle, hlt, hcall⟩)
      · obtain rfl := (found_of_mem_detectLine hcall).1
        rw [hget]
        exact ⟨Nat.le_refl _, hn, hcall⟩
      · exact ⟨by omega, hlt, hcall⟩
    · rintro ⟨hle, hlt, hcall⟩
      rcases Nat.lt_or_eq_of_le hle with hlater | rfl
      · exact .inr ⟨hlater, hlt, hcall⟩
      · rw [hget] at hcall
        exact .inl hcall

theorem mem_detect_iff : call ∈ detect source ↔ call.line < source.size ∧
      call ∈ (detectLine (scanBefore source call.line) call.line (source.line call.line)).1 := by
  have hall := @mem_detectLines_drop source call 0 _ drop_zero
  exact hall.trans (by simp)

/-- Of the calls at a column, one is kept. -/
theorem exists_mem_dropSameStart {calls : List StaticCall} (h : call ∈ calls) :
    ∃ kept ∈ dropSameStart calls, kept.startColumn = call.startColumn := by
  induction calls with
  | nil => cases h
  | cons first rest ih =>
    rw [dropSameStart]
    rcases mem_cons.mp h with rfl | h
    · refine ⟨call, ?_, rfl⟩
      split
      · exact mem_cons_self
      · split <;> exact mem_cons_self
    · obtain ⟨kept, hkept, hcolumn⟩ := ih h
      split
      · rename_i hnil
        rw [hnil] at hkept
        cases hkept
      · rename_i next others hrest
        rw [hrest] at hkept
        split
        · rename_i hsame
          rcases mem_cons.mp hkept with rfl | hkept
          · exact ⟨first, mem_cons_self, (beq_iff_eq.mp hsame).trans hcolumn⟩
          · exact ⟨kept, .tail _ hkept, hcolumn⟩
        · exact ⟨kept, .tail _ hkept, hcolumn⟩

theorem exists_mem_orderCalls {calls : List StaticCall} (h : call ∈ calls) :
    ∃ kept ∈ orderCalls calls, kept.startColumn = call.startColumn :=
  exists_mem_dropSameStart (mem_mergeSort.mpr h)

/-! ### Fetches -/

/-- Whether a call is what a line makes of a match of `$variable->get('id')` that starts in
code. -/
def Fetches (line : Line) (call : StaticCall) (m : Match ContainerGet) : Prop :=
  m ∈ allMatches containerGet line.raw ∧ line.isCodeAt m.start = true ∧
    ∃ id, idOfQuoted m.value.serviceId = some id ∧
      call = ofMatch call.line line m id .containerIndirect none

theorem mem_variableCalls {containers : List ContainerVariable} :
    call ∈ variableCalls containers n line ↔
      ∃ m, call.line = n ∧ Fetches line call m ∧ ∃ held ∈ containers, held.name = m.value.container := by
  simp only [variableCalls, mem_filterMap, Fetches]
  constructor
  · rintro ⟨m, hm, hsome⟩
    split at hsome
    · rename_i hheld
      obtain ⟨id, hid, rfl⟩ := Option.map_eq_some_iff.mp hsome
      obtain ⟨hcode, hany⟩ := Bool.and_eq_true_iff.mp hheld
      exact ⟨m, rfl, ⟨hm, hcode, id, hid, rfl⟩, by simpa using hany⟩
    · cases hsome
  · rintro ⟨m, rfl, ⟨hm, hcode, id, hid, hcall⟩, held, hheld, hname⟩
    have hany : containers.any (·.name == m.value.container) = true :=
      any_eq_true.mpr ⟨held, hheld, beq_iff_eq.mpr hname⟩
    refine ⟨m, hm, ?_⟩
    rw [hcode, hany, hid]
    exact congrArg some hcall.symm

theorem width16_take_inj {j : Nat} (hi : i ≤ cs.length) (hj : j ≤ cs.length)
    (h : width16 (cs.take i) = width16 (cs.take j)) : i = j := by
  rcases Nat.lt_trichotomy i j with hlt | heq | hlt
  · have := width16_take_lt hlt hj
    omega
  · exact heq
  · have := width16_take_lt hlt hi
    omega

/-- The text of a found call starts with the character at its column. -/
theorem Found.head?_text (h : Found n line call) (hi : i ≤ line.raw.length)
    (hcolumn : call.startColumn = width16 (line.raw.take i)) :
    call.text.toList.head? = line.raw[i]? := by
  obtain ⟨-, i', j, hstands, hstart, -, htext⟩ := h
  obtain ⟨hlt, hle⟩ := hstands.lt_and_le
  obtain rfl : i = i' := width16_take_inj hi (by omega) (hcolumn.symm.trans hstart)
  rw [htext, String.toList_ofList, head?_drop, getElem?_take_of_lt hlt]

/-- No call through the class starts with a dollar sign. -/
theorem drupalClass_dollar (cs : List Char) : drupalClass ('$' :: cs) = none := by
  simp [drupalClass, skipChar, literal, literalChars]

theorem start_ne_dollar {α : Type} {recognize : List Char → Option (α × List Char)} {m : Match α}
    (hm : m ∈ allMatches recognize cs) (hnone : ∀ rest, recognize ('$' :: rest) = none) :
    cs[m.start]? ≠ some '$' := by
  intro hdollar
  obtain ⟨-, rest, hread, -⟩ := of_mem_allMatches hm
  rw [← head?_drop] at hdollar
  obtain ⟨tail, htail⟩ := head?_eq_some_iff.mp hdollar
  rw [htail, hnone] at hread
  cases hread

/-- The calls through the class are told from fetches by their first character. -/
theorem head?_text_locator (h : call ∈ quotedCalls directCall .directLocator n line ++
      quotedCalls containerCall .containerIndirect n line ++ shortcutCalls n line) :
    call.text.toList.head? ≠ some '$' := by
  have hquoted : ∀ {recognize shape}, (∀ cs, recognize ('$' :: cs) = none) →
      (∀ {cs value rest}, recognize cs = some (value, rest) → StartsWithCall cs rest) →
      call ∈ quotedCalls recognize shape n line → call.text.toList.head? ≠ some '$' := by
    intro recognize shape hnone hcall h
    have hfound := found_of_mem_quotedCalls hcall h
    obtain ⟨m, hm, hsome⟩ := mem_filterMap.mp h
    split at hsome
    · obtain ⟨id, -, rfl⟩ := Option.map_eq_some_iff.mp hsome
      rw [hfound.head?_text (Nat.le_of_lt (of_mem_allMatches hm).1) rfl]
      exact start_ne_dollar hm hnone
    · cases hsome
  simp only [mem_append] at h
  rcases h with (h | h) | h
  · exact hquoted (fun cs => by simp [directCall, drupalClass_dollar]) directCall_startsWithCall h
  · exact hquoted (fun cs => by simp [containerCall, containerExpr, drupalClass_dollar])
      containerCall_startsWithCall h
  · have hfound := found_of_mem_shortcutCalls h
    obtain ⟨m, hm, hsome⟩ := mem_filterMap.mp h
    simp only [guard, Option.bind_eq_bind, Option.bind_eq_some_iff] at hsome
    obtain ⟨_, -, entry, -, _, -, hsome⟩ := hsome
    cases hsome
    rw [hfound.head?_text (Nat.le_of_lt (of_mem_allMatches hm).1) rfl]
    exact start_ne_dollar hm fun cs => by simp [shortcutCall, drupalClass_dollar]

theorem Fetches.head?_raw (h : Fetches line call m) : line.raw[m.start]? = some '$' := by
  obtain ⟨-, rest, hread, -⟩ := of_mem_allMatches h.1
  obtain ⟨_, _, _, _, _, _, _, _, hraw⟩ := containerGet_eq_some hread
  rw [← head?_drop, hraw]
  rfl

/-- A search has one match at a place. -/
theorem match_eq_of_start {α : Type} {recognize : List Char → Option (α × List Char)}
    {m m' : Match α} (hm : m ∈ allMatches recognize cs) (hm' : m' ∈ allMatches recognize cs)
    (hstart : m.start = m'.start) : m = m' := by
  obtain ⟨-, rest, hread, hstop⟩ := of_mem_allMatches hm
  obtain ⟨-, rest', hread', hstop'⟩ := of_mem_allMatches hm'
  rw [hstart, hread'] at hread
  obtain ⟨hvalue, rfl⟩ := Prod.mk.inj (Option.some.inj hread)
  rw [hstart, ← hstop'] at hstop
  calc m = ⟨m.start, m.stop, m.value⟩ := rfl
    _ = ⟨m'.start, m'.stop, m'.value⟩ := by rw [hstart, hstop, hvalue]
    _ = m' := rfl

theorem Fetches.startColumn (h : Fetches line call m) :
    m.start ≤ line.raw.length ∧ call.startColumn = width16 (line.raw.take m.start) := by
  obtain ⟨hm, -, id, -, hcall⟩ := h
  refine ⟨Nat.le_of_lt (of_mem_allMatches hm).1, ?_⟩
  rw [hcall]
  rfl

/-- A line has one fetch at a column. -/
theorem Fetches.match_eq {a b : StaticCall} {m' : Match ContainerGet} (ha : Fetches line a m)
    (hb : Fetches line b m') (hcolumn : a.startColumn = b.startColumn) : m = m' := by
  rw [ha.startColumn.2, hb.startColumn.2] at hcolumn
  exact match_eq_of_start ha.1 hb.1 (width16_take_inj ha.startColumn.1 hb.startColumn.1 hcolumn)

theorem Fetches.eq_of_match {a b : StaticCall} (ha : Fetches line a m) (hb : Fetches line b m)
    (hline : a.line = b.line) : a = b := by
  obtain ⟨-, -, id, hid, ha⟩ := ha
  obtain ⟨-, -, id', hid', hb⟩ := hb
  cases hid.symm.trans hid'
  rw [ha, hb, hline]

/-- The fetches that a scan finds on a line are those from the variables that it holds. -/
theorem Fetches.mem_detectLine_iff {state : ScanState} (h : Fetches line call m) :
    call ∈ (detectLine state call.line line).1 ↔
      ∃ held ∈ assignVariables line state, held.name = m.value.container := by
  have hvariable : ∀ other, other ∈ (detectLine state call.line line).1 →
      other.text.toList.head? = some '$' →
      other ∈ variableCalls (assignVariables line state) call.line line := by
    intro other hother hdollar
    rcases mem_append.mp (orderCalls_subset hother) with hlocator | hother
    · exact absurd hdollar (head?_text_locator hlocator)
    · exact hother
  obtain ⟨hle, hcolumn⟩ := h.startColumn
  constructor
  · intro hcall
    have hdollar := (found_of_mem_detectLine hcall).head?_text hle hcolumn
    obtain ⟨m', -, hfetches, held, hheld, hname⟩ :=
      mem_variableCalls.mp (hvariable call hcall (hdollar.trans h.head?_raw))
    obtain rfl := h.match_eq hfetches rfl
    exact ⟨held, hheld, hname⟩
  · rintro ⟨held, hheld, hname⟩
    have hmem : call ∈ variableCalls (assignVariables line state) call.line line :=
      mem_variableCalls.mpr ⟨m, rfl, h, held, hheld, hname⟩
    obtain ⟨kept, hkept, hsame⟩ := exists_mem_orderCalls
      (mem_append_right (quotedCalls directCall .directLocator call.line line ++
        quotedCalls containerCall .containerIndirect call.line line ++
        shortcutCalls call.line line) hmem)
    have hfound : Found call.line line kept := found_of_mem_detectLine hkept
    have hdollar := hfound.head?_text hle (hsame.trans hcolumn)
    obtain ⟨m', hline, hfetches, -⟩ :=
      mem_variableCalls.mp (hvariable kept hkept (hdollar.trans h.head?_raw))
    obtain rfl := hfetches.match_eq h hsame
    obtain rfl := hfetches.eq_of_match h hline
    exact hkept

/-- A fetch is found on the lines on which its variable is tracked. -/
theorem Fetches.mem_detect_iff (h : Fetches (source.line call.line) call m) :
    call ∈ detect source ↔ ∃ k, source.Tracks m.value.container k call.line := by
  rw [StaticCall.mem_detect_iff, h.mem_detectLine_iff]
  simp only [mem_assignVariables_scanBefore]
  constructor
  · rintro ⟨-, held, ⟨k, htracks, -⟩, hname⟩
    exact ⟨k, hname ▸ htracks⟩
  · rintro ⟨k, htracks⟩
    refine ⟨?_, ⟨m.value.container, source.depthBefore k⟩, ⟨k, htracks, rfl⟩, rfl⟩
    -- behind the last line there is nothing to match
    refine Nat.lt_of_not_le fun hle => ?_
    have hempty : source.line call.line = [] := by
      rw [Source.line, getD_eq_getElem?_getD, getElem?_eq_none hle]
      rfl
    have hlt := (of_mem_allMatches h.1).1
    rw [hempty] at hlt
    simp [Line.raw] at hlt

/-- Every call that is found and starts with a variable is a fetch. -/
theorem exists_fetches_of_mem_detect (h : call ∈ detect source)
    (hdollar : call.text.toList.head? = some '$') :
    ∃ m, Fetches (source.line call.line) call m := by
  obtain ⟨-, hcall⟩ := mem_detect_iff.mp h
  rcases mem_append.mp (orderCalls_subset hcall) with hlocator | hvariable
  · exact absurd hdollar (head?_text_locator hlocator)
  · obtain ⟨m, -, hfetches, -⟩ := mem_variableCalls.mp hvariable
    exact ⟨m, hfetches⟩

end StaticCall

/-! ### Blocks -/

/-- Whether nothing about braces happens inside the lines from an assignment to a place
that cannot be seen between the lines: the assignment comes first and stands no deeper than
its line starts, the lines before the last are level, and the last closes nothing in front
of the place. -/
structure Source.Straight (source : Source) (k : Nat) (m : Match (List Char)) (spot : Spot) :
    Prop where
  before : spot.before ⟨k, m.stop⟩ = false
  shallow : source.depthAt ⟨k, m.stop⟩ ≤ source.depthBefore k
  level : ∀ j, k ≤ j → j < spot.line → (source.line j).Level
  unclosed : '\x7d' ∉ (source.code spot.line).take spot.col

/-- Between an assignment that is tracked and a place that it reaches straight, the depth
stays at least that of the assigning line. -/
theorem Source.Tracks.le_depthAt {m : Match (List Char)} {spot place : Spot}
    (htracks : source.Tracks name k spot.line) (hstraight : source.Straight k m spot)
    (hbehind : k ≤ place.line) (hbefore : spot.before place = false) :
    source.depthBefore k ≤ source.depthAt place := by
  have hdeep : ∀ j, k ≤ j → j ≤ spot.line → source.depthBefore k ≤ source.depthBefore j := by
    intro j hk hj
    rcases Nat.lt_or_eq_of_le hk with hlt | rfl
    · exact htracks.deep j hlt hj
    · exact Int.le_refl _
  have hplace : place.line < spot.line ∨ place.line = spot.line ∧ place.col ≤ spot.col := by
    simp [Spot.before] at hbefore
    omega
  rw [Source.depthAt]
  rcases hplace with hlt | ⟨hline, hcol⟩
  · have hlevel := hstraight.level place.line hbehind hlt place.col
    have hstart := hdeep place.line hbehind (Nat.le_of_lt hlt)
    have hstop : source.depthBefore k ≤
        source.depthBefore place.line + (source.line place.line).braceBalance :=
      hdeep (place.line + 1) (by omega) hlt
    omega
  · have hnone := hstraight.unclosed
    rw [← hline] at hnone
    have hrise := Line.braceBalance_take_nonneg hnone hcol
    have hstart := hdeep place.line hbehind (Nat.le_of_eq hline)
    omega

/-- A variable that is tracked straight to a place is traced there. -/
theorem Source.Tracks.traced {m : Match (List Char)} {spot : Spot}
    (htracks : source.Tracks name k spot.line) (hassigns : (source.line k).Assigns name m)
    (hstraight : source.Straight k m spot) : source.Traced name spot := by
  refine ⟨k, m, hassigns, hstraight.before, fun place hbehind hbefore => ?_⟩
  have hline : k ≤ place.line := by
    simp [Spot.before] at hbehind
    omega
  exact Int.le_trans hstraight.shallow (htracks.le_depthAt hstraight hline hbefore)

/-- **Container variables.** Every call that is found and starts with a variable is a fetch
in code. A fetch is found exactly if its variable is tracked to its line. Its variable is
then traced to the fetch itself, if nothing about braces happens inside the lines from the
assignment to the fetch. -/
theorem detect_tracks (text : String) :
    (∀ call ∈ detect (Source.ofText text), call.text.toList.head? = some '$' →
      ∃ m, Fetches ((Source.ofText text).line call.line) call m) ∧
    ∀ call m, Fetches ((Source.ofText text).line call.line) call m →
      (call ∈ detect (Source.ofText text) ↔
        ∃ k, (Source.ofText text).Tracks m.value.container k call.line) ∧
      ∀ k assignment, (Source.ofText text).Tracks m.value.container k call.line →
        ((Source.ofText text).line k).Assigns m.value.container assignment →
        (Source.ofText text).Straight k assignment ⟨call.line, m.start⟩ →
        (Source.ofText text).Traced m.value.container ⟨call.line, m.start⟩ := by
  refine ⟨fun call hcall hdollar => exists_fetches_of_mem_detect hcall hdollar,
    fun call m hfetches => ⟨hfetches.mem_detect_iff, ?_⟩⟩
  intro k assignment htracks hassigns hstraight
  exact htracks.traced hassigns hstraight

/-- A function that fetches a service from the container that it has asked for. -/
def fetchBehindAssignment : String := "<?php
function a() \x7b
  $container = \\Drupal::getContainer();
  $x = $container->get('state');
\x7d
"

theorem traced_fetchBehindAssignment :
    ∃ call ∈ detect (Source.ofText fetchBehindAssignment), call.serviceId = "state" ∧
      (Source.ofText fetchBehindAssignment).Traced "container".toList ⟨call.line, 7⟩ := by
  have hread : (∃ call ∈ detect (Source.ofText fetchBehindAssignment),
        call.serviceId = "state" ∧ call.line = 3 ∧ call.text.toList.head? = some '$') ∧
      (∀ m ∈ allMatches containerGet ((Source.ofText fetchBehindAssignment).line 3).raw,
        m.start = 7 ∧ m.value.container = "container".toList) ∧
      (∃ m ∈ allMatches containerAssignment ((Source.ofText fetchBehindAssignment).line 2).raw,
        ((Source.ofText fetchBehindAssignment).line 2).isCodeAt m.start = true ∧
          m.value = "container".toList ∧
          (Source.ofText fetchBehindAssignment).depthAt ⟨2, m.stop⟩ ≤
            (Source.ofText fetchBehindAssignment).depthBefore 2) ∧
      (∀ k ≤ 3, ∀ m ∈ allMatches containerAssignment
        ((Source.ofText fetchBehindAssignment).line k).raw, k = 2) ∧
      '\x7d' ∉ ((Source.ofText fetchBehindAssignment).line 2).code ∧
      '\x7d' ∉ ((Source.ofText fetchBehindAssignment).code 3).take 7 := by decide +kernel
  obtain ⟨⟨call, hcall, hid, hline, hdollar⟩, hfetched, ⟨assignment, hmatch, hcode, hname, hshallow⟩,
    hassigned, hlevel, hunclosed⟩ := hread
  obtain ⟨hfetch, hrest⟩ := detect_tracks fetchBehindAssignment
  obtain ⟨m, hm⟩ := hfetch call hcall hdollar
  obtain ⟨hiff, htraced⟩ := hrest call m hm
  obtain ⟨k, htracks⟩ := hiff.mp hcall
  obtain ⟨hstart, hcontainer⟩ := hfetched m (hline ▸ hm.1)
  rw [hcontainer] at htracks htraced
  rw [hline, hstart] at htraced
  rw [hline] at htracks
  obtain ⟨other, hother, -⟩ := htracks.assigns
  obtain rfl := hassigned k htracks.le other hother
  refine ⟨call, hcall, hid, ?_⟩
  rw [hline]
  refine htraced 2 assignment htracks ⟨hmatch, hcode, hname⟩ ⟨rfl, hshallow, fun j hj hlt => ?_,
    hunclosed⟩
  obtain rfl : j = 2 := by
    simp at hlt
    omega
  exact Line.level_of_not_mem hlevel

/-- A function on one line that asks for the container, and another function with a variable
of the same name. -/
def fetchBehindBlock : String := "<?php
function a() \x7b $c = \\Drupal::getContainer(); \x7d
function b($c) \x7b
  return $c->get('state');
\x7d
"

/-- The variable of the other function is taken for the container. -/
theorem untraced_fetchBehindBlock :
    ∃ call ∈ detect (Source.ofText fetchBehindBlock),
      ∃ m, Fetches ((Source.ofText fetchBehindBlock).line call.line) call m ∧
        ¬ (Source.ofText fetchBehindBlock).Traced m.value.container ⟨call.line, m.start⟩ := by
  have hread : (∃ call ∈ detect (Source.ofText fetchBehindBlock),
        call.line = 3 ∧ call.text.toList.head? = some '$') ∧
      (∀ k ≤ 3, ∀ m ∈ allMatches containerAssignment
        ((Source.ofText fetchBehindBlock).line k).raw, k = 1 ∧ m.stop = 44) ∧
      ¬ (Source.ofText fetchBehindBlock).depthAt ⟨1, 44⟩ ≤
        (Source.ofText fetchBehindBlock).depthAt ⟨2, 0⟩ := by decide +kernel
  obtain ⟨⟨call, hcall, hline, hdollar⟩, hassigned, hclosed⟩ := hread
  obtain ⟨m, hm⟩ := exists_fetches_of_mem_detect hcall hdollar
  refine ⟨call, hcall, m, hm, ?_⟩
  rintro ⟨k, assignment, ⟨hmatch, -⟩, hbefore, hopen⟩
  have hk : k ≤ 3 := by
    simp [Spot.before, hline] at hbefore
    omega
  obtain ⟨rfl, hstop⟩ := hassigned k hk assignment hmatch
  rw [hstop] at hopen
  exact hclosed (hopen ⟨2, 0⟩ (by simp [Spot.before]) (by simp [Spot.before, hline]))

end ServiceInjection
