import ServiceInjection.Text.Lines

/-!
# Text.Lines

Text and its lines. `unlines` ends each line with a line feed and `joined` puts line feeds
between lines only; both are inverses of splitting a text into lines.
-/

namespace ServiceInjection.Text

open List

variable {c : Char} {line front : List Char} {ls : List (List Char)}

/-- The text of lines, each of them ended by a line feed. -/
def unlines (ls : List (List Char)) : List Char := ls.flatMap (· ++ ['\n'])

@[simp] theorem unlines_nil : unlines [] = [] := rfl

@[simp] theorem unlines_cons (line : List Char) (ls : List (List Char)) :
    unlines (line :: ls) = line ++ '\n' :: unlines ls := by
  simp [unlines]

@[simp] theorem unlines_append (front back : List (List Char)) :
    unlines (front ++ back) = unlines front ++ unlines back := flatMap_append

/-- Whether a line holds no character that ends lines. -/
def IsLine (line : List Char) : Prop := '\n' ∉ line ∧ '\r' ∉ line

instance (line : List Char) : Decidable (IsLine line) := inferInstanceAs (Decidable (_ ∧ _))

theorem lines_cons_of_ne (hfeed : c ≠ '\n') (hreturn : c ≠ '\r') (cs : List Char) :
    lines (c :: cs) = match lines cs with
      | [] => [[c]]
      | line :: rest => (c :: line) :: rest :=
  lines.eq_4 c cs hfeed fun _ h => absurd h hreturn

theorem lines_append (h : IsLine line) (rest : List Char) :
    lines (line ++ '\n' :: rest) = line :: lines rest := by
  induction line with
  | nil => rfl
  | cons c line ih =>
    obtain ⟨hfeed, hreturn⟩ := h
    obtain ⟨hc, hfeed⟩ := not_or.mp (mt mem_cons.mpr hfeed)
    obtain ⟨hc', hreturn⟩ := not_or.mp (mt mem_cons.mpr hreturn)
    rw [cons_append, lines_cons_of_ne (Ne.symm hc) (Ne.symm hc'), ih ⟨hfeed, hreturn⟩]

theorem lines_unlines_append {ls : List (List Char)} (h : ∀ line ∈ ls, IsLine line)
    (rest : List Char) : lines (unlines ls ++ rest) = ls ++ lines rest := by
  induction ls with
  | nil => rfl
  | cons line ls ih =>
    obtain ⟨hline, hls⟩ := forall_mem_cons.mp h
    rw [unlines_cons, append_assoc, cons_append, lines_append hline, ih hls,
      cons_append]

/-! ### Lines with line feeds in between -/

/-- Lines with a line feed between each two. -/
def joined (ls : List (List Char)) : List Char := ['\n'].intercalate ls

@[simp] theorem joined_singleton (line : List Char) : joined [line] = line :=
  intercalate_singleton

theorem joined_cons (line : List Char) (h : ls ≠ []) :
    joined (line :: ls) = line ++ '\n' :: joined ls := by
  cases ls with
  | nil => exact absurd rfl h
  | cons next ls => simp [joined, intercalate_cons_cons]

theorem unlines_eq_joined (h : ls ≠ []) : unlines ls = joined ls ++ ['\n'] := by
  induction ls with
  | nil => exact absurd rfl h
  | cons line ls ih =>
    by_cases hls : ls = []
    · subst hls
      simp
    · rw [unlines_cons, ih hls, joined_cons line hls]
      simp

theorem joined_append {front back : List (List Char)} (hback : back ≠ []) :
    joined (front ++ back) = unlines front ++ joined back := by
  induction front with
  | nil => rfl
  | cons line front ih =>
    rw [cons_append, joined_cons line (by simp [hback]), ih, unlines_cons]
    simp

theorem mem_intercalate {α : Type} {x cut : α} {ls : List (List α)}
    (h : x ∈ [cut].intercalate ls) : x = cut ∨ ∃ line ∈ ls, x ∈ line := by
  induction ls with
  | nil => simp at h
  | cons line ls ih =>
    cases ls with
    | nil =>
      rw [intercalate_singleton] at h
      exact .inr ⟨line, mem_cons_self, h⟩
    | cons next ls =>
      simp only [intercalate_cons_cons, mem_append, mem_singleton] at h
      rcases h with (h | h) | h
      · exact .inr ⟨line, mem_cons_self, h⟩
      · exact .inl h
      · rcases ih h with h | ⟨other, hother, h⟩
        · exact .inl h
        · exact .inr ⟨other, mem_cons_of_mem _ hother, h⟩

theorem mem_intercalate_of_mem {α : Type} {x : α} {cut line : List α} {ls : List (List α)}
    (hline : line ∈ ls) (hx : x ∈ line) : x ∈ cut.intercalate ls := by
  induction ls with
  | nil => cases hline
  | cons first ls ih =>
    cases ls with
    | nil =>
      rw [mem_singleton] at hline
      rwa [intercalate_singleton, ← hline]
    | cons next ls =>
      rw [intercalate_cons_cons, mem_append, mem_append]
      rcases mem_cons.mp hline with rfl | hline
      · exact .inl (.inl hx)
      · exact .inr (ih hline)

theorem mem_joined (h : c ∈ joined ls) : c = '\n' ∨ ∃ line ∈ ls, c ∈ line := mem_intercalate h

theorem mem_joined_of_mem (hline : line ∈ ls) (hc : c ∈ line) :
    c ∈ joined ls := mem_intercalate_of_mem hline hc

theorem count_joined (h : ∀ line ∈ ls, '\n' ∉ line) (hne : ls ≠ []) :
    (joined ls).count '\n' + 1 = ls.length := by
  induction ls with
  | nil => exact absurd rfl hne
  | cons line ls ih =>
    obtain ⟨hline, hls⟩ := forall_mem_cons.mp h
    have hzero := count_eq_zero.mpr hline
    by_cases hnil : ls = []
    · subst hnil
      simp [hzero]
    · rw [joined_cons line hnil, count_append, count_cons_self, hzero, length_cons,
        ← ih hls hnil]
      omega

/-! ### Pieces -/

theorem splitBy_ne_nil (isCut : Char → Bool) (text : List Char) : splitBy isCut text ≠ [] := by
  cases text with
  | nil => simp [splitBy]
  | cons c text =>
    rw [splitBy]
    split
    · simp
    · split <;> simp

theorem splitBy_cons {isCut : Char → Bool} (h : isCut c = false) (text : List Char) :
    splitBy isCut (c :: text) = (splitBy isCut text).modifyHead (c :: ·) := by
  rw [splitBy, if_neg (by simp [h])]
  obtain ⟨piece, rest, hcons⟩ := exists_cons_of_ne_nil (splitBy_ne_nil isCut text)
  rw [hcons]
  rfl

theorem splitBy_append {isCut : Char → Bool} {piece : List Char} (h : ∀ c ∈ piece, isCut c = false)
    {cut : Char} (hcut : isCut cut = true) (rest : List Char) :
    splitBy isCut (piece ++ cut :: rest) = piece :: splitBy isCut rest := by
  induction piece with
  | nil => rw [nil_append, splitBy, if_pos hcut]
  | cons c piece ih =>
    obtain ⟨hc, hpiece⟩ := forall_mem_cons.mp h
    rw [cons_append, splitBy_cons hc, ih hpiece]
    rfl

theorem splitBy_of_forall {isCut : Char → Bool} {piece : List Char}
    (h : ∀ c ∈ piece, isCut c = false) : splitBy isCut piece = [piece] := by
  induction piece with
  | nil => rfl
  | cons c piece ih =>
    obtain ⟨hc, hpiece⟩ := forall_mem_cons.mp h
    rw [splitBy_cons hc, ih hpiece]
    rfl

/-- The pieces of a text between its line feeds. -/
def pieces (text : List Char) : List (List Char) := splitBy (· == '\n') text

theorem pieces_cons_of_ne (h : c ≠ '\n') (text : List Char) :
    pieces (c :: text) = (pieces text).modifyHead (c :: ·) ∧ pieces text ≠ [] :=
  ⟨splitBy_cons (by simpa using h) text, splitBy_ne_nil _ text⟩

theorem pieces_append (h : '\n' ∉ line) (rest : List Char) :
    pieces (line ++ '\n' :: rest) = line :: pieces rest :=
  splitBy_append (fun c hc => by simpa using fun hline : c = '\n' => h (hline ▸ hc)) rfl rest

theorem pieces_of_not_mem (h : '\n' ∉ line) : pieces line = [line] :=
  splitBy_of_forall fun c hc => by simpa using fun hline : c = '\n' => h (hline ▸ hc)

theorem pieces_joined (h : ∀ line ∈ ls, '\n' ∉ line) (hne : ls ≠ []) : pieces (joined ls) = ls := by
  induction ls with
  | nil => exact absurd rfl hne
  | cons line ls ih =>
    obtain ⟨hline, hls⟩ := forall_mem_cons.mp h
    by_cases hnil : ls = []
    · subst hnil
      rw [joined_singleton, pieces_of_not_mem hline]
    · rw [joined_cons line hnil, pieces_append hline, ih hls hnil]

theorem pieces_spec (text : List Char) :
    joined (pieces text) = text ∧ pieces text ≠ [] ∧ ∀ line ∈ pieces text, '\n' ∉ line := by
  induction text with
  | nil => exact ⟨by simp [pieces, splitBy], by simp [pieces, splitBy], by simp [pieces, splitBy]⟩
  | cons c text ih =>
    obtain ⟨hjoined, hne, hlines⟩ := ih
    by_cases hc : c = '\n'
    · subst hc
      have hcons : pieces ('\n' :: text) = [] :: pieces text := by simp [pieces, splitBy]
      rw [hcons]
      refine ⟨by rw [joined_cons _ hne, hjoined]; rfl, by simp, ?_⟩
      exact forall_mem_cons.mpr ⟨by simp, hlines⟩
    · rw [(pieces_cons_of_ne hc text).1]
      obtain ⟨piece, rest, hpieces⟩ := exists_cons_of_ne_nil hne
      rw [hpieces] at hjoined hlines ⊢
      obtain ⟨hpiece, hrest⟩ := forall_mem_cons.mp hlines
      refine ⟨?_, by simp, forall_mem_cons.mpr ⟨?_, hrest⟩⟩
      · rw [← hjoined]
        by_cases hnil : rest = []
        · subst hnil
          rfl
        · rw [modifyHead_cons, joined_cons _ hnil, joined_cons _ hnil]
          rfl
      · simp [hpiece, Ne.symm hc]

theorem pieces_feed (front back : List Char) :
    pieces (front ++ '\n' :: back) = pieces front ++ pieces back := by
  obtain ⟨hfront, hne, hfrontLines⟩ := pieces_spec front
  obtain ⟨hback, hne', hbackLines⟩ := pieces_spec back
  have hjoined : joined (pieces front ++ pieces back) = front ++ '\n' :: back := by
    rw [joined_append hne', unlines_eq_joined hne, hfront, hback]
    simp
  rw [← hjoined, pieces_joined (forall_mem_append.mpr ⟨hfrontLines, hbackLines⟩) (by simp [hne])]

/-- The first line of a text that starts with `front`. -/
theorem exists_first_line {rest : List Char} (hls : ∀ line ∈ ls, '\n' ∉ line)
    (hfront : '\n' ∉ front) (hc : c ≠ '\n') (h : joined ls = front ++ c :: rest) :
    ∃ behind others, ls = (front ++ c :: behind) :: others := by
  have hne : ls ≠ [] := by
    rintro rfl
    simp [joined] at h
  have hpieces := pieces_joined hls hne
  rw [h] at hpieces
  obtain ⟨piece, others, hrest⟩ := exists_cons_of_ne_nil (pieces_spec rest).2.1
  refine ⟨piece, others, ?_⟩
  rw [← hpieces]
  clear h hpieces
  induction front with
  | nil => rw [nil_append, (pieces_cons_of_ne hc rest).1, hrest]; rfl
  | cons d front ih =>
    obtain ⟨hd, hfront⟩ := not_or.mp (mt mem_cons.mpr hfront)
    rw [cons_append, (pieces_cons_of_ne (Ne.symm hd) _).1, ih hfront]
    rfl

/-! ### Whole lines -/

/-- Whether a text is made of whole lines, each with its line feed. -/
def WholeLines (text : List Char) : Prop := text = [] ∨ ∃ front, text = front ++ ['\n']

/-- A line without the carriage return that belongs to its end. -/
def dropReturn (line : List Char) : List Char :=
  if line.getLast? = some '\r' then line.dropLast else line

theorem lines_feed (h : '\n' ∉ line) (rest : List Char) :
    lines (line ++ '\n' :: rest) = dropReturn line :: lines rest := by
  induction line with
  | nil => rfl
  | cons c line ih =>
    obtain ⟨hc, hline⟩ := not_or.mp (mt mem_cons.mpr h)
    by_cases hnil : line = []
    · subst hnil
      by_cases hreturn : c = '\r'
      · subst hreturn
        rfl
      · rw [cons_append, lines_cons_of_ne (Ne.symm hc) hreturn, ih hline]
        simp [dropReturn, hreturn]
    · have hcons : lines (c :: (line ++ '\n' :: rest)) = match lines (line ++ '\n' :: rest) with
          | [] => [[c]]
          | first :: rest => (c :: first) :: rest := by
        refine lines.eq_4 c _ (Ne.symm hc) fun cs _ heq => ?_
        obtain ⟨d, line, rfl⟩ := exists_cons_of_ne_nil hnil
        rw [cons_append] at heq
        exact hline ((cons.inj heq).1 ▸ mem_cons_self)
      rw [cons_append, hcons, ih hline]
      obtain ⟨d, line, rfl⟩ := exists_cons_of_ne_nil hnil
      simp only [dropReturn, getLast?_cons_cons, dropLast_cons_cons]
      split <;> rfl

theorem WholeLines.of_append {back : List Char} (h : WholeLines (front ++ back)) :
    WholeLines back := by
  by_cases hnil : back = []
  · exact .inl hnil
  · rcases h with h | ⟨lines, h⟩
    · exact .inl (append_eq_nil_iff.mp h).2
    · have hlast := congrArg getLast? h
      rw [getLast?_concat, getLast?_append, getLast?_eq_some_getLast hnil] at hlast
      exact .inr ⟨back.dropLast, by
        rw [show '\n' = back.getLast hnil by simpa using hlast.symm, dropLast_concat_getLast]⟩

theorem WholeLines.append {front back : List Char} (h : WholeLines back) (hne : back ≠ []) :
    WholeLines (front ++ back) := by
  rcases h with h | ⟨lines, rfl⟩
  · exact absurd h hne
  · exact .inr ⟨front ++ lines, (append_assoc ..).symm⟩

/-- Whole lines are none, or one in front of others. -/
theorem WholeLines.cases {text : List Char} (h : WholeLines text) :
    text = [] ∨ ∃ line rest, text = line ++ '\n' :: rest ∧ '\n' ∉ line ∧ WholeLines rest := by
  rcases h with rfl | ⟨front, rfl⟩
  · exact .inl rfl
  · obtain ⟨line, rest, heq, hline⟩ :=
      eq_append_cons_of_mem (by simp : '\n' ∈ front ++ ['\n'])
    have hwhole : WholeLines (line ++ ['\n'] ++ rest) := .inr ⟨front, by simp [heq]⟩
    exact .inr ⟨line, rest, heq, hline, hwhole.of_append⟩

theorem lines_wholeLines_append (h : WholeLines front) (back : List Char) :
    lines (front ++ back) = lines front ++ lines back ∧
      (lines front).length = front.count '\n' := by
  induction hn : front.count '\n' generalizing front with
  | zero =>
    rcases h with rfl | ⟨lines, rfl⟩
    · exact ⟨rfl, rfl⟩
    · simp at hn
  | succ n ih =>
    obtain rfl | ⟨line, rest, rfl, hline, hrest⟩ := h.cases
    · cases hn
    · have hcount : rest.count '\n' = n := by
        rw [count_append, count_eq_zero.mpr hline, count_cons_self] at hn
        omega
      obtain ⟨hlines, hlength⟩ := ih hrest hcount
      rw [append_assoc, cons_append, lines_feed hline, lines_feed hline, hlines,
        length_cons, hlength]
      exact ⟨rfl, rfl⟩

/-- A text starts with any number of whole lines that it has feeds for. -/
theorem exists_wholeLines {n : Nat} {text : List Char} (h : n ≤ text.count '\n') :
    ∃ front back, text = front ++ back ∧ WholeLines front ∧ front.count '\n' = n := by
  induction n with
  | zero => exact ⟨[], text, rfl, .inl rfl, rfl⟩
  | succ n ih =>
    obtain ⟨front, back, rfl, -, hcount⟩ := ih (by omega)
    rw [count_append] at h
    have hmem : '\n' ∈ back := count_pos_iff.mp (by omega)
    obtain ⟨line, rest, rfl, hline⟩ := eq_append_cons_of_mem hmem
    refine ⟨front ++ line ++ ['\n'], rest, by simp, .inr ⟨_, rfl⟩, ?_⟩
    rw [count_append, count_append, hcount, count_eq_zero.mpr hline]
    rfl

theorem length_lines_le (text : List Char) : (lines text).length ≤ text.count '\n' + 1 := by
  obtain ⟨front, back, rfl, hfront, hcount⟩ := exists_wholeLines (Nat.le_refl (text.count '\n'))
  obtain ⟨hlines, hlength⟩ := lines_wholeLines_append hfront back
  have hback : '\n' ∉ back := by
    rw [count_append] at hcount
    exact count_eq_zero.mp (by omega)
  have hone : (lines back).length ≤ 1 := by
    clear hlines hcount
    induction back with
    | nil => simp [lines]
    | cons c back ih =>
      obtain ⟨hc, hrest⟩ := not_or.mp (mt mem_cons.mpr hback)
      rw [lines.eq_4 c back (Ne.symm hc) fun cs _ heq => hrest (heq ▸ mem_cons_self)]
      split
      · exact Nat.le_refl 1
      · rename_i line more hlines
        have hlength := ih hrest
        rw [hlines] at hlength
        exact hlength
  rw [hlines, length_append, hlength, count_append]
  omega

end ServiceInjection.Text
