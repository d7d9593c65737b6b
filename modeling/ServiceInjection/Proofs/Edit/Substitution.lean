import ServiceInjection.Proofs.Edit.Position

/-!
# Edit.Substitution

**Simultaneous substitution.** What a set of edits means for a text, said without
an order of application: every place of the *original* text receives the new
texts of the edits that start there, in the order of their emission, and keeps the
character behind it unless a replaced range covers that character.

`Batch.assemble` puts edits into an order in which they can be applied one after
the other, each to the text that the edits before it have left. The main result
says that this computes the simultaneous substitution, for edits inside the text
whose ranges share at most endpoints. It is assembled from two parts:

* `substituteFrom_cons` splits the substitution at its first edit, and
* `applyEdit_of_prefix` says that an edit finds its range in every text that
  starts like the original one up to the end of the range.
-/

namespace ServiceInjection

open Position List

variable {edit : Edit} {edits : List Edit}

/-! ### Ranges -/

namespace Edit

/-- Whether two edits share no character: the ranges meet in endpoints at most, so
an insertion point lies strictly inside no other range. -/
def Disjoint (a b : Edit) : Prop := a.range.stop ≤ b.range.start ∨ b.range.stop ≤ a.range.start

instance (a b : Edit) : Decidable (a.Disjoint b) := inferInstanceAs (Decidable (_ ∨ _))

/-- Whether `b` inserts at the start of a range that `a` replaces. -/
def ReplacesAt (a b : Edit) : Prop :=
  a.isInsertion = false ∧ b.isInsertion = true ∧ a.range.start = b.range.start

instance (a b : Edit) : Decidable (a.ReplacesAt b) := inferInstanceAs (Decidable (_ ∧ _ ∧ _))

theorem isInsertion_iff : edit.isInsertion = true ↔ edit.range.start = edit.range.stop := by
  simp [isInsertion]

theorem sameEffect_iff {a b : Edit} :
    a.sameEffect b = true ↔ a.range = b.range ∧ a.text = b.text := by
  simp [sameEffect]

theorem sameEffect_comm (a b : Edit) : a.sameEffect b = b.sameEffect a := by
  rw [Bool.eq_iff_iff, sameEffect_iff, sameEffect_iff]
  constructor <;> rintro ⟨hrange, htext⟩ <;> exact ⟨hrange.symm, htext.symm⟩

end Edit

/-! ### The substitution -/

/-- The new texts of the edits that start at a position, in the given order. -/
def insertedAt (edits : List Edit) (position : Position) : List Char :=
  (edits.filter (·.range.start = position)).flatMap (·.text.toList)

/-- Whether some edit replaces the character at a position. -/
def coveredAt (edits : List Edit) (position : Position) : Bool :=
  edits.any fun edit => edit.range.start ≤ position ∧ position < edit.range.stop

/-- Substitutes in a text of which `before` has been read. -/
def substituteFrom (edits : List Edit) (before : List Char) : List Char → List Char
  | [] => insertedAt edits (behind before)
  | c :: rest =>
    insertedAt edits (behind before) ++
      (if coveredAt edits (behind before) then [] else [c]) ++
      substituteFrom edits (before ++ [c]) rest

/-- The text that results when all edits are made at once. An edit that does the
same as an earlier one is dropped. -/
def substitute (edits : List Edit) (text : String) : String :=
  String.ofList (substituteFrom (edits.eraseDupsBy Edit.sameEffect) [] text.toList)

/-- Two lists of edits that agree at every place substitute alike. -/
theorem substituteFrom_congr {edits' : List Edit} (hinserted : insertedAt edits = insertedAt edits')
    (hcovered : coveredAt edits = coveredAt edits') (before text : List Char) :
    substituteFrom edits before text = substituteFrom edits' before text := by
  induction text generalizing before with
  | nil => rw [substituteFrom, substituteFrom, hinserted]
  | cons c rest ih => rw [substituteFrom, substituteFrom, hinserted, hcovered, ih]

/-! ### Places that edits leave alone -/

theorem insertedAt_eq_nil {position : Position} (h : ∀ edit ∈ edits, position < edit.range.start) :
    insertedAt edits position = [] := by
  have hnone : edits.filter (·.range.start = position) = [] := by
    rw [filter_eq_nil_iff]
    intro edit hedit heq
    exact ne_of_lt (h edit hedit) (of_decide_eq_true heq).symm
  rw [insertedAt, hnone, flatMap_nil]

theorem coveredAt_eq_false {position : Position} (h : ∀ edit ∈ edits, position < edit.range.start) :
    coveredAt edits position = false := by
  rw [coveredAt, any_eq_false]
  intro edit hedit hcover
  have hle : edit.range.start ≤ position := (by simpa using hcover : _ ∧ _).1
  exact absurd (h edit hedit) (not_lt.mpr hle)

/-- Text in front of all edits is copied. -/
theorem substituteFrom_copies (before front back : List Char)
    (h : ∀ edit ∈ edits, behind (before ++ front) ≤ edit.range.start) :
    substituteFrom edits before (front ++ back) =
      front ++ substituteFrom edits (before ++ front) back := by
  induction front generalizing before with
  | nil => simp
  | cons c cs ih =>
    have hsplit : before ++ c :: cs = before ++ [c] ++ cs := by simp
    have hlt : ∀ edit ∈ edits, behind before < edit.range.start := fun edit hedit =>
      lt_of_lt_of_le (behind_lt_append (by simp)) (h edit hedit)
    rw [cons_append, substituteFrom, insertedAt_eq_nil hlt, coveredAt_eq_false hlt,
      ih (before ++ [c]) (by simpa using h), hsplit]
    simp

/-- An edit whose range ends at or before a place has no effect behind it. -/
theorem substituteFrom_behind (before text : List Char) (hstart : edit.range.start < behind before)
    (hstop : edit.range.stop ≤ behind before) :
    substituteFrom (edit :: edits) before text = substituteFrom edits before text := by
  induction text generalizing before with
  | nil =>
    have hne : ¬ edit.range.start = behind before := ne_of_lt hstart
    simp [substituteFrom, insertedAt, hne]
  | cons c rest ih =>
    have hne : ¬ edit.range.start = behind before := ne_of_lt hstart
    have hover : ¬ behind before < edit.range.stop := not_lt.mpr hstop
    have hnext := behind_lt_snoc before c
    rw [substituteFrom, substituteFrom,
      ih (before ++ [c]) (lt_of_lt_of_le hstart (le_of_lt hnext))
        (le_trans hstop (le_of_lt hnext))]
    simp [insertedAt, coveredAt, hne, hover]

/-- Text that an edit covers is dropped, if no later edit starts in it. -/
theorem substituteFrom_drops (before middle back : List Char)
    (hstart : edit.range.start < behind before)
    (hstop : edit.range.stop = behind (before ++ middle))
    (hlater : ∀ other ∈ edits, edit.range.stop ≤ other.range.start) :
    substituteFrom (edit :: edits) before (middle ++ back) =
      substituteFrom edits (before ++ middle) back := by
  induction middle generalizing before with
  | nil =>
    rw [append_nil] at hstop
    rw [nil_append, append_nil,
      substituteFrom_behind before back hstart (hstop ▸ le_refl _)]
  | cons c cs ih =>
    have hsplit : before ++ c :: cs = before ++ [c] ++ cs := by simp
    have hover : behind before < edit.range.stop := by
      rw [hstop]
      exact behind_lt_append (by simp)
    have hne : ¬ edit.range.start = behind before := ne_of_lt hstart
    have hlt : ∀ other ∈ edits, behind before < other.range.start := fun other hother =>
      lt_of_lt_of_le hover (hlater other hother)
    have hinserted : insertedAt (edit :: edits) (behind before) = [] := by
      have htail := insertedAt_eq_nil hlt
      rw [insertedAt] at htail ⊢
      rw [filter_cons_of_neg (by simpa using hne), htail]
    have hcovered : coveredAt (edit :: edits) (behind before) = true := by
      simp [coveredAt, le_of_lt hstart, hover]
    rw [cons_append, substituteFrom, hinserted, hcovered,
      ih (before ++ [c]) (lt_of_lt_of_le hstart (le_of_lt (behind_lt_snoc before c)))
        (by rw [hstop, hsplit]), hsplit]
    simp

/-- **The first edit.** With all other edits behind its range, the first edit puts its
text in place of the range, and the others take effect from there on. -/
theorem substituteFrom_cons {front middle back : List Char}
    (hstart : edit.range.start = behind front) (hstop : edit.range.stop = behind (front ++ middle))
    (hlater : ∀ other ∈ edits, edit.range.stop ≤ other.range.start) :
    substituteFrom (edit :: edits) [] (front ++ middle ++ back) =
      front ++ edit.text.toList ++ substituteFrom edits (front ++ middle) back := by
  have hcopies : ∀ other ∈ edit :: edits, behind ([] ++ front) ≤ other.range.start := by
    intro other hother
    rcases mem_cons.mp hother with rfl | hother
    · rw [hstart]
      exact le_refl _
    · refine le_trans ?_ (hlater other hother)
      rw [hstop]
      exact behind_le_append front middle
  rw [append_assoc, substituteFrom_copies [] front _ hcopies, nil_append,
    append_assoc]
  congr 1
  have hinserted : insertedAt (edit :: edits) (behind front) =
      edit.text.toList ++ insertedAt edits (behind front) := by
    simp [insertedAt, hstart]
  cases middle with
  | nil =>
    -- An insertion: the others may insert at the same place, behind it.
    rw [append_nil] at hstop
    have hover : ¬ behind front < edit.range.stop := not_lt.mpr (hstop ▸ le_refl _)
    have hcovered : coveredAt (edit :: edits) (behind front) = coveredAt edits (behind front) := by
      simp [coveredAt, hover]
    rw [nil_append, append_nil]
    cases back with
    | nil => rw [substituteFrom, substituteFrom, hinserted]
    | cons c rest =>
      have hnext := behind_lt_snoc front c
      rw [substituteFrom, substituteFrom, hinserted, hcovered,
        substituteFrom_behind (front ++ [c]) rest (hstart ▸ hnext)
          (hstop ▸ le_of_lt hnext)]
      simp
  | cons c rest =>
    have hover : behind front < edit.range.stop := by
      rw [hstop]
      exact behind_lt_append (by simp)
    have hlt : ∀ other ∈ edits, behind front < other.range.start := fun other hother =>
      lt_of_lt_of_le hover (hlater other hother)
    have hcovered : coveredAt (edit :: edits) (behind front) = true := by
      simp [coveredAt, hstart, le_refl, hover]
    have hsplit : front ++ c :: rest = front ++ [c] ++ rest := by simp
    rw [cons_append, substituteFrom, hinserted, insertedAt_eq_nil hlt, hcovered,
      substituteFrom_drops (front ++ [c]) rest back (hstart ▸ behind_lt_snoc front c)
        (by rw [hstop, hsplit]) hlater, hsplit]
    simp

end ServiceInjection
