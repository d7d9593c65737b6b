import ServiceInjection.Proofs.Text.Units
import ServiceInjection.Text.Blank

/-!
# Text.Checked

Computations that check what they rest on. A text is cut at byte offsets, a list is read at an
index, and a number is taken from another; each of these is a `Fault` where it has no result:
behind the end, inside a character, below zero. The lemmas here say when the single operations
succeed, and `filterMapM_ok`, `mapM_ok` and `foldlM_ok` carry that over to walks along a list.
-/

namespace ServiceInjection

open Text List

/-- The byte offset of the first of some characters, and the character. -/
def Text.indexOfFirst (targets : List Char) : List Char → Option (Nat × Char)
  | [] => none
  | c :: cs =>
    if targets.contains c then some (0, c)
    else (indexOfFirst targets cs).map fun found => (c.utf8Size + found.1, found.2)

theorem Text.indexOfFirst_append {targets piece : List Char} (h : ∀ c ∈ piece, c ∉ targets)
    (cs : List Char) :
    indexOfFirst targets (piece ++ cs) =
      (indexOfFirst targets cs).map fun found => (width8 piece + found.1, found.2) := by
  induction piece with
  | nil => simp [width8]
  | cons c piece ih =>
    obtain ⟨hc, hpiece⟩ := forall_mem_cons.mp h
    rw [cons_append, indexOfFirst, if_neg (by simpa using hc), ih hpiece, Option.map_map]
    congr 1
    funext found
    simp [width8, Nat.add_assoc]

/-- What a checked computation can run into. -/
inductive Fault where
  /-- A cut behind the end of a text, inside a character, or with its ends in the wrong order. -/
  | cut
  /-- An index behind the end of a list. -/
  | index
  /-- A difference below zero. -/
  | difference
  deriving DecidableEq, Repr

/-- The result of a computation that checks its cuts, indices and differences. -/
abbrev Checked (α : Type) := Except Fault α

namespace Checked

variable {α β : Type}

@[simp] theorem ok_bind (a : α) (next : α → Checked β) : ((.ok a : Checked α) >>= next) = next a := rfl

/-! ### Numbers and lists -/

/-- The difference of two numbers. -/
def sub (a b : Nat) : Checked Nat := if b ≤ a then .ok (a - b) else .error .difference

theorem sub_eq {a b : Nat} (h : b ≤ a) : sub a b = .ok (a - b) := if_pos h

theorem lt_of_sub_one {n m : Nat} (h : sub n 1 = .ok m) : m < n := by
  rw [sub] at h
  split at h
  · cases h
    omega
  · cases h

@[simp] theorem sub_add_right (a b : Nat) : sub (a + b) b = .ok a := by
  rw [sub_eq (Nat.le_add_left b a), Nat.add_sub_cancel]

/-- The entry of a list at an index. -/
def get (items : List α) (i : Nat) : Checked α :=
  match items[i]? with
  | some item => .ok item
  | none => .error .index

theorem get_eq {items : List α} {i : Nat} (h : i < items.length) (default : α) :
    get items i = .ok (items.getD i default) := by
  simp [get, getD_eq_getElem?_getD, getElem?_eq_getElem h]

/-- The entries of a list from an index on. -/
def getFrom (items : List α) (first : Nat) : Checked (List α) :=
  if first ≤ items.length then .ok (items.drop first) else .error .index

theorem getFrom_eq {items : List α} {first : Nat} (h : first ≤ items.length) :
    getFrom items first = .ok (items.drop first) := if_pos h

/-! ### Texts -/

/-- The piece of a text between two byte offsets. -/
def cut (text : List Char) (first last : Nat) : Checked (List Char) :=
  match bytesBetween? text first last with
  | some piece => .ok piece
  | none => .error .cut

theorem cut_append (front piece back : List Char) :
    cut (front ++ (piece ++ back)) (width8 front) (width8 (front ++ piece)) = .ok piece := by
  rw [cut, bytesBetween?_append]

theorem cut_behind (front back : List Char) :
    cut (front ++ back) (width8 front) (width8 (front ++ back)) = .ok back := by
  simpa using cut_append front back []

/-- **Offsets of characters cut.** Between the offsets of two characters in order the cut gives
what stands between them. -/
theorem cut_take (text : List Char) {i j : Nat} (h : i ≤ j) :
    cut text (width8 (text.take i)) (width8 (text.take j)) = .ok ((text.take j).drop i) := by
  rw [cut, bytesBetween?_take h]

-- An offset inside a character does not cut.
example : cut "né".toList 0 2 = .error .cut := rfl

theorem cut_upTo (text : List Char) (i : Nat) :
    cut text 0 (width8 (text.take i)) = .ok (text.take i) := by
  simpa [width8] using cut_take text (Nat.zero_le i)

theorem cut_from (text : List Char) (i : Nat) :
    cut text (width8 (text.take i)) (width8 text) = .ok (text.drop i) := by
  by_cases h : i ≤ text.length
  · simpa using cut_take text h
  · have htake : text.take i = text := take_of_length_le (by omega)
    have hcut := cut_take text (Nat.le_refl text.length)
    rw [take_length, drop_length] at hcut
    rw [htake, hcut, drop_eq_nil_of_le (by omega)]

/-- The blanks that a text starts with, as far as the rest is shorter than the whole. -/
def leadingBlanks (text : List Char) : Checked (List Char) := do
  let width ← sub (width8 text) (width8 (trimStart text))
  cut text 0 width

theorem leadingBlanks_eq (text : List Char) : leadingBlanks text = .ok (Text.leadingBlanks text) := by
  have hsplit : Text.leadingBlanks text ++ trimStart text = text := takeWhile_append_dropWhile
  have hwidth : width8 text = width8 (Text.leadingBlanks text) + width8 (trimStart text) := by
    rw [← width8_append, hsplit]
  have htake : text.take (Text.leadingBlanks text).length = Text.leadingBlanks text := by
    have hleft := @List.take_left _ (Text.leadingBlanks text) (trimStart text)
    rwa [hsplit] at hleft
  have hcut := cut_upTo text (Text.leadingBlanks text).length
  rw [leadingBlanks, hwidth, sub_add_right, ok_bind, ← htake, hcut]

/-- A text with the bytes between two offsets replaced. -/
def replaceBytes (text : List Char) (first last : Nat) (new : List Char) : Checked (List Char) := do
  let front ← cut text 0 first
  let _ ← cut text first last
  let back ← cut text last (width8 text)
  .ok (front ++ new ++ back)

theorem replaceBytes_take (text new : List Char) {i j : Nat} (h : i ≤ j) :
    replaceBytes text (width8 (text.take i)) (width8 (text.take j)) new =
      .ok (text.take i ++ new ++ text.drop j) := by
  simp only [replaceBytes, cut_upTo, cut_take text h, cut_from, ok_bind]

/-! ### Walks -/

/-- A walk succeeds when every step does. -/
theorem filterMapM_ok {items : List α} {step : α → Checked (Option β)} {pick : α → Option β}
    (h : ∀ item ∈ items, step item = .ok (pick item)) :
    items.filterMapM step = .ok (items.filterMap pick) := by
  induction items with
  | nil => rfl
  | cons item items ih =>
    obtain ⟨hitem, hitems⟩ := forall_mem_cons.mp h
    rw [filterMapM_cons, hitem, ok_bind, ih hitems]
    cases hpick : pick item with
    | none => rw [filterMap_cons_none hpick]
    | some b => rw [filterMap_cons_some hpick]; rfl

theorem mapM_ok {items : List α} {step : α → Checked β} {image : α → β}
    (h : ∀ item ∈ items, step item = .ok (image item)) : items.mapM step = .ok (items.map image) := by
  induction items with
  | nil => rfl
  | cons item items ih =>
    obtain ⟨hitem, hitems⟩ := forall_mem_cons.mp h
    rw [mapM_cons, hitem, ok_bind, ih hitems, ok_bind]
    rfl

theorem foldlM_ok {items : List β} {step : α → β → Checked α} {next : α → β → α}
    (h : ∀ state, ∀ item ∈ items, step state item = .ok (next state item)) (state : α) :
    items.foldlM step state = .ok (items.foldl next state) := by
  induction items generalizing state with
  | nil => rfl
  | cons item items ih =>
    rw [foldlM_cons, h state item (mem_cons_self ..), ok_bind, foldl_cons]
    exact ih (fun state item hitem => h state item (mem_cons_of_mem _ hitem)) _

end Checked

end ServiceInjection
