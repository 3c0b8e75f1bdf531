import Mathlib.Data.List.Basic

/-!
# Words of a text

A word is a run of letters, digits and underscores with nothing of the kind before or
behind it. Any other character separates words, so that the words of a text can be read
off its pieces.
-/

namespace TileLangNpuir

/-- `\w`. -/
def isWordChar (c : Char) : Bool := c.isAlphanum || c == '_'

/-- `\b`, next to a word. -/
def atBoundary : Option Char → Bool
  | none => true
  | some c => !isWordChar c

/-- `\bw\b` matches at the position. -/
def wordAt (w s : List Char) (i : ℕ) : Bool :=
  w.isPrefixOf (s.drop i) && atBoundary (s.take i).getLast? && atBoundary (s.drop (i + w.length)).head?

/-- `re.search(r"\bw\b", s)`. -/
def searchWord (w s : List Char) : Bool := (List.range (s.length + 1)).any (wordAt w s)

/-- The word occurs in the text. -/
def HasWord (w s : List Char) : Prop :=
  ∃ front back, s = front ++ w ++ back ∧ atBoundary front.getLast? = true ∧
    atBoundary back.head? = true

theorem searchWord_iff (w s : List Char) : searchWord w s = true ↔ HasWord w s := by
  rw [searchWord, List.any_eq_true]
  refine ⟨?_, ?_⟩
  · rintro ⟨i, -, hat⟩
    rw [wordAt, Bool.and_eq_true, Bool.and_eq_true, List.isPrefixOf_iff_prefix] at hat
    obtain ⟨⟨⟨back, hback⟩, hfront⟩, hbehind⟩ := hat
    refine ⟨s.take i, back, ?_, hfront, ?_⟩
    · rw [List.append_assoc, hback, List.take_append_drop]
    · rwa [← List.drop_drop, ← hback, List.drop_left] at hbehind
  · rintro ⟨front, back, rfl, hfront, hbehind⟩
    refine ⟨front.length, ?_, ?_⟩
    · rw [List.mem_range, List.length_append, List.length_append]
      omega
    · rw [wordAt, Bool.and_eq_true, Bool.and_eq_true, ← List.drop_drop, List.append_assoc, List.drop_left,
        List.drop_left, List.take_left, List.isPrefixOf_iff_prefix]
      exact ⟨⟨List.prefix_append w back, hfront⟩, hbehind⟩

/-- A character that is none of a word separates words. -/
theorem hasWord_append_cons_iff {w a b : List Char} {c : Char} (hw : ∀ d ∈ w, isWordChar d = true)
    (hne : w ≠ []) (hc : isWordChar c = false) :
    HasWord w (a ++ c :: b) ↔ HasWord w a ∨ HasWord w b := by
  have hcw : c ∉ w := fun hmem => by
    rw [hw c hmem] at hc
    cases hc
  refine ⟨?_, ?_⟩
  · rintro ⟨front, back, heq, hfront, hback⟩
    rw [List.append_assoc] at heq
    rcases List.append_eq_append_iff.mp heq.symm with ⟨a', rfl, hrest⟩ | ⟨c', rfl, hrest⟩
    · left
      rcases List.append_eq_append_iff.mp hrest with ⟨a'', rfl, hpost⟩ | ⟨d, rfl, hpost⟩
      · refine ⟨front, a'', by rw [List.append_assoc], hfront, ?_⟩
        cases a'' with
        | nil => rfl
        | cons e es =>
          rw [hpost] at hback
          exact hback
      · cases d with
        | nil =>
          rw [List.append_nil]
          exact ⟨front, [], by rw [List.append_nil], hfront, rfl⟩
        | cons e es =>
          obtain ⟨rfl, -⟩ := List.cons.inj hpost
          exact absurd (List.mem_append_right _ List.mem_cons_self) hcw
    · right
      cases c' with
      | nil =>
        cases w with
        | nil => exact absurd rfl hne
        | cons e es =>
          obtain ⟨rfl, -⟩ := List.cons.inj hrest
          exact absurd List.mem_cons_self hcw
      | cons e es =>
        obtain ⟨rfl, rfl⟩ := List.cons.inj hrest
        refine ⟨es, back, (List.append_assoc es w back).symm, ?_, hback⟩
        cases es with
        | nil => rfl
        | cons f fs =>
          rwa [List.getLast?_append, List.getLast?_cons_cons, List.getLast?_cons, Option.some_or,
            ← List.getLast?_cons] at hfront
  · rintro (⟨front, back, rfl, hfront, hback⟩ | ⟨front, back, rfl, hfront, hback⟩)
    · refine ⟨front, back ++ c :: b, by simp only [List.append_assoc], hfront, ?_⟩
      cases back with
      | nil =>
        rw [List.nil_append, List.head?_cons, atBoundary, hc]
        rfl
      | cons e es => exact hback
    · refine ⟨a ++ c :: front, back, by simp only [List.append_assoc, List.cons_append], ?_, hback⟩
      rw [List.getLast?_append, List.getLast?_cons]
      cases front with
      | nil =>
        rw [List.getLast?_nil, Option.getD_none, Option.some_or, atBoundary, hc]
        rfl
      | cons e es =>
        rw [List.getLast?_cons] at hfront ⊢
        exact hfront

/-- A text that is one word has no other. -/
theorem hasWord_word_iff {w s : List Char} (hs : ∀ c ∈ s, isWordChar c = true) :
    HasWord w s ↔ w = s := by
  refine ⟨?_, ?_⟩
  · rintro ⟨front, back, rfl, hfront, hback⟩
    have hnil : front = [] := by
      cases hlast : front.getLast? with
      | none => exact List.getLast?_eq_none_iff.mp hlast
      | some c =>
        have hmem := List.mem_of_getLast? hlast
        rw [hlast, atBoundary, hs c (List.mem_append_left _ (List.mem_append_left _ hmem))] at hfront
        cases hfront
    have hnil' : back = [] := by
      cases back with
      | nil => rfl
      | cons c cs =>
        rw [List.head?_cons, atBoundary,
          hs c (List.mem_append_right _ List.mem_cons_self)] at hback
        cases hback
    rw [hnil, hnil', List.nil_append, List.append_nil]
  · rintro rfl
    exact ⟨[], [], by rw [List.nil_append, List.append_nil], rfl, rfl⟩

end TileLangNpuir
