import Mathlib.Data.List.Infix

/-!
# Replacing a text

Replacing every occurrence of a key in a text, from left to right. A character that is none
of the key splits the work.
-/

namespace TileLangNpuir

universe u

variable {α : Type u}

/-- An occurrence does not reach over a character it does not have. -/
theorem prefix_append_cons_iff {key a b : List α} {c : α} (hc : c ∉ key) :
    key <+: a ++ c :: b ↔ key <+: a := by
  refine ⟨fun h => ?_, fun h => h.trans (List.prefix_append a (c :: b))⟩
  rcases List.prefix_or_prefix_of_prefix h (List.prefix_append a (c :: b)) with hshort | ⟨d, rfl⟩
  · exact hshort
  · rw [List.prefix_append_right_inj] at h
    cases d with
    | nil => simp
    | cons d ds =>
      obtain rfl : d = c := (List.cons_prefix_cons.mp h).1
      exact absurd (List.mem_append_right a List.mem_cons_self) hc

variable [DecidableEq α]

/-- The replacement, when the next `n` characters belong to an occurrence already replaced. -/
def replaceFrom (key value : List α) : ℕ → List α → List α
  | _, [] => []
  | n + 1, _ :: s => replaceFrom key value n s
  | 0, c :: s =>
    if key.isPrefixOf (c :: s) then value ++ replaceFrom key value (key.length - 1) s
    else c :: replaceFrom key value 0 s

/-- `s.replace(key, value)`, for a key that is not empty. -/
def replace (key value s : List α) : List α := replaceFrom key value 0 s

@[simp]
theorem replace_nil (key value : List α) : replace key value [] = [] := rfl

theorem replaceFrom_length (key value s : List α) : replaceFrom key value s.length s = [] := by
  induction s with
  | nil => rfl
  | cons c s ih => exact ih

/-- A text is its own occurrence. -/
theorem replace_self {key : List α} (hkey : key ≠ []) (value : List α) :
    replace key value key = value := by
  cases key with
  | nil => exact absurd rfl hkey
  | cons c k =>
    rw [replace, replaceFrom, if_pos (List.isPrefixOf_iff_prefix.mpr (List.prefix_refl _)),
      List.length_cons, Nat.add_sub_cancel, replaceFrom_length, List.append_nil]

theorem replace_of_not_occurs {key s : List α} (h : ¬ key <:+: s) (value : List α) :
    replace key value s = s := by
  induction s with
  | nil => rfl
  | cons c s ih =>
    rw [replace, replaceFrom, if_neg]
    · congr
      exact ih fun hoccurs => h (List.infix_cons hoccurs)
    · intro hstart
      exact h (List.isPrefixOf_iff_prefix.mp hstart).isInfix

theorem replaceFrom_append_cons {key : List α} (hkey : key ≠ []) (value : List α) {c : α}
    (hc : c ∉ key) (b : List α) :
    ∀ (a : List α) (n : ℕ), n ≤ a.length →
      replaceFrom key value n (a ++ c :: b) = replaceFrom key value n a ++ c :: replace key value b := by
  intro a
  induction a with
  | nil =>
    intro n hn
    obtain rfl := Nat.le_zero.mp hn
    have hno : ¬ key.isPrefixOf (c :: b) = true := by
      intro h
      have hnil : key <+: [] :=
        (prefix_append_cons_iff (a := []) hc).mp (List.isPrefixOf_iff_prefix.mp h)
      exact hkey (List.prefix_nil.mp hnil)
    refine (if_neg hno).trans ?_
    rfl
  | cons x a ih =>
    intro n hn
    cases n with
    | succ n => exact ih n (Nat.le_of_succ_le_succ hn)
    | zero =>
      have hiff : key.isPrefixOf (x :: (a ++ c :: b)) = key.isPrefixOf (x :: a) := by
        rw [Bool.eq_iff_iff, List.isPrefixOf_iff_prefix, List.isPrefixOf_iff_prefix]
        exact prefix_append_cons_iff (a := x :: a) hc
      rw [List.cons_append, replaceFrom, replaceFrom, hiff]
      split
      · rename_i hstart
        have hlength := (List.isPrefixOf_iff_prefix.mp hstart).length_le
        rw [List.length_cons] at hlength
        rw [ih _ (by omega), List.append_assoc]
      · rw [ih 0 (Nat.zero_le _), List.cons_append]

/-- What stands before and behind the character is replaced on its own. -/
theorem replace_append_cons {key : List α} (hkey : key ≠ []) (value : List α) {c : α} (hc : c ∉ key)
    (a b : List α) :
    replace key value (a ++ c :: b) = replace key value a ++ c :: replace key value b :=
  replaceFrom_append_cons hkey value hc b a 0 (Nat.zero_le _)

end TileLangNpuir
