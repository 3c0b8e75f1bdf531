import TileLangNpuir.Lib.RowMajor

/-!
# Dropping the first elements of a kind

`dropFirst p n` leaves out the first `n` elements with `p`. Two predicates, the second weaker than
the first, drop different elements of one list; what is left lines up, element by element, except
for elements with the weaker predicate, exactly when the list is `Aligned`.
-/

namespace TileLangNpuir.RowMajor

variable {α : Type} {p q : α → Bool}

/-- The list without its first `n` elements with `p`. -/
def dropFirst (p : α → Bool) : ℕ → List α → List α
  | 0, l => l
  | _ + 1, [] => []
  | n + 1, x :: l => if p x then dropFirst p n l else x :: dropFirst p (n + 1) l

theorem dropFirst_zero (p : α → Bool) (l : List α) : dropFirst p 0 l = l := by
  cases l <;> rfl

theorem dropFirst_cons_pos {x : α} (h : p x = true) (n : ℕ) (l : List α) :
    dropFirst p (n + 1) (x :: l) = dropFirst p n l :=
  if_pos h

theorem dropFirst_cons_neg {x : α} (h : ¬p x = true) (n : ℕ) (l : List α) :
    dropFirst p n (x :: l) = x :: dropFirst p n l := by
  cases n with
  | zero => rw [dropFirst_zero, dropFirst_zero]
  | succ n => exact if_neg h

theorem dropFirst_map {β : Type} (f : β → α) (n : ℕ) (l : List β) :
    dropFirst p n (l.map f) = (dropFirst (fun x => p (f x)) n l).map f := by
  induction l generalizing n with
  | nil => cases n <;> rfl
  | cons x l ih =>
    cases n with
    | zero => rw [dropFirst_zero, dropFirst_zero]
    | succ n =>
      by_cases h : p (f x) = true
      · rw [List.map_cons, dropFirst_cons_pos h, ih]
        exact congrArg _ (dropFirst_cons_pos (p := fun x => p (f x)) h n l).symm
      · rw [List.map_cons, dropFirst_cons_neg h, ih, ← List.map_cons]
        exact congrArg _ (dropFirst_cons_neg (p := fun x => p (f x)) h (n + 1) l).symm

theorem length_dropFirst {n : ℕ} {l : List α} (h : n ≤ l.countP p) :
    (dropFirst p n l).length + n = l.length := by
  induction l generalizing n with
  | nil =>
    obtain rfl := Nat.le_zero.mp h
    rfl
  | cons x l ih =>
    by_cases hx : p x = true
    · rw [List.countP_cons_of_pos hx] at h
      cases n with
      | zero => rfl
      | succ n =>
        rw [dropFirst_cons_pos hx, List.length_cons, ← ih (Nat.succ_le_succ_iff.mp h)]
        omega
    · rw [List.countP_cons_of_neg hx] at h
      rw [dropFirst_cons_neg hx, List.length_cons, List.length_cons, ← ih h]
      omega

theorem dropFirst_sublist (p : α → Bool) (n : ℕ) (l : List α) : (dropFirst p n l).Sublist l := by
  induction l generalizing n with
  | nil => cases n <;> exact .slnil
  | cons x l ih =>
    cases n with
    | zero => exact List.Sublist.refl _
    | succ n =>
      by_cases hx : p x = true
      · rw [dropFirst_cons_pos hx]
        exact (ih n).cons x
      · rw [dropFirst_cons_neg hx]
        exact (ih (n + 1)).cons_cons x

/-- Elements of the other kind stay. -/
theorem mem_dropFirst_of_not {n : ℕ} {l : List α} {x : α} (hx : x ∈ l) (hp : ¬p x = true) :
    x ∈ dropFirst p n l := by
  induction l generalizing n with
  | nil => cases hx
  | cons y l ih =>
    cases n with
    | zero => exact hx
    | succ n =>
      by_cases hy : p y = true
      · rw [dropFirst_cons_pos hy]
        rcases List.mem_cons.mp hx with rfl | hx
        · exact absurd hy hp
        · exact ih hx
      · rw [dropFirst_cons_neg hy]
        rcases List.mem_cons.mp hx with rfl | hx
        · exact List.mem_cons_self
        · exact List.mem_cons_of_mem y (ih hx)

theorem dropFirst_of_forall_not {l : List α} (h : ∀ x ∈ l, ¬p x = true) (n : ℕ) :
    dropFirst p n l = l := by
  induction l with
  | nil => cases n <;> rfl
  | cons x l ih =>
    rw [List.forall_mem_cons] at h
    rw [dropFirst_cons_neg h.1, ih h.2]

theorem dropFirst_countP (l : List α) : dropFirst p (l.countP p) l = l.filter fun x => !p x := by
  induction l with
  | nil => rfl
  | cons x l ih =>
    by_cases hx : p x = true
    · rw [List.countP_cons_of_pos hx, dropFirst_cons_pos hx, ih, List.filter_cons_of_neg (by simp [hx])]
    · rw [List.countP_cons_of_neg hx, dropFirst_cons_neg hx, ih, List.filter_cons_of_pos (by simp [hx])]

/-- The first `n` elements of the kind, left out by their keys. -/
theorem filter_notMem_eq_dropFirst {κ : Type} [DecidableEq κ] (key : α → κ) {l : List α}
    (h : (l.map key).Nodup) (n : ℕ) :
    (l.filter fun x => key x ∉ ((l.filter p).take n).map key) = dropFirst p n l := by
  induction l generalizing n with
  | nil => cases n <;> rfl
  | cons x l ih =>
    rw [List.map_cons, List.nodup_cons] at h
    obtain ⟨hx, hnodup⟩ := h
    have hlater : ∀ y ∈ l, key y ≠ key x := fun y hy heq => hx (heq ▸ List.mem_map_of_mem hy)
    by_cases hp : p x = true
    · cases n with
      | zero => simp [dropFirst_zero]
      | succ n =>
        rw [dropFirst_cons_pos hp, List.filter_cons_of_pos hp, List.take_succ_cons, List.map_cons,
          List.filter_cons_of_neg (by simp), ← ih hnodup n]
        refine List.filter_congr fun y hy => ?_
        simp [hlater y hy]
    · have hkeep : key x ∉ ((l.filter p).take n).map key := by
        intro hmem
        obtain ⟨y, hy, heq⟩ := List.mem_map.mp hmem
        exact hlater y (List.mem_of_mem_filter (List.mem_of_mem_take hy)) heq
      rw [dropFirst_cons_neg hp, List.filter_cons_of_neg hp,
        List.filter_cons_of_pos (by simpa using hkeep), ih hnodup n]

/-! ## Dimensions of size one -/

section

variable {l : List α} {size coord : α → ℤ}

theorem prod_map_dropFirst (h : ∀ x ∈ l, p x = true → size x = 1) (n : ℕ) :
    ((dropFirst p n l).map size).prod = (l.map size).prod := by
  induction l generalizing n with
  | nil => cases n <;> rfl
  | cons x l ih =>
    rw [List.forall_mem_cons] at h
    cases n with
    | zero => rw [dropFirst_zero]
    | succ n =>
      by_cases hx : p x = true
      · rw [dropFirst_cons_pos hx, ih h.2, List.map_cons, List.prod_cons, h.1 hx, one_mul]
      · rw [dropFirst_cons_neg hx, List.map_cons, List.prod_cons, ih h.2, List.map_cons,
          List.prod_cons]

/-- Dimensions of size one do not count in the numbering. -/
theorem flatten_map_dropFirst (h : ∀ x ∈ l, p x = true → size x = 1 ∧ coord x = 0) (n : ℕ) :
    flatten ((dropFirst p n l).map size) ((dropFirst p n l).map coord) =
      flatten (l.map size) (l.map coord) := by
  induction l generalizing n with
  | nil => cases n <;> rfl
  | cons x l ih =>
    rw [List.forall_mem_cons] at h
    cases n with
    | zero => rw [dropFirst_zero]
    | succ n =>
      by_cases hx : p x = true
      · rw [dropFirst_cons_pos hx, ih h.2, List.map_cons, List.map_cons, flatten, (h.1 hx).2,
          zero_mul, zero_add]
      · rw [dropFirst_cons_neg hx, List.map_cons, List.map_cons, flatten, ih h.2,
          prod_map_dropFirst (fun y hy hp => (h.2 y hy hp).1), List.map_cons, List.map_cons, flatten]

theorem inBox_map_iff : InBox (l.map size) (l.map coord) ↔ ∀ x ∈ l, 0 ≤ coord x ∧ coord x < size x := by
  rw [InBox, List.forall₂_map_left_iff, List.forall₂_map_right_iff, List.forall₂_same]

theorem inBox_map_dropFirst (h : InBox (l.map size) (l.map coord)) (p : α → Bool) (n : ℕ) :
    InBox ((dropFirst p n l).map size) ((dropFirst p n l).map coord) := by
  rw [inBox_map_iff] at h ⊢
  exact fun x hx => h x ((dropFirst_sublist p n l).subset hx)

end

/-! ## Two predicates -/

/-- Elements with `q` only, up to the `n`-th with `p`. -/
def onlyUntil (p q : α → Bool) : ℕ → List α → Bool
  | 0, _ => true
  | _ + 1, [] => true
  | n + 1, x :: l => q x && onlyUntil p q (if p x then n else n + 1) l

/-- From the first element with `q` that is not one with `p`, up to the `n`-th with `p`, there are
only elements with `q`. -/
def aligned (p q : α → Bool) : ℕ → List α → Bool
  | 0, _ => true
  | _ + 1, [] => true
  | n + 1, x :: l =>
    if p x then aligned p q n l
    else if q x then onlyUntil p q (n + 1) l else aligned p q (n + 1) l

theorem onlyUntil_map {β : Type} (f : β → α) (n : ℕ) (l : List β) :
    onlyUntil p q n (l.map f) = onlyUntil (fun x => p (f x)) (fun x => q (f x)) n l := by
  induction l generalizing n with
  | nil => cases n <;> rfl
  | cons x l ih =>
    cases n with
    | zero => rfl
    | succ n => rw [List.map_cons, onlyUntil, onlyUntil, ih]

theorem aligned_map {β : Type} (f : β → α) (n : ℕ) (l : List β) :
    aligned p q n (l.map f) = aligned (fun x => p (f x)) (fun x => q (f x)) n l := by
  induction l generalizing n with
  | nil => cases n <;> rfl
  | cons x l ih =>
    cases n with
    | zero => rfl
    | succ n => rw [List.map_cons, aligned, aligned, ih, ih, onlyUntil_map]

theorem onlyUntil_of_forall {l : List α} (h : ∀ x ∈ l, q x = true) (n : ℕ) :
    onlyUntil p q n l = true := by
  induction l generalizing n with
  | nil => cases n <;> rfl
  | cons x l ih =>
    rw [List.forall_mem_cons] at h
    cases n with
    | zero => rfl
    | succ n => rw [onlyUntil, h.1, ih h.2, Bool.and_self]

theorem aligned_of_forall {l : List α} (h : ∀ x ∈ l, q x = true) (n : ℕ) :
    aligned p q n l = true := by
  induction l generalizing n with
  | nil => cases n <;> rfl
  | cons x l ih =>
    rw [List.forall_mem_cons] at h
    cases n with
    | zero => rfl
    | succ n =>
      rw [aligned, if_pos h.1, ih h.2, onlyUntil_of_forall h.2]
      exact ite_self true

section

variable {l pend : List α} {n m : ℕ}

variable (pend) in
/-- The elements of `pend`, all with `q`, wait to be matched, and `m` elements with `p` are still
to be dropped: each one waiting is matched by an element with `q`. -/
theorem forall₂_of_onlyUntil (hpq : ∀ x ∈ l, p x = true → q x = true)
    (hpend : ∀ x ∈ pend, q x = true) (hm : m = n + pend.length) (hcount : m ≤ l.countP p)
    (h : onlyUntil p q m l = true) :
    List.Forall₂ (fun a b => a = b ∨ q a = true ∧ q b = true) (dropFirst q n l)
      (pend ++ dropFirst p m l) := by
  induction l generalizing n m pend with
  | nil =>
    obtain rfl := Nat.le_zero.mp hcount
    obtain ⟨rfl, hnil⟩ : n = 0 ∧ pend.length = 0 := by omega
    obtain rfl := List.length_eq_zero_iff.mp hnil
    exact .nil
  | cons x l ih =>
    have hpq' : ∀ y ∈ l, p y = true → q y = true := fun y hy => hpq y (List.mem_cons_of_mem _ hy)
    cases m with
    | zero =>
      obtain ⟨rfl, hnil⟩ : n = 0 ∧ pend.length = 0 := by omega
      obtain rfl := List.length_eq_zero_iff.mp hnil
      rw [dropFirst_zero, dropFirst_zero]
      exact List.forall₂_same.mpr fun a _ => .inl rfl
    | succ m =>
      rw [onlyUntil, Bool.and_eq_true] at h
      obtain ⟨hq, hrest⟩ := h
      by_cases hp : p x = true
      · rw [if_pos hp] at hrest
        rw [List.countP_cons_of_pos hp] at hcount
        rw [dropFirst_cons_pos hp]
        cases n with
        | succ n =>
          rw [dropFirst_cons_pos hq]
          exact ih _ hpq' hpend (by omega) (by omega) hrest
        | zero =>
          cases pend with
          | nil => cases hm
          | cons y pend =>
            rw [List.forall_mem_cons] at hpend
            have hrec := ih (n := 0) _ hpq' hpend.2 (by simpa using hm) (by omega) hrest
            rw [dropFirst_zero] at hrec
            exact .cons (.inr ⟨hq, hpend.1⟩) hrec
      · -- `x` is kept on the right and joins those that wait
        rw [if_neg hp] at hrest
        rw [List.countP_cons_of_neg hp] at hcount
        rw [dropFirst_cons_neg hp, List.append_cons]
        have hjoin : ∀ z ∈ pend ++ [x], q z = true := List.forall_mem_append.mpr ⟨hpend, by simpa⟩
        cases n with
        | succ n =>
          rw [dropFirst_cons_pos hq]
          exact ih _ hpq' hjoin (by rw [List.length_append, List.length_singleton]; omega) hcount hrest
        | zero =>
          cases pend with
          | nil => cases hm
          | cons y pend =>
            rw [List.cons_append, List.forall_mem_cons] at hjoin
            have hrec := ih (n := 0) _ hpq' hjoin.2 (by simpa using hm) hcount hrest
            rw [dropFirst_zero] at hrec
            exact .cons (.inr ⟨hq, hjoin.1⟩) hrec

variable (pend) in
/-- The other way around: where elements with `q` are matched with such elements, and one waits,
there are only such elements. -/
theorem onlyUntil_of_forall₂ (hpend : ∀ x ∈ pend, q x = true) (hne : pend ≠ [])
    (hm : m = n + pend.length) (hpq : ∀ x ∈ l, p x = true → q x = true)
    (h : List.Forall₂ (fun a b => q a = q b) (dropFirst q n l) (pend ++ dropFirst p m l)) :
    onlyUntil p q m l = true := by
  induction l generalizing n m pend with
  | nil => cases m <;> rfl
  | cons x l ih =>
    have hpq' : ∀ y ∈ l, p y = true → q y = true := fun y hy => hpq y (List.mem_cons_of_mem _ hy)
    obtain ⟨y, pend, rfl⟩ := List.exists_cons_of_ne_nil hne
    obtain ⟨m, rfl⟩ : ∃ k, m = k + 1 := ⟨n + pend.length, hm⟩
    have hq : q x = true := by
      by_contra hq
      rw [dropFirst_cons_neg hq, List.cons_append] at h
      have hhead := (List.forall₂_cons.mp h).1
      rw [hpend y List.mem_cons_self] at hhead
      exact hq hhead
    rw [onlyUntil, Bool.and_eq_true]
    refine ⟨hq, ?_⟩
    by_cases hp : p x = true
    · rw [if_pos hp]
      rw [dropFirst_cons_pos hp] at h
      cases n with
      | succ n =>
        rw [dropFirst_cons_pos hq] at h
        exact ih _ hpend hne (by simp only [List.length_cons] at hm ⊢; omega) hpq' h
      | zero =>
        rw [dropFirst_zero, List.cons_append] at h
        replace h := (List.forall₂_cons.mp h).2
        rw [List.forall_mem_cons] at hpend
        by_cases hnil : pend = []
        · subst hnil
          obtain rfl : m = 0 := by simpa using hm
          cases l <;> rfl
        · refine ih (n := 0) _ hpend.2 hnil (by simpa using hm) hpq' ?_
          rwa [dropFirst_zero]
    · rw [if_neg hp]
      rw [dropFirst_cons_neg hp, List.append_cons] at h
      have hjoin : ∀ z ∈ y :: pend ++ [x], q z = true :=
        List.forall_mem_append.mpr ⟨hpend, by simpa⟩
      cases n with
      | succ n =>
        rw [dropFirst_cons_pos hq] at h
        refine ih _ hjoin (by simp) ?_ hpq' h
        rw [List.length_append, List.length_singleton]
        omega
      | zero =>
        rw [dropFirst_zero, List.cons_append, List.cons_append] at h
        replace h := (List.forall₂_cons.mp h).2
        rw [List.cons_append, List.forall_mem_cons] at hjoin
        refine ih (n := 0) _ hjoin.2 (by simp) (by simpa using hm) hpq' ?_
        rwa [dropFirst_zero]

/-- What is left of an aligned list under the two predicates lines up. -/
theorem forall₂_of_aligned (hpq : ∀ x ∈ l, p x = true → q x = true) (hcount : n ≤ l.countP p)
    (h : aligned p q n l = true) :
    List.Forall₂ (fun a b => a = b ∨ q a = true ∧ q b = true) (dropFirst q n l)
      (dropFirst p n l) := by
  induction l generalizing n with
  | nil =>
    cases n <;> exact .nil
  | cons x l ih =>
    have hpq' : ∀ y ∈ l, p y = true → q y = true := fun y hy => hpq y (List.mem_cons_of_mem _ hy)
    cases n with
    | zero =>
      rw [dropFirst_zero, dropFirst_zero]
      exact List.forall₂_same.mpr fun a _ => .inl rfl
    | succ n =>
      rw [aligned] at h
      by_cases hp : p x = true
      · rw [if_pos hp] at h
        rw [List.countP_cons_of_pos hp] at hcount
        rw [dropFirst_cons_pos hp, dropFirst_cons_pos (hpq x List.mem_cons_self hp)]
        exact ih hpq' (by omega) h
      · rw [if_neg hp] at h
        rw [List.countP_cons_of_neg hp] at hcount
        rw [dropFirst_cons_neg hp]
        by_cases hq : q x = true
        · rw [if_pos hq] at h
          rw [dropFirst_cons_pos hq]
          exact forall₂_of_onlyUntil [x] hpq' (by simpa) rfl hcount h
        · rw [if_neg hq] at h
          rw [dropFirst_cons_neg hq]
          exact .cons (.inl rfl) (ih hpq' hcount h)

/-- A list of which the rests line up as far as `q` goes is aligned. -/
theorem aligned_of_forall₂ (hpq : ∀ x ∈ l, p x = true → q x = true)
    (h : List.Forall₂ (fun a b => q a = q b) (dropFirst q n l) (dropFirst p n l)) :
    aligned p q n l = true := by
  induction l generalizing n with
  | nil => cases n <;> rfl
  | cons x l ih =>
    have hpq' : ∀ y ∈ l, p y = true → q y = true := fun y hy => hpq y (List.mem_cons_of_mem _ hy)
    cases n with
    | zero => rfl
    | succ n =>
      rw [aligned]
      by_cases hp : p x = true
      · rw [if_pos hp]
        rw [dropFirst_cons_pos hp, dropFirst_cons_pos (hpq x List.mem_cons_self hp)] at h
        exact ih hpq' h
      · rw [if_neg hp]
        rw [dropFirst_cons_neg hp] at h
        by_cases hq : q x = true
        · rw [if_pos hq]
          rw [dropFirst_cons_pos hq] at h
          exact onlyUntil_of_forall₂ [x] (by simpa) (by simp) rfl hpq' h
        · rw [if_neg hq]
          rw [dropFirst_cons_neg hq] at h
          exact ih hpq' (List.forall₂_cons.mp h).2

end

end TileLangNpuir.RowMajor
