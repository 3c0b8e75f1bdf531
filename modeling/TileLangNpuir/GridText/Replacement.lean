import TileLangNpuir.GridText.Substitute

/-!
# What replacement does to the words

The name of a symbolic shape variable is made of the characters of words, so that a
replacement works on every word of the text by itself. A word that is a name becomes its
value; a word that no name occurs in stays as it is.
-/

namespace TileLangNpuir.GridText

/-! ## Pieces -/

theorem piecesFrom_append_cons {c : Char} (hc : isWordChar c = false) (b : Text) :
    ∀ (w a : Text), piecesFrom w (a ++ c :: b) = piecesFrom w a ++ .sym c :: pieces b := by
  intro w a
  induction a generalizing w with
  | nil =>
    have hno : ¬ isWordChar c = true := Bool.eq_false_iff.mp hc
    exact if_neg hno
  | cons x a ih =>
    rw [List.cons_append, piecesFrom, piecesFrom]
    split
    · exact ih (w ++ [x])
    · rw [ih [], List.append_assoc, List.cons_append]

theorem pieces_append_cons {c : Char} (hc : isWordChar c = false) (a b : Text) :
    pieces (a ++ c :: b) = pieces a ++ .sym c :: pieces b :=
  piecesFrom_append_cons hc b [] a

theorem piecesFrom_word {s : Text} (hs : s.all isWordChar = true) :
    ∀ w : Text, piecesFrom w s = flush (w ++ s) := by
  induction s with
  | nil =>
    intro w
    rw [piecesFrom, List.append_nil]
  | cons c s ih =>
    intro w
    obtain ⟨hc, hs⟩ := Bool.and_eq_true_iff.mp hs
    rw [piecesFrom, if_pos hc, ih hs, List.append_assoc, List.cons_append, List.nil_append]

theorem pieces_word {w : Text} (hw : w.all isWordChar = true) (hne : w ≠ []) :
    pieces w = [.word w] := by
  rw [pieces, piecesFrom_word hw, List.nil_append, flush, if_neg hne]

/-- A text function that works on what stands before and behind every separator by itself. -/
structure Local (f : Text → Text) : Prop where
  nil : f [] = []
  split : ∀ {c : Char}, isWordChar c = false → ∀ a b, f (a ++ c :: b) = f a ++ c :: f b

/-- What becomes of a piece. -/
def substPiece (f : Text → Text) : Piece → List Piece
  | .word w => pieces (f w)
  | .sym c => [.sym c]

theorem Local.pieces_from {f : Text → Text} (hf : Local f) (s : Text) :
    ∀ w : Text, pieces (f (w ++ s)) = (piecesFrom w s).flatMap (substPiece f) := by
  induction s with
  | nil =>
    intro w
    rw [piecesFrom, flush, List.append_nil]
    split
    · rename_i hw
      rw [hw, hf.nil]
      rfl
    · exact (List.append_nil _).symm
  | cons c s ih =>
    intro w
    rw [piecesFrom]
    split
    · rw [← ih (w ++ [c]), List.append_assoc]
      rfl
    · rename_i hc
      have hc : isWordChar c = false := Bool.eq_false_iff.mpr hc
      have hword : pieces (f w) = (flush w).flatMap (substPiece f) := by
        rw [flush]
        split
        · rename_i hw
          rw [hw, hf.nil]
          rfl
        · exact (List.append_nil _).symm
      rw [hf.split hc, pieces_append_cons hc, hword, List.flatMap_append, List.flatMap_cons, ← ih []]
      rfl

/-- The pieces of the outcome come from the pieces of the text. -/
theorem Local.pieces {f : Text → Text} (hf : Local f) (s : Text) :
    pieces (f s) = (GridText.pieces s).flatMap (substPiece f) :=
  hf.pieces_from s []

theorem Local.id : Local fun s => s := ⟨rfl, fun _ _ _ => rfl⟩

theorem Local.comp {f g : Text → Text} (hg : Local g) (hf : Local f) : Local fun s => g (f s) := by
  refine ⟨?_, fun hc a b => ?_⟩
  · rw [hf.nil, hg.nil]
  · rw [hf.split hc, hg.split hc]

/-! ## Replacement -/

theorem isIdentifier_iff {w : Text} :
    isIdentifier w = true ↔ w.all isWordChar = true ∧ ∃ c s, w = c :: s ∧ c.isDigit = false := by
  rw [isIdentifier, Bool.and_eq_true]
  cases w with
  | nil => simp
  | cons c s => simp

theorem local_replace {key : Text} (hkey : isIdentifier key = true) (value : Text) :
    Local (replace key value) := by
  obtain ⟨hword, c, s, rfl, -⟩ := isIdentifier_iff.mp hkey
  refine ⟨rfl, fun {d} hd a b => replace_append_cons (List.cons_ne_nil c s) value ?_ a b⟩
  intro hmem
  rw [List.all_eq_true.mp hword d hmem] at hd
  cases hd

theorem local_foldl_replace :
    ∀ {ps : List (Text × ℤ)}, (∀ p ∈ ps, isIdentifier p.1 = true) →
      Local fun s => ps.foldl (fun s p => replace p.1 (intText p.2) s) s := by
  intro ps
  induction ps with
  | nil => exact fun _ => Local.id
  | cons p ps ih =>
    intro h
    obtain ⟨hp, hps⟩ := List.forall_mem_cons.mp h
    exact (ih hps).comp (local_replace hp (intText p.2))

theorem mem_sorted {vals : DynamicVal} {p : Text × ℤ} :
    p ∈ vals.entries.insertionSort keyBefore ↔ p ∈ vals.entries :=
  (List.perm_insertionSort keyBefore vals.entries).mem_iff

theorem local_replaceByLongestKey (vals : DynamicVal) :
    Local fun s => replaceByLongestKey s vals :=
  local_foldl_replace fun p hp => vals.identifiers p (mem_sorted.mp hp)

/-- A word in which no name occurs stays. -/
theorem foldl_replace_of_not_occurs {s : Text} :
    ∀ {ps : List (Text × ℤ)}, (∀ p ∈ ps, ¬ p.1 <:+: s) →
      ps.foldl (fun s p => replace p.1 (intText p.2) s) s = s := by
  intro ps
  induction ps with
  | nil => exact fun _ => rfl
  | cons p ps ih =>
    intro h
    obtain ⟨hp, hps⟩ := List.forall_mem_cons.mp h
    rw [List.foldl_cons, replace_of_not_occurs hp, ih hps]

theorem replaceByLongestKey_of_not_occurs {vals : DynamicVal} {s : Text}
    (h : ∀ p ∈ vals.entries, ¬ p.1 <:+: s) : replaceByLongestKey s vals = s :=
  foldl_replace_of_not_occurs fun p hp => h p (mem_sorted.mp hp)

/-- No name occurs where there are only digits and signs. -/
theorem not_infix_of_digits {key s : Text} (hkey : isIdentifier key = true)
    (hs : ∀ c ∈ s, c.isDigit = true ∨ c = '-') : ¬ key <:+: s := by
  obtain ⟨hword, c, k, rfl, hc⟩ := isIdentifier_iff.mp hkey
  intro hoccurs
  rcases hs c (hoccurs.subset List.mem_cons_self) with hdigit | rfl
  · rw [hdigit] at hc
    cases hc
  · exact absurd (List.all_eq_true.mp hword '-' List.mem_cons_self) (by decide)

theorem intText_digits : ∀ (v : ℤ), ∀ c ∈ intText v, c.isDigit = true ∨ c = '-'
  | .ofNat n, _, hc => .inl (Nat.isDigit_of_mem_toDigits (by decide) (by decide) hc)
  | .negSucc n, _, hc => by
    rcases List.mem_cons.mp hc with rfl | hc
    · exact .inr rfl
    · exact .inl (Nat.isDigit_of_mem_toDigits (by decide) (by decide) hc)

theorem textLe_trans : ∀ {a b c : Text}, textLe a b = true → textLe b c = true → textLe a c = true
  | [], _, _, _, _ => rfl
  | _ :: _, [], _, h, _ => by cases h
  | _ :: _, _ :: _, [], _, h => by cases h
  | x :: a, y :: b, z :: c, h, h' => by
    simp only [textLe, Bool.or_eq_true, decide_eq_true_eq, Bool.and_eq_true, beq_iff_eq] at h h' ⊢
    rcases h with h | ⟨rfl, h⟩ <;> rcases h' with h' | ⟨rfl, h'⟩
    · exact .inl (h.trans h')
    · exact .inl h
    · exact .inl h'
    · exact .inr ⟨rfl, textLe_trans h h'⟩

theorem textLe_total : ∀ a b : Text, textLe a b = true ∨ textLe b a = true
  | [], _ => .inl rfl
  | _ :: _, [] => .inr rfl
  | x :: a, y :: b => by
    simp only [textLe, Bool.or_eq_true, decide_eq_true_eq, Bool.and_eq_true, beq_iff_eq]
    rcases Nat.lt_trichotomy x.toNat y.toNat with h | h | h
    · exact .inl (.inl h)
    · obtain rfl := Char.toNat_inj.mp h
      exact (textLe_total a b).imp (fun h => .inr ⟨rfl, h⟩) fun h => .inr ⟨rfl, h⟩
    · exact .inr (.inl h)

theorem keyBefore_trans {p q r : Text × ℤ} (h : keyBefore p q) (h' : keyBefore q r) :
    keyBefore p r := by
  rcases h with h | ⟨h, hle⟩ <;> rcases h' with h' | ⟨h', hle'⟩
  · exact .inl (by omega)
  · exact .inl (by omega)
  · exact .inl (by omega)
  · exact .inr ⟨h.trans h', textLe_trans hle hle'⟩

theorem keyBefore_total (p q : Text × ℤ) : keyBefore p q ∨ keyBefore q p := by
  rcases Nat.lt_trichotomy p.1.length q.1.length with h | h | h
  · exact .inr (.inl h)
  · rcases textLe_total p.1 q.1 with hle | hle
    · exact .inl (.inr ⟨h, hle⟩)
    · exact .inr (.inr ⟨h.symm, hle⟩)
  · exact .inl (.inl h)

instance : IsTrans (Text × ℤ) keyBefore := ⟨fun _ _ _ => keyBefore_trans⟩

instance : Std.Total keyBefore := ⟨keyBefore_total⟩

theorem DynamicVal.get?_eq_some_iff {vals : DynamicVal} {w : Text} {v : ℤ} :
    vals.get? w = some v ↔ (w, v) ∈ vals.entries := by
  rw [DynamicVal.get?, Option.map_eq_some_iff]
  refine ⟨?_, fun h => ?_⟩
  · rintro ⟨p, hfind, rfl⟩
    obtain rfl : p.1 = w := by simpa using List.find?_some hfind
    exact List.mem_of_find?_eq_some hfind
  · cases hfind : vals.entries.find? fun p => p.1 = w with
    | none => exact absurd (decide_eq_true rfl) (List.find?_eq_none.mp hfind (w, v) h)
    | some p =>
      have hp : p.1 = w := by simpa using List.find?_some hfind
      have heq := List.inj_on_of_nodup_map vals.nodup (List.mem_of_find?_eq_some hfind) h hp
      exact ⟨p, rfl, by rw [heq]⟩

theorem DynamicVal.get?_eq_none_iff {vals : DynamicVal} {w : Text} :
    vals.get? w = none ↔ ∀ p ∈ vals.entries, p.1 ≠ w := by
  rw [DynamicVal.get?, Option.map_eq_none_iff, List.find?_eq_none]
  simp

/-- A name becomes its value: no other name occurs in it before its turn, and none in its
value. -/
theorem replaceByLongestKey_of_mem {vals : DynamicVal} {w : Text} {v : ℤ}
    (h : (w, v) ∈ vals.entries) : replaceByLongestKey w vals = intText v := by
  obtain ⟨front, back, hsplit⟩ := List.append_of_mem (mem_sorted.mpr h)
  have hsorted := List.pairwise_insertionSort keyBefore vals.entries
  have hperm := List.perm_insertionSort keyBefore vals.entries
  rw [hsplit] at hsorted hperm
  have hnodup := (hperm.map Prod.fst).nodup_iff.mpr vals.nodup
  rw [List.map_append, List.map_cons] at hnodup
  have hfront : ∀ p ∈ front, ¬ p.1 <:+: w := by
    intro p hp hoccurs
    have hbefore := (List.pairwise_append.mp hsorted).2.2 p hp (w, v) List.mem_cons_self
    have hlength : w.length ≤ p.1.length := by
      rcases hbefore with hlt | ⟨heq, -⟩
      · exact Nat.le_of_lt hlt
      · exact Nat.le_of_eq heq.symm
    have heq : p.1 = w := hoccurs.eq_of_length_le hlength
    exact (List.disjoint_of_nodup_append hnodup) (List.mem_map_of_mem hp) (heq ▸ List.mem_cons_self)
  have hback : ∀ p ∈ back, ¬ p.1 <:+: intText v := by
    intro p hp
    have hmem : p ∈ vals.entries :=
      hperm.mem_iff.mp (List.mem_append_right _ (List.mem_cons_of_mem _ hp))
    exact not_infix_of_digits (vals.identifiers p hmem) (intText_digits v)
  have hne : w ≠ [] := by
    obtain ⟨-, c, s, rfl, -⟩ := isIdentifier_iff.mp (vals.identifiers _ h)
    exact List.cons_ne_nil c s
  rw [replaceByLongestKey, hsplit, List.foldl_append, foldl_replace_of_not_occurs hfront,
    List.foldl_cons, replace_self hne, foldl_replace_of_not_occurs hback]

end TileLangNpuir.GridText
