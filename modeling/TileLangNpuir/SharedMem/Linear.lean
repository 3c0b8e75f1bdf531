import Mathlib.Data.Int.Notation
import Mathlib.Data.Nat.Notation
import Mathlib.Data.List.Pairwise
import Mathlib.Tactic.Ring

/-!
# The linear access sequence

`SharedMemLinearAccessPatternFinder` in `src/transform/merge_shared_memory_allocations.cc` lays a
tree of loops, conditionals and leaf statements out as a sequence of entries: a leaf is one entry
with the buffers it touches, a scope is an entry at its beginning and one at its end, which has
the buffers its condition touches. Levels count the loops whose body is a sequence.

A statement is known by the place of its first entry.
-/

namespace TileLangNpuir.SharedMem

/-- Statements. A leaf is a `BufferStore` or an `Evaluate`; a condition or a bound is the list of
buffers it reads. -/
inductive Stmt : Type where
  | leaf (reads writes : List ℕ)
  | seq (a b : Stmt)
  | forLoop (bounds : List ℕ) (body : Stmt)
  | whileLoop (cond : List ℕ) (body : Stmt)
  | ifThenElse (cond : List ℕ) (thenCase elseCase : Stmt)

/-- `IsInstance<SeqStmtNode>`. -/
def Stmt.isSeq : Stmt → Bool
  | .seq _ _ => true
  | _ => false

/-- The number of entries. A leaf that touches nothing has none. -/
def Stmt.size : Stmt → ℕ
  | .leaf reads writes => if reads ++ writes = [] then 0 else 1
  | .seq a b => a.size + b.size
  | .forLoop _ body => body.size + 2
  | .whileLoop _ body => body.size + 2
  | .ifThenElse _ a b => a.size + b.size + 2

/-- `StmtEntry`, with its index in the sequence and the level of its statement. -/
structure Entry : Type where
  pos : ℕ
  stmt : ℕ
  scopePairOffset : ℤ
  touched : List ℕ
  level : ℕ
  deriving DecidableEq

/-- `VisitNewScope`, around the entries of what is inside. -/
def visitNewScope (level i : ℕ) (touched : List ℕ) (size : ℕ) (inside : List Entry) : List Entry :=
  ⟨i, i, size + 1, [], level⟩ :: (inside ++ [⟨i + size + 1, i, -(size + 1), touched, level⟩])

/-- The entries of a statement that starts at index `i`. -/
def linear : ℕ → ℕ → Stmt → List Entry
  | level, i, .leaf reads writes =>
    if reads ++ writes = [] then [] else [⟨i, i, 0, reads ++ writes, level⟩]
  | level, i, .seq a b => linear level i a ++ linear level (i + a.size) b
  | level, i, .forLoop bounds body =>
    -- only a loop over a sequence is a level of its own, and the loop is on it
    let level := if body.isSeq then level + 1 else level
    visitNewScope level i bounds body.size (linear level (i + 1) body)
  | level, i, .whileLoop cond body =>
    visitNewScope level i cond body.size (linear level (i + 1) body)
  | level, i, .ifThenElse cond a b =>
    visitNewScope level i cond (a.size + b.size)
      (linear level (i + 1) a ++ linear level (i + 1 + a.size) b)

/-- `linear_seq_`. -/
def linearSeq (s : Stmt) : List Entry := linear 0 0 s

/-! ## Places -/

/-- Entries that stand at consecutive indices. -/
def Consecutive (i : ℕ) (es : List Entry) : Prop := ∀ k e, es[k]? = some e → e.pos = i + k

theorem Consecutive.append {i : ℕ} {es fs : List Entry} (he : Consecutive i es)
    (hf : Consecutive (i + es.length) fs) : Consecutive i (es ++ fs) := by
  intro k e hk
  rcases Nat.lt_or_ge k es.length with hlt | hge
  · rw [List.getElem?_append_left hlt] at hk
    exact he k e hk
  · rw [List.getElem?_append_right hge] at hk
    have := hf _ e hk
    omega

theorem Consecutive.singleton {i : ℕ} {e : Entry} (h : e.pos = i) : Consecutive i [e] := by
  intro k e' hk
  cases k with
  | zero =>
    cases hk
    exact h
  | succ k => cases hk

theorem Consecutive.visitNewScope {level i size : ℕ} {touched : List ℕ} {inside : List Entry}
    (h : Consecutive (i + 1) inside) (hlen : inside.length = size) :
    Consecutive i (visitNewScope level i touched size inside) := by
  have hend : Consecutive (i + 1 + inside.length)
      [⟨i + size + 1, i, -(size + 1), touched, level⟩] := by
    apply Consecutive.singleton
    simp only [hlen]
    omega
  exact (Consecutive.singleton rfl).append (h.append hend)

theorem length_linear (s : Stmt) : ∀ level i, (linear level i s).length = s.size := by
  induction s with
  | leaf reads writes =>
    intro level i
    rw [linear, Stmt.size]
    split <;> rfl
  | seq a b iha ihb =>
    intro level i
    rw [linear, List.length_append, iha, ihb, Stmt.size]
  | forLoop bounds body ih =>
    intro level i
    simp [linear, visitNewScope, ih, Stmt.size]
  | whileLoop cond body ih =>
    intro level i
    simp [linear, visitNewScope, ih, Stmt.size]
  | ifThenElse cond a b iha ihb =>
    intro level i
    simp only [linear, visitNewScope, List.length_cons, List.length_append, List.length_nil, iha,
      ihb, Stmt.size]

theorem linear_consecutive (s : Stmt) : ∀ level i, Consecutive i (linear level i s) := by
  induction s with
  | leaf reads writes =>
    intro level i
    rw [linear]
    split
    · exact fun k e hk => by cases hk
    · exact Consecutive.singleton rfl
  | seq a b iha ihb =>
    intro level i
    rw [linear]
    apply (iha level i).append
    rw [length_linear]
    exact ihb level _
  | forLoop bounds body ih =>
    intro level i
    exact (ih _ (i + 1)).visitNewScope (length_linear body _ _)
  | whileLoop cond body ih =>
    intro level i
    exact (ih level (i + 1)).visitNewScope (length_linear body _ _)
  | ifThenElse cond a b iha ihb =>
    intro level i
    refine Consecutive.visitNewScope ?_ ?_
    · apply (iha level (i + 1)).append
      rw [length_linear]
      exact ihb level _
    · rw [List.length_append, length_linear, length_linear]

/-- An entry stands within its statement. -/
theorem pos_of_mem_linear {s : Stmt} {level i : ℕ} {e : Entry} (h : e ∈ linear level i s) :
    i ≤ e.pos ∧ e.pos < i + s.size := by
  obtain ⟨k, hk⟩ := List.mem_iff_getElem?.1 h
  have hpos := linear_consecutive s level i k e hk
  have hlt := (List.getElem?_eq_some_iff.1 hk).1
  rw [length_linear] at hlt
  omega

theorem pairwise_of_consecutive {i : ℕ} {es : List Entry} (h : Consecutive i es) :
    es.Pairwise fun e e' => e.pos < e'.pos := by
  rw [List.pairwise_iff_getElem]
  intro j k hj hk hjk
  have hpj := h j _ (List.getElem?_eq_getElem hj)
  have hpk := h k _ (List.getElem?_eq_getElem hk)
  omega

/-! ## Scopes -/

/-- The two ends of a scope. A leaf is both ends of its own. -/
structure Pairs (es : List Entry) (e e' : Entry) : Prop where
  opening : e ∈ es
  closing : e' ∈ es
  opens : 0 ≤ e.scopePairOffset
  closes : e'.scopePairOffset ≤ 0
  pos : (e'.pos : ℤ) = e.pos + e.scopePairOffset
  stmt : e'.stmt = e.stmt
  level : e'.level = e.level
  /-- what is inside is on no lower level -/
  inside : ∀ x ∈ es, e.pos ≤ x.pos → x.pos ≤ e'.pos → e.level ≤ x.level

theorem Pairs.pos_le {es : List Entry} {e e' : Entry} (h : Pairs es e e') : e.pos ≤ e'.pos := by
  have := h.pos
  have := h.opens
  omega

theorem pairs_leaf {level i : ℕ} {touched : List ℕ} :
    Pairs [⟨i, i, 0, touched, level⟩] ⟨i, i, 0, touched, level⟩ ⟨i, i, 0, touched, level⟩ := by
  refine ⟨List.mem_singleton_self _, List.mem_singleton_self _, le_rfl, le_rfl, by simp, rfl, rfl,
    ?_⟩
  intro x hx _ _
  rw [List.mem_singleton.1 hx]

/-- A scope stays one in a longer sequence, if what is added stands outside of it. -/
theorem Pairs.mono {es fs : List Entry} {e e' : Entry} (h : Pairs es e e')
    (hsub : ∀ x ∈ es, x ∈ fs) (hout : ∀ x ∈ fs, x ∈ es ∨ x.pos < e.pos ∨ e'.pos < x.pos) :
    Pairs fs e e' := by
  refine ⟨hsub e h.opening, hsub e' h.closing, h.opens, h.closes, h.pos, h.stmt, h.level, ?_⟩
  intro x hx hle hle'
  rcases hout x hx with hmem | hlt | hgt
  · exact h.inside x hmem hle hle'
  · omega
  · omega

theorem Pairs.append_left {es fs : List Entry} {e e' : Entry} (h : Pairs es e e')
    (hlt : ∀ x ∈ es, ∀ y ∈ fs, x.pos < y.pos) : Pairs (es ++ fs) e e' := by
  apply h.mono fun x hx => List.mem_append_left _ hx
  intro x hx
  rcases List.mem_append.1 hx with hx | hx
  · exact .inl hx
  · exact .inr (.inr (hlt _ h.closing x hx))

theorem Pairs.append_right {es fs : List Entry} {e e' : Entry} (h : Pairs fs e e')
    (hlt : ∀ x ∈ es, ∀ y ∈ fs, x.pos < y.pos) : Pairs (es ++ fs) e e' := by
  apply h.mono fun x hx => List.mem_append_right _ hx
  intro x hx
  rcases List.mem_append.1 hx with hx | hx
  · exact .inr (.inl (hlt x hx _ h.opening))
  · exact .inl hx

theorem mem_visitNewScope {level i size : ℕ} {touched : List ℕ} {inside : List Entry} {x : Entry} :
    x ∈ visitNewScope level i touched size inside ↔ x = ⟨i, i, size + 1, [], level⟩ ∨
      x ∈ inside ∨ x = ⟨i + size + 1, i, -(size + 1), touched, level⟩ := by
  simp [visitNewScope]

theorem Pairs.visitNewScope {level i size : ℕ} {touched : List ℕ} {inside : List Entry}
    {e e' : Entry} (h : Pairs inside e e')
    (hpos : ∀ x ∈ inside, i < x.pos ∧ x.pos < i + size + 1) :
    Pairs (visitNewScope level i touched size inside) e e' := by
  apply h.mono fun x hx => mem_visitNewScope.2 (.inr (.inl hx))
  intro x hx
  rcases mem_visitNewScope.1 hx with rfl | hx | rfl
  · exact .inr (.inl (hpos e h.opening).1)
  · exact .inl hx
  · exact .inr (.inr (hpos e' h.closing).2)

theorem pairs_visitNewScope {level i size : ℕ} {touched : List ℕ} {inside : List Entry}
    (hlevel : ∀ x ∈ inside, level ≤ x.level) :
    Pairs (visitNewScope level i touched size inside) ⟨i, i, size + 1, [], level⟩
      ⟨i + size + 1, i, -(size + 1), touched, level⟩ := by
  refine ⟨mem_visitNewScope.2 (.inl rfl), mem_visitNewScope.2 (.inr (.inr rfl)), ?_, ?_, ?_, rfl,
    rfl, ?_⟩
  · dsimp only
    omega
  · dsimp only
    omega
  · push_cast
    ring
  · intro x hx _ _
    rcases mem_visitNewScope.1 hx with rfl | hx | rfl
    · exact le_rfl
    · exact hlevel x hx
    · exact le_rfl

/-- Scopes are closed, statements are known by their first entry, and the buffers of a scope stand
at its end. -/
structure Nested (es : List Entry) : Prop where
  stmt : ∀ e ∈ es, 0 ≤ e.scopePairOffset → e.stmt = e.pos
  pair : ∀ e ∈ es, 0 ≤ e.scopePairOffset → ∃ e', Pairs es e e'
  paired : ∀ e' ∈ es, e'.scopePairOffset ≤ 0 → ∃ e, Pairs es e e'
  touched : ∀ e ∈ es, e.touched ≠ [] → e.scopePairOffset ≤ 0

theorem Nested.nil : Nested [] :=
  ⟨fun _ h => (by cases h), fun _ h => (by cases h), fun _ h => (by cases h),
    fun _ h => (by cases h)⟩

theorem Nested.append {es fs : List Entry} (he : Nested es) (hf : Nested fs)
    (hlt : ∀ x ∈ es, ∀ y ∈ fs, x.pos < y.pos) : Nested (es ++ fs) := by
  constructor
  · intro e he'
    rcases List.mem_append.1 he' with hm | hm
    · exact he.stmt e hm
    · exact hf.stmt e hm
  · intro e he' ho
    rcases List.mem_append.1 he' with hm | hm
    · obtain ⟨e', hp⟩ := he.pair e hm ho
      exact ⟨e', hp.append_left hlt⟩
    · obtain ⟨e', hp⟩ := hf.pair e hm ho
      exact ⟨e', hp.append_right hlt⟩
  · intro e' he' hc
    rcases List.mem_append.1 he' with hm | hm
    · obtain ⟨e, hp⟩ := he.paired e' hm hc
      exact ⟨e, hp.append_left hlt⟩
    · obtain ⟨e, hp⟩ := hf.paired e' hm hc
      exact ⟨e, hp.append_right hlt⟩
  · intro e he'
    rcases List.mem_append.1 he' with hm | hm
    · exact he.touched e hm
    · exact hf.touched e hm

theorem Nested.visitNewScope {level i size : ℕ} {touched : List ℕ} {inside : List Entry}
    (h : Nested inside) (hpos : ∀ x ∈ inside, i < x.pos ∧ x.pos < i + size + 1)
    (hlevel : ∀ x ∈ inside, level ≤ x.level) :
    Nested (visitNewScope level i touched size inside) := by
  constructor
  · intro e he ho
    rcases mem_visitNewScope.1 he with rfl | hm | rfl
    · rfl
    · exact h.stmt e hm ho
    · dsimp only at ho
      omega
  · intro e he ho
    rcases mem_visitNewScope.1 he with rfl | hm | rfl
    · exact ⟨_, pairs_visitNewScope hlevel⟩
    · obtain ⟨e', hp⟩ := h.pair e hm ho
      exact ⟨e', hp.visitNewScope hpos⟩
    · dsimp only at ho
      omega
  · intro e' he' hc
    rcases mem_visitNewScope.1 he' with rfl | hm | rfl
    · dsimp only at hc
      omega
    · obtain ⟨e, hp⟩ := h.paired e' hm hc
      exact ⟨e, hp.visitNewScope hpos⟩
    · exact ⟨_, pairs_visitNewScope hlevel⟩
  · intro e he ht
    rcases mem_visitNewScope.1 he with rfl | hm | rfl
    · exact absurd rfl ht
    · exact h.touched e hm ht
    · dsimp only
      omega

theorem level_of_mem_linear (s : Stmt) :
    ∀ level i, ∀ e ∈ linear level i s, level ≤ e.level := by
  have hscope {level i size : ℕ} {touched : List ℕ} {inside : List Entry}
      (h : ∀ e ∈ inside, level ≤ e.level) :
      ∀ e ∈ visitNewScope level i touched size inside, level ≤ e.level := by
    intro e he
    rcases mem_visitNewScope.1 he with rfl | he | rfl
    · exact le_rfl
    · exact h e he
    · exact le_rfl
  induction s with
  | leaf reads writes =>
    intro level i e he
    rw [linear] at he
    split at he
    · cases he
    · rw [List.mem_singleton.1 he]
  | seq a b iha ihb =>
    intro level i e he
    rcases List.mem_append.1 he with he | he
    · exact iha _ _ e he
    · exact ihb _ _ e he
  | forLoop bounds body ih =>
    intro level i e he
    have hup : level ≤ if body.isSeq then level + 1 else level := by split <;> omega
    exact hup.trans (hscope (ih _ (i + 1)) e he)
  | whileLoop cond body ih =>
    intro level i
    exact hscope (ih level (i + 1))
  | ifThenElse cond a b iha ihb =>
    intro level i
    apply hscope
    intro e he
    rcases List.mem_append.1 he with he | he
    · exact iha _ _ e he
    · exact ihb _ _ e he

theorem level_inside {level i j : ℕ} {a b : Stmt} :
    ∀ x ∈ linear level i a ++ linear level j b, level ≤ x.level := by
  intro x hx
  rcases List.mem_append.1 hx with hx | hx
  · exact level_of_mem_linear a _ _ x hx
  · exact level_of_mem_linear b _ _ x hx

theorem pos_inside {level i : ℕ} {body : Stmt} :
    ∀ x ∈ linear level (i + 1) body, i < x.pos ∧ x.pos < i + body.size + 1 := by
  intro x hx
  have := pos_of_mem_linear hx
  omega

theorem pos_inside_branches {level i : ℕ} {a b : Stmt} :
    ∀ x ∈ linear level (i + 1) a ++ linear level (i + 1 + a.size) b,
      i < x.pos ∧ x.pos < i + (a.size + b.size) + 1 := by
  intro x hx
  rcases List.mem_append.1 hx with hx | hx
  all_goals
    have := pos_of_mem_linear hx
    omega

theorem linear_nested (s : Stmt) : ∀ level i, Nested (linear level i s) := by
  induction s with
  | leaf reads writes =>
    intro level i
    rw [linear]
    split
    · exact Nested.nil
    · have hp : Pairs [⟨i, i, 0, reads ++ writes, level⟩] ⟨i, i, 0, reads ++ writes, level⟩
          ⟨i, i, 0, reads ++ writes, level⟩ := pairs_leaf
      constructor
      · intro e he _
        rw [List.mem_singleton.1 he]
      · intro e he _
        rw [List.mem_singleton.1 he]
        exact ⟨_, hp⟩
      · intro e he _
        rw [List.mem_singleton.1 he]
        exact ⟨_, hp⟩
      · intro e he _
        rw [List.mem_singleton.1 he]
  | seq a b iha ihb =>
    intro level i
    apply (iha level i).append (ihb level _)
    intro x hx y hy
    exact (pos_of_mem_linear hx).2.trans_le (pos_of_mem_linear hy).1
  | forLoop bounds body ih =>
    intro level i
    exact (ih _ (i + 1)).visitNewScope pos_inside (level_of_mem_linear body _ _)
  | whileLoop cond body ih =>
    intro level i
    exact (ih level (i + 1)).visitNewScope pos_inside (level_of_mem_linear body _ _)
  | ifThenElse cond a b iha ihb =>
    intro level i
    refine Nested.visitNewScope ?_ pos_inside_branches level_inside
    apply (iha level (i + 1)).append (ihb level _)
    intro x hx y hy
    exact (pos_of_mem_linear hx).2.trans_le (pos_of_mem_linear hy).1

/-! ## The whole sequence -/

section Sequence

variable {s : Stmt}

theorem getElem?_linearSeq {k : ℕ} {e : Entry} : (linearSeq s)[k]? = some e ↔
    e ∈ linearSeq s ∧ e.pos = k := by
  constructor
  · intro h
    have := linear_consecutive s 0 0 k e h
    exact ⟨List.mem_of_getElem? h, by omega⟩
  · rintro ⟨h, rfl⟩
    obtain ⟨k, hk⟩ := List.mem_iff_getElem?.1 h
    have hpos := linear_consecutive s 0 0 k e hk
    rw [Nat.zero_add] at hpos
    rw [hpos]
    exact hk

/-- An entry is known by its index. -/
theorem eq_of_pos_eq {e e' : Entry} (he : e ∈ linearSeq s) (he' : e' ∈ linearSeq s)
    (h : e.pos = e'.pos) : e = e' := by
  have hk := getElem?_linearSeq.2 ⟨he, h⟩
  rw [getElem?_linearSeq.2 ⟨he', rfl⟩] at hk
  exact (Option.some.inj hk).symm

/-- A scope is known by its statement. -/
theorem Pairs.unique {e e' f f' : Entry} (h : Pairs (linearSeq s) e e')
    (h' : Pairs (linearSeq s) f f') (hst : e.stmt = f.stmt) : e = f ∧ e' = f' := by
  have hn := linear_nested s 0 0
  have hef : e = f := by
    apply eq_of_pos_eq h.opening h'.opening
    rw [← hn.stmt e h.opening h.opens, ← hn.stmt f h'.opening h'.opens, hst]
  subst hef
  refine ⟨rfl, eq_of_pos_eq h.closing h'.closing ?_⟩
  have := h.pos
  have := h'.pos
  omega

end Sequence

end TileLangNpuir.SharedMem
