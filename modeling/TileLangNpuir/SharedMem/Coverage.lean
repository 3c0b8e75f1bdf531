import Mathlib.Data.List.Chain
import TileLangNpuir.SharedMem.Reorder

/-!
# Values between their write and their read

An execution takes every loop any number of times around and every branch either way. A value
that one access writes and a later one reads must not be overwritten by what shares the memory,
so whatever is executed in between has to lie between the gen and the kill point of the buffer.

The linear sequence knows nothing of the way back from the end of a loop body to its beginning,
and that is where it goes wrong: `initOnce_not_covers` is a buffer that is first touched inside the
loop that carries it.
-/

namespace TileLangNpuir.SharedMem

/-! ## Executions -/

/-- One evaluation of a leaf, a condition or the bounds of a loop: its place in the sequence, and
the elements of buffers that it reads and then writes. -/
structure Access : Type where
  pos : ℕ
  reads : List (ℕ × ℕ)
  writes : List (ℕ × ℕ)
  deriving DecidableEq

/-- What touches no buffer is not in the sequence. -/
def Evaluates (i : ℕ) (reads writes : List ℕ) (tr : List Access) : Prop :=
  if reads ++ writes = [] then tr = []
  else ∃ x, tr = [x] ∧ x.pos = i ∧ (∀ l ∈ x.reads, l.1 ∈ reads) ∧ ∀ l ∈ x.writes, l.1 ∈ writes

/-- The executions of a statement that starts at index `i`. -/
def Exec : ℕ → Stmt → List Access → Prop
  | i, .leaf reads writes, tr => Evaluates i reads writes tr
  | i, .seq a b, tr => ∃ ta tb, Exec i a ta ∧ Exec (i + a.size) b tb ∧ tr = ta ++ tb
  | i, .forLoop bounds body, tr =>
    ∃ (tc : List Access) (ts : List (List Access)), Evaluates i bounds [] tc ∧
      (∀ t ∈ ts, Exec (i + 1) body t) ∧ tr = tc ++ ts.flatten
  | i, .whileLoop cond body, tr =>
    -- the condition is evaluated before every iteration and once more at the end
    ∃ (ts : List (List Access)) (tc : List Access),
      (∀ t ∈ ts, ∃ tc tb, Evaluates i cond [] tc ∧ Exec (i + 1) body tb ∧ t = tc ++ tb) ∧
      Evaluates i cond [] tc ∧ tr = ts.flatten ++ tc
  | i, .ifThenElse cond a b, tr =>
    ∃ tc t, Evaluates i cond [] tc ∧ (Exec (i + 1) a t ∨ Exec (i + 1 + a.size) b t) ∧ tr = tc ++ t

/-- The first and the last index of every loop. -/
def loops : ℕ → Stmt → List (ℕ × ℕ)
  | _, .leaf _ _ => []
  | i, .seq a b => loops i a ++ loops (i + a.size) b
  | i, .forLoop _ body => (i, i + body.size + 1) :: loops (i + 1) body
  | i, .whileLoop _ body => (i, i + body.size + 1) :: loops (i + 1) body
  | i, .ifThenElse _ a b => loops (i + 1) a ++ loops (i + 1 + a.size) b

theorem Evaluates.pos {i : ℕ} {reads writes : List ℕ} {tr : List Access} {x : Access}
    (h : Evaluates i reads writes tr) (hx : x ∈ tr) : x.pos = i := by
  rw [Evaluates] at h
  split at h
  · rw [h] at hx
    cases hx
  · obtain ⟨y, rfl, hy, -⟩ := h
    rw [List.mem_singleton.1 hx]
    exact hy

theorem Evaluates.touches {i : ℕ} {reads writes : List ℕ} {tr : List Access} {x : Access}
    {l : ℕ × ℕ} (h : Evaluates i reads writes tr) (hx : x ∈ tr) (hl : l ∈ x.reads ++ x.writes) :
    l.1 ∈ reads ++ writes := by
  rw [Evaluates] at h
  split at h
  · rw [h] at hx
    cases hx
  · obtain ⟨y, rfl, -, hr, hw⟩ := h
    rw [List.mem_singleton.1 hx] at hl
    rcases List.mem_append.1 hl with hl | hl
    · exact List.mem_append_left _ (hr l hl)
    · exact List.mem_append_right _ (hw l hl)

theorem Evaluates.isChain {R : Access → Access → Prop} {i : ℕ} {reads writes : List ℕ}
    {tr : List Access} (h : Evaluates i reads writes tr) : tr.IsChain R := by
  rw [Evaluates] at h
  split at h
  · rw [h]
    exact List.isChain_nil
  · obtain ⟨y, rfl, -⟩ := h
    exact List.isChain_singleton y

/-- An access stands within the statement. -/
theorem Exec.pos {s : Stmt} : ∀ {i : ℕ} {tr : List Access} {x : Access}, Exec i s tr → x ∈ tr →
    i ≤ x.pos ∧ x.pos < i + s.size := by
  induction s with
  | leaf reads writes =>
    intro i tr x h hx
    have hpos := Evaluates.pos h hx
    rw [Exec, Evaluates] at h
    rw [Stmt.size]
    split at h
    · rw [h] at hx
      cases hx
    case isFalse hne =>
      rw [if_neg hne]
      omega
  | seq a b iha ihb =>
    rintro i tr x ⟨ta, tb, ha, hb, rfl⟩ hx
    rw [Stmt.size]
    rcases List.mem_append.1 hx with hx | hx
    · have := iha ha hx
      omega
    · have := ihb hb hx
      omega
  | forLoop bounds body ih =>
    rintro i tr x ⟨tc, ts, hc, hts, rfl⟩ hx
    rw [Stmt.size]
    rcases List.mem_append.1 hx with hx | hx
    · have := hc.pos hx
      omega
    · obtain ⟨t, ht, hxt⟩ := List.mem_flatten.1 hx
      have := ih (hts t ht) hxt
      omega
  | whileLoop cond body ih =>
    rintro i tr x ⟨ts, tc, hts, hc, rfl⟩ hx
    rw [Stmt.size]
    rcases List.mem_append.1 hx with hx | hx
    · obtain ⟨t, ht, hxt⟩ := List.mem_flatten.1 hx
      obtain ⟨tc', tb, hc', hb, rfl⟩ := hts t ht
      rcases List.mem_append.1 hxt with hx' | hx'
      · have := hc'.pos hx'
        omega
      · have := ih hb hx'
        omega
    · have := hc.pos hx
      omega
  | ifThenElse cond a b iha ihb =>
    rintro i tr x ⟨tc, t, hc, ht, rfl⟩ hx
    rw [Stmt.size]
    rcases List.mem_append.1 hx with hx | hx
    · have := hc.pos hx
      omega
    · rcases ht with ht | ht
      · have := iha ht hx
        omega
      · have := ihb ht hx
        omega

/-- One access comes after the other in the sequence, or both are in one loop. -/
def Steps (loops : List (ℕ × ℕ)) (x y : Access) : Prop :=
  x.pos < y.pos ∨ ∃ L ∈ loops, L.1 ≤ y.pos ∧ x.pos ≤ L.2

theorem Steps.mono {ls ls' : List (ℕ × ℕ)} {x y : Access} (h : Steps ls x y) (hsub : ls ⊆ ls') :
    Steps ls' x y := by
  rcases h with hlt | ⟨L, hL, hin⟩
  · exact .inl hlt
  · exact .inr ⟨L, hsub hL, hin⟩

/-- An execution goes back in the sequence inside of loops only. -/
theorem Exec.isChain {s : Stmt} : ∀ {i : ℕ} {tr : List Access}, Exec i s tr →
    tr.IsChain (Steps (loops i s)) := by
  induction s with
  | leaf reads writes =>
    intro i tr h
    exact Evaluates.isChain h
  | seq a b iha ihb =>
    rintro i tr ⟨ta, tb, ha, hb, rfl⟩
    rw [List.isChain_append]
    refine ⟨(iha ha).imp fun _ _ h => h.mono (List.subset_append_left _ _),
      (ihb hb).imp fun _ _ h => h.mono (List.subset_append_right _ _), ?_⟩
    intro x hx y hy
    have hxa := Exec.pos ha (List.mem_of_mem_getLast? hx)
    have hyb := Exec.pos hb (List.mem_of_mem_head? hy)
    exact .inl (by omega)
  | forLoop bounds body ih =>
    intro i tr h
    apply List.Pairwise.isChain
    apply List.pairwise_of_forall_mem_list
    intro x hx y hy
    have := Exec.pos h hx
    have := Exec.pos h hy
    rw [Stmt.size] at *
    exact .inr ⟨_, List.mem_cons_self, by dsimp only; omega⟩
  | whileLoop cond body ih =>
    intro i tr h
    apply List.Pairwise.isChain
    apply List.pairwise_of_forall_mem_list
    intro x hx y hy
    have := Exec.pos h hx
    have := Exec.pos h hy
    rw [Stmt.size] at *
    exact .inr ⟨_, List.mem_cons_self, by dsimp only; omega⟩
  | ifThenElse cond a b iha ihb =>
    rintro i tr ⟨tc, t, hc, ht, rfl⟩
    rw [List.isChain_append]
    refine ⟨hc.isChain, ?_, ?_⟩
    · rcases ht with ht | ht
      · exact (iha ht).imp fun _ _ h => h.mono (List.subset_append_left _ _)
      · exact (ihb ht).imp fun _ _ h => h.mono (List.subset_append_right _ _)
    · intro x hx y hy
      have hxc := hc.pos (List.mem_of_mem_getLast? hx)
      rcases ht with ht | ht
      · have := Exec.pos ht (List.mem_of_mem_head? hy)
        exact .inl (by omega)
      · have := Exec.pos ht (List.mem_of_mem_head? hy)
        exact .inl (by omega)

/-- What an access touches is touched by its statement, in the sequence. -/
theorem Exec.touches {s : Stmt} : ∀ (level : ℕ) {i : ℕ} {tr : List Access} {x : Access} {l : ℕ × ℕ},
    Exec i s tr → x ∈ tr → l ∈ x.reads ++ x.writes →
      ∃ e e', Pairs (linear level i s) e e' ∧ e.pos = x.pos ∧ l.1 ∈ e'.touched := by
  induction s with
  | leaf reads writes =>
    intro level i tr x l h hx hl
    have hpos := Evaluates.pos h hx
    have ht := Evaluates.touches h hx hl
    rw [linear, if_neg (List.ne_nil_of_mem ht)]
    exact ⟨_, _, pairs_leaf, hpos.symm, ht⟩
  | seq a b iha ihb =>
    rintro level i tr x l ⟨ta, tb, ha, hb, rfl⟩ hx hl
    have hlt : ∀ x ∈ linear level i a, ∀ y ∈ linear level (i + a.size) b, x.pos < y.pos :=
      fun x hx y hy => (pos_of_mem_linear hx).2.trans_le (pos_of_mem_linear hy).1
    rcases List.mem_append.1 hx with hx | hx
    · obtain ⟨e, e', hp, ht⟩ := iha level ha hx hl
      exact ⟨e, e', hp.append_left hlt, ht⟩
    · obtain ⟨e, e', hp, ht⟩ := ihb level hb hx hl
      exact ⟨e, e', hp.append_right hlt, ht⟩
  | forLoop bounds body ih =>
    rintro level i tr x l ⟨tc, ts, hc, hts, rfl⟩ hx hl
    rcases List.mem_append.1 hx with hx | hx
    · refine ⟨_, _, pairs_visitNewScope (level_of_mem_linear body _ _), (hc.pos hx).symm, ?_⟩
      simpa using hc.touches hx hl
    · obtain ⟨t, ht, hxt⟩ := List.mem_flatten.1 hx
      obtain ⟨e, e', hp, hrest⟩ := ih _ (hts t ht) hxt hl
      exact ⟨e, e', hp.visitNewScope pos_inside, hrest⟩
  | whileLoop cond body ih =>
    rintro level i tr x l ⟨ts, tc, hts, hc, rfl⟩ hx hl
    have hcond {tc : List Access} (hc : Evaluates i cond [] tc) (hx : x ∈ tc) :
        ∃ e e', Pairs (linear level i (.whileLoop cond body)) e e' ∧ e.pos = x.pos ∧
          l.1 ∈ e'.touched := by
      refine ⟨_, _, pairs_visitNewScope (level_of_mem_linear body _ _), (hc.pos hx).symm, ?_⟩
      simpa using hc.touches hx hl
    rcases List.mem_append.1 hx with hx | hx
    · obtain ⟨t, ht, hxt⟩ := List.mem_flatten.1 hx
      obtain ⟨tc', tb, hc', hb, rfl⟩ := hts t ht
      rcases List.mem_append.1 hxt with hx' | hx'
      · exact hcond hc' hx'
      · obtain ⟨e, e', hp, hrest⟩ := ih level hb hx' hl
        exact ⟨e, e', hp.visitNewScope pos_inside, hrest⟩
    · exact hcond hc hx
  | ifThenElse cond a b iha ihb =>
    rintro level i tr x l ⟨tc, t, hc, ht, rfl⟩ hx hl
    have hlt : ∀ x ∈ linear level (i + 1) a, ∀ y ∈ linear level (i + 1 + a.size) b,
        x.pos < y.pos :=
      fun x hx y hy => (pos_of_mem_linear hx).2.trans_le (pos_of_mem_linear hy).1
    rcases List.mem_append.1 hx with hx | hx
    · refine ⟨_, _, pairs_visitNewScope level_inside, (hc.pos hx).symm, ?_⟩
      simpa using hc.touches hx hl
    · rcases ht with ht | ht
      · obtain ⟨e, e', hp, hrest⟩ := iha level ht hx hl
        exact ⟨e, e', (hp.append_left hlt).visitNewScope pos_inside_branches, hrest⟩
      · obtain ⟨e, e', hp, hrest⟩ := ihb level ht hx hl
        exact ⟨e, e', (hp.append_right hlt).visitNewScope pos_inside_branches, hrest⟩

/-! ## Coverage -/

/-- `w` writes the element `l`, `r` reads that value, and `mid` is executed in between. -/
structure Flows (tr : List Access) (l : ℕ × ℕ) (w : Access) (mid : List Access) (r : Access) :
    Prop where
  run : w :: (mid ++ [r]) <:+: tr
  written : l ∈ w.writes
  read : l ∈ r.reads
  kept : ∀ x ∈ mid, l ∉ x.writes

/-- The index lies between the gen and the kill point of the buffer. -/
def Live (seq : List Entry) (order : List ℕ) (b p : ℕ) : Prop :=
  ∃ g k, GenPoint seq b g ∧ KillPoint seq order b k ∧ g ≤ p ∧ p ≤ k

/-- The buffer of every value is live whatever is executed between its write and its read. -/
def Covers (s : Stmt) (order : List ℕ) (tr : List Access) : Prop :=
  ∀ l w mid r, Flows tr l w mid r → ∀ x ∈ mid, Live (linearSeq s) order l.1 x.pos

/-- A statement that touches the buffer begins at `p` or before. -/
def TouchedBy (s : Stmt) (b p : ℕ) : Prop :=
  ∃ e e', Pairs (linearSeq s) e e' ∧ b ∈ e'.touched ∧ e.pos ≤ p

/-- A statement that touches the buffer ends at `p` or after; or the last one is deeper than the
first, and the eventful statement that the search outward stops at ends at `p` or after. -/
def KeptTo (s : Stmt) (b p : ℕ) : Prop :=
  (∃ e e', Pairs (linearSeq s) e e' ∧ b ∈ e'.touched ∧ p ≤ e'.pos) ∨
    ∃ f f' l l' stop e e', FirstTouch s b f f' ∧ LastTouch s b l l' ∧ f.level < l.level ∧
      StopsAt s f.level l' stop ∧ Pairs (linearSeq s) e e' ∧ e.stmt = stop.stmt ∧ p ≤ e'.pos

/-- Whenever an execution goes back from `x` to `y` in a loop while it carries a value, the buffer
has been touched at `y` or before, and is kept to `x`. -/
def CarriesKept (s : Stmt) (tr : List Access) : Prop :=
  ∀ l w mid r, Flows tr l w mid r → ∀ L ∈ loops 0 s, ∀ x y, [x, y] <:+: w :: (mid ++ [r]) →
    L.1 ≤ y.pos → y.pos ≤ x.pos → x.pos ≤ L.2 → TouchedBy s l.1 y.pos ∧ KeptTo s l.1 x.pos

section Coverage

variable {s : Stmt} {order : List ℕ} {tr : List Access} {b : ℕ}

theorem TouchedBy.mono {p q : ℕ} (h : TouchedBy s b p) (hle : p ≤ q) : TouchedBy s b q := by
  obtain ⟨e, e', hp, hb, hpos⟩ := h
  exact ⟨e, e', hp, hb, hpos.trans hle⟩

theorem KeptTo.anti {p q : ℕ} (h : KeptTo s b q) (hle : p ≤ q) : KeptTo s b p := by
  rcases h with ⟨e, e', hp, hb, hpos⟩ | ⟨f, f', l, l', stop, e, e', hf, hl, hlt, hs, hp, hst, hpos⟩
  · exact .inl ⟨e, e', hp, hb, hle.trans hpos⟩
  · exact .inr ⟨f, f', l, l', stop, e, e', hf, hl, hlt, hs, hp, hst, hle.trans hpos⟩

theorem FirstTouch.genPoint {f f' : Entry} (h : FirstTouch s b f f') :
    GenPoint (linearSeq s) b f.pos :=
  ⟨f, h.pairs.opening, h.pairs.opens, mem_genPoints_iff.2 ⟨f, f', h, rfl⟩, rfl⟩

theorem exists_genPoint_iff {p : ℕ} :
    (∃ g, GenPoint (linearSeq s) b g ∧ g ≤ p) ↔ TouchedBy s b p := by
  constructor
  · rintro ⟨-, ⟨e, he, hopens, hgen, rfl⟩, hle⟩
    obtain ⟨f, f', hf, hst⟩ := mem_genPoints_iff.1 hgen
    have hn := linear_nested s 0 0
    rw [hn.stmt e he hopens, hn.stmt f hf.pairs.opening hf.pairs.opens] at hst
    exact ⟨f, f', hf.pairs, hf.touched, by omega⟩
  · rintro ⟨e, e', hp, hb, hle⟩
    obtain ⟨f, f', hf⟩ := exists_firstTouch hp hb
    exact ⟨f.pos, hf.genPoint, (hf.first e e' hp hb).trans hle⟩

theorem exists_killPoint_iff (horder : ∀ e ∈ linearSeq s, e.stmt ∈ order) {p : ℕ} :
    (∃ k, KillPoint (linearSeq s) order b k ∧ p ≤ k) ↔ KeptTo s b p := by
  have hn := linear_nested s 0 0
  constructor
  · rintro ⟨-, ⟨e', he', hcloses, hkill, rfl⟩, hle⟩
    obtain ⟨e, hp⟩ := hn.paired e' he' hcloses
    rw [mem_reorder_iff horder, hp.stmt] at hkill
    generalize hst : e.stmt = stmt at hkill
    cases hkill with
    | stays hf hl hlevel =>
      obtain ⟨-, rfl⟩ := hp.unique hl.pairs hst
      exact .inl ⟨_, e', hl.pairs, hl.touched, hle⟩
    | moves hf hl hlevel hstop =>
      exact .inr ⟨_, _, _, _, _, e, e', hf, hl, hlevel, hstop, hp, hst, hle⟩
  · rintro (⟨e, e', hp, hb, hle⟩ | ⟨f, f', l, l', stop, e, e', hf, hl, hlt, hstop, hp, hst, hle⟩)
    · obtain ⟨f, f', hf⟩ := exists_firstTouch hp hb
      obtain ⟨l, l', hl⟩ := exists_lastTouch hp hb
      have hel := hl.last e e' hp hb
      rcases Nat.lt_or_ge f.level l.level with hlt | hge
      · have hev : Eventful s l' := ⟨hl.pairs.closing, b, l, l', .inr hl, hl.pairs.stmt.symm⟩
        obtain ⟨pre, rest, hseq⟩ := List.append_of_mem (mem_genKillSeq_iff.2 hev)
        obtain ⟨stop, hstop⟩ := exists_stopsAt f.level hseq
        -- the kill has moved, but not before the last touch
        obtain ⟨c, c', hc, hsc⟩ := exists_pairs hstop.event.1
        have hst : c'.stmt = stop.stmt := by
          rcases hsc with rfl | rfl
          · exact hc.stmt
          · rfl
        have hsle : stop.pos ≤ c'.pos := by
          rcases hsc with rfl | rfl
          · exact hc.pos_le
          · exact le_rfl
        refine ⟨c'.pos, ⟨c', hc.closing, hc.closes, ?_, rfl⟩, ?_⟩
        · rw [mem_reorder_iff horder, hst]
          exact .moves hf hl hlt hstop
        · have := hstop.from_le
          omega
      · refine ⟨l'.pos, ⟨l', hl.pairs.closing, hl.pairs.closes, ?_, rfl⟩, hle.trans hel⟩
        rw [mem_reorder_iff horder, hl.pairs.stmt]
        exact .stays hf hl hge
    · refine ⟨e'.pos, ⟨e', hp.closing, hp.closes, ?_, rfl⟩, hle⟩
      rw [mem_reorder_iff horder, hp.stmt, hst]
      exact .moves hf hl hlt hstop

theorem live_iff (horder : ∀ e ∈ linearSeq s, e.stmt ∈ order) {p : ℕ} :
    Live (linearSeq s) order b p ↔ TouchedBy s b p ∧ KeptTo s b p := by
  rw [← exists_genPoint_iff, ← exists_killPoint_iff horder]
  constructor
  · rintro ⟨g, k, hg, hk, hle, hle'⟩
    exact ⟨⟨g, hg, hle⟩, k, hk, hle'⟩
  · rintro ⟨⟨g, hg, hle⟩, k, hk, hle'⟩
    exact ⟨g, k, hg, hk, hle, hle'⟩

/-- A buffer that is generated is killed, and not before. -/
theorem GenPoint.exists_killPoint (horder : ∀ e ∈ linearSeq s, e.stmt ∈ order) {g : ℕ}
    (h : GenPoint (linearSeq s) b g) : ∃ k, KillPoint (linearSeq s) order b k ∧ g ≤ k := by
  obtain ⟨e, e', hp, hb, hle⟩ := exists_genPoint_iff.1 ⟨g, h, le_rfl⟩
  obtain ⟨f, f', hf⟩ := exists_firstTouch hp hb
  rw [h.unique hf.genPoint]
  exact (exists_killPoint_iff horder).2 (.inl ⟨f, f', hf.pairs, hf.touched, hf.pairs.pos_le⟩)

/-- A buffer that is killed has been generated. -/
theorem KillPoint.exists_genPoint (horder : ∀ e ∈ linearSeq s, e.stmt ∈ order) {k : ℕ}
    (h : KillPoint (linearSeq s) order b k) : ∃ g, GenPoint (linearSeq s) b g := by
  obtain ⟨e, -, -, hkill, -⟩ := h
  rw [mem_reorder_iff horder] at hkill
  have hfirst : ∃ f f', FirstTouch s b f f' := by
    generalize e.stmt = stmt at hkill
    cases hkill with
    | stays hf _ _ => exact ⟨_, _, hf⟩
    | moves hf _ _ _ => exact ⟨_, _, hf⟩
  obtain ⟨f, f', hf⟩ := hfirst
  exact ⟨f.pos, hf.genPoint⟩

/-- A buffer is live where it is touched. -/
theorem Exec.touched {x : Access} {l : ℕ × ℕ} (h : Exec 0 s tr) (hx : x ∈ tr)
    (hl : l ∈ x.reads ++ x.writes) : TouchedBy s l.1 x.pos ∧ KeptTo s l.1 x.pos := by
  obtain ⟨e, e', hp, hpos, hb⟩ := Exec.touches 0 h hx hl
  refine ⟨⟨e, e', hp, hb, hpos.le⟩, .inl ⟨e, e', hp, hb, ?_⟩⟩
  rw [← hpos]
  exact hp.pos_le

/-- The liveness analysis covers an execution exactly if the execution carries values around loops
only in buffers that are touched early and late enough. -/
theorem covers_iff_carriesKept (horder : ∀ e ∈ linearSeq s, e.stmt ∈ order) (h : Exec 0 s tr) :
    Covers s order tr ↔ CarriesKept s tr := by
  constructor
  · intro hcov l w mid r hflow L _ x y hxy _ _ _
    have hlive : ∀ z ∈ w :: (mid ++ [r]), TouchedBy s l.1 z.pos ∧ KeptTo s l.1 z.pos := by
      intro z hz
      have hztr := hflow.run.subset hz
      simp only [List.mem_cons, List.mem_append, List.not_mem_nil, or_false] at hz
      rcases hz with rfl | hz | rfl
      · exact h.touched hztr (List.mem_append_right _ hflow.written)
      · exact (live_iff horder).1 (hcov l w mid r hflow z hz)
      · exact h.touched hztr (List.mem_append_left _ hflow.read)
    exact ⟨(hlive y (hxy.subset (by simp))).1, (hlive x (hxy.subset (by simp))).2⟩
  · intro hkept l w mid r hflow z hz
    -- between the two, an execution goes on in the sequence, or back where the buffer is kept
    have hchain : (w :: (mid ++ [r])).IsChain fun x y =>
        x.pos < y.pos ∨ TouchedBy s l.1 y.pos ∧ KeptTo s l.1 x.pos := by
      rw [List.isChain_iff_forall_rel_of_append_cons_cons]
      intro x y pre post heq
      have hin : [x, y] <:+: w :: (mid ++ [r]) := ⟨pre, post, by rw [heq]; simp⟩
      have hstep : Steps (loops 0 s) x y := by
        obtain ⟨u, v, htr⟩ := hin.trans hflow.run
        have hsplit : tr = u ++ x :: y :: v := by
          rw [← htr]
          simp
        exact List.isChain_iff_forall_rel_of_append_cons_cons.1 (Exec.isChain h) hsplit
      rcases Nat.lt_or_ge x.pos y.pos with hlt | hge
      · exact .inl hlt
      · rcases hstep with hlt | ⟨L, hL, hy, hx⟩
        · exact .inl hlt
        · exact .inr (hkept l w mid r hflow L hL x y hin hy hge hx)
    have hw := h.touched (hflow.run.subset (by simp)) (List.mem_append_right w.reads hflow.written)
    have hr := h.touched (x := r) (hflow.run.subset (by simp)) (List.mem_append_left _ hflow.read)
    have hzmem : z ∈ w :: (mid ++ [r]) := by simp [hz]
    apply (live_iff horder).2
    constructor
    · apply hchain.induction (fun x => TouchedBy s l.1 x.pos) _ _ (fun _ => hw.1) z hzmem
      rintro x y (hlt | ⟨ht, -⟩) hx
      · exact hx.mono hlt.le
      · exact ht
    · apply hchain.backwards_induction (fun x => KeptTo s l.1 x.pos) _ _ _ z hzmem
      · rintro x y (hlt | ⟨-, hk⟩) hy
        · exact hy.anti hlt.le
        · exact hk
      · intro _
        simpa using hr.2

end Coverage

/-- A buffer that is filled before the loop that reads it, and another one after the read. -/
def filledBefore : Stmt := .seq (.leaf [] [0]) (.forLoop [] (.seq (.leaf [0] []) (.leaf [] [1])))

/-- Two iterations of the loop. -/
def filledBeforeRun : List Access :=
  [⟨0, [], [(0, 0)]⟩, ⟨2, [(0, 0)], []⟩, ⟨3, [], [(1, 0)]⟩, ⟨2, [(0, 0)], []⟩, ⟨3, [], [(1, 0)]⟩]

theorem filledBefore_exec : Exec 0 filledBefore filledBeforeRun := by
  refine ⟨[⟨0, [], [(0, 0)]⟩], _, ?_,
    ⟨[], List.replicate 2 [⟨2, [(0, 0)], []⟩, ⟨3, [], [(1, 0)]⟩], ?_, ?_, rfl⟩, rfl⟩
  · exact ⟨_, rfl, rfl, by simp, by simp⟩
  · exact rfl
  · intro t ht
    rw [(List.mem_replicate.1 ht).2]
    exact ⟨[⟨2, [(0, 0)], []⟩], [⟨3, [], [(1, 0)]⟩], ⟨_, rfl, rfl, by simp, by simp⟩,
      ⟨_, rfl, rfl, by simp, by simp⟩, rfl⟩

theorem filledBefore_covers :
    Exec 0 filledBefore filledBeforeRun ∧ Covers filledBefore [3, 2, 1, 0] filledBeforeRun := by
  have horder : ∀ e ∈ linearSeq filledBefore, e.stmt ∈ [3, 2, 1, 0] := by decide
  refine ⟨filledBefore_exec, (covers_iff_carriesKept horder filledBefore_exec).2 ?_⟩
  intro l w mid r hflow L _ x y hxy _ _ _
  -- only the first buffer is ever read, and its kill has moved to the end of the loop body
  have hl : l.1 = 0 := by
    have hr : r ∈ filledBeforeRun := hflow.run.subset (by simp)
    have hread : ∀ r ∈ filledBeforeRun, ∀ l ∈ r.reads, l.1 = 0 := by decide
    exact hread r hr l hflow.read
  have hx : x ∈ filledBeforeRun := hflow.run.subset (hxy.subset (by simp))
  have hle : ∀ x ∈ filledBeforeRun, x.pos ≤ 3 := by decide
  rw [hl]
  constructor
  · exact exists_genPoint_iff.1 ⟨0, ⟨⟨0, 0, 0, [0], 0⟩, by decide, by decide, by decide, rfl⟩,
      Nat.zero_le _⟩
  · exact (exists_killPoint_iff horder).1
      ⟨3, ⟨⟨3, 3, 0, [1], 1⟩, by decide, by decide, by decide, rfl⟩, hle x hx⟩

/-- A buffer that the first iteration fills and the later ones read, and another one after it. -/
def initOnce : Stmt :=
  .forLoop [] (.seq (.ifThenElse [] (.leaf [] [0]) (.leaf [0] [])) (.leaf [] [1]))

/-- Two iterations of the loop. -/
def initOnceRun : List Access :=
  [⟨2, [], [(0, 0)]⟩, ⟨5, [], [(1, 0)]⟩, ⟨3, [(0, 0)], []⟩, ⟨5, [], [(1, 0)]⟩]

/-- The second buffer is written while the first one holds a value, after its kill point. -/
theorem initOnce_not_covers : Exec 0 initOnce initOnceRun ∧
    (∀ e ∈ linearSeq initOnce, e.stmt ∈ [0, 1, 2, 3, 5]) ∧
      ¬ Covers initOnce [0, 1, 2, 3, 5] initOnceRun := by
  refine ⟨⟨[], [[⟨2, [], [(0, 0)]⟩, ⟨5, [], [(1, 0)]⟩], [⟨3, [(0, 0)], []⟩, ⟨5, [], [(1, 0)]⟩]],
    rfl, ?_, rfl⟩, by decide, ?_⟩
  · intro t ht
    have hlast : Exec 5 (.leaf [] [1]) [⟨5, [], [(1, 0)]⟩] := ⟨_, rfl, rfl, by simp, by simp⟩
    simp only [List.mem_cons, List.not_mem_nil, or_false] at ht
    rcases ht with rfl | rfl
    · exact ⟨[⟨2, [], [(0, 0)]⟩], _, ⟨[], _, rfl, .inl ⟨_, rfl, rfl, by simp, by simp⟩, rfl⟩,
        hlast, rfl⟩
    · exact ⟨[⟨3, [(0, 0)], []⟩], _, ⟨[], _, rfl, .inr ⟨_, rfl, rfl, by simp, by simp⟩, rfl⟩,
        hlast, rfl⟩
  · intro hcov
    have hflow : Flows initOnceRun (0, 0) ⟨2, [], [(0, 0)]⟩ [⟨5, [], [(1, 0)]⟩] ⟨3, [(0, 0)], []⟩ :=
      ⟨⟨[], [⟨5, [], [(1, 0)]⟩], rfl⟩, by simp, by simp, by simp⟩
    obtain ⟨g, k, -, ⟨e, he, hcloses, hkill, rfl⟩, -, hle⟩ :=
      hcov _ _ _ _ hflow _ List.mem_cons_self
    have hearly : ∀ e ∈ linearSeq initOnce, e.scopePairOffset ≤ 0 →
        (e.stmt, 0) ∈ reorder (linearSeq initOnce) [0, 1, 2, 3, 5] → e.pos < 5 := by decide
    exact absurd hle (not_le.2 (hearly e he hcloses hkill))

end TileLangNpuir.SharedMem
