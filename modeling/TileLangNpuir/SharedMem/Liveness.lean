import Mathlib.Data.List.Nodup
import TileLangNpuir.SharedMem.Linear

/-!
# Gen and kill points

`LivenessAnalysis` in `src/transform/merge_shared_memory_allocations.cc`. A buffer is generated at
the first statement that touches it and killed at the last one. A kill on a deeper level than the
gen is then moved outward, in a loop over an unordered map that the loop itself changes.

What the search outward finds is `StopsAt`.
-/

namespace TileLangNpuir.SharedMem

/-- Statements with buffers, less what has been `touched` before. -/
def firstOnly : List (ℕ × ℕ) → List ℕ → List (ℕ × ℕ)
  | [], _ => []
  | (stmt, b) :: ps, touched =>
    if b ∈ touched then firstOnly ps touched else (stmt, b) :: firstOnly ps (b :: touched)

/-- The buffers of an entry, with its statement. -/
def touches (e : Entry) : List (ℕ × ℕ) := e.touched.map fun b => (e.stmt, b)

/-- The kill events, by a reverse linear scan. -/
def killPoints (seq : List Entry) : List (ℕ × ℕ) := firstOnly (seq.reverse.flatMap touches) []

/-- The buffers that the forward scan sees at an entry: those of the end of the scope it begins. -/
def scopeTouches (seq : List Entry) (e : Entry) : List (ℕ × ℕ) :=
  if e.scopePairOffset < 0 then []
  else match seq[(e.pos + e.scopePairOffset).toNat]? with
    | some s => touches s
    | none => []

/-- The gen events, by a forward scan. -/
def genPoints (seq : List Entry) : List (ℕ × ℕ) := firstOnly (seq.flatMap (scopeTouches seq)) []

/-- `gen_kill_seq`: the entries of the statements that have an event. -/
def genKillSeq (seq : List Entry) : List Entry :=
  seq.filter fun e =>
    (genPoints seq).any (fun p => p.1 = e.stmt) || (killPoints seq).any fun p => p.1 = e.stmt

/-- `stmt_attrs.at(stmt).level`. -/
def levelOf (seq : List Entry) (stmt : ℕ) : Option ℕ :=
  (seq.find? fun e => e.stmt = stmt).map (·.level)

/-- The level of the gen statement of a buffer. -/
def genLevel (seq : List Entry) (b : ℕ) : Option ℕ :=
  ((genPoints seq).find? fun p => p.2 = b).bind fun p => levelOf seq p.1

/-- The first statement that is followed by one at `level`, or by nothing. -/
def lastStmtAtLevel (level : ℕ) : List Entry → Option ℕ
  | [] => none
  | [e] => some e.stmt
  | e :: next :: rest =>
    if next.level = level then some e.stmt else lastStmtAtLevel level (next :: rest)

/-- One killed buffer of a statement. -/
def moveKill (seq : List Entry) (stmt : ℕ) (kill : List (ℕ × ℕ)) (b : ℕ) : List (ℕ × ℕ) :=
  match levelOf seq stmt, genLevel seq b with
  | some killLevel, some genLevel =>
    if genLevel < killLevel then
      match lastStmtAtLevel genLevel ((genKillSeq seq).dropWhile fun e => e.stmt ≠ stmt) with
      | some target => kill.erase (stmt, b) ++ [(target, b)]
      | none => kill.erase (stmt, b)
    else kill
  | _, _ => kill

/-- The killed buffers of a statement. Those that come back to it while it is visited are in
`visited_buffers`, so they are passed over. -/
def reorderStmt (seq : List Entry) (kill : List (ℕ × ℕ)) (stmt : ℕ) : List (ℕ × ℕ) :=
  ((kill.filter fun p => p.1 = stmt).map (·.2)).foldl (moveKill seq stmt) kill

/-- The kill events after the loop over `event_map_`, which visits statements in some `order`. -/
def reorder (seq : List Entry) (order : List ℕ) : List (ℕ × ℕ) :=
  order.foldl (reorderStmt seq) (killPoints seq)

/-- The buffer is generated here: `PlanMemory` does so where a statement begins. -/
def GenPoint (seq : List Entry) (b k : ℕ) : Prop :=
  ∃ e ∈ seq, 0 ≤ e.scopePairOffset ∧ (e.stmt, b) ∈ genPoints seq ∧ e.pos = k

/-- The buffer is killed here: `PlanMemory` does so where a statement ends. -/
def KillPoint (seq : List Entry) (order : List ℕ) (b k : ℕ) : Prop :=
  ∃ e ∈ seq, e.scopePairOffset ≤ 0 ∧ (e.stmt, b) ∈ reorder seq order ∧ e.pos = k

/-! ## The two scans -/

theorem mem_firstOnly {ps : List (ℕ × ℕ)} {stmt b : ℕ} : ∀ {touched : List ℕ},
    (stmt, b) ∈ firstOnly ps touched ↔
      b ∉ touched ∧ ps.find? (fun p => p.2 = b) = some (stmt, b) := by
  induction ps with
  | nil => simp [firstOnly]
  | cons p ps ih =>
    obtain ⟨stmt', b'⟩ := p
    intro touched
    rw [firstOnly, List.find?_cons]
    by_cases hb : b' = b
    · subst hb
      by_cases ht : b' ∈ touched
      · simp [ht, ih]
      · simp [ht, ih, eq_comm]
    · simp only [hb, decide_false]
      split
      · exact ih
      · rw [List.mem_cons, ih]
        simp [Ne.symm hb]

theorem nodup_firstOnly {ps : List (ℕ × ℕ)} : ∀ {touched : List ℕ},
    ((firstOnly ps touched).map Prod.snd).Nodup := by
  induction ps with
  | nil =>
    intro touched
    exact List.nodup_nil
  | cons p ps ih =>
    obtain ⟨stmt, b⟩ := p
    intro touched
    rw [firstOnly]
    split
    · exact ih
    · rw [List.map_cons, List.nodup_cons]
      refine ⟨?_, ih⟩
      intro hmem
      obtain ⟨⟨stmt', b'⟩, hp, rfl⟩ := List.mem_map.1 hmem
      exact (mem_firstOnly.1 hp).1 List.mem_cons_self

/-- The scan finds a buffer at the first entry that has it. -/
theorem mem_firstOnly_flatMap {es : List Entry} {f : Entry → List (ℕ × ℕ)} {stmt b : ℕ} :
    (stmt, b) ∈ firstOnly (es.flatMap f) [] ↔ ∃ pre e post, es = pre ++ e :: post ∧
      (f e).find? (fun p => p.2 = b) = some (stmt, b) ∧ ∀ x ∈ pre, ∀ p ∈ f x, p.2 ≠ b := by
  rw [mem_firstOnly, List.find?_flatMap, List.findSome?_eq_some_iff]
  simp [List.find?_eq_none]

/-- A buffer that some entry has is found. -/
theorem exists_mem_firstOnly {es : List Entry} {f : Entry → List (ℕ × ℕ)} {e : Entry} {b : ℕ}
    {p : ℕ × ℕ} (he : e ∈ es) (hp : p ∈ f e) (hb : p.2 = b) :
    ∃ stmt, (stmt, b) ∈ firstOnly (es.flatMap f) [] := by
  cases hfind : (es.flatMap f).find? (fun p => p.2 = b) with
  | none =>
    rw [List.find?_eq_none] at hfind
    exact absurd (by simpa using hb) (hfind p (List.mem_flatMap.2 ⟨e, he, hp⟩))
  | some q =>
    obtain ⟨stmt, b'⟩ := q
    obtain rfl : b' = b := by simpa using List.find?_some hfind
    exact ⟨stmt, mem_firstOnly.2 ⟨List.not_mem_nil, hfind⟩⟩

theorem find?_touches {e : Entry} {b : ℕ} {p : ℕ × ℕ} :
    (touches e).find? (fun p => p.2 = b) = some p ↔ b ∈ e.touched ∧ p = (e.stmt, b) := by
  rw [touches, List.find?_map]
  constructor
  · intro h
    obtain ⟨c, hc, rfl⟩ := Option.map_eq_some_iff.1 h
    obtain rfl : c = b := by simpa using List.find?_some hc
    exact ⟨List.mem_of_find?_eq_some hc, rfl⟩
  · rintro ⟨hb, rfl⟩
    cases hc : e.touched.find? ((fun p : ℕ × ℕ => decide (p.2 = b)) ∘ fun b => (e.stmt, b)) with
    | none =>
      rw [List.find?_eq_none] at hc
      exact absurd (by simp) (hc b hb)
    | some c =>
      obtain rfl : c = b := by simpa using List.find?_some hc
      rfl

section Touches

variable {s : Stmt} {b : ℕ}

/-- The scope `e .. e'` is the first to touch the buffer. -/
structure FirstTouch (s : Stmt) (b : ℕ) (e e' : Entry) : Prop where
  pairs : Pairs (linearSeq s) e e'
  touched : b ∈ e'.touched
  first : ∀ f f', Pairs (linearSeq s) f f' → b ∈ f'.touched → e.pos ≤ f.pos

/-- The scope `e .. e'` is the last to touch the buffer. -/
structure LastTouch (s : Stmt) (b : ℕ) (e e' : Entry) : Prop where
  pairs : Pairs (linearSeq s) e e'
  touched : b ∈ e'.touched
  last : ∀ f f', Pairs (linearSeq s) f f' → b ∈ f'.touched → f'.pos ≤ e'.pos

/-- What is touched is touched at the end of a scope. -/
theorem exists_pairs_of_touched {e' : Entry} (he : e' ∈ linearSeq s) (hb : b ∈ e'.touched) :
    ∃ e, Pairs (linearSeq s) e e' := by
  have hn := linear_nested s 0 0
  exact hn.paired e' he (hn.touched e' he (List.ne_nil_of_mem hb))

/-- What stands before an entry is what has a smaller index. -/
theorem mem_before_iff {pre post : List Entry} {e x : Entry} (hseq : linearSeq s = pre ++ e :: post)
    (hx : x ∈ linearSeq s) : x ∈ pre ↔ x.pos < e.pos := by
  have hsorted : (linearSeq s).Pairwise fun e e' => e.pos < e'.pos :=
    pairwise_of_consecutive (linear_consecutive s 0 0)
  rw [hseq, List.pairwise_append, List.pairwise_cons] at hsorted
  obtain ⟨-, ⟨hpost, -⟩, hpre⟩ := hsorted
  constructor
  · intro hm
    exact hpre x hm e List.mem_cons_self
  · intro hlt
    rw [hseq, List.mem_append, List.mem_cons] at hx
    rcases hx with hm | rfl | hm
    · exact hm
    · exact absurd hlt (lt_irrefl _)
    · exact absurd (hpost x hm) (not_lt.2 hlt.le)

/-- What stands after an entry is what has a greater index. -/
theorem mem_after_iff {pre post : List Entry} {e x : Entry} (hseq : linearSeq s = pre ++ e :: post)
    (hx : x ∈ linearSeq s) : x ∈ post ↔ e.pos < x.pos := by
  have hsorted : (linearSeq s).Pairwise fun e e' => e.pos < e'.pos :=
    pairwise_of_consecutive (linear_consecutive s 0 0)
  rw [hseq, List.pairwise_append, List.pairwise_cons] at hsorted
  obtain ⟨-, ⟨hpost, -⟩, hpre⟩ := hsorted
  constructor
  · exact hpost x
  · intro hlt
    rw [hseq, List.mem_append, List.mem_cons] at hx
    rcases hx with hm | rfl | hm
    · exact absurd (hpre x hm e List.mem_cons_self) (not_lt.2 hlt.le)
    · exact absurd hlt (lt_irrefl _)
    · exact hm

theorem scopeTouches_of_pairs {e e' : Entry} (h : Pairs (linearSeq s) e e') :
    scopeTouches (linearSeq s) e = touches e' := by
  have hpos : (e.pos + e.scopePairOffset).toNat = e'.pos := by
    rw [← h.pos]
    exact Int.toNat_natCast _
  have hget : (linearSeq s)[(e.pos + e.scopePairOffset).toNat]? = some e' := by
    rw [hpos]
    exact getElem?_linearSeq.2 ⟨h.closing, rfl⟩
  rw [scopeTouches, if_neg (not_lt.2 h.opens), hget]

/-- An entry at which the forward scan sees a buffer begins a scope that has it. -/
theorem exists_pairs_of_scopeTouches {e : Entry} {p : ℕ × ℕ} (he : e ∈ linearSeq s)
    (hp : p ∈ scopeTouches (linearSeq s) e) :
    ∃ e', Pairs (linearSeq s) e e' ∧ p.2 ∈ e'.touched ∧ p.1 = e.stmt := by
  have hopens : 0 ≤ e.scopePairOffset := by
    by_contra hneg
    rw [scopeTouches, if_pos (not_le.1 hneg)] at hp
    cases hp
  obtain ⟨e', hpair⟩ := (linear_nested s 0 0).pair e he hopens
  rw [scopeTouches_of_pairs hpair] at hp
  obtain ⟨c, hc, rfl⟩ := List.mem_map.1 hp
  exact ⟨e', hpair, hc, hpair.stmt⟩

theorem mem_genPoints_iff {stmt : ℕ} : (stmt, b) ∈ genPoints (linearSeq s) ↔
    ∃ e e', FirstTouch s b e e' ∧ e.stmt = stmt := by
  rw [genPoints, mem_firstOnly_flatMap]
  constructor
  · rintro ⟨pre, e, post, hseq, hfind, hpre⟩
    have he : e ∈ linearSeq s := by
      rw [hseq]
      simp
    obtain ⟨e', hp, hb, hst⟩ := exists_pairs_of_scopeTouches he (List.mem_of_find?_eq_some hfind)
    refine ⟨e, e', ⟨hp, hb, ?_⟩, hst.symm⟩
    intro f f' hf hb'
    by_contra hlt
    apply hpre f ((mem_before_iff hseq hf.opening).2 (not_le.1 hlt)) (f'.stmt, b) _ rfl
    rw [scopeTouches_of_pairs hf]
    exact List.mem_map.2 ⟨b, hb', rfl⟩
  · rintro ⟨e, e', hft, rfl⟩
    obtain ⟨pre, post, hseq⟩ := List.append_of_mem hft.pairs.opening
    refine ⟨pre, e, post, hseq, ?_, ?_⟩
    · rw [scopeTouches_of_pairs hft.pairs, find?_touches]
      exact ⟨hft.touched, by rw [hft.pairs.stmt]⟩
    · intro x hx p hp hpb
      have hxs : x ∈ linearSeq s := by
        rw [hseq]
        exact List.mem_append_left _ hx
      obtain ⟨x', hxp, hc, -⟩ := exists_pairs_of_scopeTouches hxs hp
      rw [hpb] at hc
      exact absurd (hft.first x x' hxp hc) (not_le.2 ((mem_before_iff hseq hxs).1 hx))

theorem mem_killPoints_iff {stmt : ℕ} : (stmt, b) ∈ killPoints (linearSeq s) ↔
    ∃ e e', LastTouch s b e e' ∧ e.stmt = stmt := by
  rw [killPoints, mem_firstOnly_flatMap]
  constructor
  · rintro ⟨post, e', pre, hrev, hfind, hpost⟩
    have hseq : linearSeq s = pre.reverse ++ e' :: post.reverse := by
      rw [← List.reverse_reverse (linearSeq s), hrev]
      simp
    have he : e' ∈ linearSeq s := by
      rw [hseq]
      simp
    obtain ⟨hb, hst⟩ := find?_touches.1 hfind
    obtain ⟨e, hp⟩ := exists_pairs_of_touched he hb
    refine ⟨e, e', ⟨hp, hb, ?_⟩, ?_⟩
    · intro f f' hf hb'
      by_contra hlt
      have hm := (mem_after_iff hseq hf.closing).2 (not_le.1 hlt)
      exact hpost f' (List.mem_reverse.1 hm) (f'.stmt, b) (List.mem_map.2 ⟨b, hb', rfl⟩) rfl
    · rw [← hp.stmt]
      exact (congrArg Prod.fst hst).symm
  · rintro ⟨e, e', hlt, rfl⟩
    obtain ⟨pre, post, hseq⟩ := List.append_of_mem hlt.pairs.closing
    refine ⟨post.reverse, e', pre.reverse, ?_, ?_, ?_⟩
    · rw [hseq]
      simp
    · exact find?_touches.2 ⟨hlt.touched, by rw [hlt.pairs.stmt]⟩
    · intro x hx p hp hpb
      have hxs : x ∈ linearSeq s := by
        rw [hseq]
        exact List.mem_append_right _ (List.mem_cons_of_mem _ (List.mem_reverse.1 hx))
      obtain ⟨c, hc, rfl⟩ := List.mem_map.1 hp
      obtain rfl : c = b := hpb
      obtain ⟨x₀, hxp⟩ := exists_pairs_of_touched hxs hc
      have hle := hlt.last x₀ x hxp hc
      exact absurd ((mem_after_iff hseq hxs).1 (List.mem_reverse.1 hx)) (not_lt.2 hle)

theorem FirstTouch.unique {e e' f f' : Entry} (h : FirstTouch s b e e') (h' : FirstTouch s b f f') :
    e = f ∧ e' = f' := by
  have hle := h.first f f' h'.pairs h'.touched
  have hge := h'.first e e' h.pairs h.touched
  obtain rfl := eq_of_pos_eq h.pairs.opening h'.pairs.opening (le_antisymm hle hge)
  exact h.pairs.unique h'.pairs rfl

theorem LastTouch.unique {e e' f f' : Entry} (h : LastTouch s b e e') (h' : LastTouch s b f f') :
    e = f ∧ e' = f' := by
  have hle := h'.last e e' h.pairs h.touched
  have hge := h.last f f' h'.pairs h'.touched
  obtain rfl := eq_of_pos_eq h.pairs.closing h'.pairs.closing (le_antisymm hle hge)
  exact h.pairs.unique h'.pairs (by rw [← h.pairs.stmt, h'.pairs.stmt])

theorem exists_firstTouch {e e' : Entry} (h : Pairs (linearSeq s) e e') (hb : b ∈ e'.touched) :
    ∃ f f', FirstTouch s b f f' := by
  have hmem : (e'.stmt, b) ∈ scopeTouches (linearSeq s) e := by
    rw [scopeTouches_of_pairs h]
    exact List.mem_map.2 ⟨b, hb, rfl⟩
  obtain ⟨stmt, hgen⟩ := exists_mem_firstOnly h.opening hmem rfl
  obtain ⟨f, f', hf, -⟩ := mem_genPoints_iff.1 hgen
  exact ⟨f, f', hf⟩

theorem exists_lastTouch {e e' : Entry} (h : Pairs (linearSeq s) e e') (hb : b ∈ e'.touched) :
    ∃ l l', LastTouch s b l l' := by
  obtain ⟨stmt, hkill⟩ := exists_mem_firstOnly (f := touches) (List.mem_reverse.2 h.closing)
    (List.mem_map.2 ⟨b, hb, rfl⟩) rfl
  obtain ⟨l, l', hl, -⟩ := mem_killPoints_iff.1 hkill
  exact ⟨l, l', hl⟩

/-! ## Levels -/

/-- Every entry is an end of a scope. -/
theorem exists_pairs {x : Entry} (hx : x ∈ linearSeq s) :
    ∃ e e', Pairs (linearSeq s) e e' ∧ (x = e ∨ x = e') := by
  have hn := linear_nested s 0 0
  rcases le_total 0 x.scopePairOffset with h | h
  · obtain ⟨e', hp⟩ := hn.pair x hx h
    exact ⟨x, e', hp, .inl rfl⟩
  · obtain ⟨e, hp⟩ := hn.paired x hx h
    exact ⟨e, x, hp, .inr rfl⟩

/-- The entries of a statement are the two ends of its scope. -/
theorem Pairs.eq_or_eq {e e' x : Entry} (h : Pairs (linearSeq s) e e') (hx : x ∈ linearSeq s)
    (hst : x.stmt = e.stmt) : x = e ∨ x = e' := by
  obtain ⟨f, f', hf, hxf⟩ := exists_pairs hx
  have hfe : f.stmt = e.stmt := by
    rcases hxf with rfl | rfl
    · exact hst
    · rw [← hf.stmt, hst]
  obtain ⟨rfl, rfl⟩ := hf.unique h hfe
  exact hxf

theorem levelOf_linearSeq {e : Entry} (he : e ∈ linearSeq s) :
    levelOf (linearSeq s) e.stmt = some e.level := by
  rw [levelOf]
  cases hfind : (linearSeq s).find? (fun x => x.stmt = e.stmt) with
  | none =>
    rw [List.find?_eq_none] at hfind
    exact absurd (by simp) (hfind e he)
  | some x =>
    have hst : x.stmt = e.stmt := by simpa using List.find?_some hfind
    have hx := List.mem_of_find?_eq_some hfind
    obtain ⟨f, f', hf, hef⟩ := exists_pairs he
    have hxst : x.stmt = f.stmt := by
      rcases hef with rfl | rfl
      · exact hst
      · rw [hst, hf.stmt]
    rcases hef with rfl | rfl <;> rcases hf.eq_or_eq hx hxst with rfl | rfl <;>
      simp [hf.level]

theorem FirstTouch.genLevel {e e' : Entry} (h : FirstTouch s b e e') :
    genLevel (linearSeq s) b = some e.level := by
  have hmem : (e.stmt, b) ∈ genPoints (linearSeq s) := mem_genPoints_iff.2 ⟨e, e', h, rfl⟩
  rw [SharedMem.genLevel]
  cases hfind : (genPoints (linearSeq s)).find? (fun p => p.2 = b) with
  | none =>
    rw [List.find?_eq_none] at hfind
    exact absurd (by simp) (hfind _ hmem)
  | some p =>
    obtain ⟨stmt, c⟩ := p
    obtain rfl : c = b := by simpa using List.find?_some hfind
    obtain ⟨f, f', hf, rfl⟩ := mem_genPoints_iff.1 (List.mem_of_find?_eq_some hfind)
    obtain ⟨rfl, -⟩ := h.unique hf
    exact levelOf_linearSeq h.pairs.opening

/-! ## The search outward -/

/-- An entry of a statement that is the first or the last to touch some buffer. -/
def Eventful (s : Stmt) (x : Entry) : Prop :=
  x ∈ linearSeq s ∧ ∃ b e e', (FirstTouch s b e e' ∨ LastTouch s b e e') ∧ e.stmt = x.stmt

theorem mem_genKillSeq_iff {x : Entry} : x ∈ genKillSeq (linearSeq s) ↔ Eventful s x := by
  simp only [genKillSeq, List.mem_filter, Bool.or_eq_true, List.any_eq_true, decide_eq_true_eq,
    Prod.exists, Eventful]
  apply and_congr_right
  intro _
  constructor
  · rintro (⟨stmt, b, hp, hst⟩ | ⟨stmt, b, hp, hst⟩)
    · obtain ⟨e, e', he, rfl⟩ := mem_genPoints_iff.1 hp
      exact ⟨b, e, e', .inl he, hst⟩
    · obtain ⟨e, e', he, rfl⟩ := mem_killPoints_iff.1 hp
      exact ⟨b, e, e', .inr he, hst⟩
  · rintro ⟨b, e, e', he | he, hst⟩
    · exact .inl ⟨e.stmt, b, mem_genPoints_iff.2 ⟨e, e', he, rfl⟩, hst⟩
    · exact .inr ⟨e.stmt, b, mem_killPoints_iff.2 ⟨e, e', he, rfl⟩, hst⟩

theorem Eventful.of_stmt_eq {x y : Entry} (h : Eventful s x) (hy : y ∈ linearSeq s)
    (hst : y.stmt = x.stmt) : Eventful s y := by
  obtain ⟨-, b, e, e', he, hx⟩ := h
  exact ⟨hy, b, e, e', he, by rw [hx, hst]⟩

/-- From `l` on, `stop` is the last eventful entry before the next one at `level`. -/
structure StopsAt (s : Stmt) (level : ℕ) (l stop : Entry) : Prop where
  event : Eventful s stop
  from_le : l.pos ≤ stop.pos
  passed : ∀ x, Eventful s x → l.pos < x.pos → x.pos ≤ stop.pos → x.level ≠ level
  stopped : ∀ x, Eventful s x → stop.pos < x.pos →
    ∃ y, Eventful s y ∧ stop.pos < y.pos ∧ y.pos ≤ x.pos ∧ y.level = level

theorem pairwise_genKillSeq : (genKillSeq (linearSeq s)).Pairwise fun e e' => e.pos < e'.pos :=
  (pairwise_of_consecutive (linear_consecutive s 0 0)).filter _

/-- The eventful entries after a place in the sequence of them. -/
theorem mem_rest_iff {pre rest : List Entry} {h x : Entry}
    (hseq : genKillSeq (linearSeq s) = pre ++ h :: rest) :
    x ∈ rest ↔ Eventful s x ∧ h.pos < x.pos := by
  have hsorted := pairwise_genKillSeq (s := s)
  rw [hseq, List.pairwise_append, List.pairwise_cons] at hsorted
  obtain ⟨-, ⟨hrest, -⟩, hpre⟩ := hsorted
  rw [← mem_genKillSeq_iff, hseq, List.mem_append, List.mem_cons]
  constructor
  · intro hx
    exact ⟨.inr (.inr hx), hrest x hx⟩
  · rintro ⟨hx | rfl | hx, hlt⟩
    · exact absurd (hpre x hx h List.mem_cons_self) (not_lt.2 hlt.le)
    · exact absurd hlt (lt_irrefl _)
    · exact hx

theorem exists_stopsAt (level : ℕ) : ∀ {rest pre : List Entry} {h : Entry},
    genKillSeq (linearSeq s) = pre ++ h :: rest → ∃ stop, StopsAt s level h stop := by
  intro rest
  induction rest with
  | nil =>
    intro pre h hseq
    have hmem : Eventful s h := mem_genKillSeq_iff.1 (by rw [hseq]; simp)
    refine ⟨h, hmem, le_rfl, ?_, ?_⟩
    · intro x _ hlt hle
      omega
    · intro x hx hlt
      exact absurd ((mem_rest_iff hseq).2 ⟨hx, hlt⟩) List.not_mem_nil
  | cons n rest ih =>
    intro pre h hseq
    have hmem : Eventful s h := mem_genKillSeq_iff.1 (by rw [hseq]; simp)
    have hseq' : genKillSeq (linearSeq s) = (pre ++ [h]) ++ n :: rest := by
      rw [hseq]
      simp
    have hn := (mem_rest_iff hseq).1 List.mem_cons_self
    -- what is after `h` is `n` or after `n`
    have hnext : ∀ x, Eventful s x → h.pos < x.pos → x = n ∨ n.pos < x.pos := by
      intro x hx hlt
      rcases List.mem_cons.1 ((mem_rest_iff hseq).2 ⟨hx, hlt⟩) with rfl | hx'
      · exact .inl rfl
      · exact .inr ((mem_rest_iff hseq').1 hx').2
    by_cases hlevel : n.level = level
    · refine ⟨h, hmem, le_rfl, ?_, ?_⟩
      · intro x _ hlt hle
        omega
      · intro x hx hlt
        refine ⟨n, hn.1, hn.2, ?_, hlevel⟩
        rcases hnext x hx hlt with rfl | hlt'
        · exact le_rfl
        · exact hlt'.le
    · obtain ⟨stop, hstop⟩ := ih hseq'
      refine ⟨stop, hstop.event, hn.2.le.trans hstop.from_le, ?_, hstop.stopped⟩
      intro x hx hlt hle
      rcases hnext x hx hlt with rfl | hlt'
      · exact hlevel
      · exact hstop.passed x hx hlt' hle

theorem lastStmtAtLevel_eq {level : ℕ} {stop : Entry} : ∀ {rest pre : List Entry} {h : Entry},
    genKillSeq (linearSeq s) = pre ++ h :: rest → StopsAt s level h stop →
      lastStmtAtLevel level (h :: rest) = some stop.stmt := by
  intro rest
  induction rest with
  | nil =>
    intro pre h hseq hstop
    have hh : Eventful s h := mem_genKillSeq_iff.1 (by rw [hseq]; simp)
    have heq : stop = h := by
      rcases hstop.from_le.eq_or_lt with heq | hlt
      · exact eq_of_pos_eq hstop.event.1 hh.1 heq.symm
      · exact absurd ((mem_rest_iff hseq).2 ⟨hstop.event, hlt⟩) List.not_mem_nil
    rw [heq, lastStmtAtLevel]
  | cons n rest ih =>
    intro pre h hseq hstop
    have hh : Eventful s h := mem_genKillSeq_iff.1 (by rw [hseq]; simp)
    have hseq' : genKillSeq (linearSeq s) = (pre ++ [h]) ++ n :: rest := by
      rw [hseq]
      simp
    have hn := (mem_rest_iff hseq).1 List.mem_cons_self
    rw [lastStmtAtLevel]
    split
    case isTrue hlevel =>
      have hlt : stop.pos < n.pos := by
        by_contra hge
        exact hstop.passed n hn.1 hn.2 (not_lt.1 hge) hlevel
      have heq : stop = h := by
        rcases hstop.from_le.eq_or_lt with heq | hlt'
        · exact eq_of_pos_eq hstop.event.1 hh.1 heq.symm
        · rcases List.mem_cons.1 ((mem_rest_iff hseq).2 ⟨hstop.event, hlt'⟩) with rfl | hx
          · exact absurd hlt (lt_irrefl _)
          · exact absurd ((mem_rest_iff hseq').1 hx).2 (not_lt.2 hlt.le)
      rw [heq]
    case isFalse hlevel =>
      have hle : n.pos ≤ stop.pos := by
        by_contra hlt
        obtain ⟨y, hy, hsy, hyn, hyl⟩ := hstop.stopped n hn.1 (not_le.1 hlt)
        have hhy := hstop.from_le.trans_lt hsy
        rcases List.mem_cons.1 ((mem_rest_iff hseq).2 ⟨hy, hhy⟩) with rfl | hx
        · exact hlevel hyl
        · exact absurd ((mem_rest_iff hseq').1 hx).2 (not_lt.2 hyn)
      apply ih hseq'
      refine ⟨hstop.event, hle, ?_, hstop.stopped⟩
      intro x hx hlt hxs
      exact hstop.passed x hx (hn.2.trans hlt) hxs

end Touches

end TileLangNpuir.SharedMem
