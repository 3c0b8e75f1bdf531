import Mathlib.Data.List.TakeWhile
import TileLangNpuir.SharedMem.Liveness

/-!
# The moved kill points

The loop over `event_map_` visits the statements in an order nobody chose, and a kill that it has
moved may be met again later. It is then moved to where it is, so that what comes out does not
depend on the order (`mem_reorder_iff`).
-/

namespace TileLangNpuir.SharedMem

section Reorder

variable {s : Stmt} {b : ℕ}

/-! ## One move -/

/-- The search from the beginning of a scope is the search from its end. -/
theorem StopsAt.of_closing {level : ℕ} {e e' stop : Entry} (h : StopsAt s level e' stop)
    (hp : Pairs (linearSeq s) e e') (hlt : level < e.level) : StopsAt s level e stop := by
  refine ⟨h.event, hp.pos_le.trans h.from_le, ?_, h.stopped⟩
  intro x hx hex hxs
  rcases Nat.lt_or_ge e'.pos x.pos with hlt' | hge
  · exact h.passed x hx hlt' hxs
  · have := hp.inside x hx.1 hex.le hge
    omega

/-- The search begins where the statement does. -/
theorem dropWhile_genKillSeq {pre rest : List Entry} {e e' : Entry}
    (hp : Pairs (linearSeq s) e e') (hseq : genKillSeq (linearSeq s) = pre ++ e :: rest) :
    (genKillSeq (linearSeq s)).dropWhile (fun x => x.stmt ≠ e.stmt) = e :: rest := by
  have hsorted := pairwise_genKillSeq (s := s)
  have hpre : ∀ x ∈ pre, decide (x.stmt ≠ e.stmt) = true := by
    intro x hx
    rw [decide_eq_true_eq]
    intro hst
    rw [hseq, List.pairwise_append] at hsorted
    have hlt := hsorted.2.2 x hx e List.mem_cons_self
    have hxs : x ∈ linearSeq s := by
      have hx' : x ∈ genKillSeq (linearSeq s) := by
        rw [hseq]
        exact List.mem_append_left _ hx
      exact (mem_genKillSeq_iff.1 hx').1
    have := hp.pos_le
    rcases hp.eq_or_eq hxs hst with rfl | rfl <;> omega
  rw [hseq, List.dropWhile_append_of_pos hpre, List.dropWhile_cons_of_neg (by simp)]

theorem lastStmtAtLevel_target {level : ℕ} {e e' stop : Entry} (hp : Pairs (linearSeq s) e e')
    (he : Eventful s e) (hlt : level < e.level) (h : StopsAt s level e' stop) :
    lastStmtAtLevel level ((genKillSeq (linearSeq s)).dropWhile fun x => x.stmt ≠ e.stmt) =
      some stop.stmt := by
  obtain ⟨pre, rest, hseq⟩ := List.append_of_mem (mem_genKillSeq_iff.2 he)
  rw [dropWhile_genKillSeq hp hseq]
  exact lastStmtAtLevel_eq hseq (h.of_closing hp hlt)

/-- Where the search stops on a deeper level, it stops at the end of a scope. -/
theorem StopsAt.closing {level : ℕ} {l stop e e' : Entry} (h : StopsAt s level l stop)
    (hlt : level < stop.level) (hp : Pairs (linearSeq s) e e') (hst : stop.stmt = e.stmt) :
    stop = e' := by
  rcases hp.eq_or_eq h.event.1 hst with rfl | rfl
  · have he' : Eventful s e' := h.event.of_stmt_eq hp.closing hp.stmt
    rcases hp.pos_le.eq_or_lt with heq | hlt'
    · exact eq_of_pos_eq hp.opening hp.closing heq
    · -- the end of the scope is eventful too, and nothing in between is at `level`
      obtain ⟨y, hy, hsy, hye, hyl⟩ := h.stopped e' he' hlt'
      have := hp.inside y hy.1 hsy.le hye
      omega
  · rfl

/-- The statement a kill is moved to. -/
def moveStmt (seq : List Entry) (b stmt : ℕ) : ℕ :=
  match levelOf seq stmt, genLevel seq b with
  | some killLevel, some genLevel =>
    if genLevel < killLevel then
      (lastStmtAtLevel genLevel ((genKillSeq seq).dropWhile fun e => e.stmt ≠ stmt)).getD stmt
    else stmt
  | _, _ => stmt

theorem moveStmt_of_le {f f' e : Entry} (hf : FirstTouch s b f f') (he : e ∈ linearSeq s)
    (hle : e.level ≤ f.level) : moveStmt (linearSeq s) b e.stmt = e.stmt := by
  simp only [moveStmt, levelOf_linearSeq he, hf.genLevel, not_lt.2 hle, if_false]

theorem moveStmt_of_lt {f f' e e' stop : Entry} (hf : FirstTouch s b f f')
    (hp : Pairs (linearSeq s) e e') (he : Eventful s e) (hlt : f.level < e.level)
    (hstop : StopsAt s f.level e' stop) : moveStmt (linearSeq s) b e.stmt = stop.stmt := by
  simp only [moveStmt, levelOf_linearSeq hp.opening, hf.genLevel, hlt, if_true,
    lastStmtAtLevel_target hp he hlt hstop, Option.getD_some]

/-- A kill that has been moved stays. -/
theorem moveStmt_moved {f f' l stop : Entry} (hf : FirstTouch s b f f')
    (hstop : StopsAt s f.level l stop) : moveStmt (linearSeq s) b stop.stmt = stop.stmt := by
  rcases Nat.lt_or_ge f.level stop.level with hlt | hge
  · obtain ⟨e, e', hp, hse⟩ := exists_pairs hstop.event.1
    have hst : stop.stmt = e.stmt := by
      rcases hse with rfl | rfl
      · rfl
      · exact hp.stmt
    obtain rfl := hstop.closing hlt hp hst
    have he : Eventful s e := hstop.event.of_stmt_eq hp.opening hst.symm
    rw [hst]
    have hself : StopsAt s f.level stop stop :=
      ⟨hstop.event, le_rfl, fun x _ hlt' hle => absurd hlt' (not_lt.2 hle), hstop.stopped⟩
    rw [moveStmt_of_lt hf hp he (by rw [← hp.level]; exact hlt) hself, hst]
  · exact moveStmt_of_le hf hstop.event.1 hge

/-! ## The loop -/

/-- What the loop keeps: a buffer has one kill, at a statement with an event. -/
structure KillsOnce (seq : List Entry) (kill : List (ℕ × ℕ)) : Prop where
  once : (kill.map Prod.snd).Nodup
  event : ∀ p ∈ kill, ∃ e ∈ genKillSeq seq, e.stmt = p.1

theorem KillsOnce.eq {seq : List Entry} {kill : List (ℕ × ℕ)} {stmt stmt' : ℕ}
    (h : KillsOnce seq kill) (hp : (stmt, b) ∈ kill) (hp' : (stmt', b) ∈ kill) : stmt = stmt' := by
  have := List.inj_on_of_nodup_map h.once hp hp' rfl
  exact congrArg Prod.fst this

theorem exists_lastStmtAtLevel (level : ℕ) : ∀ {es : List Entry}, es ≠ [] →
    ∃ e ∈ es, lastStmtAtLevel level es = some e.stmt := by
  intro es hne
  induction es with
  | nil => exact absurd rfl hne
  | cons e rest ih =>
    cases rest with
    | nil => exact ⟨e, List.mem_cons_self, rfl⟩
    | cons n rest =>
      rw [lastStmtAtLevel]
      split
      · exact ⟨e, List.mem_cons_self, rfl⟩
      · obtain ⟨x, hx, heq⟩ := ih (List.cons_ne_nil _ _)
        exact ⟨x, List.mem_cons_of_mem _ hx, heq⟩

/-- The search finds a statement with an event. -/
theorem exists_target {seq : List Entry} {stmt : ℕ} (level : ℕ)
    (h : ∃ e ∈ genKillSeq seq, e.stmt = stmt) :
    ∃ e ∈ genKillSeq seq,
      lastStmtAtLevel level ((genKillSeq seq).dropWhile fun e => e.stmt ≠ stmt) = some e.stmt := by
  obtain ⟨e, he, hst⟩ := h
  have hne : (genKillSeq seq).dropWhile (fun e => e.stmt ≠ stmt) ≠ [] := by
    intro hnil
    rw [List.dropWhile_eq_nil_iff] at hnil
    have := hnil e he
    simp [hst] at this
  obtain ⟨x, hx, heq⟩ := exists_lastStmtAtLevel level hne
  exact ⟨x, (List.dropWhile_sublist _).subset hx, heq⟩

theorem moveKill_eq {seq : List Entry} {kill : List (ℕ × ℕ)} {stmt : ℕ} (h : KillsOnce seq kill)
    (hp : (stmt, b) ∈ kill) : moveKill seq stmt kill b = kill ∧ moveStmt seq b stmt = stmt ∨
      moveKill seq stmt kill b = kill.erase (stmt, b) ++ [(moveStmt seq b stmt, b)] ∧
        ∃ e ∈ genKillSeq seq, e.stmt = moveStmt seq b stmt := by
  rw [moveKill, moveStmt]
  cases levelOf seq stmt with
  | none => exact .inl ⟨rfl, rfl⟩
  | some killLevel =>
    cases genLevel seq b with
    | none => exact .inl ⟨rfl, rfl⟩
    | some genLevel =>
      dsimp only
      split
      · obtain ⟨e, he, htarget⟩ := exists_target genLevel (h.event _ hp)
        rw [htarget]
        exact .inr ⟨rfl, e, he, rfl⟩
      · exact .inl ⟨rfl, rfl⟩

/-- The step lemma: one killed buffer of a statement. -/
theorem KillsOnce.moveKill {seq : List Entry} {kill : List (ℕ × ℕ)} {stmt : ℕ}
    (h : KillsOnce seq kill) (hp : (stmt, b) ∈ kill) :
    KillsOnce seq (moveKill seq stmt kill b) ∧
      ∀ st c, (st, c) ∈ SharedMem.moveKill seq stmt kill b ↔
        c = b ∧ st = moveStmt seq b stmt ∨ c ≠ b ∧ (st, c) ∈ kill := by
  rcases moveKill_eq h hp with ⟨heq, hst⟩ | ⟨heq, he⟩
  · rw [heq, hst]
    refine ⟨h, fun st c => ?_⟩
    by_cases hc : c = b
    · subst hc
      simp only [true_and, ne_eq, not_true_eq_false, false_and, or_false]
      constructor
      · intro hm
        exact h.eq hm hp
      · rintro rfl
        exact hp
    · simp [hc]
  · rw [heq]
    have hnodup : kill.Nodup := h.once.of_map
    have hperm := List.perm_cons_erase hp
    constructor
    · constructor
      · have hmap : ((kill.erase (stmt, b) ++ [(moveStmt seq b stmt, b)]).map Prod.snd).Perm
            (kill.map Prod.snd) := by
          rw [List.map_append]
          exact (List.perm_append_singleton _ _).trans (hperm.map Prod.snd).symm
        exact hmap.nodup_iff.2 h.once
      · intro p hmem
        rcases List.mem_append.1 hmem with hm | hm
        · exact h.event p (List.mem_of_mem_erase hm)
        · rw [List.mem_singleton.1 hm]
          exact he
    · intro st c
      rw [List.mem_append, List.mem_singleton, hnodup.mem_erase_iff, Prod.mk.injEq]
      by_cases hc : c = b
      · subst hc
        simp only [and_true, true_and, ne_eq, not_true_eq_false, false_and, or_false, Prod.mk.injEq]
        constructor
        · rintro (⟨hne, hm⟩ | rfl)
          · exact absurd (h.eq hm hp) hne
          · rfl
        · exact .inr
      · simp [hc]

/-- The killed buffers of a statement, one after the other. -/
theorem KillsOnce.foldl_moveKill {seq : List Entry} {stmt : ℕ} : ∀ {bs : List ℕ}
    {kill : List (ℕ × ℕ)}, KillsOnce seq kill → bs.Nodup → (∀ b ∈ bs, (stmt, b) ∈ kill) →
      KillsOnce seq (bs.foldl (SharedMem.moveKill seq stmt) kill) ∧
        ∀ st c, (st, c) ∈ bs.foldl (SharedMem.moveKill seq stmt) kill ↔
          c ∈ bs ∧ st = moveStmt seq c stmt ∨ c ∉ bs ∧ (st, c) ∈ kill := by
  intro bs
  induction bs with
  | nil =>
    intro kill h _ _
    exact ⟨h, by simp⟩
  | cons b bs ih =>
    intro kill h hnodup hmem
    rw [List.nodup_cons] at hnodup
    obtain ⟨hstep, hiff⟩ := h.moveKill (hmem b List.mem_cons_self)
    have hrest : ∀ c ∈ bs, (stmt, c) ∈ SharedMem.moveKill seq stmt kill b := by
      intro c hc
      refine (hiff stmt c).2 (.inr ⟨?_, hmem c (List.mem_cons_of_mem _ hc)⟩)
      rintro rfl
      exact hnodup.1 hc
    obtain ⟨hfold, hfiff⟩ := ih hstep hnodup.2 hrest
    refine ⟨hfold, fun st c => ?_⟩
    rw [List.foldl_cons, hfiff, hiff, List.mem_cons]
    by_cases hc : c = b
    · subst hc
      simp [hnodup.1]
    · simp [hc]

/-- The buffers of a statement. -/
theorem mem_filter_stmt {ps : List (ℕ × ℕ)} {stmt b : ℕ} :
    b ∈ (ps.filter fun p => p.1 = stmt).map (·.2) ↔ (stmt, b) ∈ ps := by
  simp only [List.mem_map, List.mem_filter, decide_eq_true_eq, Prod.exists]
  constructor
  · rintro ⟨st, c, ⟨hm, rfl⟩, rfl⟩
    exact hm
  · intro hm
    exact ⟨stmt, b, ⟨hm, rfl⟩, rfl⟩

theorem nodup_filter_stmt {ps : List (ℕ × ℕ)} (stmt : ℕ) (h : (ps.map Prod.snd).Nodup) :
    ((ps.filter fun p => p.1 = stmt).map (·.2)).Nodup :=
  h.sublist (List.filter_sublist.map _)

theorem KillsOnce.reorderStmt {seq : List Entry} {kill : List (ℕ × ℕ)} (h : KillsOnce seq kill)
    (stmt : ℕ) : KillsOnce seq (reorderStmt seq kill stmt) ∧
      ∀ st c, (st, c) ∈ SharedMem.reorderStmt seq kill stmt ↔
        ∃ st₀, (st₀, c) ∈ kill ∧ st = if st₀ = stmt then moveStmt seq c st₀ else st₀ := by
  obtain ⟨hfold, hiff⟩ :=
    h.foldl_moveKill (nodup_filter_stmt stmt h.once) fun c hc => mem_filter_stmt.1 hc
  refine ⟨hfold, fun st c => ?_⟩
  rw [SharedMem.reorderStmt, hiff, mem_filter_stmt]
  constructor
  · rintro (⟨hm, rfl⟩ | ⟨hm, hst⟩)
    · exact ⟨stmt, hm, by rw [if_pos rfl]⟩
    · refine ⟨st, hst, ?_⟩
      rw [if_neg]
      rintro rfl
      exact hm hst
  · rintro ⟨st₀, hst₀, rfl⟩
    split
    case isTrue heq =>
      subst heq
      exact .inl ⟨hst₀, rfl⟩
    case isFalse hne =>
      refine .inr ⟨?_, hst₀⟩
      intro hm
      exact hne (h.eq hst₀ hm)

/-- The run lemma: each buffer's kill goes its own way along the order. -/
theorem KillsOnce.foldl_reorderStmt {seq : List Entry} {order : List ℕ} : ∀ {kill : List (ℕ × ℕ)},
    KillsOnce seq kill → KillsOnce seq (order.foldl (SharedMem.reorderStmt seq) kill) ∧
      ∀ st c, (st, c) ∈ order.foldl (SharedMem.reorderStmt seq) kill ↔
        ∃ st₀, (st₀, c) ∈ kill ∧
          st = order.foldl (fun st o => if st = o then moveStmt seq c st else st) st₀ := by
  induction order with
  | nil =>
    intro kill h
    exact ⟨h, by simp⟩
  | cons o order ih =>
    intro kill h
    obtain ⟨hstep, hiff⟩ := h.reorderStmt o
    obtain ⟨hfold, hfiff⟩ := ih hstep
    refine ⟨hfold, fun st c => ?_⟩
    rw [List.foldl_cons, hfiff]
    constructor
    · rintro ⟨st₁, hm, rfl⟩
      obtain ⟨st₀, hm₀, rfl⟩ := (hiff st₁ c).1 hm
      exact ⟨st₀, hm₀, rfl⟩
    · rintro ⟨st₀, hm₀, rfl⟩
      exact ⟨_, (hiff _ c).2 ⟨st₀, hm₀, rfl⟩, rfl⟩

/-- A move that is not undone is made once, wherever its statement stands in the order. -/
theorem foldl_move {g : ℕ → ℕ} {st target : ℕ} (hmove : g st = target) (hstay : g target = target) :
    ∀ {order : List ℕ}, st ∈ order →
      order.foldl (fun st o => if st = o then g st else st) st = target := by
  have hkeep : ∀ order : List ℕ,
      order.foldl (fun st o => if st = o then g st else st) target = target := by
    intro order
    induction order with
    | nil => rfl
    | cons o order ih =>
      rw [List.foldl_cons]
      split
      · rw [hstay]
        exact ih
      · exact ih
  intro order
  induction order with
  | nil =>
    intro h
    cases h
  | cons o order ih =>
    intro h
    rw [List.foldl_cons]
    split
    · rw [hmove]
      exact hkeep order
    case isFalse hne => exact ih ((List.mem_cons.1 h).resolve_left hne)

/-! ## What comes out -/

/-- The statement at whose end a buffer is killed. -/
inductive KillStmt (s : Stmt) (b : ℕ) : ℕ → Prop
  /-- the last touch, when it is not deeper than the first -/
  | stays {f f' l l' : Entry} : FirstTouch s b f f' → LastTouch s b l l' → l.level ≤ f.level →
    KillStmt s b l.stmt
  /-- the last statement before the next one on the level of the first touch -/
  | moves {f f' l l' stop : Entry} : FirstTouch s b f f' → LastTouch s b l l' → f.level < l.level →
    StopsAt s f.level l' stop → KillStmt s b stop.stmt

theorem killPoints_killsOnce : KillsOnce (linearSeq s) (killPoints (linearSeq s)) := by
  refine ⟨nodup_firstOnly, ?_⟩
  rintro ⟨stmt, b⟩ hp
  obtain ⟨e, e', he, rfl⟩ := mem_killPoints_iff.1 hp
  exact ⟨e, mem_genKillSeq_iff.2 ⟨he.pairs.opening, b, e, e', .inr he, rfl⟩, rfl⟩

theorem reorder_killsOnce {order : List ℕ} :
    KillsOnce (linearSeq s) (reorder (linearSeq s) order) :=
  killPoints_killsOnce.foldl_reorderStmt.1

theorem mem_reorder_iff {order : List ℕ} (horder : ∀ e ∈ linearSeq s, e.stmt ∈ order) {stmt : ℕ} :
    (stmt, b) ∈ reorder (linearSeq s) order ↔ KillStmt s b stmt := by
  rw [reorder, killPoints_killsOnce.foldl_reorderStmt.2]
  -- where the kill of a buffer goes from its last touch
  have hgoes : ∀ {l l' : Entry}, LastTouch s b l l' → KillStmt s b
      (order.foldl (fun st o => if st = o then moveStmt (linearSeq s) b st else st) l.stmt) := by
    intro l l' hl
    obtain ⟨f, f', hf⟩ := exists_firstTouch hl.pairs hl.touched
    have hmem := horder l hl.pairs.opening
    rcases Nat.lt_or_ge f.level l.level with hlt | hge
    · have hl' : Eventful s l' := ⟨hl.pairs.closing, b, l, l', .inr hl, hl.pairs.stmt.symm⟩
      obtain ⟨pre, rest, hseq⟩ := List.append_of_mem (mem_genKillSeq_iff.2 hl')
      obtain ⟨stop, hstop⟩ := exists_stopsAt f.level hseq
      have hev : Eventful s l := hl'.of_stmt_eq hl.pairs.opening hl.pairs.stmt.symm
      rw [foldl_move (moveStmt_of_lt hf hl.pairs hev hlt hstop) (moveStmt_moved hf hstop) hmem]
      exact .moves hf hl hlt hstop
    · have hstay := moveStmt_of_le hf hl.pairs.opening hge
      rw [foldl_move hstay hstay hmem]
      exact .stays hf hl hge
  constructor
  · rintro ⟨st₀, hkill, rfl⟩
    obtain ⟨l, l', hl, rfl⟩ := mem_killPoints_iff.1 hkill
    exact hgoes hl
  · intro hk
    cases hk with
    | stays hf hl hle =>
      have hstay := moveStmt_of_le hf hl.pairs.opening hle
      refine ⟨_, mem_killPoints_iff.2 ⟨_, _, hl, rfl⟩, ?_⟩
      exact (foldl_move hstay hstay (horder _ hl.pairs.opening)).symm
    | @moves f f' l l' stop hf hl hlt hstop =>
      have hev : Eventful s l := ⟨hl.pairs.opening, b, l, l', .inr hl, rfl⟩
      refine ⟨_, mem_killPoints_iff.2 ⟨_, _, hl, rfl⟩, ?_⟩
      exact (foldl_move (moveStmt_of_lt hf hl.pairs hev hlt hstop) (moveStmt_moved hf hstop)
        (horder _ hl.pairs.opening)).symm

/-- A buffer is generated once. -/
theorem GenPoint.unique {g g' : ℕ} (h : GenPoint (linearSeq s) b g)
    (h' : GenPoint (linearSeq s) b g') : g = g' := by
  have hn := linear_nested s 0 0
  obtain ⟨e, he, hopens, hgen, rfl⟩ := h
  obtain ⟨e', he', hopens', hgen', rfl⟩ := h'
  obtain ⟨f, f', hf, hst⟩ := mem_genPoints_iff.1 hgen
  obtain ⟨f₁, f₁', hf₁, hst'⟩ := mem_genPoints_iff.1 hgen'
  obtain ⟨rfl, -⟩ := hf.unique hf₁
  rw [← hn.stmt e he hopens, ← hn.stmt e' he' hopens', ← hst, ← hst']

/-- A buffer is killed once. -/
theorem KillPoint.unique {order : List ℕ} {k k' : ℕ} (h : KillPoint (linearSeq s) order b k)
    (h' : KillPoint (linearSeq s) order b k') : k = k' := by
  have hn := linear_nested s 0 0
  obtain ⟨e, he, hcloses, hkill, rfl⟩ := h
  obtain ⟨e', he', hcloses', hkill', rfl⟩ := h'
  obtain ⟨f, hf⟩ := hn.paired e he hcloses
  obtain ⟨f', hf'⟩ := hn.paired e' he' hcloses'
  have hst := reorder_killsOnce.eq hkill hkill'
  obtain ⟨-, rfl⟩ := hf.unique hf' (by rw [← hf.stmt, hst, hf'.stmt])
  rfl

end Reorder

end TileLangNpuir.SharedMem
