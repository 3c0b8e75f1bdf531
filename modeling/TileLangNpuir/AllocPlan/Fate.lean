import TileLangNpuir.AllocPlan.Locator
import Mathlib.Order.Basic
import Mathlib.Tactic.Simps.Basic

/-!
# Where each buffer ends up

A buffer planned for a loop or block is listed in a block there, or waits for the
next block that the walk leaves, or is listed nowhere. `fate` reads this off the
function before the walk, and `plan_places_iff` says that the walk places every buffer
as it should exactly when its fate is to be listed.
-/

namespace TileLangNpuir.AllocPlan

variable {B : Type} [DecidableEq B]

/-! ## What is asked of the output -/

namespace Stmt

/-- How often the blocks of a statement list the buffer. -/
def listed (b : B) : Stmt B → ℕ
  | seq s t => s.listed b + t.listed b
  | forLoop body => body.listed b
  | block bufs body => bufs.count b + body.listed b
  | access _ => 0
  | dot _ _ _ _ => 0

/-- Every access of the buffer is in a block that lists it. -/
def encloses (b : B) : Stmt B → Bool
  | seq s t => s.encloses b && t.encloses b
  | forLoop body => body.encloses b
  | block bufs body => b ∈ bufs || body.encloses b
  | access c => c ≠ b
  | dot x y z _ => x ≠ b && y ≠ b && z ≠ b

/-- A dot call accumulates into the buffer without unconditional initialization, in
no loop of the statement. -/
def dotHere (b : B) : Stmt B → Bool
  | seq s t => s.dotHere b || t.dotHere b
  | forLoop _ => false
  | block _ body => body.dotHere b
  | access _ => false
  | dot _ _ c init => c = b && !init.unconditional

/-- No loop that is the innermost one around such a call has a block that lists the
buffer. -/
def outsideLoop (b : B) : Stmt B → Bool
  | seq s t => s.outsideLoop b && t.outsideLoop b
  | forLoop body => (!body.dotHere b || body.listed b = 0) && body.outsideLoop b
  | block _ body => body.outsideLoop b
  | access _ => true
  | dot _ _ _ _ => true

/-- The statement has a block. -/
def hasBlock : Stmt B → Bool
  | seq s t => s.hasBlock || t.hasBlock
  | forLoop body => body.hasBlock
  | block _ _ => true
  | access _ => false
  | dot _ _ _ _ => false

end Stmt

/-- The buffer is listed by one block, which has all its accesses and is in no
innermost loop that accumulates into it. -/
structure Placed (b : B) (s : Stmt B) : Prop where
  once : s.listed b = 1
  encloses : s.encloses b = true
  outside : s.outsideLoop b = true

/-! ## Fates -/

/-- What becomes of a buffer. -/
inductive Fate : Type where
  /-- listed where it should be -/
  | listed
  /-- waiting for the next block that is left -/
  | waiting
  /-- listed nowhere, or by the wrong block -/
  | astray
  deriving DecidableEq

/-- A fate, followed by a statement without accesses of the buffer: a block in it
takes the buffer before one around it can. -/
def Fate.andThen (hasBlock : Bool) : Fate → Fate
  | .waiting => if hasBlock then .astray else .waiting
  | r => r

/-- A fate seen from a loop around. -/
def Fate.inLoop (dotHere : Bool) : Fate → Fate
  | .listed => if dotHere then .astray else .listed
  | r => r

/-- A fate seen from a block around, which takes what waits. -/
def Fate.inBlock : Fate → Fate
  | .waiting => .listed
  | r => r

namespace PrimFunc

variable (f : PrimFunc B)

/-- The number of loops that have buffers planned for them. -/
def plannedLoops : Stmt B → ℤ
  | .seq s t => plannedLoops s + plannedLoops t
  | .forLoop body => (if f.buffersAt body = [] then 0 else 1) + plannedLoops body
  | .block _ body => plannedLoops body
  | .access _ => 0
  | .dot _ _ _ _ => 0

/-- Some loop of the statement, which is at this depth among the loops with planned
buffers, moves a buffer out. -/
def extracts : ℤ → Stmt B → Bool
  | depth, .seq s t => extracts depth s || extracts depth t
  | depth, .forLoop body =>
    if f.buffersAt body = [] then extracts depth body
    else extracts (depth + 1) body || (f.buffersAt body).any (f.extracted depth)
  | depth, .block _ body => extracts depth body
  | _, .access _ => false
  | _, .dot _ _ _ _ => false

/-- The fate of a buffer planned in a statement: `depth` loops with planned buffers
are around it, `seen` such loops have been entered before it, and `moved` says that
one of them has moved a buffer out. -/
def fate (b : B) : Stmt B → ℤ → ℤ → Bool → Fate
  | .seq s t, depth, seen, moved =>
    if s.held b (f.total b) then (fate b s depth seen moved).andThen t.hasBlock
    else fate b t depth (seen + f.plannedLoops s) (moved || f.extracts depth s)
  | .forLoop body, depth, seen, moved =>
    if f.isLca b body then
      if f.extracted depth b then .waiting
      -- once a buffer was moved out, only outermost and first loops get their block
      else if (moved || f.extracts depth (.forLoop body)) && depth ≠ 0 &&
          seen + f.plannedLoops body ≠ depth then .astray
      else Fate.listed.inLoop (body.dotHere b)
    else
      let own := if f.buffersAt body = [] then 0 else 1
      (fate b body (depth + own) (seen + own) moved).inLoop (body.dotHere b)
  | .block _ body, depth, seen, moved =>
    if f.isLca b body then
      -- the buffers of a block go to the first block that is left in it
      if body.hasBlock then .astray else .listed
    else (fate b body depth seen moved).inBlock
  | .access _, _, _, _ => .astray
  | .dot _ _ _ _, _, _, _ => .astray

end PrimFunc

/-! ## The walk, step by step -/

section Step

variable {f : PrimFunc B} {b : B}

/-- The planned buffers of a loop: some wait, the others are kept. -/
theorem foldl_placeBuffer (bufs kept : List B) (st : Locator B) (hmulti : st.multiForLoop = false) :
    bufs.foldl (placeBuffer f) (kept, st) =
      (kept ++ bufs.filter (fun c => !f.extracted st.currentForDepth c),
        { st with
          needExtract := st.needExtract || bufs.any (f.extracted st.currentForDepth)
          outerBuffers := st.outerBuffers ++ bufs.filter (f.extracted st.currentForDepth)
          allocBuffers := st.allocBuffers ++ bufs.filter (f.extracted st.currentForDepth) }) := by
  induction bufs generalizing kept st with
  | nil => simp
  | cons c bufs ih =>
    by_cases hc : f.extracted st.currentForDepth c = true
    · rw [List.foldl_cons, placeBuffer, if_pos hc, ih]
      · simp [hc, hmulti]
      · exact hmulti
    · rw [List.foldl_cons, placeBuffer, if_neg hc, if_neg fun h => by simp [hmulti] at h, ih]
      · simp [hc]
      · exact hmulti

/-- When the buffers that a loop keeps get their block. -/
def Locator.Rewrites (st : Locator B) : Prop :=
  st.needExtract = true →
    (st.currentForDepth = st.forDepth - 1 - st.mergeDepth ∧ st.forDepth ≠ 1) ∨
      st.currentForDepth = 0

omit [DecidableEq B] in
theorem rewriteBody_pos {kept : List B} {body : Stmt B} {st : Locator B}
    (hmulti : st.multiForLoop = false) (hkept : kept ≠ []) (h : st.Rewrites) :
    rewriteBody kept body st = (.block kept body, st) := by
  rw [rewriteBody]
  by_cases hext : st.needExtract = true
  · rw [if_pos hext]
    rcases h hext with hfirst | hzero
    · rw [if_pos ⟨hkept, hfirst⟩]
      simp [hmulti]
    · by_cases hfirst : kept ≠ [] ∧ st.currentForDepth = st.forDepth - 1 - st.mergeDepth ∧
          st.forDepth ≠ 1
      · rw [if_pos hfirst]
        simp [hmulti]
      · rw [if_neg hfirst, if_neg (by simp [hmulti]), if_pos ⟨hkept, hzero, by simp [hmulti]⟩]
        simp [hmulti]
  · rw [if_neg hext, if_pos hkept]

omit [DecidableEq B] in
theorem rewriteBody_neg {kept : List B} {body : Stmt B} {st : Locator B}
    (hmulti : st.multiForLoop = false) (h : ¬ (kept ≠ [] ∧ st.Rewrites)) :
    rewriteBody kept body st = (body, st) := by
  rw [rewriteBody]
  by_cases hext : st.needExtract = true
  · have hno : kept ≠ [] → ¬ ((st.currentForDepth = st.forDepth - 1 - st.mergeDepth ∧
        st.forDepth ≠ 1) ∨ st.currentForDepth = 0) := fun hkept hor => h ⟨hkept, fun _ => hor⟩
    rw [if_pos hext, if_neg fun hc => hno hc.1 (.inl hc.2), if_neg (by simp [hmulti]),
      if_neg fun hc => hno hc.1 (.inr hc.2.1)]
    simp [hmulti]
  · rw [if_neg hext, if_neg fun hkept => h ⟨hkept, fun hc => absurd hc hext⟩]

/-- What the walk does to the counters. -/
structure Counted (f : PrimFunc B) (s : Stmt B) (st st' : Locator B) : Prop where
  multi : st'.multiForLoop = false
  depth : st'.currentForDepth = st.currentForDepth
  seen : st'.forDepth - st'.mergeDepth = st.forDepth - st.mergeDepth + f.plannedLoops s
  merge : st.mergeDepth ≤ st'.mergeDepth
  moved : st'.needExtract = (st.needExtract || f.extracts st.currentForDepth s)

/-- The locator inside a loop with planned buffers. -/
@[simps]
def Locator.enter (st : Locator B) : Locator B :=
  { st with forDepth := st.forDepth + 1, currentForDepth := st.currentForDepth + 1 }

/-- The locator inside a loop without. -/
@[simps]
def Locator.merged (st : Locator B) : Locator B :=
  { st with forDepth := st.forDepth + 1, mergeDepth := st.mergeDepth + 1 }

/-- The locator after a loop, where some of its buffers are moved out. -/
@[simps]
def Locator.leave (f : PrimFunc B) (bufs : List B) (depth : ℤ) (st : Locator B) : Locator B :=
  { st with
    currentForDepth := depth
    needExtract := st.needExtract || bufs.any (f.extracted depth)
    outerBuffers := st.outerBuffers ++ bufs.filter (f.extracted depth)
    allocBuffers := st.allocBuffers ++ bufs.filter (f.extracted depth) }

/-- The locator inside a block. -/
@[simps]
def Locator.push (bufs : List B) (st : Locator B) : Locator B :=
  { st with allocBuffers := st.allocBuffers ++ bufs }

/-- A loop without planned buffers. -/
theorem visitStmt_merged {body : Stmt B} {st : Locator B} (hbufs : f.buffersAt body = []) :
    visitStmt f (.forLoop body) st =
      (.forLoop (visitStmt f body st.merged).1, (visitStmt f body st.merged).2) := by
  simp only [visitStmt, hbufs, if_true]
  rfl

/-- The body of a loop with planned buffers, in a block if it gets one. -/
def wrapped (kept : List B) (st : Locator B) (body : Stmt B) : Stmt B :=
  (rewriteBody kept body st).1

omit [DecidableEq B] in
theorem rewriteBody_snd {kept : List B} {body : Stmt B} {st : Locator B}
    (hmulti : st.multiForLoop = false) : (rewriteBody kept body st).2 = st := by
  by_cases h : kept ≠ [] ∧ st.Rewrites
  · rw [rewriteBody_pos hmulti h.1 h.2]
  · rw [rewriteBody_neg hmulti h]

/-- A loop with planned buffers. -/
theorem visitStmt_planned {body body' : Stmt B} {st st' : Locator B}
    (hbufs : f.buffersAt body ≠ []) (hr : visitStmt f body st.enter = (body', st'))
    (hcount : Counted f body st.enter st') :
    visitStmt f (.forLoop body) st =
      (.forLoop (wrapped ((f.buffersAt body).filter fun c => !f.extracted st.currentForDepth c)
        (st'.leave f (f.buffersAt body) st.currentForDepth) body'),
      st'.leave f (f.buffersAt body) st.currentForDepth) := by
  have hdepth : st'.currentForDepth - 1 = st.currentForDepth := by
    have h : st'.currentForDepth = st.currentForDepth + 1 := hcount.depth
    omega
  have hmulti := hcount.multi
  have hfold : (f.buffersAt body).foldl (placeBuffer f)
      ([], { st' with currentForDepth := st'.currentForDepth - 1 }) =
        ((f.buffersAt body).filter fun c => !f.extracted st.currentForDepth c,
          st'.leave f (f.buffersAt body) st.currentForDepth) := by
    rw [foldl_placeBuffer]
    swap
    · exact hmulti
    simp only [hdepth, List.nil_append]
    rfl
  have hmulti' : (st'.leave f (f.buffersAt body) st.currentForDepth).multiForLoop = false := hmulti
  rw [Locator.enter] at hr
  simp only [visitStmt, if_neg hbufs, hr, hfold]
  rw [rewriteBody_snd hmulti']
  rfl

/-- The counters after the walk over a statement. -/
theorem visitStmt_counted (f : PrimFunc B) (s : Stmt B) {st : Locator B} (hmulti : st.multiForLoop = false) :
    Counted f s st (visitStmt f s st).2 := by
  induction s generalizing st with
  | seq s t ihs iht =>
    have hs := ihs hmulti
    have ht := iht hs.multi
    refine ⟨ht.multi, ht.depth.trans hs.depth, ?_, Int.le_trans hs.merge ht.merge, ?_⟩
    · have h₁ := ht.seen
      have h₂ := hs.seen
      simp only [visitStmt, PrimFunc.plannedLoops]
      omega
    · simp only [visitStmt, PrimFunc.extracts]
      rw [ht.moved, hs.moved, hs.depth, Bool.or_assoc]
  | forLoop body ih =>
    by_cases hbufs : f.buffersAt body = []
    · have hb : Counted f body st.merged (visitStmt f body st.merged).2 := ih hmulti
      rw [visitStmt_merged hbufs]
      refine ⟨hb.multi, hb.depth, ?_, ?_, ?_⟩
      · have h := hb.seen
        simp only [PrimFunc.plannedLoops, hbufs, if_true, Locator.merged_forDepth,
          Locator.merged_mergeDepth] at h ⊢
        omega
      · have h := hb.merge
        simp only [Locator.merged_mergeDepth] at h
        show st.mergeDepth ≤ (visitStmt f body st.merged).2.mergeDepth
        omega
      · simp only [PrimFunc.extracts, hbufs, if_true]
        exact hb.moved
    · have hb : Counted f body st.enter (visitStmt f body st.enter).2 := ih hmulti
      rw [visitStmt_planned hbufs rfl hb]
      refine ⟨hb.multi, rfl, ?_, hb.merge, ?_⟩
      · have h := hb.seen
        simp only [PrimFunc.plannedLoops, if_neg hbufs, Locator.enter_forDepth,
          Locator.enter_mergeDepth, Locator.leave_forDepth, Locator.leave_mergeDepth] at h ⊢
        omega
      · simp only [PrimFunc.extracts, if_neg hbufs, Locator.leave_needExtract]
        rw [hb.moved, Bool.or_assoc]
        rfl
  | block bufs body ih =>
    have hb : Counted f body (st.push (f.buffersAt body))
        (visitStmt f body (st.push (f.buffersAt body))).2 := ih hmulti
    exact ⟨hb.multi, hb.depth, hb.seen, hb.merge, hb.moved⟩
  | access c => exact ⟨hmulti, rfl, by simp [visitStmt, PrimFunc.plannedLoops], Int.le_refl _, by
      simp [visitStmt, PrimFunc.extracts]⟩
  | dot x y z init => exact ⟨hmulti, rfl, by simp [visitStmt, PrimFunc.plannedLoops], Int.le_refl _, by
      simp [visitStmt, PrimFunc.extracts]⟩

omit [DecidableEq B] in
theorem wrapped_eq {kept : List B} {st : Locator B} (hmulti : st.multiForLoop = false)
    (body : Stmt B) :
    (kept ≠ [] ∧ st.Rewrites ∧ wrapped kept st body = .block kept body) ∨
      (¬ (kept ≠ [] ∧ st.Rewrites) ∧ wrapped kept st body = body) := by
  by_cases h : kept ≠ [] ∧ st.Rewrites
  · exact .inl ⟨h.1, h.2, by rw [wrapped, rewriteBody_pos hmulti h.1 h.2]⟩
  · exact .inr ⟨h, by rw [wrapped, rewriteBody_neg hmulti h]⟩

/-- Induction along the walk: every loop is merged or has planned buffers. -/
theorem visitStmt_induct {R : Stmt B → Locator B → Stmt B → Locator B → Prop}
    (hseq : ∀ s t st s' st' t' st'', Counted f s st st' → R s st s' st' → R t st' t' st'' →
      R (.seq s t) st (.seq s' t') st'')
    (hmerged : ∀ body st body' st', f.buffersAt body = [] → Counted f body st.merged st' →
      R body st.merged body' st' → R (.forLoop body) st (.forLoop body') st')
    (hplanned : ∀ body st body' st', f.buffersAt body ≠ [] → Counted f body st.enter st' →
      R body st.enter body' st' →
        R (.forLoop body) st
          (.forLoop (wrapped ((f.buffersAt body).filter fun c => !f.extracted st.currentForDepth c)
            (st'.leave f (f.buffersAt body) st.currentForDepth) body'))
          (st'.leave f (f.buffersAt body) st.currentForDepth))
    (hblock : ∀ bufs body st body' st', Counted f body (st.push (f.buffersAt body)) st' →
      R body (st.push (f.buffersAt body)) body' st' →
        R (.block bufs body) st (.block st'.allocBuffers body') { st' with allocBuffers := [] })
    (haccess : ∀ c st, R (.access c) st (.access c) st)
    (hdot : ∀ x y z init st, R (.dot x y z init) st (.dot x y z init) st)
    (s : Stmt B) {st : Locator B} (hmulti : st.multiForLoop = false) :
    R s st (visitStmt f s st).1 (visitStmt f s st).2 := by
  induction s generalizing st with
  | seq s t ihs iht =>
    have hs := visitStmt_counted f s hmulti
    exact hseq _ _ _ _ _ _ _ hs (ihs hmulti) (iht hs.multi)
  | forLoop body ih =>
    by_cases hbufs : f.buffersAt body = []
    · rw [visitStmt_merged hbufs]
      exact hmerged _ _ _ _ hbufs (visitStmt_counted f body hmulti) (ih hmulti)
    · have hb : Counted f body st.enter (visitStmt f body st.enter).2 :=
        visitStmt_counted f body hmulti
      rw [visitStmt_planned hbufs rfl hb]
      exact hplanned _ _ _ _ hbufs hb (ih hmulti)
  | block bufs body ih =>
    exact hblock bufs body st _ _ (visitStmt_counted f body hmulti) (ih hmulti)
  | access c => exact haccess c st
  | dot x y z init => exact hdot x y z init st

end Step

/-! ## Accesses are kept -/

section Keep

variable {f : PrimFunc B} {b : B}

/-- The statement has the same accesses, and the same dot calls in no loop. -/
structure SameAccesses (b : B) (s s' : Stmt B) : Prop where
  accesses : s'.accesses = s.accesses
  dotHere : s'.dotHere b = s.dotHere b

/-- A block around a body changes neither. -/
theorem sameAccesses_wrapped {kept : List B} {st : Locator B} (hmulti : st.multiForLoop = false)
    (body : Stmt B) : SameAccesses b body (wrapped kept st body) := by
  rcases wrapped_eq hmulti body with ⟨-, -, h⟩ | ⟨-, h⟩
  · rw [h]
    exact ⟨rfl, rfl⟩
  · rw [h]
    exact ⟨rfl, rfl⟩

theorem visitStmt_sameAccesses (s : Stmt B) {st : Locator B} (hmulti : st.multiForLoop = false) :
    SameAccesses b s (visitStmt f s st).1 := by
  refine visitStmt_induct (R := fun s _ s' _ => SameAccesses b s s') ?_ ?_ ?_ ?_ ?_ ?_ s hmulti
  · rintro s t st s' st' t' st'' - hs ht
    exact ⟨by rw [Stmt.accesses, Stmt.accesses, hs.accesses, ht.accesses],
      by rw [Stmt.dotHere, Stmt.dotHere, hs.dotHere, ht.dotHere]⟩
  · rintro body st body' st' - - hb
    exact ⟨hb.accesses, rfl⟩
  · rintro body st body' st' - hcount hb
    have hmulti : (st'.leave f (f.buffersAt body) st.currentForDepth).multiForLoop = false :=
      hcount.multi
    exact ⟨(sameAccesses_wrapped (b := b) hmulti body').accesses.trans hb.accesses, rfl⟩
  · rintro bufs body st body' st' - hb
    exact ⟨hb.accesses, hb.dotHere⟩
  · exact fun _ _ => ⟨rfl, rfl⟩
  · exact fun _ _ _ _ _ => ⟨rfl, rfl⟩

theorem Stmt.encloses_access {c : B} :
    (Stmt.access c).encloses b = true ↔ (Stmt.access c).accesses.count b = 0 := by
  grind [Stmt.encloses, Stmt.accesses, List.count_eq_zero]

theorem Stmt.encloses_dot {x y z : B} {init : InitC} :
    (Stmt.dot x y z init).encloses b = true ↔ (Stmt.dot x y z init).accesses.count b = 0 := by
  grind [Stmt.encloses, Stmt.accesses, List.count_eq_zero]

/-- Without a listing, the buffer is enclosed if there is nothing to enclose. -/
theorem Stmt.encloses_of_listed_zero {s : Stmt B} (h : s.listed b = 0) :
    s.encloses b = true ↔ s.accesses.count b = 0 := by
  induction s with
  | seq s t ihs iht =>
    obtain ⟨hs, ht⟩ := Nat.add_eq_zero_iff.mp h
    simp [Stmt.encloses, Stmt.accesses, ihs hs, iht ht, List.count_append]
  | forLoop body ih => exact ih h
  | block bufs body ih =>
    obtain ⟨hbufs, hbody⟩ := Nat.add_eq_zero_iff.mp h
    have hb : b ∉ bufs := List.count_eq_zero.mp hbufs
    simpa [Stmt.encloses, Stmt.accesses, hb] using ih hbody
  | access c => exact Stmt.encloses_access
  | dot x y z init => exact Stmt.encloses_dot

theorem Stmt.encloses_of_count_zero {s : Stmt B} (h : s.accesses.count b = 0) :
    s.encloses b = true := by
  induction s with
  | seq s t ihs iht =>
    rw [Stmt.accesses, List.count_append] at h
    obtain ⟨hs, ht⟩ := Nat.add_eq_zero_iff.mp h
    rw [Stmt.encloses, ihs hs, iht ht]
    rfl
  | forLoop body ih => exact ih h
  | block bufs body ih => rw [Stmt.encloses, ih h, Bool.or_true]
  | access c => exact Stmt.encloses_access.mpr h
  | dot x y z init => exact Stmt.encloses_dot.mpr h

theorem Stmt.outsideLoop_of_listed_zero {s : Stmt B} (h : s.listed b = 0) :
    s.outsideLoop b = true := by
  induction s with
  | seq s t ihs iht =>
    obtain ⟨hs, ht⟩ := Nat.add_eq_zero_iff.mp h
    rw [Stmt.outsideLoop, ihs hs, iht ht]
    rfl
  | forLoop body ih =>
    have hbody : body.listed b = 0 := h
    simp [Stmt.outsideLoop, ih hbody, hbody]
  | block bufs body ih => exact ih (Nat.add_eq_zero_iff.mp h).2
  | access c => rfl
  | dot x y z init => rfl

/-- A statement that holds the buffer below it has all its accesses. -/
theorem Stmt.le_count_of_held {s : Stmt B} {n : ℕ} (h : s.held b n = true) :
    n ≤ s.accesses.count b := by
  induction s with
  | seq s t ihs iht =>
    rw [Stmt.accesses, List.count_append]
    rcases Bool.or_eq_true_iff.mp h with h | h
    · exact (ihs h).trans (Nat.le_add_right _ _)
    · exact (iht h).trans (Nat.le_add_left _ _)
  | forLoop body _ => exact (of_decide_eq_true h).ge
  | block bufs body _ => exact (of_decide_eq_true h).ge
  | access c => cases h
  | dot x y z init => cases h

end Keep

/-! ## A buffer that is planned elsewhere -/

/-- The buffer is planned for no loop or block of the statement. -/
def PrimFunc.Free (f : PrimFunc B) (b : B) : Stmt B → Prop
  | .seq s t => f.Free b s ∧ f.Free b t
  | .forLoop body => b ∉ f.buffersAt body ∧ f.Free b body
  | .block _ body => b ∉ f.buffersAt body ∧ f.Free b body
  | .access _ => True
  | .dot _ _ _ _ => True

section Pass

variable {f : PrimFunc B} {b : B}

/-- A buffer that waits is taken by the first block, or still waits. If that encloses
its accesses, they were not spread over the statement. -/
structure Passed (b : B) (s : Stmt B) (st : Locator B) (s' : Stmt B) (st' : Locator B) : Prop where
  accesses : s'.accesses = s.accesses
  listed : s'.listed b = if s.hasBlock then st.allocBuffers.count b else 0
  waiting : st'.allocBuffers.count b = if s.hasBlock then 0 else st.allocBuffers.count b
  spread : ∀ n, 0 < n → s.held b n = false → s.accesses.count b ≤ n → s'.encloses b = true →
    s.accesses.count b < n

/-- A block that does not list the buffer changes nothing for it. -/
theorem wrapped_of_not_mem {kept : List B} {st : Locator B} (hmulti : st.multiForLoop = false)
    (hb : b ∉ kept) (body : Stmt B) :
    (wrapped kept st body).listed b = body.listed b ∧
      (wrapped kept st body).encloses b = body.encloses b ∧
      (wrapped kept st body).outsideLoop b = body.outsideLoop b := by
  rcases wrapped_eq hmulti body with ⟨-, -, h⟩ | ⟨-, h⟩
  · rw [h]
    refine ⟨?_, ?_, rfl⟩
    · rw [Stmt.listed, List.count_eq_zero.mpr hb, Nat.zero_add]
    · rw [Stmt.encloses, decide_eq_false hb, Bool.false_or]
  · rw [h]
    exact ⟨rfl, rfl, rfl⟩

theorem Passed.seq {s t s' t' : Stmt B} {st st' st'' : Locator B} (hs : Passed b s st s' st')
    (ht : Passed b t st' t' st'') : Passed b (.seq s t) st (.seq s' t') st'' := by
  refine ⟨?_, ?_, ?_, fun n hn hheld hcount henc => ?_⟩
  · rw [Stmt.accesses, Stmt.accesses, hs.accesses, ht.accesses]
  · rw [Stmt.listed, hs.listed, ht.listed, hs.waiting, Stmt.hasBlock]
    cases s.hasBlock <;> cases t.hasBlock <;> simp
  · rw [ht.waiting, hs.waiting, Stmt.hasBlock]
    cases s.hasBlock <;> cases t.hasBlock <;> simp
  · obtain ⟨hheldS, hheldT⟩ := Bool.or_eq_false_iff.mp hheld
    obtain ⟨hencS, hencT⟩ := Bool.and_eq_true_iff.mp henc
    rw [Stmt.accesses, List.count_append] at hcount ⊢
    -- only one of the two statements can list the buffer, and the other has no access
    by_cases hblock : s.hasBlock = true
    · have hzero : t'.listed b = 0 := by
        rw [ht.listed, hs.waiting, if_pos hblock]
        split <;> rfl
      have hcountT := (Stmt.encloses_of_listed_zero hzero).mp hencT
      rw [ht.accesses] at hcountT
      have := hs.spread n hn hheldS (by omega) hencS
      omega
    · have hzero : s'.listed b = 0 := by rw [hs.listed, if_neg hblock]
      have hcountS := (Stmt.encloses_of_listed_zero hzero).mp hencS
      rw [hs.accesses] at hcountS
      have := ht.spread n hn hheldT (by omega) hencT
      omega

theorem visitStmt_passed (s : Stmt B) {st : Locator B} (hmulti : st.multiForLoop = false)
    (hfree : f.Free b s) : Passed b s st (visitStmt f s st).1 (visitStmt f s st).2 := by
  revert hfree
  refine visitStmt_induct (R := fun s st s' st' => f.Free b s → Passed b s st s' st')
    ?_ ?_ ?_ ?_ ?_ ?_ s hmulti
  · rintro s t st s' st' t' st'' - hs ht hfree
    exact (hs hfree.1).seq (ht hfree.2)
  · rintro body st body' st' - - hb hfree
    have hpass := hb hfree.2
    refine ⟨hpass.accesses, hpass.listed, hpass.waiting, fun n _ hheld hcount _ => ?_⟩
    exact lt_of_le_of_ne hcount (of_decide_eq_false hheld)
  · rintro body st body' st' - hcount hb hfree
    have hpass := hb hfree.2
    have hmulti : (st'.leave f (f.buffersAt body) st.currentForDepth).multiForLoop = false :=
      hcount.multi
    have hkept : b ∉ (f.buffersAt body).filter fun c => !f.extracted st.currentForDepth c :=
      fun h => hfree.1 (List.mem_filter.mp h).1
    have hmoved : ((f.buffersAt body).filter (f.extracted st.currentForDepth)).count b = 0 :=
      List.count_eq_zero.mpr fun h => hfree.1 (List.mem_filter.mp h).1
    refine ⟨?_, ?_, ?_, fun n _ hheld hcount _ => ?_⟩
    · exact (sameAccesses_wrapped (b := b) hmulti body').accesses.trans hpass.accesses
    · exact (wrapped_of_not_mem hmulti hkept body').1.trans hpass.listed
    · rw [Locator.leave_allocBuffers, List.count_append, hmoved, Nat.add_zero]
      exact hpass.waiting
    · exact lt_of_le_of_ne hcount (of_decide_eq_false hheld)
  · rintro bufs body st body' st' - hb hfree
    have hpass := hb hfree.2
    refine ⟨hpass.accesses, ?_, rfl, fun n _ hheld hcount _ => ?_⟩
    · have hpush : (st.push (f.buffersAt body)).allocBuffers.count b = st.allocBuffers.count b := by
        rw [Locator.push_allocBuffers, List.count_append, List.count_eq_zero.mpr hfree.1,
          Nat.add_zero]
      rw [Stmt.listed, hpass.listed, hpass.waiting, hpush]
      cases body.hasBlock <;> simp [Stmt.hasBlock]
    · exact lt_of_le_of_ne hcount (of_decide_eq_false hheld)
  · rintro c st -
    refine ⟨rfl, rfl, rfl, fun n hn _ _ henc => ?_⟩
    rw [Stmt.encloses_access.mp henc]
    exact hn
  · rintro x y z init st -
    refine ⟨rfl, rfl, rfl, fun n hn _ _ henc => ?_⟩
    rw [Stmt.encloses_dot.mp henc]
    exact hn

/-- Parameters are planned nowhere. -/
theorem free_of_mem_bufferMap (h : b ∈ f.bufferMap) (s : Stmt B) : f.Free b s := by
  have hnot : ∀ body, b ∉ f.buffersAt body := fun body hmem => by
    have := (List.mem_filter.mp hmem).2
    simp [h] at this
  induction s with
  | seq s t ihs iht => exact ⟨ihs, iht⟩
  | forLoop body ih => exact ⟨hnot body, ih⟩
  | block bufs body ih => exact ⟨hnot body, ih⟩
  | access c => trivial
  | dot x y z init => trivial

theorem isLca_of_mem_buffersAt {body : Stmt B} (h : b ∈ f.buffersAt body) :
    f.isLca b body = true := by
  have := (List.mem_filter.mp h).2
  simp only [Bool.and_eq_true] at this
  exact this.2

/-- Below the lowest common ancestor the buffer is not planned. -/
theorem free_of_not_held {s : Stmt B} (hheld : s.held b (f.total b) = false)
    (hcount : s.accesses.count b ≤ f.total b) : f.Free b s := by
  induction s with
  | seq s t ihs iht =>
    obtain ⟨hs, ht⟩ := Bool.or_eq_false_iff.mp hheld
    rw [Stmt.accesses, List.count_append] at hcount
    exact ⟨ihs hs (by omega), iht ht (by omega)⟩
  | forLoop body ih | block bufs body ih =>
    have hne : body.accesses.count b ≠ f.total b := of_decide_eq_false hheld
    have hlt : body.accesses.count b < f.total b := lt_of_le_of_ne hcount hne
    refine ⟨fun hmem => hne ?_, ih ?_ hcount⟩
    · have := isLca_of_mem_buffersAt hmem
      simp only [PrimFunc.isLca, Bool.and_eq_true, decide_eq_true_eq] at this
      exact this.1.2
    · by_contra h
      have := Stmt.le_count_of_held (Bool.not_eq_false _ ▸ h)
      omega
  | access c => trivial
  | dot x y z init => trivial

end Pass

/-! ## The walk fulfils the fate -/

section Fulfil

variable {f : PrimFunc B} {b : B} {n : ℕ}

/-- What a fate means for the output and for what waits. -/
def Arrives (b : B) (n : ℕ) (s' : Stmt B) (st' : Locator B) : Fate → Prop
  | .listed => s'.listed b = n ∧ s'.encloses b = true ∧ s'.outsideLoop b = true ∧
      st'.allocBuffers.count b = 0
  | .waiting => s'.listed b = 0 ∧ st'.allocBuffers.count b = n
  | .astray => st'.allocBuffers.count b = 0 ∧
      (s'.listed b = 0 ∨ s'.encloses b = false ∨ s'.outsideLoop b = false)

theorem Arrives.seq_left {s' t t' : Stmt B} {st' st'' : Locator B} {r : Fate}
    (h : Arrives b n s' st' r) (hs : s'.accesses.count b ≠ 0) (ht : Passed b t st' t' st'')
    (hcount : t.accesses.count b = 0) :
    Arrives b n (.seq s' t') st'' (r.andThen t.hasBlock) := by
  have hencT : t'.encloses b = true := Stmt.encloses_of_count_zero (by rw [ht.accesses, hcount])
  -- nothing waits after the first statement unless that is its fate
  have hpass : st'.allocBuffers.count b = 0 →
      t'.listed b = 0 ∧ st''.allocBuffers.count b = 0 ∧ t'.outsideLoop b = true := by
    intro hzero
    have hlisted : t'.listed b = 0 := by
      rw [ht.listed, hzero]
      split <;> rfl
    refine ⟨hlisted, ?_, Stmt.outsideLoop_of_listed_zero hlisted⟩
    rw [ht.waiting, hzero]
    split <;> rfl
  cases r with
  | listed =>
    obtain ⟨hlisted, henc, hout, hwait⟩ := h
    obtain ⟨hlistedT, hwaitT, houtT⟩ := hpass hwait
    refine ⟨?_, ?_, ?_, hwaitT⟩
    · rw [Stmt.listed, hlisted, hlistedT, Nat.add_zero]
    · rw [Stmt.encloses, henc, hencT]
      rfl
    · rw [Stmt.outsideLoop, hout, houtT]
      rfl
  | waiting =>
    obtain ⟨hlisted, hwait⟩ := h
    have henc : s'.encloses b = false := by
      rw [Bool.eq_false_iff]
      exact fun henc => hs ((Stmt.encloses_of_listed_zero hlisted).mp henc)
    by_cases hblock : t.hasBlock = true
    · rw [Fate.andThen, if_pos hblock]
      refine ⟨by rw [ht.waiting, if_pos hblock], .inr (.inl ?_)⟩
      rw [Stmt.encloses, henc, Bool.false_and]
    · rw [Fate.andThen, if_neg hblock]
      refine ⟨?_, by rw [ht.waiting, if_neg hblock, hwait]⟩
      rw [Stmt.listed, hlisted, ht.listed, if_neg hblock]
  | astray =>
    obtain ⟨hwait, hbad⟩ := h
    obtain ⟨hlistedT, hwaitT, -⟩ := hpass hwait
    refine ⟨hwaitT, ?_⟩
    rcases hbad with h | h | h
    · exact .inl (by rw [Stmt.listed, h, hlistedT])
    · exact .inr (.inl (by rw [Stmt.encloses, h, Bool.false_and]))
    · exact .inr (.inr (by rw [Stmt.outsideLoop, h, Bool.false_and]))

theorem Arrives.seq_right {s' t' : Stmt B} {st'' : Locator B} {r : Fate}
    (h : Arrives b n t' st'' r) (hlisted : s'.listed b = 0) (hcount : s'.accesses.count b = 0) :
    Arrives b n (.seq s' t') st'' r := by
  have henc := Stmt.encloses_of_count_zero hcount
  have hout := Stmt.outsideLoop_of_listed_zero hlisted
  cases r with
  | listed =>
    obtain ⟨hlistedT, hencT, houtT, hwait⟩ := h
    refine ⟨?_, ?_, ?_, hwait⟩
    · rw [Stmt.listed, hlisted, hlistedT, Nat.zero_add]
    · rw [Stmt.encloses, henc, hencT]
      rfl
    · rw [Stmt.outsideLoop, hout, houtT]
      rfl
  | waiting => exact ⟨by rw [Stmt.listed, hlisted, h.1], h.2⟩
  | astray =>
    refine ⟨h.1, ?_⟩
    rcases h.2 with h | h | h
    · exact .inl (by rw [Stmt.listed, h, hlisted])
    · exact .inr (.inl (by rw [Stmt.encloses, h, Bool.and_false]))
    · exact .inr (.inr (by rw [Stmt.outsideLoop, h, Bool.and_false]))

theorem Arrives.forLoop {body' : Stmt B} {st' : Locator B} {r : Fate} (hn : 0 < n)
    (h : Arrives b n body' st' r) : Arrives b n (.forLoop body') st' (r.inLoop (body'.dotHere b)) := by
  cases r with
  | listed =>
    obtain ⟨hlisted, henc, hout, hwait⟩ := h
    by_cases hdot : body'.dotHere b = true
    · rw [Fate.inLoop, if_pos hdot]
      refine ⟨hwait, .inr (.inr ?_)⟩
      have hne : body'.listed b ≠ 0 := by omega
      simp [Stmt.outsideLoop, hdot, hne]
    · rw [Fate.inLoop, if_neg hdot]
      refine ⟨hlisted, henc, ?_, hwait⟩
      simp [Stmt.outsideLoop, hdot, hout]
  | waiting => exact h
  | astray =>
    refine ⟨h.1, ?_⟩
    rcases h.2 with h | h | h
    · exact .inl h
    · exact .inr (.inl h)
    · exact .inr (.inr (by rw [Stmt.outsideLoop, h, Bool.and_false]))

theorem Arrives.block {body' : Stmt B} {st' : Locator B} {r : Fate} (hn : 0 < n)
    (h : Arrives b n body' st' r) :
    Arrives b n (.block st'.allocBuffers body') { st' with allocBuffers := [] } r.inBlock := by
  cases r with
  | listed =>
    obtain ⟨hlisted, henc, hout, hwait⟩ := h
    refine ⟨by rw [Stmt.listed, hwait, hlisted, Nat.zero_add], ?_, hout, rfl⟩
    rw [Stmt.encloses, henc, Bool.or_true]
  | waiting =>
    obtain ⟨hlisted, hwait⟩ := h
    have hmem : b ∈ st'.allocBuffers := List.count_pos_iff.mp (by omega)
    have hout : body'.outsideLoop b = true := Stmt.outsideLoop_of_listed_zero hlisted
    refine ⟨by rw [Stmt.listed, hwait, hlisted, Nat.add_zero], ?_, hout, rfl⟩
    rw [Stmt.encloses, decide_eq_true hmem, Bool.true_or]
  | astray =>
    obtain ⟨hwait, hbad⟩ := h
    have hmem : b ∉ st'.allocBuffers := List.count_eq_zero.mp hwait
    refine ⟨rfl, ?_⟩
    rcases hbad with h | h | h
    · exact .inl (by rw [Stmt.listed, hwait, h])
    · exact .inr (.inl (by rw [Stmt.encloses, h, decide_eq_false hmem, Bool.false_or]))
    · exact .inr (.inr h)

/-- A block that does not list the buffer. -/
theorem Arrives.wrapped {kept : List B} {body' : Stmt B} {st st' : Locator B} {r : Fate}
    (hmulti : st.multiForLoop = false) (hb : b ∉ kept) (h : Arrives b n body' st' r) :
    Arrives b n (wrapped kept st body') st' r := by
  obtain ⟨hlisted, henc, hout⟩ := wrapped_of_not_mem hmulti hb body'
  cases r <;> simpa only [Arrives, hlisted, henc, hout] using h

/-- The buffer is a managed one, no parameter, and accessed. -/
structure PrimFunc.Manages (f : PrimFunc B) (b : B) : Prop where
  managed : b ∈ f.body.managed
  notParam : b ∉ f.bufferMap
  accessed : 0 < f.total b

theorem count_buffersAt (hb : f.Manages b) (body : Stmt B) :
    (f.buffersAt body).count b = if f.isLca b body then f.order.count b else 0 := by
  by_cases hlca : f.isLca b body = true
  · rw [if_pos hlca, PrimFunc.buffersAt, List.count_filter]
    simp [hb.managed, hb.notParam, hlca]
  · rw [if_neg hlca]
    exact List.count_eq_zero.mpr fun hmem => hlca (isLca_of_mem_buffersAt hmem)

/-- A loop or block with all accesses is the lowest one, or holds a lower one. -/
theorem held_of_not_isLca (hb : f.Manages b) {body : Stmt B}
    (hcount : body.accesses.count b = f.total b) (hlca : f.isLca b body = false) :
    body.held b (f.total b) = true := by
  simpa [PrimFunc.isLca, hb.accessed, hcount] using hlca

theorem not_held_of_isLca {body : Stmt B} (hlca : f.isLca b body = true) :
    body.held b (f.total b) = false := by
  simp only [PrimFunc.isLca, Bool.and_eq_true, Bool.not_eq_true'] at hlca
  exact hlca.2

/-- When a loop with planned buffers gets its block. -/
theorem rewrites_leave_iff {body : Stmt B} {st st' : Locator B} (hdepth : 0 ≤ st.currentForDepth)
    (hmerge : 0 ≤ st.mergeDepth) (hbufs : f.buffersAt body ≠ [])
    (hcount : Counted f body st.enter st') :
    (st'.leave f (f.buffersAt body) st.currentForDepth).Rewrites ↔
      ¬ ((st.needExtract || f.extracts st.currentForDepth (.forLoop body)) &&
        st.currentForDepth ≠ 0 &&
        st.forDepth - st.mergeDepth + f.plannedLoops body ≠ st.currentForDepth) = true := by
  have hmoved : (st'.leave f (f.buffersAt body) st.currentForDepth).needExtract =
      (st.needExtract || f.extracts st.currentForDepth (.forLoop body)) := by
    rw [Locator.leave_needExtract, hcount.moved, PrimFunc.extracts, if_neg hbufs, Bool.or_assoc]
    rfl
  have hseen := hcount.seen
  have hmerge' := hcount.merge
  rw [Locator.enter_mergeDepth] at hmerge'
  rw [Locator.enter_forDepth, Locator.enter_mergeDepth] at hseen
  rw [Locator.Rewrites, hmoved, Locator.leave_currentForDepth, Locator.leave_forDepth,
    Locator.leave_mergeDepth]
  simp only [Bool.and_eq_true, decide_eq_true_eq, not_and, ne_eq, Decidable.not_not]
  constructor
  · rintro h ⟨hmoved, hne⟩
    rcases h hmoved with ⟨hfirst, -⟩ | hzero
    · omega
    · exact absurd hzero hne
  · intro h hmoved
    by_cases hzero : st.currentForDepth = 0
    · exact .inr hzero
    · have := h ⟨hmoved, hzero⟩
      exact .inl ⟨by omega, by omega⟩

/-- The lowest common ancestor, a loop. -/
theorem arrives_planned_loop {body body' : Stmt B} {st st' : Locator B} (hb : f.Manages b)
    (hn : 0 < f.order.count b) (hlca : f.isLca b body = true) (hdepth : 0 ≤ st.currentForDepth)
    (hmerge : 0 ≤ st.mergeDepth) (hcount : Counted f body st.enter st')
    (hlisted : body'.listed b = 0) (hwait : st'.allocBuffers.count b = 0)
    (hdot : body'.dotHere b = body.dotHere b) :
    Arrives b (f.order.count b)
      (.forLoop (wrapped ((f.buffersAt body).filter fun c => !f.extracted st.currentForDepth c)
        (st'.leave f (f.buffersAt body) st.currentForDepth) body'))
      (st'.leave f (f.buffersAt body) st.currentForDepth)
      (f.fate b (.forLoop body) st.currentForDepth (st.forDepth - st.mergeDepth) st.needExtract) := by
  have hmulti : (st'.leave f (f.buffersAt body) st.currentForDepth).multiForLoop = false :=
    hcount.multi
  have hbufs := count_buffersAt hb body
  rw [if_pos hlca] at hbufs
  rw [PrimFunc.fate, if_pos hlca]
  by_cases hext : f.extracted st.currentForDepth b = true
  · -- moved out
    have hkept : b ∉ (f.buffersAt body).filter fun c => !f.extracted st.currentForDepth c := by
      intro h
      have := (List.mem_filter.mp h).2
      simp [hext] at this
    rw [if_pos hext]
    refine ⟨(wrapped_of_not_mem hmulti hkept body').1.trans hlisted, ?_⟩
    rw [Locator.leave_allocBuffers, List.count_append, hwait, Nat.zero_add,
      List.count_filter hext, hbufs]
  · -- kept: listed if the loop gets its block
    have hext' : (!f.extracted st.currentForDepth b) = true := by simpa using hext
    have hkept : ((f.buffersAt body).filter fun c => !f.extracted st.currentForDepth c).count b =
        f.order.count b :=
      (List.count_filter (p := fun c => !f.extracted st.currentForDepth c) hext').trans hbufs
    have hwait' : (st'.leave f (f.buffersAt body) st.currentForDepth).allocBuffers.count b = 0 := by
      rw [Locator.leave_allocBuffers, List.count_append, hwait, Nat.zero_add]
      exact List.count_eq_zero.mpr fun h => hext (List.mem_filter.mp h).2
    have hmem : b ∈ (f.buffersAt body).filter fun c => !f.extracted st.currentForDepth c :=
      List.count_pos_iff.mp (by omega)
    have hrewrites := rewrites_leave_iff hdepth hmerge (List.ne_nil_of_mem
      (List.mem_filter.mp hmem).1) hcount
    rw [if_neg hext]
    rcases wrapped_eq hmulti body' with ⟨-, hrw, hwrap⟩ | ⟨hnot, hwrap⟩
    · rw [if_neg (hrewrites.mp hrw), hwrap]
      have hout : body'.outsideLoop b = true := Stmt.outsideLoop_of_listed_zero hlisted
      have harrive : Arrives b (f.order.count b) (.block _ body') _ .listed :=
        ⟨by rw [Stmt.listed, hkept, hlisted, Nat.add_zero],
          by rw [Stmt.encloses, decide_eq_true hmem, Bool.true_or], hout, hwait'⟩
      have hloop := harrive.forLoop hn
      rwa [Stmt.dotHere, hdot] at hloop
    · have hno : ¬ (st'.leave f (f.buffersAt body) st.currentForDepth).Rewrites :=
        fun h => hnot ⟨List.ne_nil_of_mem hmem, h⟩
      rw [if_pos (Decidable.not_not.mp fun h => hno (hrewrites.mpr h)), hwrap]
      exact ⟨hwait', .inl hlisted⟩

/-- The lowest common ancestor, a block. -/
theorem arrives_planned_block {bufs : List B} {body body' : Stmt B} {st st' : Locator B}
    (hb : f.Manages b) (hn : 0 < f.order.count b) (hlca : f.isLca b body = true)
    (hcount : body.accesses.count b = f.total b) (hwait : st.allocBuffers.count b = 0)
    (hpass : Passed b body (st.push (f.buffersAt body)) body' st') (depth seen : ℤ) (moved : Bool) :
    Arrives b (f.order.count b) (.block st'.allocBuffers body') { st' with allocBuffers := [] }
      (f.fate b (.block bufs body) depth seen moved) := by
  have hlist := hpass.listed
  have hwaits := hpass.waiting
  rw [PrimFunc.fate, if_pos hlca]
  by_cases hblock : body.hasBlock = true
  · -- the inner block that takes the buffer misses an access
    rw [if_pos hblock] at hlist hwaits ⊢
    have henc : body'.encloses b = false := by
      rw [Bool.eq_false_iff]
      intro henc
      have := hpass.spread (f.total b) hb.accessed (not_held_of_isLca hlca) hcount.le henc
      omega
    refine ⟨rfl, .inr (.inl ?_)⟩
    rw [Stmt.encloses, decide_eq_false (List.count_eq_zero.mp hwaits), henc, Bool.false_or]
  · rw [if_neg hblock] at hlist hwaits ⊢
    have hpush := count_buffersAt hb body
    rw [if_pos hlca] at hpush
    rw [Locator.push_allocBuffers, List.count_append, hwait, hpush, Nat.zero_add] at hwaits
    have harrive : Arrives b (f.order.count b) body' st' .waiting := ⟨hlist, hwaits⟩
    exact harrive.block hn

/-- A loop around the lowest common ancestor, with buffers of its own. -/
theorem Arrives.leave {body body' : Stmt B} {st' : Locator B} {r : Fate} (depth : ℤ)
    (hn : 0 < n) (hmulti : st'.multiForLoop = false) (hnot : b ∉ f.buffersAt body)
    (hdot : body'.dotHere b = body.dotHere b) (h : Arrives b n body' st' r) :
    Arrives b n
      (.forLoop (AllocPlan.wrapped ((f.buffersAt body).filter fun c => !f.extracted depth c)
        (st'.leave f (f.buffersAt body) depth) body'))
      (st'.leave f (f.buffersAt body) depth) (r.inLoop (body.dotHere b)) := by
  have hmulti' : (st'.leave f (f.buffersAt body) depth).multiForLoop = false := hmulti
  have hkept : b ∉ (f.buffersAt body).filter fun c => !f.extracted depth c :=
    fun h => hnot (List.mem_filter.mp h).1
  have hmoved : ((f.buffersAt body).filter (f.extracted depth)).count b = 0 :=
    List.count_eq_zero.mpr fun h => hnot (List.mem_filter.mp h).1
  have hwait : (st'.leave f (f.buffersAt body) depth).allocBuffers.count b =
      st'.allocBuffers.count b := by
    rw [Locator.leave_allocBuffers, List.count_append, hmoved, Nat.add_zero]
  have hleft : Arrives b n body' (st'.leave f (f.buffersAt body) depth) r := by
    cases r <;> simpa only [Arrives, hwait] using h
  have hloop := (hleft.wrapped hmulti' hkept).forLoop hn
  rwa [(sameAccesses_wrapped hmulti' body').dotHere, hdot] at hloop

theorem visitStmt_block {bufs : List B} {body : Stmt B} {st : Locator B} :
    visitStmt f (.block bufs body) st =
      (.block (visitStmt f body (st.push (f.buffersAt body))).2.allocBuffers
        (visitStmt f body (st.push (f.buffersAt body))).1,
      { (visitStmt f body (st.push (f.buffersAt body))).2 with allocBuffers := [] }) := rfl

/-- What a statement that holds the buffer does with it. -/
theorem visitStmt_arrives (hb : f.Manages b) (hn : 0 < f.order.count b) (s : Stmt B)
    {st : Locator B} (hmulti : st.multiForLoop = false) (hdepth : 0 ≤ st.currentForDepth)
    (hmerge : 0 ≤ st.mergeDepth) (hwait : st.allocBuffers.count b = 0)
    (hheld : s.held b (f.total b) = true) (hcount : s.accesses.count b ≤ f.total b) :
    Arrives b (f.order.count b) (visitStmt f s st).1 (visitStmt f s st).2
      (f.fate b s st.currentForDepth (st.forDepth - st.mergeDepth) st.needExtract) := by
  induction s generalizing st with
  | seq s t ihs iht =>
    have hcounted := visitStmt_counted f s hmulti
    rw [Stmt.accesses, List.count_append] at hcount
    rw [PrimFunc.fate]
    by_cases hs : s.held b (f.total b) = true
    · rw [if_pos hs]
      have hcountS := Stmt.le_count_of_held hs
      have hpos := hb.accessed
      have ht : t.held b (f.total b) = false := by
        rw [Bool.eq_false_iff]
        intro ht
        have := Stmt.le_count_of_held ht
        omega
      have hpass := visitStmt_passed t hcounted.multi (free_of_not_held ht (by omega))
      refine (ihs hmulti hdepth hmerge hwait hs (by omega)).seq_left ?_ hpass (by omega)
      rw [(visitStmt_sameAccesses (b := b) s hmulti).accesses]
      omega
    · rw [if_neg hs]
      have ht : t.held b (f.total b) = true := by simpa [Stmt.held, hs] using hheld
      have hcountT := Stmt.le_count_of_held ht
      have hpass := visitStmt_passed s hmulti
        (free_of_not_held (Bool.eq_false_iff.mpr hs) (by omega))
      have hzero : (visitStmt f s st).1.listed b = 0 ∧
          (visitStmt f s st).2.allocBuffers.count b = 0 := by
        rw [hpass.listed, hpass.waiting, hwait]
        split <;> exact ⟨rfl, rfl⟩
      have harrive := iht hcounted.multi (hcounted.depth ▸ hdepth)
        (Int.le_trans hmerge hcounted.merge) hzero.2 ht (by omega)
      rw [hcounted.depth, hcounted.seen, hcounted.moved] at harrive
      refine harrive.seq_right hzero.1 ?_
      rw [hpass.accesses]
      omega
  | forLoop body ih =>
    have hall : body.accesses.count b = f.total b := of_decide_eq_true hheld
    have henter : st.enter.multiForLoop = false := hmulti
    have hcounted := visitStmt_counted f body henter
    have hdot := (visitStmt_sameAccesses (f := f) (b := b) body henter).dotHere
    by_cases hlca : f.isLca b body = true
    · have hmem : b ∈ f.buffersAt body := by
        refine List.count_pos_iff.mp ?_
        rwa [count_buffersAt hb, if_pos hlca]
      have hpass := visitStmt_passed body henter (free_of_not_held (not_held_of_isLca hlca) hcount)
      have hzero : (visitStmt f body st.enter).1.listed b = 0 ∧
          (visitStmt f body st.enter).2.allocBuffers.count b = 0 := by
        rw [hpass.listed, hpass.waiting, Locator.enter_allocBuffers, hwait]
        split <;> exact ⟨rfl, rfl⟩
      rw [visitStmt_planned (List.ne_nil_of_mem hmem) rfl hcounted]
      exact arrives_planned_loop hb hn hlca hdepth hmerge hcounted hzero.1 hzero.2 hdot
    · have hheld' := held_of_not_isLca hb hall (Bool.eq_false_iff.mpr hlca)
      have hnot : b ∉ f.buffersAt body := fun h => hlca (isLca_of_mem_buffersAt h)
      rw [PrimFunc.fate, if_neg hlca]
      by_cases hbufs : f.buffersAt body = []
      · have hmerged : st.merged.multiForLoop = false := hmulti
        have hdot' := (visitStmt_sameAccesses (f := f) (b := b) body hmerged).dotHere
        have hmerge' : 0 ≤ st.merged.mergeDepth := by
          rw [Locator.merged_mergeDepth]
          omega
        have hloop := (ih hmerged hdepth hmerge' hwait hheld' hcount).forLoop hn
        have hseen : st.merged.forDepth - st.merged.mergeDepth = st.forDepth - st.mergeDepth := by
          rw [Locator.merged_forDepth, Locator.merged_mergeDepth]
          omega
        rw [hdot', hseen] at hloop
        simp only [visitStmt_merged hbufs, hbufs, if_true, Int.add_zero]
        exact hloop
      · have hdepth' : 0 ≤ st.enter.currentForDepth := by
          rw [Locator.enter_currentForDepth]
          omega
        have hloop := (ih henter hdepth' hmerge hwait hheld' hcount).leave st.currentForDepth hn
          hcounted.multi hnot hdot
        have hseen : st.enter.forDepth - st.enter.mergeDepth = st.forDepth - st.mergeDepth + 1 := by
          rw [Locator.enter_forDepth, Locator.enter_mergeDepth]
          omega
        rw [hseen] at hloop
        simp only [visitStmt_planned hbufs rfl hcounted, if_neg hbufs]
        exact hloop
  | block bufs body ih =>
    have hall : body.accesses.count b = f.total b := of_decide_eq_true hheld
    have hpush : (st.push (f.buffersAt body)).multiForLoop = false := hmulti
    rw [visitStmt_block]
    by_cases hlca : f.isLca b body = true
    · have hpass := visitStmt_passed body hpush (free_of_not_held (not_held_of_isLca hlca) hcount)
      exact arrives_planned_block hb hn hlca hall hwait hpass _ _ _
    · have hheld' := held_of_not_isLca hb hall (Bool.eq_false_iff.mpr hlca)
      have hnone : (f.buffersAt body).count b = 0 := by rw [count_buffersAt hb, if_neg hlca]
      have hstart : (st.push (f.buffersAt body)).allocBuffers.count b = 0 := by
        rw [Locator.push_allocBuffers, List.count_append, hwait, hnone]
      rw [PrimFunc.fate, if_neg hlca]
      exact (ih hpush hdepth hmerge hstart hheld' hcount).block hn
  | access c => cases hheld
  | dot x y z init => cases hheld

end Fulfil

/-! ## The whole pass -/

section Main

variable {f : PrimFunc B} {b : B}

theorem count_le_count_record {recorder : List B} {c : B} :
    recorder.count b ≤ (Stmt.record c recorder).count b := by
  rw [Stmt.record]
  split
  · exact Nat.le_refl _
  · rw [List.count_append]
    omega

theorem count_record_pos {recorder : List B} : 0 < (Stmt.record b recorder).count b := by
  rw [Stmt.record]
  split
  · exact List.count_pos_iff.mpr ‹_›
  · exact List.count_pos_iff.mpr (List.mem_append_right _ List.mem_cons_self)

/-- Every accessed buffer is recorded. -/
theorem count_collect (s : Stmt B) (recorder : List B) :
    recorder.count b ≤ (s.collect recorder).count b ∧
      (b ∈ s.accesses → 0 < (s.collect recorder).count b) := by
  induction s generalizing recorder with
  | seq s t ihs iht =>
    obtain ⟨hs, hsmem⟩ := ihs recorder
    obtain ⟨ht, htmem⟩ := iht (s.collect recorder)
    refine ⟨Nat.le_trans hs ht, fun h => ?_⟩
    rcases List.mem_append.mp h with h | h
    · exact Nat.lt_of_lt_of_le (hsmem h) ht
    · exact htmem h
  | forLoop body ih => exact ih recorder
  | block bufs body ih =>
    obtain ⟨hle, hmem⟩ := ih (recorder ++ bufs)
    refine ⟨Nat.le_trans ?_ hle, hmem⟩
    rw [List.count_append]
    omega
  | access c =>
    refine ⟨count_le_count_record, fun h => ?_⟩
    obtain rfl := List.mem_singleton.mp h
    exact count_record_pos
  | dot x y z init =>
    refine ⟨Nat.le_trans count_le_count_record
      (Nat.le_trans count_le_count_record count_le_count_record), fun h => ?_⟩
    simp only [Stmt.accesses, List.mem_cons, List.not_mem_nil, or_false] at h
    rcases h with rfl | rfl | rfl
    · exact Nat.lt_of_lt_of_le count_record_pos
        (Nat.le_trans count_le_count_record count_le_count_record)
    · exact Nat.lt_of_lt_of_le count_record_pos count_le_count_record
    · exact count_record_pos

/-- The pass places the buffer as it should: it is no parameter and recorded once,
some loop or block has all its accesses, and its fate is to be listed. -/
structure PrimFunc.Places (f : PrimFunc B) (b : B) : Prop where
  notParam : b ∉ f.bufferMap
  recorded : f.order.count b = 1
  held : f.body.held b (f.total b) = true
  fate : f.fate b f.body 0 0 false = .listed

theorem placed_iff_places (hmanaged : b ∈ f.body.managed) (haccess : b ∈ f.body.accesses) :
    Placed b (planAndUpdateBufferAllocationLocation f) ↔ f.Places b := by
  -- a buffer planned nowhere is never listed
  have hlost : f.Free b f.body → ¬ Placed b (planAndUpdateBufferAllocationLocation f) := by
    intro hfree hplaced
    have hpass : Passed b f.body .init _ _ := visitStmt_passed f.body rfl hfree
    have hlisted : (visitStmt f f.body .init).1.listed b = 0 := by
      rw [hpass.listed]
      split <;> rfl
    have honce := hplaced.once
    rw [planAndUpdateBufferAllocationLocation, hlisted] at honce
    omega
  by_cases hparam : b ∈ f.bufferMap
  · exact ⟨fun h => absurd h (hlost (free_of_mem_bufferMap hparam _)),
      fun h => absurd hparam h.notParam⟩
  by_cases hheld : f.body.held b (f.total b) = true
  · have hmanages : f.Manages b := ⟨hmanaged, hparam, List.count_pos_iff.mpr haccess⟩
    have hn : 0 < f.order.count b := (count_collect f.body f.bufferMap).2 haccess
    have harrive : Arrives b (f.order.count b) (visitStmt f f.body .init).1
        (visitStmt f f.body .init).2 (f.fate b f.body 0 0 false) :=
      visitStmt_arrives hmanages hn f.body rfl (Int.le_refl 0) (Int.le_refl 0) rfl hheld
        (Nat.le_refl _)
    constructor
    · rintro ⟨honce, henc, hout⟩
      rw [planAndUpdateBufferAllocationLocation] at honce henc hout
      suffices hfate : f.fate b f.body 0 0 false = .listed by
        rw [hfate] at harrive
        exact ⟨hparam, harrive.1.symm.trans honce, hheld, hfate⟩
      rcases hfate : f.fate b f.body 0 0 false with _ | _ | _
      · rfl
      · rw [hfate] at harrive
        have := harrive.1
        omega
      · rw [hfate] at harrive
        rcases harrive.2 with h | h | h
        · omega
        · exact absurd henc (Bool.eq_false_iff.mp h)
        · exact absurd hout (Bool.eq_false_iff.mp h)
    · rintro ⟨-, hrecorded, -, hfate⟩
      rw [hfate, hrecorded] at harrive
      exact ⟨harrive.1, harrive.2.1, harrive.2.2.1⟩
  · refine ⟨fun h => absurd h (hlost (free_of_not_held (Bool.eq_false_iff.mpr hheld)
      (Nat.le_refl _))),
      fun h => absurd h.held hheld⟩

end Main

/-- Every managed buffer that is accessed is listed by exactly one block, which has all
its accesses and is in no innermost loop that accumulates into it, exactly when this
is the fate of every such buffer. -/
theorem plan_places_iff (f : PrimFunc B) :
    (∀ b ∈ f.body.managed, b ∈ f.body.accesses →
        Placed b (planAndUpdateBufferAllocationLocation f)) ↔
      ∀ b ∈ f.body.managed, b ∈ f.body.accesses → f.Places b :=
  forall₃_congr fun _ hmanaged haccess => placed_iff_places hmanaged haccess

/-- Two nests, one after another: `for k: dot(A, B, C, k == 0)`, with `C` moved out of the
loop, and `for i: { E; for j: S }`. -/
def twoNests : PrimFunc ℕ where
  bufferMap := [0, 1]
  body := .block [2, 3, 4] (.seq (.forLoop (.dot 0 1 2 .cond))
    (.forLoop (.seq (.access 3) (.forLoop (.access 4)))))

/-- The buffer of the inner loop of the second nest is allocated nowhere. -/
theorem twoNests_loses_buffer :
    4 ∈ twoNests.body.managed ∧ 4 ∈ twoNests.body.accesses ∧
      ¬ Placed 4 (planAndUpdateBufferAllocationLocation twoNests) := by
  refine ⟨by decide, by decide, fun h => ?_⟩
  have honce := h.once
  revert honce
  decide

end TileLangNpuir.AllocPlan
