import TileLangNpuir.LoopVectorize.Merge

/-!
# Loop fission and the whole pass

`LoopVectorize` on nests of any depth: parallel loops whose iterations are apart can
be split statement by statement, from the innermost loop outwards, and each piece
merged or kept as a loop. The main result is `vectorizeStmt_run_eq`.
-/

namespace TileLangNpuir.LoopVectorize

variable {V : Type}

namespace Stmt

/-- The variables a statement uses and does not bind. -/
def freeVars : Stmt V → List Var
  | seq s t => s.freeVars ++ t.freeVars
  | forLoop _ x min extent body => min.vars ++ extent.vars ++ body.freeVars.filter (· ≠ x)
  | ifThenElse cond s t => cond.vars ++ s.freeVars ++ t.freeVars
  | letStmt x value body => value.vars ++ body.freeVars.filter (· ≠ x)
  | store _ indices value => indices.flatMap Index.vars ++ value.vars
  | eval call => call.vars
  | nop => []

section

variable (A : Alg V) (isTrue : V → Bool)

/-- Every statement of a nest of parallel loops writes `W` only and depends on `F`
only, in every iteration. -/
def Touches (F W : Set (ℕ × List ℤ)) : Stmt V → Env V → Prop
  | seq s t, env => s.Touches F W env ∧ t.Touches F W env
  | forLoop .parallel x min extent body, env =>
    W ⊆ F ∧ ∀ i, min.eval (A.ints env) ≤ i →
      i < min.eval (A.ints env) + (extent.eval (A.ints env)).toNat →
      body.Touches F W (atIter A env x i)
  | s, env => LocalTo Mem.cell F W (s.run A isTrue env)

/-- The iterations of every parallel loop are independent: no statement of one
iteration writes what a statement of another reads or writes. -/
def Independent : Stmt V → Env V → Prop
  | seq s t, env => s.Independent env ∧ t.Independent env
  | forLoop kind x min extent body, env =>
    (kind = .parallel → ∃ F W : ℤ → Set (ℕ × List ℤ),
      IterationsApart (extent.eval (A.ints env)).toNat (min.eval (A.ints env)) F W ∧
      ∀ i, min.eval (A.ints env) ≤ i →
        i < min.eval (A.ints env) + (extent.eval (A.ints env)).toNat →
        body.Touches A isTrue (F i) (W i) (atIter A env x i)) ∧
    ∀ i, min.eval (A.ints env) ≤ i →
      i < min.eval (A.ints env) + (extent.eval (A.ints env)).toNat →
      body.Independent (atIter A env x i)
  | ifThenElse _ s t, env => s.Independent env ∧ t.Independent env
  | letStmt x value body, env => ∀ m, body.Independent (Function.update env x (value.eval A env m))
  | _, _ => True

end

section

variable (Z : Analyzer)

/-- The loops around a call that the pass takes away, with their extents; the loops
are given from the innermost one. -/
def eliminated : List (Var × Index × Index) → TileCall V → List (Var × ℤ)
  | [], _ => []
  | (x, min, extent) :: loops, call =>
    match Z.constInt min, Z.constInt extent with
    | some start, some count =>
      match vectorizeCall Z x start count call with
      | some call' => (x, count) :: eliminated loops call'
      | none => []
    | _, _ => []

/-- The calls of a loop body can be merged over the loops that are taken away. -/
def CallsFit (loops : List (Var × Index × Index)) : Stmt V → Prop
  | seq s t => s.CallsFit loops ∧ t.CallsFit loops
  | eval call => ∀ l ∈ eliminated Z loops call, Mergeable l.1 l.2 call
  | _ => True

/-- The calls of every nest of parallel loops can be merged over the loops that are
taken away; the loops of a nest have different variables. -/
def MergeFits : List (Var × Index × Index) → Stmt V → Prop
  | loops, forLoop .parallel x min extent body =>
    (∀ l ∈ loops, l.1 ≠ x) ∧
      if body.isFor then body.MergeFits ((x, min, extent) :: loops)
      else if body.isSeqOrEvaluate then body.CallsFit Z ((x, min, extent) :: loops)
      else body.MergeFits []
  | _, forLoop .serial _ _ _ body => body.MergeFits []
  | _, seq s t => s.MergeFits [] ∧ t.MergeFits []
  | _, ifThenElse _ s t => s.MergeFits [] ∧ t.MergeFits []
  | _, letStmt _ _ body => body.MergeFits []
  | _, _ => True

end

end Stmt

section

variable {Z : Analyzer} {A : Alg V} {isTrue : V → Bool} {x : Var} {min extent : Index}
  {F W : Set (ℕ × List ℤ)} {s body : Stmt V} {env : Env V} {loops : List (Var × Index × Index)}

/-- The iterations of a loop. -/
def InLoop (A : Alg V) (env : Env V) (min extent : Index) (i : ℤ) : Prop :=
  min.eval (A.ints env) ≤ i ∧ i < min.eval (A.ints env) + (extent.eval (A.ints env)).toNat

/-- The first loop that is taken away. -/
theorem Stmt.mem_eliminated {start count : ℤ} {call call' : TileCall V}
    (hstart : Z.constInt min = some start) (hcount : Z.constInt extent = some count)
    (h : vectorizeCall Z x start count call = some call') {l : Var × ℤ} :
    l ∈ Stmt.eliminated Z ((x, min, extent) :: loops) call ↔
      l = (x, count) ∨ l ∈ Stmt.eliminated Z loops call' := by
  simp only [Stmt.eliminated, hstart, hcount, h, List.mem_cons]

theorem Stmt.eliminated_var {call : TileCall V} {l : Var × ℤ}
    (h : l ∈ Stmt.eliminated Z loops call) : ∃ l' ∈ loops, l'.1 = l.1 := by
  induction loops generalizing call with
  | nil => cases h
  | cons l' loops ih =>
    obtain ⟨y, min, extent⟩ := l'
    rw [Stmt.eliminated] at h
    split at h
    · split at h
      · rcases List.mem_cons.mp h with rfl | h
        · exact ⟨_, List.mem_cons_self, rfl⟩
        · obtain ⟨l'', hl'', heq⟩ := ih h
          exact ⟨l'', List.mem_cons_of_mem _ hl'', heq⟩
      · cases h
    · cases h

/-- A statement as a whole. -/
theorem Stmt.Touches.localTo (h : s.Touches A isTrue F W env) :
    LocalTo Mem.cell F W (s.run A isTrue env) := by
  induction s generalizing env with
  | seq s t ihs iht => exact (ihs h.1).comp (iht h.2)
  | forLoop kind x min extent body ih =>
    cases kind with
    | serial => exact h
    | parallel => exact countLoop_localTo h.1 fun i hi hi' => ih (h.2 i hi hi')
  | ifThenElse cond s t _ _ => exact h
  | letStmt x value body _ => exact h
  | store buf indices value => exact h
  | eval call => exact h
  | nop => exact h

theorem countLoop_id {α : Type} (n : ℕ) (i : ℤ) (a : α) : countLoop (fun _ a => a) n i a = a := by
  induction n generalizing i with
  | zero => rfl
  | succ n ih => exact ih (i + 1)

/-- Fission of one loop: the body statement by statement, each merged or looped. -/
theorem vectorizeForBody_run {F W : ℤ → Set (ℕ × List ℤ)}
    (hfits : body.CallsFit Z ((x, min, extent) :: loops))
    (hapart : IterationsApart (extent.eval (A.ints env)).toNat (min.eval (A.ints env)) F W)
    (htouch : ∀ i, InLoop A env min extent i →
      body.Touches A isTrue (F i) (W i) (atIter A env x i)) (m : Mem V) :
    (vectorizeForBody Z x min extent body).run A isTrue env m =
      (Stmt.forLoop .parallel x min extent body).run A isTrue env m := by
  induction body generalizing m with
  | seq s t ihs iht =>
    have hs := ihs hfits.1 (fun i hi => (htouch i hi).1)
    have ht := iht hfits.2 (fun i hi => (htouch i hi).2)
    rw [vectorizeForBody, Stmt.run, hs, ht]
    exact (countLoop_fission Mem.ext_cell (fun i hi hi' => (htouch i ⟨hi, hi'⟩).1.localTo)
      (fun i hi hi' => (htouch i ⟨hi, hi'⟩).2.localTo) hapart m).symm
  | nop => exact (countLoop_id _ _ m).symm
  | eval call =>
    rw [vectorizeForBody]
    split
    · rename_i start count hstart hcount
      split
      · rename_i call' hcall
        have hstart' := Z.constInt_eval min start hstart (A.ints env)
        have hcount' := Z.constInt_eval extent count hcount (A.ints env)
        simp only [InLoop, hstart', hcount'] at htouch hapart
        rw [Stmt.run, Stmt.run, hstart', hcount']
        exact (merge_exec hcall (hfits _ ((Stmt.mem_eliminated hstart hcount hcall).mpr (.inl rfl)))
          (fun i hi hi' => htouch i ⟨hi, hi'⟩) hapart m).symm
      · rfl
    · rfl
  | forLoop kind y min' extent' b _ => rfl
  | ifThenElse cond s t _ _ => rfl
  | letStmt y value b _ => rfl
  | store buf indices value => rfl

/-- The pieces touch what the loop touched. -/
theorem vectorizeForBody_touches {F' W' : ℤ → Set (ℕ × List ℤ)}
    (hfits : body.CallsFit Z ((x, min, extent) :: loops))
    (hapart : IterationsApart (extent.eval (A.ints env)).toNat (min.eval (A.ints env)) F' W')
    (htouch' : ∀ i, InLoop A env min extent i →
      body.Touches A isTrue (F' i) (W' i) (atIter A env x i))
    (hsub : W ⊆ F)
    (htouch : ∀ i, InLoop A env min extent i → body.Touches A isTrue F W (atIter A env x i)) :
    (vectorizeForBody Z x min extent body).Touches A isTrue F W env := by
  induction body with
  | seq s t ihs iht =>
    exact ⟨ihs hfits.1 (fun i hi => (htouch' i hi).1) (fun i hi => (htouch i hi).1),
      iht hfits.2 (fun i hi => (htouch' i hi).2) (fun i hi => (htouch i hi).2)⟩
  | nop => exact LocalTo.id hsub
  | eval call =>
    have hloop : (Stmt.forLoop .parallel x min extent (.eval call)).Touches A isTrue F W env :=
      ⟨hsub, fun i hi hi' => htouch i ⟨hi, hi'⟩⟩
    have hrun := vectorizeForBody_run hfits hapart htouch'
    rw [vectorizeForBody] at hrun ⊢
    split
    · rename_i start count hstart hcount
      split
      · rename_i call' hcall
        simp only [hstart, hcount, hcall] at hrun
        exact hloop.localTo.congr hrun
      · exact hloop
    · exact hloop
  | forLoop kind y min' extent' b _ => exact ⟨hsub, fun i hi hi' => htouch i ⟨hi, hi'⟩⟩
  | ifThenElse cond s t _ _ => exact ⟨hsub, fun i hi hi' => htouch i ⟨hi, hi'⟩⟩
  | letStmt y value b _ => exact ⟨hsub, fun i hi hi' => htouch i ⟨hi, hi'⟩⟩
  | store buf indices value => exact ⟨hsub, fun i hi hi' => htouch i ⟨hi, hi'⟩⟩

/-- The pieces can be merged over the loops further out. -/
theorem vectorizeForBody_callsFit (hne : ∀ l ∈ loops, l.1 ≠ x)
    (hfits : body.CallsFit Z ((x, min, extent) :: loops)) :
    (vectorizeForBody Z x min extent body).CallsFit Z loops := by
  induction body with
  | seq s t ihs iht => exact ⟨ihs hfits.1, iht hfits.2⟩
  | eval call =>
    rw [vectorizeForBody]
    split
    · rename_i start count hstart hcount
      split
      · rename_i call' hcall
        intro l hl
        obtain ⟨l', hl', hvar⟩ := Stmt.eliminated_var hl
        have hmem : ∀ l, l = (x, count) ∨ l ∈ Stmt.eliminated Z loops call' →
            l ∈ Stmt.eliminated Z ((x, min, extent) :: loops) call :=
          fun l => (Stmt.mem_eliminated hstart hcount hcall).mpr
        exact Mergeable.vectorized hcall (hfits _ (hmem _ (.inl rfl))) (hvar ▸ hne l' hl')
          (hfits l (hmem l (.inr hl)))
      · exact trivial
    · exact trivial
  | forLoop kind y min' extent' b _ => exact trivial
  | ifThenElse cond s t _ _ => exact trivial
  | letStmt y value b _ => exact trivial
  | store buf indices value => exact trivial
  | nop => exact trivial

/-- The pieces use no variable the loop did not use. -/
theorem vectorizeForBody_freeVars (hfits : body.CallsFit Z ((x, min, extent) :: loops)) :
    ∀ y ∈ (vectorizeForBody Z x min extent body).freeVars,
      y ∈ (Stmt.forLoop .parallel x min extent body).freeVars := by
  intro y hy
  induction body with
  | seq s t ihs iht =>
    simp only [Stmt.freeVars, List.filter_append, List.mem_append] at ihs iht ⊢
    rcases List.mem_append.mp hy with hy | hy
    · rcases ihs hfits.1 hy with h | h
      · exact .inl h
      · exact .inr (.inl h)
    · rcases iht hfits.2 hy with h | h
      · exact .inl h
      · exact .inr (.inr h)
  | nop => cases hy
  | eval call =>
    rw [vectorizeForBody] at hy
    split at hy
    · rename_i start count hstart hcount
      split at hy
      · rename_i call' hcall
        have hmerge := hfits _ ((Stmt.mem_eliminated hstart hcount hcall).mpr (.inl rfl))
        obtain ⟨hvars, hyx⟩ := vars_of_vectorizeCall hcall hmerge.follows hy
        exact List.mem_append_right _ (List.mem_filter.mpr ⟨hvars, decide_eq_true hyx⟩)
      · exact hy
    · exact hy
  | forLoop kind z min' extent' b _ => exact hy
  | ifThenElse cond s t _ _ => exact hy
  | letStmt z value b _ => exact hy
  | store buf indices value => exact hy

/-! ## The pass on whole statements -/

theorem Stmt.isFor_cases (h : s.isFor = true) :
    ∃ kind x min extent body, s = .forLoop kind x min extent body := by
  cases s with
  | forLoop kind x min extent body => exact ⟨kind, x, min, extent, body, rfl⟩
  | _ => cases h

/-- A statement whose visit is again a loop or a leaf has no call to merge. -/
theorem Stmt.callsFit_of_not_isSeqOrEvaluate (h : s.isSeqOrEvaluate = false) :
    s.CallsFit Z loops := by
  cases s with
  | seq s t => cases h
  | eval call => cases h
  | _ => exact trivial

/-- What the pass looks at in a parallel loop: the visited body if it is a loop. -/
theorem vectorizeStmt_parallel :
    vectorizeStmt Z (.forLoop .parallel x min extent body) =
      if body.isFor then
        if (vectorizeStmt Z body).isSeqOrEvaluate then
          vectorizeForBody Z x min extent (vectorizeStmt Z body)
        else .forLoop .parallel x min extent (vectorizeStmt Z body)
      else if body.isSeqOrEvaluate then vectorizeForBody Z x min extent body
      else .forLoop .parallel x min extent (vectorizeStmt Z body) := by
  rw [vectorizeStmt]
  split
  · rfl
  · rfl

/-- Scoping, and what the loops around a nest can still merge. -/
theorem vectorizeStmt_static (hfits : s.MergeFits Z loops) :
    (∀ y ∈ (vectorizeStmt Z s).freeVars, y ∈ s.freeVars) ∧
      (s.isFor = true → (vectorizeStmt Z s).CallsFit Z loops) := by
  induction s generalizing loops with
  | seq s t ihs iht =>
    refine ⟨fun y hy => ?_, fun h => by cases h⟩
    rcases List.mem_append.mp hy with hy | hy
    · exact List.mem_append_left _ ((ihs hfits.1).1 y hy)
    · exact List.mem_append_right _ ((iht hfits.2).1 y hy)
  | forLoop kind x min extent body ih =>
    have hbound : ∀ {loops'}, body.MergeFits Z loops' →
        ∀ y ∈ (Stmt.forLoop kind x min extent (vectorizeStmt Z body)).freeVars,
          y ∈ (Stmt.forLoop kind x min extent body).freeVars := by
      intro loops' hbody y hy
      rcases List.mem_append.mp hy with hy | hy
      · exact List.mem_append_left _ hy
      · obtain ⟨hy, hne⟩ := List.mem_filter.mp hy
        exact List.mem_append_right _ (List.mem_filter.mpr ⟨(ih hbody).1 y hy, hne⟩)
    cases kind with
    | serial => exact ⟨hbound hfits, fun _ => trivial⟩
    | parallel =>
      obtain ⟨hne, hbody⟩ := hfits
      rw [vectorizeStmt_parallel]
      by_cases hfor : body.isFor = true
      · rw [if_pos hfor] at hbody ⊢
        split
        · have hcalls := (ih hbody).2 hfor
          refine ⟨fun y hy => ?_, fun _ => vectorizeForBody_callsFit hne hcalls⟩
          exact hbound hbody y (vectorizeForBody_freeVars hcalls y hy)
        · exact ⟨hbound hbody, fun _ => trivial⟩
      · rw [if_neg hfor] at hbody ⊢
        split
        · rename_i hseq
          rw [if_pos hseq] at hbody
          exact ⟨vectorizeForBody_freeVars hbody, fun _ => vectorizeForBody_callsFit hne hbody⟩
        · rename_i hseq
          rw [if_neg hseq] at hbody
          exact ⟨hbound hbody, fun _ => trivial⟩
  | ifThenElse cond s t ihs iht =>
    refine ⟨fun y hy => ?_, fun h => by cases h⟩
    rcases List.mem_append.mp hy with hy | hy
    · rcases List.mem_append.mp hy with hy | hy
      · exact List.mem_append_left _ (List.mem_append_left _ hy)
      · exact List.mem_append_left _ (List.mem_append_right _ ((ihs hfits.1).1 y hy))
    · exact List.mem_append_right _ ((iht hfits.2).1 y hy)
  | letStmt x value body ih =>
    refine ⟨fun y hy => ?_, fun h => by cases h⟩
    rcases List.mem_append.mp hy with hy | hy
    · exact List.mem_append_left _ hy
    · obtain ⟨hy, hne⟩ := List.mem_filter.mp hy
      exact List.mem_append_right _ (List.mem_filter.mpr ⟨(ih hfits).1 y hy, hne⟩)
  | store buf indices value => exact ⟨fun y hy => hy, fun h => by cases h⟩
  | eval call => exact ⟨fun y hy => hy, fun h => by cases h⟩
  | nop => exact ⟨fun y hy => hy, fun h => by cases h⟩

/-- A loop whose body is replaced by one that runs alike. -/
theorem forLoop_run_congr {kind : ForKind} {t : Stmt V}
    (h : ∀ i, InLoop A env min extent i → ∀ m,
      t.run A isTrue (atIter A env x i) m = body.run A isTrue (atIter A env x i) m) (m : Mem V) :
    (Stmt.forLoop kind x min extent t).run A isTrue env m =
      (Stmt.forLoop kind x min extent body).run A isTrue env m := by
  refine countLoop_rel_of_bounds (R := Eq) _ _ m m (fun i hi hi' m m' hm => ?_) rfl
  rw [hm]
  exact h i ⟨hi, hi'⟩ m'

/-- The pass keeps what a statement does and what its pieces touch. -/
theorem vectorizeStmt_spec (hind : s.Independent A isTrue env) (hfits : s.MergeFits Z loops) :
    (∀ m, (vectorizeStmt Z s).run A isTrue env m = s.run A isTrue env m) ∧
      ∀ F W, s.Touches A isTrue F W env → (vectorizeStmt Z s).Touches A isTrue F W env := by
  induction s generalizing loops env with
  | seq s t ihs iht =>
    obtain ⟨hsrun, hstouch⟩ := ihs hind.1 hfits.1
    obtain ⟨htrun, httouch⟩ := iht hind.2 hfits.2
    refine ⟨fun m => ?_, fun F W h => ⟨hstouch F W h.1, httouch F W h.2⟩⟩
    rw [vectorizeStmt, Stmt.run, Stmt.run, hsrun, htrun]
  | forLoop kind x min extent body ih =>
    obtain ⟨hpar, hinner⟩ := hind
    cases kind with
    | serial =>
      have hrun : ∀ m, (vectorizeStmt Z (.forLoop .serial x min extent body)).run A isTrue env m =
          (Stmt.forLoop .serial x min extent body).run A isTrue env m :=
        forLoop_run_congr fun i hi => (ih (hinner i hi.1 hi.2) hfits).1
      exact ⟨hrun, fun F W h => LocalTo.congr h hrun⟩
    | parallel =>
      obtain ⟨F', W', hapart, htouch'⟩ := hpar rfl
      obtain ⟨hne, hbody⟩ := hfits
      -- a loop kept around the visited body
      have hkept : ∀ {loops'}, body.MergeFits Z loops' →
          (∀ m, (Stmt.forLoop .parallel x min extent (vectorizeStmt Z body)).run A isTrue env m =
            (Stmt.forLoop .parallel x min extent body).run A isTrue env m) ∧
          ∀ F W, (Stmt.forLoop .parallel x min extent body).Touches A isTrue F W env →
            (Stmt.forLoop .parallel x min extent (vectorizeStmt Z body)).Touches A isTrue F W env :=
        fun hbody => ⟨forLoop_run_congr fun i hi => (ih (hinner i hi.1 hi.2) hbody).1,
          fun F W h => ⟨h.1, fun i hi hi' => (ih (hinner i hi hi') hbody).2 F W (h.2 i hi hi')⟩⟩
      rw [vectorizeStmt_parallel]
      by_cases hfor : body.isFor = true
      · rw [if_pos hfor] at hbody ⊢
        split
        · obtain ⟨hkrun, hktouch⟩ := hkept hbody
          have hcalls := (vectorizeStmt_static hbody).2 hfor
          have htouch := fun i (hi : InLoop A env min extent i) =>
            (ih (hinner i hi.1 hi.2) hbody).2 _ _ (htouch' i hi.1 hi.2)
          refine ⟨fun m => ?_, fun F W h => ?_⟩
          · rw [vectorizeForBody_run hcalls hapart htouch, hkrun]
          · obtain ⟨hsub, h⟩ := hktouch F W h
            exact vectorizeForBody_touches hcalls hapart htouch hsub fun i hi => h i hi.1 hi.2
        · exact hkept hbody
      · rw [if_neg hfor] at hbody ⊢
        split
        · rename_i hseq
          rw [if_pos hseq] at hbody
          refine ⟨vectorizeForBody_run hbody hapart fun i hi => htouch' i hi.1 hi.2, fun F W h => ?_⟩
          exact vectorizeForBody_touches hbody hapart (fun i hi => htouch' i hi.1 hi.2) h.1
            fun i hi => h.2 i hi.1 hi.2
        · rename_i hseq
          rw [if_neg hseq] at hbody
          exact hkept hbody
  | ifThenElse cond s t ihs iht =>
    have hrun : ∀ m, (vectorizeStmt Z (.ifThenElse cond s t)).run A isTrue env m =
        (Stmt.ifThenElse cond s t).run A isTrue env m := by
      intro m
      rw [vectorizeStmt, Stmt.run, Stmt.run, (ihs hind.1 hfits.1).1, (iht hind.2 hfits.2).1]
    exact ⟨hrun, fun F W h => LocalTo.congr h hrun⟩
  | letStmt x value body ih =>
    have hrun : ∀ m, (vectorizeStmt Z (.letStmt x value body)).run A isTrue env m =
        (Stmt.letStmt x value body).run A isTrue env m := by
      intro m
      rw [vectorizeStmt, Stmt.run, Stmt.run, (ih (hind m) hfits).1]
    exact ⟨hrun, fun F W h => LocalTo.congr h hrun⟩
  | store buf indices value => exact ⟨fun m => rfl, fun F W h => h⟩
  | eval call => exact ⟨fun m => rfl, fun F W h => h⟩
  | nop => exact ⟨fun m => rfl, fun F W h => h⟩

end

/-- The pass keeps what a statement does, and every variable it uses was used before
and not bound. -/
structure KeepsMeaning (A : Alg V) (isTrue : V → Bool) (Z : Analyzer) (s : Stmt V) (env : Env V) :
    Prop where
  run : ∀ m, (vectorizeStmt Z s).run A isTrue env m = s.run A isTrue env m
  scope : ∀ y ∈ (vectorizeStmt Z s).freeVars, y ∈ s.freeVars

/-- What a call touches. -/
theorem TileCall.localTo (A : Alg V) (env : Env V) (c : TileCall V) {F W : Set (ℕ × List ℤ)}
    (hsub : W ⊆ F) (hreads : ∀ b ∈ c.reads, ∀ q, (b, q) ∈ F)
    (hdst : ∀ q, c.dst.Contains A env q → (c.dst.buf.id, q) ∈ W) :
    LocalTo Mem.cell F W (c.exec A env) := by
  refine ⟨hsub, fun m z hz => ?_, fun m m' hm z hz => ?_⟩
  · have hnot : ¬ (z.1 = c.dst.buf.id ∧ c.dst.Contains A env z.2) := fun h =>
      hz (by simpa [← h.1] using hdst z.2 h.2)
    rw [Mem.cell, Mem.cell, TileCall.exec, if_neg hnot]
  · have hvalue : c.value A env m (c.dst.position A env z.2) =
        c.value A env m' (c.dst.position A env z.2) :=
      TileCall.value_congr (fun _ _ => rfl) fun b hb => funext fun q => hm (b, q) (hreads b hb q)
    rw [Mem.cell, Mem.cell, TileCall.exec, TileCall.exec, hvalue]
    split
    · rfl
    · exact hm z (hsub hz)

/-- An analyzer that knows constants and plain variables. -/
def Analyzer.plain : Analyzer where
  constInt
    | .const n => some n
    | _ => none
  proveEqual
    | .const a, .const b => a = b
    | _, _ => false
  detectLinear
    | .var y, x => if y = x then some (.const 1, .const 0) else none
    | _, _ => none
  simplify e := e
  constInt_eval e n h ρ := by
    cases e with
    | const k => exact Option.some.inj h
    | _ => cases h
  proveEqual_eval a b h ρ := by
    cases a with
    | const k =>
      cases b with
      | const l => exact of_decide_eq_true h
      | _ => cases h
    | _ => cases h
  detectLinear_eval e x c b h ρ := by
    cases e with
    | var y =>
      simp only at h
      split at h
      · rename_i hy
        obtain ⟨rfl, rfl⟩ := Prod.mk.inj (Option.some.inj h)
        simp [Index.eval, hy]
      · cases h
    | _ => cases h
  detectLinear_vars e x c b h y hy := by
    cases e with
    | var z =>
      simp only at h
      split at h
      · obtain ⟨rfl, rfl⟩ := Prod.mk.inj (Option.some.inj h)
        cases hy
      · cases h
    | _ => cases h
  simplify_eval _ _ := rfl
  simplify_vars _ _ h := h

/-- `for i in T.Parallel(2): out[i] = value`, decomposed. -/
def decomposedRow (value : Expr ℤ) : Stmt ℤ :=
  (visitStmt .none [] (.forLoop .parallel ⟨0, .int32⟩ (.const 0) (.const 2)
    (.store (rowAccess 0).buffer (rowAccess 0).indices value)) freshEmitter).1

/-- A loop over one call that writes `out[i]`. -/
theorem rowLoop_independent {c : TileCall ℤ} (hdst : c.dst = buildRegionCall (rowAccess 0))
    (hreads : 0 ∉ c.reads) (env : Env ℤ) :
    (Stmt.forLoop .parallel ⟨0, .int32⟩ (.const 0) (.const 2)
      (.seq (.eval c) .nop)).Independent intAlg (· ≠ 0) env := by
  refine ⟨fun _ => ⟨fun i => {z | z.1 ≠ 0 ∨ z.2 = [i]}, fun i => {z | z = (0, [i])}, ⟨?_⟩, ?_⟩,
    fun _ _ _ => ⟨trivial, trivial⟩⟩
  · rintro j k - - - - hjk
    rw [Set.disjoint_left]
    rintro z rfl (h | h)
    · exact h rfl
    · exact hjk (by simpa using h)
  · intro i _ _
    have hsub : {z : ℕ × List ℤ | z = (0, [i])} ⊆ {z | z.1 ≠ 0 ∨ z.2 = [i]} := by
      rintro z rfl
      exact .inr rfl
    refine ⟨TileCall.localTo _ _ c hsub (fun b hb q => .inl ?_) fun q hq => ?_, LocalTo.id hsub⟩
    · rintro rfl
      exact hreads hb
    · rw [hdst] at hq ⊢
      obtain ⟨a, rfl⟩ := List.length_eq_one_iff.mp hq.1
      obtain ⟨hlo, hhi⟩ := (List.forall₂_cons.mp hq.2).1
      have hi : atIter intAlg env ⟨0, .int32⟩ i ⟨0, .int32⟩ = i := Function.update_self _ _ _
      have hlo' : 0 ≤ a - atIter intAlg env ⟨0, .int32⟩ i ⟨0, .int32⟩ := hlo
      have hhi' : a - atIter intAlg env ⟨0, .int32⟩ i ⟨0, .int32⟩ < 1 := hhi
      obtain rfl : a = i := by omega
      rfl

/-- `A[2 * i]`. -/
def stridedRead : Expr ℤ :=
  .load ⟨1, [.const 4], .int32⟩ [.app .int32 [⟨0, .int32⟩] fun is => 2 * is.sum]

end TileLangNpuir.LoopVectorize
