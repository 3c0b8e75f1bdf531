import TileLangNpuir.LoopVectorize.Value

/-!
# Hoisting out of a parallel nest

`LoopDecompose` collects the statements that materialize loop variables, broadcast
loads and scalars while it visits the body of the outermost parallel loop, and puts
them before that loop. This module says what decomposing one store can hoist.

`Emits` says once what decomposing an expression can do to the emitter; the facts
about identities, variables and uses are read off it.
-/

namespace TileLangNpuir.LoopVectorize

variable {V : Type}

/-! ## What is hoisted -/

section Parts

variable (loops : List Loop) (S : Simplifier) (out : Access)

/-- The parts of a select's operand that are materialized before the nest, given
those of the operand itself. -/
def selectHoists (e : Expr V) (parts : List (Expr V)) : List (Expr V) :=
  if isLoopInvariantScalarLike loops e then []
  else parts ++ if containsAnyLoopVar loops e.vars then [] else [e]

/-- The parts of an operand that are materialized before the nest. -/
def Expr.hoists : Expr V → List (Expr V)
  | .imm _ _ => []
  | .var x => if (loopOf loops x).isSome then [.var x] else []
  | .load buf indices =>
    if containsAnyLoopVar loops (indices.flatMap Index.vars) && validBufferIndices indices then
      match indices.mapM (isSupportedVectorLoadIndex loops S) with
      | some indices' =>
        if checkNeedsReshapeBrc loops indices' out.indices.length then [.load buf indices] else []
      | none => []
    else []
  | .unary op a => if rankReducingCast out op a then [] else a.hoists
  | .binary op a b =>
    if canLowerBinaryOpToNpuir op (Expr.binary op a b).dtype then a.hoists ++ b.hoists else []
  | .ifThenElse c t f =>
    selectHoists loops c c.hoists ++ selectHoists loops t t.hoists ++ selectHoists loops f f.hoists
  | .other _ _ _ _ => []

/-- The parts of a stored expression that are materialized before the nest: a load
that is the whole expression is copied. -/
def Expr.hoistsRoot : Expr V → List (Expr V)
  | .load _ _ => []
  | e => e.hoists loops S out

/-- The variables that materializing a part brings before the nest. -/
def Expr.hoistedVars : Expr V → List Var
  | .var x =>
    match loopOf loops x with
    | some j => ((loops[j]?.map Loop.min).getD (.const 0)).vars
    | none => []
  | .load _ indices => (srcOffsets loops (indices.map S.simplify)).flatMap Index.vars
  | e => e.vars ++ out.buffer.shape.flatMap Index.vars

/-- What decomposing does to the emitter, for given hoisted parts. -/
inductive Emits (parts : List (Expr V)) : Emitter V → Emitter V → Prop
  | refl (st : Emitter V) : Emits parts st st
  | trans {st₁ st₂ st₃ : Emitter V} : Emits parts st₁ st₂ → Emits parts st₂ st₃ → Emits parts st₁ st₃
  /-- a statement that fills a new temporary -/
  | temp (st : Emitter V) (ref : Access) (t : DType) (c : TileCall V)
      (hdst : c.dst = buildRegionCall (createTempBuffer st.next ref t)) :
      Emits parts st ((st.temp ref t).2.stmt c)
  /-- a statement that writes the output -/
  | put (st : Emitter V) (c : TileCall V) (hdst : c.dst = buildRegionCall out) :
      Emits parts st (st.stmt c)
  /-- a loop variable -/
  | arange (st : Emitter V) (x : Var) (j : ℕ) (c : TileCall V) (a : Access)
      (hmem : .var x ∈ parts) (hj : loopOf loops x = some j)
      (hc : emitLoopVarArange loops j out st.next = (c, a)) :
      Emits parts st ((st.hoist [c] a (.var x) (st.next + 1)).pushTmp a)
  /-- a broadcast load -/
  | load (st : Emitter V) (buf : Buffer) (indices indices' : List Index) (cs : List (TileCall V))
      (a : Access) (n : ℕ) (hmem : .load buf indices ∈ parts)
      (hmap : indices.mapM (isSupportedVectorLoadIndex loops S) = some indices')
      (hc : emitReshapeAndBroadcast loops buf indices' out st.next = (cs, a, n)) :
      Emits parts st ((st.hoist cs a (.load buf indices) n).pushTmp a)
  /-- a scalar operand of a select -/
  | scalar (st : Emitter V) (e : Expr V) (t : DType) (hmem : e ∈ parts)
      (hscalar : isLoopInvariantScalarLike loops e = false)
      (hvars : containsAnyLoopVar loops e.vars = false) :
      Emits parts st ((st.temp out t).2.hoist
        [.brc (.scalar e) ⟨⟨st.next, out.buffer.shape, t⟩,
          makeZeroOffsets out.buffer.shape.length, out.buffer.shape⟩]
        ⟨⟨st.next, out.buffer.shape, t⟩, makeZeroOffsets out.buffer.shape.length⟩ e
        (st.next + 1))

end Parts

section Emits

variable {loops : List Loop} {S : Simplifier} {out : Access} {parts parts' : List (Expr V)}
  {st st' : Emitter V}

theorem Emits.mono (h : Emits loops S out parts st st') (hsub : parts ⊆ parts') :
    Emits loops S out parts' st st' := by
  induction h with
  | refl st => exact .refl st
  | trans _ _ ih ih' => exact .trans ih ih'
  | temp st ref t c hdst => exact .temp st ref t c hdst
  | put st c hdst => exact .put st c hdst
  | arange st x j c a hmem hj hc => exact .arange st x j c a (hsub hmem) hj hc
  | load st buf indices indices' cs a n hmem hmap hc =>
    exact .load st buf indices indices' cs a n (hsub hmem) hmap hc
  | scalar st e t hmem hscalar hvars => exact .scalar st e t (hsub hmem) hscalar hvars

/-- The last statement of a handler. -/
theorem emits_result {depth : ℕ} {ref : Access} {t : DType} (call : Region → TileCall V)
    (hdst : ∀ r, (call r).dst = r) :
    Emits loops S out parts st ((resultAccess depth out ref t st).2.stmt
      (call (buildRegionCall (resultAccess depth out ref t st).1))) := by
  rw [resultAccess]
  split
  · exact .temp st ref t _ (hdst _)
  · exact .put st _ (hdst _)

theorem resolveWith_emits {e : Expr V} {decomp : Emitter V → Bool × Emitter V}
    (h : Emits loops S out (e.hoists loops S out) st (decomp st).2) :
    Emits loops S out (e.hoists loops S out) st (resolveWith loops S out e decomp st).2 := by
  rw [resolveWith.eq_def]
  split
  case isTrue => exact .refl st
  case isFalse hscalar =>
    split
    · rename_i x
      split
      · rename_i j hj
        exact .arange st x j _ _ (by simp [Expr.hoists, hj]) hj rfl
      · exact .refl st
    · rename_i buf indices
      have hany : containsAnyLoopVar loops (indices.flatMap Index.vars) = true := by
        simpa [isLoopInvariantScalarLike] using hscalar
      split
      · rename_i hvalid
        split
        · rename_i indices' hmap
          split
          · rename_i hneeds
            exact .load st buf indices indices' _ _ _
              (by simp [Expr.hoists, hany, hvalid, hmap, hneeds]) hmap rfl
          · exact .refl st
        · exact .refl st
      · exact .refl st
    · rcases hd : decomp st with ⟨ok, st'⟩
      rw [hd] at h
      cases ok <;> exact h

theorem handleUnary_emits {depth : ℕ} {op : UnaryOp} {a : Expr V}
    {resolve : Emitter V → Option Access × Emitter V}
    (h : Emits loops S out (a.hoists loops S out) st (resolve st).2) :
    Emits loops S out ((Expr.unary op a).hoists loops S out) st
      (handleUnary out depth op a resolve st).2 := by
  rw [handleUnary, Expr.hoists]
  split
  · exact .refl st
  · rcases hr : resolve st with ⟨res, st'⟩
    rw [hr] at h
    cases res with
    | none => exact h
    | some src =>
      exact h.trans (emits_result (fun r => .unary op (.region (buildRegionCall src)) r) fun _ => rfl)

theorem scalarArg_emits {e : Expr V} {ref : Access} {t : DType} :
    Emits loops S out parts st (scalarArg e ref t st).2 := by
  rw [scalarArg]
  split
  · exact .refl st
  · exact .temp st ref t _ rfl

theorem binaryArgs_emits {op op₂ : BinaryOp} {a b : Expr V} {ra rb : Option Access} {t : DType}
    {argA argB : Arg V} {ref : Access}
    (h : binaryArgs op a b ra rb t st = some (op₂, argA, argB, ref, st')) :
    Emits loops S out parts st st' := by
  rcases ra with _ | x <;> rcases rb with _ | y
  · cases h
  · rw [binaryArgs] at h
    split at h
    · obtain ⟨-, -, -, -, rfl⟩ := by simpa only [Option.some.injEq, Prod.mk.injEq] using h
      exact .refl st
    · obtain ⟨-, -, -, -, rfl⟩ := by simpa only [Option.some.injEq, Prod.mk.injEq] using h
      exact scalarArg_emits
  · obtain ⟨-, -, -, -, rfl⟩ := by simpa only [binaryArgs, Option.some.injEq, Prod.mk.injEq] using h
    exact scalarArg_emits
  · obtain ⟨-, -, -, -, rfl⟩ := by simpa only [binaryArgs, Option.some.injEq, Prod.mk.injEq] using h
    exact .refl st

theorem handleBinary_emits {depth : ℕ} {op : BinaryOp} {a b : Expr V}
    {resolveA resolveB : Emitter V → Option Access × Emitter V}
    (ha : Emits loops S out (a.hoists loops S out) st (resolveA st).2)
    (hb : ∀ st, Emits loops S out (b.hoists loops S out) st (resolveB st).2) :
    Emits loops S out ((Expr.binary op a b).hoists loops S out) st
      (handleBinary out depth op a b resolveA resolveB st).2 := by
  rw [handleBinary, Expr.hoists]
  split
  case isFalse => exact .refl st
  case isTrue =>
    have hoperands : Emits loops S out (a.hoists loops S out ++ b.hoists loops S out) st
        (resolveB (resolveA st).2).2 :=
      (ha.mono (List.subset_append_left _ _)).trans ((hb _).mono (List.subset_append_right _ _))
    simp only
    split
    · exact hoperands
    · rename_i op₂ argA argB ref st₁ hargs
      have hst₁ := hoperands.trans (binaryArgs_emits hargs)
      split
      · -- the quotient and the product get temporaries of their own
        generalize inferBinaryComputeDType _ _ _ _ _ = t
        refine hst₁.trans (Emits.trans (.temp st₁ ref t
          (.binary .div argA argB (buildRegionCall (st₁.temp ref t).1)) rfl) ?_)
        generalize (st₁.temp ref t).2.stmt _ = st₂
        refine Emits.trans (.temp st₂ ref t (.binary .mul (.region (buildRegionCall (st₁.temp ref t).1)) argB
          (buildRegionCall (st₂.temp ref t).1)) rfl) ?_
        exact emits_result (fun r => .binary .sub argA _ r) fun _ => rfl
      · exact hst₁.trans (emits_result (fun r => .binary op₂ argA argB r) fun _ => rfl)

theorem resolveTernaryOperand_emits {e : Expr V} {t : DType}
    {resolve : Emitter V → Option Access × Emitter V}
    (h : Emits loops S out (e.hoists loops S out) st (resolve st).2) :
    Emits loops S out (selectHoists loops e (e.hoists loops S out)) st
      (resolveTernaryOperand loops out e resolve t st).2 := by
  rw [resolveTernaryOperand, selectHoists]
  split
  · exact .temp st out t _ rfl
  · rename_i hscalar
    have h' := h.mono (List.subset_append_left _
      (if containsAnyLoopVar loops e.vars = true then [] else [e]))
    rcases hr : resolve st with ⟨res, st₁⟩
    rw [hr] at h'
    cases res with
    | some a => exact h'
    | none =>
      by_cases hvars : containsAnyLoopVar loops e.vars = true
      · simp only [if_pos hvars] at h' ⊢
        exact h'
      · simp only [if_neg hvars] at h' ⊢
        exact h'.trans (.scalar st₁ e t (by simp) (by simpa using hscalar) (by simpa using hvars))

theorem handleTernary_emits {c t f : Expr V}
    {resolveC resolveT resolveF : Emitter V → Option Access × Emitter V}
    (hc : Emits loops S out (c.hoists loops S out) st (resolveC st).2)
    (ht : ∀ st, Emits loops S out (t.hoists loops S out) st (resolveT st).2)
    (hf : ∀ st, Emits loops S out (f.hoists loops S out) st (resolveF st).2) :
    Emits loops S out ((Expr.ifThenElse c t f).hoists loops S out) st
      (handleTernary loops out c t f resolveC resolveT resolveF st).2 := by
  have hc' := resolveTernaryOperand_emits (t := .bool) hc
  have ht' := fun st => resolveTernaryOperand_emits (t := out.buffer.dtype) (ht st)
  have hf' := fun st => resolveTernaryOperand_emits (t := out.buffer.dtype) (hf st)
  have hall := ((hc'.mono (List.subset_append_left _ _)).trans
    ((ht' _).mono (List.subset_append_right _ _))).mono (List.subset_append_left _ _) |>.trans
    ((hf' _).mono (List.subset_append_right _ _))
  rw [handleTernary, Expr.hoists]
  simp only
  split
  · exact hall.trans (.put _ _ rfl)
  · exact hall

/-- Decomposing an expression emits what its hoisted parts allow. -/
theorem decompose_emits (e : Expr V) (depth : ℕ) (st : Emitter V) :
    Emits loops S out (e.hoists loops S out) st (decompose loops S out depth e st).2 := by
  induction e generalizing depth st with
  | imm x t => exact .put st _ rfl
  | var x =>
    have hresolve : Emits loops S out ((Expr.var (V := V) x).hoists loops S out) st
        (resolveWith loops S out (.var x) (fun st => (false, st)) st).2 :=
      resolveWith_emits (.refl st)
    rw [decompose]
    rcases hr : resolveWith loops S out (.var x) (fun st => (false, st)) st with ⟨res, st₁⟩
    rw [hr] at hresolve
    cases res with
    | none => exact hresolve
    | some src => exact hresolve.trans (.put st₁ _ rfl)
  | load buf indices => exact .put st _ rfl
  | unary op a ih =>
    rw [decompose]
    exact handleUnary_emits (resolveWith_emits (ih _ _))
  | binary op a b iha ihb =>
    rw [decompose]
    exact handleBinary_emits (resolveWith_emits (iha _ _)) fun st => resolveWith_emits (ihb _ st)
  | ifThenElse c t f ihc iht ihf =>
    rw [decompose]
    exact handleTernary_emits (resolveWith_emits (ihc _ _)) (fun st => resolveWith_emits (iht _ st))
      fun st => resolveWith_emits (ihf _ st)
  | other t xs ls g => exact .refl st

/-! ## What is emitted, as a whole -/

variable {base lo hi : ℕ}

/-- How an access reads what was hoisted for an expression. -/
inductive UseOf (loops : List Loop) (S : Simplifier) (out : Access) (hs : List (TileCall V)) :
    Access → Expr V → Prop
  | arange (x : Var) (j n : ℕ) (c : TileCall V) (a : Access) (hj : loopOf loops x = some j)
      (hc : emitLoopVarArange loops j out n = (c, a)) (hmem : c ∈ hs) : UseOf loops S out hs a (.var x)
  | load (buf : Buffer) (indices indices' : List Index) (cs : List (TileCall V)) (a : Access)
      (n n' : ℕ) (hmap : indices.mapM (isSupportedVectorLoadIndex loops S) = some indices')
      (hbuf : buf.id < n) (hc : emitReshapeAndBroadcast loops buf indices' out n = (cs, a, n'))
      (hsub : ∀ c ∈ cs, c ∈ hs) : UseOf loops S out hs a (.load buf indices)
  | scalar (e : Expr V) (b : Buffer) (hscalar : isLoopInvariantScalarLike loops e = false)
      (hvars : containsAnyLoopVar loops e.vars = false) (hshape : b.shape = out.buffer.shape)
      (hmem : .brc (.scalar e) ⟨b, makeZeroOffsets b.shape.length, b.shape⟩ ∈ hs) :
      UseOf loops S out hs ⟨b, makeZeroOffsets b.shape.length⟩ e

theorem UseOf.mono {hs hs' : List (TileCall V)} {a : Access} {e : Expr V}
    (h : UseOf loops S out hs a e) (hsub : hs ⊆ hs') : UseOf loops S out hs' a e := by
  cases h with
  | arange x j n c a hj hc hmem => exact .arange x j n c a hj hc (hsub hmem)
  | load buf indices indices' cs a n n' hmap hbuf hc hmem =>
    exact .load buf indices indices' cs a n n' hmap hbuf hc fun c hc' => hsub (hmem c hc')
  | scalar e b hscalar hvars hshape hmem => exact .scalar e b hscalar hvars hshape (hsub hmem)

/-- What `Emits` adds up to: statements that write the output or new temporaries,
hoisted statements over new temporaries, and the accesses that read these. -/
structure Effects (loops : List Loop) (S : Simplifier) (out : Access) (base : ℕ)
    (parts : List (Expr V)) (lo hi : ℕ) (ss hs : List (TileCall V))
    (us : List (Access × Expr V)) : Prop where
  writes : ∃ ds, Added base (fun _ => True) lo hi ds hs ∧
    ∀ c ∈ ss, c.dst.buf.id = out.buffer.id ∨ c.dst.buf.id ∈ ds
  vars : ∀ h ∈ hs, ∀ x ∈ h.vars, ∃ e ∈ parts, x ∈ e.hoistedVars loops S out
  uses : ∀ u ∈ us, u.2 ∈ parts ∧ UseOf loops S out hs u.1 u.2 ∧ u.1.buffer.id ∈ dests hs

theorem Effects.append {mid : ℕ} {ss ts hs ks : List (TileCall V)} {us vs : List (Access × Expr V)}
    (hlo : lo ≤ mid) (hhi : mid ≤ hi) (h : Effects loops S out base parts lo mid ss hs us)
    (h' : Effects loops S out base parts mid hi ts ks vs) :
    Effects loops S out base parts lo hi (ss ++ ts) (hs ++ ks) (us ++ vs) := by
  obtain ⟨ds, hadd, hds⟩ := h.writes
  obtain ⟨ds', hadd', hds'⟩ := h'.writes
  refine ⟨⟨ds ++ ds', hadd.append hlo hhi hadd', fun c hc => ?_⟩, fun k hk => ?_, fun u hu => ?_⟩
  · rcases List.mem_append.mp hc with hc | hc
    · exact (hds c hc).imp_right (List.mem_append_left _)
    · exact (hds' c hc).imp_right (List.mem_append_right _)
  · rcases List.mem_append.mp hk with hk | hk
    · exact h.vars k hk
    · exact h'.vars k hk
  · rw [dests, List.map_append]
    rcases List.mem_append.mp hu with hu | hu
    · obtain ⟨hpart, huse, hmem⟩ := h.uses u hu
      exact ⟨hpart, huse.mono (List.subset_append_left _ _), List.mem_append_left _ hmem⟩
    · obtain ⟨hpart, huse, hmem⟩ := h'.uses u hu
      exact ⟨hpart, huse.mono (List.subset_append_right _ _), List.mem_append_right _ hmem⟩

theorem vars_regionND {b : Buffer} {sizes : List ℤ} (offsets : List Index) :
    (regionND b offsets sizes).vars = offsets.flatMap Index.vars := by
  simp [regionND, Region.vars, List.flatMap_map, Index.vars]

theorem vars_zeros (n : ℕ) : (makeZeroOffsets n).flatMap Index.vars = [] := by
  simp [makeZeroOffsets, Index.vars]

/-- The hoisted copy brings the offsets of the load; its result is the last
temporary. -/
theorem emitReshapeAndBroadcast_effects {buf : Buffer} {indices : List Index} {next n : ℕ}
    {cs : List (TileCall V)} {a : Access}
    (hr : emitReshapeAndBroadcast loops buf indices out next = (cs, a, n)) :
    (∀ c ∈ cs, ∀ x ∈ c.vars, x ∈ (srcOffsets loops indices).flatMap Index.vars) ∧
      a.buffer.id ∈ dests cs := by
  rw [emitReshapeAndBroadcast] at hr
  split at hr
  all_goals
    obtain ⟨rfl, rfl, rfl⟩ := by simpa only [Prod.mk.injEq] using hr
    refine ⟨fun c hc x hx => ?_, by simp [dests, TileCall.dst, regionND]⟩
    simp only [List.mem_cons, List.not_mem_nil, or_false] at hc
  · rcases hc with rfl | rfl
    · simpa [TileCall.vars, Arg.vars, vars_regionND, vars_zeros] using hx
    · simp [TileCall.vars, vars_regionND, vars_zeros] at hx
  · rcases hc with rfl | rfl | rfl
    · simpa [TileCall.vars, Arg.vars, vars_regionND, vars_zeros] using hx
    · simp [TileCall.vars, vars_regionND, vars_zeros] at hx
    · simp [TileCall.vars, Arg.vars, vars_regionND, vars_zeros] at hx

/-- The effects of statements alone. -/
theorem effects_stmts {ds : List ℕ} {ss : List (TileCall V)}
    (hadd : Added (V := V) base (fun _ => True) lo hi ds [])
    (hds : ∀ c ∈ ss, c.dst.buf.id = out.buffer.id ∨ c.dst.buf.id ∈ ds) :
    Effects loops S out base parts lo hi ss [] [] :=
  ⟨⟨ds, hadd, hds⟩, by simp, by simp⟩

/-- The effects of hoisting for one part. -/
theorem effects_hoist {hs : List (TileCall V)} {a : Access} {e : Expr V}
    (hpair : hs.Pairwise fun h h' => h.dst.buf.id < h'.dst.buf.id)
    (hok : ∀ h ∈ hs, HoistOk base (fun _ => True) lo hi h) (hmem : e ∈ parts)
    (hvars : ∀ h ∈ hs, ∀ x ∈ h.vars, x ∈ e.hoistedVars loops S out)
    (huse : UseOf loops S out hs a e) (hdst : a.buffer.id ∈ dests hs) :
    Effects loops S out base parts lo hi [] hs [(a, e)] := by
  refine ⟨⟨[], added_hoisted hpair hok, by simp⟩, fun h hh x hx => ⟨e, hmem, hvars h hh x hx⟩,
    fun u hu => ?_⟩
  obtain rfl := List.mem_singleton.mp hu
  exact ⟨hmem, huse, hdst⟩

/-- A hoisted scalar is a compound expression. -/
theorem compound_of_not_scalarLike {e : Expr V} (hscalar : isLoopInvariantScalarLike loops e = false)
    (hvars : containsAnyLoopVar loops e.vars = false) :
    (∀ x, e ≠ .var x) ∧ ∀ buf indices, e ≠ .load buf indices := by
  refine ⟨?_, ?_⟩
  · rintro x rfl
    obtain ⟨l, hl, hx⟩ : ∃ l ∈ loops, l.var = x := by
      simpa [isLoopInvariantScalarLike] using hscalar
    exact containsAnyLoopVar_eq_false.mp hvars l hl (List.mem_singleton.mpr hx)
  · rintro buf indices rfl
    have hany : containsAnyLoopVar loops (indices.flatMap Index.vars) = true := by
      simpa [isLoopInvariantScalarLike] using hscalar
    rw [Expr.vars, hany] at hvars
    cases hvars

theorem Emits.effects (h : Emits loops S out parts st st')
    (hparts : ∀ e ∈ parts, ∀ l ∈ e.loads, l.1.id < base) (hbase : base ≤ st.next) :
    st.next ≤ st'.next ∧ ∃ ss hs us, st'.stmts = st.stmts ++ ss ∧ st'.hoisted = st.hoisted ++ hs ∧
      st'.uses = st.uses ++ us ∧ Effects loops S out base parts st.next st'.next ss hs us := by
  induction h with
  | refl st =>
    exact ⟨le_rfl, [], [], [], by simp, by simp, by simp, effects_stmts .nil (by simp)⟩
  | trans _ _ ih ih' =>
    obtain ⟨hle, ss, hs, us, hss, hhs, hus, heff⟩ := ih hbase
    obtain ⟨hle', ts, ks, vs, hts, hks, hvs, heff'⟩ := ih' (le_trans hbase hle)
    exact ⟨le_trans hle hle', ss ++ ts, hs ++ ks, us ++ vs, by rw [hts, hss, List.append_assoc],
      by rw [hks, hhs, List.append_assoc], by rw [hvs, hus, List.append_assoc],
      heff.append hle hle' heff'⟩
  | temp st ref t c hdst =>
    refine ⟨Nat.le_succ _, [c], [], [], rfl, by simp [Emitter.stmt, Emitter.temp, Emitter.pushTmp],
      by simp [Emitter.stmt, Emitter.temp, Emitter.pushTmp], effects_stmts added_temp
        fun c' hc' => .inr ?_⟩
    obtain rfl := List.mem_singleton.mp hc'
    rw [hdst]
    exact List.mem_cons_self
  | put st c hdst =>
    refine ⟨le_rfl, [c], [], [], rfl, by simp [Emitter.stmt], by simp [Emitter.stmt],
      effects_stmts .nil fun c' hc' => .inl ?_⟩
    obtain rfl := List.mem_singleton.mp hc'
    rw [hdst]
    rfl
  | arange st x j c a hmem hj hc =>
    refine ⟨Nat.le_succ _, [], [c], [(a, .var x)], by simp [Emitter.hoist, Emitter.pushTmp], rfl, rfl,
      ?_⟩
    have huse : UseOf loops S out [c] a (.var x) :=
      .arange x j st.next c a hj hc List.mem_cons_self
    rw [emitLoopVarArange] at hc
    obtain ⟨rfl, rfl⟩ := Prod.mk.inj hc
    refine effects_hoist (List.pairwise_singleton _ _) (fun h hh => ?_) hmem (fun h hh x hx => ?_)
      huse List.mem_cons_self
    · obtain rfl := List.mem_singleton.mp hh
      exact ⟨le_rfl, Nat.lt_succ_self _, fun b hb => absurd hb List.not_mem_nil⟩
    · obtain rfl := List.mem_singleton.mp hh
      simpa [Expr.hoistedVars, hj, TileCall.vars, vars_regionND, vars_zeros] using hx
  | load st buf indices indices' cs a n hmem hmap hc =>
    have hbuf := hparts _ hmem (buf, indices) List.mem_cons_self
    obtain ⟨hn, -, hpair, hok⟩ := emitReshapeAndBroadcast_hoistOk (fun _ => True) hbuf trivial hc
    obtain ⟨hvars, hdst⟩ := emitReshapeAndBroadcast_effects hc
    refine ⟨hn, [], cs, [(a, .load buf indices)], by simp [Emitter.hoist, Emitter.pushTmp], rfl, rfl,
      effects_hoist hpair hok hmem ?_ (.load buf indices indices' cs a st.next n hmap
        (lt_of_lt_of_le hbuf hbase) hc fun _ h => h) hdst⟩
    rw [Expr.hoistedVars, ← (supported_of_mapM hmap).1]
    exact hvars
  | scalar st e t hmem hscalar hvars =>
    refine ⟨Nat.le_succ _, [], [_], [(_, e)], by simp [Emitter.hoist, Emitter.temp, Emitter.pushTmp],
      rfl, rfl, effects_hoist (List.pairwise_singleton _ _) (fun h hh => ?_) hmem
        (fun h hh x hx => ?_) (.scalar e ⟨st.next, out.buffer.shape, t⟩ hscalar hvars rfl
          List.mem_cons_self) List.mem_cons_self⟩
    · obtain rfl := List.mem_singleton.mp hh
      refine ⟨le_rfl, Nat.lt_succ_self _, fun b hb => .inl ⟨?_, trivial⟩⟩
      obtain ⟨l, hl, rfl⟩ := List.mem_map.mp hb
      exact hparts e hmem l hl
    · obtain rfl := List.mem_singleton.mp hh
      have hx' : x ∈ e.vars ++ out.buffer.shape.flatMap Index.vars := by
        simpa [TileCall.vars, Arg.vars, Region.vars, vars_zeros] using hx
      obtain ⟨hvar, hload⟩ := compound_of_not_scalarLike hscalar hvars
      rw [Expr.hoistedVars]
      · exact hx'
      · exact hvar
      · exact hload

end Emits

end TileLangNpuir.LoopVectorize
