import TileLangNpuir.LoopVectorize.Operand

/-!
# The value `LoopDecompose` stores

For a perfect nest of parallel loops around one store, the nest of emitted
statements, after the hoisted ones, stores what the store does in every iteration:
the two nests leave the same contents in every buffer that existed before the pass.
-/

namespace TileLangNpuir.LoopVectorize

variable {V : Type} {A : Alg V} {isTrue : V → Bool} {env env' : Env V} {m m' : Mem V}

/-! ## Running nests -/

/-- A perfect nest of parallel loops. -/
def nest (loops : List Loop) (body : Stmt V) : Stmt V :=
  loops.foldr (fun l s => .forLoop .parallel l.var l.min (.const l.extent) s) body

theorem run_prepend {cs : List (TileCall V)} {s : Stmt V} :
    (Stmt.prepend cs s).run A isTrue env m = s.run A isTrue env (execAll A env cs m) := by
  induction cs generalizing m with
  | nil => rfl
  | cons c cs ih => exact ih

/-- Entering one more loop. -/
theorem Iteration.extend {loops : List Loop} (h : Iteration A loops env env') {l : Loop} {i : ℤ}
    (hnew : ∀ l' ∈ loops, l'.var ≠ l.var) (hlo : l.min.eval (A.ints env) ≤ i)
    (hup : i < l.min.eval (A.ints env) + l.extent) :
    Iteration A (loops ++ [l]) env (Function.update env' l.var (A.ofInt i)) := by
  have hold : ∀ l' ∈ loops, Function.update env' l.var (A.ofInt i) l'.var = env' l'.var :=
    fun l' hl' => Function.update_of_ne (hnew l' hl') _ _
  have hints : ∀ l' ∈ loops, A.ints (Function.update env' l.var (A.ofInt i)) l'.var =
      A.ints env' l'.var := fun l' hl' => by rw [Alg.ints, Alg.ints, hold l' hl']
  have hself : A.ints (Function.update env' l.var (A.ofInt i)) l.var = i := by
    rw [Alg.ints, Function.update_self, A.toInt_ofInt]
  refine ⟨fun x hx => ?_, fun l' hl' => ?_, fun l' hl' => ?_, fun l' hl' => ?_⟩
  · rw [Function.update_of_ne (hx l (by simp)).symm]
    exact h.outside x fun l' hl' => hx l' (List.mem_append_left _ hl')
  all_goals rcases List.mem_append.mp hl' with hl' | hl'
  · rw [hints l' hl', hold l' hl']
    exact h.counter l' hl'
  · obtain rfl := List.mem_singleton.mp hl'
    rw [hself, Function.update_self]
  · rw [hints l' hl']
    exact h.lower l' hl'
  · obtain rfl := List.mem_singleton.mp hl'
    rw [hself]
    exact hlo
  · rw [hints l' hl']
    exact h.upper l' hl'
  · obtain rfl := List.mem_singleton.mp hl'
    rw [hself]
    exact hup

/-- Two nests keep any relation that their bodies keep in every iteration. -/
theorem nest_rel (N : Nest) {s t : Stmt V} {R : Mem V → Mem V → Prop}
    (hstep : ∀ env', Iteration A N.loops env env' → ∀ m m', R m m' →
      R (s.run A isTrue env' m) (t.run A isTrue env' m')) (h : R m m') :
    R ((nest N.loops s).run A isTrue env m) ((nest N.loops t).run A isTrue env m') := by
  suffices hsuffix : ∀ inner outer, N.loops = outer ++ inner → ∀ env', Iteration A outer env env' →
      ∀ m m', R m m' →
        R ((nest inner s).run A isTrue env' m) ((nest inner t).run A isTrue env' m') from
    hsuffix N.loops [] rfl env ⟨fun _ _ => rfl, by simp, by simp, by simp⟩ m m' h
  intro inner
  -- `outer` are the loops already entered, with `env'` inside them
  induction inner with
  | nil =>
    intro outer hloops env' hit m m' h
    rw [List.append_nil] at hloops
    exact hstep env' (hloops ▸ hit) m m' h
  | cons l inner ih =>
    intro outer hloops env' hit m m' h
    have hmem : l ∈ N.loops := by rw [hloops]; simp
    have hsub : ∀ l' ∈ outer, l' ∈ N.loops := fun l' hl' => by
      rw [hloops]
      exact List.mem_append_left _ hl'
    have hnew : ∀ l' ∈ outer, l'.var ≠ l.var := by
      have hnd := N.nodup
      rw [hloops, List.map_append, List.map_cons, List.nodup_append] at hnd
      exact fun l' hl' => hnd.2.2 _ (List.mem_map_of_mem hl') _ List.mem_cons_self
    have hmin : l.min.eval (A.ints env') = l.min.eval (A.ints env) := by
      refine Index.eval_congr fun x hx => hit.ints x fun l' hl' hlx => ?_
      exact N.rectangular l hmem l' (hsub l' hl') (hlx ▸ hx)
    simp only [nest, List.foldr_cons, Stmt.run, hmin]
    refine countLoop_rel_of_bounds _ _ _ _ (fun i hlo hup m m' h => ?_) h
    refine ih (outer ++ [l]) (by rw [hloops]; simp) _ ?_ m m' h
    refine hit.extend hnew hlo ?_
    simp only [Index.eval] at hup
    omega

/-! ## Hoisted statements -/

/-- What a call computes and where is unaffected by writes to other buffers. -/
theorem Stable.of_agree {h : TileCall V} (hs : Stable A env m h)
    (heq : ∀ b ∈ h.dst.buf.id :: h.reads, m' b = m b) : Stable A env m' h := by
  funext b q
  rw [TileCall.exec]
  split
  case isFalse => rfl
  case isTrue hb =>
    obtain ⟨rfl, hq⟩ := hb
    rw [TileCall.value_congr (fun _ _ => rfl) fun b hb => heq b (List.mem_cons_of_mem _ hb),
      ← TileCall.exec_contains hq, hs, heq _ List.mem_cons_self]

/-- After the hoisted statements have run, each of them is stable. -/
theorem stable_execAll {base lo hi : ℕ} {src : ℕ → Prop} {hs : List (TileCall V)} (hbase : base ≤ lo)
    (hordered : hs.Pairwise fun h h' => h.dst.buf.id < h'.dst.buf.id)
    (hok : ∀ h ∈ hs, HoistOk base src lo hi h) :
    ∀ h ∈ hs, Stable A env (execAll A env hs m) h := by
  induction hs generalizing m with
  | nil => simp
  | cons c cs ih =>
    obtain ⟨hlt, hordered⟩ := List.pairwise_cons.mp hordered
    have hokc := hok c List.mem_cons_self
    intro h hh
    rw [execAll, List.foldl_cons, ← execAll]
    rcases List.mem_cons.mp hh with rfl | hh
    · -- the later ones write larger temporaries
      have hlo := hokc.lo_le
      have hreads : ∀ b ∈ h.reads, b < h.dst.buf.id := fun b hb => by
        rcases hokc.reads b hb with ⟨hb, -⟩ | ⟨-, hb⟩ <;> omega
      have hself : Stable A env (h.exec A env m) h := by
        funext b q
        rw [TileCall.exec]
        split
        case isFalse => rfl
        case isTrue hb =>
          obtain ⟨rfl, hq⟩ := hb
          rw [TileCall.exec_contains hq]
          refine TileCall.value_congr (fun _ _ => rfl) fun b hb => ?_
          exact TileCall.exec_of_ne (Nat.ne_of_lt (hreads b hb))
      refine hself.of_agree fun b hb => execAll_of_forall_ne fun c' hc' => ?_
      have hc'' := hlt c' hc'
      rcases List.mem_cons.mp hb with rfl | hb
      · omega
      · have := hreads b hb
        omega
    · exact ih hordered (fun k hk => hok k (List.mem_cons_of_mem _ hk)) h hh

/-! ## One store -/

section Store

variable {N : Nest} {S : Simplifier} {base : ℕ} {st st' : Emitter V} {buf : Buffer}
  {indices : List Index} {e : Expr V} {calls : List (TileCall V)}

/-- The statements for a store: temporaries first, then one call that puts the
value of the expression in the output. -/
structure StoreSpec (A : Alg V) (env : Env V) (loops : List Loop) (base lo hi : ℕ) (out : Access)
    (e : Expr V) (calls hs : List (TileCall V)) : Prop where
  split : ∃ ts c, calls = ts ++ [c] ∧ c.dst = buildRegionCall out ∧
    Added base (· ≠ out.buffer.id) lo hi (dests ts) hs ∧
    ∀ env' m p, Iteration A loops env env' → (∀ h ∈ hs, Stable A env m h) →
      c.value A env' (execAll A env' ts m) p = e.eval A env' m

theorem vectorizeSingleStatement_spec (hbase : base ≤ st.next) (hhoisted : st.hoisted = [])
    (hloads : ∀ l ∈ e.loads, l.1.id < base) (hgood : GoodRoot A env N.loops S ⟨buf, indices⟩ e)
    (hv : vectorizeSingleStatement S N.loops buf indices e st = (some calls, st')) :
    StoreSpec A env N.loops base st.next st'.next ⟨buf, indices⟩ e calls st'.hoisted := by
  rw [vectorizeSingleStatement] at hv
  split at hv
  case isFalse => cases hv
  case isTrue hindices =>
    have hout : ∀ e ∈ indices, e.isVar = true ∨ e.isConst = true := by simpa using hindices
    split at hv
    case isFalse => cases hv
    case isTrue =>
      have hinv : Emitter.Inv base { st with stmts := [], tmpBufs := [] } := ⟨hbase, by simp⟩
      obtain ⟨st₁, hgrows, -, hr⟩ := decompose_spec hout hloads hgood hinv
      obtain ⟨ss, hs, hss, hhs, hadd⟩ := hgrows.added
      rcases hr with hr | ⟨call, ref, t, hfinal, hr⟩
      · rw [hr] at hv
        cases hv
      · rw [hr] at hv
        obtain ⟨rfl, rfl⟩ := by simpa only [Prod.mk.injEq, Option.some.injEq] using hv
        rw [hhoisted, List.nil_append] at hhs
        have hstmts : st₁.stmts = ss := by simpa using hss
        refine ⟨st₁.stmts, _, rfl, hfinal.dst _, ?_, fun env' m p hit hstable => ?_⟩
        · rw [hstmts]
          exact hhs ▸ hadd
        · exact hfinal.value env' m p _ hit hstable

/-- The contents agree on the buffers that existed, and the hoisted temporaries
are filled. -/
def AgreeBelow (A : Alg V) (env : Env V) (base : ℕ) (hs : List (TileCall V)) (m m' : Mem V) :
    Prop :=
  (∀ b < base, m b = m' b) ∧ ∀ h ∈ hs, Stable A env m h

/-- One iteration of the emitted statements and of the store. -/
theorem StoreSpec.step {lo hi : ℕ} {out : Access} {hs : List (TileCall V)}
    (hspec : StoreSpec A env N.loops base lo hi out e calls hs) (hbase : base ≤ lo)
    (hout : out.buffer.id < base) (hloads : ∀ l ∈ e.loads, l.1.id < base)
    (hit : Iteration A N.loops env env') (h : AgreeBelow A env base hs m m') :
    AgreeBelow A env base hs (execAll A env' calls m)
      (storeAt m' out.buffer.id (A.evals env' out.indices) (e.eval A env' m')) := by
  obtain ⟨ts, c, rfl, hdst, hadd, hvalue⟩ := hspec.split
  have hval : e.eval A env' m = e.eval A env' m' :=
    Expr.eval_congr (fun _ _ => rfl) fun l hl => h.1 _ (hloads l hl)
  have hrun : execAll A env' (ts ++ [c]) m =
      storeAt (execAll A env' ts m) out.buffer.id (A.evals env' out.indices) (e.eval A env' m) := by
    rw [execAll_append, execAll, List.foldl_cons, List.foldl_nil]
    exact exec_single hdst fun p => hvalue env' m p hit h.2
  have hbelow : ∀ b < base, execAll A env' ts m b = m b := fun b hb =>
    execAll_of_forall_ne fun c hc => by
      have := (hadd.dests _ (mem_dests.mpr ⟨c, hc, rfl⟩)).1
      omega
  rw [hrun, hval]
  refine ⟨fun b hb => ?_, fun k hk => (h.2 k hk).of_agree fun b hb => ?_⟩
  · funext q
    simp only [storeAt, hbelow b hb, h.1 b hb]
  · have hok := hadd.hoisted k hk
    have hne : b ≠ out.buffer.id ∧ ∀ c ∈ ts, b ≠ c.dst.buf.id := by
      refine ⟨?_, fun c hc => ?_⟩
      · rcases List.mem_cons.mp hb with rfl | hb
        · have := hok.lo_le
          omega
        · rcases hok.reads b hb with ⟨-, hb⟩ | ⟨hb, -⟩ <;> omega
      · obtain ⟨hd, hr⟩ := hadd.apart hbase _ (mem_dests.mpr ⟨c, hc, rfl⟩) k hk
        rcases List.mem_cons.mp hb with rfl | hb
        · exact hd.symm
        · rintro rfl
          exact hr hb
    funext q
    rw [storeAt, if_neg fun hq => hne.1 hq.1, execAll_of_forall_ne hne.2]

/-- The nest of a store, decomposed, does what the nest does. -/
theorem StoreSpec.nest_run {lo hi : ℕ} {out : Access} {hs : List (TileCall V)}
    (hspec : StoreSpec A env N.loops base lo hi out e calls hs) (hbase : base ≤ lo)
    (hout : out.buffer.id < base) (hloads : ∀ l ∈ e.loads, l.1.id < base) {b : ℕ} (hb : b < base) :
    (Stmt.prepend hs (nest N.loops (.prepend calls .nop))).run A isTrue env m b =
      (nest N.loops (.store out.buffer out.indices e)).run A isTrue env m b := by
  obtain ⟨_, _, _, _, hadd, _⟩ := hspec.split
  have hinit : AgreeBelow A env base hs (execAll A env hs m) m := by
    refine ⟨fun b hb => execAll_of_forall_ne fun c hc => ?_,
      stable_execAll hbase hadd.ordered hadd.hoisted⟩
    have := (hadd.hoisted c hc).lo_le
    omega
  rw [run_prepend]
  refine (nest_rel N (R := AgreeBelow A env base hs) (fun env' hit m m' h => ?_) hinit).1 b hb
  rw [run_prepend]
  exact hspec.step hbase hout hloads hit h

/-- What the decomposition of a store is for. -/
structure StoresValue (A : Alg V) (isTrue : V → Bool) (env : Env V) (loops : List Loop) (base : ℕ)
    (out : Access) (e : Expr V) (calls hs : List (TileCall V)) : Prop where
  /-- In every iteration, with the hoisted temporaries filled, the value of the
  expression is stored. -/
  iteration : ∀ env' m, Iteration A loops env env' → (∀ h ∈ hs, Stable A env m h) →
    execAll A env' calls m out.buffer.id (A.evals env' out.indices) = e.eval A env' m
  /-- The two nests leave the same contents in every buffer that existed. -/
  run : ∀ m, ∀ b < base, (Stmt.prepend hs (nest loops (.prepend calls .nop))).run A isTrue env m b =
    (nest loops (.store out.buffer out.indices e)).run A isTrue env m b
  /-- Only the last statement writes the output. -/
  last : ∃ ts c, calls = ts ++ [c] ∧ c.dst = buildRegionCall out ∧
    ∀ c' ∈ ts, c'.dst.buf.id ≠ out.buffer.id

/-- A good store is decomposed right. -/
theorem vectorizeSingleStatement_storesValue (hhoisted : st.hoisted = [])
    (hout : buf.id < st.next) (hloads : ∀ l ∈ e.loads, l.1.id < st.next)
    (hgood : GoodRoot A env N.loops S ⟨buf, indices⟩ e)
    (hv : vectorizeSingleStatement S N.loops buf indices e st = (some calls, st')) :
    StoresValue A isTrue env N.loops st.next ⟨buf, indices⟩ e calls st'.hoisted := by
  have hspec := vectorizeSingleStatement_spec le_rfl hhoisted hloads hgood hv
  refine ⟨fun env' m hit hstable => ?_, fun m b hb => hspec.nest_run le_rfl hout hloads hb, ?_⟩
  · have hagree : AgreeBelow A env st.next st'.hoisted m m := ⟨fun _ _ => rfl, hstable⟩
    have hstep := (hspec.step le_rfl hout hloads hit hagree).1 _ hout
    exact (congrFun hstep _).trans (if_pos ⟨rfl, rfl⟩)
  · obtain ⟨ts, c, hcalls, hdst, hadd, -⟩ := hspec.split
    refine ⟨ts, c, hcalls, hdst, fun c' hc' => ?_⟩
    exact Nat.ne_of_gt (lt_of_lt_of_le hout (hadd.dests _ (mem_dests.mpr ⟨c', hc', rfl⟩)).1)

end Store

/-- The visitor turns a perfect nest around a store into the nest of the emitted
statements after the hoisted ones. -/
theorem visitStmt_nest {S : Simplifier} {loops : List Loop} (hne : loops ≠ []) {buf : Buffer}
    {indices : List Index} {e : Expr V} {st st' : Emitter V} {calls : List (TileCall V)}
    (hv : vectorizeSingleStatement S loops buf indices e st = (some calls, st')) :
    visitStmt S [] (nest loops (.store buf indices e)) st =
      (Stmt.prepend st'.hoisted (nest loops (.prepend calls .nop)),
        { st' with hoisted := [] }) := by
  suffices hsuffix : ∀ inner outer, inner ≠ [] → outer ++ inner = loops →
      visitStmt S outer (nest inner (.store buf indices e)) st =
        if outer.isEmpty then
          (Stmt.prepend st'.hoisted (nest inner (.prepend calls .nop)), { st' with hoisted := [] })
        else (nest inner (.prepend calls .nop), st') from
    hsuffix loops [] hne rfl
  intro inner
  induction inner with
  | nil => exact fun _ h => absurd rfl h
  | cons l inner ih =>
    intro outer _ hloops
    cases inner with
    | nil =>
      simp only [nest, List.foldr_cons, List.foldr_nil, visitStmt, parallelExtent, Stmt.asStore,
        hloops, hv]
    | cons l' inner =>
      have hrec := ih (outer ++ [l]) (by simp) (by rw [← hloops]; simp)
      rw [if_neg (by simp)] at hrec
      simp only [nest, List.foldr_cons] at hrec
      simp only [nest, List.foldr_cons, visitStmt, parallelExtent, Stmt.asStore] at hrec ⊢
      rw [hrec]

/-! ## Expressions without selects -/

/-- The index reads every loop variable with unit stride. -/
def UsesEveryLoop (loops : List Loop) (indices : List Index) : Prop :=
  ∀ l ∈ loops, ∃ e ∈ indices, isUnitStrideLoopIndex loops l.var e = true

section Plain

variable (A : Alg V) (env : Env V) (loops : List Loop) (S : Simplifier) (out : Access)

/-- Arithmetic, comparisons, casts and unary calls over loop variables, scalars,
invariant loads and loads that use every loop and have the rank of the output. -/
def Plain : Expr V → Prop
  | .imm _ _ => True
  | .var _ => True
  | .load _ indices =>
    containsAnyLoopVar loops (indices.flatMap Index.vars) = false ∨
      (indices.length = out.indices.length ∧ UsesEveryLoop loops (indices.map S.simplify))
  | .unary _ a => Plain a
  | .binary op a b => op ≠ .floorDiv ∧ op ≠ .floorMod ∧ Plain a ∧ Plain b
  | .ifThenElse _ _ _ => False
  | .other _ _ _ _ => False

/-- Every `>` and `≥` that is taken apart with a scalar on its left has one on its
right, and the output follows each loop variable that is used as a value. -/
def PlainExact : Expr V → Prop
  | .var x =>
    ∀ j, loopOf loops x = some j →
      (∀ e ∈ out.indices, outLevel loops e = none → e.eval (A.ints env) = 0) ∧
        (1 < extentOf loops j → out.indices.countP (fun e => outLevel loops e = some j) = 1)
  | .unary op a => rankReducingCast out op a = false → PlainExact a
  | .binary op a b =>
    canLowerBinaryOpToNpuir op (Expr.binary op a b).dtype = true →
      PlainExact a ∧ PlainExact b ∧
        (op = .gt ∨ op = .ge → b.resolves loops S out = true → a.resolves loops S out = true)
  | _ => True

end Plain

section PlainGood

variable {N : Nest} {S : Simplifier} {out : Access}

/-- A unit-stride index has no loop variable but its own. -/
theorem mem_vars_of_unitStride {loops : List Loop} {x : Var} {e : Index}
    (h : isUnitStrideLoopIndex loops x e = true) (hx : ∃ l ∈ loops, l.var = x) :
    x ∈ e.vars ∧ ∀ l ∈ loops, l.var ∈ e.vars → l.var = x := by
  induction e with
  | const n => cases h
  | var y =>
    obtain rfl : y = x := by simpa [isUnitStrideLoopIndex] using h
    exact ⟨List.mem_cons_self, fun l _ hl => List.mem_singleton.mp hl⟩
  | add a b iha ihb =>
    simp only [isUnitStrideLoopIndex, Bool.or_eq_true, Bool.and_eq_true, Bool.not_eq_true'] at h
    simp only [Index.vars, List.mem_append]
    rcases h with ⟨ha, hb⟩ | ⟨ha, hb⟩
    · obtain ⟨hmem, hall⟩ := iha ha
      refine ⟨.inl hmem, fun l hl hlv => hall l hl (hlv.resolve_right ?_)⟩
      exact containsAnyLoopVar_eq_false.mp hb l hl
    · obtain ⟨hmem, hall⟩ := ihb hb
      refine ⟨.inr hmem, fun l hl hlv => hall l hl (hlv.resolve_left ?_)⟩
      exact containsAnyLoopVar_eq_false.mp ha l hl
  | sub a b iha _ =>
    simp only [isUnitStrideLoopIndex, Bool.and_eq_true, Bool.not_eq_true'] at h
    simp only [Index.vars, List.mem_append]
    obtain ⟨hmem, hall⟩ := iha h.1
    refine ⟨.inl hmem, fun l hl hlv => hall l hl (hlv.resolve_right ?_)⟩
    exact containsAnyLoopVar_eq_false.mp h.2 l hl
  | cast t a ih => exact ih h
  | app t xs f => cases h

/-- A load that uses every loop needs no reshape. -/
theorem checkNeedsReshapeBrc_of_usesEveryLoop {indices : List Index} {n : ℕ}
    (h : UsesEveryLoop N.loops indices) (hn : n ≤ indices.length) :
    checkNeedsReshapeBrc N.loops indices n = false := by
  have hlevel : ∀ j < N.loops.length, j ∈ usedLevels N.loops indices := by
    intro j hj
    obtain ⟨l, hl⟩ : ∃ l, N.loops[j]? = some l := ⟨_, List.getElem?_eq_getElem hj⟩
    obtain ⟨e, he, hunit⟩ := h l (List.mem_of_getElem? hl)
    obtain ⟨hmem, hall⟩ := mem_vars_of_unitStride hunit ⟨l, List.mem_of_getElem? hl, rfl⟩
    have hlevels : levelsUsed N.loops e = [j] := by
      refine levelsUsed_eq_singleton (mem_levelsUsed.mpr ⟨l, hl, hmem⟩) fun k hk => ?_
      obtain ⟨l', hl', hx⟩ := mem_levelsUsed.mp hk
      exact N.level_unique hl' hl (hall l' (List.mem_of_getElem? hl') hx)
    refine List.mem_dedup.mpr (List.mem_filterMap.mpr ⟨e, he, ?_⟩)
    simp [indexToLoop, findMappedLoopVar, hlevels]
  have hlength : (usedLevels N.loops indices).length = N.loops.length := by
    have hsub : usedLevels N.loops indices ⊆ List.range N.loops.length := by
      intro j hj
      obtain ⟨e, -, he⟩ := List.mem_filterMap.mp (List.mem_dedup.mp hj)
      obtain ⟨⟨l, hl, -⟩, -⟩ := findMappedLoopVar_loop (indexToLoop_eq_some.mp he)
      exact List.mem_range.mpr (lt_length_of_getElem? hl)
    refine le_antisymm ?_ ?_
    · have hle := ((List.nodup_dedup _).subperm hsub).length_le
      rwa [List.length_range] at hle
    · have hle := (List.nodup_range.subperm fun j hj => hlevel j (List.mem_range.mp hj)).length_le
      rwa [List.length_range] at hle
  simp [checkNeedsReshapeBrc, hlength, hn]

/-- An expression without selects is good when it is exact. -/
theorem good_of_plainExact {e : Expr V} (hmin : ∀ l ∈ N.loops, l.min = .const 0)
    (hplain : Plain N.loops S out e) (hexact : PlainExact A env N.loops S out e) :
    Good A env N.loops S out e := by
  induction e with
  | imm x t => trivial
  | var x =>
    intro j hj
    obtain ⟨hzero, honce⟩ := hexact j hj
    refine ⟨hzero, fun e he k hk => ?_, honce⟩
    obtain ⟨l, -, hl⟩ := outLevel_eq_some hk
    simp [loopMin, hl, hmin l (List.mem_of_getElem? hl), Index.eval]
  | load buf indices =>
    intro indices' hmap hany hneeds
    obtain ⟨rfl, -⟩ := supported_of_mapM hmap
    rcases hplain with hinv | ⟨hrank, huses⟩
    · rw [hinv] at hany
      cases hany
    · rw [checkNeedsReshapeBrc_of_usesEveryLoop huses (by simp [hrank])] at hneeds
      cases hneeds
  | unary op a ih => exact fun hrank => ih hplain (hexact hrank)
  | binary op a b iha ihb =>
    obtain ⟨hdiv, hmod, ha, hb⟩ := hplain
    intro hlower
    obtain ⟨hea, heb, hcmp⟩ := hexact hlower
    exact ⟨iha ha hea, ihb hb heb, fun _ => ⟨hdiv, hmod, hcmp⟩⟩
  | ifThenElse c t f => cases hplain
  | other t xs ls g => cases hplain

end PlainGood

theorem eval_id (ρ : Var → ℤ) (e : Index) : (id e).eval ρ = e.eval ρ := rfl

/-- A simplifier that changes nothing. -/
def Simplifier.none : Simplifier := ⟨id, eval_id⟩

/-- `for i in T.Parallel(2)`. -/
def rowNest : Nest where
  loops := [⟨⟨0, .int32⟩, .const 0, 2⟩]
  nodup := by decide
  rectangular := by decide

/-- Buffer `b` of shape `2`, at `i`. -/
def rowAccess (b : ℕ) : Access := ⟨⟨b, [.const 2], .int32⟩, [.var ⟨0, .int32⟩]⟩

/-- `B[i]`, with `B` the buffer numbered `b`. -/
def rowRead (b : ℕ) : Expr ℤ := .load (rowAccess b).buffer (rowAccess b).indices

/-- The scalar `s`. -/
def scalarS : Expr ℤ := .var ⟨1, .int32⟩

/-- The emitter before the nest, with buffers `0` and `1` in use. -/
def freshEmitter : Emitter ℤ := ⟨[], [], [], 2, []⟩

theorem rowNest_min : ∀ l ∈ rowNest.loops, l.min = .const 0 := by
  intro l hl
  obtain rfl := List.mem_singleton.mp hl
  rfl

theorem rowRead_plain (b : ℕ) : Plain rowNest.loops .none (rowAccess 0) (rowRead b) := by
  refine .inr ⟨rfl, fun l hl => ⟨.var ⟨0, .int32⟩, List.mem_cons_self, ?_⟩⟩
  obtain rfl := List.mem_singleton.mp hl
  rfl

/-- `if_then_else(A[i] > s, A[i], s)`. -/
def rowSelect : Expr ℤ := .ifThenElse (.binary .gt (rowRead 1) scalarS) (rowRead 1) scalarS

end TileLangNpuir.LoopVectorize
