import TileLangNpuir.LoopVectorize.Decompose

/-!
# Reading a materialized load

`EmitReshapeAndBroadcast` replaces a load by a copy, a row-major reshape and a
broadcast before the nest. In each iteration the element read from the result is
the one the load reads exactly when the offsets of the load are zero, the output
indices that are no loop variables are zero, and every loop variable that takes
more than one value moves through the copied region with the same stride in the
load's dimensions and in the output's (`emitReshapeAndBroadcast_reads_iff`).
-/

namespace TileLangNpuir.LoopVectorize

open RowMajor

variable {V : Type}

/-- The parallel loops around a statement, outer to inner. -/
structure Stack : Type where
  loops : List Loop
  nodup : (loops.map Loop.var).Nodup

/-- A rectangular nest of parallel loops. -/
structure Nest : Type extends Stack where
  rectangular : ∀ l ∈ loops, ∀ l' ∈ loops, l'.var ∉ l.min.vars

/-- `env'` is the environment of one iteration of the nest, `env` the one before
it. -/
structure Iteration (A : Alg V) (loops : List Loop) (env env' : Env V) : Prop where
  outside : ∀ x, (∀ l ∈ loops, l.var ≠ x) → env' x = env x
  counter : ∀ l ∈ loops, env' l.var = A.ofInt (A.ints env' l.var)
  lower : ∀ l ∈ loops, l.min.eval (A.ints env) ≤ A.ints env' l.var
  upper : ∀ l ∈ loops, A.ints env' l.var < l.min.eval (A.ints env) + l.extent

section Levels

variable {loops : List Loop}

theorem mem_levelsUsed {e : Index} {j : ℕ} :
    j ∈ levelsUsed loops e ↔ ∃ l, loops[j]? = some l ∧ l.var ∈ e.vars := by
  simp only [levelsUsed, List.mem_map, List.mem_filter, decide_eq_true_eq, Prod.exists,
    List.mk_mem_zipIdx_iff_getElem?]
  constructor
  · rintro ⟨l, k, ⟨hl, hx⟩, rfl⟩
    exact ⟨l, hl, hx⟩
  · rintro ⟨l, hl, hx⟩
    exact ⟨l, j, ⟨hl, hx⟩, rfl⟩

theorem nodup_levelsUsed (e : Index) : (levelsUsed loops e).Nodup := by
  have hsub : (levelsUsed loops e).Sublist (loops.zipIdx.map Prod.snd) :=
    List.Sublist.map _ List.filter_sublist
  rw [List.zipIdx_map_snd] at hsub
  exact hsub.nodup List.nodup_range'

/-- An index mapped to a loop level uses the variable of that loop and of no
other. -/
theorem findMappedLoopVar_loop {e : Index} {j : ℕ} (h : findMappedLoopVar loops e = .loop j) :
    (∃ l, loops[j]? = some l ∧ l.var ∈ e.vars) ∧
      ∀ k l, loops[k]? = some l → l.var ∈ e.vars → k = j := by
  have hlevels : levelsUsed loops e = [j] := by
    rw [findMappedLoopVar] at h
    split at h
    · cases h
    · rename_i k hk
      rw [hk, Mapped.loop.inj h]
    · cases h
  refine ⟨mem_levelsUsed.mp (by rw [hlevels]; exact List.mem_cons_self), ?_⟩
  intro k l hl hx
  have hk : k ∈ levelsUsed loops e := mem_levelsUsed.mpr ⟨l, hl, hx⟩
  rw [hlevels] at hk
  exact List.mem_singleton.mp hk

theorem indexToLoop_eq_some {e : Index} {j : ℕ} :
    indexToLoop loops e = some j ↔ findMappedLoopVar loops e = .loop j := by
  rw [indexToLoop]
  split
  · rename_i k hk
    rw [hk, Option.some.injEq, Mapped.loop.injEq]
  · rename_i hk
    exact ⟨fun h => (nomatch h), fun h => absurd h (hk j)⟩

theorem containsAnyLoopVar_eq_false {xs : List Var} :
    containsAnyLoopVar loops xs = false ↔ ∀ l ∈ loops, l.var ∉ xs := by
  simp [containsAnyLoopVar]

theorem loopOf_eq_none {x : Var} : loopOf loops x = none ↔ ∀ l ∈ loops, l.var ≠ x := by
  simp [loopOf]

theorem getElem?_of_loopOf {x : Var} {j : ℕ} (h : loopOf loops x = some j) :
    ∃ l, loops[j]? = some l ∧ l.var = x := by
  obtain ⟨hj, hx, -⟩ := List.findIdx?_eq_some_iff_getElem.mp h
  exact ⟨loops[j], List.getElem?_eq_getElem hj, by simpa using hx⟩

end Levels

/-- The variable of a loop determines its level. -/
theorem Stack.level_unique (N : Stack) {j k : ℕ} {l l' : Loop} (hl : N.loops[j]? = some l)
    (hl' : N.loops[k]? = some l') (h : l.var = l'.var) : j = k := by
  have hj : j < (N.loops.map Loop.var).length := by
    rw [List.length_map]
    exact (List.getElem?_eq_some_iff.mp hl).1
  refine (List.getElem?_inj hj N.nodup).mp ?_
  rw [List.getElem?_map, List.getElem?_map, hl, hl', Option.map_some, Option.map_some, h]

theorem Stack.loopOf_var (N : Stack) {j : ℕ} {l : Loop} (hl : N.loops[j]? = some l) :
    loopOf N.loops l.var = some j := by
  rcases h : loopOf N.loops l.var with _ | k
  · exact absurd rfl (loopOf_eq_none.mp h l (List.mem_of_getElem? hl))
  · obtain ⟨l', hl', hvar⟩ := getElem?_of_loopOf h
    rw [N.level_unique hl hl' hvar.symm]

/-! ## Index values in an iteration -/

section Indices

variable {A : Alg V} {loops : List Loop} {env env' : Env V}

/-- The first value of the loop at a level. -/
def loopMin (A : Alg V) (env : Env V) (loops : List Loop) (j : ℕ) : ℤ :=
  (loops[j]?.map fun l => l.min.eval (A.ints env)).getD 0

/-- How far the loop at a level is from its first value. -/
def coord (A : Alg V) (loops : List Loop) (env env' : Env V) (j : ℕ) : ℤ :=
  (loops[j]?.map fun l => A.ints env' l.var - l.min.eval (A.ints env)).getD 0

/-- What a unit-stride index adds to its loop variable. -/
def loopOffset (A : Alg V) (env : Env V) (loops : List Loop) (e : Index) (j : ℕ) : ℤ :=
  (loops[j]?.map fun l => e.eval (Function.update (A.ints env) l.var 0)).getD 0

/-- What `IsSupportedVectorLoadIndex` accepts. -/
def IsSupported (loops : List Loop) (e : Index) : Prop :=
  containsAnyLoopVar loops e.vars = false ∨
    ∃ j l, findMappedLoopVar loops e = .loop j ∧ loops[j]? = some l ∧
      isUnitStrideLoopIndex loops l.var e = true

theorem isSupportedVectorLoadIndex_spec {S : Simplifier} {e e' : Index}
    (h : isSupportedVectorLoadIndex loops S e = some e') :
    e' = S.simplify e ∧ IsSupported loops e' := by
  rw [isSupportedVectorLoadIndex] at h
  split at h
  · split at h
    · rename_i j hj
      split at h
      · rename_i l hl
        split at h
        · rename_i hunit
          obtain rfl := Option.some.inj h
          exact ⟨rfl, .inr ⟨j, l, hj, hl, hunit⟩⟩
        · cases h
      · cases h
    · cases h
  · rename_i hinv
    obtain rfl := Option.some.inj h
    exact ⟨rfl, .inl (by simpa using hinv)⟩

theorem eval_invariant {e : Index} {ρ ρ' : Var → ℤ} (h : containsAnyLoopVar loops e.vars = false)
    (hρ : ∀ x, (∀ l ∈ loops, l.var ≠ x) → ρ' x = ρ x) : e.eval ρ' = e.eval ρ := by
  refine Index.eval_congr fun x hx => hρ x fun l hl hlx => ?_
  exact containsAnyLoopVar_eq_false.mp h l hl (hlx ▸ hx)

/-- A unit-stride index is its loop variable plus what it is at zero. -/
theorem eval_unitStride {e : Index} {l : Loop} {ρ ρ' : Var → ℤ} (hl : l ∈ loops)
    (h : isUnitStrideLoopIndex loops l.var e = true)
    (hρ : ∀ x, (∀ l ∈ loops, l.var ≠ x) → ρ' x = ρ x) :
    e.eval ρ' = ρ' l.var + e.eval (Function.update ρ l.var 0) := by
  have hzero : ∀ x, (∀ l ∈ loops, l.var ≠ x) → ρ' x = Function.update ρ l.var 0 x := by
    intro x hx
    rw [Function.update_of_ne (hx l hl).symm, hρ x hx]
  induction e with
  | const n => cases h
  | var y =>
    obtain rfl : y = l.var := by simpa [isUnitStrideLoopIndex] using h
    simp [Index.eval]
  | add a b iha ihb =>
    simp only [isUnitStrideLoopIndex, Bool.or_eq_true, Bool.and_eq_true, Bool.not_eq_true'] at h
    rcases h with ⟨ha, hb⟩ | ⟨ha, hb⟩
    · rw [Index.eval, Index.eval, iha ha, eval_invariant hb hzero]
      omega
    · rw [Index.eval, Index.eval, ihb hb, eval_invariant ha hzero]
      omega
  | sub a b iha _ =>
    simp only [isUnitStrideLoopIndex, Bool.and_eq_true, Bool.not_eq_true'] at h
    rw [Index.eval, Index.eval, iha h.1, eval_invariant h.2 hzero]
    omega
  | cast t a ih => exact ih h
  | app t xs f => cases h

theorem Iteration.ints (h : Iteration A loops env env') (x : Var)
    (hx : ∀ l ∈ loops, l.var ≠ x) : A.ints env' x = A.ints env x := by
  rw [Alg.ints, Alg.ints, h.outside x hx]

/-- The value of a supported index: invariant, or first value plus distance plus
offset. -/
theorem eval_supported (h : Iteration A loops env env') {e : Index} (he : IsSupported loops e) :
    e.eval (A.ints env') =
      match indexToLoop loops e with
      | some j => coord A loops env env' j + (loopMin A env loops j + loopOffset A env loops e j)
      | none => e.eval (A.ints env) := by
  rcases he with hinv | ⟨j, l, hj, hl, hunit⟩
  · have hnone : indexToLoop loops e = none := by
      rcases hm : indexToLoop loops e with _ | j
      · rfl
      · obtain ⟨⟨l, hl, hx⟩, -⟩ := findMappedLoopVar_loop (indexToLoop_eq_some.mp hm)
        exact absurd hx (containsAnyLoopVar_eq_false.mp hinv l (List.mem_of_getElem? hl))
    rw [hnone]
    exact eval_invariant hinv h.ints
  · rw [indexToLoop_eq_some.mpr hj]
    simp only [coord, loopMin, loopOffset, hl, Option.map_some, Option.getD_some]
    rw [eval_unitStride (List.mem_of_getElem? hl) hunit h.ints]
    omega

end Indices

/-! ## The emitted statements -/

section Emitted

variable {A : Alg V} {env : Env V} {m : Mem V}

theorem evals_const (sizes : List ℤ) : A.evals env (sizes.map .const) = sizes := by
  rw [Alg.evals, List.map_map]
  exact List.map_id'' (fun _ => rfl) sizes

theorem evals_zeros (n : ℕ) : A.evals env (makeZeroOffsets n) = List.replicate n 0 := by
  rw [Alg.evals, makeZeroOffsets, List.map_replicate]
  rfl

theorem zipWith_sub_zeros (q : List ℤ) :
    List.zipWith (· - ·) q (List.replicate q.length 0) = q := by
  induction q with
  | nil => rfl
  | cons x xs ih => rw [List.length_cons, List.replicate_succ, List.zipWith_cons_cons, ih, sub_zero]

/-- A region from the origin contains the box of its sizes. -/
theorem contains_origin {b : Buffer} {n : ℕ} {sizes q : List ℤ} (hn : sizes.length = n) :
    (regionND b (makeZeroOffsets n) sizes).Contains A env q ↔ InBox sizes q := by
  rw [Region.Contains, Region.position, regionND, evals_const, evals_zeros, makeZeroOffsets,
    List.length_replicate]
  constructor
  · rintro ⟨hlen, h⟩
    rwa [← hlen, zipWith_sub_zeros] at h
  · intro h
    have hlen : q.length = n := by rw [← hn, h.length_eq]
    refine ⟨hlen, ?_⟩
    rwa [← hlen, zipWith_sub_zeros]

theorem position_origin {b : Buffer} {n : ℕ} {sizes q : List ℤ} (hq : q.length = n) :
    (regionND b (makeZeroOffsets n) sizes).position A env q = q := by
  rw [Region.position, regionND, evals_zeros, ← hq, zipWith_sub_zeros]

/-- The position a broadcast reads: zero in the dimensions of size one. -/
def squash (sizes p : List ℤ) : List ℤ := List.zipWith (fun n x => if n = 1 then 0 else x) sizes p

theorem shift_zeros {sizes p : List ℤ} (h : sizes.length = p.length) :
    shift (List.replicate sizes.length 0) sizes p = squash sizes p := by
  induction sizes generalizing p with
  | nil => rfl
  | cons n ns ih =>
    cases p with
    | nil => cases h
    | cons x xs =>
      rw [List.length_cons, List.replicate_succ, shift, List.tail_cons, ih (Nat.succ.inj h)]
      simp [squash]

theorem zipWith_add_zeros (q : List ℤ) :
    List.zipWith (· + ·) (List.replicate q.length 0) q = q := by
  induction q with
  | nil => rfl
  | cons x xs ih => rw [List.length_cons, List.replicate_succ, List.zipWith_cons_cons, ih, zero_add]

theorem squash_of_inBox {sizes p : List ℤ} (h : InBox sizes p) : squash sizes p = p := by
  induction h with
  | nil => rfl
  | @cons n x ns xs hx _ ih =>
    rw [squash, List.zipWith_cons_cons, ← squash, ih]
    split
    · rename_i hn
      have : x = 0 := by omega
      rw [this]
    · rfl

/-- A shape with some dimensions set to one contains the squashed points. -/
theorem inBox_squash {view brc p : List ℤ}
    (hview : List.Forall₂ (fun v b => v = b ∨ v = 1) view brc) (h : InBox brc p) :
    InBox view (squash view p) := by
  induction hview generalizing p with
  | nil =>
    cases h
    exact .nil
  | @cons v b vs bs hvb _ ih =>
    cases h with
    | @cons _ x _ xs hx hxs =>
      rw [squash, List.zipWith_cons_cons, ← squash]
      refine .cons ?_ (ih hxs)
      by_cases hv : v = 1
      · rw [if_pos hv]
        omega
      · rw [if_neg hv, hvb.resolve_right hv]
        exact hx

variable {loops : List Loop} {indices : List Index} {out : Access} {buf : Buffer} {next : ℕ}

theorem view_or_one :
    List.Forall₂ (fun v b => v = b ∨ v = 1) (alignedViewShape loops indices out.indices)
      (alignedBrcShape loops out.indices) := by
  rw [alignedViewShape, alignedBrcShape, List.forall₂_map_left_iff, List.forall₂_map_right_iff,
    List.forall₂_same]
  intro e _
  rcases outLevel loops e with _ | j
  · exact .inr rfl
  · by_cases hj : j ∈ usedLevels loops indices
    · exact .inl (by simp [hj])
    · exact .inr (by simp [hj])

/-- A call that writes a region from the origin of its buffer. -/
theorem exec_origin {c : TileCall V} {b : Buffer} {n i : ℕ} {sizes q : List ℤ}
    (hdst : c.dst = regionND b (makeZeroOffsets n) sizes) (hi : b.id = i)
    (hn : sizes.length = n) :
    c.exec A env m i q = if InBox sizes q then c.value A env m q else m i q := by
  subst hi
  rw [TileCall.exec, hdst]
  by_cases hq : InBox sizes q
  · rw [if_pos ⟨rfl, (contains_origin hn).mpr hq⟩, if_pos hq,
      position_origin (by rw [← hn, hq.length_eq])]
  · rw [if_neg fun h => hq ((contains_origin hn).mp h.2), if_neg hq]

/-- A copied region, reshaped: the source element with the same row-major
number. -/
theorem exec_reshape_copy {lb vb : Buffer} {offs : List Index} {src view x : List ℤ} {n k : ℕ}
    (hn : src.length = n) (hk : view.length = k) (hx : InBox view x) :
    (TileCall.reshape (regionND lb (makeZeroOffsets n) src)
        (regionND vb (makeZeroOffsets k) view)).exec A env
      ((TileCall.copy (.region (regionND buf offs src))
        (regionND lb (makeZeroOffsets n) src)).exec A env m) vb.id x =
    if InBox src (unflatten src (flatten view x)) then
      m buf.id (shift (A.evals env offs) src (unflatten src (flatten view x)))
    else m lb.id (unflatten src (flatten view x)) := by
  have hlen : n = (unflatten src (flatten view x)).length := by rw [length_unflatten, hn]
  refine Eq.trans (exec_origin rfl rfl hk) ?_
  rw [if_pos hx]
  simp only [TileCall.value, regionND, evals_const, evals_zeros]
  rw [hlen, zipWith_add_zeros, ← hlen]
  refine Eq.trans (exec_origin rfl rfl hn) ?_
  simp only [TileCall.value, Arg.read, evals_const]

/-- The row-major number of the position read in the reshaped copy. -/
def viewNumber (A : Alg V) (env' : Env V) (loops : List Loop) (indices : List Index)
    (out : Access) : ℤ :=
  flatten (alignedViewShape loops indices out.indices)
    (squash (alignedViewShape loops indices out.indices) (A.evals env' out.indices))

/-- The element read from the result of the emitted statements: the source at the
position with the same row-major number, as long as everything stays inside the
regions. -/
theorem load_emitReshapeAndBroadcast {env' : Env V} {r}
    (hr : emitReshapeAndBroadcast (V := V) loops buf indices out next = r) {src q : List ℤ}
    (hsrc : src = srcSizes loops indices)
    (hq : q = unflatten src (viewNumber A env' loops indices out)) :
    A.load env' (execAll A env r.1 m) r.2.1.buffer r.2.1.indices =
      if InBox (alignedBrcShape loops out.indices) (A.evals env' out.indices) then
        if InBox src q then m buf.id (shift (A.evals env (srcOffsets loops indices)) src q)
        else m next q
      else m r.2.1.buffer.id (A.evals env' out.indices) := by
  obtain ⟨view, hview⟩ : ∃ view, view = alignedViewShape loops indices out.indices := ⟨_, rfl⟩
  obtain ⟨p, hp⟩ : ∃ p, p = A.evals env' out.indices := ⟨_, rfl⟩
  rw [viewNumber, ← hview, ← hp] at hq
  rw [← hp]
  have hsrcLen : src.length = indices.length := by rw [hsrc, srcSizes, List.length_map]
  have hviewLen : view.length = out.indices.length := by
    rw [hview, alignedViewShape, List.length_map]
  have hbrcLen : (alignedBrcShape loops out.indices).length = out.indices.length :=
    List.length_map _
  have hpLen : view.length = p.length := by rw [hviewLen, hp, Alg.evals, List.length_map]
  rw [emitReshapeAndBroadcast, ← hsrc, ← hview] at hr
  by_cases hsame : alignedBrcShape loops out.indices = view
  · rw [if_pos hsame] at hr
    subst hr
    rw [hsame, Alg.load, ← hp]
    by_cases hbox : InBox view p
    · rw [if_pos hbox, hq, squash_of_inBox hbox]
      exact exec_reshape_copy hsrcLen hviewLen hbox
    · rw [if_neg hbox]
      simp only [execAll, List.foldl_cons, List.foldl_nil]
      refine Eq.trans (exec_origin rfl rfl hviewLen) ?_
      rw [if_neg hbox, TileCall.exec_of_ne (by simp [TileCall.dst, regionND])]
  · rw [if_neg hsame] at hr
    subst hr
    rw [Alg.load, ← hp]
    simp only [execAll, List.foldl_cons, List.foldl_nil]
    refine Eq.trans (exec_origin rfl rfl hbrcLen) ?_
    by_cases hbox : InBox (alignedBrcShape loops out.indices) p
    · rw [if_pos hbox, if_pos hbox]
      have hboxView : InBox view (squash view p) := inBox_squash (hview ▸ view_or_one) hbox
      simp only [TileCall.value, Arg.read, regionND, evals_const, evals_zeros]
      rw [← hviewLen, shift_zeros hpLen, hviewLen, hq]
      exact exec_reshape_copy hsrcLen hviewLen hboxView
    · rw [if_neg hbox, if_neg hbox, TileCall.exec_of_ne (by simp [TileCall.dst, regionND]),
        TileCall.exec_of_ne (by simp [TileCall.dst, regionND])]

end Emitted

/-! ## When the element read is the one of the load -/

section Exact

variable {A : Alg V} {env env' : Env V} {loops : List Loop} {indices : List Index}
  {out : Access} {buf : Buffer} {next : ℕ}

/-- The loop levels of the load's dimensions. -/
def srcDims (loops : List Loop) (indices : List Index) : List (Option ℕ) :=
  indices.map (indexToLoop loops)

/-- The loop levels of the view's dimensions. -/
def viewDims (loops : List Loop) (indices outIndices : List Index) : List (Option ℕ) :=
  outIndices.map fun e => (outLevel loops e).filter fun j => j ∈ usedLevels loops indices

/-- In this iteration, the position read lies in the result, the position of the
copy with its number lies in the copy, and holds the element the load reads. -/
structure Aligned (A : Alg V) (env env' : Env V) (loops : List Loop) (indices : List Index)
    (out : Access) : Prop where
  brc : InBox (alignedBrcShape loops out.indices) (A.evals env' out.indices)
  src : InBox (srcSizes loops indices)
    (unflatten (srcSizes loops indices) (viewNumber A env' loops indices out))
  same : shift (A.evals env (srcOffsets loops indices)) (srcSizes loops indices)
    (unflatten (srcSizes loops indices) (viewNumber A env' loops indices out)) =
      A.evals env' indices

theorem emitted_id (r : List (TileCall V) × Access × ℕ)
    (hr : emitReshapeAndBroadcast (V := V) loops buf indices out next = r) :
    next < r.2.1.buffer.id := by
  subst hr
  rw [emitReshapeAndBroadcast]
  split <;> simp

/-- Over all buffer contents, the read is right exactly when it is aligned. -/
theorem reads_iff_aligned (hbuf : buf.id < next) {r}
    (hr : emitReshapeAndBroadcast (V := V) loops buf indices out next = r) :
    (∀ m : Mem V, A.load env' (execAll A env r.1 m) r.2.1.buffer r.2.1.indices =
      A.load env' m buf indices) ↔ Aligned A env env' loops indices out := by
  constructor
  · intro h
    -- only the element the load reads is one, so a read of one is a read of it
    have hone : A.ofInt 1 ≠ A.ofInt 0 := by
      intro heq
      have := congrArg A.toInt heq
      rw [A.toInt_ofInt, A.toInt_ofInt] at this
      cases this
    obtain ⟨m, hm⟩ : ∃ m : Mem V, ∀ b q, m b q =
        if b = buf.id ∧ q = A.evals env' indices then A.ofInt 1 else A.ofInt 0 :=
      ⟨fun _ _ => _, fun _ _ => rfl⟩
    have hother : ∀ b q, b ≠ buf.id → m b q = A.ofInt 0 := by
      intro b q hb
      rw [hm, if_neg fun h => hb h.1]
    have hload : A.load env' m buf indices = A.ofInt 1 := by
      rw [Alg.load, hm, if_pos ⟨rfl, rfl⟩]
    have hread := h m
    have hid := emitted_id r hr
    rw [hload, load_emitReshapeAndBroadcast hr rfl rfl] at hread
    by_cases hbrc : InBox (alignedBrcShape loops out.indices) (A.evals env' out.indices)
    · rw [if_pos hbrc] at hread
      by_cases hsrc : InBox (srcSizes loops indices)
          (unflatten (srcSizes loops indices) (viewNumber A env' loops indices out))
      · rw [if_pos hsrc, hm] at hread
        refine ⟨hbrc, hsrc, by_contra fun hne => hone ?_⟩
        rw [← hread, if_neg fun h => hne h.2]
      · rw [if_neg hsrc, hother _ _ (by omega)] at hread
        exact absurd hread.symm hone
    · rw [if_neg hbrc, hother _ _ (by omega)] at hread
      exact absurd hread.symm hone
  · intro h m
    rw [load_emitReshapeAndBroadcast hr rfl rfl, if_pos h.brc, if_pos h.src, Alg.load, h.same]

/-- The position of the copied region that holds the element the load reads. -/
def loopPos (A : Alg V) (env env' : Env V) (loops : List Loop) (e : Index) : ℤ :=
  match indexToLoop loops e with
  | some j => coord A loops env env' j + (loopMin A env loops j + loopOffset A env loops e j)
  | none => 0

/-- The copy holds the load's element at exactly one position. -/
theorem shift_src_iff (hit : Iteration A loops env env')
    (hsup : ∀ e ∈ indices, IsSupported loops e) {q : List ℤ}
    (hq : InBox (srcSizes loops indices) q) :
    shift (A.evals env (srcOffsets loops indices)) (srcSizes loops indices) q =
      A.evals env' indices ↔ q = indices.map (loopPos A env env' loops) := by
  induction indices generalizing q with
  | nil =>
    cases hq
    exact ⟨fun _ => rfl, fun _ => rfl⟩
  | cons e es ih =>
    cases hq with
    | @cons n x _ xs hx hxs =>
      have hrest := ih (fun e' he' => hsup e' (List.mem_cons_of_mem _ he')) hxs
      have hval := eval_supported hit (hsup e List.mem_cons_self)
      rw [List.map_cons, List.cons.injEq, ← hrest]
      simp only [srcOffsets, srcSizes, Alg.evals, List.map_cons, shift, List.headD_cons,
        List.tail_cons, List.cons.injEq]
      refine and_congr ?_ Iff.rfl
      rw [hval, loopPos]
      rcases hj : indexToLoop loops e with _ | j
      · simp only [hj, Option.map_none, Option.getD_none] at hx
        have hx0 : x = 0 := by omega
        simp [hx0]
      · simp only [hj, Option.map_some, Option.getD_some] at hx
        simp only [Option.isSome_some, if_true, Index.eval, Option.map_some, Option.getD_some,
          zero_add]
        split
        · have : x = 0 := by omega
          rw [this]
        · rfl

/-- The condition under which the materialized load is right, given the values of
the invariant variables. -/
structure BroadcastExact (A : Alg V) (env : Env V) (loops : List Loop) (indices : List Index)
    (out : Access) : Prop where
  /-- an output index that is no loop variable is zero -/
  outZero : ∀ e ∈ out.indices, outLevel loops e = none → e.eval (A.ints env) = 0
  /-- a loop that indexes the output starts at zero -/
  outMin : ∀ e ∈ out.indices, ∀ j, outLevel loops e = some j → loopMin A env loops j = 0
  /-- the load starts at offset zero in the dimensions that map to a loop -/
  offset : ∀ e ∈ indices, ∀ j, indexToLoop loops e = some j →
    loopMin A env loops j + loopOffset A env loops e j = 0
  /-- a loop that takes more than one value has the same stride in the copied
  region and in the view -/
  stride : ∀ j < loops.length, 1 < extentOf loops j →
    weight (srcSizes loops indices) (srcDims loops indices) j =
      weight (alignedViewShape loops indices out.indices)
        (viewDims loops indices out.indices) j

theorem outLevel_eq_some {e : Index} {j : ℕ} (h : outLevel loops e = some j) :
    ∃ l, e = .var l.var ∧ loops[j]? = some l := by
  cases e with
  | var x =>
    obtain ⟨l, hl, rfl⟩ := getElem?_of_loopOf h
    exact ⟨l, rfl, hl⟩
  | _ => cases h

/-- The value of an output index that is a variable or a constant. -/
theorem eval_out (hit : Iteration A loops env env') {e : Index}
    (he : e.isVar = true ∨ e.isConst = true) :
    e.eval (A.ints env') =
      match outLevel loops e with
      | some j => loopMin A env loops j + coord A loops env env' j
      | none => e.eval (A.ints env) := by
  rcases h : outLevel loops e with _ | j
  · cases e with
    | var x => exact hit.ints x (loopOf_eq_none.mp h)
    | const n => rfl
    | _ => simp [Index.isVar, Index.isConst] at he
  · obtain ⟨l, rfl, hl⟩ := outLevel_eq_some h
    simp only [Index.eval, loopMin, coord, hl, Option.map_some, Option.getD_some]
    omega

theorem coord_bounds (hit : Iteration A loops env env') {j : ℕ} (hj : j < loops.length) :
    0 ≤ coord A loops env env' j ∧ coord A loops env env' j < extentOf loops j := by
  have hl := List.getElem?_eq_getElem hj
  have hmem := List.getElem_mem hj
  simp only [coord, extentOf, hl, Option.map_some, Option.getD_some]
  have hlo := hit.lower _ hmem
  have hup := hit.upper _ hmem
  omega

theorem lt_length_of_getElem? {j : ℕ} {l : Loop} (h : loops[j]? = some l) : j < loops.length :=
  (List.getElem?_eq_some_iff.mp h).1

/-- With zero output constants and loop starts, an output index is its counter. -/
theorem out_value (hit : Iteration A loops env env')
    (hout : ∀ e ∈ out.indices, e.isVar = true ∨ e.isConst = true)
    (hzero : ∀ e ∈ out.indices, outLevel loops e = none → e.eval (A.ints env) = 0)
    (hmin : ∀ e ∈ out.indices, ∀ j, outLevel loops e = some j → loopMin A env loops j = 0) :
    ∀ e ∈ out.indices, e.eval (A.ints env') =
      (outLevel loops e).elim 0 (coord A loops env env') := by
  intro e he
  rw [eval_out hit (hout e he)]
  rcases h : outLevel loops e with _ | j
  · exact hzero e he h
  · simp [hmin e he j h]

variable (indices) in
/-- With zero output constants and loop starts, the position read is in the result
and its squashed form follows the counters. -/
theorem out_point (hit : Iteration A loops env env')
    (hout : ∀ e ∈ out.indices, e.isVar = true ∨ e.isConst = true)
    (hzero : ∀ e ∈ out.indices, outLevel loops e = none → e.eval (A.ints env) = 0)
    (hmin : ∀ e ∈ out.indices, ∀ j, outLevel loops e = some j → loopMin A env loops j = 0) :
    InBox (alignedBrcShape loops out.indices) (A.evals env' out.indices) ∧
      squash (alignedViewShape loops indices out.indices) (A.evals env' out.indices) =
        point (viewDims loops indices out.indices) (coord A loops env env') := by
  have hval := out_value hit hout hzero hmin
  constructor
  · rw [InBox, alignedBrcShape, Alg.evals, List.forall₂_map_left_iff, List.forall₂_map_right_iff,
      List.forall₂_same]
    intro e he
    rw [hval e he]
    rcases h : outLevel loops e with _ | j
    · simp
    · obtain ⟨l, -, hl⟩ := outLevel_eq_some h
      exact coord_bounds hit (lt_length_of_getElem? hl)
  · rw [squash, alignedViewShape, Alg.evals, point, viewDims, List.zipWith_map, List.map_map,
      List.zipWith_self]
    refine List.map_congr_left fun e he => ?_
    rw [hval e he]
    rcases h : outLevel loops e with _ | j
    · simp [h]
    · obtain ⟨l, -, hl⟩ := outLevel_eq_some h
      have hb := coord_bounds hit (lt_length_of_getElem? hl)
      by_cases hj : j ∈ usedLevels loops indices
      · simp only [Function.comp_apply, h, hj, if_true, Option.elim_some, Option.filter_some,
          decide_true]
        split <;> omega
      · simp [h, hj, Option.filter_some]

/-- With zero offsets, the position of the copy to be read follows the counters. -/
theorem src_point
    (hoff : ∀ e ∈ indices, ∀ j, indexToLoop loops e = some j →
      loopMin A env loops j + loopOffset A env loops e j = 0) :
    indices.map (loopPos A env env' loops) =
      point (srcDims loops indices) (coord A loops env env') := by
  rw [point, srcDims, List.map_map]
  refine List.map_congr_left fun e he => ?_
  rw [loopPos, Function.comp_apply]
  rcases h : indexToLoop loops e with _ | j
  · rfl
  · simp [hoff e he j h]

theorem mem_srcDims_lt {j : ℕ} (h : some j ∈ srcDims loops indices) :
    j ∈ Finset.range loops.length := by
  obtain ⟨e, -, he⟩ := List.mem_map.mp h
  obtain ⟨⟨l, hl, -⟩, -⟩ := findMappedLoopVar_loop (indexToLoop_eq_some.mp he)
  exact Finset.mem_range.mpr (lt_length_of_getElem? hl)

theorem mem_viewDims_lt {j : ℕ} (h : some j ∈ viewDims loops indices out.indices) :
    j ∈ Finset.range loops.length := by
  obtain ⟨e, -, he⟩ := List.mem_map.mp h
  obtain ⟨l, -, hl⟩ := outLevel_eq_some (Option.filter_eq_some_iff.mp he).1
  exact Finset.mem_range.mpr (lt_length_of_getElem? hl)

/-- The strides agree exactly when both positions have the same row-major number
for all values of the counters. -/
theorem stride_iff (hpos : ∀ j < loops.length, 0 < extentOf loops j) :
    (∀ t : ℕ → ℤ, (∀ j < loops.length, 0 ≤ t j ∧ t j < extentOf loops j) →
      flatten (srcSizes loops indices) (point (srcDims loops indices) t) =
        flatten (alignedViewShape loops indices out.indices)
          (point (viewDims loops indices out.indices) t)) ↔
    ∀ j < loops.length, 1 < extentOf loops j →
      weight (srcSizes loops indices) (srcDims loops indices) j =
        weight (alignedViewShape loops indices out.indices)
          (viewDims loops indices out.indices) j := by
  have hsrc : (srcSizes loops indices).length = (srcDims loops indices).length := by
    simp [srcSizes, srcDims]
  have hview : (alignedViewShape loops indices out.indices).length =
      (viewDims loops indices out.indices).length := by
    simp [alignedViewShape, viewDims]
  simp only [flatten_point hsrc fun j => mem_srcDims_lt,
    flatten_point hview fun j => mem_viewDims_lt, ← Finset.mem_range]
  exact sum_mul_eq_iff fun j hj => hpos j (Finset.mem_range.mp hj)

variable (indices) in
/-- The point of the copy follows the counters inside the copy. -/
theorem inBox_srcDims {t : ℕ → ℤ}
    (ht : ∀ j < loops.length, 0 ≤ t j ∧ t j < extentOf loops j) :
    InBox (srcSizes loops indices) (point (srcDims loops indices) t) := by
  rw [InBox, srcSizes, point, srcDims, List.map_map, List.forall₂_map_left_iff,
    List.forall₂_map_right_iff, List.forall₂_same]
  intro e he
  rw [Function.comp_apply]
  rcases h : indexToLoop loops e with _ | j
  · simp
  · have hmem : some j ∈ srcDims loops indices := List.mem_map.mpr ⟨e, he, h⟩
    exact ht j (Finset.mem_range.mp (mem_srcDims_lt hmem))

/-- The condition is enough. -/
theorem BroadcastExact.aligned (h : BroadcastExact A env loops indices out)
    (hit : Iteration A loops env env')
    (hout : ∀ e ∈ out.indices, e.isVar = true ∨ e.isConst = true)
    (hsup : ∀ e ∈ indices, IsSupported loops e) : Aligned A env env' loops indices out := by
  obtain ⟨hbrc, hview⟩ := out_point indices hit hout h.outZero h.outMin
  have hbounds : ∀ j < loops.length, 0 ≤ coord A loops env env' j ∧
      coord A loops env env' j < extentOf loops j := fun j => coord_bounds hit
  have hnum := (stride_iff fun j hj => lt_of_le_of_lt (hbounds j hj).1 (hbounds j hj).2).mpr
    h.stride _ hbounds
  have hbox := inBox_srcDims indices hbounds
  have hq : unflatten (srcSizes loops indices) (viewNumber A env' loops indices out) =
      point (srcDims loops indices) (coord A loops env env') := by
    rw [viewNumber, hview, ← hnum, unflatten_flatten hbox]
  refine ⟨hbrc, by rw [hq]; exact hbox, ?_⟩
  rw [hq, shift_src_iff hit hsup hbox, src_point h.offset]

/-- The iteration at given distances from the loop starts. -/
def iterEnv (A : Alg V) (env : Env V) (loops : List Loop) (t : ℕ → ℤ) : Env V := fun x =>
  match loopOf loops x with
  | some j => A.ofInt (loopMin A env loops j + t j)
  | none => env x

theorem ints_iterEnv {N : Stack} {t : ℕ → ℤ} {j : ℕ} {l : Loop} (hl : N.loops[j]? = some l) :
    A.ints (iterEnv A env N.loops t) l.var = l.min.eval (A.ints env) + t j := by
  rw [Alg.ints, iterEnv, N.loopOf_var hl]
  simp only [A.toInt_ofInt, loopMin, hl, Option.map_some, Option.getD_some]

variable (A env) in
theorem iteration_iterEnv {N : Stack} {t : ℕ → ℤ}
    (ht : ∀ j < N.loops.length, 0 ≤ t j ∧ t j < extentOf N.loops j) :
    Iteration A N.loops env (iterEnv A env N.loops t) := by
  have hbounds : ∀ l ∈ N.loops, ∃ k, A.ints (iterEnv A env N.loops t) l.var =
      l.min.eval (A.ints env) + k ∧ 0 ≤ k ∧ k < l.extent := by
    intro l hl
    obtain ⟨j, hj⟩ := List.getElem?_of_mem hl
    have hb := ht j (lt_length_of_getElem? hj)
    simp only [extentOf, hj, Option.map_some, Option.getD_some] at hb
    exact ⟨t j, ints_iterEnv hj, hb⟩
  refine ⟨fun x hx => ?_, fun l hl => ?_, fun l hl => ?_, fun l hl => ?_⟩
  · rw [iterEnv, loopOf_eq_none.mpr hx]
  · obtain ⟨j, hj⟩ := List.getElem?_of_mem hl
    rw [Alg.ints, iterEnv, N.loopOf_var hj, A.toInt_ofInt]
  · obtain ⟨k, hk, h0, -⟩ := hbounds l hl
    omega
  · obtain ⟨k, hk, -, hlt⟩ := hbounds l hl
    omega

theorem coord_iterEnv {N : Stack} {t : ℕ → ℤ} {j : ℕ} (hj : j < N.loops.length) :
    coord A N.loops env (iterEnv A env N.loops t) j = t j := by
  have hl := List.getElem?_eq_getElem hj
  simp only [coord, hl, Option.map_some, Option.getD_some, ints_iterEnv hl]
  omega

/-- An iteration in which the read is aligned keeps every output index in its
dimension. -/
theorem Aligned.out_bounds (h : Aligned A env env' loops indices out)
    (hit : Iteration A loops env env')
    (hout : ∀ e ∈ out.indices, e.isVar = true ∨ e.isConst = true) {e : Index}
    (he : e ∈ out.indices) :
    match outLevel loops e with
    | some j => 0 ≤ loopMin A env loops j + coord A loops env env' j ∧
        loopMin A env loops j + coord A loops env env' j < extentOf loops j
    | none => e.eval (A.ints env) = 0 := by
  have hbox := h.brc
  rw [InBox, alignedBrcShape, Alg.evals, List.forall₂_map_left_iff, List.forall₂_map_right_iff,
    List.forall₂_same] at hbox
  have hb := hbox e he
  rw [eval_out hit (hout e he)] at hb
  rcases hj : outLevel loops e with _ | j
  · simp only [hj, Option.map_none, Option.getD_none] at hb
    exact by omega
  · simpa only [hj, Option.map_some, Option.getD_some] using hb

/-- The condition is necessary when no loop is empty. -/
theorem broadcastExact_of_aligned {N : Stack}
    (hpos : ∀ j < N.loops.length, 0 < extentOf N.loops j)
    (hout : ∀ e ∈ out.indices, e.isVar = true ∨ e.isConst = true)
    (hsup : ∀ e ∈ indices, IsSupported N.loops e)
    (h : ∀ env', Iteration A N.loops env env' → Aligned A env env' N.loops indices out) :
    BroadcastExact A env N.loops indices out := by
  -- the first iteration and the last one pin down the output indices
  have hfirst := iteration_iterEnv A env (N := N) (t := fun _ => 0)
    fun j hj => ⟨le_rfl, hpos j hj⟩
  have hlast := iteration_iterEnv A env (N := N) (t := fun j => extentOf N.loops j - 1)
    fun j hj => by have := hpos j hj; omega
  have hzero : ∀ e ∈ out.indices, outLevel N.loops e = none → e.eval (A.ints env) = 0 := by
    intro e he hnone
    have hb := (h _ hfirst).out_bounds hfirst hout he
    rwa [hnone] at hb
  have hmin : ∀ e ∈ out.indices, ∀ j, outLevel N.loops e = some j →
      loopMin A env N.loops j = 0 := by
    intro e he j hj
    obtain ⟨l, -, hl⟩ := outLevel_eq_some hj
    have hlt := lt_length_of_getElem? hl
    have hb := (h _ hfirst).out_bounds hfirst hout he
    have hb' := (h _ hlast).out_bounds hlast hout he
    rw [hj] at hb hb'
    simp only [coord_iterEnv hlt] at hb hb'
    omega
  have hq : ∀ env', Iteration A N.loops env env' →
      unflatten (srcSizes N.loops indices) (viewNumber A env' N.loops indices out) =
        indices.map (loopPos A env env' N.loops) := fun env' hit =>
    (shift_src_iff hit hsup (h env' hit).src).mp (h env' hit).same
  have hview : ∀ env', Iteration A N.loops env env' → viewNumber A env' N.loops indices out =
      flatten (alignedViewShape N.loops indices out.indices)
        (point (viewDims N.loops indices out.indices) (coord A N.loops env env')) := by
    intro env' hit
    rw [viewNumber, (out_point indices hit hout hzero hmin).2]
  have hviewLen : (alignedViewShape N.loops indices out.indices).length =
      (viewDims N.loops indices out.indices).length := by
    simp [alignedViewShape, viewDims]
  -- the first iteration reads number zero, so every offset is zero
  have hoff : ∀ e ∈ indices, ∀ j, indexToLoop N.loops e = some j →
      loopMin A env N.loops j + loopOffset A env N.loops e j = 0 := by
    intro e he j hj
    obtain ⟨⟨l, hl, -⟩, -⟩ := findMappedLoopVar_loop (indexToLoop_eq_some.mp hj)
    have hnum : viewNumber A (iterEnv A env N.loops fun _ => 0) N.loops indices out = 0 := by
      rw [hview _ hfirst, flatten_point hviewLen fun j => mem_viewDims_lt]
      refine Finset.sum_eq_zero fun j hj => ?_
      rw [coord_iterEnv (Finset.mem_range.mp hj), mul_zero]
    have hpos0 := hq _ hfirst
    rw [hnum] at hpos0
    have hmem : loopPos A env (iterEnv A env N.loops fun _ => 0) N.loops e ∈
        unflatten (srcSizes N.loops indices) 0 := by
      rw [hpos0]
      exact List.mem_map.mpr ⟨e, he, rfl⟩
    have hzero := unflatten_zero _ _ hmem
    rw [loopPos, hj] at hzero
    simpa [coord_iterEnv (lt_length_of_getElem? hl)] using hzero
  refine ⟨hzero, hmin, hoff, (stride_iff hpos).mp fun t ht => ?_⟩
  by_cases hnil : indices = []
  · subst hnil
    rw [flatten_point (s := ∅) hviewLen]
    · rfl
    · intro j hj
      obtain ⟨e, -, he⟩ := List.mem_map.mp hj
      exact absurd (Option.filter_eq_some_iff.mp he).2 (by simp [usedLevels])
  · have hit := iteration_iterEnv A env ht
    have hsrc := (h _ hit).src
    have hnum := flatten_unflatten hsrc (by simpa [srcSizes] using hnil)
    rw [hq _ hit, src_point hoff, hview _ hit] at hnum
    rwa [point_congr fun j hj => coord_iterEnv (Finset.mem_range.mp (mem_srcDims_lt hj)),
      point_congr fun j hj => coord_iterEnv (Finset.mem_range.mp (mem_viewDims_lt hj))] at hnum

/-- In every iteration of the nest and for all buffer contents, reading the result
of the emitted statements gives what the load reads. -/
def ReadsLoad (A : Alg V) (env : Env V) (loops : List Loop) (buf : Buffer)
    (indices : List Index) (out : Access) (next : ℕ) : Prop :=
  ∀ (m : Mem V) (env' : Env V), Iteration A loops env env' →
    let r := emitReshapeAndBroadcast (V := V) loops buf indices out next
    A.load env' (execAll A env r.1 m) r.2.1.buffer r.2.1.indices = A.load env' m buf indices

theorem extentOf_pos {N : Stack} (h : ¬ ∃ l ∈ N.loops, l.extent ≤ 0) :
    ∀ j < N.loops.length, 0 < extentOf N.loops j := by
  intro j hj
  simp only [extentOf, List.getElem?_eq_getElem hj, Option.map_some, Option.getD_some]
  by_contra hle
  exact h ⟨_, List.getElem_mem hj, by omega⟩

theorem readsLoad_iff {N : Stack} (hbuf : buf.id < next)
    (hout : ∀ e ∈ out.indices, e.isVar = true ∨ e.isConst = true)
    (hsup : ∀ e ∈ indices, IsSupported N.loops e) :
    ReadsLoad A env N.loops buf indices out next ↔
      (∃ l ∈ N.loops, l.extent ≤ 0) ∨ BroadcastExact A env N.loops indices out := by
  have halign : ReadsLoad A env N.loops buf indices out next ↔
      ∀ env', Iteration A N.loops env env' → Aligned A env env' N.loops indices out := by
    simp only [← reads_iff_aligned hbuf rfl]
    exact ⟨fun h env' hit m => h m env' hit, fun h m env' hit => h env' hit m⟩
  rw [halign]
  constructor
  · intro h
    by_cases hempty : ∃ l ∈ N.loops, l.extent ≤ 0
    · exact .inl hempty
    · exact .inr (broadcastExact_of_aligned (extentOf_pos hempty) hout hsup h)
  · rintro (⟨l, hl, hle⟩ | h) env' hit
    · -- an empty loop has no iterations
      have hlo := hit.lower l hl
      have hup := hit.upper l hl
      omega
    · exact h.aligned hit hout hsup

end Exact

/-- A load materialized by `EmitReshapeAndBroadcast` is right, for all contents and
all values of the invariant variables, exactly when some loop is empty or the
condition holds for all those values. -/
theorem emitReshapeAndBroadcast_reads_iff (A : Alg V) (N : Nest) {buf : Buffer}
    {indices : List Index} {out : Access} {next : ℕ} (hbuf : buf.id < next)
    (hout : ∀ e ∈ out.indices, e.isVar = true ∨ e.isConst = true)
    (hsup : ∀ e ∈ indices, IsSupported N.loops e) :
    (∀ env, ReadsLoad A env N.loops buf indices out next) ↔
      (∃ l ∈ N.loops, l.extent ≤ 0) ∨
        ∀ env, BroadcastExact A env N.loops indices out := by
  simp only [readsLoad_iff hbuf hout hsup]
  exact forall_or_left

/-- `for i, j in T.Parallel(2, 2)`. -/
def squareNest : Nest where
  loops := [⟨⟨0, .int32⟩, .const 0, 2⟩, ⟨⟨1, .int32⟩, .const 0, 2⟩]
  nodup := by decide
  rectangular := by decide

/-- `out[i, j]`, of shape `2 × 2`. -/
def squareOut : Access :=
  ⟨⟨0, [.const 2, .const 2], .int32⟩, [.var ⟨0, .int32⟩, .var ⟨1, .int32⟩]⟩

/-- `B[j + c]`, with `B` of shape `4`. -/
def rowLoad (c : ℤ) : List Index := [.add (.var ⟨1, .int32⟩) (.const c)]

theorem rowLoad_supported (c : ℤ) : ∀ e ∈ rowLoad c, IsSupported squareNest.loops e := by
  intro e he
  obtain rfl := List.mem_singleton.mp he
  exact .inr ⟨1, ⟨⟨1, .int32⟩, .const 0, 2⟩, rfl, rfl, rfl⟩

/-- A row broadcast over the first loop is read back. -/
theorem rowLoad_reads :
    checkNeedsReshapeBrc squareNest.loops (rowLoad 0) 2 = true ∧
      ∀ env, ReadsLoad intAlg env squareNest.loops ⟨1, [.const 4], .int32⟩ (rowLoad 0)
        squareOut 2 := by
  refine ⟨rfl, (emitReshapeAndBroadcast_reads_iff intAlg squareNest (by decide) (by decide)
    (rowLoad_supported 0)).mpr (.inr fun env => ⟨?_, ?_, ?_, by decide⟩)⟩
  · intro e he hnone
    simp only [squareOut, List.mem_cons, List.not_mem_nil, or_false] at he
    rcases he with rfl | rfl <;> exact absurd hnone (by decide)
  · intro e he j hj
    simp only [squareOut, List.mem_cons, List.not_mem_nil, or_false] at he
    rcases he with rfl | rfl <;> obtain rfl := Option.some.inj hj <;> rfl
  · intro e he j hj
    obtain rfl := List.mem_singleton.mp he
    obtain rfl := Option.some.inj hj
    simp [loopMin, loopOffset, squareNest, Index.eval]

/-- With an offset it is not: the copy starts at offset zero. -/
theorem rowLoad_offset_misreads :
    checkNeedsReshapeBrc squareNest.loops (rowLoad 1) 2 = true ∧
      ¬ ∀ env, ReadsLoad intAlg env squareNest.loops ⟨1, [.const 4], .int32⟩ (rowLoad 1)
        squareOut 2 := by
  refine ⟨rfl, fun h => ?_⟩
  rcases (readsLoad_iff (by decide) (by decide) (rowLoad_supported 1)).mp (h fun _ => 0) with
    hempty | hexact
  · revert hempty
    decide
  · exact absurd (hexact.offset _ List.mem_cons_self 1 rfl) (by decide)

end TileLangNpuir.LoopVectorize
