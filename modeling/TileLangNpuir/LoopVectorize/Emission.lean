import TileLangNpuir.LoopVectorize.Broadcast

/-!
# What decomposing an operand emits

An operand below the root of an expression only adds statements that write new
temporaries (`Grows`), and when it is resolved to an access, that access holds the
value of the operand after those statements (`OperandSpec`). This needs the parts
of the operand that the pass gets wrong to be absent (`Good`): loop variables and
broadcast loads that are not read back, comparisons whose mirror image is not
taken, floor operators, and selects below the root.

Hoisted statements run before the nest. In an iteration what matters of them is
that running them again would change nothing (`Stable`).
-/

namespace TileLangNpuir.LoopVectorize

open RowMajor

variable {V : Type}

/-! ## Single-element regions -/

section Single

variable {A : Alg V} {env : Env V} {m : Mem V}

theorem inBox_ones {q off : List ℤ} (hlen : q.length = off.length) :
    InBox (off.map fun _ => 1) (List.zipWith (· - ·) q off) ↔ q = off := by
  induction q generalizing off with
  | nil =>
    obtain rfl := List.length_eq_zero_iff.mp hlen.symm
    exact ⟨fun _ => rfl, fun _ => .nil⟩
  | cons x xs ih =>
    cases off with
    | nil => cases hlen
    | cons o os =>
      rw [List.map_cons, List.zipWith_cons_cons, InBox, List.forall₂_cons, ← InBox,
        ih (Nat.succ.inj hlen), List.cons.injEq]
      refine and_congr ?_ Iff.rfl
      omega

/-- The region of an access contains exactly its element. -/
theorem contains_single {a : Access} {q : List ℤ} :
    (buildRegionCall a).Contains A env q ↔ q = A.evals env a.indices := by
  have hones : A.evals env (a.indices.map fun _ => .const 1) =
      (A.evals env a.indices).map fun _ => 1 := by
    simp [Alg.evals, Index.eval, Function.comp_def]
  rw [Region.Contains, Region.position, buildRegionCall, hones]
  constructor
  · rintro ⟨hlen, h⟩
    exact (inBox_ones (by simpa [Alg.evals] using hlen)).mp h
  · rintro rfl
    exact ⟨by simp [Alg.evals], (inBox_ones rfl).mpr rfl⟩

theorem shift_ones (off p : List ℤ) : shift off (off.map fun _ => 1) p = off := by
  induction off generalizing p with
  | nil => rfl
  | cons o os ih => rw [List.map_cons, shift, ih, if_pos rfl, add_zero]

/-- Reading the region of an access reads its element. -/
theorem read_single {a : Access} {p : List ℤ} :
    (Arg.region (V := V) (buildRegionCall a)).read A env m p = A.load env m a.buffer a.indices := by
  have hones : A.evals env (a.indices.map fun _ => .const 1) =
      (A.evals env a.indices).map fun _ => 1 := by
    simp [Alg.evals, Index.eval, Function.comp_def]
  rw [Arg.read, buildRegionCall, hones, shift_ones, Alg.load]

/-- A call on a single element is a store. -/
theorem exec_single {c : TileCall V} {a : Access} {x : V} (hdst : c.dst = buildRegionCall a)
    (hx : ∀ p, c.value A env m p = x) :
    c.exec A env m = storeAt m a.buffer.id (A.evals env a.indices) x := by
  funext b q
  rw [TileCall.exec, storeAt, hdst, hx]
  exact if_congr (and_congr_right fun _ => contains_single) rfl rfl

end Single

/-! ## The emitter -/

/-- Running the call again would change nothing. -/
def Stable (A : Alg V) (env : Env V) (m : Mem V) (c : TileCall V) : Prop :=
  c.exec A env m = m

/-- A hoisted statement fills a new temporary from outer buffers among `src` and
from earlier temporaries. -/
structure HoistOk (base : ℕ) (src : ℕ → Prop) (lo hi : ℕ) (h : TileCall V) : Prop where
  lo_le : lo ≤ h.dst.buf.id
  lt_hi : h.dst.buf.id < hi
  reads : ∀ b ∈ h.reads, (b < base ∧ src b) ∨ (lo ≤ b ∧ b < h.dst.buf.id)

/-- What fills the temporaries from `lo` to `hi`: statements that write the buffers
`ds` and hoisted statements, which share no temporary with them. -/
structure Added (base : ℕ) (src : ℕ → Prop) (lo hi : ℕ) (ds : List ℕ) (hs : List (TileCall V)) :
    Prop where
  dests : ∀ d ∈ ds, lo ≤ d ∧ d < hi
  ordered : hs.Pairwise fun h h' => h.dst.buf.id < h'.dst.buf.id
  hoisted : ∀ h ∈ hs, HoistOk base src lo hi h
  apart : base ≤ lo → ∀ d ∈ ds, ∀ h ∈ hs, d ≠ h.dst.buf.id ∧ d ∉ h.reads

/-- The buffers calls write. -/
def dests (cs : List (TileCall V)) : List ℕ := cs.map fun c => c.dst.buf.id

/-- Between two emitter states: only statements that write new temporaries were
added. -/
structure Grows (base : ℕ) (src : ℕ → Prop) (st st' : Emitter V) : Prop where
  next_le : st.next ≤ st'.next
  added : ∃ ss hs, st'.stmts = st.stmts ++ ss ∧ st'.hoisted = st.hoisted ++ hs ∧
    Added base src st.next st'.next (dests ss) hs

/-- The statements emitted so far write temporaries only. -/
structure Emitter.Inv (base : ℕ) (st : Emitter V) : Prop where
  base_le : base ≤ st.next
  stmts : ∀ c ∈ st.stmts, base ≤ c.dst.buf.id ∧ c.dst.buf.id < st.next

section Emitter

variable {base : ℕ} {src : ℕ → Prop} {st st' st₁ st₂ st₃ : Emitter V}

theorem mem_dests {cs : List (TileCall V)} {d : ℕ} :
    d ∈ dests cs ↔ ∃ c ∈ cs, c.dst.buf.id = d := List.mem_map

theorem Added.nil {lo hi : ℕ} : Added (V := V) base src lo hi [] [] :=
  ⟨by simp, .nil, by simp, by simp⟩

theorem Added.append {lo mid hi : ℕ} {ds ds' : List ℕ} {hs ks : List (TileCall V)} (hlo : lo ≤ mid)
    (hhi : mid ≤ hi) (h : Added base src lo mid ds hs) (h' : Added base src mid hi ds' ks) :
    Added base src lo hi (ds ++ ds') (hs ++ ks) := by
  refine ⟨fun d hd => ?_, ?_, fun k hk => ?_, fun hbase d hd k hk => ?_⟩
  · rcases List.mem_append.mp hd with hd | hd
    · exact ⟨(h.dests d hd).1, lt_of_lt_of_le (h.dests d hd).2 hhi⟩
    · exact ⟨le_trans hlo (h'.dests d hd).1, (h'.dests d hd).2⟩
  · refine List.pairwise_append.mpr ⟨h.ordered, h'.ordered, fun a ha b hb => ?_⟩
    exact lt_of_lt_of_le (h.hoisted a ha).lt_hi (h'.hoisted b hb).lo_le
  · rcases List.mem_append.mp hk with hk | hk
    · exact { h.hoisted k hk with lt_hi := lt_of_lt_of_le (h.hoisted k hk).lt_hi hhi }
    · refine { h'.hoisted k hk with lo_le := le_trans hlo (h'.hoisted k hk).lo_le, reads := ?_ }
      exact fun b hb => ((h'.hoisted k hk).reads b hb).imp_right fun hb =>
        ⟨le_trans hlo hb.1, hb.2⟩
  · -- across the two groups the ranges of identities tell them apart
    rcases List.mem_append.mp hd with hd | hd <;> rcases List.mem_append.mp hk with hk | hk
    · exact h.apart hbase d hd k hk
    · have hlt := h.dests d hd
      have hge := (h'.hoisted k hk).lo_le
      refine ⟨by omega, fun hread => ?_⟩
      rcases (h'.hoisted k hk).reads _ hread with ⟨hb, -⟩ | ⟨hb, -⟩ <;> omega
    · have hge := h'.dests d hd
      have hlt := (h.hoisted k hk).lt_hi
      refine ⟨by omega, fun hread => ?_⟩
      rcases (h.hoisted k hk).reads _ hread with ⟨hb, -⟩ | ⟨-, hb⟩ <;> omega
    · exact h'.apart (le_trans hbase hlo) d hd k hk

theorem Grows.refl (st : Emitter V) : Grows base src st st :=
  ⟨le_rfl, [], [], by simp, by simp, .nil⟩

theorem Grows.trans (h : Grows base src st₁ st₂) (h' : Grows base src st₂ st₃) :
    Grows base src st₁ st₃ := by
  obtain ⟨ss, hs, hss, hhs, hadd⟩ := h.added
  obtain ⟨ts, ks, hts, hks, hadd'⟩ := h'.added
  refine ⟨le_trans h.next_le h'.next_le, ss ++ ts, hs ++ ks, by rw [hts, hss, List.append_assoc],
    by rw [hks, hhs, List.append_assoc], ?_⟩
  rw [dests, List.map_append]
  exact hadd.append h.next_le h'.next_le hadd'

theorem Grows.inv (h : Grows base src st st') (hinv : st.Inv base) : st'.Inv base := by
  obtain ⟨ss, hs, hss, -, hadd⟩ := h.added
  refine ⟨le_trans hinv.base_le h.next_le, fun c hc => ?_⟩
  rw [hss] at hc
  rcases List.mem_append.mp hc with hc | hc
  · exact ⟨(hinv.stmts c hc).1, lt_of_lt_of_le (hinv.stmts c hc).2 h.next_le⟩
  · have hd := hadd.dests _ (mem_dests.mpr ⟨c, hc, rfl⟩)
    exact ⟨le_trans hinv.base_le hd.1, hd.2⟩

/-- A new temporary. -/
theorem added_temp {n : ℕ} : Added (V := V) base src n (n + 1) [n] [] := by
  refine ⟨fun d hd => ?_, .nil, by simp, by simp⟩
  obtain rfl := List.mem_singleton.mp hd
  exact ⟨le_rfl, Nat.lt_succ_self _⟩

/-- Hoisted statements alone. -/
theorem added_hoisted {lo hi : ℕ} {hs : List (TileCall V)}
    (hpair : hs.Pairwise fun h h' => h.dst.buf.id < h'.dst.buf.id)
    (hok : ∀ h ∈ hs, HoistOk base src lo hi h) : Added base src lo hi [] hs :=
  ⟨by simp, hpair, hok, by simp⟩

/-- A new temporary with the statement that fills it. -/
theorem grows_temp_stmt {ref : Access} {t : DType} {c : TileCall V}
    (hdst : c.dst = buildRegionCall (createTempBuffer st.next ref t)) :
    Grows base src st ((st.temp ref t).2.stmt c) := by
  refine ⟨Nat.le_succ _, [c], [], rfl, by simp [Emitter.stmt, Emitter.temp, Emitter.pushTmp], ?_⟩
  rw [dests, List.map_singleton, hdst]
  exact added_temp

theorem grows_hoisted {st' : Emitter V} {hs : List (TileCall V)} (hn : st.next ≤ st'.next)
    (hss : st'.stmts = st.stmts) (hhs : st'.hoisted = st.hoisted ++ hs)
    (hpair : hs.Pairwise fun h h' => h.dst.buf.id < h'.dst.buf.id)
    (hok : ∀ h ∈ hs, HoistOk base src st.next st'.next h) : Grows base src st st' :=
  ⟨hn, [], hs, by simp [hss], hhs, added_hoisted hpair hok⟩

end Emitter

/-! ## Hoisted values -/

section Hoisted

variable {A : Alg V} {N : Stack} {out : Access} {env env' : Env V} {m : Mem V}

theorem levelsUsed_eq_singleton {loops : List Loop} {e : Index} {j : ℕ}
    (hmem : j ∈ levelsUsed loops e) (hall : ∀ k ∈ levelsUsed loops e, k = j) :
    levelsUsed loops e = [j] := by
  have hnd := @nodup_levelsUsed loops e
  match levelsUsed loops e, hmem, hall, hnd with
  | [a], _, hall, _ => rw [hall a List.mem_cons_self]
  | a :: b :: _, _, hall, hnd =>
    have hab : a = b := by
      rw [hall a List.mem_cons_self, hall b (List.mem_cons_of_mem _ List.mem_cons_self)]
    exact absurd List.mem_cons_self (hab ▸ (List.nodup_cons.mp hnd).1)

/-- The level of an output index is the one `FindMappedLoopVar` finds. -/
theorem indexToLoop_out {e : Index} (he : e.isVar = true ∨ e.isConst = true) :
    indexToLoop N.loops e = outLevel N.loops e := by
  cases e with
  | const n =>
    have hlevels : levelsUsed N.loops (.const n) = [] := by simp [levelsUsed, Index.vars]
    simp [indexToLoop, findMappedLoopVar, hlevels, outLevel]
  | var x =>
    rcases h : loopOf N.loops x with _ | j
    · have hlevels : levelsUsed N.loops (.var x) = [] := by
        refine List.eq_nil_iff_forall_not_mem.mpr fun k hk => ?_
        obtain ⟨l, hl, hx⟩ := mem_levelsUsed.mp hk
        exact loopOf_eq_none.mp h l (List.mem_of_getElem? hl) (List.mem_singleton.mp hx)
      simp [indexToLoop, findMappedLoopVar, hlevels, outLevel, h]
    · obtain ⟨l, hl, rfl⟩ := getElem?_of_loopOf h
      have hmem : j ∈ levelsUsed N.loops (.var l.var) :=
        mem_levelsUsed.mpr ⟨l, hl, List.mem_cons_self⟩
      have hall : ∀ k ∈ levelsUsed N.loops (.var l.var), k = j := by
        intro k hk
        obtain ⟨l', hl', hx⟩ := mem_levelsUsed.mp hk
        exact N.level_unique hl' hl (List.mem_singleton.mp hx)
      have hlevels := levelsUsed_eq_singleton hmem hall
      simp [indexToLoop, findMappedLoopVar, hlevels, outLevel, h]
  | _ => simp [Index.isVar, Index.isConst] at he

/-- The condition under which a loop variable used as a value is read back. -/
structure ArangeExact (A : Alg V) (env : Env V) (loops : List Loop) (out : Access) (j : ℕ) :
    Prop where
  /-- an output index that is no loop variable is zero -/
  outZero : ∀ e ∈ out.indices, outLevel loops e = none → e.eval (A.ints env) = 0
  /-- a loop that indexes the output starts at zero -/
  outMin : ∀ e ∈ out.indices, ∀ k, outLevel loops e = some k → loopMin A env loops k = 0
  /-- a loop that takes more than one value indexes one dimension of the output -/
  once : 1 < extentOf loops j → out.indices.countP (fun e => outLevel loops e = some j) = 1

theorem sum_strides {es : List Index} {f : Index → Option ℕ} {j : ℕ} {t : ℕ → ℤ} :
    (List.zipWith (· * ·) (es.map fun e => if f e = some j then 1 else 0)
      (es.map fun e => (f e).elim 0 t)).sum = es.countP (fun e => f e = some j) * t j := by
  induction es with
  | nil => simp
  | cons e es ih =>
    rw [List.map_cons, List.map_cons, List.zipWith_cons_cons, List.sum_cons, ih, List.countP_cons]
    by_cases h : f e = some j
    · simp [h, add_mul, add_comm]
    · simp [h]

/-- The arange buffer holds the loop variable at the output's position. -/
theorem arange_value {j next : ℕ} {l : Loop} (hl : N.loops[j]? = some l)
    (hout : ∀ e ∈ out.indices, e.isVar = true ∨ e.isConst = true)
    (hex : ArangeExact A env N.loops out j) (hit : Iteration A N.loops env env')
    {c : TileCall V} {a : Access} (hc : emitLoopVarArange N.loops j out next = (c, a))
    (hstable : Stable A env m c) : A.load env' m a.buffer a.indices = env' l.var := by
  have hlevel : ∀ e ∈ out.indices, indexToLoop N.loops e = outLevel N.loops e :=
    fun e he => indexToLoop_out (hout e he)
  have hshape : getAlignedLoopShape N.loops out.indices = alignedBrcShape N.loops out.indices :=
    List.map_congr_left fun e he => by rw [hlevel e he]
  have hstrides : (out.indices.map fun e => if indexToLoop N.loops e = some j then (1 : ℤ) else 0) =
      out.indices.map fun e => if outLevel N.loops e = some j then 1 else 0 :=
    List.map_congr_left fun e he => by rw [hlevel e he]
  have hval : A.evals env' out.indices =
      out.indices.map fun e => (outLevel N.loops e).elim 0 (coord A N.loops env env') :=
    List.map_congr_left (out_value hit hout hex.outZero hex.outMin)
  have hbox := (out_point [] hit hout hex.outZero hex.outMin).1
  have hlt := lt_length_of_getElem? hl
  have hcoord : (out.indices.countP fun e => outLevel N.loops e = some j) *
      coord A N.loops env env' j = coord A N.loops env env' j := by
    by_cases hone : 1 < extentOf N.loops j
    · rw [hex.once hone, Nat.cast_one, one_mul]
    · have hzero : coord A N.loops env env' j = 0 := by
        have := coord_bounds hit hlt
        omega
      rw [hzero, mul_zero]
  rw [emitLoopVarArange] at hc
  obtain ⟨rfl, rfl⟩ := Prod.mk.inj hc
  rw [Alg.load, ← hstable]
  refine Eq.trans (exec_origin rfl rfl (by simp [getAlignedLoopShape])) ?_
  rw [hshape, if_pos hbox]
  simp only [TileCall.value, hstrides, hval, sum_strides, hcoord, hl, Option.map_some,
    Option.getD_some]
  rw [hit.counter l (List.mem_of_getElem? hl)]
  simp only [coord, hl, Option.map_some, Option.getD_some]
  congr 1
  omega

/-- A materialized load holds what the load reads. -/
theorem broadcast_value {buf : Buffer} {indices indices' : List Index} {next : ℕ}
    (hbuf : buf.id < next) (hout : ∀ e ∈ out.indices, e.isVar = true ∨ e.isConst = true)
    (hsup : ∀ e ∈ indices', IsSupported N.loops e)
    (heval : A.evals env' indices' = A.evals env' indices)
    (hex : BroadcastExact A env N.loops indices' out) (hit : Iteration A N.loops env env')
    {cs : List (TileCall V)} {a : Access} {n : ℕ}
    (hc : emitReshapeAndBroadcast N.loops buf indices' out next = (cs, a, n))
    (hstable : ∀ c ∈ cs, Stable A env m c) :
    A.load env' m a.buffer a.indices = A.load env' m buf indices := by
  have hsame : execAll A env cs m = m := by
    clear hc
    induction cs with
    | nil => rfl
    | cons c cs ih =>
      rw [execAll, List.foldl_cons, hstable c List.mem_cons_self, ← execAll]
      exact ih fun c' hc' => hstable c' (List.mem_cons_of_mem _ hc')
  have hread := (reads_iff_aligned hbuf hc).mpr (hex.aligned hit hout hsup) m
  rw [hsame] at hread
  rw [hread, Alg.load, Alg.load, heval]

/-- A hoisted broadcast holds its scalar at the origin. -/
theorem hoistedScalar_value {e : Expr V} {b : Buffer}
    (hshape : ∀ s ∈ b.shape, 0 < s.eval (A.ints env))
    (henv : e.eval A env' m = e.eval A env m)
    (hstable : Stable A env m
      (.brc (.scalar e) ⟨b, makeZeroOffsets b.shape.length, b.shape⟩)) :
    A.load env' m b (makeZeroOffsets b.shape.length) = e.eval A env' m := by
  have hin : (Region.mk b (makeZeroOffsets b.shape.length) b.shape).Contains A env
      (List.replicate b.shape.length 0) := by
    refine ⟨by simp [makeZeroOffsets], ?_⟩
    have hzip : List.zipWith (· - ·) (List.replicate b.shape.length (0 : ℤ))
        (List.replicate b.shape.length 0) = List.replicate b.shape.length 0 := by
      simp
    rw [Region.position, evals_zeros, hzip, InBox, Alg.evals, List.forall₂_map_left_iff,
      ← List.map_const', List.forall₂_map_right_iff, List.forall₂_same]
    exact fun s hs => ⟨le_rfl, hshape s hs⟩
  rw [henv, Alg.load, evals_zeros]
  conv_lhs => rw [← hstable]
  exact TileCall.exec_contains hin

end Hoisted

/-! ## Operands -/

namespace Expr

/-- Whether `ResolveOperand` turns the operand into an access, when no select
below it is decomposed. -/
def resolves (loops : List Loop) (S : Simplifier) (out : Access) : Expr V → Bool
  | .imm _ _ => false
  | .var x => (loopOf loops x).isSome
  | .load _ indices =>
    containsAnyLoopVar loops (indices.flatMap Index.vars) && validBufferIndices indices &&
      (indices.mapM (isSupportedVectorLoadIndex loops S)).isSome
  | .unary op a => !rankReducingCast out op a && a.resolves loops S out
  | .binary op a b =>
    canLowerBinaryOpToNpuir op (Expr.binary op a b).dtype &&
      (a.resolves loops S out || b.resolves loops S out)
  | .ifThenElse _ _ _ => false
  | .other _ _ _ _ => false

/-- The operand of a select is a scalar that is broadcast before the nest. -/
def hoistsScalar (loops : List Loop) (S : Simplifier) (out : Access) (e : Expr V) : Bool :=
  !isLoopInvariantScalarLike loops e && !e.resolves loops S out && !containsAnyLoopVar loops e.vars

/-- Whether `ResolveTernaryOperand` finds an access. -/
def resolvesInSelect (loops : List Loop) (S : Simplifier) (out : Access) (e : Expr V) : Bool :=
  isLoopInvariantScalarLike loops e || e.resolves loops S out || !containsAnyLoopVar loops e.vars

end Expr

/-- A scalar broadcast before the nest is still right in every iteration: it does
not load the output buffer, and the output buffer is not empty. -/
structure ScalarHoistExact (A : Alg V) (env : Env V) (out : Access) (e : Expr V) : Prop where
  loads : ∀ l ∈ e.loads, l.1.id ≠ out.buffer.id
  shape : ∀ s ∈ out.buffer.shape, 0 < s.eval (A.ints env)

section Operands

variable (A : Alg V) (env : Env V) (loops : List Loop) (S : Simplifier) (out : Access)

/-- Nothing below the operand is decomposed wrongly. -/
def Good : Expr V → Prop
  | .imm _ _ => True
  | .var x => ∀ j, loopOf loops x = some j → ArangeExact A env loops out j
  | .load buf indices =>
    ∀ indices', indices.mapM (isSupportedVectorLoadIndex loops S) = some indices' →
      containsAnyLoopVar loops (indices.flatMap Index.vars) = true →
      checkNeedsReshapeBrc loops indices' out.indices.length = true →
      BroadcastExact A env loops indices' out ∧ buf.id ≠ out.buffer.id
  | .unary op a => rankReducingCast out op a = false → Good a
  | .binary op a b =>
    canLowerBinaryOpToNpuir op (Expr.binary op a b).dtype = true →
      Good a ∧ Good b ∧
        ((a.resolves loops S out || b.resolves loops S out) = true →
          op ≠ .floorDiv ∧ op ≠ .floorMod ∧
            (op = .gt ∨ op = .ge → b.resolves loops S out = true →
              a.resolves loops S out = true))
  | .ifThenElse c t f =>
    Good c ∧ Good t ∧ Good f ∧
      (∀ e ∈ [c, t, f], e.hoistsScalar loops S out = true → ScalarHoistExact A env out e) ∧
      ¬ ∀ e ∈ [c, t, f], e.resolvesInSelect loops S out = true
  | .other _ _ _ _ => True

/-- Nothing in the expression of a store is decomposed wrongly. A select is fine at
the root. -/
def GoodRoot : Expr V → Prop
  | .load _ _ => True
  | .ifThenElse c t f =>
    Good A env loops S out c ∧ Good A env loops S out t ∧ Good A env loops S out f ∧
      ∀ e ∈ [c, t, f], e.hoistsScalar loops S out = true → ScalarHoistExact A env out e
  | e => Good A env loops S out e

end Operands

/-- In every iteration, after the statements emitted so far, the operand of a call
has the value of the expression. -/
structure ArgSpec (A : Alg V) (env : Env V) (loops : List Loop) (st : Emitter V) (arg : Arg V)
    (e : Expr V) : Prop where
  bound : ∀ b ∈ arg.reads, b < st.next
  read : ∀ env' m p, Iteration A loops env env' → (∀ h ∈ st.hoisted, Stable A env m h) →
    arg.read A env' (execAll A env' st.stmts m) p = e.eval A env' m

/-- What turning an expression into an access does, `resolved` telling whether it
succeeds. -/
structure ResolveSpec (A : Alg V) (env : Env V) (loops : List Loop) (out : Access) (base : ℕ)
    (e : Expr V) (resolved : Bool) (st : Emitter V) (res : Option Access) (st' : Emitter V) :
    Prop where
  grows : Grows base (· ≠ out.buffer.id) st st'
  isSome : res.isSome = resolved
  value : ∀ a, res = some a → ArgSpec A env loops st' (.region (buildRegionCall a)) e

/-- What resolving an operand does. -/
abbrev OperandSpec (A : Alg V) (env : Env V) (loops : List Loop) (S : Simplifier)
    (out : Access) (base : ℕ) (e : Expr V) (st : Emitter V) (res : Option Access)
    (st' : Emitter V) : Prop :=
  ResolveSpec A env loops out base e (e.resolves loops S out) st res st'

section Specs

variable {A : Alg V} {env : Env V} {loops : List Loop} {base : ℕ} {src : ℕ → Prop} {st st' : Emitter V}
  {arg : Arg V} {e : Expr V}

/-- Statements emitted later do not disturb an operand. -/
theorem ArgSpec.grows (h : ArgSpec A env loops st arg e) (hg : Grows base src st st') :
    ArgSpec A env loops st' arg e := by
  obtain ⟨ss, hs, hss, hhs, hadd⟩ := hg.added
  refine ⟨fun b hb => lt_of_lt_of_le (h.bound b hb) hg.next_le, fun env' m p hit hstable => ?_⟩
  rw [← h.read env' m p hit fun k hk => hstable k (by rw [hhs]; exact List.mem_append_left _ hk),
    hss, execAll_append]
  refine Arg.read_congr (fun _ _ => rfl) fun b hb => ?_
  refine execAll_of_forall_ne fun c hc => ?_
  have := h.bound b hb
  have := (hadd.dests _ (mem_dests.mpr ⟨c, hc, rfl⟩)).1
  omega

/-- A scalar operand is evaluated in the iteration itself. -/
theorem argSpec_scalar (hinv : st.Inv base) (hloads : ∀ l ∈ e.loads, l.1.id < base) :
    ArgSpec A env loops st (.scalar e) e := by
  have hlt : ∀ l ∈ e.loads, l.1.id < st.next := fun l hl =>
    lt_of_lt_of_le (hloads l hl) hinv.base_le
  refine ⟨fun b hb => ?_, fun env' m p _ _ => ?_⟩
  · obtain ⟨l, hl, rfl⟩ := List.mem_map.mp hb
    exact hlt l hl
  · refine Expr.eval_congr (fun _ _ => rfl) fun l hl => execAll_of_forall_ne fun c hc => ?_
    have := hloads l hl
    have := (hinv.stmts c hc).1
    omega

/-- A new temporary, filled by a call that computes the expression. -/
theorem argSpec_temp {ref : Access} {t : DType} {c : TileCall V}
    (hdst : c.dst = buildRegionCall (createTempBuffer st.next ref t))
    (hvalue : ∀ env' m p, Iteration A loops env env' → (∀ h ∈ st.hoisted, Stable A env m h) →
      c.value A env' (execAll A env' st.stmts m) p = e.eval A env' m) :
    ArgSpec A env loops ((st.temp ref t).2.stmt c)
      (.region (buildRegionCall (createTempBuffer st.next ref t))) e := by
  refine ⟨fun b hb => ?_, fun env' m p hit hstable => ?_⟩
  · obtain rfl := List.mem_singleton.mp hb
    exact Nat.lt_succ_self _
  · have hstmts : ((st.temp ref t).2.stmt c).stmts = st.stmts ++ [c] := rfl
    rw [hstmts, execAll_append, read_single, execAll, List.foldl_cons, List.foldl_nil,
      exec_single hdst fun p => hvalue env' m p hit hstable, Alg.load, storeAt, if_pos ⟨rfl, rfl⟩]

theorem temp_stmt_getLast? {ref : Access} {t : DType} {c : TileCall V} :
    ((st.temp ref t).2.stmt c).tmpBufs.getLast? = some (createTempBuffer st.next ref t) := by
  simp [Emitter.temp, Emitter.stmt, Emitter.pushTmp]

end Specs

end TileLangNpuir.LoopVectorize
