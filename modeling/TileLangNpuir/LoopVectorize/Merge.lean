import TileLangNpuir.LoopVectorize.HoistRun
import TileLangNpuir.Lib.Footprint

/-!
# `LoopVectorize`

The second half of `NpuLoopVectorize`: a parallel loop over tile calls is split into
one loop for each statement, and the loop around a call is removed by growing the
regions of the call along the dimension the loop variable indexes. This module has
the pass and says when one such call does what its loop did (`merge_exec`).
-/

namespace TileLangNpuir.LoopVectorize

open RowMajor

variable {V : Type}

/-! ## The pass -/

/-- `arith::Analyzer` and `arith::DetectLinearEquation`, as far as the pass uses
them. -/
structure Analyzer : Type where
  /-- `TryGetConstIntValue` -/
  constInt : Index → Option ℤ
  /-- `CanProveEqual` -/
  proveEqual : Index → Index → Bool
  /-- `DetectLinearEquation` in one variable: coefficient and base -/
  detectLinear : Index → Var → Option (Index × Index)
  /-- `Simplify` -/
  simplify : Index → Index
  constInt_eval : ∀ e n, constInt e = some n → ∀ ρ, e.eval ρ = n
  proveEqual_eval : ∀ a b, proveEqual a b = true → ∀ ρ, a.eval ρ = b.eval ρ
  detectLinear_eval : ∀ e x c b, detectLinear e x = some (c, b) →
    ∀ ρ, e.eval ρ = c.eval ρ * ρ x + b.eval ρ
  detectLinear_vars : ∀ e x c b, detectLinear e x = some (c, b) → ∀ y ∈ b.vars, y ∈ e.vars ∧ y ≠ x
  simplify_eval : ∀ e ρ, (simplify e).eval ρ = e.eval ρ
  simplify_vars : ∀ e, ∀ y ∈ (simplify e).vars, y ∈ e.vars

section Pass

variable (Z : Analyzer) (x : Var)

/-- `FindLoopVarInOffsets`: the dimensions the loop variable occurs in. -/
def findLoopVarInOffsets (offsets : List Index) : List ℕ :=
  (offsets.zipIdx.filter fun p => x ∈ p.1.vars).map Prod.snd

/-- `CheckContinuity`. -/
def checkContinuity (buf : Buffer) (offsets : List Index) (sizes : List ℤ) (d : ℕ) : Bool :=
  (List.range buf.shape.length).all fun i =>
    let size : Index := .const (sizes.getD i 0)
    if i ≤ d then Z.proveEqual size (.const 1)
    else Z.proveEqual size (buf.shape.getD i (.const 0)) &&
      Z.proveEqual (offsets.getD i (.const 0)) (.const 0)

/-- `AnalyzeNewOffset`. -/
def analyzeNewOffset (offset : Index) (start : ℤ) : Option Index :=
  match Z.detectLinear offset x with
  | some (c, b) =>
    if Z.proveEqual c (.const 1) then some (Z.simplify (.add b (.const start))) else none
  | none => none

/-- The sizes of a region that `ParseRegionCall` accepts. -/
def parseRegionCall (r : Region) : Option (List ℤ) :=
  if r.offsets.length = r.buf.shape.length ∧ r.sizes.length = r.buf.shape.length then
    r.sizes.mapM Z.constInt
  else none

/-- `TryVectorizeRegionInLoop`. -/
def tryVectorizeRegionInLoop (r : Region) (start count : ℤ) : Option Region :=
  match parseRegionCall Z r with
  | none => none
  | some sizes =>
    match findLoopVarInOffsets x r.offsets with
    | [] => some ⟨r.buf, r.offsets, sizes.map .const⟩
    | [d] =>
      if checkContinuity Z r.buf r.offsets sizes d then
        match analyzeNewOffset Z x (r.offsets.getD d (.const 0)) start with
        | some offset => some ⟨r.buf, r.offsets.set d offset, (sizes.set d count).map .const⟩
        | none => none
      else none
    | _ => none

/-- An operand of a call: immediates, variables and loads are kept as they are. -/
def vectorizeArg (start count : ℤ) : Arg V → Option (Arg V)
  | .region r => (tryVectorizeRegionInLoop Z x r start count).map .region
  | .scalar e =>
    match e with
    | .imm _ _ | .var _ | .load _ _ => some (.scalar e)
    | _ => none

/-- A call of `CandidateVectorizationOps`, with its operands vectorized. -/
def vectorizeCall (start count : ℤ) : TileCall V → Option (TileCall V)
  | .unary op src dst => do
    some (.unary op (← vectorizeArg Z x start count src)
      (← tryVectorizeRegionInLoop Z x dst start count))
  | .binary op a b dst => do
    some (.binary op (← vectorizeArg Z x start count a) (← vectorizeArg Z x start count b)
      (← tryVectorizeRegionInLoop Z x dst start count))
  | .select c t f dst => do
    some (.select (← vectorizeArg Z x start count c) (← vectorizeArg Z x start count t)
      (← vectorizeArg Z x start count f) (← tryVectorizeRegionInLoop Z x dst start count))
  | .copy src dst => do
    some (.copy (← vectorizeArg Z x start count src)
      (← tryVectorizeRegionInLoop Z x dst start count))
  | .brc src dst => do
    some (.brc (← vectorizeArg Z x start count src)
      (← tryVectorizeRegionInLoop Z x dst start count))
  | .reshape _ _ => none
  | .arange _ _ _ => none

/-- `VectorizeForBody`: each statement of the body gets a loop of its own
(`SplitStmtToIndependentForNode`), or none. -/
def vectorizeForBody (min extent : Index) : Stmt V → Stmt V
  | .seq s t => .seq (vectorizeForBody min extent s) (vectorizeForBody min extent t)
  | .nop => .nop
  | .eval call =>
    match Z.constInt min, Z.constInt extent with
    | some start, some count =>
      match vectorizeCall Z x start count call with
      | some call' => .eval call'
      | none => .forLoop .parallel x min extent (.eval call)
    | _, _ => .forLoop .parallel x min extent (.eval call)
  | s => .forLoop .parallel x min extent s

/-- The statement is a loop. -/
def Stmt.isFor : Stmt V → Bool
  | .forLoop _ _ _ _ _ => true
  | _ => false

/-- The statement is a sequence or a call. -/
def Stmt.isSeqOrEvaluate : Stmt V → Bool
  | .seq _ _ => true
  | .eval _ => true
  | _ => false

/-- `LoopVectorize::VisitStmt_`. -/
def vectorizeStmt : Stmt V → Stmt V
  | .seq s t => .seq (vectorizeStmt s) (vectorizeStmt t)
  | .forLoop .serial x min extent body => .forLoop .serial x min extent (vectorizeStmt body)
  | .forLoop .parallel x min extent body =>
    let body' := if body.isFor then vectorizeStmt body else body
    if body'.isSeqOrEvaluate then vectorizeForBody Z x min extent body'
    else .forLoop .parallel x min extent (vectorizeStmt body)
  | .ifThenElse cond s t => .ifThenElse cond (vectorizeStmt s) (vectorizeStmt t)
  | .letStmt x value body => .letStmt x value (vectorizeStmt body)
  | .store buf indices value => .store buf indices value
  | .eval call => .eval call
  | .nop => .nop

end Pass

/-! ## Growing a region along one dimension -/

section Grow

/-- The offsets of an iteration, from those of the grown region. -/
def bump (d : ℕ) (t : ℤ) (offsets : List ℤ) : List ℤ := offsets.modify d (· + t)

variable {o s p q : List ℤ} {d : ℕ} {t n : ℤ}

/-- An operand grown along the dimension is read at the iteration's element. -/
theorem shift_bump (hs : s[d]? = some n) (hp : p[d]? = some t) (hn : n = 1 → t = 0) :
    shift (bump d t o) (s.set d 1) (p.set d 0) = shift o s p := by
  induction d generalizing o s p with
  | zero =>
    cases s with
    | nil => cases hs
    | cons n' ss =>
      cases p with
      | nil => cases hp
      | cons t' ps =>
        obtain rfl : n' = n := by simpa using hs
        obtain rfl : t' = t := by simpa using hp
        cases o with
        | nil => rfl
        | cons a os =>
          simp only [bump, List.modify_zero_cons, List.set_cons_zero, shift, List.headD_cons,
            List.tail_cons, if_true, add_zero]
          split
          · rename_i hone
            rw [hn hone]
          · rfl
  | succ d ih =>
    cases s with
    | nil => cases hs
    | cons n' ss =>
      cases p with
      | nil => cases hp
      | cons t' ps =>
        cases o with
        | nil => rfl
        | cons a os =>
          have hrec := ih (o := os) (s := ss) (p := ps) (by simpa using hs) (by simpa using hp)
          simpa [bump, shift] using hrec

/-- A dimension of size one is read at its offset. -/
theorem shift_set {v : ℤ} (hs : ∀ k, s[d]? = some k → k = 1) :
    shift o s (p.set d v) = shift o s p := by
  induction d generalizing o s p with
  | zero =>
    cases o with
    | nil => rfl
    | cons a os =>
      cases s with
      | nil => rfl
      | cons n' ss =>
        obtain rfl : n' = 1 := hs n' (by simp)
        cases p <;> simp [shift]
  | succ d ih =>
    cases o with
    | nil => rfl
    | cons a os =>
      cases s with
      | nil => rfl
      | cons n' ss =>
        cases p with
        | nil => rfl
        | cons t' ps =>
          have hrec := ih (o := os) (s := ss) (p := ps) fun k hk => hs k (by simpa using hk)
          simpa [shift] using hrec

/-- The elements of an iteration are those of the grown region at its position. -/
theorem inBox_bump (hs : s[d]? = some n) (ht : 0 ≤ t) (htn : t < n) :
    InBox (s.set d 1) (List.zipWith (· - ·) q (bump d t o)) ↔
      InBox s (List.zipWith (· - ·) q o) ∧ (List.zipWith (· - ·) q o)[d]? = some t := by
  induction d generalizing o s q with
  | zero =>
    cases s with
    | nil => cases hs
    | cons n' ss =>
      obtain rfl : n' = n := by simpa using hs
      cases q with
      | nil => simp [InBox]
      | cons a qs =>
        cases o with
        | nil => simp [InBox, bump]
        | cons b os =>
          simp only [bump, List.modify_zero_cons, List.set_cons_zero, List.zipWith_cons_cons, InBox,
            List.forall₂_cons, List.getElem?_cons_zero, Option.some.injEq]
          constructor
          · rintro ⟨⟨h₁, h₂⟩, hrest⟩
            exact ⟨⟨⟨by omega, by omega⟩, hrest⟩, by omega⟩
          · rintro ⟨⟨-, hrest⟩, heq⟩
            exact ⟨⟨by omega, by omega⟩, hrest⟩
  | succ d ih =>
    cases s with
    | nil => cases hs
    | cons n' ss =>
      cases q with
      | nil => simp [InBox]
      | cons a qs =>
        cases o with
        | nil => simp [InBox, bump]
        | cons b os =>
          have hrec := ih (o := os) (s := ss) (q := qs) (by simpa using hs)
          simp only [bump, List.modify_succ_cons, List.set_cons_succ, List.zipWith_cons_cons, InBox,
            List.forall₂_cons, List.getElem?_cons_succ] at hrec ⊢
          simp only [hrec, and_assoc]

/-- The position of an element in its iteration. -/
theorem position_bump (hq : (List.zipWith (· - ·) q o)[d]? = some t) :
    List.zipWith (· - ·) q (bump d t o) = (List.zipWith (· - ·) q o).set d 0 := by
  induction d generalizing o q with
  | zero =>
    cases q with
    | nil => cases hq
    | cons a qs =>
      cases o with
      | nil => cases hq
      | cons b os =>
        have hab : a - b = t := by simpa using hq
        simp only [bump, List.modify_zero_cons, List.zipWith_cons_cons, List.set_cons_zero,
          List.cons.injEq, and_true]
        omega
  | succ d ih =>
    cases q with
    | nil => cases hq
    | cons a qs =>
      cases o with
      | nil => cases hq
      | cons b os =>
        have hrec := ih (o := os) (q := qs) (by simpa using hq)
        simpa [bump] using hrec

end Grow

/-! ## Vectorized regions and operands -/

section Regions

variable {Z : Analyzer} {A : Alg V} {x : Var} {start count i : ℤ} {r r' : Region} {env : Env V}

theorem mem_findLoopVarInOffsets {offsets : List Index} {d : ℕ} :
    d ∈ findLoopVarInOffsets x offsets ↔ ∃ e, offsets[d]? = some e ∧ x ∈ e.vars := by
  simp only [findLoopVarInOffsets, List.mem_map, List.mem_filter, decide_eq_true_eq, Prod.exists,
    List.mem_zipIdx_iff_getElem?]
  constructor
  · rintro ⟨e, k, ⟨he, hx⟩, rfl⟩
    exact ⟨e, he, hx⟩
  · rintro ⟨e, he, hx⟩
    exact ⟨e, d, ⟨he, hx⟩, rfl⟩

/-- A region that does not mention the loop variable is kept. -/
structure Kept (x : Var) (r r' : Region) : Prop where
  buf : r'.buf = r.buf
  offsets : r'.offsets = r.offsets
  free : ∀ e ∈ r.offsets, x ∉ e.vars
  sizes : ∀ ρ ρ', r.sizes.map (Index.eval ρ') = r'.sizes.map (Index.eval ρ)
  sizeVars : r'.sizes.flatMap Index.vars = []

/-- A region grown along the dimension the loop variable indexes. -/
structure Grown (x : Var) (start count : ℤ) (d : ℕ) (r r' : Region) : Prop where
  buf : r'.buf = r.buf
  only : findLoopVarInOffsets x r.offsets = [d]
  offset : ∃ old new, r.offsets[d]? = some old ∧ r'.offsets = r.offsets.set d new ∧
    (∀ ρ, old.eval ρ + start = ρ x + new.eval ρ) ∧ ∀ y ∈ new.vars, y ∈ old.vars ∧ y ≠ x
  sizes : ∀ ρ ρ', r.sizes.map (Index.eval ρ') = (r'.sizes.map (Index.eval ρ)).set d 1
  count : ∀ ρ, (r'.sizes.map (Index.eval ρ))[d]? = some count
  sizeVars : r'.sizes.flatMap Index.vars = []

theorem map_eval_of_mapM {es : List Index} {ns : List ℤ} (h : es.mapM Z.constInt = some ns)
    (ρ : Var → ℤ) : es.map (Index.eval ρ) = ns := by
  induction es generalizing ns with
  | nil => simpa using h
  | cons e es ih =>
    rw [List.mapM_cons] at h
    obtain ⟨n, he, h⟩ := Option.bind_eq_some_iff.mp h
    obtain ⟨ns', hes, h⟩ := Option.bind_eq_some_iff.mp h
    obtain rfl := Option.some.inj h
    rw [List.map_cons, ih hes, Z.constInt_eval e n he ρ]

theorem map_eval_const (ns : List ℤ) (ρ : Var → ℤ) : (ns.map Index.const).map (Index.eval ρ) = ns := by
  rw [List.map_map]
  exact List.map_id' ns

theorem flatMap_vars_const (ns : List ℤ) : (ns.map Index.const).flatMap Index.vars = [] := by
  simp [List.flatMap_map, Index.vars]

theorem analyzeNewOffset_spec {old new : Index} (h : analyzeNewOffset Z x old start = some new) :
    (∀ ρ, old.eval ρ + start = ρ x + new.eval ρ) ∧ ∀ y ∈ new.vars, y ∈ old.vars ∧ y ≠ x := by
  rw [analyzeNewOffset] at h
  split at h
  · rename_i c b hlinear
    split at h
    · rename_i hone
      obtain rfl := Option.some.inj h
      refine ⟨fun ρ => ?_, fun y hy => ?_⟩
      · rw [Z.detectLinear_eval old x c b hlinear ρ, Z.proveEqual_eval _ _ hone ρ, Z.simplify_eval]
        simp only [Index.eval]
        omega
      · have hy' := Z.simplify_vars _ y hy
        simp only [Index.vars, List.append_nil] at hy'
        exact Z.detectLinear_vars old x c b hlinear y hy'
    · cases h
  · cases h

/-- The grown dimension had size one. -/
theorem checkContinuity_size {buf : Buffer} {offsets : List Index} {sizes : List ℤ} {d : ℕ}
    (h : checkContinuity Z buf offsets sizes d = true) (hd : d < buf.shape.length) :
    sizes.getD d 0 = 1 := by
  have hd' := List.all_eq_true.mp h d (List.mem_range.mpr hd)
  rw [if_pos (le_refl d)] at hd'
  exact Z.proveEqual_eval _ _ hd' fun _ => 0

/-- A vectorized region is kept or grown. -/
theorem tryVectorizeRegionInLoop_spec (h : tryVectorizeRegionInLoop Z x r start count = some r') :
    Kept x r r' ∨ ∃ d, Grown x start count d r r' := by
  rw [tryVectorizeRegionInLoop] at h
  split at h
  · cases h
  · rename_i sizes hparse
    obtain ⟨hlens, hmap⟩ : (r.offsets.length = r.buf.shape.length ∧
        r.sizes.length = r.buf.shape.length) ∧ r.sizes.mapM Z.constInt = some sizes := by
      rw [parseRegionCall] at hparse
      split at hparse
      · rename_i hlens
        exact ⟨hlens, hparse⟩
      · cases hparse
    have hsizes := map_eval_of_mapM hmap
    have hlength : sizes.length = r.buf.shape.length := by
      rw [← hsizes fun _ => 0, List.length_map, hlens.2]
    split at h
    · rename_i hnone
      obtain rfl := Option.some.inj h
      refine .inl ⟨rfl, rfl, fun e he hx => ?_, fun ρ ρ' => ?_, flatMap_vars_const _⟩
      · obtain ⟨k, hk⟩ := List.mem_iff_getElem?.mp he
        have hmem := mem_findLoopVarInOffsets.mpr ⟨e, hk, hx⟩
        rw [hnone] at hmem
        cases hmem
      · rw [hsizes, map_eval_const]
    · rename_i d honly
      split at h
      · rename_i hcont
        split at h
        · rename_i new hnew
          obtain rfl := Option.some.inj h
          obtain ⟨old, hold, hx⟩ := mem_findLoopVarInOffsets.mp (honly ▸ List.mem_cons_self)
          have hd : d < sizes.length := by
            have := (List.getElem?_eq_some_iff.mp hold).1
            omega
          refine .inr ⟨d, rfl, honly, ⟨old, new, hold, rfl, ?_⟩, fun ρ ρ' => ?_, fun ρ => ?_,
            flatMap_vars_const _⟩
          · rw [List.getD_eq_getElem?_getD, hold, Option.getD_some] at hnew
            exact analyzeNewOffset_spec hnew
          · have hone := checkContinuity_size hcont (hlength ▸ hd)
            rw [List.getD_eq_getElem?_getD, List.getElem?_eq_getElem hd, Option.getD_some] at hone
            rw [hsizes, map_eval_const, List.set_set, ← hone, List.set_getElem_self]
          · rw [map_eval_const, List.getElem?_set_self hd]
        · cases h
      · cases h
    · cases h

/-- Iteration `i` of the loop. -/
abbrev atIter (A : Alg V) (env : Env V) (x : Var) (i : ℤ) : Env V := Function.update env x (A.ofInt i)

theorem eval_atIter {e : Index} (h : x ∉ e.vars) :
    e.eval (A.ints (atIter A env x i)) = e.eval (A.ints env) := by
  refine Index.eval_congr fun y hy => ?_
  have hne : y ≠ x := by
    rintro rfl
    exact h hy
  rw [Alg.ints, Alg.ints, atIter, Function.update_of_ne hne]

theorem Kept.evals (h : Kept x r r') :
    A.evals (atIter A env x i) r.offsets = A.evals env r'.offsets := by
  rw [h.offsets]
  exact List.map_congr_left fun e he => eval_atIter (h.free e he)

/-- The offsets of an iteration are those of the grown region, moved along. -/
theorem Grown.evals {d : ℕ} (h : Grown x start count d r r') :
    A.evals (atIter A env x i) r.offsets = bump d (i - start) (A.evals env r'.offsets) := by
  obtain ⟨old, new, hold, hoffsets, heval, hvars⟩ := h.offset
  have hx : A.ints (atIter A env x i) x = i := by
    rw [Alg.ints, atIter, Function.update_self, A.toInt_ofInt]
  have hnew : new.eval (A.ints (atIter A env x i)) = new.eval (A.ints env) :=
    eval_atIter fun hx => (hvars x hx).2 rfl
  refine List.ext_getElem? fun k => ?_
  rw [bump, Alg.evals, Alg.evals, hoffsets, List.getElem?_modify, List.getElem?_map,
    List.getElem?_map, List.getElem?_set]
  by_cases hkd : d = k
  · subst hkd
    have hd := (List.getElem?_eq_some_iff.mp hold).1
    rw [hold, if_pos rfl, if_pos hd]
    have := heval (A.ints (atIter A env x i))
    rw [hx, hnew] at this
    simp only [Option.map_some, if_true, Option.map_eq_map, Option.some.injEq]
    omega
  · rw [if_neg hkd]
    rcases he : r.offsets[k]? with _ | e
    · rfl
    · have hfree : x ∉ e.vars := fun hxe => by
        have hmem := mem_findLoopVarInOffsets.mpr ⟨e, he, hxe⟩
        rw [h.only] at hmem
        exact hkd (List.mem_singleton.mp hmem).symm
      simp [hkd, eval_atIter hfree]

end Regions

/-! ## Vectorized calls -/

section Calls

/-- The operands of a call, without its destination. -/
def TileCall.args : TileCall V → List (Arg V)
  | .unary _ src _ => [src]
  | .binary _ a b _ => [a, b]
  | .select c t f _ => [c, t, f]
  | .copy src _ => [src]
  | .brc src _ => [src]
  | .reshape src _ => [.region src]
  | .arange _ _ _ => []

/-- The value of the index changes with the variable. -/
def Index.DependsOn (x : Var) (e : Index) : Prop :=
  ∃ (ρ : Var → ℤ) (v : ℤ), e.eval (Function.update ρ x v) ≠ e.eval ρ

/-- The operand follows a loop variable as the destination does: its region has the
variable only in dimensions in which the destination moves with it, and it is no
variable or load that mentions it. Other scalars are never vectorized. -/
def Arg.Follows (x : Var) (dst : Region) : Arg V → Prop
  | .region r => ∀ (d : ℕ) (e : Index), r.offsets[d]? = some e → x ∈ e.vars →
      ∃ e', dst.offsets[d]? = some e' ∧ e'.DependsOn x
  | .scalar (.var y) => y ≠ x
  | .scalar (.load _ indices) => x ∉ indices.flatMap Index.vars
  | .scalar _ => True

/-- Every dimension of the operand has size one or that of the destination. -/
def Arg.SizesFit (dst : Region) : Arg V → Prop
  | .region r => ∀ (ρ : Var → ℤ) (d : ℕ) (n : ℤ), (r.sizes.map (Index.eval ρ))[d]? = some n →
      n = 1 ∨ (dst.sizes.map (Index.eval ρ))[d]? = some n
  | .scalar _ => True

variable {Z : Analyzer} {A : Alg V} {x : Var} {start count i : ℤ} {dst dst' : Region} {env : Env V}
  {m : Mem V} {a a' : Arg V} {c c' : TileCall V} {p : List ℤ}

/-- What vectorizing a call does to its destination and operands; calls of one
shape compute alike. -/
theorem vectorizeCall_spec (h : vectorizeCall Z x start count c = some c') :
    tryVectorizeRegionInLoop Z x c.dst start count = some c'.dst ∧
      List.Forall₂ (fun a a' => vectorizeArg Z x start count a = some a') c.args c'.args ∧
      (∀ y ∈ c'.vars, (∃ a ∈ c'.args, y ∈ a.vars) ∨ y ∈ c'.dst.vars) ∧
      ∀ (A : Alg V) env env' (m : Mem V) p p',
        List.Forall₂ (fun a a' : Arg V => a.read A env m p = a'.read A env' m p') c.args c'.args →
          c.value A env m p = c'.value A env' m p' := by
  cases c with
  | unary op src dst =>
    simp only [vectorizeCall, Option.bind_eq_bind, Option.bind_eq_some_iff, Option.some.injEq] at h
    obtain ⟨src', hsrc, dst', hdst, rfl⟩ := h
    refine ⟨hdst, .cons hsrc .nil, fun y hy => ?_, fun A env env' m p p' hargs => ?_⟩
    · simpa [TileCall.vars, TileCall.args, TileCall.dst] using hy
    obtain ⟨hread, -⟩ := List.forall₂_cons.mp hargs
    rw [TileCall.value, TileCall.value, hread]
  | binary op a b dst =>
    simp only [vectorizeCall, Option.bind_eq_bind, Option.bind_eq_some_iff, Option.some.injEq] at h
    obtain ⟨a', ha, b', hb, dst', hdst, rfl⟩ := h
    refine ⟨hdst, .cons ha (.cons hb .nil), fun y hy => ?_, fun A env env' m p p' hargs => ?_⟩
    · simpa [TileCall.vars, TileCall.args, TileCall.dst, or_assoc] using hy
    obtain ⟨hreadA, hargs⟩ := List.forall₂_cons.mp hargs
    obtain ⟨hreadB, -⟩ := List.forall₂_cons.mp hargs
    rw [TileCall.value, TileCall.value, hreadA, hreadB]
  | select c t f dst =>
    simp only [vectorizeCall, Option.bind_eq_bind, Option.bind_eq_some_iff, Option.some.injEq] at h
    obtain ⟨c', hc, t', ht, f', hf, dst', hdst, rfl⟩ := h
    refine ⟨hdst, .cons hc (.cons ht (.cons hf .nil)), fun y hy => ?_,
      fun A env env' m p p' hargs => ?_⟩
    · simpa [TileCall.vars, TileCall.args, TileCall.dst, or_assoc] using hy
    obtain ⟨hreadC, hargs⟩ := List.forall₂_cons.mp hargs
    obtain ⟨hreadT, hargs⟩ := List.forall₂_cons.mp hargs
    obtain ⟨hreadF, -⟩ := List.forall₂_cons.mp hargs
    rw [TileCall.value, TileCall.value, hreadC, hreadT, hreadF]
  | copy src dst =>
    simp only [vectorizeCall, Option.bind_eq_bind, Option.bind_eq_some_iff, Option.some.injEq] at h
    obtain ⟨src', hsrc, dst', hdst, rfl⟩ := h
    refine ⟨hdst, .cons hsrc .nil, fun y hy => ?_, fun A env env' m p p' hargs => ?_⟩
    · simpa [TileCall.vars, TileCall.args, TileCall.dst] using hy
    exact (List.forall₂_cons.mp hargs).1
  | brc src dst =>
    simp only [vectorizeCall, Option.bind_eq_bind, Option.bind_eq_some_iff, Option.some.injEq] at h
    obtain ⟨src', hsrc, dst', hdst, rfl⟩ := h
    refine ⟨hdst, .cons hsrc .nil, fun y hy => ?_, fun A env env' m p p' hargs => ?_⟩
    · simpa [TileCall.vars, TileCall.args, TileCall.dst] using hy
    exact (List.forall₂_cons.mp hargs).1
  | reshape src dst => cases h
  | arange dst strides offset => cases h

/-- A scalar operand that does not mention the loop variable. -/
theorem read_scalar {e : Expr V} (hfollows : (Arg.scalar e).Follows x dst)
    (h : vectorizeArg Z x start count (.scalar e) = some a') {p' : List ℤ} :
    (Arg.scalar e).read A (atIter A env x i) m p = a'.read A env m p' := by
  cases e with
  | imm v t =>
    obtain rfl := Option.some.inj h
    rfl
  | var y =>
    obtain rfl := Option.some.inj h
    exact Function.update_of_ne hfollows _ _
  | load buf indices =>
    obtain rfl := Option.some.inj h
    have hne : ∀ y ∈ indices.flatMap Index.vars, atIter A env x i y = env y := by
      intro y hy
      refine Function.update_of_ne ?_ _ _
      rintro rfl
      exact hfollows hy
    exact Expr.eval_congr hne fun _ _ => rfl
  | _ => cases h

/-- The loop variable is in no dimension but the grown one. -/
theorem Grown.dim_eq {d : ℕ} (h : Grown x start count d dst dst') {d' : ℕ} {e : Index}
    (he : dst.offsets[d']? = some e) (hx : x ∈ e.vars) : d' = d := by
  have hmem := mem_findLoopVarInOffsets.mpr ⟨e, he, hx⟩
  rw [h.only] at hmem
  exact List.mem_singleton.mp hmem

/-- The grown dimension had size one. -/
theorem Grown.size_one {d : ℕ} (h : Grown x start count d dst dst') (ρ : Var → ℤ) :
    (dst.sizes.map (Index.eval ρ))[d]? = some 1 := by
  have hd := (List.getElem?_eq_some_iff.mp (h.count ρ)).1
  rw [h.sizes ρ ρ, List.getElem?_set_self hd]

theorem Index.DependsOn.mem_vars {e : Index} (h : e.DependsOn x) : x ∈ e.vars := by
  obtain ⟨ρ, v, hne⟩ := h
  by_contra hx
  refine hne (Index.eval_congr fun y hy => Function.update_of_ne ?_ _ _)
  rintro rfl
  exact hx hy

/-- An operand that grows does so where the destination moves with the variable. -/
theorem Grown.follows {d : ℕ} {r r' : Region} (h : Grown x start count d r r')
    (hfollows : (Arg.region r : Arg V).Follows x dst) :
    ∃ e, dst.offsets[d]? = some e ∧ e.DependsOn x := by
  have hmem : d ∈ findLoopVarInOffsets x r.offsets := h.only ▸ List.mem_cons_self
  obtain ⟨e, he, hx⟩ := mem_findLoopVarInOffsets.mp hmem
  exact hfollows d e he hx

/-- An operand of a call whose destination is grown: at the position of an
iteration it is read as in the iteration. -/
theorem read_grown {d : ℕ} (hdst : Grown x start count d dst dst') (hfollows : a.Follows x dst)
    (hsizes : a.SizesFit dst) (h : vectorizeArg Z x start count a = some a')
    (hp : p[d]? = some (i - start)) (hi : start ≤ i) (hi' : i < start + count) :
    a.read A (atIter A env x i) m (p.set d 0) = a'.read A env m p := by
  cases a with
  | scalar e => exact read_scalar hfollows h
  | region r =>
    obtain ⟨r', hr, rfl⟩ := Option.map_eq_some_iff.mp h
    rcases tryVectorizeRegionInLoop_spec hr with hkept | ⟨d', hgrown⟩
    · -- the operand has size one along the grown dimension, as the destination had
      have hone : ∀ k, (A.evals env r'.sizes)[d]? = some k → k = 1 := by
        intro k hk
        rw [Alg.evals, ← hkept.sizes _ (A.ints env)] at hk
        rcases hsizes _ d k hk with rfl | hk'
        · rfl
        · exact Option.some.inj (hk'.symm.trans (hdst.size_one _))
      have hr' : A.evals (atIter A env x i) r.sizes = A.evals env r'.sizes := hkept.sizes _ _
      rw [Arg.read, Arg.read, hkept.evals, hkept.buf, hr', shift_set hone]
    · obtain ⟨e', he', hx'⟩ := hgrown.follows hfollows
      obtain rfl := hdst.dim_eq he' hx'.mem_vars
      have hr' : A.evals (atIter A env x i) r.sizes = (A.evals env r'.sizes).set d' 1 :=
        hgrown.sizes _ _
      have hcount : (A.evals env r'.sizes)[d']? = some count := hgrown.count _
      rw [Arg.read, Arg.read, hgrown.evals, hgrown.buf, hr',
        shift_bump hcount hp fun hone => by omega]

/-- An operand of a call whose destination is kept. -/
theorem read_kept (hdst : Kept x dst dst') (hfollows : a.Follows x dst)
    (h : vectorizeArg Z x start count a = some a') :
    a.read A (atIter A env x i) m p = a'.read A env m p := by
  cases a with
  | scalar e => exact read_scalar hfollows h
  | region r =>
    obtain ⟨r', hr, rfl⟩ := Option.map_eq_some_iff.mp h
    rcases tryVectorizeRegionInLoop_spec hr with hkept | ⟨d', hgrown⟩
    · have hr' : A.evals (atIter A env x i) r.sizes = A.evals env r'.sizes := hkept.sizes _ _
      rw [Arg.read, Arg.read, hkept.evals, hkept.buf, hr']
    · obtain ⟨e', he', hx'⟩ := hgrown.follows hfollows
      exact absurd hx'.mem_vars (hdst.free e' (List.mem_of_getElem? he'))

theorem inBox_getElem? {sizes : List ℤ} {d : ℕ} {n : ℤ} (h : InBox sizes p)
    (hn : sizes[d]? = some n) : ∃ t, p[d]? = some t ∧ 0 ≤ t ∧ t < n := by
  obtain ⟨hd, rfl⟩ := List.getElem?_eq_some_iff.mp hn
  have hd' : d < p.length := List.Forall₂.length_eq h ▸ hd
  exact ⟨p[d], List.getElem?_eq_getElem hd', List.Forall₂.get h hd hd'⟩

/-- What the merged call has to do with one iteration. -/
structure MergedCell (A : Alg V) (env : Env V) (x : Var) (start count : ℤ) (c c' : TileCall V)
    (m : Mem V) (q : List ℤ) : Prop where
  iter : ∀ i, start ≤ i → i < start + count → c.dst.Contains A (atIter A env x i) q →
    c'.dst.Contains A env q ∧
      c.value A (atIter A env x i) m (c.dst.position A (atIter A env x i) q) =
        c'.value A env m (c'.dst.position A env q)
  cover : c'.dst.Contains A env q →
    ∃ i, start ≤ i ∧ i < start + count ∧ c.dst.Contains A (atIter A env x i) q

/-- The call can be merged over a loop: its operands follow the loop variable as its
destination does, and a destination that stays in place is written at all. -/
structure Mergeable (x : Var) (count : ℤ) (c : TileCall V) : Prop where
  follows : ∀ a ∈ c.args, a.Follows x c.dst
  sizes : ∀ a ∈ c.args, a.SizesFit c.dst
  nonempty : (∀ e ∈ c.dst.offsets, ¬ e.DependsOn x) → 0 < count

theorem forall₂_read {R : Arg V → Arg V → Prop} {as as' : List (Arg V)} {P : Arg V → Prop}
    {f : Arg V → V} {g : Arg V → V} (h : List.Forall₂ R as as') (hP : ∀ a ∈ as, P a)
    (hR : ∀ a a', P a → R a a' → f a = g a') :
    List.Forall₂ (fun a a' => f a = g a') as as' := by
  induction h with
  | nil => exact .nil
  | cons hr _ ih =>
    refine .cons (hR _ _ (hP _ List.mem_cons_self) hr) (ih fun a ha => ?_)
    exact hP a (List.mem_cons_of_mem _ ha)

theorem mergedCell (h : vectorizeCall Z x start count c = some c') (hc : Mergeable x count c)
    (q : List ℤ) : MergedCell A env x start count c c' m q := by
  obtain ⟨hdst, hargs, -, hvalue⟩ := vectorizeCall_spec h
  have hboth : ∀ a ∈ c.args, a.Follows x c.dst ∧ a.SizesFit c.dst := fun a ha =>
    ⟨hc.follows a ha, hc.sizes a ha⟩
  rcases tryVectorizeRegionInLoop_spec hdst with hkept | ⟨d, hgrown⟩
  · have hsizes : ∀ i, A.evals (atIter A env x i) c.dst.sizes = A.evals env c'.dst.sizes :=
      fun i => hkept.sizes _ _
    have hpos : ∀ i, c.dst.position A (atIter A env x i) q = c'.dst.position A env q :=
      fun i => by rw [Region.position, Region.position, hkept.evals]
    have hiff : ∀ i, c.dst.Contains A (atIter A env x i) q ↔ c'.dst.Contains A env q := fun i => by
      rw [Region.Contains, Region.Contains, hsizes, hpos, hkept.offsets]
    refine ⟨fun i _ _ hin => ⟨(hiff i).mp hin, ?_⟩, fun hin => ⟨start, le_refl _, ?_, ?_⟩⟩
    · rw [hpos]
      exact hvalue A _ _ _ _ _ (forall₂_read hargs hboth fun a a' ha hr => read_kept hkept ha.1 hr)
    · have := hc.nonempty fun e he hx => hkept.free e he hx.mem_vars
      omega
    · exact (hiff start).mpr hin
  · have hlen : c'.dst.offsets.length = c.dst.offsets.length := by
      obtain ⟨old, new, -, hoffsets, -⟩ := hgrown.offset
      rw [hoffsets, List.length_set]
    have hcount : (A.evals env c'.dst.sizes)[d]? = some count := hgrown.count _
    have hiff : ∀ i, start ≤ i → i < start + count → (c.dst.Contains A (atIter A env x i) q ↔
        c'.dst.Contains A env q ∧ (c'.dst.position A env q)[d]? = some (i - start)) := by
      intro i hi hi'
      have hs : A.evals (atIter A env x i) c.dst.sizes = (A.evals env c'.dst.sizes).set d 1 :=
        hgrown.sizes _ _
      rw [Region.Contains, Region.Contains, Region.position, Region.position, hgrown.evals, hs,
        hlen, inBox_bump hcount (by omega) (by omega), and_assoc]
    refine ⟨fun i hi hi' hin => ?_, fun hin => ?_⟩
    · obtain ⟨hin', hd⟩ := (hiff i hi hi').mp hin
      refine ⟨hin', ?_⟩
      have hpos : c.dst.position A (atIter A env x i) q = (c'.dst.position A env q).set d 0 := by
        rw [Region.position, hgrown.evals]
        exact position_bump hd
      rw [hpos]
      exact hvalue A _ _ _ _ _ (forall₂_read hargs hboth fun a a' ha hr =>
        read_grown hgrown ha.1 ha.2 hr hd hi hi')
    · -- the iteration is the position along the grown dimension
      obtain ⟨t, ht, ht₀, htn⟩ := inBox_getElem? hin.2 hcount
      refine ⟨start + t, by omega, by omega, (hiff _ (by omega) (by omega)).mpr ⟨hin, ?_⟩⟩
      rw [ht]
      congr 1
      omega

/-- The cells of the buffers. -/
def Mem.cell (m : Mem V) (z : ℕ × List ℤ) : V := m z.1 z.2

theorem Mem.ext_cell (m m' : Mem V) (h : ∀ z, m.cell z = m'.cell z) : m = m' :=
  funext fun b => funext fun q => h (b, q)

/-- A merged call does what its loop did, if the iterations are apart. -/
theorem merge_exec {F W : ℤ → Set (ℕ × List ℤ)} (h : vectorizeCall Z x start count c = some c')
    (hc : Mergeable x count c)
    (hlocal : ∀ i, start ≤ i → i < start + count.toNat →
      LocalTo Mem.cell (F i) (W i) (c.exec A (atIter A env x i)))
    (hapart : IterationsApart count.toNat start F W) (m : Mem V) :
    countLoop (fun i m => c.exec A (atIter A env x i) m) count.toNat start m = c'.exec A env m := by
  refine Mem.ext_cell _ _ fun z => ?_
  have hcell : MergedCell A env x start count c c' m z.2 := mergedCell h hc z.2
  have hbuf : c'.dst.buf = c.dst.buf := by
    rcases tryVectorizeRegionInLoop_spec (vectorizeCall_spec h).1 with hk | ⟨d, hg⟩
    · exact hk.buf
    · exact hg.buf
  refine get_countLoop_eq hlocal hapart (fun j hj hj' => ?_) fun hv => ?_
  · by_cases hin : z.1 = c.dst.buf.id ∧ c.dst.Contains A (atIter A env x j) z.2
    · obtain ⟨hin', hval⟩ := hcell.iter j hj (by omega) hin.2
      left
      rw [Mem.cell, Mem.cell, TileCall.exec, TileCall.exec, if_pos hin, if_pos ⟨hbuf ▸ hin.1, hin'⟩,
        hval]
    · right
      rw [Mem.cell, Mem.cell, TileCall.exec, if_neg hin]
  · have hin' : z.1 = c'.dst.buf.id ∧ c'.dst.Contains A env z.2 := by
      by_contra hnot
      exact hv (by rw [Mem.cell, Mem.cell, TileCall.exec, if_neg hnot])
    obtain ⟨i, hi, hi', hin⟩ := hcell.cover hin'.2
    obtain ⟨-, hval⟩ := hcell.iter i hi hi' hin
    refine ⟨i, hi, by omega, ?_⟩
    rw [Mem.cell, Mem.cell, TileCall.exec, TileCall.exec, if_pos ⟨hbuf ▸ hin'.1, hin⟩, if_pos hin',
      hval]

/-! ### Merging over an inner loop keeps the conditions for the outer ones -/

section Outer

variable {y : Var} {r r' : Region}

/-- The offsets of a vectorized region mention what they did. -/
theorem mem_vars_of_vectorized (h : tryVectorizeRegionInLoop Z y r start count = some r') {d : ℕ}
    {e' : Index} (he' : r'.offsets[d]? = some e') (hx : x ∈ e'.vars) :
    x ≠ y ∧ ∃ e, r.offsets[d]? = some e ∧ x ∈ e.vars := by
  rcases tryVectorizeRegionInLoop_spec h with hkept | ⟨k, hgrown⟩
  · rw [hkept.offsets] at he'
    refine ⟨?_, e', he', hx⟩
    rintro rfl
    exact hkept.free e' (List.mem_of_getElem? he') hx
  · obtain ⟨old, new, hold, hoffsets, -, hvars⟩ := hgrown.offset
    rw [hoffsets, List.getElem?_set] at he'
    split at he'
    · rename_i hkd
      split at he'
      · obtain rfl := Option.some.inj he'
        exact ⟨(hvars x hx).2, old, hkd ▸ hold, (hvars x hx).1⟩
      · cases he'
    · rename_i hkd
      refine ⟨?_, e', he', hx⟩
      rintro rfl
      exact hkd (hgrown.dim_eq he' hx).symm

/-- The offsets of a vectorized region move with the other variables as they did. -/
theorem dependsOn_of_vectorized (h : tryVectorizeRegionInLoop Z y r start count = some r')
    (hxy : x ≠ y) {d : ℕ} {e : Index} (he : r.offsets[d]? = some e) (hx : e.DependsOn x) :
    ∃ e', r'.offsets[d]? = some e' ∧ e'.DependsOn x := by
  rcases tryVectorizeRegionInLoop_spec h with hkept | ⟨k, hgrown⟩
  · exact ⟨e, hkept.offsets ▸ he, hx⟩
  · obtain ⟨old, new, hold, hoffsets, heval, -⟩ := hgrown.offset
    by_cases hkd : k = d
    · subst hkd
      obtain rfl : old = e := Option.some.inj (hold.symm.trans he)
      obtain ⟨ρ, v, hne⟩ := hx
      refine ⟨new, ?_, ρ, v, fun heq => hne ?_⟩
      · rw [hoffsets, List.getElem?_set_self (List.getElem?_eq_some_iff.mp hold).1]
      · have h₁ := heval (Function.update ρ x v)
        have h₂ := heval ρ
        rw [Function.update_of_ne hxy.symm, heq] at h₁
        omega
    · exact ⟨e, by rw [hoffsets, List.getElem?_set_ne hkd, he], hx⟩

theorem SizesFit.vectorized (hdst : tryVectorizeRegionInLoop Z y dst start count = some dst')
    (hfollows : a.Follows y dst) (h : vectorizeArg Z y start count a = some a')
    (hsizes : a.SizesFit dst) : a'.SizesFit dst' := by
  cases a with
  | scalar e =>
    cases e with
    | imm _ _ | var _ | load _ _ =>
      obtain rfl := Option.some.inj h
      exact trivial
    | _ => cases h
  | region r =>
    obtain ⟨r', hr, rfl⟩ := Option.map_eq_some_iff.mp h
    intro ρ k n hn
    rcases tryVectorizeRegionInLoop_spec hdst with hdkept | ⟨d, hdgrown⟩
    · rcases tryVectorizeRegionInLoop_spec hr with hkept | ⟨d', hgrown⟩
      · rw [← hkept.sizes ρ ρ] at hn
        rw [← hdkept.sizes ρ ρ]
        exact hsizes ρ k n hn
      · obtain ⟨e', he', hx'⟩ := hgrown.follows hfollows
        exact absurd hx'.mem_vars (hdkept.free e' (List.mem_of_getElem? he'))
    · -- along the grown dimension both have the loop's extent, or the operand size one
      have hone := hdgrown.size_one ρ
      by_cases hkd : d = k
      · subst hkd
        rcases tryVectorizeRegionInLoop_spec hr with hkept | ⟨d', hgrown⟩
        · rw [← hkept.sizes ρ ρ] at hn
          left
          rcases hsizes ρ d n hn with h₁ | h₁
          · exact h₁
          · exact Option.some.inj (h₁.symm.trans hone)
        · obtain ⟨e', he', hx'⟩ := hgrown.follows hfollows
          obtain rfl := hdgrown.dim_eq he' hx'.mem_vars
          right
          rw [hdgrown.count, ← hgrown.count ρ, hn]
      · have hn' : (r.sizes.map (Index.eval ρ))[k]? = some n := by
          rcases tryVectorizeRegionInLoop_spec hr with hkept | ⟨d', hgrown⟩
          · rw [hkept.sizes ρ ρ, hn]
          · obtain ⟨e', he', hx'⟩ := hgrown.follows hfollows
            obtain rfl := hdgrown.dim_eq he' hx'.mem_vars
            rw [hgrown.sizes ρ ρ, List.getElem?_set_ne hkd, hn]
        rcases hsizes ρ k n hn' with h₁ | h₁
        · exact .inl h₁
        · rw [hdgrown.sizes ρ ρ, List.getElem?_set_ne hkd] at h₁
          exact .inr h₁

theorem Follows.vectorized (hdst : tryVectorizeRegionInLoop Z y dst start count = some dst')
    (hxy : x ≠ y) (h : vectorizeArg Z y start count a = some a') (hfollows : a.Follows x dst) :
    a'.Follows x dst' := by
  cases a with
  | scalar e =>
    cases e with
    | imm _ _ | var _ | load _ _ =>
      obtain rfl := Option.some.inj h
      exact hfollows
    | _ => cases h
  | region r =>
    obtain ⟨r', hr, rfl⟩ := Option.map_eq_some_iff.mp h
    intro d e' he' hx
    obtain ⟨-, e, he, hxe⟩ := mem_vars_of_vectorized hr he' hx
    obtain ⟨f, hf, hfx⟩ := hfollows d e he hxe
    exact dependsOn_of_vectorized hdst hxy hf hfx

theorem forall_mem_right {R : Arg V → Arg V → Prop} {as as' : List (Arg V)}
    (h : List.Forall₂ R as as') : ∀ a' ∈ as', ∃ a ∈ as, R a a' := by
  induction h with
  | nil =>
    intro a' ha'
    cases ha'
  | cons hr _ ih =>
    intro a' ha'
    rcases List.mem_cons.mp ha' with rfl | ha'
    · exact ⟨_, List.mem_cons_self, hr⟩
    · obtain ⟨a, ha, hra⟩ := ih a' ha'
      exact ⟨a, List.mem_cons_of_mem _ ha, hra⟩

/-- A call merged over one loop can be merged over the loops around it. -/
theorem Mergeable.vectorized {n : ℤ} (h : vectorizeCall Z y start n c = some c')
    (hy : Mergeable y n c) (hxy : x ≠ y) (hx : Mergeable x count c) : Mergeable x count c' := by
  obtain ⟨hdst, hargs, -⟩ := vectorizeCall_spec h
  refine ⟨fun a' ha' => ?_, fun a' ha' => ?_, fun hnone => hx.nonempty fun e he hdep => ?_⟩
  · obtain ⟨a, ha, hr⟩ := forall_mem_right hargs a' ha'
    exact Follows.vectorized hdst hxy hr (hx.follows a ha)
  · obtain ⟨a, ha, hr⟩ := forall_mem_right hargs a' ha'
    exact SizesFit.vectorized hdst (hy.follows a ha) hr (hx.sizes a ha)
  · obtain ⟨d, hd⟩ := List.mem_iff_getElem?.mp he
    obtain ⟨e', he', hdep'⟩ := dependsOn_of_vectorized hdst hxy hd hdep
    exact hnone e' (List.mem_of_getElem? he') hdep'

/-- The variables of a vectorized region. -/
theorem vars_of_vectorized (h : tryVectorizeRegionInLoop Z y r start count = some r')
    (hx : x ∈ r'.vars) : x ∈ r.vars ∧ x ≠ y := by
  have hsizes : r'.sizes.flatMap Index.vars = [] := by
    rcases tryVectorizeRegionInLoop_spec h with hkept | ⟨k, hgrown⟩
    · exact hkept.sizeVars
    · exact hgrown.sizeVars
  rw [Region.vars, hsizes, List.append_nil] at hx
  obtain ⟨e', he', hxe'⟩ := List.mem_flatMap.mp hx
  obtain ⟨d, hd⟩ := List.mem_iff_getElem?.mp he'
  obtain ⟨hne, e, he, hxe⟩ := mem_vars_of_vectorized h hd hxe'
  refine ⟨List.mem_append_left _ (List.mem_flatMap.mpr ⟨e, ?_, hxe⟩), hne⟩
  exact List.mem_of_getElem? he

theorem TileCall.arg_vars {a : Arg V} (ha : a ∈ c.args) (hx : x ∈ a.vars) : x ∈ c.vars := by
  cases c with
  | unary op src dst | copy src dst | brc src dst | reshape src dst =>
    obtain rfl := List.mem_singleton.mp ha
    exact List.mem_append_left _ hx
  | binary op b c dst =>
    simp only [TileCall.args, List.mem_cons, List.not_mem_nil, or_false] at ha
    simp only [TileCall.vars, List.mem_append]
    rcases ha with rfl | rfl
    · exact .inl (.inl hx)
    · exact .inl (.inr hx)
  | select b t f dst =>
    simp only [TileCall.args, List.mem_cons, List.not_mem_nil, or_false] at ha
    simp only [TileCall.vars, List.mem_append]
    rcases ha with rfl | rfl | rfl
    · exact .inl (.inl (.inl hx))
    · exact .inl (.inl (.inr hx))
    · exact .inl (.inr hx)
  | arange dst strides offset => cases ha

/-- The merged call does not mention the loop variable. -/
theorem vars_of_vectorizeCall (h : vectorizeCall Z y start count c = some c')
    (hy : ∀ a ∈ c.args, a.Follows y c.dst) (hx : x ∈ c'.vars) : x ∈ c.vars ∧ x ≠ y := by
  obtain ⟨hdst, hargs, hvars, -⟩ := vectorizeCall_spec h
  rcases hvars x hx with ⟨a', ha', hxa⟩ | hxd
  · obtain ⟨a, ha, hr⟩ := forall_mem_right hargs a' ha'
    have hfollows := hy a ha
    suffices hxa' : x ∈ a.vars ∧ x ≠ y from ⟨TileCall.arg_vars ha hxa'.1, hxa'.2⟩
    cases a with
    | region r =>
      obtain ⟨r', hr', rfl⟩ := Option.map_eq_some_iff.mp hr
      exact vars_of_vectorized hr' hxa
    | scalar e =>
      cases e with
      | imm _ _ =>
        obtain rfl := Option.some.inj hr
        cases hxa
      | var z =>
        obtain rfl := Option.some.inj hr
        obtain rfl := List.mem_singleton.mp hxa
        exact ⟨hxa, hfollows⟩
      | load buf indices =>
        obtain rfl := Option.some.inj hr
        refine ⟨hxa, ?_⟩
        rintro rfl
        exact hfollows hxa
      | _ => cases hr
  · obtain ⟨hxd', hne⟩ := vars_of_vectorized hdst hxd
    exact ⟨TileCall.dst_vars hxd', hne⟩

end Outer

end Calls

end TileLangNpuir.LoopVectorize
