import TileLangNpuir.LoopVectorize.Expr
import TileLangNpuir.Lib.CountedLoop
import TileLangNpuir.Lib.RowMajor

/-!
# Tile calls and the statements around them

The tile calls `NpuLoopVectorize` emits, on `tl.region` operands, and the
statements it visits. A call computes every element of its destination region
from the operand elements at the same position, a dimension of size one standing
for every position; all elements are read before any is written. `npuir_reshape`
pairs positions by their row-major number and `npuir_arange` fills in a linear
form of the position.
-/

namespace TileLangNpuir.LoopVectorize

open RowMajor

variable {V : Type}

/-- A `tl.region` call. -/
structure Region : Type where
  buf : Buffer
  offsets : List Index
  sizes : List Index

/-- An operand of a tile call. -/
inductive Arg (V : Type) : Type where
  | region (r : Region)
  | scalar (e : Expr V)

/-- The tile calls `LoopDecompose` emits. A comparison carries its mode in the
operator. -/
inductive TileCall (V : Type) : Type where
  | unary (op : UnaryOp) (src : Arg V) (dst : Region)
  | binary (op : BinaryOp) (a b : Arg V) (dst : Region)
  | select (c t f : Arg V) (dst : Region)
  /-- `tl.copy` -/
  | copy (src : Arg V) (dst : Region)
  /-- `tl.npuir_brc` -/
  | brc (src : Arg V) (dst : Region)
  /-- `tl.npuir_reshape` -/
  | reshape (src dst : Region)
  /-- `tl.npuir_arange` -/
  | arange (dst : Region) (strides : List ℤ) (offset : Index)

/-- The region a call writes. -/
def TileCall.dst : TileCall V → Region
  | unary _ _ dst => dst
  | binary _ _ _ dst => dst
  | select _ _ _ dst => dst
  | copy _ dst => dst
  | brc _ dst => dst
  | reshape _ dst => dst
  | arange dst _ _ => dst

/-- The index of the element at a position of a region: a dimension of size one
is read at its offset. -/
def shift : List ℤ → List ℤ → List ℤ → List ℤ
  | o :: os, n :: ns, p => (o + if n = 1 then 0 else p.headD 0) :: shift os ns p.tail
  | _, _, _ => []

/-- The variables of a region. -/
def Region.vars (r : Region) : List Var :=
  r.offsets.flatMap Index.vars ++ r.sizes.flatMap Index.vars

/-- The variables of an operand. -/
def Arg.vars : Arg V → List Var
  | region r => r.vars
  | scalar e => e.vars

/-- The buffers an operand reads. -/
def Arg.reads : Arg V → List ℕ
  | region r => [r.buf.id]
  | scalar e => e.loads.map fun l => l.1.id

/-- The variables of a call. -/
def TileCall.vars : TileCall V → List Var
  | unary _ src dst => src.vars ++ dst.vars
  | binary _ a b dst => a.vars ++ b.vars ++ dst.vars
  | select c t f dst => c.vars ++ t.vars ++ f.vars ++ dst.vars
  | copy src dst => src.vars ++ dst.vars
  | brc src dst => src.vars ++ dst.vars
  | reshape src dst => src.vars ++ dst.vars
  | arange dst _ offset => offset.vars ++ dst.vars

/-- The buffers a call reads. -/
def TileCall.reads : TileCall V → List ℕ
  | unary _ src _ => src.reads
  | binary _ a b _ => a.reads ++ b.reads
  | select c t f _ => c.reads ++ t.reads ++ f.reads
  | copy src _ => src.reads
  | brc src _ => src.reads
  | reshape src _ => [src.buf.id]
  | arange _ _ _ => []

section

variable (A : Alg V)

/-- The position of an index in a region. -/
def Region.position (env : Env V) (r : Region) (q : List ℤ) : List ℤ :=
  List.zipWith (· - ·) q (A.evals env r.offsets)

/-- The index lies in the region. -/
def Region.Contains (env : Env V) (r : Region) (q : List ℤ) : Prop :=
  q.length = r.offsets.length ∧ InBox (A.evals env r.sizes) (r.position A env q)

instance (env : Env V) (r : Region) (q : List ℤ) : Decidable (r.Contains A env q) :=
  inferInstanceAs (Decidable (_ ∧ _))

/-- The value of an operand at a position. -/
def Arg.read (env : Env V) (m : Mem V) : Arg V → List ℤ → V
  | region r, p => m r.buf.id (shift (A.evals env r.offsets) (A.evals env r.sizes) p)
  | scalar e, _ => e.eval A env m

/-- What a call computes for a position of its destination. -/
def TileCall.value (env : Env V) (m : Mem V) : TileCall V → List ℤ → V
  | unary op src _, p => A.unary op (src.read A env m p)
  | binary op a b _, p => A.binary op (a.read A env m p) (b.read A env m p)
  | select c t f _, p => A.select (c.read A env m p) (t.read A env m p) (f.read A env m p)
  | copy src _, p => src.read A env m p
  | brc src _, p => src.read A env m p
  | reshape src dst, p =>
    m src.buf.id (List.zipWith (· + ·) (A.evals env src.offsets)
      (unflatten (A.evals env src.sizes) (flatten (A.evals env dst.sizes) p)))
  | arange _ strides offset, p =>
    A.ofInt (offset.eval (A.ints env) + (List.zipWith (· * ·) strides p).sum)

/-- Run a call. -/
def TileCall.exec (env : Env V) (c : TileCall V) (m : Mem V) : Mem V := fun b q =>
  if b = c.dst.buf.id ∧ c.dst.Contains A env q then c.value A env m (c.dst.position A env q)
  else m b q

/-- Run a list of calls. -/
def execAll (env : Env V) (cs : List (TileCall V)) (m : Mem V) : Mem V :=
  cs.foldl (fun m c => c.exec A env m) m

end

/-- `ForKind`, as far as the pass looks at it. -/
inductive ForKind : Type where
  | parallel | serial
  deriving DecidableEq

/-- The statements the pass visits. `SeqStmt` is binary. -/
inductive Stmt (V : Type) : Type where
  | seq (s t : Stmt V)
  | forLoop (kind : ForKind) (x : Var) (min extent : Index) (body : Stmt V)
  | ifThenElse (cond : Expr V) (thenCase elseCase : Stmt V)
  | letStmt (x : Var) (value : Expr V) (body : Stmt V)
  | store (buf : Buffer) (indices : List Index) (value : Expr V)
  | eval (call : TileCall V)
  | nop

section

variable (A : Alg V) (isTrue : V → Bool)

/-- The effect of a buffer store. -/
def storeAt (m : Mem V) (b : ℕ) (q : List ℤ) (x : V) : Mem V := fun b' q' =>
  if b' = b ∧ q' = q then x else m b' q'

/-- Run a statement, parallel loops iteration by iteration. -/
def Stmt.run : Stmt V → Env V → Mem V → Mem V
  | seq s t, env, m => t.run env (s.run env m)
  | forLoop _ x min extent body, env, m =>
    countLoop (fun i m => body.run (Function.update env x (A.ofInt i)) m)
      (extent.eval (A.ints env)).toNat (min.eval (A.ints env)) m
  | ifThenElse cond thenCase elseCase, env, m =>
    if isTrue (cond.eval A env m) then thenCase.run env m else elseCase.run env m
  | letStmt x value body, env, m => body.run (Function.update env x (value.eval A env m)) m
  | store buf indices value, env, m =>
    storeAt m buf.id (A.evals env indices) (value.eval A env m)
  | eval call, env, m => call.exec A env m
  | nop, _, m => m

end

/-! ## What calls depend on and change -/

section

variable {A : Alg V} {env env' : Env V} {m m' : Mem V}

theorem TileCall.exec_of_ne {c : TileCall V} {b : ℕ} (h : b ≠ c.dst.buf.id) :
    c.exec A env m b = m b := by
  funext q
  rw [TileCall.exec, if_neg fun hb => h hb.1]

theorem TileCall.exec_contains {c : TileCall V} {q : List ℤ} (h : c.dst.Contains A env q) :
    c.exec A env m c.dst.buf.id q = c.value A env m (c.dst.position A env q) := by
  rw [TileCall.exec, if_pos ⟨rfl, h⟩]

theorem execAll_append (cs ds : List (TileCall V)) :
    execAll A env (cs ++ ds) m = execAll A env ds (execAll A env cs m) :=
  List.foldl_append

/-- Calls change only the buffers they write. -/
theorem execAll_of_forall_ne {cs : List (TileCall V)} {b : ℕ}
    (h : ∀ c ∈ cs, b ≠ c.dst.buf.id) : execAll A env cs m b = m b := by
  induction cs generalizing m with
  | nil => rfl
  | cons c cs ih =>
    rw [execAll, List.foldl_cons, ← execAll,
      ih fun c' hc' => h c' (List.mem_cons_of_mem _ hc'),
      TileCall.exec_of_ne (h c List.mem_cons_self)]

theorem Arg.read_congr {a : Arg V} {p : List ℤ} (henv : ∀ x ∈ a.vars, env x = env' x)
    (hm : ∀ b ∈ a.reads, m b = m' b) : a.read A env m p = a.read A env' m' p := by
  cases a with
  | region r =>
    simp only [Arg.vars, Region.vars, List.mem_append] at henv
    rw [Arg.read, Arg.read, hm _ List.mem_cons_self,
      Alg.evals_congr fun x hx => henv x (.inl hx),
      Alg.evals_congr fun x hx => henv x (.inr hx)]
  | scalar e =>
    refine Expr.eval_congr henv fun l hl => hm _ ?_
    exact List.mem_map.mpr ⟨l, hl, rfl⟩

/-- The value of a call depends on its variables and the buffers it reads. -/
theorem TileCall.value_congr {c : TileCall V} {p : List ℤ}
    (henv : ∀ x ∈ c.vars, env x = env' x) (hm : ∀ b ∈ c.reads, m b = m' b) :
    c.value A env m p = c.value A env' m' p := by
  cases c with
  | unary op src dst | copy src dst | brc src dst =>
    simp only [TileCall.vars, TileCall.reads, List.mem_append] at henv hm
    simp only [TileCall.value]
    rw [Arg.read_congr (fun x hx => henv x (.inl hx)) hm]
  | binary op a b dst =>
    simp only [TileCall.vars, TileCall.reads, List.mem_append] at henv hm
    rw [TileCall.value, TileCall.value,
      Arg.read_congr (fun x hx => henv x (.inl (.inl hx))) fun b hb => hm b (.inl hb),
      Arg.read_congr (fun x hx => henv x (.inl (.inr hx))) fun b hb => hm b (.inr hb)]
  | select c t f dst =>
    simp only [TileCall.vars, TileCall.reads, List.mem_append] at henv hm
    rw [TileCall.value, TileCall.value,
      Arg.read_congr (fun x hx => henv x (.inl (.inl (.inl hx)))) fun b hb => hm b (.inl (.inl hb)),
      Arg.read_congr (fun x hx => henv x (.inl (.inl (.inr hx)))) fun b hb => hm b (.inl (.inr hb)),
      Arg.read_congr (fun x hx => henv x (.inl (.inr hx))) fun b hb => hm b (.inr hb)]
  | reshape src dst =>
    simp only [TileCall.vars, TileCall.reads, Region.vars, List.mem_append] at henv hm
    rw [TileCall.value, TileCall.value, hm _ List.mem_cons_self,
      Alg.evals_congr fun x hx => henv x (.inl (.inl hx)),
      Alg.evals_congr fun x hx => henv x (.inl (.inr hx)),
      Alg.evals_congr fun x hx => henv x (.inr (.inr hx))]
  | arange dst strides offset =>
    simp only [TileCall.vars, List.mem_append] at henv
    rw [TileCall.value, TileCall.value, Index.eval_congr fun x hx => ?_]
    rw [Alg.ints, Alg.ints, henv x (.inl hx)]

/-- Variables of the destination are variables of the call. -/
theorem TileCall.dst_vars {c : TileCall V} {x : Var} (h : x ∈ c.dst.vars) : x ∈ c.vars := by
  cases c <;> exact List.mem_append_right _ h

/-- A call writes the same elements in environments that agree on its variables. -/
theorem TileCall.exec_congr_env {c : TileCall V} (henv : ∀ x ∈ c.vars, env x = env' x) :
    c.exec A env m = c.exec A env' m := by
  have hoff : A.evals env c.dst.offsets = A.evals env' c.dst.offsets :=
    Alg.evals_congr fun x hx => henv x (TileCall.dst_vars (List.mem_append_left _ hx))
  have hsize : A.evals env c.dst.sizes = A.evals env' c.dst.sizes :=
    Alg.evals_congr fun x hx => henv x (TileCall.dst_vars (List.mem_append_right _ hx))
  funext b q
  have hpos : c.dst.position A env q = c.dst.position A env' q := by
    rw [Region.position, Region.position, hoff]
  have hin : c.dst.Contains A env q ↔ c.dst.Contains A env' q := by
    rw [Region.Contains, Region.Contains, hpos, hsize]
  rw [TileCall.exec, TileCall.exec, hpos]
  exact if_congr (and_congr_right fun _ => hin) (TileCall.value_congr henv fun _ _ => rfl) rfl

end

end TileLangNpuir.LoopVectorize
