import TileLangNpuir.LoopVectorize.Expr
import TileLangNpuir.Lib.Strided

/-!
# Merged regions

`TryVectorizeRegionInLoop` of `LoopVectorize` on offsets that may load from buffers: the region of
one iteration of a loop is made the region of all of them, in the order of the iterations, if the
loop variable occurs in one offset and not under a load.
-/

namespace TileLangNpuir.LoopVectorize.RegionMerge

open RowMajor

/-! ## Offsets -/

/-- An offset or extent. `op` stands for every other form; its value is a function of the values
of its parts. -/
inductive Offset : Type where
  | const (n : ℤ)
  | var (x : Var)
  | op (f : List ℤ → ℤ) (args : List Offset)
  /-- `BufferLoad` -/
  | load (buf : ℕ) (indices : List Offset)

/-- The values of the variables, and what the buffers hold. -/
structure Env : Type where
  vars : Var → ℤ
  mem : ℕ → List ℤ → ℤ

/-- Another value for a variable. -/
def Env.set (ρ : Env) (x : Var) (v : ℤ) : Env := ⟨Function.update ρ.vars x v, ρ.mem⟩

mutual

def Offset.eval (ρ : Env) : Offset → ℤ
  | .const n => n
  | .var x => ρ.vars x
  | .op f args => f (Offset.evalAll ρ args)
  | .load buf indices => ρ.mem buf (Offset.evalAll ρ indices)

def Offset.evalAll (ρ : Env) : List Offset → List ℤ
  | [] => []
  | e :: es => e.eval ρ :: Offset.evalAll ρ es

end

mutual

/-- `LoopVarVisitor`: whether the variable occurs outside of loads, and whether under one. -/
def Offset.visit (x : Var) (indirectScope : Bool) : Offset → Bool × Bool
  | .const _ => (false, false)
  | .var y => if y = x then (!indirectScope, indirectScope) else (false, false)
  | .op _ args => Offset.visitAll x indirectScope args
  | .load _ indices => Offset.visitAll x true indices

def Offset.visitAll (x : Var) (indirectScope : Bool) : List Offset → Bool × Bool
  | [] => (false, false)
  | e :: es =>
    ((e.visit x indirectScope).1 || (Offset.visitAll x indirectScope es).1,
      (e.visit x indirectScope).2 || (Offset.visitAll x indirectScope es).2)

end

/-- The variable occurs. -/
def Offset.uses (x : Var) (e : Offset) : Bool := (e.visit x false).1 || (e.visit x false).2

/-! ## The pass -/

/-- `arith::Analyzer` and `arith::DetectLinearEquation`, as far as the pass uses them. -/
structure Analyzer : Type where
  /-- `TryGetConstIntValue` -/
  constInt : Offset → Option ℤ
  /-- `CanProveEqual` -/
  canProveEqual : Offset → Offset → Bool
  /-- `DetectLinearEquation` in one variable: coefficient and rest -/
  detectLinear : Offset → Var → Option (Offset × Offset)
  /-- `Simplify` of a sum -/
  simplifyAdd : Offset → ℤ → Offset
  constInt_eval : ∀ e n, constInt e = some n → ∀ ρ, e.eval ρ = n
  canProveEqual_eval : ∀ a b, canProveEqual a b = true → ∀ ρ, a.eval ρ = b.eval ρ
  detectLinear_eval : ∀ e x c b, detectLinear e x = some (c, b) →
    ∀ ρ, e.eval ρ = c.eval ρ * ρ.vars x + b.eval ρ
  detectLinear_uses : ∀ e x c b, detectLinear e x = some (c, b) → b.uses x = false
  simplifyAdd_eval : ∀ e n ρ, (simplifyAdd e n).eval ρ = e.eval ρ + n
  simplifyAdd_uses : ∀ e n x, e.uses x = false → (simplifyAdd e n).uses x = false

/-- A region call: a buffer with its shape, an offset and an extent for each dimension. -/
structure Region : Type where
  buffer : ℕ
  shape : List Offset
  offsets : List Offset
  regionId : Offset
  sizes : List Offset

/-- Where the loop variable occurs: nowhere, in one offset, or in several or under a load. -/
inductive LoopVarDim : Type where
  | notFound
  | dim (d : ℕ)
  | dispersed
  deriving DecidableEq

/-- `FindLoopVarInOffsets`, from the `i`-th offset on. -/
def findLoopVarInOffsets (x : Var) : ℕ → LoopVarDim → List Offset → LoopVarDim
  | _, foundDim, [] => foundDim
  | i, foundDim, e :: es =>
    if (e.visit x false).2 then .dispersed
    else if (e.visit x false).1 then
      if foundDim = .notFound then findLoopVarInOffsets x (i + 1) (.dim i) es else .dispersed
    else findLoopVarInOffsets x (i + 1) foundDim es

/-- `static_cast<int>`. -/
def toInt (n : ℤ) : ℤ := (n + 2 ^ 31) % 2 ^ 32 - 2 ^ 31

section

variable (Z : Analyzer) (x : Var)

/-- `ParseRegionCall`: the region's number and the sizes. -/
def parseRegionCall (r : Region) : Option (ℤ × List ℤ) :=
  if r.offsets.length = r.shape.length ∧ r.sizes.length = r.shape.length then do
    let regionId ← Z.constInt r.regionId
    let sizes ← r.sizes.mapM Z.constInt
    return (regionId, sizes)
  else none

/-- `CheckContinuity`. -/
def checkContinuity (shape offsets : List Offset) (sizes : List ℤ) (loopVarDim : ℕ) : Bool :=
  (List.range shape.length).all fun i =>
    let sizeExpr : Offset := .const (sizes.getD i 0)
    if i ≤ loopVarDim then Z.canProveEqual sizeExpr (.const 1)
    else Z.canProveEqual sizeExpr (shape.getD i (.const 0)) &&
      Z.canProveEqual (offsets.getD i (.const 0)) (.const 0)

/-- `AnalyzeNewOffset`. The start is an `int`. -/
def analyzeNewOffset (offset : Offset) (start : ℤ) : Option Offset :=
  match Z.detectLinear offset x with
  | some (c, b) =>
    if Z.canProveEqual c (.const 1) then some (Z.simplifyAdd b (toInt start)) else none
  | none => none

/-- `TryVectorizeRegionInLoop`. -/
def tryVectorizeRegionInLoop (r : Region) (start loopCount : ℤ) : Option Region :=
  match parseRegionCall Z r with
  | none => none
  | some (regionId, sizes) =>
    match findLoopVarInOffsets x 0 .notFound r.offsets with
    | .dispersed => none
    | .notFound => some ⟨r.buffer, r.shape, r.offsets, .const regionId, sizes.map .const⟩
    | .dim d =>
      if checkContinuity Z r.shape r.offsets sizes d then
        match analyzeNewOffset Z x (r.offsets.getD d (.const 0)) start with
        | some newOffset =>
          some ⟨r.buffer, r.shape, r.offsets.set d newOffset, .const regionId,
            (sizes.set d loopCount).map .const⟩
        | none => none
      else none

end

/-! ## Elements -/

/-- The positions of a box at some offsets in row-major order. -/
def positions (offsets sizes : List ℤ) : List (List ℤ) :=
  (points sizes).map (List.zipWith (· + ·) offsets)

/-- The elements of a region in row-major order. -/
def Region.elements (ρ : Env) (r : Region) : List (List ℤ) :=
  positions (r.offsets.map (·.eval ρ)) (r.sizes.map (·.eval ρ))

/-! ## Offsets without the variable -/

section

variable {x : Var} {ρ : Env} {v : ℤ}

mutual

theorem Offset.eval_of_not_visit : ∀ (e : Offset) (scope : Bool),
    e.visit x scope = (false, false) → e.eval (ρ.set x v) = e.eval ρ
  | .const _, _, _ => rfl
  | .var y, scope, h => by
    rw [visit] at h
    split at h
    · cases scope <;> cases h
    · rename_i hne
      exact Function.update_of_ne hne v ρ.vars
  | .op f args, scope, h => congrArg f (Offset.evalAll_of_not_visit args scope h)
  | .load buf indices, _, h =>
    congrArg (ρ.mem buf) (Offset.evalAll_of_not_visit indices true h)

theorem Offset.evalAll_of_not_visit : ∀ (es : List Offset) (scope : Bool),
    Offset.visitAll x scope es = (false, false) →
      Offset.evalAll (ρ.set x v) es = Offset.evalAll ρ es
  | [], _, _ => rfl
  | e :: es, scope, h => by
    rw [visitAll, Prod.mk.injEq, Bool.or_eq_false_iff, Bool.or_eq_false_iff] at h
    rw [evalAll, evalAll, Offset.eval_of_not_visit e scope (Prod.ext h.1.1 h.2.1),
      Offset.evalAll_of_not_visit es scope (Prod.ext h.1.2 h.2.2)]

end

theorem Offset.uses_eq_false {e : Offset} :
    e.uses x = false ↔ (e.visit x false).1 = false ∧ (e.visit x false).2 = false := by
  rw [uses, Bool.or_eq_false_iff]

theorem Offset.eval_set {e : Offset} (h : e.uses x = false) : e.eval (ρ.set x v) = e.eval ρ :=
  eval_of_not_visit e false (Prod.ext (uses_eq_false.mp h).1 (uses_eq_false.mp h).2)

/-- Nothing was found. -/
theorem findLoopVarInOffsets_notFound {i : ℕ} {found : LoopVarDim} {es : List Offset}
    (h : findLoopVarInOffsets x i found es = .notFound) :
    found = .notFound ∧ ∀ e ∈ es, e.uses x = false := by
  induction es generalizing i found with
  | nil => exact ⟨h, fun e he => (nomatch he)⟩
  | cons e es ih =>
    rw [findLoopVarInOffsets] at h
    split at h
    · cases h
    · rename_i hindirect
      split at h
      · split at h
        · cases (ih h).1
        · cases h
      · rename_i hdirect
        refine ⟨(ih h).1, List.forall_mem_cons.mpr ⟨?_, (ih h).2⟩⟩
        exact Offset.uses_eq_false.mpr ⟨by simpa using hdirect, by simpa using hindirect⟩

/-- One offset was found, now or before. -/
theorem findLoopVarInOffsets_dim {i d : ℕ} {found : LoopVarDim} {es : List Offset}
    (h : findLoopVarInOffsets x i found es = .dim d) :
    (found = .dim d ∧ ∀ e ∈ es, e.uses x = false) ∨
      found = .notFound ∧ ∃ j, d = i + j ∧ (∃ e, es[j]? = some e ∧ e.uses x = true) ∧
        ∀ (k : ℕ) e, es[k]? = some e → k ≠ j → e.uses x = false := by
  induction es generalizing i found with
  | nil => exact .inl ⟨h, fun e he => (nomatch he)⟩
  | cons e es ih =>
    rw [findLoopVarInOffsets] at h
    split at h
    · cases h
    · rename_i hindirect
      split at h
      · rename_i hdirect
        split at h
        · rename_i hfound
          refine .inr ⟨hfound, ?_⟩
          -- it is this one, and no later one
          rcases ih h with ⟨hdim, hrest⟩ | ⟨hdim, -⟩
          · obtain rfl := LoopVarDim.dim.inj hdim
            refine ⟨0, rfl, ⟨e, rfl, by rw [Offset.uses, hdirect, Bool.true_or]⟩, ?_⟩
            intro k e' he' hk
            cases k with
            | zero => exact absurd rfl hk
            | succ k => exact hrest e' (List.mem_of_getElem? he')
          · cases hdim
        · cases h
      · rename_i hdirect
        have hunused : e.uses x = false :=
          Offset.uses_eq_false.mpr ⟨by simpa using hdirect, by simpa using hindirect⟩
        rcases ih h with ⟨hdim, hrest⟩ | ⟨hnot, j, rfl, hj, hothers⟩
        · exact .inl ⟨hdim, List.forall_mem_cons.mpr ⟨hunused, hrest⟩⟩
        · refine .inr ⟨hnot, j + 1, by omega, hj, fun k e' he' hk => ?_⟩
          cases k with
          | zero =>
            obtain rfl := Option.some.inj he'
            exact hunused
          | succ k => exact hothers k e' he' fun heq => hk (congrArg Nat.succ heq)

end

/-! ## Merging -/

section

variable {Z : Analyzer} {x : Var} {r m : Region} {ρ : Env}

/-- Boxes of one position in the dimensions up to the `d`-th, put one behind the other along it. -/
theorem positions_set {d : ℕ} {offsets sizes : List ℤ} {o : ℤ} (n : ℤ)
    (hd : d < sizes.length) (hlen : offsets.length = sizes.length)
    (hone : ∀ i ≤ d, sizes.getD i 0 = 1) :
    positions (offsets.set d o) (sizes.set d n) =
      (List.range n.toNat).flatMap fun i : ℕ => positions (offsets.set d (o + i)) sizes := by
  induction d generalizing offsets sizes with
  | zero =>
    obtain ⟨size, sizes, rfl⟩ := List.exists_cons_of_length_pos (Nat.zero_lt_of_lt hd)
    obtain ⟨offset, offsets, rfl⟩ := List.exists_cons_of_length_pos (hlen ▸ Nat.zero_lt_of_lt hd)
    obtain rfl : size = 1 := hone 0 le_rfl
    simp [positions, points, List.map_flatMap, Function.comp_def]
  | succ d ih =>
    obtain ⟨size, sizes, rfl⟩ := List.exists_cons_of_length_pos (Nat.zero_lt_of_lt hd)
    obtain ⟨offset, offsets, rfl⟩ := List.exists_cons_of_length_pos (hlen ▸ Nat.zero_lt_of_lt hd)
    obtain rfl : size = 1 := hone 0 (Nat.zero_le _)
    have hrest := ih (Nat.lt_of_succ_lt_succ hd) (Nat.succ.inj hlen)
      fun i hi => hone (i + 1) (Nat.succ_le_succ hi)
    have hcons : ∀ offsets sizes : List ℤ, positions (offset :: offsets) (1 :: sizes) =
        (positions offsets sizes).map (List.cons offset) := by
      intro offsets sizes
      simp [positions, points, Function.comp_def]
    rw [List.set_cons_succ, List.set_cons_succ, hcons, hrest, List.map_flatMap]
    simp only [List.set_cons_succ, hcons]

theorem toInt_of_bounds {n : ℤ} (h : -2 ^ 31 ≤ n ∧ n < 2 ^ 31) : toInt n = n := by
  rw [toInt]
  omega

theorem eval_of_mapM {es : List Offset} {ns : List ℤ} (h : es.mapM Z.constInt = some ns) (ρ : Env) :
    es.map (·.eval ρ) = ns := by
  induction es generalizing ns with
  | nil =>
    obtain rfl := Option.some.inj h
    rfl
  | cons e es ih =>
    rw [List.mapM_cons] at h
    obtain ⟨n, hn, h⟩ := Option.bind_eq_some_iff.mp h
    obtain ⟨rest, hrest, h⟩ := Option.bind_eq_some_iff.mp h
    obtain rfl := Option.some.inj h
    rw [List.map_cons, Z.constInt_eval e n hn ρ, ih hrest]

/-- What `ParseRegionCall` says about a region. -/
theorem parseRegionCall_eq {regionId : ℤ} {sizes : List ℤ}
    (h : parseRegionCall Z r = some (regionId, sizes)) :
    r.offsets.length = r.shape.length ∧ sizes.length = r.shape.length ∧
      ∀ ρ, r.sizes.map (·.eval ρ) = sizes := by
  rw [parseRegionCall] at h
  split at h
  · rename_i hlen
    obtain ⟨n, -, h⟩ := Option.bind_eq_some_iff.mp h
    obtain ⟨ns, hns, h⟩ := Option.bind_eq_some_iff.mp h
    obtain ⟨-, rfl⟩ := Prod.mk.inj (Option.some.inj h)
    have hsizes := eval_of_mapM hns
    refine ⟨hlen.1, ?_, hsizes⟩
    rw [← hsizes ⟨fun _ => 0, fun _ _ => 0⟩, List.length_map, hlen.2]
  · cases h

theorem sizes_of_checkContinuity {shape offsets : List Offset} {sizes : List ℤ} {d : ℕ}
    (h : checkContinuity Z shape offsets sizes d = true) (hd : d < shape.length) :
    ∀ i ≤ d, sizes.getD i 0 = 1 := by
  intro i hi
  have hall := List.all_eq_true.mp h i (List.mem_range.mpr (hi.trans_lt hd))
  simp only [if_pos hi] at hall
  exact Z.canProveEqual_eval _ _ hall ⟨fun _ => 0, fun _ _ => 0⟩

/-- The new offset is the one of the first iteration, without the variable. -/
theorem analyzeNewOffset_eq {offset newOffset : Offset} {start : ℤ}
    (h : analyzeNewOffset Z x offset start = some newOffset) :
    newOffset.uses x = false ∧ ∀ ρ v,
      offset.eval (ρ.set x v) = newOffset.eval ρ + (v - toInt start) := by
  rw [analyzeNewOffset] at h
  split at h
  · rename_i c b hlinear
    split at h
    · rename_i hone
      obtain rfl := Option.some.inj h
      have hb := Z.detectLinear_uses offset x c b hlinear
      refine ⟨Z.simplifyAdd_uses b _ x hb, fun ρ v => ?_⟩
      have hc : c.eval (ρ.set x v) = 1 := Z.canProveEqual_eval c (.const 1) hone _
      have hx : (ρ.set x v).vars x = v := by simp [Env.set]
      rw [Z.detectLinear_eval offset x c b hlinear, hc, hx, Offset.eval_set hb, Z.simplifyAdd_eval]
      ring
    · cases h
  · cases h

/-- In another iteration only one offset has another value. -/
theorem map_eval_set {d : ℕ} {offsets : List Offset} {e : Offset} {v w : ℤ}
    (he : offsets[d]? = some e) (hw : e.eval (ρ.set x v) = w)
    (hothers : ∀ (k : ℕ) e, offsets[k]? = some e → k ≠ d → e.uses x = false) :
    offsets.map (·.eval (ρ.set x v)) = (offsets.map (·.eval ρ)).set d w := by
  refine List.ext_getElem? fun k => ?_
  rw [List.getElem?_set, List.getElem?_map, List.getElem?_map, List.length_map]
  by_cases hk : d = k
  · subst hk
    have hlt := (List.getElem?_eq_some_iff.mp he).1
    rw [if_pos rfl, if_pos hlt, he, Option.map_some, hw]
  · rw [if_neg hk]
    cases hget : offsets[k]? with
    | none => rfl
    | some e' =>
      rw [Option.map_some, Option.map_some, Offset.eval_set (hothers k e' hget (Ne.symm hk))]

/-- A region that is returned does not have the loop variable. If it was merged, its elements in
row-major order are those of the iterations, one after another; a region in which the variable
does not occur is the one of every iteration. -/
theorem regionMerge_exact (Z : Analyzer) (x : Var) (r m : Region) (min extent : ℤ)
    (hmin : -2 ^ 31 ≤ min ∧ min < 2 ^ 31)
    (h : tryVectorizeRegionInLoop Z x r min extent = some m) :
    m.buffer = r.buffer ∧ (∀ e ∈ m.offsets ++ m.sizes, e.uses x = false) ∧
      ((∃ e ∈ r.offsets, e.uses x = true) → ∀ ρ, m.elements ρ =
        (List.range extent.toNat).flatMap fun i : ℕ => r.elements (ρ.set x (min + i))) ∧
      ((∀ e ∈ r.offsets, e.uses x = false) → ∀ ρ v, m.elements ρ = r.elements (ρ.set x v)) := by
  rw [tryVectorizeRegionInLoop] at h
  split at h
  · cases h
  · rename_i regionId sizes hparse
    obtain ⟨hoffsets, hlen, hsizes⟩ := parseRegionCall_eq hparse
    have hconst : ∀ (ns : List ℤ) (ρ : Env), (ns.map Offset.const).map (·.eval ρ) = ns := by
      intro ns ρ
      rw [List.map_map]
      exact List.map_id ns
    have hconsts : ∀ (ns : List ℤ), ∀ e ∈ ns.map Offset.const, e.uses x = false := by
      intro ns e he
      obtain ⟨n, -, rfl⟩ := List.mem_map.mp he
      rfl
    split at h
    · cases h
    · -- the variable does not occur
      rename_i hfind
      obtain ⟨-, hunused⟩ := findLoopVarInOffsets_notFound hfind
      obtain rfl := Option.some.inj h
      refine ⟨rfl, ?_, fun hused => ?_, fun _ ρ v => ?_⟩
      · exact List.forall_mem_append.mpr ⟨hunused, hconsts sizes⟩
      · obtain ⟨e, he, hused⟩ := hused
        rw [hunused e he] at hused
        cases hused
      · rw [Region.elements, Region.elements, hconst, hsizes]
        refine congrArg (positions · sizes) (List.map_congr_left fun e he => ?_)
        exact (Offset.eval_set (hunused e he)).symm
    · -- it occurs in the `d`-th offset
      rename_i d hfind
      split at h
      · rename_i hcheck
        split at h
        · rename_i newOffset hnew
          obtain rfl := Option.some.inj h
          rcases findLoopVarInOffsets_dim hfind with ⟨hdim, -⟩ | ⟨-, j, hdj, ⟨e, he, hused⟩, hothers⟩
          · cases hdim
          obtain rfl : d = j := by omega
          have hd := (List.getElem?_eq_some_iff.mp he).1
          rw [List.getD_eq_getElem?_getD, he, Option.getD_some] at hnew
          obtain ⟨hnewUses, hnewEval⟩ := analyzeNewOffset_eq hnew
          have hone := sizes_of_checkContinuity hcheck (hoffsets ▸ hd)
          refine ⟨rfl, ?_, fun _ ρ => ?_, fun hunused => ?_⟩
          · refine List.forall_mem_append.mpr ⟨fun e' he' => ?_, hconsts _⟩
            obtain ⟨k, hk⟩ := List.mem_iff_getElem?.mp he'
            rw [List.getElem?_set] at hk
            split at hk
            · obtain rfl := Option.some.inj hk
              exact hnewUses
            · rename_i hkd
              exact hothers k e' hk (Ne.symm hkd)
          · have hbox : positions ((r.offsets.map (·.eval ρ)).set d (newOffset.eval ρ))
                (sizes.set d extent) = _ :=
              positions_set extent (hd.trans_eq (hoffsets.trans hlen.symm))
                (by rw [List.length_map, hoffsets, hlen]) hone
            rw [Region.elements, hconst, List.map_set, hbox]
            refine List.flatMap_congr fun i _ => ?_
            have hi : e.eval (ρ.set x (min + i)) = newOffset.eval ρ + i := by
              rw [hnewEval, toInt_of_bounds hmin]
              ring
            rw [Region.elements, hsizes, map_eval_set he hi hothers]
          · rw [hunused e (List.mem_of_getElem? he)] at hused
            cases hused
        · cases h
      · cases h

/-- An analyzer that knows numbers and variables. -/
def literals : Analyzer where
  constInt
    | .const n => some n
    | _ => none
  canProveEqual
    | .const m, .const n => m = n
    | _, _ => false
  detectLinear
    | .var y, x => if y = x then some (.const 1, .const 0) else none
    | _, _ => none
  simplifyAdd e n := .op (fun vs => vs.sum + n) [e]
  constInt_eval := by
    intro e n h ρ
    cases e with
    | const m => exact Option.some.inj h
    | var y => cases h
    | op f args => cases h
    | load buf indices => cases h
  canProveEqual_eval := by
    intro a b h ρ
    cases a with
    | const m =>
      cases b with
      | const n => exact of_decide_eq_true h
      | var y => cases h
      | op f args => cases h
      | load buf indices => cases h
    | var y => cases h
    | op f args => cases h
    | load buf indices => cases h
  detectLinear_eval := by
    intro e x c b h ρ
    cases e with
    | var y =>
      dsimp only at h
      split at h
      · rename_i heq
        obtain ⟨rfl, rfl⟩ := Prod.mk.inj (Option.some.inj h)
        rw [heq]
        simp [Offset.eval]
      · cases h
    | const n => cases h
    | op f args => cases h
    | load buf indices => cases h
  detectLinear_uses := by
    intro e x c b h
    cases e with
    | var y =>
      dsimp only at h
      split at h
      · obtain ⟨rfl, rfl⟩ := Prod.mk.inj (Option.some.inj h)
        rfl
      · cases h
    | const n => cases h
    | op f args => cases h
    | load buf indices => cases h
  simplifyAdd_eval := by
    intro e n ρ
    simp [Offset.eval, Offset.evalAll]
  simplifyAdd_uses := by
    intro e n x h
    rw [Offset.uses_eq_false] at h ⊢
    simpa [Offset.visit, Offset.visitAll] using h

/-- A row of a matrix for each iteration, from the third on. -/
theorem regionMerge_exact_rows : ∃ m, tryVectorizeRegionInLoop literals ⟨0, .int32⟩
    ⟨0, [.const 8, .const 2], [.var ⟨0, .int32⟩, .const 0], .const 1, [.const 1, .const 2]⟩ 2 3 =
      some m ∧ ∀ ρ, m.elements ρ = [[2, 0], [2, 1], [3, 0], [3, 1], [4, 0], [4, 1]] := by
  refine ⟨_, rfl, fun ρ => ?_⟩
  have h := (regionMerge_exact literals ⟨0, .int32⟩
    ⟨0, [.const 8, .const 2], [.var ⟨0, .int32⟩, .const 0], .const 1, [.const 1, .const 2]⟩ _ 2 3
    (by decide) rfl).2.2.1 ⟨.var ⟨0, .int32⟩, List.mem_cons_self, rfl⟩ ρ
  exact h

/-- A region without the loop variable is not repeated, and a minimum that is no `int` is cut. -/
theorem regionMerge_not_repeated :
    (¬∀ (Z : Analyzer) (x : Var) (r m : Region) (min extent : ℤ),
      (-2 ^ 31 ≤ min ∧ min < 2 ^ 31) → tryVectorizeRegionInLoop Z x r min extent = some m →
        ∀ ρ, m.elements ρ =
          (List.range extent.toNat).flatMap fun i : ℕ => r.elements (ρ.set x (min + i))) ∧
      ¬∀ (Z : Analyzer) (x : Var) (r m : Region) (min extent : ℤ),
        (∃ e ∈ r.offsets, e.uses x = true) → tryVectorizeRegionInLoop Z x r min extent = some m →
          ∀ ρ, m.elements ρ =
            (List.range extent.toNat).flatMap fun i : ℕ => r.elements (ρ.set x (min + i)) := by
  refine ⟨fun h => ?_, fun h => ?_⟩
  · have h := h literals ⟨0, .int32⟩ ⟨0, [.const 4], [.const 0], .const 1, [.const 1]⟩ _ 0 2
      (by decide) rfl ⟨fun _ => 0, fun _ _ => 0⟩
    exact absurd h (by decide)
  · have h := h literals ⟨0, ⟨.int, 64⟩⟩ ⟨0, [.const 4], [.var ⟨0, ⟨.int, 64⟩⟩], .const 1, [.const 1]⟩ _
      (2 ^ 32) 1 ⟨.var ⟨0, ⟨.int, 64⟩⟩, List.mem_cons_self, rfl⟩ rfl ⟨fun _ => 0, fun _ _ => 0⟩
    exact absurd h (by decide)

end

end TileLangNpuir.LoopVectorize.RegionMerge
