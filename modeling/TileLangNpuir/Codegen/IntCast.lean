import Mathlib.Data.Int.ModEq
import Mathlib.Tactic.Linarith
import Mathlib.Tactic.Positivity
import TileLangNpuir.LoopVectorize.Expr

/-!
# Integer casts of scalars

`VisitExpr_(const CastNode *)` of the two code generators (`src/target/codegen_npuir_dev.cc` and
`src/target/codegen_npuir_api.cc`, word for word the same), with `DTypetoMLIRType` and
`ScalarConvertType`. MLIR integers have a width and no sign, so a value of an integer type is the
bit pattern of its width, and whether an extension keeps it depends on which one is emitted.
-/

namespace TileLangNpuir.IntCast

open LoopVectorize (TypeCode DType)

/-! ## Types -/

/-- The MLIR types of scalars. -/
inductive MlirType : Type where
  | i (width : ℕ)
  | f16 | f32 | f64 | bf16
  deriving DecidableEq

/-- `DTypetoMLIRType` on scalars; `none` is `LOG(FATAL)`. -/
def dTypetoMLIRType (t : DType) : Option MlirType :=
  match t.code, t.bits with
  | .float, 16 => some .f16
  | .float, 32 => some .f32
  | .float, 64 => some .f64
  | .bfloat, 16 => some .bf16
  | .int, bits | .uint, bits => if bits ∈ [1, 4, 8, 16, 32, 64] then some (.i bits) else none
  | _, _ => none

/-- An integer type: signed, unsigned or bool. -/
def IsInteger (t : DType) : Prop := t.code = .int ∨ t.code = .uint

instance (t : DType) : Decidable (IsInteger t) := inferInstanceAs (Decidable (_ ∨ _))

/-- The integer that a bit pattern stands for. -/
def decode (t : DType) (x : BitVec t.bits) : ℤ := if t.code = .int then x.toInt else x.toNat

/-- The bit pattern of an integer. -/
def encode (t : DType) (v : ℤ) : BitVec t.bits := BitVec.ofInt t.bits v

/-- The value of the type that is congruent to an integer. -/
def wrap (t : DType) (v : ℤ) : ℤ := decode t (encode t v)

/-- The type has this value. -/
def Represents (t : DType) (v : ℤ) : Prop := wrap t v = v

/-! ## The emitted operation -/

/-- The conversions of the `arith` dialect. -/
inductive CastOp : Type where
  | fpToSI | fpToUI | siToFP | uiToFP | extSI | extUI | truncI | extF | truncF
  deriving DecidableEq

/-- `VisitExpr_(const CastNode *)`: the conversion from one type to another. -/
def visitCast (src target : DType) : Option CastOp :=
  let srcIsFloat := src.code = .float ∨ src.code = .bfloat
  let targetIsFloat := target.code = .float ∨ target.code = .bfloat
  if srcIsFloat ∧ target.code = .int then some .fpToSI
  else if srcIsFloat ∧ target.code = .uint then some .fpToUI
  else if src.code = .int ∧ targetIsFloat then some .siToFP
  else if src.code = .uint ∧ targetIsFloat then some .uiToFP
  else if target.code = .int then some (if src.bits < target.bits then .extSI else .truncI)
  else if target.code = .uint then some (if src.bits < target.bits then .extUI else .truncI)
  else if targetIsFloat then some (if src.bits < target.bits then .extF else .truncF)
  else none

/-- The two code generators. -/
inductive CodeGen : Type where
  /-- `CodeGenTileLangNPUIRDEV` -/
  | dev
  /-- `CodeGenTileLangNPUIRAPI` -/
  | api
  deriving DecidableEq

/-- What each of them emits for a cast. -/
def CodeGen.visitCast : CodeGen → DType → DType → Option CastOp
  | dev => IntCast.visitCast
  | api => IntCast.visitCast

/-- An integer conversion from `w` to `w'` bits. The extensions want a wider type and the
truncation a narrower one; the module is rejected otherwise. -/
def CastOp.apply {w : ℕ} (w' : ℕ) (x : BitVec w) : CastOp → Option (BitVec w')
  | extSI => if w < w' then some (x.signExtend w') else none
  | extUI => if w < w' then some (x.zeroExtend w') else none
  | truncI => if w' < w then some (x.truncate w') else none
  | _ => none

/-! ## Expressions -/

/-- Scalar integer expressions. `leaf` is a variable, an immediate or a load with its value;
`binary` is an operator that both sides compute alike. -/
inductive IntExpr : Type where
  | leaf (t : DType) (v : ℤ)
  | cast (t : DType) (a : IntExpr)
  | binary (t : DType) (f : ℤ → ℤ → ℤ) (a b : IntExpr)

namespace IntExpr

/-- `dtype`. -/
def dtype : IntExpr → DType
  | leaf t _ => t
  | cast t _ => t
  | binary t _ _ _ => t

/-- What an expression is worth in the program: a cast takes the congruent value. -/
def eval : IntExpr → ℤ
  | leaf t v => wrap t v
  | cast t a => wrap t a.eval
  | binary t f a b => wrap t (f a.eval b.eval)

/-- Every type in it has an MLIR type and is an integer type. -/
def Typed : IntExpr → Prop
  | leaf t _ => IsInteger t ∧ (dTypetoMLIRType t).isSome
  | cast t a => (IsInteger t ∧ (dTypetoMLIRType t).isSome) ∧ a.Typed
  | binary t _ a b => (IsInteger t ∧ (dTypetoMLIRType t).isSome) ∧ a.Typed ∧ b.Typed

/-- What the emitted operations compute; `none` where the module is rejected. -/
def lower (g : CodeGen) : (e : IntExpr) → Option (BitVec e.dtype.bits)
  | leaf t v => some (encode t v)
  | cast t a => do
    let x ← a.lower g
    let op ← g.visitCast a.dtype t
    op.apply t.bits x
  | binary t f a b => do
    let x ← a.lower g
    let y ← b.lower g
    return encode t (f (decode a.dtype x) (decode b.dtype y))

/-- `ScalarConvertType`. -/
def scalarConvertType (imm : IntExpr) (targetDtype : DType) : IntExpr := cast targetDtype imm

/-- The scalar operand of a vector op on a buffer of element type `t`. -/
def scalarOperand (e : IntExpr) (t : DType) : IntExpr :=
  if e.dtype = t then e else e.scalarConvertType t

/-- A cast is well typed and gives the value of its type that is congruent to its operand, which
is the operand itself where the type has it. -/
def CastKeeps (g : CodeGen) (t : DType) (a : IntExpr) : Prop :=
  ∃ x : BitVec t.bits, (cast t a).lower g = some x ∧ decode t x ≡ a.eval [ZMOD 2 ^ t.bits] ∧
    (Represents t a.eval → decode t x = a.eval)

/-- Every cast of the expression does. -/
def EveryCastKeeps (g : CodeGen) : IntExpr → Prop
  | leaf _ _ => True
  | cast t a => a.EveryCastKeeps g ∧ CastKeeps g t a
  | binary _ _ a b => a.EveryCastKeeps g ∧ b.EveryCastKeeps g

/-- The casts that keep the value: to a narrower type, or to a wider type that is of the same
sign or when the top bit of the operand is clear. -/
def Plain (s t : DType) (v : ℤ) : Prop :=
  t.bits < s.bits ∨ s.bits < t.bits ∧ (s.code = t.code ∨ 0 ≤ v ∧ v < 2 ^ (s.bits - 1))

/-- Every cast of the expression is of this kind. -/
def EveryCastPlain : IntExpr → Prop
  | leaf _ _ => True
  | cast t a => a.EveryCastPlain ∧ Plain a.dtype t a.eval
  | binary _ _ a b => a.EveryCastPlain ∧ b.EveryCastPlain

end IntExpr

/-! ## Bit patterns -/

section

variable {s t : DType}

theorem encode_eq_of_modEq {a b : ℤ} (h : a ≡ b [ZMOD 2 ^ t.bits]) : encode t a = encode t b := by
  apply BitVec.eq_of_toNat_eq
  rw [encode, encode, BitVec.toNat_ofInt, BitVec.toNat_ofInt]
  push_cast
  rw [h]

theorem encode_decode (x : BitVec t.bits) : encode t (decode t x) = x := by
  rw [encode, decode]
  split
  · exact BitVec.ofInt_toInt
  · rw [BitVec.ofInt_natCast, BitVec.ofNat_toNat, BitVec.setWidth_eq]

theorem decode_modEq_toNat (x : BitVec t.bits) : decode t x ≡ x.toNat [ZMOD 2 ^ t.bits] := by
  rw [decode]
  split
  · rw [BitVec.toInt_eq_toNat_bmod, Int.ModEq]
    exact_mod_cast Int.bmod_emod
  · rfl

/-- A value of the type is determined by its residue. -/
theorem decode_eq_of_modEq {x : BitVec t.bits} {v : ℤ} (h : decode t x ≡ v [ZMOD 2 ^ t.bits])
    (hv : Represents t v) : decode t x = v := by
  have hx : x = encode t v := by rw [← encode_decode x, encode_eq_of_modEq h]
  rw [hx]
  exact hv

theorem not_modEq_add_pow {v : ℤ} {m n : ℕ} (h : m < n) : ¬v ≡ v + 2 ^ m [ZMOD 2 ^ n] := by
  intro hmod
  have hdvd : (2 : ℤ) ^ n ∣ 2 ^ m := by simpa using hmod.dvd
  have hlt : (2 : ℤ) ^ m < 2 ^ n := pow_lt_pow_right₀ one_lt_two h
  exact absurd (Int.le_of_dvd (by positivity) hdvd) (not_le.mpr hlt)

/-- The two readings of a pattern agree, also modulo a higher power, when the top bit is clear. -/
theorem toInt_modEq_toNat_iff {w n : ℕ} (h : w < n) (x : BitVec w) :
    x.toInt ≡ x.toNat [ZMOD 2 ^ n] ↔ 2 * x.toNat < 2 ^ w := by
  have hcond := BitVec.toInt_eq_toNat_cond x
  split at hcond
  case isTrue hclear =>
    refine iff_of_true ?_ hclear
    rw [hcond]
  case isFalse hset =>
    refine iff_of_false ?_ hset
    have hnat : (x.toNat : ℤ) = x.toInt + 2 ^ w := by
      push_cast at hcond
      omega
    rw [hnat]
    exact not_modEq_add_pow h

theorem toNat_lt_half_iff {w : ℕ} (hpos : 0 < w) (x : BitVec w) :
    (x.toNat : ℤ) < 2 ^ (w - 1) ↔ 2 * x.toNat < 2 ^ w := by
  have htwo : 2 ^ w = 2 * 2 ^ (w - 1) := by rw [← pow_succ', Nat.sub_add_cancel hpos]
  rw [htwo]
  constructor
  · intro h
    have : x.toNat < 2 ^ (w - 1) := by exact_mod_cast h
    omega
  · intro h
    have : x.toNat < 2 ^ (w - 1) := by omega
    exact_mod_cast this

theorem toInt_nonneg_iff {w : ℕ} (hpos : 0 < w) (x : BitVec w) :
    (0 ≤ x.toInt ∧ x.toInt < 2 ^ (w - 1)) ↔ 2 * x.toNat < 2 ^ w := by
  have hcond := BitVec.toInt_eq_toNat_cond x
  have hbound : x.toNat < 2 ^ w := x.isLt
  split at hcond
  case isTrue hclear =>
    refine iff_of_true ⟨by omega, ?_⟩ hclear
    rw [hcond]
    exact (toNat_lt_half_iff hpos x).mpr hclear
  case isFalse hset => exact iff_of_false (fun h => by omega) hset

/-- The pattern of a wider type has the value of the narrower one's pattern exactly when the
extension is the one for the narrower type, or the top bit is clear. -/
theorem extend_iff (hpos : 0 < s.bits) (hlt : s.bits < t.bits) (hs : IsInteger s)
    (ht : IsInteger t) (x : BitVec s.bits) :
    decode t (if t.code = .int then x.signExtend t.bits else x.zeroExtend t.bits) ≡ decode s x
        [ZMOD 2 ^ t.bits] ↔
      s.code = t.code ∨ 0 ≤ decode s x ∧ decode s x < 2 ^ (s.bits - 1) := by
  have hsigned : (x.signExtend t.bits).toInt = x.toInt := BitVec.toInt_signExtend_of_le hlt.le
  have hunsigned : (x.zeroExtend t.bits).toNat = x.toNat := BitVec.toNat_setWidth_of_le hlt.le
  rcases hs with hs | hs <;> rcases ht with ht | ht
  · refine iff_of_true ?_ (.inl (hs.trans ht.symm))
    simp only [decode, hs, ht, if_true, hsigned]
    rfl
  · simp only [decode, hs, ht, if_true, reduceCtorEq, if_false, hunsigned, false_or]
    rw [toInt_nonneg_iff hpos, ← toInt_modEq_toNat_iff hlt, Int.modEq_comm]
  · simp only [decode, hs, ht, if_true, reduceCtorEq, if_false, hsigned, false_or,
      Int.natCast_nonneg, true_and]
    rw [toNat_lt_half_iff hpos, ← toInt_modEq_toNat_iff hlt]
  · refine iff_of_true ?_ (.inl (hs.trans ht.symm))
    simp only [decode, hs, ht, reduceCtorEq, if_false, hunsigned]
    rfl

/-- The pattern of a narrower type keeps the residue. -/
theorem truncate_modEq (hlt : t.bits < s.bits) (x : BitVec s.bits) :
    decode t (x.truncate t.bits) ≡ decode s x [ZMOD 2 ^ t.bits] := by
  have hdvd : (2 : ℤ) ^ t.bits ∣ 2 ^ s.bits := pow_dvd_pow 2 hlt.le
  have hpattern : ((x.truncate t.bits).toNat : ℤ) ≡ x.toNat [ZMOD 2 ^ t.bits] := by
    rw [BitVec.truncate_eq_setWidth, BitVec.toNat_setWidth]
    push_cast
    exact Int.mod_modEq _ _
  calc decode t (x.truncate t.bits) ≡ (x.truncate t.bits).toNat [ZMOD 2 ^ t.bits] :=
        decode_modEq_toNat _
    _ ≡ x.toNat [ZMOD 2 ^ t.bits] := hpattern
    _ ≡ decode s x [ZMOD 2 ^ t.bits] := ((decode_modEq_toNat x).of_dvd hdvd).symm

/-- What is emitted between integer types. -/
theorem visitCast_integer (hs : IsInteger s) (ht : IsInteger t) :
    visitCast s t = some (if s.bits < t.bits then (if t.code = .int then .extSI else .extUI)
      else .truncI) := by
  obtain ⟨sc, sw⟩ := s
  obtain ⟨tc, tw⟩ := t
  rcases hs with rfl | rfl <;> rcases ht with rfl | rfl <;> simp [visitCast]

end

/-! ## Casts -/

namespace IntExpr

variable {g : CodeGen}

theorem decode_lower {e : IntExpr} (h : e.EveryCastKeeps g) :
    ∃ x, e.lower g = some x ∧ decode e.dtype x = e.eval := by
  induction e with
  | leaf t v => exact ⟨_, rfl, rfl⟩
  | cast t a ih =>
    obtain ⟨x, hx, hmod, -⟩ := h.2
    refine ⟨x, hx, ?_⟩
    rw [eval, wrap, ← encode_eq_of_modEq hmod, encode_decode]
    rfl
  | binary t f a b iha ihb =>
    obtain ⟨x, hx, hxa⟩ := iha h.1
    obtain ⟨y, hy, hyb⟩ := ihb h.2
    refine ⟨encode t (f (decode a.dtype x) (decode b.dtype y)), ?_, ?_⟩
    · rw [lower, hx, hy]
      rfl
    · rw [hxa, hyb]
      rfl

/-- One cast, on an operand that is computed right. -/
theorem castKeeps_iff {t : DType} {a : IntExpr} (hs : IsInteger a.dtype) (ht : IsInteger t)
    (hpos : 0 < a.dtype.bits) {x : BitVec a.dtype.bits} (hx : a.lower g = some x)
    (hv : decode a.dtype x = a.eval) : CastKeeps g t a ↔ Plain a.dtype t a.eval := by
  have hvisit : g.visitCast a.dtype t = visitCast a.dtype t := by cases g <;> rfl
  have hlower : (cast t a).lower g = (if a.dtype.bits < t.bits
      then (if t.code = .int then CastOp.extSI else .extUI) else .truncI).apply t.bits x := by
    rw [lower, hx, hvisit, visitCast_integer hs ht]
    rfl
  rw [Plain, ← hv]
  rcases lt_trichotomy a.dtype.bits t.bits with hlt | heq | hlt
  · rw [← extend_iff hpos hlt hs ht x]
    have hsome : (cast t a).lower g =
        some (if t.code = .int then x.signExtend t.bits else x.zeroExtend t.bits) := by
      rw [hlower, if_pos hlt]
      split
      · rw [CastOp.apply, if_pos hlt]
      · rw [CastOp.apply, if_pos hlt]
    constructor
    · rintro ⟨y, hy, hmod, -⟩
      obtain rfl := Option.some.inj (hsome.symm.trans hy)
      exact .inr ⟨hlt, hv ▸ hmod⟩
    · rintro (hgt | ⟨-, hmod⟩)
      · exact absurd hgt (not_lt.mpr hlt.le)
      · exact ⟨_, hsome, hv ▸ hmod, decode_eq_of_modEq (hv ▸ hmod)⟩
  · -- a truncation to the same width is not an operation
    refine iff_of_false ?_ fun h => by omega
    rintro ⟨y, hy, -⟩
    rw [hlower, if_neg heq.not_lt, CastOp.apply, if_neg heq.not_gt] at hy
    cases hy
  · refine iff_of_true ?_ (.inl hlt)
    have hsome : (cast t a).lower g = some (x.truncate t.bits) := by
      rw [hlower, if_neg (not_lt.mpr hlt.le), CastOp.apply, if_pos hlt]
    have hmod := truncate_modEq hlt x
    rw [hv] at hmod
    exact ⟨_, hsome, hmod, decode_eq_of_modEq hmod⟩

theorem Typed.dtype {e : IntExpr} (h : e.Typed) : IsInteger e.dtype ∧ 0 < e.dtype.bits := by
  have hpos : ∀ t : DType, IsInteger t ∧ (dTypetoMLIRType t).isSome → IsInteger t ∧ 0 < t.bits := by
    rintro ⟨code, bits⟩ ⟨hint, hsome⟩
    refine ⟨hint, ?_⟩
    rcases Nat.eq_zero_or_pos bits with rfl | h
    · rcases hint with rfl | rfl <;> cases hsome
    · exact h
  cases e with
  | leaf t v => exact hpos t h
  | cast t a => exact hpos t h.1
  | binary t f a b => exact hpos t h.1

theorem everyCastKeeps_iff {e : IntExpr} (h : e.Typed) :
    e.EveryCastKeeps g ↔ e.EveryCastPlain := by
  induction e with
  | leaf t v => exact Iff.rfl
  | cast t a ih =>
    have hiff := ih h.2
    obtain ⟨hs, hpos⟩ := h.2.dtype
    constructor
    · rintro ⟨ha, hcast⟩
      obtain ⟨x, hx, hv⟩ := decode_lower ha
      exact ⟨hiff.mp ha, (castKeeps_iff hs h.1.1 hpos hx hv).mp hcast⟩
    · rintro ⟨ha, hplain⟩
      obtain ⟨x, hx, hv⟩ := decode_lower (hiff.mpr ha)
      exact ⟨hiff.mpr ha, (castKeeps_iff hs h.1.1 hpos hx hv).mpr hplain⟩
  | binary t f a b iha ihb => exact and_congr (iha h.2.1) (ihb h.2.2)

/-- In either code generator, the casts of an expression, wherever they stand in it and whatever
they are nested in, keep their values exactly when each of them is plain. The same holds with the
conversion of the expression to the element type of a vector. -/
theorem casts_keep_iff {e : IntExpr} (h : e.Typed) {t : DType} (hint : IsInteger t)
    (ht : (dTypetoMLIRType t).isSome) :
    (e.EveryCastKeeps g ↔ e.EveryCastPlain) ∧
      ((e.scalarOperand t).EveryCastKeeps g ↔ (e.scalarOperand t).EveryCastPlain) := by
  refine ⟨everyCastKeeps_iff h, everyCastKeeps_iff ?_⟩
  rw [scalarOperand]
  split
  · exact h
  · exact ⟨⟨hint, ht⟩, h⟩

/-- A negative `int32`, narrowed and widened again with its sign. -/
def narrowed : IntExpr := cast ⟨.int, 64⟩ (cast ⟨.int, 16⟩ (leaf .int32 (-5)))

theorem casts_keep_narrowed : narrowed.EveryCastKeeps .dev := by
  have htyped : narrowed.Typed := ⟨⟨.inl rfl, rfl⟩, ⟨.inl rfl, rfl⟩, .inl rfl, rfl⟩
  have hkeeps := (casts_keep_iff (g := .dev) htyped (t := .int32) (.inl rfl) rfl).1
  exact hkeeps.mpr ⟨⟨trivial, .inl (by decide)⟩, .inr ⟨by decide, .inl rfl⟩⟩

/-- `T.Cast("int32", x < y)`, where the comparison is true. -/
def boolAsInt : IntExpr := cast .int32 (leaf .bool 1)

/-- True becomes minus one. -/
theorem casts_lose_bool :
    boolAsInt.lower .dev = some (-1) ∧ boolAsInt.lower .api = some (-1) ∧
      ¬boolAsInt.EveryCastKeeps .dev ∧ ¬boolAsInt.EveryCastKeeps .api := by
  have htyped : boolAsInt.Typed := ⟨⟨.inl rfl, rfl⟩, .inr rfl, rfl⟩
  have hnot : ∀ g, ¬boolAsInt.EveryCastKeeps g := by
    intro g
    rw [everyCastKeeps_iff htyped]
    rintro ⟨-, hlt | ⟨-, hsame | ⟨-, hlt⟩⟩⟩
    · exact absurd hlt (by decide)
    · cases hsame
    · exact absurd hlt (by decide)
  exact ⟨by decide, by decide, hnot .dev, hnot .api⟩

end IntExpr

end TileLangNpuir.IntCast
