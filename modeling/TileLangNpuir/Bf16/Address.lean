import TileLangNpuir.Bf16.Legalize

/-!
# What the rewritten operations address

`CreateRegion` is used for temporaries, which start at zero, and for the buffers
themselves, where the offsets of the call are lost by it. And a temporary that was made
for one region is used for later ones of any size. A call is addressed as it was written
exactly when neither matters.
-/

namespace TileLangNpuir.Bf16

open RowMajor

/-- Integer expressions, with their values under a valuation of the variables. -/
class IndexExpr (E : Type) [Zero E] where
  eval : (String → ℤ) → E → ℤ
  eval_zero : ∀ σ, eval σ 0 = 0

open IndexExpr

instance : IndexExpr ℤ := ⟨fun _ n => n, fun _ => rfl⟩

variable {E : Type} [DecidableEq E] [Zero E] [IndexExpr E] (σ : String → ℤ)

/-- The value of a range. -/
def Range.value (g : Range E) : ℤ × ℤ := (eval σ g.min, eval σ g.extent)

/-- The elements of a region. -/
def Region.elements (r : Region E) (p : List ℤ) : Prop := InRanges (r.ranges.map (Range.value σ)) p

/-- The elements of an emitted region. -/
def NewRegion.elements (r : NewRegion E) (p : List ℤ) : Prop :=
  InRanges (r.ranges.map (Range.value σ)) p

/-- An emitted region addresses the elements of the region of the call, or elements that
a temporary has. -/
def StandsFor (r' : NewRegion E) (r : Region E) : Prop :=
  match r'.place with
  | .buffer b => b.id = r.buffer.id ∧ ∀ p, r'.elements σ p ↔ r.elements σ p
  | .temp t => ∀ p, r'.elements σ p → InBox (t.shape.map (eval σ)) p

/-- The regions of an operand, its casts included. -/
def PreparedRegion.StandsFor (p : PreparedRegion E) (r : Region E) : Prop :=
  Bf16.StandsFor σ p.region r ∧
    ∀ c ∈ p.before ++ p.castBack, Bf16.StandsFor σ c.src r ∧ Bf16.StandsFor σ c.dst r

/-- The statement writes an element of a buffer. -/
def Instr.Writes (i : Instr E) (b : ℕ) (p : List ℤ) : Prop :=
  match i with
  | .cast c => ∃ b', c.dst.place = .buffer b' ∧ b'.id = b ∧ c.dst.elements σ p
  | .call _ (.new r) => ∃ b', r.place = .buffer b' ∧ b'.id = b ∧ r.elements σ p
  | .call _ (.kept (.region r)) => r.buffer.id = b ∧ r.elements σ p
  | .call _ (.kept (.other _)) => False

/-- The outcome of a call addresses what the call does: operand by operand, and nothing
but the destination is written. -/
def Addresses (call : Call E) (o : Outcome E) : Prop :=
  match o, call with
  | .rewritten p0 p1 pd, .binary _ (.region src0) src1 (.region dst) =>
    p0.StandsFor σ src0 ∧ (∀ p r, p1 = some p → src1 = .region r → p.StandsFor σ r) ∧
      pd.StandsFor σ dst ∧
      ∀ b p, (∃ i ∈ o.instrs call, i.Writes σ b p) ↔ b = dst.buffer.id ∧ dst.elements σ p
  | .rewritten p0 _ pd, .unary _ (.region src) (.region dst) =>
    p0.StandsFor σ src ∧ pd.StandsFor σ dst ∧
      ∀ b p, (∃ i ∈ o.instrs call, i.Writes σ b p) ↔ b = dst.buffer.id ∧ dst.elements σ p
  | _, _ => True

/-! ## When a region stands for another -/

/-- The region starts at zero, or has no elements. -/
def AtOrigin (r : Region E) : Prop :=
  (∀ g ∈ r.ranges, eval σ g.min = 0) ∨ ∃ g ∈ r.ranges, eval σ g.extent ≤ 0

/-- The extents of the region are within the shape, or it has no elements. -/
def Fits (r : Region E) (shape : List E) : Prop :=
  (∃ g ∈ r.ranges, eval σ g.extent ≤ 0) ∨
    List.Forall₂ (fun g n => eval σ g.extent ≤ eval σ n) r.ranges shape

variable {σ} {r : Region E}

omit [DecidableEq E] in
theorem createRegion_elements (place : Place E) (p : List ℤ) :
    (createRegion place r.ranges).elements σ p ↔
      InRanges (toOrigin (r.ranges.map (Range.value σ))) p := by
  have heq : (createRegion place r.ranges).ranges.map (Range.value σ) =
      toOrigin (r.ranges.map (Range.value σ)) := by
    simp only [createRegion, toOrigin, List.map_map]
    refine List.map_congr_left fun g _ => ?_
    exact Prod.ext (eval_zero σ) rfl
  rw [NewRegion.elements, heq]

omit [DecidableEq E] in
theorem standsFor_buffer_iff :
    StandsFor σ (createRegion (.buffer r.buffer) r.ranges) r ↔ AtOrigin σ r := by
  have hsame : (∀ p, (createRegion (.buffer r.buffer) r.ranges).elements σ p ↔ r.elements σ p) ↔
      AtOrigin σ r := by
    simp only [createRegion_elements, Region.elements, toOrigin_same_iff, AtOrigin,
      List.mem_map, forall_exists_index, and_imp, forall_apply_eq_imp_iff₂,
      exists_exists_and_eq_and, Range.value]
  exact ⟨fun h => hsame.mp h.2, fun h => ⟨rfl, hsame.mpr h⟩⟩

omit [DecidableEq E] in
theorem standsFor_temp_iff {t : Temp E} :
    StandsFor σ (createRegion (.temp t) r.ranges) r ↔ Fits σ r t.shape := by
  have hsub : (∀ p, (createRegion (.temp t) r.ranges).elements σ p →
      InBox (t.shape.map (eval σ)) p) ↔ Fits σ r t.shape := by
    simp only [createRegion_elements, toOrigin_inBox_iff, Fits, List.mem_map,
      exists_exists_and_eq_and, Range.value, List.forall₂_map_left_iff, List.forall₂_map_right_iff]
  exact hsub

omit [DecidableEq E] in
theorem fits_extents (r : Region E) : Fits σ r (r.ranges.map Range.extent) := by
  right
  rw [List.forall₂_map_right_iff, List.forall₂_same]
  exact fun g _ => le_rfl

/-! ## Operands -/

namespace Mutator

variable {m : Mutator E} {scope : String}

variable (m σ) in
/-- A source is read from an fp32 copy that is large enough, or from a region that
starts at zero. -/
def SourceAddressed (r : Region E) (scope : String) : Prop :=
  match m.bf16Alias r.buffer.id with
  | some t => Fits σ r t.shape
  | none => r.buffer.isBF16 = true ∧ (m.findCast r scope).isSome = true ∨ AtOrigin σ r

variable (m σ) in
/-- A destination starts at zero, and fits the temporary it already has. -/
def DestinationAddressed (r : Region E) : Prop :=
  AtOrigin σ r ∧ (r.buffer.isBF16 = true → ∀ t, m.bf16Alias r.buffer.id = some t → Fits σ r t.shape)

theorem prepareSourceRegion_standsFor_iff :
    (m.prepareSourceRegion r scope).1.StandsFor σ r ↔ m.SourceAddressed σ r scope := by
  unfold prepareSourceRegion SourceAddressed
  cases m.bf16Alias r.buffer.id with
  | some t => simp [PreparedRegion.StandsFor, standsFor_temp_iff]
  | none =>
    dsimp only
    by_cases hbf16 : r.buffer.isBF16 = true
    · cases hfind : m.findCast r scope with
      | some c =>
        have hfits : Fits σ r c.temp.shape := by
          rw [findCast_shape hfind]
          exact fits_extents r
        simp [PreparedRegion.StandsFor, standsFor_temp_iff, hbf16, hfits]
      | none =>
        have hfits : StandsFor σ (createRegion (.temp (m.createTempBuffer r.ranges scope).1) r.ranges)
            r := standsFor_temp_iff.mpr (fits_extents r)
        simp [PreparedRegion.StandsFor, hbf16, hfits, standsFor_buffer_iff]
    · simp [PreparedRegion.StandsFor, hbf16, standsFor_buffer_iff]

omit [DecidableEq E] in
theorem prepareDestinationRegion_standsFor_iff :
    (m.prepareDestinationRegion r).1.StandsFor σ r ↔ m.DestinationAddressed σ r := by
  unfold prepareDestinationRegion DestinationAddressed
  dsimp only
  by_cases hbf16 : r.buffer.isBF16 = true
  · cases halias : m.bf16Alias r.buffer.id with
    | some t =>
      simp [PreparedRegion.StandsFor, standsFor_temp_iff, standsFor_buffer_iff, hbf16, and_comm]
    | none =>
      have hfits : StandsFor σ
          (createRegion (.temp (m.createTempBuffer r.ranges r.buffer.scope).1) r.ranges) r :=
        standsFor_temp_iff.mpr (fits_extents r)
      simp [PreparedRegion.StandsFor, hbf16, hfits, standsFor_buffer_iff]
  · simp [PreparedRegion.StandsFor, hbf16, standsFor_buffer_iff]

variable (m σ) in
/-- The second source, which is prepared when the destination has its temporary. -/
def SecondSourceAddressed (r dst : Region E) : Prop :=
  if dst.buffer.isBF16 = true ∧ r.buffer.id = dst.buffer.id then
    Fits σ r ((m.bf16Alias dst.buffer.id).elim (dst.ranges.map Range.extent) Temp.shape)
  else m.SourceAddressed σ r dst.buffer.scope

theorem sourceAddressed_second_iff {src0 dst : Region E}
    (h0 : m.SourceAddressed σ src0 dst.buffer.scope) :
    ((m.prepareSourceRegion src0 dst.buffer.scope).2.prepareDestinationRegion dst).2.SourceAddressed
        σ r dst.buffer.scope ↔ m.SecondSourceAddressed σ r dst := by
  unfold SecondSourceAddressed
  split
  · rename_i hsame
    obtain ⟨hbf16, hid⟩ := hsame
    rw [SourceAddressed, hid, prepareDestinationRegion_bf16Alias_self hbf16]
    dsimp only
    rw [prepareSourceRegion_bf16Alias]
    cases m.bf16Alias dst.buffer.id <;> rfl
  · rename_i hother
    rw [SourceAddressed, SourceAddressed, prepareDestinationRegion_bf16Alias_of_not hother,
      prepareSourceRegion_bf16Alias, prepareDestinationRegion_findCast]
    cases halias : m.bf16Alias r.buffer.id with
    | some t => exact Iff.rfl
    | none =>
      dsimp only
      constructor
      · rintro (⟨hbf16, hsome⟩ | horigin)
        · rcases findCast_of_prepareSourceRegion hsome with hsome | ⟨hid, hranges, hnone, hmiss⟩
          · exact .inl ⟨hbf16, hsome⟩
          · -- cached by the first source, which started at zero
            right
            rw [SourceAddressed, hnone] at h0
            rcases h0 with ⟨_, hfind⟩ | h0
            · rw [hmiss] at hfind
              cases hfind
            · rw [AtOrigin, hranges] at h0
              exact h0
        · exact .inr horigin
      · rintro (⟨hbf16, hsome⟩ | horigin)
        · exact .inl ⟨hbf16, findCast_prepareSourceRegion hsome⟩
        · exact .inr horigin

end Mutator

/-! ## Calls -/

omit [DecidableEq E] in
theorem Instr.not_writes_temp {c : Cast E} {b : ℕ} {p : List ℤ} (h : ∃ t, c.dst.place = .temp t) :
    ¬(Instr.cast c).Writes σ b p := by
  rintro ⟨b', hb', -⟩
  obtain ⟨t, ht⟩ := h
  rw [ht] at hb'
  cases hb'

omit [DecidableEq E] in
/-- Of the emitted statements only the last one that is about the destination writes a
buffer, and it writes the elements of the call. -/
theorem writes_iff {m : Mutator E} {dst : Region E} {casts : List (Cast E)} {srcs : List (NewArg E)}
    (hcasts : ∀ c ∈ casts, ∃ t, c.dst.place = .temp t) (horigin : AtOrigin σ dst) (b : ℕ)
    (p : List ℤ) :
    (∃ i ∈ casts.map .cast ++ .call srcs (.new (m.prepareDestinationRegion dst).1.region) ::
        (m.prepareDestinationRegion dst).1.castBack.map .cast, Instr.Writes σ i b p) ↔
      b = dst.buffer.id ∧ dst.elements σ p := by
  have hsame : ∀ p, (createRegion (.buffer dst.buffer) dst.ranges).elements σ p ↔
      dst.elements σ p := (standsFor_buffer_iff.mpr horigin).2
  have hreal : (∃ b', (createRegion (.buffer dst.buffer) dst.ranges).place = .buffer b' ∧ b'.id = b ∧
      (createRegion (.buffer dst.buffer) dst.ranges).elements σ p) ↔
        b = dst.buffer.id ∧ dst.elements σ p := by
    rw [← hsame]
    constructor
    · rintro ⟨b', hb', rfl, helem⟩
      cases hb'
      exact ⟨rfl, helem⟩
    · rintro ⟨rfl, helem⟩
      exact ⟨dst.buffer, rfl, rfl, helem⟩
  have hbefore : ¬∃ i ∈ casts.map Instr.cast, i.Writes σ b p := by
    rintro ⟨i, hi, hwrites⟩
    obtain ⟨c, hc, rfl⟩ := List.mem_map.mp hi
    exact Instr.not_writes_temp (hcasts c hc) hwrites
  simp only [List.mem_append, List.mem_cons, or_and_right, exists_or, hbefore, false_or,
    exists_eq_left]
  obtain ⟨-, ⟨hregion, hback⟩ | ⟨⟨t, ht⟩, src, hback⟩⟩ := m.prepareDestinationRegion_casts dst
  · rw [hregion, hback, ← hreal]
    simp [Instr.Writes]
  · rw [hback, ← hreal]
    simp [Instr.Writes, ht]

namespace Mutator

variable {m : Mutator E}

variable (m σ) in
/-- Where the call has a bf16 operand: its sources and its destination are addressed. -/
def CallAddressed : Call E → Prop
  | .binary _ (.region src0) src1 (.region dst) =>
    src0.buffer.isBF16 = true ∨ src1.bf16Region.isSome = true ∨ dst.buffer.isBF16 = true →
      m.SourceAddressed σ src0 dst.buffer.scope ∧
      (∀ r, src1.bf16Region = some r → m.SecondSourceAddressed σ r dst) ∧
      m.DestinationAddressed σ dst
  | .unary _ (.region src) (.region dst) =>
    src.buffer.isBF16 = true ∨ dst.buffer.isBF16 = true →
      m.SourceAddressed σ src dst.buffer.scope ∧ m.DestinationAddressed σ dst
  | _ => True

theorem destinationAddressed_prepareSourceRegion {src dst : Region E} {scope : String} :
    (m.prepareSourceRegion src scope).2.DestinationAddressed σ dst ↔
      m.DestinationAddressed σ dst := by
  rw [DestinationAddressed, DestinationAddressed, prepareSourceRegion_bf16Alias]

omit [DecidableEq E] [Zero E] [IndexExpr E] in
theorem bf16Region_eq_some {a : Arg E} {r : Region E} (h : a.bf16Region = some r) :
    a = .region r := by
  cases a with
  | region r' =>
    rw [Arg.bf16Region] at h
    split at h
    · rw [Option.some.inj h]
    · cases h
  | other e => cases h

theorem processUnaryOp_addresses_iff {op : UnaryOp} {src dst : Arg E} :
    Addresses σ (.unary op src dst) (m.processUnaryOp src dst).1 ↔
      m.CallAddressed σ (.unary op src dst) := by
  cases src with
  | other e => exact Iff.rfl
  | region src =>
    cases dst with
    | other e => exact Iff.rfl
    | region dst =>
      by_cases hbf16 : src.buffer.isBF16 = true ∨ dst.buffer.isBF16 = true
      · have hnot : ¬(!src.buffer.isBF16 && !dst.buffer.isBF16) = true := by
          simpa [or_iff_not_imp_left] using hbf16
        have houtcome : (m.processUnaryOp (.region src) (.region dst)).1 =
            .rewritten (m.prepareSourceRegion src dst.buffer.scope).1 none
              ((m.prepareSourceRegion src dst.buffer.scope).2.prepareDestinationRegion dst).1 := by
          rw [processUnaryOp, if_neg hnot]
        rw [houtcome, Addresses, CallAddressed, prepareSourceRegion_standsFor_iff,
          prepareDestinationRegion_standsFor_iff, destinationAddressed_prepareSourceRegion]
        constructor
        · rintro ⟨hsrc, hdst, -⟩ -
          exact ⟨hsrc, hdst⟩
        · intro hcond
          obtain ⟨hsrc, hdst⟩ := hcond hbf16
          refine ⟨hsrc, hdst, fun b p => ?_⟩
          have hcasts := (m.prepareSourceRegion_casts src dst.buffer.scope).2
          simpa only [Outcome.instrs, Option.map_none, Option.getD_none, List.map_nil,
            List.append_nil] using writes_iff hcasts hdst.1 b p
      · have hnot : (!src.buffer.isBF16 && !dst.buffer.isBF16) = true := by
          simpa using hbf16
        have houtcome : (m.processUnaryOp (.region src) (.region dst)).1 = .unchanged := by
          rw [processUnaryOp, if_pos hnot]
        rw [houtcome]
        exact iff_of_true trivial fun h => absurd h hbf16

theorem processBinaryOp_addresses_iff {op : BinaryOp} {src0 src1 dst : Arg E} :
    Addresses σ (.binary op src0 src1 dst) (m.processBinaryOp src0 src1 dst).1 ↔
      m.CallAddressed σ (.binary op src0 src1 dst) := by
  cases src0 with
  | other e => exact Iff.rfl
  | region src0 =>
    cases dst with
    | other e => exact Iff.rfl
    | region dst =>
      by_cases hbf16 : src0.buffer.isBF16 = true ∨ src1.bf16Region.isSome = true ∨
          dst.buffer.isBF16 = true
      · have hnot : ¬(!src0.buffer.isBF16 && src1.bf16Region.isNone && !dst.buffer.isBF16) = true := by
          rcases hbf16 with h | h | h
          · simp [h]
          · simp [Option.isSome_iff_ne_none.mp h]
          · simp [h]
        have hcasts := (m.prepareSourceRegion_casts src0 dst.buffer.scope).2
        cases hsrc1 : src1.bf16Region with
        | none =>
          have houtcome : (m.processBinaryOp (.region src0) src1 (.region dst)).1 =
              .rewritten (m.prepareSourceRegion src0 dst.buffer.scope).1 none
                ((m.prepareSourceRegion src0 dst.buffer.scope).2.prepareDestinationRegion dst).1 := by
            rw [processBinaryOp, if_neg hnot]
            simp only [hsrc1]
          rw [houtcome, Addresses, CallAddressed, prepareSourceRegion_standsFor_iff,
            prepareDestinationRegion_standsFor_iff, destinationAddressed_prepareSourceRegion]
          constructor
          · rintro ⟨h0, -, hdst, -⟩ -
            refine ⟨h0, fun r hr => ?_, hdst⟩
            rw [hsrc1] at hr
            cases hr
          · intro hcond
            obtain ⟨h0, -, hdst⟩ := hcond hbf16
            refine ⟨h0, fun p r hp => absurd hp (Option.some_ne_none p).symm, hdst, fun b p => ?_⟩
            simpa only [Outcome.instrs, Option.map_none, Option.getD_none, List.map_nil,
              List.append_nil] using writes_iff hcasts hdst.1 b p
        | some r =>
          have houtcome : (m.processBinaryOp (.region src0) src1 (.region dst)).1 =
              .rewritten (m.prepareSourceRegion src0 dst.buffer.scope).1
                (some (((m.prepareSourceRegion src0 dst.buffer.scope).2.prepareDestinationRegion
                  dst).2.prepareSourceRegion r dst.buffer.scope).1)
                ((m.prepareSourceRegion src0 dst.buffer.scope).2.prepareDestinationRegion dst).1 := by
            rw [processBinaryOp, if_neg hnot]
            simp only [hsrc1]
          have hcasts1 := (((m.prepareSourceRegion src0 dst.buffer.scope).2.prepareDestinationRegion
            dst).2.prepareSourceRegion_casts r dst.buffer.scope).2
          have harg := bf16Region_eq_some hsrc1
          rw [houtcome, Addresses, CallAddressed, prepareSourceRegion_standsFor_iff,
            prepareDestinationRegion_standsFor_iff, destinationAddressed_prepareSourceRegion]
          constructor
          · rintro ⟨h0, h1, hdst, -⟩ -
            refine ⟨h0, fun r' hr' => ?_, hdst⟩
            rw [hsrc1] at hr'
            obtain rfl := Option.some.inj hr'
            exact (sourceAddressed_second_iff h0).mp
              (prepareSourceRegion_standsFor_iff.mp (h1 _ r rfl harg))
          · intro hcond
            obtain ⟨h0, h1, hdst⟩ := hcond hbf16
            refine ⟨h0, fun p r' hp hr' => ?_, hdst, fun b p => ?_⟩
            · obtain rfl := Option.some.inj hp
              rw [harg] at hr'
              cases hr'
              exact prepareSourceRegion_standsFor_iff.mpr
                ((sourceAddressed_second_iff h0).mpr (h1 r hsrc1))
            · have hall : ∀ c ∈ (m.prepareSourceRegion src0 dst.buffer.scope).1.before ++
                  (((m.prepareSourceRegion src0 dst.buffer.scope).2.prepareDestinationRegion
                    dst).2.prepareSourceRegion r dst.buffer.scope).1.before,
                  ∃ t, c.dst.place = .temp t := by
                intro c hc
                rcases List.mem_append.mp hc with hc | hc
                · exact hcasts c hc
                · exact hcasts1 c hc
              simpa only [Outcome.instrs, Option.map_some, Option.getD_some, List.map_append]
                using writes_iff hall hdst.1 b p
      · have hnot : (!src0.buffer.isBF16 && src1.bf16Region.isNone && !dst.buffer.isBF16) = true := by
          simp only [not_or, Bool.not_eq_true] at hbf16
          simp [hbf16, ← Option.not_isSome]
        have houtcome : (m.processBinaryOp (.region src0) src1 (.region dst)).1 = .unchanged := by
          rw [processBinaryOp, if_pos hnot]
        rw [houtcome]
        exact iff_of_true trivial fun h => absurd h hbf16

end Mutator

/-- A bf16 buffer of 32 elements. -/
def wide (id : ℕ) : Buffer ℤ := ⟨id, .bfloat16, [32], "shared"⟩

/-- The second half of one buffer goes to the first half of another. -/
def upperHalf : Call ℤ :=
  .unary .exp (.region ⟨wide 0, [⟨16, 16⟩]⟩) (.region ⟨wide 1, [⟨0, 16⟩]⟩)

end TileLangNpuir.Bf16
