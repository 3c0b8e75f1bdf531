import TileLangNpuir.ApiMemref.Binary
import TileLangNpuir.DevTensor.CopyRegion

/-!
# When the views of a binary op line up

A point of the destination region and the point of its view have the same row-major number, since
the dimensions that are left out have size one. A source view read at that point gives the element
at the same coordinates when the source has left out the dimensions of the destination view
(`alongside`). It leaves out its own first ones instead, so what it gives is right exactly when
that comes to the same shape (`BinaryCall.aligns_iff`).
-/

namespace TileLangNpuir.ApiMemref

open RowMajor DevTensor

variable {V : Type}

/-! ## Points of views -/

section Points

variable {s d q : List ℤ} {n : ℕ}

/-- The source extents in the dimensions that are left of the destination. -/
def alongside (n : ℕ) (d s : List ℤ) : List ℤ :=
  (dropFirst (fun x => x.1 = 1) n (d.zip s)).map Prod.snd

theorem exists_triples (hs : s.length = d.length) (hq : q.length = d.length) :
    ∃ l : List (ℤ × ℤ × ℤ), l.map Prod.fst = d ∧ l.map (fun x => x.2.1) = s ∧
      l.map (fun x => x.2.2) = q := by
  have hzip : d.length = (s.zip q).length := by
    rw [List.length_zip]
    omega
  refine ⟨d.zip (s.zip q), List.map_fst_zip hzip.le, ?_, ?_⟩
  · change (d.zip (s.zip q)).map (Prod.fst ∘ Prod.snd) = s
    rw [← List.map_map, List.map_snd_zip hzip.ge, List.map_fst_zip (by omega)]
  · change (d.zip (s.zip q)).map (Prod.snd ∘ Prod.snd) = q
    rw [← List.map_map, List.map_snd_zip hzip.ge, List.map_snd_zip (by omega)]

theorem clamp_map (l : List (ℤ × ℤ × ℤ)) :
    clamp (l.map fun x => x.2.1) (l.map fun x => x.2.2) =
      l.map fun x => if x.2.1 = 1 then 0 else x.2.2 := by
  induction l with
  | nil => rfl
  | cons x l ih => rw [List.map_cons, List.map_cons, clamp, ih, List.map_cons]

/-- The point of the view that has the number of a point of the region, and the source read
there. -/
theorem exists_viewPoint (hbc : Broadcasts s d) (hq : InBox d q) (n : ℕ) :
    ∃ p, InBox (dropFirst (fun x => x = 1) n d) p ∧
      flatten (dropFirst (fun x => x = 1) n d) p = flatten d q ∧
      flatten (alongside n d s) (clamp (alongside n d s) p) = flatten s (clamp s q) := by
  obtain ⟨l, rfl, rfl, rfl⟩ := exists_triples hbc.1 (List.Forall₂.length_eq hq).symm
  have hs := hbc.forall₂
  rw [List.forall₂_map_left_iff, List.forall₂_map_right_iff, List.forall₂_same] at hs
  rw [inBox_map_iff] at hq
  have hzip : (l.map Prod.fst).zip (l.map fun x => x.2.1) = l.map fun x => (x.1, x.2.1) :=
    List.zip_map' ..
  have hview : dropFirst (fun x => x = 1) n (l.map Prod.fst) =
      (dropFirst (fun x => x.1 = 1) n l).map Prod.fst := dropFirst_map Prod.fst n l
  have halong : alongside n (l.map Prod.fst) (l.map fun x => x.2.1) =
      (dropFirst (fun x => x.1 = 1) n l).map fun x => x.2.1 := by
    rw [alongside, hzip, dropFirst_map, List.map_map]
    rfl
  refine ⟨(dropFirst (fun x => x.1 = 1) n l).map fun x => x.2.2, ?_, ?_, ?_⟩
  · rw [hview]
    exact inBox_map_dropFirst (inBox_map_iff.mpr hq) _ n
  · rw [hview]
    refine flatten_map_dropFirst (fun x hx hone => ?_) n
    have := hq x hx
    simp only [decide_eq_true_eq] at hone
    exact ⟨hone, by omega⟩
  · rw [halong, clamp_map, clamp_map]
    refine flatten_map_dropFirst (fun x hx hone => ?_) n
    have := hs x hx
    simp only [decide_eq_true_eq] at hone
    have h1 : x.2.1 = 1 := by omega
    exact ⟨h1, if_pos h1⟩

theorem exists_pairs (hs : s.length = d.length) :
    ∃ l : List (ℤ × ℤ), l.map Prod.fst = d ∧ l.map Prod.snd = s ∧ d.zip s = l :=
  ⟨d.zip s, List.map_fst_zip hs.ge, List.map_snd_zip hs.le, rfl⟩

theorem broadcasts_alongside (hbc : Broadcasts s d) (n : ℕ) :
    Broadcasts (alongside n d s) (dropFirst (fun x => x = 1) n d) := by
  obtain ⟨l, hd, hs, hl⟩ := exists_pairs hbc.1
  have hbc' := hbc.forall₂
  rw [← hd, ← hs, List.forall₂_map_left_iff, List.forall₂_map_right_iff, List.forall₂_same] at hbc'
  apply broadcasts_of_forall₂
  rw [alongside, hl, ← hd, dropFirst_map, List.forall₂_map_left_iff, List.forall₂_map_right_iff,
    List.forall₂_same]
  exact fun x hx => hbc' x ((dropFirst_sublist _ _ _).subset hx)

theorem pos_of_broadcasts (hbc : Broadcasts s d) (hpos : ∀ n ∈ d, 0 < n) : ∀ n ∈ s, 0 < n := by
  intro n hn
  have := pos_of_inBox (inBox_clamp hbc (inBox_origin hpos))
  exact this n hn

theorem flatten_clamp_origin (s d : List ℤ) : flatten s (clamp s (d.map fun _ => 0)) = 0 := by
  induction s generalizing d with
  | nil => rfl
  | cons n s ih =>
    cases d with
    | nil => rfl
    | cons m d => rw [List.map_cons, clamp, ite_self, flatten, zero_mul, zero_add, ih]

/-- Two shapes that broadcast to one are told apart by the numbers they give. -/
theorem exists_flatten_clamp_ne {v w : List ℤ} (hv : Broadcasts v d) (hw : Broadcasts w d)
    (hpos : ∀ n ∈ d, 0 < n) (hne : v ≠ w) :
    ∃ p, InBox d p ∧ flatten v (clamp v p) ≠ flatten w (clamp w p) := by
  replace hv := hv.forall₂
  replace hw := hw.forall₂
  induction hv generalizing w with
  | nil =>
    cases hw
    exact absurd rfl hne
  | @cons n m v d hn hv ih =>
    obtain ⟨n', w, hn', htail, rfl⟩ := List.forall₂_cons_right_iff.mp hw
    rw [List.forall_mem_cons] at hpos
    by_cases heq : n = n'
    · subst heq
      obtain ⟨p, hp, hdiff⟩ := ih hpos.2 (fun h => hne (h ▸ rfl)) htail
      refine ⟨0 :: p, .cons ⟨le_rfl, hpos.1⟩ hp, ?_⟩
      rw [clamp, clamp, ite_self, flatten, flatten, zero_mul, zero_mul, zero_add, zero_add]
      exact hdiff
    · -- one of the two is a one here, the other is not
      have hvpos : 0 < v.prod :=
        List.prod_pos (pos_of_broadcasts (broadcasts_of_forall₂ hv) hpos.2)
      have hwpos : 0 < w.prod :=
        List.prod_pos (pos_of_broadcasts (broadcasts_of_forall₂ htail) hpos.2)
      refine ⟨1 :: d.map fun _ => 0, .cons ⟨by omega, by omega⟩ (inBox_origin hpos.2), ?_⟩
      rw [clamp, clamp, flatten, flatten, flatten_clamp_origin, flatten_clamp_origin]
      by_cases hone : n = 1
      · rw [if_pos hone, if_neg fun h => heq (hone.trans h.symm)]
        omega
      · rw [if_neg hone, if_pos (by omega : n' = 1)]
        omega

/-- The source reduced by its own first ones has the shape that lines up exactly when the
dimensions are aligned. -/
theorem dropFirst_eq_alongside_iff (hbc : Broadcasts s d)
    (hcount : n ≤ d.countP fun x => x = 1) :
    dropFirst (fun x => x = 1) n s = alongside n d s ↔
      aligned (fun x => x.1 = 1) (fun x => x.2 = 1) n (d.zip s) = true := by
  obtain ⟨l, hd, hs, hl⟩ := exists_pairs hbc.1
  have hbc' := hbc.forall₂
  rw [← hd, ← hs, List.forall₂_map_left_iff, List.forall₂_map_right_iff, List.forall₂_same] at hbc'
  have hpq : ∀ x ∈ l, decide (x.1 = 1) = true → decide (x.2 = 1) = true := by
    intro x hx hone
    have := hbc' x hx
    simp only [decide_eq_true_eq] at hone ⊢
    omega
  rw [alongside, hl, ← hs, dropFirst_map]
  constructor
  · intro h
    refine aligned_of_forall₂ hpq ?_
    have hmap : List.Forall₂ Eq ((dropFirst (fun x => decide (x.2 = 1)) n l).map Prod.snd)
        ((dropFirst (fun x => decide (x.1 = 1)) n l).map Prod.snd) := h ▸ List.forall₂_same.mpr
          fun _ _ => rfl
    rw [List.forall₂_map_left_iff, List.forall₂_map_right_iff] at hmap
    exact hmap.imp fun x y hxy => by rw [hxy]
  · intro h
    rw [← hd, List.countP_map] at hcount
    have hlined := forall₂_of_aligned hpq hcount h
    refine List.forall₂_eq_eq_eq ▸ ?_
    rw [List.forall₂_map_left_iff, List.forall₂_map_right_iff]
    refine hlined.imp fun x y hxy => ?_
    rcases hxy with rfl | hones
    · rfl
    · simp only [decide_eq_true_eq] at hones
      rw [hones.1, hones.2]

/-- Aligned dimensions are the same in each place, or both are ones of the source. -/
theorem sameDims_of_aligned (hbc : Broadcasts s d) (hcount : n ≤ d.countP fun x => x = 1)
    (h : aligned (fun x => x.1 = 1) (fun x => x.2 = 1) n (d.zip s) = true) :
    BinaryCall.SameDims s (dropFirst (fun x => x.1 = 1) n s.zipIdx)
      (dropFirst (fun x => x.1 = 1) n d.zipIdx) := by
  obtain ⟨l, hd, hs, hl⟩ := exists_pairs hbc.1
  have hbc' := hbc.forall₂
  rw [← hd, ← hs, List.forall₂_map_left_iff, List.forall₂_map_right_iff, List.forall₂_same] at hbc'
  -- the dimensions of both, with their places
  have hdIdx : d.zipIdx = l.zipIdx.map fun x => (x.1.1, x.2) := by
    rw [← hd, List.zipIdx_map]
    rfl
  have hsIdx : s.zipIdx = l.zipIdx.map fun x => (x.1.2, x.2) := by
    rw [← hs, List.zipIdx_map]
    rfl
  have hmem : ∀ x ∈ l.zipIdx, x.1 ∈ l ∧ s[x.2]? = some x.1.2 := by
    intro x hx
    have hget := List.mem_zipIdx_iff_getElem?.mp hx
    refine ⟨List.mem_of_getElem? hget, ?_⟩
    rw [← hs, List.getElem?_map, hget]
    rfl
  rw [hl, ← List.zipIdx_map_fst 0 l, aligned_map] at h
  have hlined := forall₂_of_aligned (fun x hx hone => ?_) ?_ h
  · rw [BinaryCall.SameDims, hdIdx, hsIdx, dropFirst_map, dropFirst_map,
      List.forall₂_map_left_iff, List.forall₂_map_right_iff]
    have hright : ∀ y ∈ dropFirst (fun x => decide (x.1.1 = 1)) n l.zipIdx,
        s[y.2]? = some y.1.2 :=
      fun y hy => (hmem y ((dropFirst_sublist _ _ _).subset hy)).2
    refine (((List.forall₂_and_left _ _).mpr ⟨hright, hlined.flip⟩).flip).imp fun x y hxy => ?_
    rcases hxy with ⟨hy, rfl | ⟨hx1, hy1⟩⟩
    · exact .inl rfl
    · simp only [decide_eq_true_eq] at hx1 hy1
      exact .inr ⟨hx1, hy.trans (congrArg some hy1)⟩
  · have := hbc' x.1 (hmem x hx).1
    simp only [decide_eq_true_eq] at hone ⊢
    omega
  · rw [← hd, ← List.zipIdx_map_fst 0 l, List.countP_map, List.countP_map] at hcount
    exact hcount

end Points

/-! ## Operands -/

section Operands

variable {r : Region} {elem : List ℤ → V} {m : ℕ}

/-- The region is loaded as a scalar. -/
def Loads (enable : Bool) (r : Region) : Prop := enable = true ∧ AllOnes r.size

theorem rankReduced_viewShape {e : List ℤ} (hle : m ≤ e.length) (hback : (backbone e).length ≤ m) :
    rankReduced e (viewShape m e) = true := by
  by_cases hzero : m = 0 → e = []
  · rw [viewShape_eq hle hback hzero]
    exact rankReduced_dropFirst _ _
  · obtain ⟨rfl, hne⟩ := Classical.not_imp.mp hzero
    have hnil := List.length_eq_zero_iff.mp (Nat.le_zero.mp hback)
    rw [viewShape_zero hnil hne]
    exact (rankReduced_one_iff hnil).mpr hne

/-- The only element of a region that is loaded. -/
def loadedElem (r : Region) (elem : List ℤ → V) : V := elem (r.range.map Prod.fst)

/-- The view of a region. -/
def viewTensor (m : ℕ) (r : Region) (elem : List ℤ → V) : Tensor V :=
  ⟨viewShape m r.size, fun q =>
    r.read elem (unflatten r.size (flatten (viewShape m r.size) q))⟩

theorem loadedElem_eq (h : AllOnes r.size) (elem : List ℤ → V) {q : List ℤ}
    (hq : q.length = r.size.length) : loadedElem r elem = r.read elem (clamp r.size q) := by
  rw [Region.size, extents, List.length_map] at hq
  rw [Region.read, Region.size, toGlobal_clamp_ones h hq]
  rfl

theorem preProcessInput_of_loads {enable : Bool} (h : Loads enable r) :
    preProcessInput enable (.region (r.tensor elem) r.range) = some (loadedElem r elem) :=
  if_pos h

theorem preProcessInput_of_not_loads {enable : Bool} (h : ¬Loads enable r) :
    preProcessInput enable (.region (r.tensor elem) r.range) = none :=
  if_neg h

theorem processTensor_view (hin : Within r.shape r.range) (hle : m ≤ r.size.length)
    (hback : (backbone r.size).length ≤ m) :
    processTensor m none (.region (r.tensor elem) r.range) =
      some (.tensor (viewTensor m r elem), some (viewDims m r.size)) := by
  have hslice : extractSlice (r.tensor elem) r.range (viewShape m (extents r.range)) =
      some (viewTensor m r elem) := if_pos ⟨hin, rankReduced_viewShape hle hback⟩
  rw [processTensor, hslice]
  rfl

theorem backbone_eq_nil_iff {e : List ℤ} : backbone e = [] ↔ AllOnes e := by
  simp [backbone, AllOnes]

theorem length_backbone_le_of_broadcasts {s d : List ℤ} (h : Broadcasts s d) :
    (backbone s).length ≤ (backbone d).length := by
  replace h := h.forall₂
  induction h with
  | nil => exact le_rfl
  | @cons n m s d hn _ ih =>
    rw [backbone_cons, backbone_cons]
    by_cases h1 : n = 1
    · rw [if_pos h1]
      split
      · exact ih
      · exact ih.trans (Nat.le_succ _)
    · rw [if_neg h1, if_neg (by omega), List.length_cons, List.length_cons]
      omega

end Operands

namespace BinaryCall

variable {call : BinaryCall} {traits : Traits} {f : List V → V}
  {fullElem otherElem dstElem : List ℤ → V}

/-! ## Ranks -/

section Ranks

variable (hwf : call.WellFormed)

include hwf

theorem WellFormed.rank_full : call.full.size.length = call.dst.size.length := hwf.broadcasts.1

theorem WellFormed.rank_other : call.other.size.length ≤ call.dst.size.length :=
  (rankReduced_iff.mp hwf.reduced).1.length_le

theorem WellFormed.backbone_other : backbone call.dst.size = backbone call.other.size :=
  (rankReduced_iff.mp hwf.reduced).2

theorem WellFormed.backbone_dst_le :
    (backbone call.dst.size).length ≤ call.other.size.length := by
  rw [hwf.backbone_other]
  exact length_backbone_le _

theorem WellFormed.backbone_full_le :
    (backbone call.full.size).length ≤ call.other.size.length :=
  (length_backbone_le_of_broadcasts hwf.broadcasts).trans hwf.backbone_dst_le

theorem WellFormed.allOnes_other : AllOnes call.other.size ↔ AllOnes call.dst.size := by
  rw [← backbone_eq_nil_iff, ← backbone_eq_nil_iff, hwf.backbone_other]

theorem WellFormed.allOnes_full (h : AllOnes call.dst.size) : AllOnes call.full.size := by
  rw [← backbone_eq_nil_iff] at h ⊢
  have := length_backbone_le_of_broadcasts hwf.broadcasts
  rw [h] at this
  exact List.length_eq_zero_iff.mp (Nat.le_zero.mp this)

theorem WellFormed.lacks_le : call.lacks ≤ call.dst.size.countP fun x => x = 1 := by
  have hones := countP_ones call.dst.size
  have := hwf.backbone_dst_le
  rw [lacks]
  omega

end Ranks

/-! ## The generated op, by how the sources are taken -/

section Cases

variable (hwf : call.WellFormed)

include hwf

theorem codegen_vectors (hfull : ¬Loads (call.fullScalar traits) call.full)
    (hother : ¬Loads (call.otherScalar traits) call.other) :
    call.codegen traits f fullElem otherElem dstElem =
      call.emit f
        (.tensor (viewTensor call.other.size.length call.full fullElem),
          some (viewDims call.other.size.length call.full.size))
        (.tensor (viewTensor call.other.size.length call.other otherElem),
          some (viewDims call.other.size.length call.other.size))
        call.other.size.length dstElem := by
  have hrank : call.rankMin false false = call.other.size.length := by
    have := hwf.rank_full
    have := hwf.rank_other
    simp only [rankMin, Bool.false_eq_true, if_false]
    omega
  rw [codegen_eq]
  simp only [preProcessInput_of_not_loads hfull, preProcessInput_of_not_loads hother,
    Option.isSome_none, hrank]
  rw [processTensor_view hwf.full (hwf.rank_full ▸ hwf.rank_other) hwf.backbone_full_le,
    processTensor_view hwf.other le_rfl (length_backbone_le _)]
  rfl

theorem codegen_fullLoaded (hfull : Loads (call.fullScalar traits) call.full)
    (hother : ¬Loads (call.otherScalar traits) call.other) :
    call.codegen traits f fullElem otherElem dstElem =
      call.emit f (.scalar (loadedElem call.full fullElem), none)
        (.tensor (viewTensor call.other.size.length call.other otherElem),
          some (viewDims call.other.size.length call.other.size))
        call.other.size.length dstElem := by
  have hrank : call.rankMin true false = call.other.size.length := by
    have := hwf.rank_other
    simp only [rankMin, Bool.false_eq_true, if_false, if_true]
    omega
  rw [codegen_eq]
  simp only [preProcessInput_of_loads hfull, preProcessInput_of_not_loads hother,
    Option.isSome_none, Option.isSome_some, hrank]
  rw [processTensor_view hwf.other le_rfl (length_backbone_le _)]
  rfl

theorem codegen_otherLoaded (hfull : ¬Loads (call.fullScalar traits) call.full)
    (hother : Loads (call.otherScalar traits) call.other) :
    call.codegen traits f fullElem otherElem dstElem =
      call.emit f
        (.tensor (viewTensor call.dst.size.length call.full fullElem),
          some (viewDims call.dst.size.length call.full.size))
        (.scalar (loadedElem call.other otherElem), none) call.dst.size.length dstElem := by
  have hrank : call.rankMin false true = call.dst.size.length := by
    have := hwf.rank_full
    simp only [rankMin, Bool.false_eq_true, if_false, if_true]
    omega
  rw [codegen_eq]
  simp only [preProcessInput_of_not_loads hfull, preProcessInput_of_loads hother,
    Option.isSome_none, Option.isSome_some, hrank]
  rw [processTensor_view hwf.full hwf.rank_full.ge (hwf.rank_full ▸ length_backbone_le _)]
  rfl

omit hwf in
theorem codegen_bothLoaded (hfull : Loads (call.fullScalar traits) call.full)
    (hother : Loads (call.otherScalar traits) call.other) :
    call.codegen traits f fullElem otherElem dstElem = none := by
  rw [codegen_eq]
  simp only [preProcessInput_of_loads hfull, preProcessInput_of_loads hother]
  rw [Option.eq_none_iff_forall_ne_some]
  intro e he
  exact (of_emit he).1 ⟨rfl, rfl⟩

end Cases

/-! ## Views that line up -/

section Sufficient

/-- Operands that fit, are of one rank, and are read at the right points. -/
theorem given_of_emit {full other : Operand V × Option (List Dim)} {m : ℕ} (dims : List ℕ)
    (hviews : ¬(full.2 = none ∧ other.2 = none))
    (hdims : getBroadcastDim (shapeOf full.2) (shapeOf other.2) = some dims)
    (hfull : full.1.Fits dims (viewShape m call.dst.size))
    (hother : other.1.Fits dims (viewShape m call.dst.size))
    (hdst : Within call.dst.shape call.dst.range)
    (hred : rankReduced call.dst.size (viewShape m call.dst.size) = true)
    (hrank : ∀ v ∈ full.2, v.length = (viewDims m call.dst.size).length)
    (hrank' : ∀ v ∈ other.2, v.length = (viewDims m call.dst.size).length)
    (hsame : ∀ v ∈ full.2, SameDims call.full.size v (viewDims m call.dst.size))
    (hat : ∀ q p, InBox call.dst.size q →
      p = unflatten (viewShape m call.dst.size) (flatten call.dst.size q) →
        full.1.at p = call.full.read fullElem (clamp call.full.size q) ∧
        other.1.at p =
          call.other.read otherElem (unflatten call.other.size (flatten call.dst.size q))) :
    Given call f fullElem otherElem dstElem (call.emit f full other m dstElem) := by
  obtain ⟨e, he, hview, hboth, hfullView, hres, hin, hout⟩ :=
    emit_spec f dstElem full other hviews hdims hfull hother hdst hred
  refine ⟨e, he, fun view hmem v hv => ?_, ?_, hres, fun q hq => ?_, fun p _ => hout p⟩
  · rw [hview]
    rcases hboth view hmem with rfl | rfl
    · exact hrank v hv
    · exact hrank' v hv
  · rw [hfullView, hview]
    exact hsame
  · obtain ⟨hF, hO⟩ := hat q _ hq rfl
    rw [hin q hq, value, hF, hO]

theorem viewDims_self (e : List ℤ) : viewDims e.length e = e.zipIdx := if_pos rfl

theorem viewShape_self (e : List ℤ) : viewShape e.length e = e := by
  rw [viewShape, viewDims_self, List.zipIdx_map_fst]

/-- A view with all dimensions is the region. -/
theorem viewTensor_at {r : Region} {m : ℕ} (hshape : viewShape m r.size = r.size)
    (elem : List ℤ → V) {d q : List ℤ} (hbc : Broadcasts r.size d) (hq : InBox d q) :
    (Operand.tensor (viewTensor m r elem)).at q = r.read elem (clamp r.size q) := by
  change r.read elem (unflatten r.size (flatten (viewShape m r.size)
    (clamp (viewShape m r.size) q))) = _
  rw [hshape, unflatten_flatten (inBox_clamp hbc hq)]

variable (hwf : call.WellFormed)

include hwf

theorem WellFormed.flatten_lt {q : List ℤ} (hq : InBox call.dst.size q) :
    InBox call.other.size (unflatten call.other.size (flatten call.dst.size q)) := by
  obtain ⟨h0, hlt⟩ := flatten_bounds hq
  rw [← prod_of_rankReduced hwf.reduced] at hlt
  exact inBox_unflatten hwf.other.extents_pos h0 hlt

/-- The other source is loaded: there is one element. -/
theorem aligns_otherLoaded (hfull : ¬Loads (call.fullScalar traits) call.full)
    (hother : Loads (call.otherScalar traits) call.other) : call.Aligns traits f := by
  intro fullElem otherElem dstElem
  have hones := hwf.allOnes_other.mp hother.2
  have hsize : call.full.size = call.dst.size := by
    have hones' := hwf.allOnes_full hones
    rw [List.eq_replicate_of_mem hones, List.eq_replicate_of_mem hones', hwf.rank_full]
  rw [codegen_otherLoaded hwf hfull hother]
  refine given_of_emit [] (by simp) (getBroadcastDim_nil _) ?_ trivial hwf.dst ?_ ?_ (by simp) ?_ ?_
  · change FitsShape [] (viewShape _ call.full.size) (viewShape _ call.dst.size)
    rw [hsize]
    exact fitsShape_nil.mpr rfl
  · rw [viewShape_self]
    exact rankReduced_self _
  · intro v hv
    obtain rfl := Option.some.inj hv
    rw [hsize]
  · intro v hv
    obtain rfl := Option.some.inj hv
    rw [hsize]
    exact List.forall₂_same.mpr fun d _ => .inl rfl
  · rintro q p hq rfl
    rw [viewShape_self, unflatten_flatten hq]
    constructor
    · exact viewTensor_at (by rw [hsize, viewShape_self]) fullElem hwf.broadcasts hq
    · have hbox := hwf.flatten_lt hq
      have hlen := (List.Forall₂.length_eq hbox).symm
      exact (loadedElem_eq hother.2 otherElem hlen).trans (by rw [clamp_of_inBox hbox])

/-- The other source is a vector. -/
theorem aligns_otherView (hother : ¬Loads (call.otherScalar traits) call.other)
    (hsize : call.other.size = dropFirst (fun n => n = 1) call.lacks call.dst.size)
    (hnil : call.other.size = [] → call.dst.size = [])
    (halign : aligned (fun d => d.1 = 1) (fun d => d.2 = 1) call.lacks
      (call.dst.size.zip call.full.size) = true) : call.Aligns traits f := by
  intro fullElem otherElem dstElem
  have hzero : call.other.size.length = 0 → call.dst.size = [] :=
    fun h => hnil (List.length_eq_zero_iff.mp h)
  have hdst : viewShape call.other.size.length call.dst.size = call.other.size :=
    (viewShape_eq hwf.rank_other hwf.backbone_dst_le hzero).trans hsize.symm
  have hlen : ∀ m e, (viewDims m e).length = (viewShape m e).length := fun m e => by
    rw [viewShape, List.length_map]
  have hred : rankReduced call.dst.size (viewShape call.other.size.length call.dst.size) = true :=
    rankReduced_viewShape hwf.rank_other hwf.backbone_dst_le
  have hrank' : ∀ v ∈ some (viewDims call.other.size.length call.other.size),
      v.length = (viewDims call.other.size.length call.dst.size).length := by
    intro v hv
    obtain rfl := Option.some.inj hv
    rw [hlen, hlen, viewShape_self, hdst]
  have hatO : ∀ q p, InBox call.dst.size q →
      p = unflatten (viewShape call.other.size.length call.dst.size) (flatten call.dst.size q) →
        (Operand.tensor (viewTensor call.other.size.length call.other otherElem)).at p =
          call.other.read otherElem (unflatten call.other.size (flatten call.dst.size q)) := by
    rintro q p hq rfl
    have hbox := hwf.flatten_lt hq
    rw [hdst, viewTensor_at (viewShape_self _) otherElem (Broadcasts.refl _) hbox,
      clamp_of_inBox hbox]
  by_cases hfull : Loads (call.fullScalar traits) call.full
  · rw [codegen_fullLoaded hwf hfull hother]
    refine given_of_emit [] (by simp) (if_pos (.inl rfl)) trivial ?_ hwf.dst hred (by simp) hrank'
      (by simp) fun q p hq hp => ⟨?_, hatO q p hq hp⟩
    · change FitsShape [] (viewShape _ call.other.size) (viewShape _ call.dst.size)
      rw [viewShape_self, hdst]
      exact fitsShape_nil.mpr rfl
    · refine loadedElem_eq hfull.2 fullElem ?_
      rw [hwf.rank_full]
      exact (List.Forall₂.length_eq hq).symm
  · have hlacks : call.full.size.length - call.other.size.length = call.lacks := by
      rw [hwf.rank_full, lacks]
    have hzero' : call.other.size.length = 0 → call.full.size = [] := fun h => by
      rw [← List.length_eq_zero_iff, hwf.rank_full, hzero h, List.length_nil]
    have hview := viewDims_eq (hwf.rank_full ▸ hwf.rank_other) hwf.backbone_full_le hzero'
    have hview' := viewDims_eq hwf.rank_other hwf.backbone_dst_le hzero
    have hshape : viewShape call.other.size.length call.full.size =
        alongside call.lacks call.dst.size call.full.size := by
      rw [viewShape_eq (hwf.rank_full ▸ hwf.rank_other) hwf.backbone_full_le hzero', hlacks]
      exact (dropFirst_eq_alongside_iff hwf.broadcasts hwf.lacks_le).mpr halign
    have hbc : Broadcasts (viewShape call.other.size.length call.full.size) call.other.size := by
      rw [hshape, hsize]
      exact broadcasts_alongside hwf.broadcasts _
    obtain ⟨dims, hdims, hfits⟩ := RegionCall.fitsShape_getBroadcastDim hbc
    rw [codegen_vectors hwf hfull hother]
    refine given_of_emit dims (by simp) ?_ ?_ ?_ hwf.dst hred ?_ hrank' ?_
      fun q p hq hp => ⟨?_, hatO q p hq hp⟩
    · change getBroadcastDim (viewShape _ call.full.size) (viewShape _ call.other.size) = _
      rw [viewShape_self, hdims]
    · change FitsShape dims (viewShape _ call.full.size) (viewShape _ call.dst.size)
      rwa [hdst]
    · change FitsShape dims (viewShape _ call.other.size) (viewShape _ call.dst.size)
      rw [viewShape_self, hdst]
      exact ⟨rfl, fun _ _ => .inl rfl⟩
    · intro v hv
      obtain rfl := Option.some.inj hv
      rw [hlen, hlen, hdst]
      exact hbc.1
    · intro v hv
      obtain rfl := Option.some.inj hv
      rw [hview, hview', hlacks]
      exact sameDims_of_aligned hwf.broadcasts hwf.lacks_le halign
    · -- the point of the view and the point of the region have the same number
      obtain ⟨p', hbox, hnum, hread⟩ := exists_viewPoint hwf.broadcasts hq call.lacks
      rw [← hsize] at hbox hnum
      obtain rfl : p = p' := by rw [hp, hdst, ← hnum, unflatten_flatten hbox]
      change call.full.read fullElem (unflatten call.full.size (flatten (viewShape _ _)
        (clamp (viewShape _ _) p))) = _
      rw [hshape, hread, unflatten_flatten (inBox_clamp hwf.broadcasts hq)]

end Sufficient

/-! ## Views that do not -/

section Necessary

theorem eq_of_prod {s d : List ℤ} (h : Broadcasts s d) (hpos : ∀ n ∈ d, 0 < n)
    (hprod : s.prod = d.prod) : s = d := by
  have hin : Within d (s.map (0, ·)) := by
    rw [Within, List.forall₂_map_right_iff]
    have hboth : List.Forall₂ (fun m n => 0 < m ∧ (n = m ∨ n = 1)) d s :=
      (List.forall₂_and_left _ _).mpr ⟨hpos, h.forall₂.flip⟩
    exact hboth.imp fun m n hmn => ⟨le_rfl, by omega, by omega⟩
  have hext : extents (s.map (0, ·)) = s := extents_zero s
  rw [← hext] at hprod
  exact hext.symm.trans (hin.eq_extents_of_prod hprod.symm).symm

variable (hwf : call.WellFormed)

include hwf

/-- The shape of the other source is that of the view of the destination. -/
theorem other_size_of_fits {dims : List ℕ}
    (hfits : FitsShape dims call.other.size (viewShape call.other.size.length call.dst.size)) :
    call.other.size = dropFirst (fun n => n = 1) call.lacks call.dst.size ∧
      (call.other.size = [] → call.dst.size = []) := by
  have hred := rankReduced_viewShape hwf.rank_other hwf.backbone_dst_le
  have heq : call.other.size = viewShape call.other.size.length call.dst.size := by
    refine eq_of_prod hfits.broadcasts (pos_of_rankReduced hred hwf.dst.extents_pos) ?_
    rw [prod_of_rankReduced hred, prod_of_rankReduced hwf.reduced]
  have hnil : call.other.size = [] → call.dst.size = [] := by
    intro hnil
    by_contra hne
    have hback := hwf.backbone_dst_le
    rw [hnil] at hback heq
    rw [List.length_nil, viewShape_zero (List.length_eq_zero_iff.mp (Nat.le_zero.mp hback)) hne]
      at heq
    cases heq
  refine ⟨heq.trans (viewShape_eq hwf.rank_other hwf.backbone_dst_le fun h => ?_), hnil⟩
  exact hnil (List.length_eq_zero_iff.mp h)

/-- Vectors that are read at other points than they should be. -/
theorem aligned_of_aligns (hf : ∃ a b y, f (call.order a y) ≠ f (call.order b y))
    (hfull : ¬Loads (call.fullScalar traits) call.full)
    (hother : ¬Loads (call.otherScalar traits) call.other)
    (hsize : call.other.size = dropFirst (fun n => n = 1) call.lacks call.dst.size)
    (hnil : call.other.size = [] → call.dst.size = []) (h : call.Aligns traits f) :
    aligned (fun d => d.1 = 1) (fun d => d.2 = 1) call.lacks
      (call.dst.size.zip call.full.size) = true := by
  obtain ⟨a, b, y, hab⟩ := hf
  have hzero : call.other.size.length = 0 → call.dst.size = [] :=
    fun h => hnil (List.length_eq_zero_iff.mp h)
  have hzero' : call.other.size.length = 0 → call.full.size = [] := fun h => by
    rw [← List.length_eq_zero_iff, hwf.rank_full, hzero h, List.length_nil]
  have hdst : viewShape call.other.size.length call.dst.size = call.other.size :=
    (viewShape_eq hwf.rank_other hwf.backbone_dst_le hzero).trans hsize.symm
  have hview := viewShape_eq (hwf.rank_full ▸ hwf.rank_other) hwf.backbone_full_le hzero'
  have hred := rankReduced_viewShape (hwf.rank_full ▸ hwf.rank_other) hwf.backbone_full_le
  rw [← dropFirst_eq_alongside_iff hwf.broadcasts hwf.lacks_le]
  rw [hwf.rank_full] at hview
  change viewShape _ _ = dropFirst _ call.lacks _ at hview
  rw [← hview]
  by_contra hne
  -- the shapes of the view at hand and of the right one fit the same output
  obtain ⟨e, he, -⟩ := h (fun _ => y) (fun _ => y) fun _ => y
  rw [codegen_vectors hwf hfull hother] at he
  obtain ⟨hviews, dims, hdims, hfits, hfits'⟩ := of_emit he
  have hbc : Broadcasts (viewShape call.other.size.length call.full.size)
      (viewShape call.other.size.length call.dst.size) := FitsShape.broadcasts hfits
  rw [hdst] at hbc
  have hbc' : Broadcasts (alongside call.lacks call.dst.size call.full.size) call.other.size :=
    hsize ▸ broadcasts_alongside hwf.broadcasts _
  obtain ⟨p, hp, hdiff⟩ := exists_flatten_clamp_ne hbc hbc' hwf.other.extents_pos hne
  -- the point of the region with the number of the point that tells them apart
  obtain ⟨h0, hlt⟩ := flatten_bounds hp
  rw [prod_of_rankReduced hwf.reduced] at hlt
  obtain ⟨q, hq, hnum⟩ : ∃ q, InBox call.dst.size q ∧
      flatten call.dst.size q = flatten call.other.size p :=
    ⟨_, inBox_unflatten hwf.dst.extents_pos h0 hlt,
      flatten_unflatten_of_lt hwf.dst.extents_pos h0 hlt⟩
  obtain ⟨p', hbox, hnum', hread⟩ := exists_viewPoint hwf.broadcasts hq call.lacks
  rw [← hsize] at hbox hnum'
  obtain rfl : p' = p := by
    rw [← unflatten_flatten hbox, hnum', hnum, unflatten_flatten hp]
  rw [hread] at hdiff
  have hbound := flatten_bounds (inBox_clamp hbc hp)
  rw [prod_of_rankReduced hred] at hbound
  have hpos : ∀ n ∈ call.full.size, 0 < n := hwf.full.extents_pos
  have hbox' := inBox_clamp hwf.broadcasts hq
  have hpoint : toGlobal call.full.range (unflatten call.full.size
      (flatten (viewShape call.other.size.length call.full.size)
        (clamp (viewShape call.other.size.length call.full.size) p'))) ≠
      toGlobal call.full.range (clamp call.full.size q) := by
    intro heq
    have hlocal := Region.eq_of_toGlobal_eq (inBox_unflatten hpos hbound.1 hbound.2) hbox' heq
    apply hdiff
    rw [← hlocal, flatten_unflatten_of_lt hpos hbound.1 hbound.2]
  -- the source holds `a` at the right point and `b` elsewhere
  let fullElem : List ℤ → V :=
    fun z => if z = toGlobal call.full.range (clamp call.full.size q) then a else b
  obtain ⟨e', he', -, -, hrep⟩ := h fullElem (fun _ => y) fun _ => y
  rw [codegen_vectors hwf hfull hother] at he'
  obtain ⟨e'', he'', -, -, -, -, hin, -⟩ := emit_spec f (fun _ => y)
    (.tensor (viewTensor call.other.size.length call.full fullElem),
      some (viewDims call.other.size.length call.full.size))
    (.tensor (viewTensor call.other.size.length call.other fun _ => y),
      some (viewDims call.other.size.length call.other.size))
    (by simp) hdims hfits hfits' hwf.dst
    (rankReduced_viewShape hwf.rank_other hwf.backbone_dst_le)
  obtain rfl := Option.some.inj (he'.symm.trans he'')
  have hval := (hrep.inside q hq).symm.trans (hin q hq)
  rw [hdst, ← hnum', unflatten_flatten hbox] at hval
  apply hab
  have hright : call.value f fullElem (fun _ => y) q = f (call.order a y) := by
    rw [value, Region.read, Region.read]
    simp only [fullElem, if_true]
  rw [← hright, hval]
  exact congrArg (fun v => f (call.order v y)) (if_neg hpoint)

end Necessary

/-- A binary op applies the op at the same coordinates of its operands, through views that line up,
exactly when the other source lacks the first ones of the destination, from the first dimension in
which the one source broadcasts up to the last of these the source has only ones, and there is an
operand that is not loaded as a scalar. -/
theorem aligns_iff (hf : (∃ a b y, f [a, y] ≠ f [b, y]) ∧ ∃ a b y, f [y, a] ≠ f [y, b])
    (hwf : call.WellFormed) : call.Aligns traits f ↔ call.LinedUp traits := by
  have hforder : ∃ a b y, f (call.order a y) ≠ f (call.order b y) := by
    cases horder : call.fullFirst with
    | true => simpa only [order, horder, if_true] using hf.1
    | false => simpa only [order, horder, Bool.false_eq_true, if_false] using hf.2
  constructor
  · intro h
    obtain ⟨x, -⟩ := hf.1
    have hnot : ¬(call.fullScalar traits = true ∧ call.otherScalar traits = true ∧
        AllOnes call.dst.size) := by
      rintro ⟨hfull, hother, hones⟩
      obtain ⟨e, he, -⟩ := h (fun _ => x) (fun _ => x) fun _ => x
      rw [codegen_bothLoaded ⟨hfull, hwf.allOnes_full hones⟩
        ⟨hother, hwf.allOnes_other.mpr hones⟩] at he
      cases he
    refine ⟨hnot, ?_⟩
    by_cases hother : Loads (call.otherScalar traits) call.other
    · exact .inl ⟨hother.1, hwf.allOnes_other.mp hother.2⟩
    · right
      obtain ⟨e, he, -⟩ := h (fun _ => x) (fun _ => x) fun _ => x
      by_cases hfull : Loads (call.fullScalar traits) call.full
      · rw [codegen_fullLoaded hwf hfull hother] at he
        obtain ⟨-, dims, -, -, hfits⟩ := of_emit he
        change FitsShape dims (viewShape _ call.other.size) _ at hfits
        rw [viewShape_self] at hfits
        obtain ⟨hsize, hnil⟩ := other_size_of_fits hwf hfits
        refine ⟨hsize, hnil, aligned_of_forall (fun d hd => ?_) _⟩
        exact decide_eq_true (hfull.2 d.2 (List.of_mem_zip hd).2)
      · rw [codegen_vectors hwf hfull hother] at he
        obtain ⟨-, dims, -, -, hfits⟩ := of_emit he
        change FitsShape dims (viewShape _ call.other.size) _ at hfits
        rw [viewShape_self] at hfits
        obtain ⟨hsize, hnil⟩ := other_size_of_fits hwf hfits
        exact ⟨hsize, hnil, aligned_of_aligns hwf hforder hfull hother hsize hnil h⟩
  · rintro ⟨hnot, hcase⟩
    by_cases hother : Loads (call.otherScalar traits) call.other
    · have hones := hwf.allOnes_other.mp hother.2
      exact aligns_otherLoaded hwf (fun hfull => hnot ⟨hfull.1, hother.1, hones⟩) hother
    · rcases hcase with ⟨hscalar, hones⟩ | ⟨hsize, hnil, halign⟩
      · exact absurd ⟨hscalar, hwf.allOnes_other.mpr hones⟩ hother
      · exact aligns_otherView hwf hother hsize hnil halign

/-- A row added to each row of a slice of a larger tensor. -/
theorem aligns_row :
    (BinaryCall.mk true ⟨[2, 1, 8], [(1, 1), (0, 1), (0, 8)]⟩ ⟨[4, 8], [(0, 4), (0, 8)]⟩
      ⟨[3, 4, 8], [(2, 1), (0, 4), (0, 8)]⟩).Aligns ⟨true, false⟩
      (fun vs : List ℤ => vs.sum) := by
  refine (aligns_iff ⟨⟨0, 1, 0, by decide⟩, ⟨0, 1, 0, by decide⟩⟩ ?_).mpr ?_
  · exact ⟨by decide, by decide, by decide, by decide, by decide⟩
  · exact ⟨by decide, .inr ⟨by decide, by decide, by decide⟩⟩

/-- A row is added along the other dimension, where both have the same extent: element `[0, 1, 0]`
gets the first element of the row and not the second. -/
theorem aligns_transposed :
    ¬(BinaryCall.mk true ⟨[1, 2, 1], [(0, 1), (0, 2), (0, 1)]⟩ ⟨[2, 2], [(0, 2), (0, 2)]⟩
      ⟨[2, 2, 1], [(0, 2), (0, 2), (0, 1)]⟩).Aligns ⟨true, false⟩
      (fun vs : List ℤ => vs.sum) := by
  intro h
  obtain ⟨e, he, -, -, hrep⟩ := h List.sum (fun _ => 0) fun _ => 0
  have hval : ((BinaryCall.mk true ⟨[1, 2, 1], [(0, 1), (0, 2), (0, 1)]⟩
      ⟨[2, 2], [(0, 2), (0, 2)]⟩ ⟨[2, 2, 1], [(0, 2), (0, 2), (0, 1)]⟩).codegen ⟨true, false⟩
      (fun vs : List ℤ => vs.sum) List.sum (fun _ => 0) fun _ => 0).map
        (fun e => e.result.elem [0, 1, 0]) = some 0 := by
    decide
  rw [he] at hval
  have hone := hrep.inside [0, 1, 0] (by decide)
  exact absurd (hone.symm.trans (Option.some.inj hval)) (by decide)

end BinaryCall

end TileLangNpuir.ApiMemref
