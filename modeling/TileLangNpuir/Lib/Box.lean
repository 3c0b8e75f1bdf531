import TileLangNpuir.Lib.RowMajor

/-!
# Boxes with an origin

The points of a box that is given by a low end and an extent in each dimension.
-/

namespace TileLangNpuir.RowMajor

/-- The point lies in the ranges, each a low end and an extent. -/
def InRanges (ranges : List (ℤ × ℤ)) (p : List ℤ) : Prop :=
  List.Forall₂ (fun r x => r.1 ≤ x ∧ x < r.1 + r.2) ranges p

/-- The same extents at the origin. -/
def toOrigin (ranges : List (ℤ × ℤ)) : List (ℤ × ℤ) := ranges.map fun r => (0, r.2)

theorem inRanges_lows {ranges : List (ℤ × ℤ)} (hpos : ∀ r ∈ ranges, 0 < r.2) :
    InRanges ranges (ranges.map Prod.fst) := by
  rw [InRanges, List.forall₂_map_right_iff, List.forall₂_same]
  intro r hr
  have := hpos r hr
  omega

theorem inRanges_toOrigin_iff {ranges : List (ℤ × ℤ)} {p : List ℤ} :
    InRanges (toOrigin ranges) p ↔ List.Forall₂ (fun r x => 0 ≤ x ∧ x < r.2) ranges p := by
  simp only [InRanges, toOrigin, List.forall₂_map_left_iff, zero_add]

theorem not_inRanges_of_nonpos {ranges : List (ℤ × ℤ)} {p : List ℤ} {r : ℤ × ℤ}
    (hr : r ∈ ranges) (hneg : r.2 ≤ 0) : ¬InRanges ranges p := by
  intro h
  induction h with
  | nil => cases hr
  | cons hx _ ih =>
    rcases List.mem_cons.mp hr with rfl | hr
    · omega
    · exact ih hr

/-- A box keeps its points at the origin exactly when it is there, or has none. -/
theorem toOrigin_same_iff {ranges : List (ℤ × ℤ)} :
    (∀ p, InRanges (toOrigin ranges) p ↔ InRanges ranges p) ↔
      (∀ r ∈ ranges, r.1 = 0) ∨ ∃ r ∈ ranges, r.2 ≤ 0 := by
  constructor
  · intro hsame
    by_contra! hnot
    obtain ⟨hmoved, hpos⟩ := hnot
    -- the low corner of one box lies in the other, both ways
    have hlow : List.Forall₂ (fun r x => 0 ≤ x ∧ x < r.2) ranges (ranges.map Prod.fst) :=
      inRanges_toOrigin_iff.mp ((hsame _).mpr (inRanges_lows hpos))
    have hzero : InRanges ranges (ranges.map fun _ => 0) := by
      apply (hsame _).mp
      rw [inRanges_toOrigin_iff, List.forall₂_map_right_iff, List.forall₂_same]
      exact fun r hr => ⟨le_rfl, hpos r hr⟩
    rw [List.forall₂_map_right_iff, List.forall₂_same] at hlow
    rw [InRanges, List.forall₂_map_right_iff, List.forall₂_same] at hzero
    obtain ⟨r, hr, hne⟩ := hmoved
    have h₁ := (hlow r hr).1
    have h₂ := (hzero r hr).1
    omega
  · rintro (hzero | ⟨r, hr, hneg⟩) p
    · have hself : toOrigin ranges = ranges := by
        rw [toOrigin, ← List.map_id ranges, List.map_map]
        exact List.map_congr_left fun r hr => Prod.ext (hzero r hr).symm rfl
      rw [hself]
    · have hmem : ((0 : ℤ), r.2) ∈ toOrigin ranges := List.mem_map_of_mem hr
      exact iff_of_false (not_inRanges_of_nonpos hmem hneg) (not_inRanges_of_nonpos hr hneg)

/-- Extents at the origin lie in a box of sizes exactly when they are no larger, or
there is nothing in them. -/
theorem toOrigin_inBox_iff {ranges : List (ℤ × ℤ)} {sizes : List ℤ} :
    (∀ p, InRanges (toOrigin ranges) p → InBox sizes p) ↔
      (∃ r ∈ ranges, r.2 ≤ 0) ∨ List.Forall₂ (fun r n => r.2 ≤ n) ranges sizes := by
  constructor
  · intro hsub
    by_contra! hnot
    obtain ⟨hpos, hlarge⟩ := hnot
    apply hlarge
    have hcorner : InBox sizes (ranges.map fun r => r.2 - 1) := by
      apply hsub
      rw [inRanges_toOrigin_iff, List.forall₂_map_right_iff, List.forall₂_same]
      intro r hr
      have := hpos r hr
      omega
    rw [InBox, List.forall₂_map_right_iff] at hcorner
    exact hcorner.flip.imp fun r n h => by omega
  · rintro (⟨r, hr, hneg⟩ | hle) p hp
    · have hmem : ((0 : ℤ), r.2) ∈ toOrigin ranges := List.mem_map_of_mem hr
      exact absurd hp (not_inRanges_of_nonpos hmem hneg)
    · rw [inRanges_toOrigin_iff] at hp
      induction hle generalizing p with
      | nil =>
        cases hp
        exact .nil
      | cons hrn _ ih =>
        obtain ⟨x, xs, hx, hxs, rfl⟩ := List.forall₂_cons_left_iff.mp hp
        exact .cons ⟨hx.1, by omega⟩ (ih xs hxs)

/-- A box that is not empty lies in a box with the same low ends only when its extents are no
larger. -/
theorem le_of_zip_inRanges {lows e c : List ℤ} (hpos : ∀ n ∈ e, 0 < n) (he : lows.length = e.length)
    (hc : lows.length = c.length)
    (hsub : ∀ p, InRanges (lows.zip e) p → InRanges (lows.zip c) p) :
    List.Forall₂ (fun n m => n ≤ m) e c := by
  -- the last point of the smaller box
  have hcorner : InRanges (lows.zip e) (List.zipWith (fun l n => l + n - 1) lows e) := by
    clear hsub
    induction lows generalizing e c with
    | nil =>
      obtain rfl := List.length_eq_zero_iff.mp he.symm
      exact .nil
    | cons l lows ih =>
      obtain ⟨n, e, rfl⟩ := List.exists_cons_of_length_eq_add_one he.symm
      obtain ⟨m, c, rfl⟩ := List.exists_cons_of_length_eq_add_one hc.symm
      have hn := hpos n List.mem_cons_self
      refine .cons ⟨by dsimp only; omega, by dsimp only; omega⟩ ?_
      exact ih (fun n hn => hpos n (List.mem_cons_of_mem _ hn)) (Nat.succ.inj he) (Nat.succ.inj hc)
  have hin := hsub _ hcorner
  clear hsub hcorner
  induction lows generalizing e c with
  | nil =>
    obtain rfl := List.length_eq_zero_iff.mp he.symm
    obtain rfl := List.length_eq_zero_iff.mp hc.symm
    exact .nil
  | cons l lows ih =>
    obtain ⟨n, e, rfl⟩ := List.exists_cons_of_length_eq_add_one he.symm
    obtain ⟨m, c, rfl⟩ := List.exists_cons_of_length_eq_add_one hc.symm
    rw [List.zip_cons_cons, List.zipWith_cons_cons] at hin
    obtain ⟨hx, hxs⟩ := List.forall₂_cons.mp hin
    refine .cons (by dsimp only at hx; omega) ?_
    exact ih (fun n hn => hpos n (List.mem_cons_of_mem _ hn)) (Nat.succ.inj he) (Nat.succ.inj hc)
      hxs

/-- Boxes with the same low ends and the same points, one of which is not empty, have the same
extents. -/
theorem eq_of_zip_inRanges {lows e c : List ℤ} (hpos : ∀ n ∈ e, 0 < n) (he : lows.length = e.length)
    (hc : lows.length = c.length)
    (hsame : ∀ p, InRanges (lows.zip c) p ↔ InRanges (lows.zip e) p) : c = e := by
  have hle := le_of_zip_inRanges hpos he hc fun p hp => (hsame p).mpr hp
  have hcpos : ∀ n ∈ c, 0 < n := by
    intro m hm
    obtain ⟨i, hi, rfl⟩ := List.getElem_of_mem hm
    have hi' : i < e.length := hle.length_eq ▸ hi
    exact lt_of_lt_of_le (hpos _ (List.getElem_mem hi')) (hle.get hi' hi)
  have hge := le_of_zip_inRanges hcpos hc he fun p hp => (hsame p).mp hp
  apply List.ext_getElem hge.length_eq
  intro i hi hi'
  exact le_antisymm (hge.get hi hi') (hle.get hi' hi)

end TileLangNpuir.RowMajor
