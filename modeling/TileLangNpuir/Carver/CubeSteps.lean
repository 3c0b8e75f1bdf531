import TileLangNpuir.Carver.Cube

/-!
# The reduction step of the cube policy

Every tile starts with one reduction step. `_optimize` looks it up among the candidates and goes on
to the longest one that leaves room in all buffers together.
-/

namespace TileLangNpuir.Carver

namespace AscendCubePolicy

variable {p : AscendCubePolicy} {tile : List ℕ} {rstep r s : ℕ}

/-! ## Reduction steps -/

theorem basic_pos : 0 < p.basic := Nat.div_pos (by have := p.node.aDtype.lt; omega) p.node.aDtype.pos

theorem sorted_candidates : p.getNodeReduceStepCandidates.Pairwise (· < ·) := by
  refine List.Pairwise.map _ (fun a b h => Nat.mul_lt_mul_of_pos_right h p.arch.cubeK_pos) ?_
  rcases Nat.eq_zero_or_pos (p.node.K / p.arch.cubeK) with h | h
  · rw [h]
    exact List.pairwise_singleton _ _
  · exact sorted_getAllFactors h

theorem mem_candidates (h : p.arch.cubeK ≤ p.node.K) :
    r ∈ p.getNodeReduceStepCandidates ↔ ∃ f, f ∣ p.node.K / p.arch.cubeK ∧ f * p.arch.cubeK = r := by
  simp only [getNodeReduceStepCandidates, List.mem_map,
    mem_getAllFactors (Nat.div_pos h p.arch.cubeK_pos)]

theorem candidates_eq_of_lt (h : p.node.K < p.arch.cubeK) :
    p.getNodeReduceStepCandidates = [0] := by
  rw [getNodeReduceStepCandidates, Nat.div_eq_of_lt h]
  simp [getAllFactors, ceilSqrt, smallFactors]

theorem candidates_pos (h : p.arch.cubeK ≤ p.node.K) (hr : r ∈ p.getNodeReduceStepCandidates) :
    0 < r := by
  obtain ⟨f, hf, rfl⟩ := (mem_candidates h).mp hr
  exact Nat.mul_pos (Nat.pos_of_dvd_of_pos hf (Nat.div_pos h p.arch.cubeK_pos)) p.arch.cubeK_pos

theorem enlargeDefault_lt {allSteps : List ℕ} (iterations : ℕ) {rstepId : ℕ}
    (h : rstepId < allSteps.length) :
    p.enlargeDefault allSteps iterations rstepId < allSteps.length := by
  induction iterations generalizing rstepId with
  | zero => exact h
  | succ iterations ih =>
    rw [enlargeDefault]
    split
    · exact h
    · split
      · exact ih (by omega)
      · exact h

/-- The first step of the default policy is a candidate. -/
theorem assignReduceStepDefault_mem (h : p.arch.cubeK ≤ p.node.K) :
    ∃ r ∈ p.getNodeReduceStepCandidates, p.assignReduceStepDefault = .ok r := by
  have hmem := (mem_candidates (r := p.arch.cubeK) h).mpr ⟨1, one_dvd _, one_mul _⟩
  have hlt := enlargeDefault_lt (p := p) 100 (List.length_pos_of_mem hmem)
  refine ⟨_, List.getElem_mem hlt, ?_⟩
  rw [assignReduceStepDefault, entry, List.getElem?_eq_getElem hlt]

theorem assignReduceStep_ok (p : AscendCubePolicy) :
    ∃ r, p.assignReduceStep = .ok r ∧ 0 < r := by
  unfold assignReduceStep
  split
  · refine ⟨_, rfl, ?_⟩
    split
    · exact p.arch.cubeK_pos
    · exact basic_pos
  · split
    · exact ⟨_, rfl, basic_pos⟩
    · rename_i hmod _
      have hle : p.arch.cubeK ≤ p.node.K :=
        Nat.le_of_dvd p.node.K_pos (Nat.dvd_of_mod_eq_zero (by omega))
      obtain ⟨r, hr, heq⟩ := assignReduceStepDefault_mem hle
      exact ⟨r, heq, candidates_pos hle hr⟩

/-- The step that every tile starts with. -/
def firstStep (p : AscendCubePolicy) : ℕ :=
  match p.assignReduceStep with
  | .ok r => r
  | .error _ => 0

theorem assignReduceStep_eq (p : AscendCubePolicy) : p.assignReduceStep = .ok p.firstStep := by
  obtain ⟨r, hr, -⟩ := p.assignReduceStep_ok
  rw [firstStep, hr]

theorem firstStep_pos (p : AscendCubePolicy) : 0 < p.firstStep := by
  obtain ⟨r, hr, hpos⟩ := p.assignReduceStep_ok
  rw [firstStep, hr]
  exact hpos

/-- The first step can be looked up among the candidates, or none is a multiple of it. -/
def FirstStepListed (p : AscendCubePolicy) : Prop :=
  p.firstStep ∈ p.getNodeReduceStepCandidates ∨
    ∀ r ∈ p.getNodeReduceStepCandidates, ¬p.firstStep ∣ r

instance : Decidable p.FirstStepListed :=
  inferInstanceAs (Decidable (_ ∨ _))

/-- Where a transaction has a whole number of cube steps, this fails on short axes only. -/
theorem firstStepListed_iff (h : p.arch.cubeK ∣ p.basic) :
    p.FirstStepListed ↔ p.arch.cubeK ≤ p.node.K := by
  have hfirst := p.firstStep_pos
  refine ⟨fun hlisted => ?_, fun hle => ?_⟩
  · by_contra hlt
    rw [not_le] at hlt
    rw [FirstStepListed, candidates_eq_of_lt hlt, List.mem_singleton] at hlisted
    rcases hlisted with hzero | hnone
    · omega
    · exact hnone 0 (List.mem_singleton_self 0) (dvd_zero _)
  · have hstep := p.assignReduceStep_eq
    -- a multiple of the cube step that divides a candidate is a candidate
    have hlisted : p.arch.cubeK ∣ p.firstStep → p.FirstStepListed := by
      rintro ⟨c, hc⟩
      by_cases hnone : ∀ r ∈ p.getNodeReduceStepCandidates, ¬p.firstStep ∣ r
      · exact .inr hnone
      · push Not at hnone
        obtain ⟨r, hr, hdvd⟩ := hnone
        obtain ⟨f, hf, rfl⟩ := (mem_candidates hle).mp hr
        refine .inl ((mem_candidates hle).mpr ⟨c, ?_, by rw [hc, mul_comm]⟩)
        rw [hc, mul_comm f] at hdvd
        exact (Nat.dvd_of_mul_dvd_mul_left p.arch.cubeK_pos hdvd).trans hf
    unfold assignReduceStep at hstep
    split at hstep
    · refine hlisted ?_
      rw [← Except.ok.inj hstep]
      split
      · exact dvd_rfl
      · exact h
    · split at hstep
      · exact hlisted (Except.ok.inj hstep ▸ h)
      · obtain ⟨r, hr, heq⟩ := assignReduceStepDefault_mem hle
        rw [heq] at hstep
        exact .inl (Except.ok.inj hstep ▸ hr)

/-! ## Enlarging the step -/

/-- A step that `_optimize` may come to: the first one, or a multiple of it among the candidates for
which all buffers together have room. -/
def Reached (p : AscendCubePolicy) (tile : List ℕ) (rstep r : ℕ) : Prop :=
  r = rstep ∨ r ∈ p.getNodeReduceStepCandidates ∧ rstep ∣ r ∧
    p.inferNodeSmemUsage tile r ≤ p.getTotalL0Capacity

theorem roundUp_mono {a b : ℕ} (h : a ≤ b) (x n : ℕ) :
    (a + x) / n * n ≤ (b + x) / n * n :=
  Nat.mul_le_mul_right n (Nat.div_le_div_right (Nat.add_le_add_right h x))

theorem size_mono (p : AscendCubePolicy) (h : r ≤ s) (m bytes : ℕ) :
    m * min p.node.K r * bytes ≤ m * min p.node.K s * bytes :=
  Nat.mul_le_mul_right bytes (Nat.mul_le_mul_left m (min_le_min_left _ h))

theorem inferNodeSmemUsage_mono (h : r ≤ s) :
    p.inferNodeSmemUsage tile r ≤ p.inferNodeSmemUsage tile s :=
  Nat.mul_le_mul_right _ (Nat.add_le_add (roundUp_mono (p.size_mono h ..) ..)
    (roundUp_mono (p.size_mono h ..) ..))

/-- The buffers hold less for a shorter step. -/
theorem checkNodeL0Capacity_mono (h : r ≤ s) (hs : p.checkNodeL0Capacity tile s = true) :
    p.checkNodeL0Capacity tile r = true := by
  simp only [checkNodeL0Capacity, MatmulNode.propagateReductionInputs, checkL0Usage, alignToL0,
    Bool.and_eq_true] at hs ⊢
  obtain ⟨⟨ha, hb⟩, hc⟩ := hs
  have hle : ∀ m bytes : ℕ,
      (m * min p.node.K r * bytes + 511) / 512 * 512 * p.pipelineStage ≤
        (m * min p.node.K s * bytes + 511) / 512 * 512 * p.pipelineStage := fun m bytes =>
    Nat.mul_le_mul_right _ (roundUp_mono (p.size_mono h m bytes) 511 512)
  exact ⟨⟨decide_eq_true ((hle ..).trans (of_decide_eq_true ha)),
    decide_eq_true ((hle ..).trans (of_decide_eq_true hb))⟩, hc⟩

theorem expandWithTags_mono (h : r ≤ s) : p.expandWithTags r ≤ p.expandWithTags s := by
  unfold expandWithTags
  split
  · exact Nat.mul_le_mul_right _ h
  · exact h

theorem enlarge_mem (tile : List ℕ) (r : ℕ) (l : List ℕ) : p.enlarge tile r l ∈ r :: l := by
  induction l generalizing r with
  | nil => exact List.mem_singleton_self r
  | cons next rest ih =>
    rw [enlarge]
    split
    · exact List.mem_cons_self
    · exact List.mem_cons_of_mem r (ih next)

/-- The loop stops at a step with room, unless it does not move. -/
theorem enlarge_room (tile : List ℕ) (r : ℕ) (l : List ℕ) : p.enlarge tile r l = r ∨
    p.inferNodeSmemUsage tile (p.enlarge tile r l) ≤ p.getTotalL0Capacity := by
  induction l generalizing r with
  | nil => exact .inl rfl
  | cons next rest ih =>
    rw [enlarge]
    split
    · exact .inl rfl
    · rename_i hroom
      rcases ih next with heq | hle
      · exact .inr (heq.symm ▸ not_lt.mp hroom)
      · exact .inr hle

/-- The loop passes every step with room, since a longer step needs more. -/
theorem le_enlarge {l : List ℕ} (hsorted : (r :: l).Pairwise (· < ·)) {x : ℕ} (hx : x ∈ l)
    (hroom : p.inferNodeSmemUsage tile x ≤ p.getTotalL0Capacity) : x ≤ p.enlarge tile r l := by
  induction l generalizing r with
  | nil => cases hx
  | cons next rest ih =>
    obtain ⟨-, hrest⟩ := List.pairwise_cons.mp hsorted
    have hle : next ≤ x := by
      rcases List.mem_cons.mp hx with rfl | hmem
      · exact le_rfl
      · exact ((List.pairwise_cons.mp hrest).1 x hmem).le
    rw [enlarge, if_neg (not_lt.mpr ((inferNodeSmemUsage_mono hle).trans hroom))]
    rcases List.mem_cons.mp hx with rfl | hmem
    · rcases List.mem_cons.mp (enlarge_mem (p := p) tile x rest) with heq | hin
      · exact heq.ge
      · exact ((List.pairwise_cons.mp hrest).1 _ hin).le
    · exact ih hrest hmem

/-- `_optimize` raises when the first step is not listed; else it finds the longest step with
room. -/
theorem optimize_spec (tile : List ℕ) :
    (¬p.FirstStepListed → ∃ e, p.optimize tile p.firstStep = .error e) ∧
    (p.FirstStepListed → ∃ s, p.optimize tile p.firstStep = .ok s ∧
      p.Reached tile p.firstStep s ∧ ∀ r, p.Reached tile p.firstStep r → r ≤ s) := by
  have hpos := p.firstStep_pos
  have hne : p.firstStep ≠ 0 := by omega
  let allSteps := p.getNodeReduceStepCandidates.filter (· % p.firstStep = 0)
  have hmem : ∀ {r}, r ∈ allSteps ↔ r ∈ p.getNodeReduceStepCandidates ∧ p.firstStep ∣ r := by
    intro r
    simp only [allSteps, List.mem_filter, decide_eq_true_eq, Nat.dvd_iff_mod_eq_zero]
  have hsorted : allSteps.Pairwise (· < ·) := sorted_candidates.filter _
  have hopt : p.optimize tile p.firstStep =
      if allSteps = [] then .ok p.firstStep
      else (index allSteps p.firstStep).map fun rstepId =>
        p.enlarge tile p.firstStep (allSteps.drop (rstepId + 1)) := by
    simp only [optimize, if_neg hne]
    split
    · rfl
    · change index allSteps p.firstStep >>= _ = _
      cases index allSteps p.firstStep <;> rfl
  by_cases hin : p.firstStep ∈ p.getNodeReduceStepCandidates
  · have hin' : p.firstStep ∈ allSteps := hmem.mpr ⟨hin, dvd_rfl⟩
    refine ⟨fun h => absurd (.inl hin) h, fun _ => ?_⟩
    have hsplit := List.take_append_drop (allSteps.idxOf p.firstStep) allSteps
    have hlt := List.idxOf_lt_length_of_mem hin'
    rw [List.drop_eq_getElem_cons hlt, List.getElem_idxOf hlt] at hsplit
    rw [← hsplit, List.pairwise_append] at hsorted
    refine ⟨_, by rw [hopt, if_neg (List.ne_nil_of_mem hin'), index, if_pos hin']; rfl, ?_, ?_⟩
    · rcases enlarge_room (p := p) tile p.firstStep
        (allSteps.drop (allSteps.idxOf p.firstStep + 1)) with heq | hle
      · exact .inl heq
      · rcases List.mem_cons.mp (enlarge_mem (p := p) tile p.firstStep
          (allSteps.drop (allSteps.idxOf p.firstStep + 1))) with heq | hdrop
        · exact .inl heq
        · obtain ⟨hc, hd⟩ := hmem.mp (List.mem_of_mem_drop hdrop)
          exact .inr ⟨hc, hd, hle⟩
    · have hfirst : ∀ x ∈ p.firstStep :: allSteps.drop (allSteps.idxOf p.firstStep + 1),
          p.firstStep ≤ x := by
        intro x hx
        rcases List.mem_cons.mp hx with rfl | hx
        · exact le_rfl
        · exact ((List.pairwise_cons.mp hsorted.2.1).1 x hx).le
      have hself := hfirst _ (enlarge_mem (p := p) tile p.firstStep
        (allSteps.drop (allSteps.idxOf p.firstStep + 1)))
      rintro r (rfl | ⟨hc, hd, hroom⟩)
      · exact hself
      · -- what stands before the first step is shorter
        have hr : r ∈ allSteps := hmem.mpr ⟨hc, hd⟩
        rw [← hsplit] at hr
        rcases List.mem_append.mp hr with hr | hr
        · exact (hsorted.2.2 r hr _ List.mem_cons_self).le.trans hself
        · rcases List.mem_cons.mp hr with rfl | hr
          · exact hself
          · exact le_enlarge hsorted.2.1 hr hroom
  · refine ⟨fun hnot => ?_, fun hlisted => ?_⟩
    · have hsome : allSteps ≠ [] := by
        intro hnil
        refine hnot (.inr fun r hr hd => ?_)
        have := hmem.mpr ⟨hr, hd⟩
        rw [hnil] at this
        cases this
      rw [hopt, if_neg hsome, index, if_neg fun h => hin (hmem.mp h).1]
      exact ⟨_, rfl⟩
    · have hnone := hlisted.resolve_left hin
      have hnil : allSteps = [] :=
        List.eq_nil_iff_forall_not_mem.mpr fun r hr => hnone r (hmem.mp hr).1 (hmem.mp hr).2
      refine ⟨p.firstStep, by rw [hopt, if_pos hnil], .inl rfl, ?_⟩
      rintro r (rfl | ⟨hc, hd, -⟩)
      · exact le_rfl
      · exact absurd hd (hnone r hc)

end AscendCubePolicy

end TileLangNpuir.Carver
