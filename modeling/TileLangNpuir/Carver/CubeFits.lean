import TileLangNpuir.Carver.CubeSearch
import TileLangNpuir.Carver.CubeSteps

/-!
# When the hints fit

The hints of `emit_config` divide the matrix, and their buffers were checked for the first reduction
step. A small tile then gets a longer step, as long as all buffers together have room, and the depth
multiplies it. So the hints fit exactly when every step that leaves room in total fits each buffer
after the multiplication; and the policy raises exactly when the first step of a small tile is not
among the candidates while one of them is a multiple of it.
-/

namespace TileLangNpuir.Carver

namespace AscendCubePolicy

variable {p : AscendCubePolicy} {prio : TileDict → ℚ} {fuel topk : ℕ} {steps : List (List ℕ)}

/-- `emit_config` returns, and each hint passes the check of its node for its own block and step,
and divides the matrix. -/
def FitsHardware (p : AscendCubePolicy) (fuel : ℕ) (prio : TileDict → ℚ) (topk : ℕ) : Prop :=
  ∃ hints, p.emitConfig fuel prio topk = some (.ok hints) ∧ ∀ hint ∈ hints,
    (∃ r, hint.rstep = [r] ∧ p.checkNodeL0Capacity hint.block r = true) ∧
      List.Forall₂ (· ∣ ·) hint.block p.node.getSpaceDim

/-- Whether `check_tile_shape_isvalid` accepts a tile. -/
def accepts (p : AscendCubePolicy) (td : TileDict) : Bool :=
  match p.checkTileShapeIsvalid td with
  | .ok b => b
  | .error _ => false

/-- `max_total_numel`, and the tiles that the search finds and the check accepts. -/
def accepted (p : AscendCubePolicy) (fuel : ℕ) (prio : TileDict → ℚ) : ℕ × List TileDict :=
  match p.dfsSmemTile fuel prio p.getBaseTile p.firstStep with
  | some (.ok (total, tds)) => (total, tds.filter p.accepts)
  | _ => (0, [])

/-- The tiles that get a hint. -/
def tried (p : AscendCubePolicy) (fuel : ℕ) (prio : TileDict → ℚ) (topk : ℕ) : List TileDict :=
  (p.accepted fuel prio).2.take (max topk 1)

/-- Those of them whose hints have a size that is returned. -/
def kept (p : AscendCubePolicy) (fuel : ℕ) (prio : TileDict → ℚ) (topk : ℕ) : List TileDict :=
  p.verify (fun td => td.tile.prod) topk (p.accepted fuel prio).1 (p.tried fuel prio topk)

/-- The condition: the first step is listed if a small tile is tried, a small tile that is kept fits
with every step that leaves room in all buffers together, and another with the first step, each
multiplied by the depth. -/
structure StepsFit (p : AscendCubePolicy) (fuel : ℕ) (prio : TileDict → ℚ) (topk : ℕ) : Prop where
  listed : ∀ td ∈ p.tried fuel prio topk, checkSmallTile td.tile = true → p.FirstStepListed
  small : ∀ td ∈ p.kept fuel prio topk, checkSmallTile td.tile = true →
    ∀ r, p.Reached td.tile p.firstStep r →
      p.checkNodeL0Capacity td.tile (p.expandWithTags r) = true
  large : ∀ td ∈ p.kept fuel prio topk, checkSmallTile td.tile = false →
    p.checkNodeL0Capacity td.tile (p.expandWithTags p.firstStep) = true

/-! ## The check -/

theorem entry_eq {l : List ℕ} {i : ℕ} (h : i < l.length) : entry l i = .ok (l.getD i 0) := by
  rw [entry, List.getElem?_eq_getElem h, List.getD_eq_getElem _ _ h]

/-- What the check asks of a tile. -/
structure Valid (p : AscendCubePolicy) (td : TileDict) : Prop where
  axM_lt : p.node.axM < td.tile.length
  axN_lt : p.node.axN < td.tile.length
  cubeM_le : p.arch.cubeM ≤ td.tile.getD p.node.axM 0
  cubeN_le : p.arch.cubeN ≤ td.tile.getD p.node.axN 0
  dvd : ∀ q ∈ td.tile.zip p.node.getSpaceDim, q.1 ∣ q.2

/-- The check does not raise on tiles of positive steps, and accepts valid ones only. -/
theorem checkTileShapeIsvalid_spec {td : TileDict} (hpos : ∀ t ∈ td.tile, 0 < t) :
    ∃ b, p.checkTileShapeIsvalid td = .ok b ∧ (b = true → Valid p td) := by
  unfold checkTileShapeIsvalid
  dsimp only
  split
  · exact ⟨false, rfl, fun h => Bool.noConfusion h⟩
  · rename_i hax
    push Not at hax
    rw [entry_eq hax.1, entry_eq hax.2]
    dsimp only [bind, Except.bind]
    split
    · exact ⟨false, rfl, fun h => Bool.noConfusion h⟩
    · rename_i hcube
      push Not at hcube
      have hrests : ∀ q ∈ td.tile.zip p.node.getSpaceDim,
          floorMod q.2 q.1 = .ok (q.2 % q.1) := by
        intro q hq
        have := hpos q.1 (List.of_mem_zip hq).1
        exact if_neg (by omega)
      rw [mapM_eq_ok hrests]
      dsimp only
      split
      · exact ⟨false, rfl, fun h => Bool.noConfusion h⟩
      · rename_i hdvd
        have hvalid : Valid p td := by
          refine ⟨hax.1, hax.2, hcube.1, hcube.2, fun q hq => ?_⟩
          by_contra hnot
          refine hdvd (List.any_eq_true.mpr ⟨q.2 % q.1, List.mem_map.mpr ⟨q, hq, rfl⟩, ?_⟩)
          exact decide_eq_true fun hzero => hnot (Nat.dvd_of_mod_eq_zero hzero)
        split
        · exact ⟨false, rfl, fun h => Bool.noConfusion h⟩
        · split
          · exact ⟨false, rfl, fun h => Bool.noConfusion h⟩
          · exact ⟨_, rfl, fun _ => hvalid⟩

theorem checkTileShapeIsvalid_eq {td : TileDict} (hpos : ∀ t ∈ td.tile, 0 < t) :
    p.checkTileShapeIsvalid td = .ok (p.accepts td) := by
  obtain ⟨b, hb, -⟩ := p.checkTileShapeIsvalid_spec hpos
  rw [accepts, hb]

theorem valid_of_accepts {td : TileDict} (hpos : ∀ t ∈ td.tile, 0 < t)
    (h : p.accepts td = true) : Valid p td := by
  obtain ⟨b, hb, hvalid⟩ := p.checkTileShapeIsvalid_spec hpos
  rw [accepts, hb] at h
  exact hvalid h

theorem Proper.tile_pos {rstep : ℕ} {td : TileDict} (hsteps : Steps p steps)
    (h : Proper steps rstep td) : ∀ t ∈ td.tile, 0 < t := by
  rw [h.tile]
  exact forall_pos_of_mem hsteps.pos h.mem

theorem Proper.length_eq {rstep : ℕ} {td : TileDict} (hsteps : Steps p steps)
    (h : Proper steps rstep td) : td.tile.length = 2 := by
  rw [h.tile]
  exact h.mem.length_eq.trans hsteps.length

/-! ## Hints of tiles -/

/-- The step of a tile after `_expand_reduce_axis`. -/
def expandedStep (p : AscendCubePolicy) (td : TileDict) : Except Error ℕ :=
  if checkSmallTile td.tile then (p.optimize td.tile td.rstep).map p.expandWithTags
  else .ok (p.expandWithTags td.rstep)

/-- The hint of a tile with a step. -/
def hintOf (p : AscendCubePolicy) (td : TileDict) (rstep : ℕ) : Hint where
  block := td.tile
  warp := ((td.tile.map fun _ => 1).set p.node.axM p.arch.cubeM).set p.node.axN p.arch.cubeN
  thread := td.tile.map fun _ => 1
  useTc := true
  pipelineStage := p.pipelineStage
  blockReductionDepth := p.blockReductionDepth
  rstep := [rstep]
  reduceThread := [1]

theorem assignBlockSize_eq {td : TileDict} (hlength : td.tile.length = 2) (h : Valid p td) :
    p.assignBlockSize td = .ok (some (p.hintOf td td.rstep)) := by
  unfold assignBlockSize
  dsimp only
  rw [entry_eq h.axM_lt, entry_eq h.axN_lt]
  have hcubeM := h.cubeM_le
  have hcubeN := h.cubeN_le
  dsimp only [bind, Except.bind]
  rw [if_neg (by omega)]
  simp only [List.length_set, List.length_map, hlength, Nat.sub_self, List.drop_zero]
  rfl

/-- A tile that is accepted gets one hint. -/
theorem expand_assign {td : TileDict} (hlength : td.tile.length = 2) (h : Valid p td) :
    (p.expandReduceAxis td >>= p.assignBlockSize) =
      (p.expandedStep td).map fun r => some (p.hintOf td r) := by
  have hassign : ∀ (r : ℕ) (smemCost : ℚ),
      p.assignBlockSize { td with rstep := r, smemCost := smemCost } =
        .ok (some (p.hintOf td r)) := by
    intro r smemCost
    let td' := { td with rstep := r, smemCost := smemCost }
    have hvalid : Valid p td' := ⟨h.axM_lt, h.axN_lt, h.cubeM_le, h.cubeN_le, h.dvd⟩
    exact assignBlockSize_eq hlength hvalid
  unfold expandReduceAxis expandedStep
  split
  · cases hopt : p.optimize td.tile td.rstep with
    | error e => rfl
    | ok r => exact hassign _ _
  · exact hassign _ td.smemCost

theorem emitLoop_cons {td : TileDict} (topk : ℕ) (tds : List TileDict) (results : List Hint)
    (hsteps : Steps p steps) (htd : Proper steps p.firstStep td) :
    p.emitLoop topk (td :: tds) results =
      if p.accepts td then
        p.expandedStep td >>= fun r =>
          if topk ≤ results.length + 1 then .ok (results ++ [p.hintOf td r])
          else p.emitLoop topk tds (results ++ [p.hintOf td r])
      else p.emitLoop topk tds results := by
  have hpos := htd.tile_pos hsteps
  rw [emitLoop, checkTileShapeIsvalid_eq hpos]
  change (if ¬p.accepts td = true then _ else _) = _
  rw [ite_not]
  split
  · rename_i hacc
    have hfinish := expand_assign (htd.length_eq hsteps) (valid_of_accepts hpos hacc)
    rw [← bind_assoc, hfinish]
    cases p.expandedStep td with
    | error e => rfl
    | ok r =>
      change (if topk ≤ (results ++ [p.hintOf td r]).length then _ else _) = _
      simp only [List.length_append, List.length_singleton]
      rfl
  · rfl

/-- The loop stops after enough hints; it makes one for each accepted tile. -/
theorem emitLoop_eq (hsteps : Steps p steps) (topk : ℕ) {tds : List TileDict}
    (htds : ∀ td ∈ tds, Proper steps p.firstStep td) (results : List Hint)
    (hresults : results.length < max topk 1) :
    p.emitLoop topk tds results =
      (((tds.filter p.accepts).take (max topk 1 - results.length)).mapM fun td =>
        (p.expandedStep td).map (p.hintOf td)).map (results ++ ·) := by
  induction tds generalizing results with
  | nil => simp [emitLoop, pure, Except.pure, Except.map]
  | cons td tds ih =>
    obtain ⟨htd, htds⟩ := List.forall_mem_cons.mp htds
    rw [emitLoop_cons topk tds results hsteps htd]
    by_cases hacc : p.accepts td = true
    · obtain ⟨k, hk⟩ : ∃ k, max topk 1 - results.length = k + 1 :=
        ⟨max topk 1 - results.length - 1, by omega⟩
      rw [if_pos hacc, List.filter_cons_of_pos hacc, hk, List.take_succ_cons, List.mapM_cons]
      cases p.expandedStep td with
      | error e => rfl
      | ok r =>
        change (if topk ≤ results.length + 1 then _ else _) = _
        split
        · -- the last hint
          obtain rfl : k = 0 := by omega
          rfl
        · have hlen : (results ++ [p.hintOf td r]).length = results.length + 1 := by simp
          have hrest : max topk 1 - (results.length + 1) = k := by omega
          rw [ih htds _ (by omega), hlen, hrest]
          change _ = (((tds.filter p.accepts).take k).mapM _ >>= fun hints =>
            Except.ok (p.hintOf td r :: hints)).map _
          cases ((tds.filter p.accepts).take k).mapM fun td =>
              (p.expandedStep td).map (p.hintOf td) with
          | error e => rfl
          | ok hints =>
            change Except.ok (results ++ [p.hintOf td r] ++ hints) = .ok (results ++ _)
            rw [List.append_assoc]
            rfl
    · rw [if_neg hacc, List.filter_cons_of_neg hacc]
      exact ih htds results hresults

/-! ## The sizes that are returned -/

/-- Which results are kept depends on their sizes only. -/
theorem verify_map {α β : Type} (f : α → β) (numel : β → ℕ) (topk total : ℕ) (l : List α) :
    p.verify numel topk total (l.map f) =
      (p.verify (fun a => numel (f a)) topk total l).map f := by
  unfold verify
  rw [List.foldl_map]
  have hfold : ∀ acc : List α, l.foldl (fun verified a =>
        if numel (f a) ≤ p.maxNumelThreshold ∧
            (if verified.length < topk / 2 ∨ tinyKernel total then 0
              else p.stopNumel total + 128) ≤ numel (f a) then verified ++ [f a]
        else verified) (acc.map f) =
      (l.foldl (fun verified a =>
        if numel (f a) ≤ p.maxNumelThreshold ∧
            (if verified.length < topk / 2 ∨ tinyKernel total then 0
              else p.stopNumel total + 128) ≤ numel (f a) then verified ++ [a]
        else verified) acc).map f := by
    induction l with
    | nil => exact fun _ => rfl
    | cons a l ih =>
      intro acc
      rw [List.foldl_cons, List.foldl_cons, ← ih, List.length_map, apply_ite (List.map f),
        List.map_append]
      rfl
  exact hfold []

theorem mem_append_ite {α : Type} {a b : α} {l : List α} {c : Prop} [Decidable c]
    (h : a ∈ if c then l ++ [b] else l) : a ∈ l ∨ a = b := by
  split at h
  · rwa [List.mem_append, List.mem_singleton] at h
  · exact .inl h

theorem mem_of_mem_verify {α : Type} {numel : α → ℕ} {topk total : ℕ} {l : List α} {a : α}
    (h : a ∈ p.verify numel topk total l) : a ∈ l := by
  unfold verify at h
  induction l using List.reverseRecOn with
  | nil => cases h
  | append_singleton l b ih =>
    rw [List.foldl_append, List.foldl_cons, List.foldl_nil] at h
    rcases mem_append_ite h with h | rfl
    · exact List.mem_append_left _ (ih h)
    · exact List.mem_append_right _ (List.mem_singleton_self a)

/-! ## The hints -/

/-- `emit_config` makes the hints of the tiles that are tried, and keeps some of them. -/
theorem emitConfig_eq (prio : TileDict → ℚ) (topk : ℕ) (hfuel : p.searchRounds ≤ fuel) :
    p.emitConfig fuel prio topk =
      some (((p.tried fuel prio topk).mapM fun td => (p.expandedStep td).map (p.hintOf td)).map
        (p.verify (fun hint => hint.block.prod) topk (p.accepted fuel prio).1)) := by
  obtain ⟨total, tds, steps, hdfs, hsteps, htds⟩ := p.dfsSmemTile_spec prio p.firstStep hfuel
  have hloop := emitLoop_eq hsteps topk htds [] (by simp)
  rw [List.length_nil, Nat.sub_zero] at hloop
  unfold emitConfig tried accepted
  rw [assignReduceStep_eq]
  dsimp only
  rw [hdfs]
  dsimp only [Option.map_some, bind, Except.bind]
  rw [hloop]
  cases ((tds.filter p.accepts).take (max topk 1)).mapM fun td =>
      (p.expandedStep td).map (p.hintOf td) with
  | error e => rfl
  | ok hints => rfl

theorem tried_spec (prio : TileDict → ℚ) (topk : ℕ) (hfuel : p.searchRounds ≤ fuel) :
    ∀ td ∈ p.tried fuel prio topk,
      td.rstep = p.firstStep ∧ List.Forall₂ (· ∣ ·) td.tile p.node.getSpaceDim := by
  obtain ⟨total, tds, steps, hdfs, hsteps, htds⟩ := p.dfsSmemTile_spec prio p.firstStep hfuel
  intro td htd
  rw [tried, accepted, hdfs] at htd
  obtain ⟨hmem, hacc⟩ := List.mem_filter.mp (List.mem_of_mem_take htd)
  have hproper := htds td hmem
  have hvalid := valid_of_accepts (hproper.tile_pos hsteps) hacc
  refine ⟨hproper.rstep, List.forall₂_iff_zip.mpr ⟨hproper.length_eq hsteps, ?_⟩⟩
  exact fun hq => hvalid.dvd _ hq

/-- The step of a tile is the longest one that leaves room, times the depth. -/
theorem expandedStep_spec {td : TileDict} (hrstep : td.rstep = p.firstStep) {s : ℕ}
    (h : p.expandedStep td = .ok s) : p.checkNodeL0Capacity td.tile s = true ↔
      (checkSmallTile td.tile = true → ∀ r, p.Reached td.tile p.firstStep r →
        p.checkNodeL0Capacity td.tile (p.expandWithTags r) = true) ∧
      (checkSmallTile td.tile = false →
        p.checkNodeL0Capacity td.tile (p.expandWithTags p.firstStep) = true) := by
  rw [expandedStep, hrstep] at h
  cases hsmall : checkSmallTile td.tile with
  | false =>
    rw [hsmall] at h
    obtain rfl := Except.ok.inj h
    exact ⟨fun hfits => ⟨nofun, fun _ => hfits⟩, fun hfits => hfits.2 rfl⟩
  | true =>
    rw [hsmall, if_pos rfl] at h
    by_cases hlisted : p.FirstStepListed
    · obtain ⟨longest, hopt, hreached, hmax⟩ := (optimize_spec td.tile).2 hlisted
      rw [hopt] at h
      obtain rfl := Except.ok.inj h
      refine ⟨fun hfits => ⟨fun _ r hr => ?_, nofun⟩, fun hfits => hfits.1 rfl longest hreached⟩
      exact checkNodeL0Capacity_mono (expandWithTags_mono (hmax r hr)) hfits
    · obtain ⟨e, hopt⟩ := (optimize_spec td.tile).1 hlisted
      rw [hopt] at h
      cases h

/-- The step is found unless it has to be looked up and is not listed. -/
theorem expandedStep_ok_iff {td : TileDict} (hrstep : td.rstep = p.firstStep) :
    (∃ s, p.expandedStep td = .ok s) ↔ (checkSmallTile td.tile = true → p.FirstStepListed) := by
  rw [expandedStep, hrstep]
  cases hsmall : checkSmallTile td.tile with
  | false => exact ⟨fun _ h => Bool.noConfusion h, fun _ => ⟨_, rfl⟩⟩
  | true =>
    rw [if_pos rfl]
    by_cases hlisted : p.FirstStepListed
    · obtain ⟨longest, hopt, -⟩ := (optimize_spec td.tile).2 hlisted
      rw [hopt]
      exact ⟨fun _ _ => hlisted, fun _ => ⟨_, rfl⟩⟩
    · obtain ⟨e, hopt⟩ := (optimize_spec td.tile).1 hlisted
      rw [hopt]
      refine ⟨?_, fun h => absurd (h rfl) hlisted⟩
      rintro ⟨_, ⟨⟩⟩

/-- The hints fit exactly when the condition holds. -/
theorem emitConfig_fits_iff (p : AscendCubePolicy) (prio : TileDict → ℚ) (topk : ℕ)
    (hfuel : p.searchRounds ≤ fuel) : p.FitsHardware fuel prio topk ↔ p.StepsFit fuel prio topk := by
  have htried := p.tried_spec prio topk hfuel
  rw [FitsHardware, emitConfig_eq prio topk hfuel]
  by_cases hok : ∀ td ∈ p.tried fuel prio topk, ∃ s, p.expandedStep td = .ok s
  · have hlisted : ∀ td ∈ p.tried fuel prio topk, checkSmallTile td.tile = true →
        p.FirstStepListed := fun td htd =>
      (expandedStep_ok_iff (htried td htd).1).mp (hok td htd)
    choose! step hstep using hok
    have hhints : ((p.tried fuel prio topk).mapM fun td => (p.expandedStep td).map (p.hintOf td)) =
        .ok ((p.tried fuel prio topk).map fun td => p.hintOf td (step td)) :=
      mapM_eq_ok fun td htd => by rw [hstep td htd]; rfl
    rw [hhints]
    simp only [Except.map, verify_map, Option.some.injEq, Except.ok.injEq, exists_eq_left',
      List.forall_mem_map]
    -- each hint that is kept stands for a tile that was tried
    have hkept : ∀ td ∈ p.kept fuel prio topk, td ∈ p.tried fuel prio topk := fun _ =>
      mem_of_mem_verify
    have hspec : ∀ td ∈ p.kept fuel prio topk, _ := fun td htd =>
      expandedStep_spec (htried td (hkept td htd)).1 (hstep td (hkept td htd))
    refine ⟨fun h => ⟨hlisted, fun td htd => ?_, fun td htd => ?_⟩, fun h td htd => ⟨?_, ?_⟩⟩
    · obtain ⟨⟨r, hr, hfits⟩, -⟩ := h td htd
      obtain rfl := List.head_eq_of_cons_eq hr
      exact ((hspec td htd).mp hfits).1
    · obtain ⟨⟨r, hr, hfits⟩, -⟩ := h td htd
      obtain rfl := List.head_eq_of_cons_eq hr
      exact ((hspec td htd).mp hfits).2
    · exact ⟨step td, rfl, (hspec td htd).mpr ⟨h.small td htd, h.large td htd⟩⟩
    · exact (htried td (hkept td htd)).2
  · refine ⟨fun ⟨hints, hhints, _⟩ => absurd (fun td htd => ?_) hok,
      fun h => absurd (fun td htd => ?_) hok⟩
    · cases hmap : (p.tried fuel prio topk).mapM fun td =>
          (p.expandedStep td).map (p.hintOf td) with
      | error e =>
        rw [hmap] at hhints
        cases hhints
      | ok results =>
        obtain ⟨hint, hhint⟩ := exists_of_mapM_eq_ok hmap td htd
        cases hstep : p.expandedStep td with
        | error e =>
          rw [hstep] at hhint
          cases hhint
        | ok s => exact ⟨s, rfl⟩
    · exact (expandedStep_ok_iff (htried td htd).1).mpr (h.listed td htd)

end AscendCubePolicy

/-- A policy for 16 rows and columns of half precision, with the sizes of an Ascend910B. -/
def narrowPolicy (K : ℕ) (hK : 0 < K) : AscendCubePolicy where
  arch := {
    computeMaxCore := 30
    l0aCap := 64 * 1024
    l0bCap := 64 * 1024
    l0cCap := 512 * 1024
    l1Cap := 1024 * 1024
    ubCap := 192 * 1024
    cubeM := 16
    cubeN := 16
    cubeK := 16
    core_pos := by decide
    cubeK_pos := by decide }
  node := {
    M := 16
    N := 16
    K := K
    aDtype := ⟨16, by decide, by decide⟩
    bDtype := ⟨16, by decide, by decide⟩
    cDtype := ⟨32, by decide, by decide⟩
    axM := 0
    axN := 1
    M_pos := by decide
    N_pos := by decide
    K_pos := hK }
  pipelineStageTag := none
  blockReductionDepthTag := none
  customMemMul := 1

/-- A long axis: the step grows to 4096, and A takes 256 KB of the 64 KB in L0A. -/
theorem emitConfig_overflows :
    ¬(narrowPolicy 4096 (by decide)).FitsHardware 2003 TileDict.priority 1 := by
  have hhints : ((narrowPolicy 4096 (by decide)).emitConfig 2003 TileDict.priority 1).map
      (fun r => r.toOption.map fun hints => hints.map fun hint => (hint.block, hint.rstep)) =
      some (some [([16, 16], [4096])]) := by decide +kernel
  have hsize : (narrowPolicy 4096 (by decide)).checkNodeL0Capacity [16, 16] 4096 = false := by
    decide +kernel
  rintro ⟨hints, heq, hfits⟩
  rw [heq] at hhints
  obtain ⟨hint, rfl, hhint⟩ := List.map_eq_singleton_iff.mp (Option.some.inj (Option.some.inj hhints))
  obtain ⟨hblock, hrstep⟩ := Prod.mk.inj hhint
  obtain ⟨⟨r, hr, hcheck⟩, -⟩ := hfits hint List.mem_cons_self
  rw [hrstep] at hr
  obtain rfl := List.head_eq_of_cons_eq hr
  rw [hblock, hsize] at hcheck
  cases hcheck

/-- On an axis of 256 the first step is the whole axis. -/
theorem emitConfig_fits_short :
    (narrowPolicy 256 (by decide)).FitsHardware 2003 TileDict.priority 1 := by
  let p := narrowPolicy 256 (by decide)
  have hsteps : ∀ td ∈ p.kept 2003 TileDict.priority 1,
      ∀ r ∈ p.firstStep :: p.getNodeReduceStepCandidates,
        p.checkNodeL0Capacity td.tile (p.expandWithTags r) = true := by decide +kernel
  refine (p.emitConfig_fits_iff TileDict.priority 1 (by decide)).mpr ⟨?_, ?_, ?_⟩
  · decide +kernel
  · rintro td htd - r (rfl | ⟨hr, -⟩)
    · exact hsteps td htd _ List.mem_cons_self
    · exact hsteps td htd r (List.mem_cons_of_mem _ hr)
  · exact fun td htd _ => hsteps td htd _ List.mem_cons_self

end TileLangNpuir.Carver
