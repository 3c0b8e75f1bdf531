import TileLangNpuir.Carver.Cube
import TileLangNpuir.Lib.Returns
import Mathlib.Data.List.GetD

/-!
# The search of the cube policy

`dfs_smem_tile` never raises and ends: a tile is taken from the queue once for each time it was
visited, and 2000 visited tiles are enough. What it finds are tiles of positive steps.
-/

namespace TileLangNpuir.Carver

namespace AscendCubePolicy

variable {p : AscendCubePolicy} {rstep : ℕ} {steps : List (List ℕ)}

/-! ## Tiles -/

/-- A positive step for each axis. -/
structure Steps (p : AscendCubePolicy) (steps : List (List ℕ)) : Prop where
  length : steps.length = p.node.getSpaceDim.length
  pos : ∀ step ∈ steps, ∀ t ∈ step, 0 < t

/-- A tile as the search makes it: of steps, and not changed by `_get_output_tile_map`. -/
structure Proper (steps : List (List ℕ)) (rstep : ℕ) (td : TileDict) : Prop where
  mem : List.Forall₂ (· ∈ ·) td.outputTile steps
  tile : td.tile = td.outputTile
  rstep : td.rstep = rstep

theorem forall_pos_of_mem {tile : List ℕ} {steps : List (List ℕ)}
    (hsteps : ∀ step ∈ steps, ∀ t ∈ step, 0 < t) (h : List.Forall₂ (· ∈ ·) tile steps) :
    ∀ t ∈ tile, 0 < t := by
  induction h with
  | nil => nofun
  | cons hmem _ ih =>
    rw [List.forall_mem_cons] at hsteps ⊢
    exact ⟨hsteps.1 _ hmem, ih hsteps.2⟩

theorem getSpaceDim_pos (p : AscendCubePolicy) : ∀ n ∈ p.node.getSpaceDim, 0 < n := by
  simp only [MatmulNode.getSpaceDim, List.forall_mem_cons]
  exact ⟨p.node.M_pos, p.node.N_pos, nofun⟩

theorem getOutputTileMap_eq {tile : List ℕ} (h : tile.length = p.node.getSpaceDim.length) :
    p.getOutputTileMap tile = tile := by
  have hpos := p.getSpaceDim_pos
  unfold getOutputTileMap
  generalize p.node.getSpaceDim = dims at h hpos
  induction tile generalizing dims with
  | nil => rfl
  | cons t tile ih =>
    cases dims with
    | nil => cases h
    | cons n dims =>
      rw [List.forall_mem_cons] at hpos
      rw [List.zip_cons_cons, List.map_cons, ih dims (Nat.succ_inj.mp h) hpos.2]
      exact congrArg (· :: tile) (Nat.mul_div_cancel t hpos.1)

theorem computeTileDict_proper (rstep : ℕ) (hsteps : Steps p steps) {tile : List ℕ}
    (h : List.Forall₂ (· ∈ ·) tile steps) :
    ∃ td, p.computeTileDict rstep tile = .ok td ∧ td.outputTile = tile ∧ Proper steps rstep td := by
  have htile := p.getOutputTileMap_eq (h.length_eq.trans hsteps.length)
  have hgrid : ∀ q ∈ tile.zip p.node.getSpaceDim,
      floorDiv (q.2 + q.1 - 1) q.1 = .ok ((q.2 + q.1 - 1) / q.1) := by
    intro q hq
    have hx := forall_pos_of_mem hsteps.pos h q.1 (List.of_mem_zip hq).1
    exact if_neg (by omega)
  unfold computeTileDict
  rw [mapM_eq_ok hgrid]
  simp only [htile]
  split
  · exact ⟨_, rfl, rfl, h, rfl, rfl⟩
  · exact ⟨_, rfl, rfl, h, rfl, rfl⟩

/-! ## The queue -/

/-- All that the search holds is proper. -/
def Search.Sound (steps : List (List ℕ)) (rstep : ℕ) (s : Search) : Prop :=
  ∀ td ∈ s.visitedTiles ++ s.queue, Proper steps rstep td

/-- At most `n` tiles were visited, and no more came to the queue than were visited. -/
structure Search.Grows (n : ℕ) (s s' : Search) : Prop where
  visited : s'.visitedTiles.length ≤ s.visitedTiles.length + n
  queue : s'.queue.length + s.visitedTiles.length ≤ s.queue.length + s'.visitedTiles.length

theorem Search.Grows.refl (n : ℕ) (s : Search) : s.Grows n s := ⟨Nat.le_add_right .., le_rfl⟩

theorem Search.Grows.trans {m n : ℕ} {s s' s'' : Search} (h : s.Grows m s')
    (h' : s'.Grows n s'') : s.Grows (m + n) s'' := by
  have := h.visited
  have := h.queue
  have := h'.visited
  have := h'.queue
  exact ⟨by omega, by omega⟩

theorem addToQueue_spec (prio : TileDict → ℚ) (hsteps : Steps p steps) {s : Search} (hs : s.Sound steps rstep)
    {tile : List ℕ} (h : List.Forall₂ (· ∈ ·) tile steps) :
    ∃ s', p.addToQueue rstep prio s tile = .ok s' ∧ s'.Sound steps rstep ∧ s.Grows 1 s' := by
  obtain ⟨td, htd, -, hproper⟩ := computeTileDict_proper rstep hsteps h
  unfold addToQueue
  split
  · exact ⟨s, rfl, hs, .refl 1 s⟩
  · rw [htd]
    refine ⟨_, rfl, fun d hd => ?_, ?_⟩
    · rw [List.mem_append] at hd
      rcases hd with hd | hd
      · rcases List.mem_append.mp hd with hd | hd
        · exact hs d (List.mem_append_left _ hd)
        · rw [List.mem_singleton.mp hd]
          exact hproper
      · split at hd
        · rcases (List.mem_orderedInsert _).mp hd with rfl | hd
          · exact hproper
          · exact hs d (List.mem_append_right _ hd)
        · exact hs d (List.mem_append_right _ hd)
    · refine ⟨(List.length_append ..).le, ?_⟩
      dsimp only
      rw [List.length_append, List.length_singleton]
      split
      · rw [List.orderedInsert_length]
        omega
      · omega

theorem dimIds_ok {tile : List ℕ} (h : List.Forall₂ (· ∈ ·) tile steps) :
    ∃ ids, (steps.zip tile).mapM (fun (step, t) => index step t) = .ok ids ∧
      ids.length = steps.length := by
  refine ⟨(steps.zip tile).map fun x => x.1.idxOf x.2, mapM_eq_ok fun ⟨step, t⟩ hmem => ?_, ?_⟩
  · have hin : t ∈ step := by
      induction h with
      | nil => cases hmem
      | cons hhead _ ih =>
        rcases List.mem_cons.mp hmem with heq | hmem
        · obtain ⟨rfl, rfl⟩ := Prod.mk.inj heq
          exact hhead
        · exact ih hmem
    exact if_pos hin
  · rw [List.length_map, List.length_zip, h.length_eq, min_self]

/-- Another step on one axis. -/
theorem forall₂_set {tile : List ℕ} (h : List.Forall₂ (· ∈ ·) tile steps) {i x : ℕ}
    (hx : x ∈ steps.getD i []) : List.Forall₂ (· ∈ ·) (tile.set i x) steps := by
  induction h generalizing i with
  | nil => exact .nil
  | cons hhead htail ih =>
    cases i with
    | zero => exact .cons hx htail
    | succ i => exact .cons hhead (ih hx)

theorem neighbours_spec (prio : TileDict → ℚ) (hsteps : Steps p steps) {s : Search} (hs : s.Sound steps rstep)
    {tile : List ℕ} (h : List.Forall₂ (· ∈ ·) tile steps) :
    ∃ s', p.neighbours steps rstep prio tile s = .ok s' ∧ s'.Sound steps rstep ∧
      s.Grows p.node.getSpaceDim.length s' := by
  obtain ⟨ids, hids, hlength⟩ := dimIds_ok h
  unfold neighbours
  rw [hids, ← hsteps.length, ← hlength]
  have hfold : ∀ (axes : List ℕ) (s : Search), s.Sound steps rstep →
      ∃ s', axes.foldlM (fun s i =>
        let step := steps.getD i []
        let next := ids.getD i 0 + 1
        if next < step.length then p.addToQueue rstep prio s (tile.set i (step.getD next 0))
        else pure s) s = .ok s' ∧ s'.Sound steps rstep ∧ s.Grows axes.length s' := by
    intro axes
    induction axes with
    | nil => exact fun s hs => ⟨s, rfl, hs, .refl 0 s⟩
    | cons i axes ih =>
      intro s hs
      rw [List.foldlM_cons]
      by_cases hnext : ids.getD i 0 + 1 < (steps.getD i []).length
      · have hmem : (steps.getD i []).getD (ids.getD i 0 + 1) 0 ∈ steps.getD i [] := by
          rw [List.getD_eq_getElem _ _ hnext]
          exact List.getElem_mem hnext
        obtain ⟨s', heq, hs', hgrows⟩ :=
          addToQueue_spec prio hsteps hs (forall₂_set h hmem)
        obtain ⟨s'', heq', hs'', hgrows'⟩ := ih s' hs'
        refine ⟨s'', ?_, hs'', ?_⟩
        · simp only [if_pos hnext, heq]
          exact heq'
        · rw [List.length_cons, Nat.add_comm]
          exact hgrows.trans hgrows'
      · obtain ⟨s'', heq', hs'', hgrows'⟩ := ih s hs
        refine ⟨s'', ?_, hs'', ?_⟩
        · simp only [if_neg hnext]
          exact heq'
        · rw [List.length_cons, Nat.add_comm]
          exact (Search.Grows.refl 1 s).trans hgrows'
  obtain ⟨s', heq, hs', hgrows⟩ := hfold (List.range ids.length).reverse s hs
  rw [List.length_reverse, List.length_range] at hgrows
  exact ⟨s', heq, hs', hgrows⟩

/-! ## The loop -/

/-- The rounds that the loop may take: one for each tile that is visited, and the last one. -/
def searchRounds (p : AscendCubePolicy) : ℕ := 2000 + p.node.getSpaceDim.length + 1

/-- The loop ends: what was visited and is no longer in the queue was taken from it in a round. -/
theorem dfsLoop_spec (prio : TileDict → ℚ) (hsteps : Steps p steps) (fuel : ℕ) {s : Search} (hs : s.Sound steps rstep)
    (hvisited : s.visitedTiles.length < p.searchRounds)
    (hfuel : p.searchRounds + s.queue.length ≤ fuel + s.visitedTiles.length) :
    ∃ s', p.dfsLoop steps rstep prio fuel s = some (.ok s') ∧ s'.Sound steps rstep := by
  induction fuel generalizing s with
  | zero => omega
  | succ fuel ih =>
    rw [dfsLoop]
    cases hqueue : s.queue with
    | nil => exact ⟨s, rfl, hs⟩
    | cons td queue =>
      dsimp only
      split
      · exact ⟨s, rfl, hs⟩
      · rename_i hfew
        have hrest : Search.Sound steps rstep ⟨s.visitedTiles, queue⟩ := by
          intro d hd
          refine hs d ?_
          rw [hqueue]
          rcases List.mem_append.mp hd with hd | hd
          · exact List.mem_append_left _ hd
          · exact List.mem_append_right _ (List.mem_cons_of_mem td hd)
        have htd : Proper steps rstep td :=
          hs td (List.mem_append_right _ (hqueue ▸ List.mem_cons_self))
        obtain ⟨s', heq, hs', hgrows⟩ := neighbours_spec prio hsteps hrest htd.mem
        have hvisited' := hgrows.visited
        have hqueue' := hgrows.queue
        rw [hqueue, List.length_cons] at hfuel
        dsimp only at hvisited' hqueue'
        rw [heq]
        exact ih hs' (by unfold searchRounds; omega) (by omega)

/-! ## The initial tile -/

theorem getBaseTile_eq (p : AscendCubePolicy) : p.getBaseTile = [1, 1] := by
  have hdiv : ∀ {a b : ℕ}, 0 < a → 0 < b → p.computeWorkloadPerItem [a, b] = 1 := by
    intro a b ha hb
    have hne : ((a * b : ℕ) : ℚ) ≠ 0 := Nat.cast_ne_zero.mpr (Nat.mul_pos ha hb).ne'
    rw [computeWorkloadPerItem, getOutputTileMap_eq (show [a, b].length = _ from rfl)]
    simpa using div_self hne
  have hbase := hdiv Nat.one_pos Nat.one_pos
  have hM := hdiv p.node.M_pos Nat.one_pos
  have hN := hdiv Nat.one_pos p.node.N_pos
  simp [getBaseTile, MatmulNode.getSpaceDim, hbase, hM, hN]

theorem factorSteps_one {n : ℕ} (hn : 0 < n) : ∃ step, factorSteps n 1 = .ok step ∧
    1 ∈ step ∧ ∀ t ∈ step, 0 < t := by
  have hone : 1 ∈ getAllFactors n := (mem_getAllFactors hn).mpr (one_dvd n)
  have hlt := List.idxOf_lt_length_of_mem hone
  refine ⟨(getAllFactors n).drop ((getAllFactors n).idxOf 1), ?_, ?_, fun t ht => ?_⟩
  · rw [factorSteps, index, if_pos hone]
    rfl
  · rw [List.drop_eq_getElem_cons hlt, List.getElem_idxOf hlt]
    exact List.mem_cons_self
  · exact Nat.pos_of_dvd_of_pos ((mem_getAllFactors hn).mp (List.mem_of_mem_drop ht)) hn

theorem mem_addSimdSizes {step : List ℕ} {t : ℕ} (h : t ∈ step) : t ∈ addSimdSizes step :=
  (List.mem_insertionSort _).mpr (List.mem_append_left _ h)

theorem addSimdSizes_pos {step : List ℕ} (h : ∀ t ∈ step, 0 < t) :
    ∀ t ∈ addSimdSizes step, 0 < t := by
  intro t ht
  rcases List.mem_append.mp ((List.mem_insertionSort _).mp ht) with ht | ht
  · exact h t ht
  · have hsimd : ∀ s ∈ simdFriendlySizes, 0 < s := by decide
    exact hsimd t (List.mem_of_mem_filter ht)

/-- The search ends with proper tiles. -/
theorem dfsSmemTile_spec (prio : TileDict → ℚ) (rstep : ℕ) {fuel : ℕ} (hfuel : p.searchRounds ≤ fuel) :
    ∃ total tds steps, p.dfsSmemTile fuel prio p.getBaseTile rstep = some (.ok (total, tds)) ∧
      Steps p steps ∧ ∀ td ∈ tds, Proper steps rstep td := by
  obtain ⟨m, hm, hm1, hmpos⟩ := factorSteps_one p.node.M_pos
  obtain ⟨n, hn, hn1, hnpos⟩ := factorSteps_one p.node.N_pos
  let steps := [addSimdSizes m, addSimdSizes n]
  have hsteps : Steps p steps := by
    refine ⟨rfl, ?_⟩
    rw [List.forall_mem_cons, List.forall_mem_singleton]
    exact ⟨addSimdSizes_pos hmpos, addSimdSizes_pos hnpos⟩
  have hinit : List.Forall₂ (· ∈ ·) [1, 1] steps :=
    .cons (mem_addSimdSizes hm1) (.cons (mem_addSimdSizes hn1) .nil)
  have hempty : Search.Sound steps rstep ⟨[], []⟩ := fun _ hmem => absurd hmem List.not_mem_nil
  obtain ⟨s, hadd, hs, hgrows⟩ := addToQueue_spec prio hsteps hempty hinit
  have hvisited := hgrows.visited
  have hqueue := hgrows.queue
  simp only [List.length_nil] at hvisited hqueue
  obtain ⟨s', hloop, hs'⟩ := dfsLoop_spec prio hsteps fuel hs
    (by unfold searchRounds; omega) (by omega)
  have hstart : p.searchStart prio [1, 1] rstep = .ok (maxTotalNumel [m, n], steps, s) := by
    have hmap : (p.node.getSpaceDim.zip [1, 1]).mapM (fun q => factorSteps q.1 q.2) =
        .ok [m, n] := by
      simp only [MatmulNode.getSpaceDim, List.zip_cons_cons, List.zip_nil_left, List.mapM_cons,
        List.mapM_nil, hm, hn]
      rfl
    rw [searchStart]
    change (List.mapM (fun q : ℕ × ℕ => factorSteps q.1 q.2) _ >>= _) = _
    rw [hmap]
    change p.addToQueue rstep prio ⟨[], []⟩ [1, 1] >>= _ = _
    rw [hadd]
    rfl
  refine ⟨maxTotalNumel [m, n],
    (s'.visitedTiles.filter (·.valid)).insertionSort fun a b => prio a ≤ prio b, steps, ?_,
    hsteps, fun td htd => ?_⟩
  · rw [getBaseTile_eq, dfsSmemTile, hstart]
    dsimp only
    rw [hloop]
    rfl
  · have hvalid := (List.mem_insertionSort _).mp htd
    exact hs' td (List.mem_append_left _ (List.mem_of_mem_filter hvalid))

end AscendCubePolicy

end TileLangNpuir.Carver
