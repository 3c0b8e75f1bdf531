import TileLangNpuir.Carver.ShapeInference

/-!
# What a tile reads

The instances of the blocks that a tile of the target needs, the indices that they read, and what it
means that extents cover them. Where every load of a buffer has a zero in some dimension, shape
inference leaves the dimension out.
-/

namespace TileLangNpuir.Carver.ShapeInference

/-! ## Instances -/

/-- The loads from other blocks and from the inputs. -/
def Statement.inputLoads (dep : Statement) : List (Name × List PrimExpr) :=
  dep.loads.filter fun load => load.1 ∈ dep.inputBuffers

/-- The axes of a block. -/
def Statement.axes (dep : Statement) : List Var := dep.spatialAxis ++ dep.reduceAxis.map (·.var)

/-- The reduction axes have values of one step. -/
def InStep (rstep : ℕ → Option ℕ) (dep : Statement) (ρ : Var → ℤ) : Prop :=
  ∀ ax ∈ dep.reduceAxis, (ax.bound rstep).1 ≤ ρ ax.var ∧ ρ ax.var ≤ (ax.bound rstep).2

/-- The instances that run for a tile: those of the target in the tile, and those that write an
element which another one reads. -/
inductive Runs (deps : List Statement) (t : Statement) (tile : List ℕ) (rstep : ℕ → Option ℕ) :
    Statement → (Var → ℤ) → Prop
  | target {ρ : Var → ℤ} : (∀ p ∈ t.spatialAxis.zip tile, 0 ≤ ρ p.1 ∧ ρ p.1 < (p.2 : ℤ)) →
      InStep rstep t ρ → Runs deps t tile rstep t ρ
  | producer {b c : Statement} {ρ σ : Var → ℤ} {load : Name × List PrimExpr} :
      Runs deps t tile rstep c σ → load ∈ c.inputLoads → b ∈ deps → b.depName = load.1 →
      b.writes.map (·.eval ρ) = load.2.map (·.eval σ) → InStep rstep b ρ →
      Runs deps t tile rstep b ρ

/-- The tile reads a buffer at an index. -/
def Reads (deps : List Statement) (t : Statement) (tile : List ℕ) (rstep : ℕ → Option ℕ)
    (name : Name) (idx : List ℤ) : Prop :=
  ∃ b ρ, Runs deps t tile rstep b ρ ∧ ∃ load ∈ b.inputLoads, load.1 = name ∧
    load.2.map (·.eval ρ) = idx

/-! ## Dimensions -/

/-- Some load of the buffer is not zero in the dimension. -/
def isKept (deps : List Statement) (name : Name) (k : ℕ) : Bool :=
  deps.any fun dep => dep.inputLoads.any fun load =>
    load.1 = name && load.2[k]? ≠ some (Affine.const 0)

/-- The entries at the positions that are kept, from position `k` on. -/
def keepFrom {α : Type} (kept : ℕ → Bool) : ℕ → List α → List α
  | _, [] => []
  | k, a :: l => if kept k then a :: keepFrom kept (k + 1) l else keepFrom kept (k + 1) l

/-- The dimensions of a buffer that are not left out. -/
def keep {α : Type} (deps : List Statement) (name : Name) (l : List α) : List α :=
  keepFrom (isKept deps name) 0 l

/-- The extents describe a box that contains every index read, after a translation. -/
def Covers (deps : List Statement) (t : Statement) (tile : List ℕ) (rstep : ℕ → Option ℕ)
    (name : Name) (extents : List ℤ) : Prop :=
  ∃ corner : List ℤ, corner.length = extents.length ∧ ∀ idx, Reads deps t tile rstep name idx →
    List.Forall₂ (fun i c => c.1 ≤ i ∧ i < c.1 + c.2) (keep deps name idx) (corner.zip extents)

/-- `infer` returns, and the extents that it gives for what the tile reads cover the reads. -/
def CoversReads (An : Analyzer) (deps : List Statement) (t : Statement) (tile : List ℕ)
    (rstep : ℕ → Option ℕ) (targets : Option (List Name)) : Prop :=
  ∃ results bind, infer An deps t.depName tile rstep targets = .ok (results, bind) ∧
    ∀ name, targets.all (name ∈ ·) = true → (∃ idx, Reads deps t tile rstep name idx) →
      ∃ extents, (name, extents) ∈ results ∧ Covers deps t tile rstep name extents

/-! ## Chains of blocks -/

/-- A buffer is computed from the target. -/
inductive Follows (deps : List Statement) (t : Statement) : Name → Prop
  | target {b : Statement} : b ∈ deps → t.depName ∈ b.inputBuffers → Follows deps t b.depName
  | step {b : Statement} {name : Name} : Follows deps t name → b ∈ deps → name ∈ b.inputBuffers →
      Follows deps t b.depName

/-- The target and the blocks that it needs. -/
inductive Feeds (deps : List Statement) (t : Statement) : Statement → Prop
  | target : Feeds deps t t
  | step {b c : Statement} : Feeds deps t c → b ∈ deps → b.depName ∈ c.inputBuffers → Feeds deps t b

/-- A buffer that the target or a block that it needs reads. -/
def Needed (deps : List Statement) (t : Statement) (name : Name) : Prop :=
  ∃ c, Feeds deps t c ∧ name ∈ c.inputBuffers

/-- An acyclic chain of blocks with axes of their own, in which every block is used. Buffers have a
rank. -/
structure Chain (deps : List Statement) (t : Statement) (rank : Name → ℕ) : Prop where
  mem : t ∈ deps
  names : (deps.map (·.depName)).Nodup
  ordered : deps.Pairwise fun a b => b.depName ∉ a.inputBuffers
  noSelf : ∀ a ∈ deps, a.depName ∉ a.inputBuffers
  nodup : ∀ a ∈ deps, a.axes.Nodup
  disjoint : deps.Pairwise fun a b => ∀ v ∈ a.axes, v ∉ b.axes
  vars : ∀ a ∈ deps, ∀ load ∈ a.loads, ∀ e ∈ load.2, ∀ v ∈ e.vars, v ∈ a.axes
  loaded : ∀ a ∈ deps, ∀ name ∈ a.inputBuffers, ∃ load ∈ a.loads, load.1 = name
  rank_loads : ∀ a ∈ deps, ∀ load ∈ a.loads, load.2.length = rank load.1
  rank_writes : ∀ a ∈ deps, a.writes.length = rank a.depName
  extent_pos : ∀ a ∈ deps, ∀ ax ∈ a.reduceAxis, 0 < ax.extent
  used : ∀ a ∈ deps, a = t ∨ Follows deps t a.depName ∨ ∃ b ∈ deps, a.depName ∈ b.inputBuffers

/-- A tile with an entry for each axis, and a reduction step. -/
structure TileOf (t : Statement) (tile : List ℕ) (rstep : ℕ → Option ℕ) : Prop where
  length : tile.length = t.spatialAxis.length
  pos : ∀ n ∈ tile, 0 < n
  step_pos : ∀ name r, rstep name = some r → 0 < r

/-! ## Kept entries -/

section

variable {α β : Type} {kept : ℕ → Bool} {k : ℕ}

theorem keepFrom_map (f : α → β) (k : ℕ) (l : List α) :
    keepFrom kept k (l.map f) = (keepFrom kept k l).map f := by
  induction l generalizing k with
  | nil => rfl
  | cons a l ih =>
    rw [List.map_cons, keepFrom, keepFrom, ih]
    split
    · rfl
    · rfl

/-- The entries of a list are the kept ones and the others. -/
theorem eq_of_keepFrom {l l' : List α} (hlength : l.length = l'.length)
    (hkeep : keepFrom kept k l = keepFrom kept k l')
    (hrest : ∀ i < l.length, kept (k + i) = false → l[i]? = l'[i]?) : l = l' := by
  induction l generalizing l' k with
  | nil => exact (List.length_eq_zero_iff.mp hlength.symm).symm
  | cons a l ih =>
    cases l' with
    | nil => cases hlength
    | cons a' l' =>
      have htail : ∀ i < l.length, kept (k + 1 + i) = false → l[i]? = l'[i]? := by
        intro i hi hdrop
        rw [Nat.add_right_comm] at hdrop
        exact hrest (i + 1) (Nat.succ_lt_succ hi) hdrop
      rw [keepFrom, keepFrom] at hkeep
      split at hkeep
      · obtain ⟨rfl, heq⟩ := List.cons.inj hkeep
        rw [ih (Nat.succ.inj hlength) heq htail]
      · have hhead := hrest 0 (Nat.succ_pos _) (Bool.eq_false_iff.mpr ‹_›)
        obtain rfl : a = a' := Option.some.inj hhead
        rw [ih (Nat.succ.inj hlength) hkeep htail]

theorem length_keepFrom {l : List α} {l' : List β} (h : l.length = l'.length) :
    (keepFrom kept k l).length = (keepFrom kept k l').length := by
  have hmap : l.map (fun _ => ()) = l'.map fun _ => () := by
    rw [List.map_const', List.map_const', h]
  have := congrArg (fun m => (keepFrom kept k m).length) hmap
  simpa only [keepFrom_map, List.length_map] using this

end

theorem keep_map {α β : Type} (deps : List Statement) (name : Name) (f : α → β) (l : List α) :
    keep deps name (l.map f) = (keep deps name l).map f := keepFrom_map f 0 l

/-- Where a dimension is left out, every load is zero. -/
theorem getElem?_of_not_kept {deps : List Statement} {dep : Statement} (hdep : dep ∈ deps)
    {load : Name × List PrimExpr} (hload : load ∈ dep.inputLoads) {k : ℕ}
    (h : isKept deps load.1 k = false) : load.2[k]? = some (Affine.const 0) := by
  by_contra hne
  refine Bool.eq_false_iff.mp h (List.any_eq_true.mpr ⟨dep, hdep, ?_⟩)
  refine List.any_eq_true.mpr ⟨load, hload, ?_⟩
  simpa using hne

/-! ## The order of the blocks -/

section

variable {deps : List Statement} {t : Statement} {rank : Name → ℕ}

/-- The position of the block that computes a buffer. -/
def position (deps : List Statement) (name : Name) : ℕ := (deps.map (·.depName)).idxOf name

theorem Chain.eq_of_depName (h : Chain deps t rank) {a b : Statement} (ha : a ∈ deps)
    (hb : b ∈ deps) (hname : a.depName = b.depName) : a = b :=
  List.inj_on_of_nodup_map h.names ha hb hname

theorem getElem_position {a : Statement} (ha : a ∈ deps) (h : Chain deps t rank) :
    ∃ hlt : position deps a.depName < deps.length, deps[position deps a.depName] = a := by
  have hmem : a.depName ∈ deps.map (·.depName) := List.mem_map_of_mem ha
  have hlt := List.idxOf_lt_length_of_mem hmem
  have hget := List.getElem_idxOf hlt
  rw [List.length_map] at hlt
  rw [List.getElem_map] at hget
  exact ⟨hlt, h.eq_of_depName (List.getElem_mem _) ha hget⟩

/-- A block comes after those that it reads from. -/
theorem Chain.position_lt (h : Chain deps t rank) {a b : Statement} (ha : a ∈ deps) (hb : b ∈ deps)
    (hreads : a.depName ∈ b.inputBuffers) :
    position deps a.depName < position deps b.depName := by
  obtain ⟨hlta, hgeta⟩ := getElem_position ha h
  obtain ⟨hltb, hgetb⟩ := getElem_position hb h
  by_contra hle
  rcases (not_lt.mp hle).lt_or_eq with hlt | heq
  · have := List.pairwise_iff_getElem.mp h.ordered _ _ hltb hlta hlt
    rw [hgeta, hgetb] at this
    exact this hreads
  · have hab : a = b := by
      rw [← hgeta, ← hgetb]
      simp only [heq]
    exact h.noSelf b hb (hab ▸ hreads)

theorem Feeds.mem (h : Chain deps t rank) {a : Statement} (ha : Feeds deps t a) : a ∈ deps := by
  cases ha with
  | target => exact h.mem
  | step _ hmem _ => exact hmem

theorem Feeds.position_le (h : Chain deps t rank) {a : Statement} (ha : Feeds deps t a) :
    position deps a.depName ≤ position deps t.depName := by
  induction ha with
  | target => exact le_rfl
  | step hc hmem hreads ih => exact (h.position_lt hmem (hc.mem h) hreads).le.trans ih

/-- What follows the target comes after it. -/
theorem Follows.position_lt (h : Chain deps t rank) {name : Name} (hname : Follows deps t name) :
    position deps t.depName < position deps name := by
  induction hname with
  | target hmem hreads => exact h.position_lt h.mem hmem hreads
  | step hprev hmem hreads ih =>
    refine ih.trans ?_
    cases hprev with
    | target hmem' _ => exact h.position_lt hmem' hmem hreads
    | step _ hmem' _ => exact h.position_lt hmem' hmem hreads

theorem Follows.exists_mem {name : Name} (hname : Follows deps t name) :
    ∃ b ∈ deps, b.depName = name := by
  cases hname with
  | target hmem _ => exact ⟨_, hmem, rfl⟩
  | step _ hmem _ => exact ⟨_, hmem, rfl⟩

/-- A needed buffer is neither the target's nor computed from it. -/
theorem Needed.before (h : Chain deps t rank) {name : Name} (hname : Needed deps t name) :
    name ≠ t.depName ∧ ¬Follows deps t name := by
  obtain ⟨c, hc, hreads⟩ := hname
  have hle := hc.position_le h
  refine ⟨?_, fun hfollows => ?_⟩
  · rintro rfl
    have := h.position_lt h.mem (hc.mem h) hreads
    omega
  · obtain ⟨b, hb, rfl⟩ := hfollows.exists_mem
    have := h.position_lt hb (hc.mem h) hreads
    have := hfollows.position_lt h
    omega

theorem Runs.feeds {tile : List ℕ} {rstep : ℕ → Option ℕ} {b : Statement} {ρ : Var → ℤ}
    (h : Runs deps t tile rstep b ρ) : Feeds deps t b := by
  induction h with
  | target _ _ => exact .target
  | producer _ hload hb hname _ _ ih =>
    refine ih.step hb ?_
    rw [hname]
    exact of_decide_eq_true (List.mem_filter.mp hload).2

theorem Reads.needed {tile : List ℕ} {rstep : ℕ → Option ℕ} {name : Name} {idx : List ℤ}
    (h : Reads deps t tile rstep name idx) : Needed deps t name := by
  obtain ⟨b, ρ, hruns, load, hload, rfl, -⟩ := h
  exact ⟨b, hruns.feeds, of_decide_eq_true (List.mem_filter.mp hload).2⟩

theorem Chain.disjoint_of_ne (h : Chain deps t rank) {a b : Statement} (ha : a ∈ deps)
    (hb : b ∈ deps) (hne : a ≠ b) {v : Var} (hva : v ∈ a.axes) : v ∉ b.axes := by
  have hsymm : Std.Symm fun x y : Statement => ∀ v ∈ x.axes, v ∉ y.axes :=
    ⟨fun _ _ hxy v hy hx => hxy v hx hy⟩
  exact h.disjoint.forall ha hb hne v hva

end

end TileLangNpuir.Carver.ShapeInference
