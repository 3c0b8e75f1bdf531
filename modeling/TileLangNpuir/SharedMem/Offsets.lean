import TileLangNpuir.SharedMem.PlanRun

/-!
# The offsets of the plan

Entries stand one after the other, and within a layer so do the buffers, so that two buffers can
only meet in different layers of one entry. The buffers of layer `i` are aligned for the largest
element in layer `i` of any entry; where the entry itself begins is up to the entries before it.
-/

namespace TileLangNpuir.SharedMem

variable {allocs : ℕ → Alloc}

/-! ## Layers -/

theorem le_pad (align n : ℕ) : n ≤ pad align n := Nat.le_add_right _ _

theorem dvd_pad {align : ℕ} (h : 0 < align) (n : ℕ) : align ∣ pad align n := by
  have hlt := Nat.mod_lt n h
  have hsum := Nat.div_add_mod n align
  rw [pad]
  rcases Nat.eq_zero_or_pos (n % align) with hz | hpos
  · rw [hz, Nat.sub_zero, Nat.mod_self, Nat.add_zero]
    exact Nat.dvd_of_mod_eq_zero hz
  · rw [Nat.mod_eq_of_lt (by omega)]
    refine ⟨n / align + 1, ?_⟩
    rw [Nat.mul_add, Nat.mul_one]
    omega

/-- The buffers of a layer, in order. -/
theorem map_fst_placeLayer {align base : ℕ} {layer : List ℕ} : ∀ {inner : ℕ},
    (placeLayer allocs align base inner layer).map Prod.fst = layer := by
  induction layer with
  | nil =>
    intro inner
    rfl
  | cons b bs ih =>
    intro inner
    rw [placeLayer, List.map_cons, ih]

theorem le_foldl_pad {align : ℕ} (layer : List ℕ) : ∀ inner : ℕ,
    inner ≤ layer.foldl (fun inner b => pad align (inner + (allocs b).bytes)) inner := by
  induction layer with
  | nil =>
    intro inner
    exact le_rfl
  | cons b bs ih =>
    intro inner
    have := le_pad align (inner + (allocs b).bytes)
    rw [List.foldl_cons]
    exact le_trans (by omega) (ih _)

/-- A buffer lies within its layer. -/
theorem bounds_of_mem_placeLayer {align base b o : ℕ} {layer : List ℕ} : ∀ {inner : ℕ},
    (b, o) ∈ placeLayer allocs align base inner layer → base + inner ≤ o ∧ o + (allocs b).bytes ≤
      base + layer.foldl (fun inner b => pad align (inner + (allocs b).bytes)) inner := by
  induction layer with
  | nil =>
    intro inner h
    cases h
  | cons c cs ih =>
    intro inner h
    have hpad := le_pad align (inner + (allocs c).bytes)
    rw [List.foldl_cons]
    rcases List.mem_cons.1 h with heq | h
    · obtain ⟨rfl, rfl⟩ := Prod.mk.inj heq
      have hrest : pad align (inner + (allocs b).bytes) ≤ cs.foldl
          (fun inner b => pad align (inner + (allocs b).bytes)) _ := le_foldl_pad cs _
      omega
    · have := ih h
      omega

/-- The buffers of a layer stand one after the other. -/
theorem pairwise_placeLayer {align base : ℕ} {layer : List ℕ} : ∀ {inner : ℕ},
    (placeLayer allocs align base inner layer).Pairwise
      fun x y => x.2 + (allocs x.1).bytes ≤ y.2 := by
  induction layer with
  | nil =>
    intro inner
    exact List.Pairwise.nil
  | cons b bs ih =>
    intro inner
    rw [placeLayer, List.pairwise_cons]
    refine ⟨?_, ih⟩
    rintro ⟨c, o⟩ hc
    have := (bounds_of_mem_placeLayer hc).1
    have := le_pad align (inner + (allocs b).bytes)
    dsimp only
    omega

/-- A buffer stands at a multiple of the alignment of its layer, from the base on. -/
theorem dvd_of_mem_placeLayer {align base b o : ℕ} (halign : 0 < align) {layer : List ℕ} :
    ∀ {inner : ℕ}, align ∣ inner → (b, o) ∈ placeLayer allocs align base inner layer →
      ∃ q, o = base + align * q := by
  induction layer with
  | nil =>
    intro inner _ h
    cases h
  | cons c cs ih =>
    intro inner hdvd h
    rcases List.mem_cons.1 h with heq | h
    · obtain ⟨rfl, rfl⟩ := Prod.mk.inj heq
      obtain ⟨q, rfl⟩ := hdvd
      exact ⟨q, rfl⟩
    · exact ih (dvd_pad halign _) h

/-! ## Entries -/

theorem mem_placeEntry {align : ℕ → ℕ} {base b o : ℕ} {e : StorageEntry} :
    (b, o) ∈ placeEntry allocs align base e ↔ ∃ m layer, e.allocs[m]? = some layer ∧
      (b, o) ∈ placeLayer allocs (align m) base 0 layer := by
  simp only [placeEntry, List.mem_flatMap, Prod.exists, List.mk_mem_zipIdx_iff_getElem?]
  constructor
  · rintro ⟨layer, m, hm, hb⟩
    exact ⟨m, layer, hm, hb⟩
  · rintro ⟨m, layer, hm, hb⟩
    exact ⟨layer, m, hm, hb⟩

theorem map_fst_placeEntry {align : ℕ → ℕ} {base : ℕ} {e : StorageEntry} :
    (placeEntry allocs align base e).map Prod.fst = e.buffers := by
  rw [placeEntry, List.map_flatMap, StorageEntry.buffers]
  have hfst : (fun layer : List ℕ × ℕ =>
      (placeLayer allocs (align layer.2) base 0 layer.1).map Prod.fst) = Prod.fst := by
    funext layer
    exact map_fst_placeLayer
  rw [hfst, List.flatMap_def, List.zipIdx_map_fst]

theorem le_foldl_max {α : Type} (f : α → ℕ) : ∀ (xs : List α) (a : ℕ),
    a ≤ xs.foldl (fun m x => max m (f x)) a ∧
      ∀ x ∈ xs, f x ≤ xs.foldl (fun m x => max m (f x)) a := by
  intro xs
  induction xs with
  | nil =>
    intro a
    simp
  | cons x xs ih =>
    intro a
    obtain ⟨hle, hmem⟩ := ih (max a (f x))
    rw [List.foldl_cons]
    refine ⟨(le_max_left _ _).trans hle, ?_⟩
    intro y hy
    rcases List.mem_cons.1 hy with rfl | hy
    · exact (le_max_right _ _).trans hle
    · exact hmem y hy

theorem layerEnd_le_entryEnd {align : ℕ → ℕ} {e : StorageEntry} {m : ℕ} {layer : List ℕ}
    (h : e.allocs[m]? = some layer) :
    layerEnd allocs (align m) layer ≤ entryEnd allocs align e := by
  have hmem : (layer, m) ∈ e.allocs.zipIdx := List.mk_mem_zipIdx_iff_getElem?.2 h
  exact (le_foldl_max (fun layer : List ℕ × ℕ => layerEnd allocs (align layer.2) layer.1) _ 0).2
    _ hmem

/-- A buffer lies within its entry. -/
theorem bounds_of_mem_placeEntry {align : ℕ → ℕ} {base b o : ℕ} {e : StorageEntry}
    (h : (b, o) ∈ placeEntry allocs align base e) :
    base ≤ o ∧ o + (allocs b).bytes ≤ base + entryEnd allocs align e := by
  obtain ⟨m, layer, hm, hb⟩ := mem_placeEntry.1 h
  have hbounds := bounds_of_mem_placeLayer hb
  have hle : layerEnd allocs (align m) layer ≤ entryEnd allocs align e := layerEnd_le_entryEnd hm
  rw [layerEnd] at hle
  omega

/-- Two buffers have no byte in common. -/
def BytesApart (allocs : ℕ → Alloc) (x y : ℕ × ℕ) : Prop :=
  x.2 + (allocs x.1).bytes ≤ y.2 ∨ y.2 + (allocs y.1).bytes ≤ x.2

instance : Std.Symm (BytesApart allocs) := ⟨fun _ _ h => h.symm⟩

theorem mem_layer_of_mem_placeLayer {align base inner b o m : ℕ} {layer : List ℕ}
    {e : StorageEntry} (hm : e.allocs[m]? = some layer)
    (h : (b, o) ∈ placeLayer allocs align base inner layer) : b ∈ e.layer m := by
  rw [StorageEntry.layer, List.getD_eq_getElem?_getD, hm]
  have hb := List.mem_map_of_mem (f := Prod.fst) h
  rw [map_fst_placeLayer] at hb
  exact hb

theorem apart_of_mem_placeEntry {align : ℕ → ℕ} {base : ℕ} {x y : ℕ × ℕ} {e : StorageEntry}
    (hx : x ∈ placeEntry allocs align base e) (hy : y ∈ placeEntry allocs align base e)
    (hne : x ≠ y) : BytesApart allocs x y ∨ ∃ m n, m ≠ n ∧ x.1 ∈ e.layer m ∧ y.1 ∈ e.layer n := by
  obtain ⟨m, layer, hm, hxm⟩ := mem_placeEntry.1 hx
  obtain ⟨n, layer', hn, hyn⟩ := mem_placeEntry.1 hy
  by_cases hmn : m = n
  · subst hmn
    obtain rfl : layer = layer' := Option.some.inj (hm.symm.trans hn)
    have hpair : (placeLayer allocs (align m) base 0 layer).Pairwise (BytesApart allocs) :=
      pairwise_placeLayer.imp .inl
    exact .inl (hpair.forall hxm hyn hne)
  · exact .inr ⟨m, n, hmn, mem_layer_of_mem_placeLayer hm hxm, mem_layer_of_mem_placeLayer hn hyn⟩

/-! ## The whole plan -/

theorem map_fst_placeAll {align : ℕ → ℕ} {es : List StorageEntry} : ∀ {base : ℕ},
    (placeAll allocs align base es).map Prod.fst = es.flatMap StorageEntry.buffers := by
  induction es with
  | nil =>
    intro base
    rfl
  | cons e es ih =>
    intro base
    rw [placeAll, List.map_append, map_fst_placeEntry, ih, List.flatMap_cons]

/-- A buffer stands in an entry that begins where the entries before it end. -/
theorem exists_of_mem_placeAll {align : ℕ → ℕ} {x : ℕ × ℕ} {es : List StorageEntry} :
    ∀ {base : ℕ}, x ∈ placeAll allocs align base es → ∃ pre e post, es = pre ++ e :: post ∧
      x ∈ placeEntry allocs align (base + sizeOf allocs align pre) e := by
  induction es with
  | nil =>
    intro base h
    cases h
  | cons e es ih =>
    intro base h
    rcases List.mem_append.1 h with h | h
    · exact ⟨[], e, es, rfl, h⟩
    · obtain ⟨pre, e', post, rfl, hx⟩ := ih h
      refine ⟨e :: pre, e', post, rfl, ?_⟩
      rw [sizeOf, List.map_cons, List.sum_cons, ← Nat.add_assoc]
      exact hx

theorem bounds_of_mem_placeAll {align : ℕ → ℕ} {base : ℕ} {x : ℕ × ℕ} {es : List StorageEntry}
    (h : x ∈ placeAll allocs align base es) :
    base ≤ x.2 ∧ x.2 + (allocs x.1).bytes ≤ base + sizeOf allocs align es := by
  obtain ⟨pre, e, post, rfl, hx⟩ := exists_of_mem_placeAll h
  have hbounds := bounds_of_mem_placeEntry hx
  simp only [sizeOf, List.map_append, List.map_cons, List.sum_append, List.sum_cons] at hbounds ⊢
  omega

/-- Two buffers have no byte in common, or stand in different layers of one entry. -/
theorem apart_of_mem_placeAll {align : ℕ → ℕ} {x y : ℕ × ℕ} {es : List StorageEntry} :
    ∀ {base : ℕ}, x ∈ placeAll allocs align base es → y ∈ placeAll allocs align base es →
      x ≠ y → BytesApart allocs x y ∨
        ∃ e ∈ es, ∃ m n, m ≠ n ∧ x.1 ∈ e.layer m ∧ y.1 ∈ e.layer n := by
  induction es with
  | nil =>
    intro base hx
    cases hx
  | cons e es ih =>
    intro base hx hy hne
    rcases List.mem_append.1 hx with hx | hx <;> rcases List.mem_append.1 hy with hy | hy
    · rcases apart_of_mem_placeEntry hx hy hne with h | h
      · exact .inl h
      · exact .inr ⟨e, List.mem_cons_self, h⟩
    · exact .inl (.inl ((bounds_of_mem_placeEntry hx).2.trans (bounds_of_mem_placeAll hy).1))
    · exact .inl (.inr ((bounds_of_mem_placeEntry hy).2.trans (bounds_of_mem_placeAll hx).1))
    · rcases ih hx hy hne with h | ⟨e', he', h⟩
      · exact .inl h
      · exact .inr ⟨e', List.mem_cons_of_mem _ he', h⟩

/-- The rewriter may divide by the element size: the size divides the alignment of the layer, and
the length of the entries before. -/
def Aligned (allocs : ℕ → Alloc) (p : Planner) : Prop :=
  ∀ pre e post, p.allEntry = pre ++ e :: post → ∀ m, ∀ b ∈ e.layer m,
    (allocs b).elemBytes ∣ alignOf allocs p.allEntry m ∧
      (allocs b).elemBytes ∣ sizeOf allocs (alignOf allocs p.allEntry) pre

theorem elemBytes_le_alignOf {all : List StorageEntry} {e : StorageEntry} {m b : ℕ} (he : e ∈ all)
    (hb : b ∈ e.layer m) : (allocs b).elemBytes ≤ alignOf allocs all m :=
  (le_foldl_max (fun b => (allocs b).elemBytes) _ 0).2 b (List.mem_flatMap.2 ⟨e, he, hb⟩)

theorem Aligned.dvd {p : Planner} (h : Aligned allocs p) {b o : ℕ}
    (hb : (b, o) ∈ placeAll allocs (alignOf allocs p.allEntry) 0 p.allEntry) :
    (allocs b).elemBytes ∣ o := by
  obtain ⟨pre, e, post, heq, hb⟩ := exists_of_mem_placeAll hb
  obtain ⟨m, layer, hm, hb⟩ := mem_placeEntry.1 hb
  have hlayer := mem_layer_of_mem_placeLayer hm hb
  obtain ⟨halign, hbase⟩ := h pre e post heq m b hlayer
  have he : e ∈ p.allEntry := by
    rw [heq]
    simp
  have hpos : 0 < alignOf allocs p.allEntry m :=
    (allocs b).elemBytes_pos.trans_le (elemBytes_le_alignOf he hlayer)
  obtain ⟨q, rfl⟩ := dvd_of_mem_placeLayer hpos (dvd_zero _) hb
  rw [Nat.zero_add]
  exact Nat.dvd_add hbase (halign.mul_right q)

theorem mem_of_bufferByteOffset {p : Planner} {b o : ℕ} (h : p.bufferByteOffset allocs b = some o) :
    (b, o) ∈ placeAll allocs (alignOf allocs p.allEntry) 0 p.allEntry := by
  rw [Planner.bufferByteOffset, List.lookup_eq_some_iff] at h
  obtain ⟨l₁, l₂, heq, -⟩ := h
  apply List.mem_reverse.1
  rw [heq]
  simp

theorem exists_bufferByteOffset {p : Planner} {b : ℕ} (h : ∃ e ∈ p.allEntry, b ∈ e.buffers) :
    ∃ o, p.bufferByteOffset allocs b = some o := by
  have hmem : b ∈ (placeAll allocs (alignOf allocs p.allEntry) 0 p.allEntry).map Prod.fst := by
    rw [map_fst_placeAll]
    exact List.mem_flatMap.2 h
  obtain ⟨⟨c, o⟩, hc, rfl⟩ := List.mem_map.1 hmem
  cases hlookup : p.bufferByteOffset allocs c with
  | some o => exact ⟨o, rfl⟩
  | none =>
    rw [Planner.bufferByteOffset, List.lookup_eq_none_iff] at hlookup
    have := hlookup (c, o) (List.mem_reverse.2 hc)
    simp at this

/-- What the plan is for. -/
structure Placed (allocs : ℕ → Alloc) (s : Stmt) (order : List ℕ) (p : Planner) : Prop where
  offset : ∀ b g, GenPoint (linearSeq s) b g → ∃ o, p.bufferByteOffset allocs b = some o ∧
    (allocs b).elemBytes ∣ o ∧ o + (allocs b).bytes ≤ p.mergedAllocSize allocs
  apart : ∀ x y ox oy, x ≠ y → LiveAtOnce s order x y → p.bufferByteOffset allocs x = some ox →
    p.bufferByteOffset allocs y = some oy → BytesApart allocs (x, ox) (y, oy)

/-- A plan whose allocations are all made in a state that permits them, and whose entries are
aligned, never overlaps live buffers. -/
theorem planMemory_placed {s : Stmt} {order : List ℕ}
    (horder : ∀ e ∈ linearSeq s, e.stmt ∈ order)
    (hmay : MayPlan allocs s order Planner.init (events (linearSeq s) order))
    (halign : ∀ p, planMemory allocs (linearSeq s) order = some p → Aligned allocs p) :
    ∃ p, planMemory allocs (linearSeq s) order = some p ∧ Placed allocs s order p := by
  obtain ⟨p, hplan, hall, hlayers⟩ := planMemory_spec horder hmay
  refine ⟨p, hplan, ?_, ?_⟩
  · intro b g hg
    obtain ⟨o, ho⟩ := exists_bufferByteOffset (hall b g hg)
    have hmem := mem_of_bufferByteOffset ho
    have hle := (bounds_of_mem_placeAll hmem).2
    rw [Nat.zero_add] at hle
    exact ⟨o, ho, (halign p hplan).dvd hmem, hle⟩
  · intro x y ox oy hne hlive hx hy
    have hpairs : (x, ox) ≠ (y, oy) := fun heq => hne (congrArg Prod.fst heq)
    rcases apart_of_mem_placeAll (mem_of_bufferByteOffset hx) (mem_of_bufferByteOffset hy) hpairs
      with hapart | ⟨e, he, m, n, hmn, hxm, hyn⟩
    · exact hapart
    · exact absurd hlive (hlayers e he m n hmn x hxm y hyn)

/-- Entries of one layer can be merged. -/
theorem layersApart_of_length_le {s : Stmt} {order : List ℕ} {e e' : StorageEntry}
    (he : e.allocs.length ≤ 1) (he' : e'.allocs.length ≤ 1) : LayersApart s order e e' := by
  have hlayer : ∀ {e : StorageEntry}, e.allocs.length ≤ 1 → ∀ m, ∀ x ∈ e.layer m, m = 0 := by
    intro e he m x hx
    by_contra hm
    rw [StorageEntry.layer, List.getD_eq_getElem?_getD,
      List.getElem?_eq_none (by omega)] at hx
    cases hx
  intro m n hmn x hx y hy
  exact absurd ((hlayer he m x hx).trans (hlayer he' n y hy).symm) hmn

instance (seq : List Entry) (order : List ℕ) (b k : ℕ) : Decidable (KillPoint seq order b k) :=
  inferInstanceAs (Decidable (∃ e ∈ seq, _))

instance (seq : List Entry) (b k : ℕ) : Decidable (GenPoint seq b k) :=
  inferInstanceAs (Decidable (∃ e ∈ seq, _))

instance (allocs : ℕ → Alloc) (x y : ℕ × ℕ) : Decidable (BytesApart allocs x y) :=
  inferInstanceAs (Decidable (_ ∨ _))

/-- A buffer of bytes. -/
def byteBuffer (n : ℕ) : Alloc := ⟨n, true, 8, 1, by decide, by decide⟩

/-- Two buffers that are live together, and a third one for which they make room. -/
def twoThenOne : Stmt :=
  .seq (.leaf [] [0]) (.seq (.leaf [] [1]) (.seq (.leaf [0, 1] []) (.seq (.leaf [] [2])
    (.leaf [2] []))))

def twoThenOneAllocs (b : ℕ) : Alloc := if b = 2 then byteBuffer 8192 else byteBuffer 4096

theorem twoThenOne_mayPlan : MayPlan twoThenOneAllocs twoThenOne [0, 1, 2, 3, 4] Planner.init
    (events (linearSeq twoThenOne) [0, 1, 2, 3, 4]) := by
  have hev : events (linearSeq twoThenOne) [0, 1, 2, 3, 4] = [.alloc 0 0, .alloc 1 1, .free 2 0,
      .free 2 1, .alloc 3 2, .free 4 2] := by decide
  rw [hev]
  refine ⟨⟨by decide, by decide, by decide, List.Pairwise.nil⟩, ?_⟩
  intro p hp
  obtain rfl := Option.some.inj hp
  refine ⟨⟨by decide, by decide, by decide, List.Pairwise.nil⟩, ?_⟩
  intro p hp
  obtain rfl := Option.some.inj hp
  intro p hp
  obtain rfl := Option.some.inj hp
  intro p hp
  obtain rfl := Option.some.inj hp
  refine ⟨⟨by decide, by decide, by decide, ?_⟩, ?_⟩
  · rw [List.pairwise_iff_forall_sublist]
    intro e e' hsub
    have hone : ∀ e ∈ Planner.picks twoThenOneAllocs ⟨[(1, ⟨32768, [[1]]⟩), (0, ⟨32768, [[0]]⟩)],
        [⟨32768, [[0]]⟩, ⟨32768, [[1]]⟩], []⟩ 2, e.allocs.length ≤ 1 := by decide
    exact layersApart_of_length_le (hone e (hsub.subset (by simp)))
      (hone e' (hsub.subset (by simp)))
  · intro p hp
    obtain rfl := Option.some.inj hp
    intro p hp
    trivial

theorem elemBytes_twoThenOneAllocs (b : ℕ) : (twoThenOneAllocs b).elemBytes = 1 := by
  rw [twoThenOneAllocs]
  split <;> rfl

theorem twoThenOne_placed : ∃ p,
    planMemory twoThenOneAllocs (linearSeq twoThenOne) [0, 1, 2, 3, 4] = some p ∧
      Placed twoThenOneAllocs twoThenOne [0, 1, 2, 3, 4] p := by
  apply planMemory_placed (by decide) twoThenOne_mayPlan
  intro p _ pre e post _ m b _
  rw [elemBytes_twoThenOneAllocs]
  exact ⟨one_dvd _, one_dvd _⟩

/-- A buffer that takes the memory of another, beside a third one, and a fourth that takes all. -/
def layersZipped : Stmt :=
  .seq (.leaf [] [0]) (.seq (.leaf [0] []) (.seq (.leaf [] [1]) (.seq (.leaf [] [2])
    (.seq (.leaf [1, 2] []) (.seq (.leaf [] [3]) (.leaf [3] []))))))

def layersZippedAllocs (b : ℕ) : Alloc :=
  if b = 2 then byteBuffer 200 else if b = 3 then byteBuffer 300 else byteBuffer 100

/-- The second and the third buffer are read by one leaf and stand at the same byte. -/
theorem layersZipped_not_placed : ¬ ∃ p,
    planMemory layersZippedAllocs (linearSeq layersZipped) [0, 1, 2, 3, 4, 5, 6] = some p ∧
      Placed layersZippedAllocs layersZipped [0, 1, 2, 3, 4, 5, 6] p := by
  rintro ⟨p, hplan, hplaced⟩
  have hone : Live (linearSeq layersZipped) [0, 1, 2, 3, 4, 5, 6] 1 4 :=
    ⟨2, 4, by decide, by decide, by decide, by decide⟩
  have htwo : Live (linearSeq layersZipped) [0, 1, 2, 3, 4, 5, 6] 2 4 :=
    ⟨3, 4, by decide, by decide, by decide, by decide⟩
  have hoffsets : (planMemory layersZippedAllocs (linearSeq layersZipped) [0, 1, 2, 3, 4, 5, 6]).map
      (fun p => (p.bufferByteOffset layersZippedAllocs 1,
        p.bufferByteOffset layersZippedAllocs 2)) = some (some 0, some 0) := by decide
  rw [hplan] at hoffsets
  obtain ⟨h1, h2⟩ := Prod.mk.inj (Option.some.inj hoffsets)
  have hapart := hplaced.apart 1 2 0 0 (by decide) ⟨4, hone, htwo⟩ h1 h2
  revert hapart
  decide

end TileLangNpuir.SharedMem
