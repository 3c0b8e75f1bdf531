import TileLangNpuir.SharedMem.Plan

/-!
# What the plan keeps

Along the events of the sequence, the buffers of a free entry have all been freed, and those of an
entry in use too, but for the one that uses it. So a buffer never takes the memory of one that is
live, unless that one is killed at the very leaf that generates it: a leaf frees before it
allocates. And buffers in different layers of an entry are not live at once, unless several entries
with more than one layer were merged.
-/

namespace TileLangNpuir.SharedMem

section Events

variable {s : Stmt} {order : List ℕ}

/-! ## The events -/

/-- What the events of a sequence keep to: indices go up, a buffer is allocated and freed once, and
not freed before it is allocated. -/
def Event.Before : Event → Event → Prop
  | .alloc i b, .alloc j c => i ≤ j ∧ b ≠ c
  | .free i b, .free j c => i ≤ j ∧ b ≠ c
  | .free i b, .alloc j c => i ≤ j ∧ b ≠ c
  | .alloc i _, .free j _ => i ≤ j

theorem alloc_mem_eventsAt {gen kill : List (ℕ × ℕ)} {e : Entry} {i b : ℕ} :
    Event.alloc i b ∈ eventsAt gen kill e ↔
      0 ≤ e.scopePairOffset ∧ (e.stmt, b) ∈ gen ∧ e.pos = i := by
  rw [← mem_filter_stmt]
  simp only [eventsAt, List.mem_append]
  split <;> split <;> simp_all

theorem free_mem_eventsAt {gen kill : List (ℕ × ℕ)} {e : Entry} {i b : ℕ} :
    Event.free i b ∈ eventsAt gen kill e ↔
      e.scopePairOffset ≤ 0 ∧ (e.stmt, b) ∈ kill ∧ e.pos = i := by
  rw [← mem_filter_stmt]
  simp only [eventsAt, List.mem_append]
  split <;> split <;> simp_all <;> tauto

theorem alloc_mem_events {i b : ℕ} :
    Event.alloc i b ∈ events (linearSeq s) order ↔ GenPoint (linearSeq s) b i := by
  simp only [events, List.mem_flatMap, alloc_mem_eventsAt, GenPoint]

theorem free_mem_events {i b : ℕ} :
    Event.free i b ∈ events (linearSeq s) order ↔ KillPoint (linearSeq s) order b i := by
  simp only [events, List.mem_flatMap, free_mem_eventsAt, KillPoint]

theorem pairwise_map_free {i : ℕ} {bs : List ℕ} (h : bs.Nodup) :
    (bs.map (Event.free i)).Pairwise Event.Before := by
  rw [List.pairwise_map]
  exact List.Pairwise.imp (fun hne => ⟨le_rfl, hne⟩) h

theorem pairwise_map_alloc {i : ℕ} {bs : List ℕ} (h : bs.Nodup) :
    (bs.map (Event.alloc i)).Pairwise Event.Before := by
  rw [List.pairwise_map]
  exact List.Pairwise.imp (fun hne => ⟨le_rfl, hne⟩) h

theorem pairwise_eventsAt {gen kill : List (ℕ × ℕ)} {e : Entry} (hgen : (gen.map Prod.snd).Nodup)
    (hkill : (kill.map Prod.snd).Nodup) : (eventsAt gen kill e).Pairwise Event.Before := by
  have hg := nodup_filter_stmt e.stmt hgen
  have hk := nodup_filter_stmt e.stmt hkill
  simp only [eventsAt]
  rw [List.pairwise_append, List.pairwise_append]
  refine ⟨⟨?_, ?_, ?_⟩, ?_, ?_⟩
  · split
    · exact pairwise_map_free (hk.filter _)
    · exact List.Pairwise.nil
  · split
    · exact pairwise_map_alloc hg
    · exact List.Pairwise.nil
  · -- what is freed first is not generated here
    intro x hx y hy
    split at hx
    · split at hy
      · obtain ⟨b, hb, rfl⟩ := List.mem_map.1 hx
        obtain ⟨c, hc, rfl⟩ := List.mem_map.1 hy
        refine ⟨le_rfl, ?_⟩
        rintro rfl
        have hleaf := (List.mem_filter.1 hb).2
        rw [Bool.not_eq_true', decide_eq_false_iff_not] at hleaf
        exact hleaf ⟨by omega, hc⟩
      · cases hy
    · cases hx
  · split
    · exact pairwise_map_free (hk.filter _)
    · exact List.Pairwise.nil
  · intro x hx y hy
    split at hy
    case isFalse => cases hy
    case isTrue hoff =>
      obtain ⟨c, hc, rfl⟩ := List.mem_map.1 hy
      rcases List.mem_append.1 hx with hx | hx
      · rw [if_pos hoff] at hx
        obtain ⟨b, hb, rfl⟩ := List.mem_map.1 hx
        refine ⟨le_rfl, ?_⟩
        rintro rfl
        have hnot := (List.mem_filter.1 hb).2
        rw [(List.mem_filter.1 hc).2] at hnot
        cases hnot
      · split at hx
        · obtain ⟨b, hb, rfl⟩ := List.mem_map.1 hx
          exact le_rfl
        · cases hx

theorem pairwise_events (horder : ∀ e ∈ linearSeq s, e.stmt ∈ order) :
    (events (linearSeq s) order).Pairwise Event.Before := by
  rw [events, List.pairwise_flatMap]
  refine ⟨fun e _ => pairwise_eventsAt nodup_firstOnly reorder_killsOnce.once, ?_⟩
  refine (pairwise_of_consecutive (linear_consecutive s 0 0)).imp_of_mem ?_
  intro e e' he he' hlt x hx y hy
  have hx' : x ∈ events (linearSeq s) order := List.mem_flatMap.2 ⟨e, he, hx⟩
  have hy' : y ∈ events (linearSeq s) order := List.mem_flatMap.2 ⟨e', he', hy⟩
  cases x with
  | free i b =>
    obtain ⟨-, -, rfl⟩ := free_mem_eventsAt.1 hx
    have hkill := free_mem_events.1 hx'
    cases y with
    | free j c =>
      obtain ⟨-, -, rfl⟩ := free_mem_eventsAt.1 hy
      refine ⟨hlt.le, ?_⟩
      rintro rfl
      exact hlt.ne (hkill.unique (free_mem_events.1 hy'))
    | alloc j c =>
      obtain ⟨-, -, rfl⟩ := alloc_mem_eventsAt.1 hy
      refine ⟨hlt.le, ?_⟩
      rintro rfl
      obtain ⟨k, hk, hle⟩ := (alloc_mem_events.1 hy').exists_killPoint horder
      have := hkill.unique hk
      omega
  | alloc i b =>
    obtain ⟨-, -, rfl⟩ := alloc_mem_eventsAt.1 hx
    cases y with
    | free j c =>
      obtain ⟨-, -, rfl⟩ := free_mem_eventsAt.1 hy
      exact hlt.le
    | alloc j c =>
      obtain ⟨-, -, rfl⟩ := alloc_mem_eventsAt.1 hy
      refine ⟨hlt.le, ?_⟩
      rintro rfl
      exact hlt.ne ((alloc_mem_events.1 hx').unique (alloc_mem_events.1 hy'))

end Events

/-! ## Layers -/

/-- The buffers of a layer. -/
def StorageEntry.layer (e : StorageEntry) (m : ℕ) : List ℕ := e.allocs.getD m []

/-- The buffers of all layers. -/
def StorageEntry.buffers (e : StorageEntry) : List ℕ := e.allocs.flatten

theorem mem_flatten_iff {layers : List (List ℕ)} {x : ℕ} :
    x ∈ layers.flatten ↔ ∃ m, x ∈ layers.getD m [] := by
  rw [List.mem_flatten]
  constructor
  · rintro ⟨layer, hl, hx⟩
    obtain ⟨m, hm⟩ := List.mem_iff_getElem?.1 hl
    refine ⟨m, ?_⟩
    rw [List.getD_eq_getElem?_getD, hm]
    exact hx
  · rintro ⟨m, hx⟩
    rw [List.getD_eq_getElem?_getD] at hx
    cases hm : layers[m]? with
    | none =>
      rw [hm] at hx
      cases hx
    | some layer =>
      rw [hm] at hx
      exact ⟨layer, List.mem_of_getElem? hm, hx⟩

theorem getD_zipLayers : ∀ (as bs : List (List ℕ)) (m : ℕ),
    (zipLayers as bs).getD m [] = as.getD m [] ++ bs.getD m []
  | [], bs, m => by simp [zipLayers]
  | a :: as, [], m => by simp [zipLayers]
  | a :: as, b :: bs, 0 => by simp [zipLayers]
  | a :: as, b :: bs, m + 1 => by
    rw [zipLayers, List.getD_cons_succ, List.getD_cons_succ, List.getD_cons_succ]
    exact getD_zipLayers as bs m

theorem mem_foldl_zipLayers {picked : List StorageEntry} {m x : ℕ} : ∀ (layers : List (List ℕ)),
    x ∈ (picked.foldl (fun layers e => zipLayers layers e.allocs) layers).getD m [] ↔
      x ∈ layers.getD m [] ∨ ∃ e ∈ picked, x ∈ e.layer m := by
  induction picked with
  | nil =>
    intro layers
    simp
  | cons e picked ih =>
    intro layers
    rw [List.foldl_cons, ih, getD_zipLayers, List.mem_append]
    simp [StorageEntry.layer, or_assoc]

theorem mem_reuseAllocs {picked : List StorageEntry} {m x : ℕ} :
    x ∈ (reuseAllocs picked).getD m [] ↔ ∃ e ∈ picked, x ∈ e.layer m := by
  rw [reuseAllocs, mem_foldl_zipLayers]
  simp

/-- The buffers of merged entries under a new one. -/
theorem mem_buffers_reuse {picked : List StorageEntry} {e : StorageEntry} {b x : ℕ}
    (hallocs : e.allocs = reuseAllocs picked ++ [[b]]) :
    x ∈ e.buffers ↔ (∃ e' ∈ picked, x ∈ e'.buffers) ∨ x = b := by
  have hreuse : x ∈ (reuseAllocs picked).flatten ↔ ∃ e' ∈ picked, x ∈ e'.buffers := by
    simp only [StorageEntry.buffers, mem_flatten_iff, mem_reuseAllocs]
    constructor
    · rintro ⟨m, e', he', hx⟩
      exact ⟨e', he', m, hx⟩
    · rintro ⟨e', he', m, hx⟩
      exact ⟨m, e', he', hx⟩
  rw [StorageEntry.buffers, hallocs, List.flatten_append, List.mem_append, hreuse]
  simp

/-! ## FindAlloc -/

theorem collect_perm (nbits : ℕ) : ∀ (free : List StorageEntry) (memCt : ℕ),
    free.Perm ((collect nbits memCt free).1 ++ (collect nbits memCt free).2) := by
  intro free
  induction free with
  | nil =>
    intro memCt
    exact List.Perm.refl _
  | cons e rest ih =>
    intro memCt
    rw [collect]
    split
    · exact List.Perm.refl _
    · exact (ih _).cons e

/-- What is taken and what is left make up the free entries. -/
theorem take_perm (nbits : ℕ) (free : List StorageEntry) :
    free.Perm ((take nbits free).1 ++ (take nbits free).2) := by
  rw [take]
  have hsplit : free = (free.takeWhile fun e => e.constNbits < nbits) ++
      free.dropWhile fun e => e.constNbits < nbits := List.takeWhile_append_dropWhile.symm
  generalize (free.takeWhile fun e => decide (e.constNbits < nbits)) = smaller at *
  generalize (free.dropWhile fun e => decide (e.constNbits < nbits)) = larger at *
  have hsmaller : smaller.Perm ((collect nbits 0 smaller.reverse).1 ++
      (collect nbits 0 smaller.reverse).2.reverse) :=
    ((List.reverse_perm smaller).symm.trans (collect_perm nbits _ 0)).trans
      ((List.reverse_perm _).symm.append_left _)
  rw [hsplit]
  cases larger with
  | nil =>
    rw [List.append_nil]
    exact hsmaller
  | cons e rest =>
    dsimp only
    split
    · exact List.perm_middle
    · rw [← List.append_assoc]
      exact hsmaller.append_right _

/-- The free entries that an allocation takes. -/
def Planner.picks (allocs : ℕ → Alloc) (p : Planner) (b : ℕ) : List StorageEntry :=
  if (allocs b).constNbits = 0 then [] else (take (allocs b).constNbits p.constFree).1

/-- An allocation that gets its offset: it is not a small constant, and no symbolic entry is
free. -/
theorem findAlloc_spec {allocs : ℕ → Alloc} {p : Planner} {b : ℕ}
    (hlarge : (allocs b).constNbits ≠ 0 → 32 < (allocs b).constNbits)
    (hfresh : (allocs b).constNbits = 0 → p.symFree = []) :
    ∃ e rest, p.findAlloc allocs b = (e, { p with constFree := rest }) ∧
      p.constFree.Perm (p.picks allocs b ++ rest) ∧
      e.allocs = reuseAllocs (p.picks allocs b) ++ [[b]] ∧
      (e.constNbits = 0 ∨ 32 < e.constNbits) := by
  rw [Planner.findAlloc, Planner.picks]
  by_cases hzero : (allocs b).constNbits = 0
  · rw [if_neg (by omega), if_neg (not_not.2 hzero), if_pos hzero]
    refine ⟨newAlloc b (allocs b).constNbits, p.constFree, ?_, List.Perm.refl _, rfl, .inl hzero⟩
    obtain ⟨allocMap, constFree, symFree⟩ := p
    obtain rfl : symFree = [] := hfresh hzero
    rfl
  · have hlt := hlarge hzero
    rw [if_neg (by omega), if_pos hzero, if_neg hzero]
    have hperm := take_perm (allocs b).constNbits p.constFree
    generalize take (allocs b).constNbits p.constFree = taken at hperm ⊢
    obtain ⟨picked, rest⟩ := taken
    cases picked with
    | nil => exact ⟨_, p.constFree, rfl, List.Perm.refl _, rfl, .inr hlt⟩
    | cons e picked => exact ⟨_, rest, rfl, hperm, rfl, .inr (lt_of_lt_of_le hlt (le_max_left _ _))⟩

/-! ## The invariant -/

/-- The buffers that have been allocated. -/
def allocated (past : List Event) : List ℕ :=
  past.filterMap fun
    | .alloc _ b => some b
    | .free _ _ => none

/-- The buffers that have been freed. -/
def freed (past : List Event) : List ℕ :=
  past.filterMap fun
    | .alloc _ _ => none
    | .free _ b => some b

@[simp] theorem allocated_alloc (past : List Event) (i b : ℕ) :
    allocated (past ++ [.alloc i b]) = allocated past ++ [b] := by
  simp [allocated]

@[simp] theorem allocated_free (past : List Event) (i b : ℕ) :
    allocated (past ++ [.free i b]) = allocated past := by
  simp [allocated]

@[simp] theorem freed_alloc (past : List Event) (i b : ℕ) :
    freed (past ++ [.alloc i b]) = freed past := by
  simp [freed]

@[simp] theorem freed_free (past : List Event) (i b : ℕ) :
    freed (past ++ [.free i b]) = freed past ++ [b] := by
  simp [freed]

theorem mem_allocated {past : List Event} {b : ℕ} :
    b ∈ allocated past ↔ ∃ i, Event.alloc i b ∈ past := by
  simp only [allocated, List.mem_filterMap]
  constructor
  · rintro ⟨x, hx, heq⟩
    cases x with
    | free i c => cases heq
    | alloc i c =>
      cases heq
      exact ⟨i, hx⟩
  · rintro ⟨i, hi⟩
    exact ⟨_, hi, rfl⟩

theorem mem_freed {past : List Event} {b : ℕ} : b ∈ freed past ↔ ∃ i, Event.free i b ∈ past := by
  simp only [freed, List.mem_filterMap]
  constructor
  · rintro ⟨x, hx, heq⟩
    cases x with
    | alloc i c => cases heq
    | free i c =>
      cases heq
      exact ⟨i, hx⟩
  · rintro ⟨i, hi⟩
    exact ⟨_, hi, rfl⟩

/-- Two buffers are live at one index. -/
def LiveAtOnce (s : Stmt) (order : List ℕ) (x y : ℕ) : Prop :=
  ∃ p, Live (linearSeq s) order x p ∧ Live (linearSeq s) order y p

theorem LiveAtOnce.symm {s : Stmt} {order : List ℕ} {x y : ℕ} (h : LiveAtOnce s order x y) :
    LiveAtOnce s order y x := by
  obtain ⟨p, hx, hy⟩ := h
  exact ⟨p, hy, hx⟩

/-- No buffer of one entry is live at once with a buffer in another layer of the other. -/
def LayersApart (s : Stmt) (order : List ℕ) (e e' : StorageEntry) : Prop :=
  ∀ m n, m ≠ n → ∀ x ∈ e.layer m, ∀ y ∈ e'.layer n, ¬ LiveAtOnce s order x y

instance (s : Stmt) (order : List ℕ) : Std.Symm (LayersApart s order) :=
  ⟨fun _ _ h m n hmn x hx y hy hlive => h n m hmn.symm y hy x hx hlive.symm⟩

/-- An entry that ends up in a free list, and whose layers are not live at once. -/
structure Sound (s : Stmt) (order : List ℕ) (e : StorageEntry) : Prop where
  size : e.constNbits = 0 ∨ 32 < e.constNbits
  nonempty : e.allocs ≠ []
  layers : LayersApart s order e e

/-- What holds after the `past` events; `live` are the buffers in use with their entries. -/
structure PlanInv (s : Stmt) (order : List ℕ) (past : List Event) (p : Planner)
    (live : List (ℕ × StorageEntry)) : Prop where
  mapped : ∀ q ∈ live, p.allocMap.lookup q.1 = some q.2
  once : (live.map Prod.fst).Nodup
  inUse : ∀ b, b ∈ live.map Prod.fst ↔ b ∈ allocated past ∧ b ∉ freed past
  held : ∀ b ∈ allocated past, ∃ e ∈ live.map Prod.snd ++ p.allEntry, b ∈ e.buffers
  owner : ∀ q ∈ live, ∀ x ∈ q.2.buffers, x = q.1 ∨ x ∈ freed past
  dead : ∀ e ∈ p.allEntry, ∀ x ∈ e.buffers, x ∈ freed past
  sound : ∀ e ∈ live.map Prod.snd ++ p.allEntry, Sound s order e

/-- What an allocation needs of the state before it: the buffer is not a constant of 32 bits or
less; if it is symbolic, no symbolic entry is free; what is killed at this very index is not in
the entries it takes; and when it takes several, no two of their buffers that come to stand in
different layers are live at once. -/
structure MayAlloc (allocs : ℕ → Alloc) (s : Stmt) (order : List ℕ) (p : Planner) (i b : ℕ) :
    Prop where
  large : (allocs b).constNbits ≠ 0 → 32 < (allocs b).constNbits
  fresh : (allocs b).constNbits = 0 → p.symFree = []
  earlier : ∀ e ∈ p.picks allocs b, ∀ x ∈ e.buffers, ¬ KillPoint (linearSeq s) order x i
  apart : (p.picks allocs b).Pairwise (LayersApart s order)

section Invariant

variable {allocs : ℕ → Alloc} {s : Stmt} {order : List ℕ} {past : List Event} {p : Planner}
  {live : List (ℕ × StorageEntry)} {i b : ℕ}

/-- Merged entries under a new buffer. -/
theorem Sound.reuse {picked : List StorageEntry} {e : StorageEntry}
    (hsize : e.constNbits = 0 ∨ 32 < e.constNbits)
    (hallocs : e.allocs = reuseAllocs picked ++ [[b]]) (hpicked : ∀ e ∈ picked, Sound s order e)
    (hapart : picked.Pairwise (LayersApart s order))
    (hdead : ∀ e ∈ picked, ∀ x ∈ e.buffers, ¬ LiveAtOnce s order x b) : Sound s order e := by
  -- a layer of the new entry is a layer of the merged ones, or the new buffer
  have hlayer : ∀ m x, x ∈ e.layer m →
      (∃ e' ∈ picked, x ∈ e'.layer m ∧ m < (reuseAllocs picked).length) ∨
        x = b ∧ m = (reuseAllocs picked).length := by
    intro m x hx
    rw [StorageEntry.layer, hallocs, List.getD_eq_getElem?_getD] at hx
    rcases Nat.lt_or_ge m (reuseAllocs picked).length with hlt | hge
    · rw [List.getElem?_append_left hlt, ← List.getD_eq_getElem?_getD, mem_reuseAllocs] at hx
      obtain ⟨e', he', hx'⟩ := hx
      exact .inl ⟨e', he', hx', hlt⟩
    · rw [List.getElem?_append_right hge] at hx
      right
      cases hm : m - (reuseAllocs picked).length with
      | zero =>
        rw [hm] at hx
        exact ⟨List.mem_singleton.1 hx, by omega⟩
      | succ k =>
        rw [hm] at hx
        simp at hx
  have hbuffers : ∀ e' ∈ picked, ∀ m, ∀ x ∈ e'.layer m, x ∈ e'.buffers :=
    fun e' _ m x hx => mem_flatten_iff.2 ⟨m, hx⟩
  refine ⟨hsize, by simp [hallocs], ?_⟩
  intro m n hmn x hx y hy hlive
  rcases hlayer m x hx with ⟨e₁, he₁, hx₁, hlt₁⟩ | ⟨rfl, hm⟩
  · rcases hlayer n y hy with ⟨e₂, he₂, hy₂, hlt₂⟩ | ⟨rfl, hn⟩
    · have hall := hapart.forall_of_forall (fun e he => (hpicked e he).layers) he₁ he₂
      exact hall m n hmn x hx₁ y hy₂ hlive
    · exact hdead e₁ he₁ x (hbuffers e₁ he₁ m x hx₁) hlive
  · rcases hlayer n y hy with ⟨e₂, he₂, hy₂, hlt₂⟩ | ⟨rfl, hn⟩
    · exact hdead e₂ he₂ y (hbuffers e₂ he₂ n y hy₂) hlive.symm
    · exact hmn (hm.trans hn.symm)

/-- A buffer that was freed before this index is not live at once with one generated here. -/
theorem not_liveAtOnce {x k : ℕ} (hkill : KillPoint (linearSeq s) order x k) (hlt : k < i)
    (hgen : GenPoint (linearSeq s) b i) : ¬ LiveAtOnce s order x b := by
  rintro ⟨q, ⟨g, k', -, hk', -, hle⟩, ⟨g', k'', hg', -, hle', -⟩⟩
  have := hkill.unique hk'
  have := hgen.unique hg'
  omega

/-- The step lemma of an allocation. -/
theorem PlanInv.alloc (h : PlanInv s order past p live) (hnew : b ∉ allocated past)
    (hnotfreed : b ∉ freed past) (hgen : GenPoint (linearSeq s) b i)
    (hfreed : ∀ x ∈ freed past, ∃ k ≤ i, KillPoint (linearSeq s) order x k)
    (hok : MayAlloc allocs s order p i b) :
    ∃ p' live', p.step allocs (.alloc i b) = some p' ∧
      PlanInv s order (past ++ [.alloc i b]) p' live' := by
  obtain ⟨e, rest, hfind, hperm, hallocs, hsize⟩ := findAlloc_spec hok.large hok.fresh
  have hpicked : ∀ e' ∈ p.picks allocs b, e' ∈ p.allEntry := by
    intro e' he'
    exact List.mem_append_left _ (hperm.symm.subset (List.mem_append_left _ he'))
  have hrest : ∀ e' ∈ rest ++ p.symFree, e' ∈ p.allEntry := by
    intro e' he'
    rcases List.mem_append.1 he' with he' | he'
    · exact List.mem_append_left _ (hperm.symm.subset (List.mem_append_right _ he'))
    · exact List.mem_append_right _ he'
  have hdead : ∀ e' ∈ p.picks allocs b, ∀ x ∈ e'.buffers, ¬ LiveAtOnce s order x b := by
    intro e' he' x hx
    obtain ⟨k, hle, hkill⟩ := hfreed x (h.dead e' (hpicked e' he') x hx)
    have hne : k ≠ i := by
      rintro rfl
      exact hok.earlier e' he' x hx hkill
    exact not_liveAtOnce hkill (by omega) hgen
  have hsound : Sound s order e := by
    apply Sound.reuse hsize hallocs _ hok.apart hdead
    intro e' he'
    exact h.sound e' (List.mem_append_right _ (hpicked e' he'))
  refine ⟨_, (b, e) :: live, by rw [Planner.step, hfind], ?_⟩
  constructor
  · intro q hq
    rcases List.mem_cons.1 hq with rfl | hmem
    · exact List.lookup_cons_self
    · have hne : q.1 ≠ b := by
        intro heq
        exact hnew (heq ▸ ((h.inUse q.1).1 (List.mem_map_of_mem hmem)).1)
      rw [List.lookup_cons, beq_false_of_ne hne]
      exact h.mapped q hmem
  · rw [List.map_cons, List.nodup_cons]
    exact ⟨fun hb => hnew ((h.inUse b).1 hb).1, h.once⟩
  · intro c
    rw [List.map_cons, List.mem_cons, h.inUse, allocated_alloc, freed_alloc, List.mem_append,
      List.mem_singleton]
    constructor
    · rintro (rfl | ⟨hc, hnf⟩)
      · exact ⟨.inr rfl, hnotfreed⟩
      · exact ⟨.inl hc, hnf⟩
    · rintro ⟨hc | rfl, hnf⟩
      · exact .inr ⟨hc, hnf⟩
      · exact .inl rfl
  · intro c hc
    rw [allocated_alloc, List.mem_append, List.mem_singleton] at hc
    have hnewEntry : ∀ x, x ∈ e.buffers →
        ∃ e' ∈ ((b, e) :: live).map Prod.snd ++ (rest ++ p.symFree), x ∈ e'.buffers :=
      fun x hx => ⟨e, List.mem_append_left _ List.mem_cons_self, hx⟩
    rcases hc with hc | rfl
    · obtain ⟨e', he', hce⟩ := h.held c hc
      -- the entry is still there, or its buffers are in the new one
      rcases List.mem_append.1 he' with he' | he'
      · exact ⟨e', List.mem_append_left _ (List.mem_cons_of_mem _ he'), hce⟩
      · rcases List.mem_append.1 he' with he' | he'
        · rcases List.mem_append.1 (hperm.subset he') with he' | he'
          · exact hnewEntry c ((mem_buffers_reuse hallocs).2 (.inl ⟨e', he', hce⟩))
          · exact ⟨e', List.mem_append_right _ (List.mem_append_left _ he'), hce⟩
        · exact ⟨e', List.mem_append_right _ (List.mem_append_right _ he'), hce⟩
    · exact hnewEntry c ((mem_buffers_reuse hallocs).2 (.inr rfl))
  · intro q hq x hx
    rw [freed_alloc]
    rcases List.mem_cons.1 hq with rfl | hq
    · rcases (mem_buffers_reuse hallocs).1 hx with ⟨e', he', hx'⟩ | rfl
      · exact .inr (h.dead e' (hpicked e' he') x hx')
      · exact .inl rfl
    · exact h.owner q hq x hx
  · intro e' he'
    rw [freed_alloc]
    exact h.dead e' (hrest e' he')
  · intro e' he'
    rcases List.mem_append.1 he' with he' | he'
    · rcases List.mem_cons.1 he' with rfl | he'
      · exact hsound
      · exact h.sound e' (List.mem_append_left _ he')
    · exact h.sound e' (List.mem_append_right _ (hrest e' he'))

/-- An entry that is freed goes to one of the free lists. -/
theorem free_spec {e : StorageEntry} (hmap : p.allocMap.lookup b = some e) (he : Sound s order e) :
    ∃ p', p.free b = some p' ∧ p'.allocMap = p.allocMap ∧ p'.allEntry.Perm (e :: p.allEntry) := by
  rw [Planner.free, hmap]
  dsimp only
  rw [if_neg he.nonempty]
  rcases he.size with hzero | hlt
  · rw [if_neg (by omega), if_neg (not_not.2 hzero)]
    refine ⟨_, rfl, rfl, ?_⟩
    rw [Planner.allEntry, Planner.allEntry, ← List.append_assoc]
    exact List.perm_append_singleton _ _
  · rw [if_neg (by omega), if_pos (by omega)]
    refine ⟨_, rfl, rfl, ?_⟩
    exact (List.perm_orderedInsert _ _ _).append_right _

/-- The step lemma of a free. -/
theorem PlanInv.free (h : PlanInv s order past p live) (allocs : ℕ → Alloc) (i : ℕ)
    (halloc : b ∈ allocated past) (hnotfreed : b ∉ freed past) :
    ∃ p' live', p.step allocs (.free i b) = some p' ∧
      PlanInv s order (past ++ [.free i b]) p' live' := by
  obtain ⟨⟨c, e⟩, hq, rfl⟩ := List.mem_map.1 ((h.inUse b).2 ⟨halloc, hnotfreed⟩)
  dsimp only at halloc hnotfreed ⊢
  have hsound : Sound s order e :=
    h.sound e (List.mem_append_left _ (List.mem_map_of_mem (f := Prod.snd) hq))
  obtain ⟨p', hfree, hmap, hentries⟩ := free_spec (h.mapped _ hq) hsound
  obtain ⟨l₁, l₂, rfl⟩ := List.append_of_mem hq
  have hsub : ∀ q ∈ l₁ ++ l₂, q ∈ l₁ ++ (c, e) :: l₂ := by
    intro q hq'
    rcases List.mem_append.1 hq' with hq' | hq'
    · exact List.mem_append_left _ hq'
    · exact List.mem_append_right _ (List.mem_cons_of_mem _ hq')
  have honce := h.once
  rw [List.map_append, List.map_cons, List.nodup_middle, List.nodup_cons,
    ← List.map_append] at honce
  refine ⟨p', l₁ ++ l₂, hfree, ?_⟩
  constructor
  · intro q hq'
    rw [hmap]
    exact h.mapped q (hsub q hq')
  · exact honce.2
  · intro d
    have hd := h.inUse d
    rw [List.map_append, List.map_cons, List.mem_append, List.mem_cons] at hd
    rw [allocated_free, freed_free, List.mem_append, List.mem_singleton, List.map_append,
      List.mem_append]
    constructor
    · intro hmem
      have hne : d ≠ c := by
        rintro rfl
        apply honce.1
        rw [List.map_append]
        exact List.mem_append.2 hmem
      have := hd.1 (hmem.imp_right .inr)
      exact ⟨this.1, fun hf => hf.elim this.2 hne⟩
    · rintro ⟨ha, hnf⟩
      rcases hd.2 ⟨ha, fun hf => hnf (.inl hf)⟩ with hm | rfl | hm
      · exact .inl hm
      · exact absurd (.inr rfl) hnf
      · exact .inr hm
  · intro d hd
    rw [allocated_free] at hd
    obtain ⟨e', he', hde⟩ := h.held d hd
    refine ⟨e', ?_, hde⟩
    rcases List.mem_append.1 he' with he' | he'
    · rw [List.map_append, List.map_cons, List.mem_append, List.mem_cons] at he'
      rw [List.map_append]
      rcases he' with he' | rfl | he'
      · exact List.mem_append_left _ (List.mem_append_left _ he')
      · exact List.mem_append_right _ (hentries.symm.subset List.mem_cons_self)
      · exact List.mem_append_left _ (List.mem_append_right _ he')
    · exact List.mem_append_right _ (hentries.symm.subset (List.mem_cons_of_mem _ he'))
  · intro q hq' x hx
    rw [freed_free]
    exact (h.owner q (hsub q hq') x hx).imp_right (List.mem_append_left _)
  · intro e' he' x hx
    rw [freed_free]
    rcases List.mem_cons.1 (hentries.subset he') with rfl | he'
    · rcases h.owner _ hq x hx with rfl | hf
      · exact List.mem_append_right _ (List.mem_singleton_self _)
      · exact List.mem_append_left _ hf
    · exact List.mem_append_left _ (h.dead e' he' x hx)
  · intro e' he'
    rcases List.mem_append.1 he' with he' | he'
    · obtain ⟨q, hq', rfl⟩ := List.mem_map.1 he'
      exact h.sound _ (List.mem_append_left _ (List.mem_map_of_mem (hsub q hq')))
    · rcases List.mem_cons.1 (hentries.subset he') with rfl | he'
      · exact hsound
      · exact h.sound e' (List.mem_append_right _ he')

/-! ## The run -/

/-- Every allocation of the events finds a state that it may allocate in. -/
def MayPlan (allocs : ℕ → Alloc) (s : Stmt) (order : List ℕ) : Planner → List Event → Prop
  | _, [] => True
  | p, .free i b :: evs =>
    ∀ p', p.step allocs (.free i b) = some p' → MayPlan allocs s order p' evs
  | p, .alloc i b :: evs => MayAlloc allocs s order p i b ∧
    ∀ p', p.step allocs (.alloc i b) = some p' → MayPlan allocs s order p' evs

theorem PlanInv.init : PlanInv s order [] Planner.init [] := by
  constructor <;> simp [Planner.init, Planner.allEntry, allocated]

/-- The run lemma: the invariant is kept up to the end. -/
theorem PlanInv.run (horder : ∀ e ∈ linearSeq s, e.stmt ∈ order) : ∀ {rest past : List Event}
    {p : Planner} {live : List (ℕ × StorageEntry)}, events (linearSeq s) order = past ++ rest →
      PlanInv s order past p live → MayPlan allocs s order p rest →
        ∃ p' live', rest.foldlM (Planner.step allocs) p = some p' ∧
          PlanInv s order (events (linearSeq s) order) p' live' := by
  intro rest
  induction rest with
  | nil =>
    intro past p live hev h _
    rw [hev, List.append_nil]
    exact ⟨p, live, rfl, h⟩
  | cons ev rest ih =>
    intro past p live hev h hmay
    have hev' : events (linearSeq s) order = (past ++ [ev]) ++ rest := by
      rw [hev]
      simp
    have hbefore : ∀ x ∈ past, Event.Before x ev := by
      have hpair := pairwise_events horder
      rw [hev, List.pairwise_append] at hpair
      exact fun x hx => hpair.2.2 x hx ev List.mem_cons_self
    have hmem : ev ∈ events (linearSeq s) order := by
      rw [hev]
      simp
    have hpast : ∀ x ∈ past, x ∈ events (linearSeq s) order := by
      intro x hx
      rw [hev]
      exact List.mem_append_left _ hx
    cases ev with
    | free i b =>
      have hnotfreed : b ∉ freed past := by
        intro hb
        obtain ⟨j, hj⟩ := mem_freed.1 hb
        exact (hbefore _ hj).2 rfl
      -- what is killed has been generated, and that event cannot come later
      have halloc : b ∈ allocated past := by
        obtain ⟨g, hg⟩ := (free_mem_events.1 hmem).exists_genPoint horder
        have hge : Event.alloc g b ∈ events (linearSeq s) order := alloc_mem_events.2 hg
        rw [hev, List.mem_append, List.mem_cons] at hge
        rcases hge with hge | hge | hge
        · exact mem_allocated.2 ⟨g, hge⟩
        · cases hge
        · have hpair := pairwise_events horder
          rw [hev, List.pairwise_append, List.pairwise_cons] at hpair
          exact absurd rfl (hpair.2.1.1 _ hge).2
      obtain ⟨p', live', hstep, hinv⟩ := h.free allocs i halloc hnotfreed
      obtain ⟨p'', live'', hrun, hfinal⟩ := ih hev' hinv (hmay p' hstep)
      exact ⟨p'', live'', by rw [List.foldlM_cons, hstep]; exact hrun, hfinal⟩
    | alloc i b =>
      have hnew : b ∉ allocated past := by
        intro hb
        obtain ⟨j, hj⟩ := mem_allocated.1 hb
        exact (hbefore _ hj).2 rfl
      have hnotfreed : b ∉ freed past := by
        intro hb
        obtain ⟨j, hj⟩ := mem_freed.1 hb
        exact (hbefore _ hj).2 rfl
      have hfreed : ∀ x ∈ freed past, ∃ k ≤ i, KillPoint (linearSeq s) order x k := by
        intro x hx
        obtain ⟨k, hk⟩ := mem_freed.1 hx
        exact ⟨k, (hbefore _ hk).1, free_mem_events.1 (hpast _ hk)⟩
      obtain ⟨p', live', hstep, hinv⟩ :=
        h.alloc hnew hnotfreed (alloc_mem_events.1 hmem) hfreed hmay.1
      obtain ⟨p'', live'', hrun, hfinal⟩ := ih hev' hinv (hmay.2 p' hstep)
      exact ⟨p'', live'', by rw [List.foldlM_cons, hstep]; exact hrun, hfinal⟩

/-- In the end every buffer stands in one of the entries of the free lists. -/
theorem planMemory_spec (horder : ∀ e ∈ linearSeq s, e.stmt ∈ order)
    (hmay : MayPlan allocs s order Planner.init (events (linearSeq s) order)) :
    ∃ p, planMemory allocs (linearSeq s) order = some p ∧
      (∀ b g, GenPoint (linearSeq s) b g → ∃ e ∈ p.allEntry, b ∈ e.buffers) ∧
      ∀ e ∈ p.allEntry, LayersApart s order e e := by
  obtain ⟨p, live, hrun, hinv⟩ := PlanInv.init.run horder (List.nil_append _).symm hmay
  -- what has been allocated has been freed, so that nothing is in use
  have hlive : live = [] := by
    cases live with
    | nil => rfl
    | cons q live =>
      obtain ⟨ha, hnf⟩ := (hinv.inUse q.1).1 (by simp)
      obtain ⟨i, hi⟩ := mem_allocated.1 ha
      obtain ⟨k, hk, -⟩ := (alloc_mem_events.1 hi).exists_killPoint horder
      exact absurd (mem_freed.2 ⟨k, free_mem_events.2 hk⟩) hnf
  subst hlive
  refine ⟨p, hrun, ?_, ?_⟩
  · intro b g hg
    exact hinv.held b (mem_allocated.2 ⟨g, alloc_mem_events.2 hg⟩)
  · intro e he
    exact (hinv.sound e he).layers

end Invariant

end TileLangNpuir.SharedMem
