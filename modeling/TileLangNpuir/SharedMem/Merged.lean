import TileLangNpuir.Lib.Placement
import TileLangNpuir.Lib.Schedule
import TileLangNpuir.SharedMem.Offsets

/-!
# Running on the merged buffer

`SharedMemoryRewriter` turns an access to a shared buffer into one to the merged buffer, at the
offset of the buffer. If live buffers do not overlap, and buffers are live as long as their values
are needed, nothing changes for the accesses: each reads what it read before.
-/

namespace TileLangNpuir.SharedMem

/-! ## The rewritten accesses -/

/-- A byte of an element of a buffer. -/
abbrev Byte : Type := (ℕ × ℕ) × ℕ

section

variable (allocs : ℕ → Alloc)

/-- `GetBufferOffset`: in elements of the buffer. -/
def Planner.getBufferOffset (p : Planner) (b : ℕ) : Option ℕ :=
  (p.bufferByteOffset allocs b).map fun offset => offset / (allocs b).elemBytes

/-- `VisitBufferAccess`: the index in the merged buffer, in elements of the old one. -/
def Planner.visitBufferAccess (p : Planner) (l : ℕ × ℕ) : Option ℕ :=
  (p.getBufferOffset allocs l.1).map fun offset => l.2 + offset

/-- Where a byte is in the merged buffer. -/
def Planner.mergedByte (p : Planner) (c : Byte) : ℕ :=
  (p.visitBufferAccess allocs c.1).getD 0 * (allocs c.1.1).elemBytes + c.2

/-- The bytes of some elements. -/
def bytesOf (ls : List (ℕ × ℕ)) : List Byte :=
  ls.flatMap fun l => (List.range (allocs l.1).elemBytes).map fun k => (l, k)

/-- The accesses of an execution, with what they compute. -/
def accesses {V : Type} (value : Access → List V → Byte → V) : Instances Access Byte V where
  reads x := bytesOf allocs x.reads
  writes x := bytesOf allocs x.writes
  value := value

end

section

variable {allocs : ℕ → Alloc} {s : Stmt} {order : List ℕ} {p : Planner}

theorem mem_bytesOf {ls : List (ℕ × ℕ)} {c : Byte} :
    c ∈ bytesOf allocs ls ↔ c.1 ∈ ls ∧ c.2 < (allocs c.1.1).elemBytes := by
  simp only [bytesOf, List.mem_flatMap, List.mem_map, List.mem_range]
  refine ⟨fun ⟨l, hl, k, hk, hc⟩ => ?_, fun ⟨hl, hk⟩ => ⟨c.1, hl, c.2, hk, rfl⟩⟩
  rw [← hc]
  exact ⟨hl, hk⟩

/-- A byte in its buffer: the element is in bounds. -/
def InBuffer (allocs : ℕ → Alloc) (c : Byte) : Prop :=
  c.1.2 < (allocs c.1.1).extent ∧ c.2 < (allocs c.1.1).elemBytes

theorem InBuffer.lt {c : Byte} (h : InBuffer allocs c) :
    c.1.2 * (allocs c.1.1).elemBytes + c.2 < (allocs c.1.1).bytes := by
  calc c.1.2 * (allocs c.1.1).elemBytes + c.2
      < c.1.2 * (allocs c.1.1).elemBytes + (allocs c.1.1).elemBytes := by have := h.2; omega
    _ = (c.1.2 + 1) * (allocs c.1.1).elemBytes := by ring
    _ ≤ (allocs c.1.1).extent * (allocs c.1.1).elemBytes := Nat.mul_le_mul_right _ h.1

/-- Where a byte is in the merged buffer, for a buffer that may be divided by its elements. -/
theorem mergedByte_eq {c : Byte} {o : ℕ} (ho : p.bufferByteOffset allocs c.1.1 = some o)
    (hdvd : (allocs c.1.1).elemBytes ∣ o) :
    p.mergedByte allocs c = o + (c.1.2 * (allocs c.1.1).elemBytes + c.2) := by
  rw [Planner.mergedByte, Planner.visitBufferAccess, Planner.getBufferOffset, ho]
  simp only [Option.map_some, Option.getD_some]
  rw [Nat.add_mul, Nat.div_mul_cancel hdvd]
  omega

/-- Bytes of one buffer have places of their own. -/
theorem eq_of_mergedByte_eq {c d : Byte} (hp : Placed allocs s order p) {g : ℕ}
    (hg : GenPoint (linearSeq s) c.1.1 g) (hc : InBuffer allocs c) (hd : InBuffer allocs d)
    (hbuffer : c.1.1 = d.1.1) (h : p.mergedByte allocs c = p.mergedByte allocs d) : c = d := by
  obtain ⟨o, ho, hdvd, -⟩ := hp.offset _ g hg
  rw [mergedByte_eq ho hdvd, mergedByte_eq (hbuffer ▸ ho) (hbuffer ▸ hdvd)] at h
  obtain ⟨⟨b, i⟩, k⟩ := c
  obtain ⟨⟨b', i'⟩, k'⟩ := d
  obtain rfl : b = b' := hbuffer
  have hwidth := (allocs b).elemBytes_pos
  have hk : k < (allocs b).elemBytes := hc.2
  have hk' : k' < (allocs b).elemBytes := hd.2
  have h : i * (allocs b).elemBytes + k = i' * (allocs b).elemBytes + k' := Nat.add_left_cancel h
  have hi : i = i' := by
    have := congrArg (· / (allocs b).elemBytes) h
    simpa only [Nat.mul_comm _ (allocs b).elemBytes, Nat.mul_add_div hwidth,
      Nat.div_eq_of_lt hk, Nat.div_eq_of_lt hk', Nat.add_zero] using this
  subst hi
  obtain rfl : k = k' := by omega
  rfl

/-- Bytes of buffers that are live at once have places of their own. -/
theorem mergedByte_ne {c d : Byte} (hp : Placed allocs s order p) {pos : ℕ}
    (hc : Live (linearSeq s) order c.1.1 pos) (hd : Live (linearSeq s) order d.1.1 pos)
    (hcb : InBuffer allocs c) (hdb : InBuffer allocs d) (hne : c ≠ d) :
    p.mergedByte allocs c ≠ p.mergedByte allocs d := by
  intro h
  have hlive : LiveAtOnce s order c.1.1 d.1.1 := ⟨pos, hc, hd⟩
  obtain ⟨g, -, hg, -⟩ := hc
  obtain ⟨g', -, hg', -⟩ := hd
  by_cases hbuffer : c.1.1 = d.1.1
  · exact hne (eq_of_mergedByte_eq hp hg hcb hdb hbuffer h)
  · obtain ⟨o, ho, hdvd, -⟩ := hp.offset _ g hg
    obtain ⟨o', ho', hdvd', -⟩ := hp.offset _ g' hg'
    rw [mergedByte_eq ho hdvd, mergedByte_eq ho' hdvd'] at h
    have hlt := hcb.lt
    have hlt' := hdb.lt
    rcases hp.apart _ _ o o' hbuffer hlive ho ho' with hapart | hapart
    · simp only [] at hapart
      omega
    · simp only [] at hapart
      omega

/-! ## Both runs -/

variable {tr : List Access}

theorem Exec.live (horder : ∀ e ∈ linearSeq s, e.stmt ∈ order) (h : Exec 0 s tr) {x : Access}
    (hx : x ∈ tr) {l : ℕ × ℕ} (hl : l ∈ x.reads ++ x.writes) :
    Live (linearSeq s) order l.1 x.pos := (live_iff horder).mpr (h.touched hx hl)

/-- Where the last value of a buffer was written, nothing was written since. -/
theorem intact_of_covers {V : Type} (horder : ∀ e ∈ linearSeq s, e.stmt ∈ order)
    (hexec : Exec 0 s tr) (hcovers : Covers s order tr) (hp : Placed allocs s order p)
    (hbounds : ∀ x ∈ tr, ∀ l ∈ x.reads ++ x.writes, l.2 < (allocs l.1).extent)
    (value : Access → List V → Byte → V) {a b : List Access} {r : Access} (htr : tr = a ++ r :: b)
    {c : Byte} (hc : c ∈ bytesOf allocs r.reads) (hwritten : ∃ w ∈ a, c.1 ∈ w.writes) :
    (accesses allocs value).Intact (p.mergedByte allocs) a c := by
  obtain ⟨hread, hwidth⟩ := mem_bytesOf.mp hc
  obtain ⟨a, w, mid, rfl, hw, hmid⟩ := exists_last_of_exists hwritten
  have hflow : Flows tr c.1 w mid r := by
    refine ⟨⟨a, b, ?_⟩, hw, hread, hmid⟩
    rw [htr]
    simp only [List.append_assoc, List.cons_append, List.nil_append]
  have hrtr : r ∈ tr := hflow.run.subset (by simp)
  have hcb : InBuffer allocs c :=
    ⟨hbounds r hrtr c.1 (List.mem_append_left _ hread), hwidth⟩
  refine ⟨a, w, mid, rfl, mem_bytesOf.mpr ⟨hw, hwidth⟩, fun x hx d hd hne => ?_⟩
  obtain ⟨hdwrites, hdwidth⟩ := mem_bytesOf.mp hd
  have hxtr : x ∈ tr := hflow.run.subset (List.mem_append_left [r] hx)
  have hdmem : d.1 ∈ x.reads ++ x.writes := List.mem_append_right _ hdwrites
  -- the buffer is live at its write, and by coverage at what comes in between
  have hlive : Live (linearSeq s) order c.1.1 x.pos := by
    rcases List.mem_cons.mp hx with rfl | hx
    · exact hexec.live horder hxtr (List.mem_append_right _ hw)
    · exact hcovers c.1 w mid r hflow x hx
  exact mergedByte_ne hp (hexec.live horder hxtr hdmem) hlive ⟨hbounds x hxtr d.1 hdmem, hdwidth⟩
    hcb hne

theorem mergedByte_lt (horder : ∀ e ∈ linearSeq s, e.stmt ∈ order) (hexec : Exec 0 s tr)
    (hp : Placed allocs s order p) {x : Access} (hx : x ∈ tr) {c : Byte}
    (hc : c.1 ∈ x.reads ++ x.writes) (hcb : InBuffer allocs c) :
    (p.visitBufferAccess allocs c.1).isSome = true ∧
      p.mergedByte allocs c < p.mergedAllocSize allocs := by
  obtain ⟨g, -, hg, -⟩ := hexec.live horder hx hc
  obtain ⟨o, ho, hdvd, hle⟩ := hp.offset _ g hg
  refine ⟨by rw [Planner.visitBufferAccess, Planner.getBufferOffset, ho]; rfl, ?_⟩
  have := hcb.lt
  rw [mergedByte_eq ho hdvd]
  omega

end

/-! ## Two buffers in one place -/

/-- A buffer after another one. -/
def oneAfterOther : Stmt :=
  .seq (.leaf [] [0]) (.seq (.leaf [0] []) (.seq (.leaf [] [1]) (.leaf [1] [])))

def oneAfterOtherRun : List Access :=
  [⟨0, [], [(0, 7)]⟩, ⟨1, [(0, 7)], []⟩, ⟨2, [], [(1, 7)]⟩, ⟨3, [(1, 7)], []⟩]

/-- The second buffer takes the entry of the first. -/
def oneAfterOtherPlan : Planner :=
  ⟨[(1, ⟨512, [[0], [1]]⟩), (0, ⟨512, [[0]]⟩)], [⟨512, [[0], [1]]⟩], []⟩

theorem oneAfterOther_live {b pos : ℕ} (h : Live (linearSeq oneAfterOther) [0, 1, 2, 3] b pos) :
    b = 0 ∧ pos ≤ 1 ∨ b = 1 ∧ 2 ≤ pos := by
  obtain ⟨g, k, ⟨e, he, hopens, hgen, hg⟩, ⟨e', he', hcloses, hkill, hk⟩, hgp, hpk⟩ := h
  have hgens : ∀ e ∈ linearSeq oneAfterOther, ∀ q ∈ genPoints (linearSeq oneAfterOther),
      e.stmt = q.1 → q.2 = 0 ∨ q.2 = 1 ∧ 2 ≤ e.pos := by decide
  have hkills : ∀ e ∈ linearSeq oneAfterOther,
      ∀ q ∈ reorder (linearSeq oneAfterOther) [0, 1, 2, 3],
      e.stmt = q.1 → q.2 = 0 ∧ e.pos ≤ 1 ∨ q.2 = 1 := by decide
  rcases hkills e' he' (e'.stmt, b) hkill rfl with ⟨hb, hpos⟩ | hb
  · exact .inl ⟨hb, by omega⟩
  · refine .inr ⟨hb, ?_⟩
    rcases hgens e he (e.stmt, b) hgen rfl with hb' | ⟨-, hpos⟩
    · exact absurd (hb.symm.trans hb') Nat.one_ne_zero
    · omega

theorem oneAfterOther_placed :
    Placed (fun _ => byteBuffer 64) oneAfterOther [0, 1, 2, 3] oneAfterOtherPlan := by
  refine ⟨fun b g hg => ⟨0, ?_, dvd_zero _, by decide⟩, fun x y ox oy hne hlive _ _ => ?_⟩
  · obtain ⟨e, he, -, hgen, -⟩ := hg
    have hgens : ∀ q ∈ genPoints (linearSeq oneAfterOther),
        oneAfterOtherPlan.bufferByteOffset (fun _ => byteBuffer 64) q.2 = some 0 := by decide
    exact hgens (e.stmt, b) hgen
  · obtain ⟨pos, hx, hy⟩ := hlive
    have := oneAfterOther_live hx
    have := oneAfterOther_live hy
    omega

theorem oneAfterOther_covers : Covers oneAfterOther [0, 1, 2, 3] oneAfterOtherRun := by
  intro l w mid r hflow x hx
  -- the run goes through the sequence once
  have hpos : oneAfterOtherRun.Pairwise fun x y => x.pos < y.pos := by decide
  have hrun := hpos.sublist hflow.run.sublist
  have hwx := (List.pairwise_cons.mp hrun).1 x (List.mem_append_left [r] hx)
  have hxr := (List.pairwise_append.mp (List.pairwise_cons.mp hrun).2).2.2 x hx r
    (List.mem_singleton.mpr rfl)
  have hw : w ∈ oneAfterOtherRun := hflow.run.subset List.mem_cons_self
  have hr : r ∈ oneAfterOtherRun := hflow.run.subset (by simp)
  have hnone : ∀ w ∈ oneAfterOtherRun, ∀ r ∈ oneAfterOtherRun, ∀ l ∈ w.writes, l ∈ r.reads →
      r.pos ≤ w.pos + 1 := by decide
  have := hnone w hw r hr l hflow.written hflow.read
  omega

end TileLangNpuir.SharedMem
