import TileLangNpuir.KernelCache.Key
import TileLangNpuir.Lib.Runs

/-!
# The kernel cache

`cached_npu` with its two levels: a dictionary of the process, and a directory that
outlives it. Whatever happens in between, a kernel that comes out of the cache was
compiled for a request with the same key.
-/

namespace TileLangNpuir.KernelCache

variable {F C K : Type} [DecidableEq C]

/-- `_memory_cache`, and the entries under `cache_dir`. -/
structure Cache (C K : Type) : Type where
  memory : KeyData C → Option K
  disk : KeyData C → Option K

/-- What can happen to a cache. -/
inductive Event (F C : Type) : Type where
  | request (r : Request F C) (e : Environment) (enabled : Bool)
  /-- a new process -/
  | restart
  /-- `clear_cache` -/
  | clear
  /-- artefacts that cannot be read any more -/
  | lose (k : KeyData C)

/-- The cache, and the requests that were answered. -/
structure World (F C K : Type) : Type where
  cache : Cache C K
  answered : List (Request F C × Environment × K)

section

variable (script : F → String) (numParams : F → ℕ) (compile : CompileInputs F C → K)

/-- `cached_npu`. -/
def cachedNpu (c : Cache C K) (r : Request F C) (e : Environment) (enabled : Bool) :
    Except Failure (K × Cache C K) := do
  let k ← r.compileKey script numParams
  let fresh := (r.compileInputs numParams e).map compile
  if enabled then
    match c.memory k, c.disk k with
    | some kernel, _ => return (kernel, c)
    | none, some kernel => return (kernel, { c with memory := Function.update c.memory k (some kernel) })
    | none, none =>
      let kernel ← fresh
      return (kernel,
        ⟨Function.update c.memory k (some kernel), Function.update c.disk k (some kernel)⟩)
  else
    let kernel ← fresh
    return (kernel, c)

/-- One event. -/
def World.step (w : World F C K) : Event F C → Except Failure (World F C K)
  | .request r e enabled =>
    (cachedNpu script numParams compile w.cache r e enabled).map fun (kernel, cache) =>
      ⟨cache, w.answered ++ [(r, e, kernel)]⟩
  | .restart => .ok { w with cache.memory := fun _ => none }
  | .clear => .ok { w with cache := ⟨fun _ => none, fun _ => none⟩ }
  | .lose k => .ok { w with cache.disk := Function.update w.cache.disk k none }

/-- The kernel was compiled for an answered request with this key. -/
def Compiled (w : World F C K) (k : KeyData C) (kernel : K) : Prop :=
  ∃ r e kernel', (r, e, kernel') ∈ w.answered ∧ r.compileKey script numParams = .ok k ∧
    ∃ i, r.compileInputs numParams e = .ok i ∧ kernel = compile i

end

section

variable {script : F → String} {numParams : F → ℕ} {compile : CompileInputs F C → K}

/-- The cache holds this kernel under this key. -/
def Cache.Holds (c : Cache C K) (k : KeyData C) (kernel : K) : Prop :=
  c.memory k = some kernel ∨ c.disk k = some kernel

theorem Cache.holds_of_insert {c : Cache C K} {k k' : KeyData C} {kernel kernel' : K}
    (h : Cache.Holds ⟨Function.update c.memory k (some kernel), Function.update c.disk k (some kernel)⟩
      k' kernel') : c.Holds k' kernel' ∨ k' = k ∧ kernel' = kernel := by
  by_cases hk : k' = k
  · subst hk
    right
    rcases h with h | h <;> simpa using h.symm
  · left
    simpa only [Cache.Holds, Function.update_of_ne hk] using h

/-- An answer comes out of the cache, or is compiled and kept. -/
theorem cachedNpu_ok {c c' : Cache C K} {r : Request F C} {e : Environment} {enabled : Bool}
    {kernel : K} (h : cachedNpu script numParams compile c r e enabled = .ok (kernel, c')) :
    ∃ k, r.compileKey script numParams = .ok k ∧
      (c.Holds k kernel ∨ ∃ i, r.compileInputs numParams e = .ok i ∧ kernel = compile i) ∧
      ∀ k' kernel', c'.Holds k' kernel' → c.Holds k' kernel' ∨ k' = k ∧ kernel' = kernel := by
  rw [cachedNpu] at h
  cases hkey : r.compileKey script numParams with
  | error f =>
    rw [hkey] at h
    cases h
  | ok k =>
    rw [hkey] at h
    refine ⟨k, rfl, ?_⟩
    replace h : (if enabled = true then _ else _ : Except Failure (K × Cache C K)) = .ok (kernel, c') := h
    split at h
    · split at h
      · rename_i kernel' _ hmem
        obtain ⟨rfl, rfl⟩ := Prod.mk.inj (Except.ok.inj h)
        exact ⟨.inl (.inl hmem), fun _ _ => .inl⟩
      · rename_i kernel' hmem hdisk
        obtain ⟨rfl, rfl⟩ := Prod.mk.inj (Except.ok.inj h)
        refine ⟨.inl (.inr hdisk), fun k' kernel'' hholds => ?_⟩
        by_cases hk : k' = k
        · subst hk
          right
          rcases hholds with hholds | hholds
          · exact ⟨rfl, by simpa using hholds.symm⟩
          · exact ⟨rfl, Option.some.inj (hholds.symm.trans hdisk)⟩
        · left
          simpa only [Cache.Holds, Function.update_of_ne hk] using hholds
      · cases hi : r.compileInputs numParams e with
        | error f =>
          rw [hi] at h
          cases h
        | ok i =>
          rw [hi] at h
          obtain ⟨rfl, rfl⟩ := Prod.mk.inj (Except.ok.inj h)
          exact ⟨.inr ⟨i, rfl, rfl⟩, fun k' kernel' => Cache.holds_of_insert⟩
    · cases hi : r.compileInputs numParams e with
      | error f =>
        rw [hi] at h
        cases h
      | ok i =>
        rw [hi] at h
        obtain ⟨rfl, rfl⟩ := Prod.mk.inj (Except.ok.inj h)
        exact ⟨.inr ⟨i, rfl, rfl⟩, fun _ _ => .inl⟩

variable (script numParams compile) in
/-- Everything in the cache, and every answer, was compiled for its key. -/
structure World.Sound (w : World F C K) : Prop where
  cache : ∀ k kernel, w.cache.Holds k kernel → Compiled script numParams compile w k kernel
  answers : ∀ r e kernel, (r, e, kernel) ∈ w.answered →
    ∃ k, r.compileKey script numParams = .ok k ∧ Compiled script numParams compile w k kernel

omit [DecidableEq C] in
theorem Compiled.mono {w w' : World F C K} (h : ∀ a ∈ w.answered, a ∈ w'.answered) {k : KeyData C}
    {kernel : K} (hc : Compiled script numParams compile w k kernel) :
    Compiled script numParams compile w' k kernel := by
  obtain ⟨r, e, kernel', hmem, hrest⟩ := hc
  exact ⟨r, e, kernel', h _ hmem, hrest⟩

theorem World.step_sound {w w' : World F C K} {ev : Event F C}
    (hw : w.Sound script numParams compile) (h : w.step script numParams compile ev = .ok w') :
    w'.Sound script numParams compile := by
  cases ev with
  | request r e enabled =>
    rw [World.step] at h
    cases hres : cachedNpu script numParams compile w.cache r e enabled with
    | error f =>
      rw [hres] at h
      cases h
    | ok p =>
      obtain ⟨kernel, c'⟩ := p
      rw [hres] at h
      obtain rfl := Except.ok.inj h
      obtain ⟨k, hkey, hfrom, hkept⟩ := cachedNpu_ok hres
      have hmono : ∀ {k kernel'}, Compiled script numParams compile w k kernel' →
          Compiled script numParams compile ⟨c', w.answered ++ [(r, e, kernel)]⟩ k kernel' :=
        Compiled.mono fun a ha => List.mem_append_left _ ha
      have hthis : Compiled script numParams compile ⟨c', w.answered ++ [(r, e, kernel)]⟩ k kernel := by
        rcases hfrom with hheld | ⟨i, hi, hkernel⟩
        · exact hmono (hw.cache k kernel hheld)
        · exact ⟨r, e, kernel, List.mem_append_right _ (List.mem_singleton.mpr rfl), hkey, i, hi, hkernel⟩
      refine ⟨fun k' kernel' hheld => ?_, fun r' e' kernel' hmem => ?_⟩
      · rcases hkept k' kernel' hheld with hheld | ⟨rfl, rfl⟩
        · exact hmono (hw.cache k' kernel' hheld)
        · exact hthis
      · rcases List.mem_append.mp hmem with hmem | hmem
        · obtain ⟨k', hkey', hc⟩ := hw.answers r' e' kernel' hmem
          exact ⟨k', hkey', hmono hc⟩
        · obtain ⟨rfl, rfl, rfl⟩ : r' = r ∧ e' = e ∧ kernel' = kernel := by
            simpa using List.mem_singleton.mp hmem
          exact ⟨k, hkey, hthis⟩
  | restart =>
    obtain rfl := Except.ok.inj h
    refine ⟨fun k kernel hheld => hw.cache k kernel ?_, hw.answers⟩
    exact .inr (hheld.resolve_left fun hnone => by cases hnone)
  | clear =>
    obtain rfl := Except.ok.inj h
    refine ⟨fun k kernel hheld => ?_, hw.answers⟩
    rcases hheld with hheld | hheld <;> cases hheld
  | lose k' =>
    obtain rfl := Except.ok.inj h
    refine ⟨fun k kernel hheld => hw.cache k kernel ?_, hw.answers⟩
    rcases hheld with hheld | hheld
    · exact .inl hheld
    · right
      by_cases hk : k = k'
      · simp [hk] at hheld
      · simpa only [Function.update_of_ne hk] using hheld

/-- From an empty cache, an answer is what compiling the request afresh would give, as
long as the requests with its key find surroundings that are read alike. -/
theorem answers_fresh (hscript : Function.Injective script) {w : World F C K}
    {es : List (Event F C)}
    (hrun : AnyRun (World.step script numParams compile) ⟨⟨fun _ => none, fun _ => none⟩, []⟩ es w)
    (halike : ∀ a ∈ w.answered, ∀ b ∈ w.answered,
      a.1.compileKey script numParams = b.1.compileKey script numParams →
        readSettings a.2.1 = readSettings b.2.1 ∧ (a.1.outIdx = none ↔ b.1.outIdx = none)) :
    ∀ r e kernel, (r, e, kernel) ∈ w.answered →
      ∃ i, r.compileInputs numParams e = .ok i ∧ kernel = compile i := by
  have hsound : w.Sound script numParams compile := by
    refine hrun.invariant (I := fun _ w => w.Sound script numParams compile) ⟨?_, ?_⟩
      fun _ _ _ _ hw _ hok => World.step_sound hw hok
    · intro k kernel hheld
      rcases hheld with hheld | hheld <;> cases hheld
    · intro r e kernel hmem
      cases hmem
  intro r e kernel hmem
  obtain ⟨k, hkey, r₀, e₀, kernel₀, hmem₀, hkey₀, i, hi, hkernel⟩ := hsound.answers r e kernel hmem
  obtain ⟨hsettings, hnone⟩ := halike _ hmem _ hmem₀ (hkey.trans hkey₀.symm)
  have hsame := compileInputs_eq_of_settings hscript hkey hkey₀ hsettings fun _ => hnone
  exact ⟨i, hsame.trans hi, hkernel⟩

end

end TileLangNpuir.KernelCache
