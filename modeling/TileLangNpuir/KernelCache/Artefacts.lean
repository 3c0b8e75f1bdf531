import Mathlib.Data.List.Basic
import Mathlib.Logic.Function.Basic

/-!
# The files of a cache entry

A save writes the files of an entry one by one, and each of the writes may fail on its
own without the others noticing. A load asks for the metadata and the kernel object,
and only comes across the launcher library when it imports it.
-/

namespace TileLangNpuir.KernelCache

/-- The files of a kernel. -/
inductive Artefact : Type where
  | kernelMlir
  | wrappedKernel
  | soLauncher
  | metadata
deriving DecidableEq

/-- What becomes of a write. -/
inductive Outcome : Type where
  | complete
  | noFile
  /-- the process ends before it, or the file is never opened -/
  | untouched
deriving DecidableEq

/-- What `_save_npu_kernel_to_disk` reads of a `JitKernel_NPU`; `D` stands for the entries of
`metadata` besides the kernel object and the MLIR text. -/
structure JitKernel (D : Type) : Type where
  mlirContent : Option String
  utilsKernelSrc : List UInt8
  /-- the bytes at `so_launcher_path` -/
  soLauncher : List UInt8
  rest : D

/-- A save of a kernel. A file is known by the save that wrote it. -/
structure Saved (D : Type) : Type where
  number : ℕ
  kernel : JitKernel D

/-- The directory of a key. -/
def Entry (D : Type) : Type := Artefact → Option (Saved D)

/-- A `JitKernel_NPU` built from an entry. -/
structure Loaded (D : Type) : Type where
  mlirContent : Option String
  utilsKernelSrc : List UInt8
  launcher : List UInt8
  rest : D

/-- `_launch` imports a library that is not there. -/
inductive LoadError : Type where
  | launcherMissing
deriving DecidableEq

variable {D Key : Type}

/-- The MLIR text is only written when there is one. -/
def JitKernel.writes (kernel : JitKernel D) : Artefact → Bool
  | .kernelMlir => kernel.mlirContent.isSome
  | _ => true

/-- `_try_save`, of a file that held `old`. -/
def trySave (o : Outcome) (new : Saved D) (old : Option (Saved D)) : Option (Saved D) :=
  match o with
  | .complete => some new
  | .noFile => none
  | .untouched => old

/-- `_save_npu_kernel_to_disk`. -/
def saveNpuKernelToDisk (e : Entry D) (s : Saved D) (o : Artefact → Outcome) : Entry D :=
  fun a => if s.kernel.writes a then trySave (o a) s (e a) else e a

/-- `JitKernel_NPU.from_database`: the kernel object comes out of the metadata. -/
def fromDatabase (e : Entry D) (metadata : JitKernel D) : Except LoadError (Loaded D) :=
  match e .soLauncher with
  | some so =>
    .ok ⟨metadata.mlirContent, metadata.utilsKernelSrc, so.kernel.soLauncher, metadata.rest⟩
  | none => .error .launcherMissing

/-- `_load_npu_kernel_from_disk`. -/
def loadNpuKernelFromDisk (e : Entry D) : Except LoadError (Option (Loaded D)) :=
  match e .wrappedKernel, e .metadata with
  | some w, some m =>
    -- no bytes are as good as no file
    if w.kernel.utilsKernelSrc = [] then .ok none else (fromDatabase e m.kernel).map some
  | _, _ => .ok none

/-- `load_compile_result`. -/
def loadCompileResult (e : Entry D) : Except LoadError (Option (Loaded D)) :=
  if (e .metadata).isSome then loadNpuKernelFromDisk e else .ok none

/-- What happens to the cache directory. -/
inductive DiskEvent (Key D : Type) : Type where
  /-- `save_compile_result` -/
  | save (key : Key) (kernel : JitKernel D) (outcome : Artefact → Outcome)
  /-- `clear_cache` -/
  | clear

/-- The directory after some events, the newest first. -/
def diskAfter [DecidableEq Key] : List (DiskEvent Key D) → Key → Entry D
  | [] => fun _ _ => none
  | .save key kernel o :: earlier =>
    Function.update (diskAfter earlier) key
      (saveNpuKernelToDisk (diskAfter earlier key) ⟨earlier.length, kernel⟩ o)
  | .clear :: _ => fun _ _ => none

/-- The event decides what the file is. -/
def DiskEvent.Touches (key : Key) (a : Artefact) : DiskEvent Key D → Prop
  | .save key' kernel o => key' = key ∧ kernel.writes a = true ∧ o a ≠ .untouched
  | .clear => True

/-- The save wrote the file, and nothing touched it since. -/
def LeftBy (key : Key) (a : Artefact) (es : List (DiskEvent Key D)) (s : Saved D) : Prop :=
  ∃ later earlier o, es = later ++ .save key s.kernel o :: earlier ∧ s.number = earlier.length ∧
    s.kernel.writes a = true ∧ o a = .complete ∧ ∀ ev ∈ later, ¬ ev.Touches key a

theorem leftBy_cons_of_touches {key : Key} {a : Artefact} {ev : DiskEvent Key D}
    {es : List (DiskEvent Key D)} {s : Saved D} (h : ev.Touches key a) :
    LeftBy key a (ev :: es) s ↔
      ∃ o, ev = .save key s.kernel o ∧ s.number = es.length ∧ s.kernel.writes a = true ∧
        o a = .complete := by
  refine ⟨?_, fun ⟨o, hev, hn, hw, ho⟩ => ⟨[], es, o, by rw [hev]; rfl, hn, hw, ho, nofun⟩⟩
  rintro ⟨later, earlier, o, hes, hn, hw, ho, hlater⟩
  cases later with
  | nil =>
    obtain ⟨rfl, rfl⟩ := List.cons.inj hes
    exact ⟨o, rfl, hn, hw, ho⟩
  | cons ev' later =>
    obtain ⟨rfl, -⟩ := List.cons.inj hes
    exact absurd h (hlater _ List.mem_cons_self)

theorem leftBy_cons_of_not_touches {key : Key} {a : Artefact} {ev : DiskEvent Key D}
    {es : List (DiskEvent Key D)} {s : Saved D} (h : ¬ ev.Touches key a) :
    LeftBy key a (ev :: es) s ↔ LeftBy key a es s := by
  refine ⟨?_, ?_⟩
  · rintro ⟨later, earlier, o, hes, hn, hw, ho, hlater⟩
    cases later with
    | nil =>
      obtain ⟨rfl, -⟩ := List.cons.inj hes
      exact absurd ⟨rfl, hw, by rw [ho]; exact nofun⟩ h
    | cons ev' later =>
      obtain ⟨-, rfl⟩ := List.cons.inj hes
      exact ⟨later, earlier, o, rfl, hn, hw, ho, fun x hx => hlater x (List.mem_cons_of_mem _ hx)⟩
  · rintro ⟨later, earlier, o, rfl, hn, hw, ho, hlater⟩
    refine ⟨ev :: later, earlier, o, rfl, hn, hw, ho, fun x hx => ?_⟩
    rcases List.mem_cons.mp hx with rfl | hx
    · exact h
    · exact hlater x hx

/-- A file is what the last event that touched it left. -/
theorem diskAfter_eq_some_iff [DecidableEq Key] (es : List (DiskEvent Key D)) (key : Key)
    (a : Artefact) (s : Saved D) : diskAfter es key a = some s ↔ LeftBy key a es s := by
  induction es with
  | nil =>
    refine ⟨nofun, ?_⟩
    rintro ⟨later, earlier, o, hes, -⟩
    simp at hes
  | cons ev es ih =>
    cases ev with
    | clear =>
      have htouch : (DiskEvent.clear : DiskEvent Key D).Touches key a := trivial
      rw [leftBy_cons_of_touches htouch]
      exact ⟨nofun, nofun⟩
    | save key' kernel o =>
      have htouch : (DiskEvent.save key' kernel o).Touches key a ↔
          key' = key ∧ kernel.writes a = true ∧ o a ≠ .untouched := Iff.rfl
      by_cases hkey : key' = key
      · subst hkey
        rw [diskAfter, Function.update_self, saveNpuKernelToDisk]
        by_cases hw : kernel.writes a = true
        · rw [if_pos hw]
          cases ho : o a with
          | complete =>
            rw [leftBy_cons_of_touches (htouch.mpr ⟨rfl, hw, by rw [ho]; exact nofun⟩), trySave]
            refine ⟨fun h => ?_, ?_⟩
            · obtain rfl := Option.some.inj h
              exact ⟨o, rfl, rfl, hw, ho⟩
            · rintro ⟨o', hev, hn, -, -⟩
              obtain ⟨-, rfl, -⟩ := DiskEvent.save.inj hev
              rw [← hn]
          | noFile =>
            rw [leftBy_cons_of_touches (htouch.mpr ⟨rfl, hw, by rw [ho]; exact nofun⟩), trySave]
            refine ⟨nofun, ?_⟩
            rintro ⟨o', hev, -, -, ho'⟩
            obtain ⟨-, -, rfl⟩ := DiskEvent.save.inj hev
            rw [ho] at ho'
            cases ho'
          | untouched =>
            rw [leftBy_cons_of_not_touches fun h => (htouch.mp h).2.2 ho, trySave]
            exact ih
        · rw [if_neg hw, leftBy_cons_of_not_touches fun h => hw (htouch.mp h).2.1]
          exact ih
      · rw [diskAfter, Function.update_of_ne (Ne.symm hkey),
          leftBy_cons_of_not_touches fun h => hkey (htouch.mp h).1]
        exact ih

/-- One save wrote everything a loaded kernel needs. -/
def Entry.Complete (e : Entry D) : Prop :=
  ∃ s, e .wrappedKernel = some s ∧ e .soLauncher = some s ∧ e .metadata = some s

/-- A load returns a kernel only from a complete entry, and is a miss otherwise. -/
def Entry.LoadsComplete (e : Entry D) : Prop :=
  (∀ kernel, loadCompileResult e = .ok (some kernel) → e.Complete) ∧
    (¬ e.Complete → loadCompileResult e = .ok none)

theorem loadCompileResult_eq_none_of_metadata {e : Entry D} (h : e .metadata = none) :
    loadCompileResult e = .ok none := by
  rw [loadCompileResult, h]
  rfl

theorem loadCompileResult_eq_none_of_wrappedKernel {e : Entry D}
    (h : ∀ w, e .wrappedKernel = some w → w.kernel.utilsKernelSrc = []) :
    loadCompileResult e = .ok none := by
  rw [loadCompileResult, loadNpuKernelFromDisk]
  cases hw : e .wrappedKernel with
  | none => split <;> rfl
  | some w =>
    cases hm : e .metadata with
    | none => rfl
    | some m => exact if_pos (h w hw)

theorem loadCompileResult_ne_none {e : Entry D} {w m : Saved D} (hw : e .wrappedKernel = some w)
    (hne : w.kernel.utilsKernelSrc ≠ []) (hm : e .metadata = some m) :
    loadCompileResult e ≠ .ok none := by
  rw [loadCompileResult, loadNpuKernelFromDisk, hw, hm]
  simp only [Option.isSome_some, if_true, if_neg hne, fromDatabase]
  cases e .soLauncher with
  | none => exact nofun
  | some so => exact nofun

theorem Entry.loadsComplete_iff (e : Entry D) :
    e.LoadsComplete ↔
      ∀ w m, e .wrappedKernel = some w → w.kernel.utilsKernelSrc ≠ [] → e .metadata = some m →
        w = m ∧ e .soLauncher = some w := by
  refine ⟨fun h w m hw hne hm => ?_, fun h => ?_⟩
  · have hc : e.Complete := by
      by_contra hc
      exact loadCompileResult_ne_none hw hne hm (h.2 hc)
    obtain ⟨s, hw', hso, hm'⟩ := hc
    obtain rfl := Option.some.inj (hw.symm.trans hw')
    obtain rfl := Option.some.inj (hm.symm.trans hm')
    exact ⟨rfl, hso⟩
  · have hnone : ¬ e.Complete → loadCompileResult e = .ok none := by
      intro hc
      cases hm : e .metadata with
      | none => exact loadCompileResult_eq_none_of_metadata hm
      | some m =>
        refine loadCompileResult_eq_none_of_wrappedKernel fun w hw => ?_
        by_contra hne
        obtain ⟨rfl, hso⟩ := h w m hw hne hm
        exact hc ⟨w, hw, hso, hm⟩
    refine ⟨fun kernel hload => ?_, hnone⟩
    by_contra hc
    rw [hnone hc] at hload
    cases hload

/-- After any saves, with any of their writes failed or cut off, a load is right exactly
when a non-empty kernel object and the metadata, if both are there, were left by one
save, and the launcher library by the same. -/
theorem loadCompileResult_complete_iff [DecidableEq Key] (es : List (DiskEvent Key D)) (key : Key) :
    (diskAfter es key).LoadsComplete ↔
      ∀ w m, LeftBy key .wrappedKernel es w → w.kernel.utilsKernelSrc ≠ [] →
        LeftBy key .metadata es m → w = m ∧ LeftBy key .soLauncher es w := by
  rw [Entry.loadsComplete_iff]
  simp only [diskAfter_eq_some_iff]

/-- The copy of `main.so` fails, and nothing else. -/
def launcherFails : Artefact → Outcome
  | .soLauncher => .noFile
  | _ => .complete

/-- A first save without `main.so` makes the next load raise. -/
theorem launcherFails_raises :
    loadCompileResult (diskAfter [.save () (⟨none, [1], [2], ()⟩ : JitKernel Unit) launcherFails] ()) =
        .error .launcherMissing ∧
      ¬ (diskAfter [.save () (⟨none, [1], [2], ()⟩ : JitKernel Unit) launcherFails] ()).LoadsComplete := by
  refine ⟨rfl, fun h => ?_⟩
  have hc : ¬ (diskAfter [.save () (⟨none, [1], [2], ()⟩ : JitKernel Unit) launcherFails] ()).Complete :=
    fun ⟨_, _, hso, _⟩ => by cases hso
  cases h.2 hc

end TileLangNpuir.KernelCache
