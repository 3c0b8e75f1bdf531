import Mathlib.Data.List.Infix
import Mathlib.Data.List.Nodup
import Mathlib.Data.Nat.Notation

/-!
# Commit queues

Operations that are issued run in the background. A commit closes a group of them, and groups
complete in the order they were committed, whenever they like. A wait for `count` groups in flight
goes on when no more than the last `count` groups are still running.
-/

namespace TileLangNpuir

namespace CommitQueue

/-- What a program does to a queue. -/
inductive Op (ι : Type) : Type where
  | issue (j : ι)
  | commit
  | wait (count : ℕ)

/-- The committed groups, the oldest first, what was issued since, and how many groups are
complete. -/
structure State (ι : Type) : Type where
  groups : List (List ι)
  pending : List ι
  done : ℕ

variable {ι : Type}

def empty : State ι := ⟨[], [], 0⟩

/-- The executions of a program: a group may complete before every operation. -/
inductive Runs : State ι → List (Op ι) → State ι → Prop where
  | nil {q : State ι} : Runs q [] q
  | complete {q q' : State ι} {ops : List (Op ι)} : q.done < q.groups.length →
      Runs ⟨q.groups, q.pending, q.done + 1⟩ ops q' → Runs q ops q'
  | issue {q q' : State ι} {ops : List (Op ι)} {j : ι} :
      Runs ⟨q.groups, q.pending ++ [j], q.done⟩ ops q' → Runs q (.issue j :: ops) q'
  | commit {q q' : State ι} {ops : List (Op ι)} :
      Runs ⟨q.groups ++ [q.pending], [], q.done⟩ ops q' → Runs q (.commit :: ops) q'
  | wait {q q' : State ι} {ops : List (Op ι)} {count : ℕ} : q.groups.length ≤ q.done + count →
      Runs q ops q' → Runs q (.wait count :: ops) q'

/-- The operation is in a group that is complete. -/
def Completed (q : State ι) (j : ι) : Prop := ∃ g ∈ q.groups.take q.done, j ∈ g

/-- The groups and what is pending after some operations. -/
def issued : List (List ι) × List ι → List (Op ι) → List (List ι) × List ι
  | s, [] => s
  | s, .issue j :: ops => issued (s.1, s.2 ++ [j]) ops
  | s, .commit :: ops => issued (s.1 ++ [s.2], []) ops
  | s, .wait _ :: ops => issued s ops

theorem issued_append (ops ops' : List (Op ι)) (s : List (List ι) × List ι) :
    issued s (ops ++ ops') = issued (issued s ops) ops' := by
  induction ops generalizing s with
  | nil => rfl
  | cons op ops ih => cases op <;> exact ih _

/-- What is committed does not depend on when groups complete. -/
theorem Runs.issued_eq {q q' : State ι} {ops : List (Op ι)} (h : Runs q ops q') :
    (q'.groups, q'.pending) = issued (q.groups, q.pending) ops := by
  induction h with
  | nil => rfl
  | complete _ _ ih => exact ih
  | issue _ ih => exact ih
  | commit _ ih => exact ih
  | wait _ _ ih => exact ih

/-- After a wait no more than `count` groups are in flight. -/
theorem Runs.le_of_wait {q q' : State ι} {ops : List (Op ι)} {count : ℕ}
    (h : Runs q (ops ++ [.wait count]) q') : q'.groups.length ≤ q'.done + count := by
  generalize hall : ops ++ [Op.wait count] = all at h
  induction h generalizing ops with
  | nil => simp at hall
  | complete _ _ ih => exact ih hall
  | issue _ ih =>
    cases ops with
    | nil => cases hall
    | cons op ops => exact ih (List.cons.inj hall).2
  | commit _ ih =>
    cases ops with
    | nil => cases hall
    | cons op ops => exact ih (List.cons.inj hall).2
  | @wait q q' rest c hle hrest ih =>
    cases ops with
    | cons op ops => exact ih (List.cons.inj hall).2
    | nil =>
      -- from the wait on, groups can only complete
      obtain ⟨hc, hnil⟩ := List.cons.inj hall
      injection hc with hc
      have hkeeps : ∀ {q q' : State ι} {ops : List (Op ι)}, Runs q ops q' → ops = [] →
          q.groups.length ≤ q.done + count → q'.groups.length ≤ q'.done + count := by
        intro q q' ops h
        induction h with
        | nil => exact fun _ h => h
        | complete _ _ ih =>
          intro hnil h
          exact ih hnil (by simp only []; omega)
        | issue => exact fun hnil => absurd hnil (List.cons_ne_nil _ _)
        | commit => exact fun hnil => absurd hnil (List.cons_ne_nil _ _)
        | wait => exact fun hnil => absurd hnil (List.cons_ne_nil _ _)
      exact hkeeps hrest hnil.symm (hc ▸ hle)

/-- After a wait everything is complete that was committed before the last `count` groups. -/
theorem Runs.completed {q' : State ι} {ops : List (Op ι)} {count : ℕ}
    (h : Runs empty (ops ++ [.wait count]) q') (first : List (List ι))
    (hfirst : first <+: (issued ([], []) ops).1)
    (hle : first.length + count ≤ (issued ([], []) ops).1.length) {j : ι} {g : List ι}
    (hg : g ∈ first) (hj : j ∈ g) : Completed q' j := by
  have hgroups : q'.groups = (issued ([], []) ops).1 := by
    have := congrArg Prod.fst h.issued_eq
    rwa [issued_append] at this
  have hwait := h.le_of_wait
  refine ⟨g, ?_, hj⟩
  rw [← hgroups] at hfirst hle
  have htaken : first <+: q'.groups.take q'.done := by
    rw [List.prefix_take_iff]
    exact ⟨hfirst, by omega⟩
  exact htaken.subset hg

/-! ## Groups one after the other -/

/-- Operations that are issued one by one, with a commit after those that close a group. -/
def opsOf (closes : ι → Bool) (js : List ι) : List (Op ι) :=
  js.flatMap fun j => .issue j :: if closes j then [.commit] else []

theorem opsOf_append (closes : ι → Bool) (js js' : List ι) :
    opsOf closes (js ++ js') = opsOf closes js ++ opsOf closes js' := List.flatMap_append

/-- A group is closed by its last operation. -/
theorem issued_opsOf_group {closes : ι → Bool} {g : List ι} (hne : g ≠ []) (hnodup : g.Nodup)
    (hcloses : ∀ j ∈ g, closes j = true ↔ g.getLast? = some j) (C : List (List ι)) :
    issued (C, []) (opsOf closes g) = (C ++ [g], []) := by
  obtain ⟨js, j, rfl⟩ := (List.eq_nil_or_concat g).resolve_left hne
  rw [List.concat_eq_append] at hnodup hcloses ⊢
  have hopen : ∀ (js : List ι) (p : List ι), (∀ k ∈ js, closes k = false) →
      issued (C, p) (opsOf closes js) = (C, p ++ js) := by
    intro js
    induction js with
    | nil => exact fun p _ => by rw [List.append_nil]; rfl
    | cons k js ih =>
      intro p hjs
      have hk := hjs k List.mem_cons_self
      have hops : opsOf closes (k :: js) = .issue k :: opsOf closes js := by
        simp only [opsOf, List.flatMap_cons, hk, Bool.false_eq_true, if_false, List.cons_append,
          List.nil_append]
      rw [hops, issued, ih _ fun k hk => hjs k (List.mem_cons_of_mem _ hk)]
      simp
  have hlast : closes j = true := (hcloses j (by simp)).mpr (by simp)
  have hfirst : ∀ k ∈ js, closes k = false := by
    intro k hk
    by_contra hnot
    have hkj := (hcloses k (List.mem_append_left _ hk)).mp (by simpa using hnot)
    rw [List.getLast?_append, List.getLast?_singleton] at hkj
    obtain rfl := Option.some.inj hkj
    exact (List.nodup_append.mp hnodup).2.2 j hk j (List.mem_singleton.mpr rfl) rfl
  rw [opsOf_append, issued_append, hopen js [] hfirst]
  simp [opsOf, hlast, issued]

theorem issued_opsOf {closes : ι → Bool} {groups : List (List ι)} (hne : ∀ g ∈ groups, g ≠ [])
    (hnodup : ∀ g ∈ groups, g.Nodup)
    (hcloses : ∀ g ∈ groups, ∀ j ∈ g, closes j = true ↔ g.getLast? = some j) (C : List (List ι)) :
    issued (C, []) (opsOf closes groups.flatten) = (C ++ groups, []) := by
  induction groups generalizing C with
  | nil => rw [List.append_nil]; rfl
  | cons g groups ih =>
    rw [List.flatten_cons, opsOf_append, issued_append,
      issued_opsOf_group (hne g List.mem_cons_self) (hnodup g List.mem_cons_self)
        (hcloses g List.mem_cons_self),
      ih (fun g hg => hne g (List.mem_cons_of_mem _ hg))
        (fun g hg => hnodup g (List.mem_cons_of_mem _ hg))
        fun g hg => hcloses g (List.mem_cons_of_mem _ hg)]
    simp

end CommitQueue

end TileLangNpuir
