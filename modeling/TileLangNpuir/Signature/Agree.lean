import Mathlib.Data.List.Forall2
import TileLangNpuir.Lib.Layers
import TileLangNpuir.Signature.Parse

/-!
# What the launcher reads

The text is cut back into the printed arguments, and the words of an argument are its
name, `memref`, and the element type with an `x` in front, or the type alone. At most one
of the recognised names is among them, in whatever order they are tried; none is when
the type is not recognised, and the argument is dropped.
-/

namespace TileLangNpuir.Signature

/-! ## Cutting the text -/

/-- An argument as it is printed: no comma, as many brackets closed as opened, and no space at
either end. -/
structure Piece (p : Text) : Prop where
  comma : ',' ∉ p
  paren : ')' ∉ p
  brace : p.count '{' = p.count '}'
  angle : p.count '<' = p.count '>'
  head : ∀ c ∈ p.head?, isSpace c = false
  last : ∀ c ∈ p.getLast?, isSpace c = false
  ne_nil : p ≠ []

theorem foldl_step_of_no_comma : ∀ {p : Text}, ',' ∉ p → ∀ s : Segments,
    p.foldl Segments.step s =
      ⟨s.params, s.current ++ p, s.brace + p.count '{' - p.count '}',
        s.angle + p.count '<' - p.count '>'⟩ := by
  intro p
  induction p with
  | nil =>
    intro _ s
    simp
  | cons c p ih =>
    intro hcomma s
    obtain ⟨hc, hp⟩ := not_or.mp (List.mem_cons.not.mp hcomma)
    have hstep : s.step c = ⟨s.params, s.current ++ [c],
        if c = '{' then s.brace + 1 else if c = '}' then s.brace - 1 else s.brace,
        if c = '<' then s.angle + 1 else if c = '>' then s.angle - 1 else s.angle⟩ := by
      rw [Segments.step, if_neg fun h => hc h.1.symm]
    rw [List.foldl_cons, ih hp, hstep]
    simp only [List.append_assoc, List.singleton_append, List.count_cons, beq_iff_eq, Segments.mk.injEq,
      true_and]
    refine ⟨?_, ?_⟩
    · by_cases hopen : c = '{'
      · subst hopen
        simp
        omega
      · by_cases hclose : c = '}'
        · subst hclose
          simp
          omega
        · simp [hopen, hclose]
    · by_cases hopen : c = '<'
      · subst hopen
        simp
        omega
      · by_cases hclose : c = '>'
        · subst hclose
          simp
          omega
        · simp [hopen, hclose]

/-- A space in front of an argument is stripped. -/
theorem Piece.strip_append {p : Text} (h : Piece p) {cur : Text} (hcur : ∀ c ∈ cur, isSpace c = true) :
    strip (cur ++ p) = p := by
  have hfront : (cur ++ p).dropWhile isSpace = p := by
    rw [List.dropWhile_append_of_pos hcur]
    cases p with
    | nil => exact absurd rfl h.ne_nil
    | cons c p => rw [List.dropWhile_cons_of_neg (by simp [h.head c rfl])]
  rw [strip, hfront]
  cases hrev : p.reverse with
  | nil => exact absurd (List.reverse_eq_nil_iff.mp hrev) h.ne_nil
  | cons c q =>
    have hlast : p.getLast? = some c := by
      rw [← List.head?_reverse, hrev]
      rfl
    rw [List.dropWhile_cons_of_neg (by simp [h.last c hlast]), ← hrev, List.reverse_reverse]

/-- The commas between the arguments cut the text where they were put. -/
theorem foldl_step_intercalate : ∀ {ps : List Text}, ps ≠ [] → (∀ p ∈ ps, Piece p) →
    ∀ (acc : List Text) (cur : Text), (∀ c ∈ cur, isSpace c = true) →
      ∃ s : Segments, (", ".toList.intercalate ps).foldl Segments.step ⟨acc, cur, 0, 0⟩ = s ∧
        s.current ≠ [] ∧ s.params ++ [strip s.current] = acc ++ ps := by
  intro ps
  induction ps with
  | nil => exact fun h => absurd rfl h
  | cons p ps ih =>
    intro _ hps acc cur hcur
    have hp := hps p List.mem_cons_self
    have hfold : p.foldl Segments.step ⟨acc, cur, 0, 0⟩ = ⟨acc, cur ++ p, 0, 0⟩ := by
      rw [foldl_step_of_no_comma hp.comma, hp.brace, hp.angle]
      simp
    cases ps with
    | nil =>
      rw [List.intercalate_singleton, hfold]
      refine ⟨_, rfl, ?_, ?_⟩
      · exact List.append_ne_nil_of_right_ne_nil _ hp.ne_nil
      · rw [hp.strip_append hcur]
    | cons q qs =>
      have hjoin : ", ".toList.intercalate (p :: q :: qs) =
          p ++ ',' :: ' ' :: ", ".toList.intercalate (q :: qs) := by
        rw [List.intercalate_cons_cons]
        simp
      rw [hjoin, List.foldl_append, hfold, List.foldl_cons, List.foldl_cons]
      have hcomma : Segments.step ⟨acc, cur ++ p, 0, 0⟩ ',' = ⟨acc ++ [p], [], 0, 0⟩ := by
        rw [Segments.step, if_pos ⟨rfl, rfl, rfl⟩, hp.strip_append hcur]
      have hspace : Segments.step ⟨acc ++ [p], [], 0, 0⟩ ' ' = ⟨acc ++ [p], [' '], 0, 0⟩ := rfl
      rw [hcomma, hspace]
      obtain ⟨s, hs, hne, happ⟩ := ih (List.cons_ne_nil q qs)
        (fun r hr => hps r (List.mem_cons_of_mem _ hr)) (acc ++ [p]) [' '] (List.forall_mem_singleton.mpr (by decide))
      refine ⟨s, hs, hne, ?_⟩
      rw [happ, List.append_assoc]
      rfl

theorem segment_intercalate {ps : List Text} (hne : ps ≠ []) (hps : ∀ p ∈ ps, Piece p) :
    segment (", ".toList.intercalate ps) = ps := by
  obtain ⟨s, hs, hcur, happ⟩ := foldl_step_intercalate hne hps [] [] nofun
  rw [segment, hs]
  simp only [if_neg hcur]
  rw [happ, List.nil_append]

/-! ## The printed arguments -/

/-- What follows the number of an argument. -/
def FuncArg.tail (a : FuncArg) : Text :=
  ": ".toList ++
    (if a.isMemref then "memref<?x".toList ++ a.type.text ++ ">".toList else a.type.text) ++ a.attr

theorem printArg_eq (a : FuncArg) (n : ℕ) :
    printArg a n = "%arg".toList ++ Nat.toDigits 10 n ++ a.tail := by
  delta printArg FuncArg.tail
  simp only [List.append_assoc]

/-- An argument the code generator makes. -/
def FuncArg.Generated (a : FuncArg) : Prop :=
  a.attr = [] ∨ a.attr = argTypeAttr "sync_block_lock".toList ∨
    a.attr = argTypeAttr "workspace".toList ∨ a.attr = argTypeAttr "ffts_base_address".toList

theorem isDigit_of_mem_toDigits {c : Char} {n : ℕ} (h : c ∈ Nat.toDigits 10 n) : c.isDigit = true :=
  Nat.isDigit_of_mem_toDigits (by decide) (by decide) h

/-- No digit is one of the characters that matter. -/
theorem not_mem_toDigits {c : Char} (hc : c.isDigit = false) (n : ℕ) : c ∉ Nat.toDigits 10 n := by
  intro h
  rw [isDigit_of_mem_toDigits h] at hc
  cases hc

theorem FuncArg.Generated.tail_piece {a : FuncArg} (h : a.Generated) :
    ',' ∉ a.tail ∧ ')' ∉ a.tail ∧ a.tail.count '{' = a.tail.count '}' ∧
      a.tail.count '<' = a.tail.count '>' ∧ a.tail.getLast?.any isSpace = false ∧ a.tail ≠ [] := by
  obtain ⟨isMemref, type, attr⟩ := a
  obtain rfl | rfl | rfl | rfl := h <;> cases isMemref <;> cases type <;> decide

theorem piece_printArg {a : FuncArg} (h : a.Generated) (n : ℕ) : Piece (printArg a n) := by
  obtain ⟨hcomma, hparen, hbrace, hangle, hlast, hne⟩ := h.tail_piece
  have hcount : ∀ c, c ∉ "%arg".toList → c.isDigit = false →
      (printArg a n).count c = a.tail.count c := by
    intro c hc hdigit
    rw [printArg_eq, List.count_append, List.count_append, List.count_eq_zero.mpr hc,
      List.count_eq_zero.mpr (not_mem_toDigits hdigit n), Nat.zero_add]
  have hnot : ∀ c, c ∉ "%arg".toList → c.isDigit = false → c ∉ a.tail → c ∉ printArg a n := by
    intro c hc hdigit htail
    rw [← List.count_eq_zero, hcount c hc hdigit, List.count_eq_zero]
    exact htail
  refine ⟨hnot ',' (by decide) (by decide) hcomma, hnot ')' (by decide) (by decide) hparen, ?_, ?_, ?_, ?_, ?_⟩
  · rw [hcount '{' (by decide) (by decide), hcount '}' (by decide) (by decide), hbrace]
  · rw [hcount '<' (by decide) (by decide), hcount '>' (by decide) (by decide), hangle]
  · intro c hc
    rw [printArg_eq, List.append_assoc] at hc
    obtain rfl : '%' = c := Option.some.inj hc
    decide
  · intro c hc
    rw [printArg_eq, List.getLast?_append] at hc
    cases htail : a.tail.getLast? with
    | none => exact absurd (List.getLast?_eq_none_iff.mp htail) hne
    | some d =>
      rw [htail, Option.some_or] at hc
      obtain rfl := Option.some.inj hc
      rwa [htail, Option.any_some] at hlast
  · rw [printArg_eq, List.append_assoc]
    exact List.cons_ne_nil _ _

/-- The arguments are read back from their text. -/
theorem segment_printArgs {args : List FuncArg} (hne : args ≠ []) (h : ∀ a ∈ args, a.Generated) :
    segment (printArgs args) = args.zipIdx.map fun p => printArg p.1 p.2 := by
  refine segment_intercalate ?_ fun p hp => ?_
  · intro hnil
    rw [List.map_eq_nil_iff, List.zipIdx_eq_nil_iff] at hnil
    exact hne hnil
  · obtain ⟨⟨a, n⟩, hmem, rfl⟩ := List.mem_map.mp hp
    exact piece_printArg (h a (List.fst_mem_of_mem_zipIdx hmem)) n

theorem not_mem_intercalate {c : Char} {sep : Text} (hsep : c ∉ sep) :
    ∀ {ps : List Text}, (∀ p ∈ ps, c ∉ p) → c ∉ sep.intercalate ps := by
  intro ps
  induction ps with
  | nil => exact fun _ => nofun
  | cons p ps ih =>
    intro hps
    cases ps with
    | nil =>
      rw [List.intercalate_singleton]
      exact hps p List.mem_cons_self
    | cons q qs =>
      rw [List.intercalate_cons_cons, List.mem_append, List.mem_append, not_or, not_or]
      exact ⟨⟨hps p List.mem_cons_self, hsep⟩, ih fun r hr => hps r (List.mem_cons_of_mem _ hr)⟩

theorem not_paren_mem_printArgs {args : List FuncArg} (h : ∀ a ∈ args, a.Generated) :
    ')' ∉ printArgs args := by
  refine not_mem_intercalate (by decide) fun p hp => ?_
  obtain ⟨⟨a, n⟩, hmem, rfl⟩ := List.mem_map.mp hp
  exact (piece_printArg (h a (List.fst_mem_of_mem_zipIdx hmem)) n).paren

/-! ## The text of the function -/

theorem searchSignature_printed {name body rest : Text} (hname : '(' ∉ name) (hbody : ')' ∉ body) :
    searchSignature ("func.func @".toList ++ name ++ "(".toList ++ body ++ ")".toList ++ rest) =
      some body := by
  have hmatch : matchSignature ("func.func @".toList ++ name ++ "(".toList ++ body ++ ")".toList ++ rest) =
      some body := by
    have htext : "func.func @".toList ++ name ++ "(".toList ++ body ++ ")".toList ++ rest =
        "func.func".toList ++ (' ' :: '@' :: (name ++ '(' :: (body ++ ')' :: rest))) := by
      simp
    rw [htext, matchSignature, if_pos (by simp)]
    have hdrop : (("func.func".toList ++ (' ' :: '@' :: (name ++ '(' :: (body ++ ')' :: rest)))).drop
        9).dropWhile isSpace = '@' :: (name ++ '(' :: (body ++ ')' :: rest)) := rfl
    rw [hdrop]
    have hopen : (name ++ '(' :: (body ++ ')' :: rest)).dropWhile (· != '(') =
        '(' :: (body ++ ')' :: rest) := by
      rw [List.dropWhile_append_of_pos]
      · rw [List.dropWhile_cons_of_neg (by simp)]
      · intro c hc
        simp only [bne_iff_ne, ne_eq]
        rintro rfl
        exact hname hc
    simp only [hopen]
    rw [if_pos (by simp), List.takeWhile_append_of_pos, List.takeWhile_cons_of_neg (by simp),
      List.append_nil]
    intro c hc
    simp only [bne_iff_ne, ne_eq]
    rintro rfl
    exact hbody hc
  have hcons : ∃ c s, "func.func @".toList ++ name ++ "(".toList ++ body ++ ")".toList ++ rest = c :: s :=
    ⟨'f', _, by simp; rfl⟩
  obtain ⟨c, s, hcs⟩ := hcons
  rw [hcs] at hmatch ⊢
  rw [searchSignature, hmatch]

/-! ## The words of an argument -/

/-- The name of an argument. -/
def argName (n : ℕ) : Text := "arg".toList ++ Nat.toDigits 10 n

theorem isWordChar_argName (n : ℕ) : ∀ c ∈ argName n, isWordChar c = true := by
  intro c hc
  have harg : "arg".toList.all isWordChar = true := by decide
  rcases List.mem_append.mp hc with hc | hc
  · exact List.all_eq_true.mp harg c hc
  · rw [isWordChar, Char.isAlphanum, isDigit_of_mem_toDigits hc]
    simp

theorem isWordChar_text (t : MlirType) : ∀ c ∈ t.text, isWordChar c = true := by
  have htext : t.text.all isWordChar = true := by
    cases t <;> decide
  exact List.all_eq_true.mp htext

section

variable {w : Text} (hw : ∀ c ∈ w, isWordChar c = true) (hne : w ≠ []) (t : MlirType) (n : ℕ)

include hw hne

theorem hasWord_scalar_iff :
    HasWord w (printArg ⟨false, t, []⟩ n) ↔ w = argName n ∨ w = t.text := by
  have htext : printArg ⟨false, t, []⟩ n = [] ++ '%' :: (argName n ++ ':' :: ([] ++ ' ' :: t.text)) := by
    rw [printArg_eq, argName]
    simp [FuncArg.tail]
  rw [htext, hasWord_append_cons_iff hw hne (by decide), hasWord_append_cons_iff hw hne (by decide),
    hasWord_append_cons_iff hw hne (by decide), hasWord_word_iff (s := []) nofun,
    hasWord_word_iff (isWordChar_argName n), hasWord_word_iff (isWordChar_text t)]
  simp only [hne, false_or]

theorem hasWord_tensor_iff :
    HasWord w (printArg ⟨true, t, []⟩ n) ↔
      w = argName n ∨ w = "memref".toList ∨ w = 'x' :: t.text := by
  have htext : printArg ⟨true, t, []⟩ n = [] ++ '%' :: (argName n ++ ':' :: ([] ++ ' ' ::
      ("memref".toList ++ '<' :: ([] ++ '?' :: (('x' :: t.text) ++ '>' :: []))))) := by
    rw [printArg_eq, argName]
    simp [FuncArg.tail]
  have hmemref : "memref".toList.all isWordChar = true := by decide
  have hx : ∀ c ∈ 'x' :: t.text, isWordChar c = true :=
    List.forall_mem_cons.mpr ⟨by decide, isWordChar_text t⟩
  rw [htext, hasWord_append_cons_iff hw hne (by decide), hasWord_append_cons_iff hw hne (by decide),
    hasWord_append_cons_iff hw hne (by decide), hasWord_append_cons_iff hw hne (by decide),
    hasWord_append_cons_iff hw hne (by decide), hasWord_append_cons_iff hw hne (by decide),
    hasWord_word_iff (s := []) nofun, hasWord_word_iff (isWordChar_argName n),
    hasWord_word_iff (List.all_eq_true.mp hmemref), hasWord_word_iff hx]
  simp only [hne, false_or, or_false]

end

/-! ## The type of an argument -/

theorem targetTypes_spec : ∀ t ∈ targetTypes, t.all isWordChar = true ∧ t ≠ [] ∧
    t.head? ≠ some 'a' ∧ t.head? ≠ some 'x' ∧ t ≠ "memref".toList := by decide

theorem ne_argName {t : Text} (h : t.head? ≠ some 'a') (n : ℕ) : t ≠ argName n := by
  rintro rfl
  exact h rfl

/-- A name with an `x` in front is a word of a tensor's argument if it is the element type. -/
theorem searchWord_x_iff (isMemref : Bool) (t : MlirType) (n : ℕ) {w : Text} (hw : w ∈ targetTypes) :
    searchWord ('x' :: w) (printArg ⟨isMemref, t, []⟩ n) = true ↔ isMemref = true ∧ w = t.text := by
  obtain ⟨hword, -, -, -, -⟩ := targetTypes_spec w hw
  have hx : ∀ c ∈ 'x' :: w, isWordChar c = true :=
    List.forall_mem_cons.mpr ⟨by decide, List.all_eq_true.mp hword⟩
  rw [searchWord_iff]
  cases isMemref with
  | false =>
    rw [hasWord_scalar_iff hx (List.cons_ne_nil _ _)]
    have hname : 'x' :: w ≠ argName n := ne_argName (by simp) n
    have htype : 'x' :: w ≠ t.text := by
      intro h
      have := congrArg List.head? h
      revert this
      cases t <;> simp [MlirType.text]
    simp [hname, htype]
  | true =>
    rw [hasWord_tensor_iff hx (List.cons_ne_nil _ _)]
    have hname : 'x' :: w ≠ argName n := ne_argName (by simp) n
    simp [hname]

/-- A name is a word of a scalar's argument if it is the type. -/
theorem searchWord_iff_type (isMemref : Bool) (t : MlirType) (n : ℕ) {w : Text} (hw : w ∈ targetTypes) :
    searchWord w (printArg ⟨isMemref, t, []⟩ n) = true ↔ isMemref = false ∧ w = t.text := by
  obtain ⟨hword, hne, ha, hx, hmemref⟩ := targetTypes_spec w hw
  have hname := ne_argName ha n
  rw [searchWord_iff]
  cases isMemref with
  | false =>
    rw [hasWord_scalar_iff (List.all_eq_true.mp hword) hne]
    simp [hname]
  | true =>
    rw [hasWord_tensor_iff (List.all_eq_true.mp hword) hne]
    have hxtype : w ≠ 'x' :: t.text := by
      rintro rfl
      exact hx rfl
    simp only [hname, hmemref, hxtype, or_false, reduceCtorEq, false_and]

/-- Only the name of the type itself is found in an argument. -/
theorem findType_eq_of_subset {order : List Text} (horder : ∀ w ∈ order, w ∈ targetTypes)
    (isMemref : Bool) (t : MlirType) (n : ℕ) :
    findType order (printArg ⟨isMemref, t, []⟩ n) =
      if t.text ∈ order then some (if isMemref then '*' :: t.text else t.text) else none := by
  rw [findType]
  induction order with
  | nil => rfl
  | cons w ws ih =>
    have hw := horder w List.mem_cons_self
    have hx := searchWord_x_iff isMemref t n hw
    have htype := searchWord_iff_type isMemref t n hw
    rw [List.findSome?_cons, ih fun w' hw' => horder w' (List.mem_cons_of_mem _ hw')]
    by_cases heq : w = t.text
    · subst heq
      rw [if_pos List.mem_cons_self]
      cases isMemref with
      | false =>
        rw [if_neg (hx.not.mpr fun h => by cases h.1), if_pos (htype.mpr ⟨rfl, rfl⟩)]
        rfl
      | true =>
        rw [if_pos (hx.mpr ⟨rfl, rfl⟩)]
        rfl
    · rw [if_neg (hx.not.mpr fun h => heq h.2), if_neg (htype.not.mpr fun h => heq h.2)]
      have hmem : t.text ∈ w :: ws ↔ t.text ∈ ws := by
        rw [List.mem_cons, or_iff_right (Ne.symm heq)]
      simp only [hmem]

/-- The type does not depend on the order the names are tried in. -/
theorem findType_printArg {order : List Text} (horder : order.Perm targetTypes) (isMemref : Bool)
    (t : MlirType) (n : ℕ) :
    findType order (printArg ⟨isMemref, t, []⟩ n) =
      if t.text ∈ targetTypes then some (if isMemref then '*' :: t.text else t.text) else none := by
  rw [findType_eq_of_subset (fun w hw => horder.subset hw)]
  simp only [horder.mem_iff]

theorem renameType_text {t : MlirType} (h : t.text ∈ targetTypes) (isMemref : Bool) :
    renameType (if isMemref then '*' :: t.text else t.text) =
      if isMemref then '*' :: t.launcherText else t.launcherText := by
  revert h
  cases t <;> cases isMemref <;> decide

/-- The types the launcher knows: neither `float64` nor integers of four bits. -/
def DataType.Recognised (t : DataType) : Prop := ¬ (t.code = .float ∧ t.bits = 64) ∧ t.bits ≠ 4

instance (t : DataType) : Decidable t.Recognised := by
  unfold DataType.Recognised
  infer_instance

theorem text_mem_targetTypes_iff (m : MlirType) : m.text ∈ targetTypes ↔ m ≠ .f64 ∧ m ≠ .i4 := by
  cases m <;> decide

theorem intMlirType_spec {bits lanes : ℕ} {m : MlirType} (h : intMlirType bits lanes = some m) :
    (m = .i4 ↔ bits = 4) ∧ m ≠ .f64 := by
  unfold intMlirType at h
  split at h <;> grind

theorem recognised_iff {t : DataType} {m : MlirType} (h : dtypeToMlirType t = some m) :
    t.Recognised ↔ m.text ∈ targetTypes := by
  obtain ⟨code, bits, lanes⟩ := t
  rw [text_mem_targetTypes_iff, DataType.Recognised]
  unfold dtypeToMlirType at h
  cases code with
  | handle => cases h
  | bfloat =>
    obtain ⟨⟨hbits, -⟩, hm⟩ : (bits = 16 ∧ lanes = 1) ∧ MlirType.bf16 = m := by
      simpa using h
    subst hm
    simp [hbits]
  | float =>
    dsimp only at h
    split at h
    · obtain ⟨-, rfl⟩ : lanes = 1 ∧ MlirType.f16 = m := by simpa using h
      simp
    · obtain rfl := Option.some.inj h
      simp
    · obtain rfl := Option.some.inj h
      simp
    · cases h
  | int =>
    obtain ⟨hi4, hf64⟩ := intMlirType_spec h
    simp [hi4, hf64]
  | uint =>
    obtain ⟨hi4, hf64⟩ := intMlirType_spec h
    simp [hi4, hf64]

/-! ## The signature -/

theorem generated_compilerArgs (isA5 : Bool) : ∀ a ∈ compilerArgs isA5, a.Generated := by
  intro a ha
  cases isA5 with
  | false =>
    simp only [compilerArgs, Bool.false_eq_true, if_false, List.mem_cons, List.not_mem_nil, or_false] at ha
    obtain rfl | rfl | rfl := ha
    · exact .inr (.inr (.inr rfl))
    · exact .inr (.inl rfl)
    · exact .inr (.inr (.inl rfl))
  | true =>
    simp only [compilerArgs, if_true, List.mem_cons, List.not_mem_nil, or_false] at ha
    obtain rfl | rfl := ha
    · exact .inr (.inl rfl)
    · exact .inr (.inr (.inl rfl))

theorem length_compilerArgs (isA5 : Bool) :
    (compilerArgs isA5).length = if isA5 then 2 else 3 := by
  cases isA5 <;> rfl

/-- The slice cuts the arguments of the kernel out. -/
theorem kernelSlice_printed (isA5 : Bool) (args : List FuncArg) :
    kernelSlice (if isA5 then 2 else 3)
        ((compilerArgs isA5 ++ args ++ gridArgs).zipIdx.map fun p => printArg p.1 p.2) =
      (args.zipIdx (if isA5 then 2 else 3)).map fun p => printArg p.1 p.2 := by
  have hlen := length_compilerArgs isA5
  rw [kernelSlice, List.zipIdx_append, List.zipIdx_append, List.map_append, List.map_append, hlen,
    Nat.zero_add]
  have htake : ∀ (a b c : List Text), c.length = 6 → (a ++ b ++ c).take ((a ++ b ++ c).length - 6) = a ++ b := by
    intro a b c hc
    rw [List.length_append, hc, Nat.add_sub_cancel]
    exact List.take_left
  rw [htake _ _ _ (by simp [gridArgs])]
  refine List.drop_left' ?_
  rw [List.length_map, List.length_zipIdx, hlen]

/-- The parameters whose type is recognised, and their entries. -/
def foundEntries (params : List Param) : List Text :=
  params.filterMap fun p => if p.dtype.Recognised then some p.entry else none

theorem filterMap_printed {order : List Text} (horder : order.Perm targetTypes) :
    ∀ {params : List Param} {args : List FuncArg}, kernelArgs params = some args → ∀ k,
      ((args.zipIdx k).map fun p => printArg p.1 p.2).filterMap
        (fun param => (findType order param).map renameType) = foundEntries params := by
  intro params args hargs
  have hforall := mapM_eq_some_iff.mp hargs
  clear hargs
  induction hforall with
  | nil => exact fun _ => rfl
  | @cons p a params args hpa _ ih =>
    intro k
    obtain ⟨m, hm, rfl⟩ := Option.map_eq_some_iff.mp hpa
    rw [List.zipIdx_cons, List.map_cons, List.filterMap_cons, ih, foundEntries, foundEntries,
      List.filterMap_cons, findType_printArg horder]
    by_cases hrec : p.dtype.Recognised
    · have htext := (recognised_iff hm).mp hrec
      rw [if_pos htext, if_pos hrec, Option.map_some, renameType_text htext, Param.entry, hm]
      rfl
    · rw [if_neg ((recognised_iff hm).not.mp hrec), if_neg hrec, Option.map_none]

theorem parseSignature_printed {order : List Text} (horder : order.Perm targetTypes) {isA5 : Bool}
    {name rest content : Text} {params : List Param} (hname : '(' ∉ name)
    (h : printFunc isA5 name params rest = some content) :
    parseSignature order isA5 content = (foundEntries params).zipIdx.map fun p => (p.2, p.1) := by
  obtain ⟨args, hargs, rfl⟩ := Option.map_eq_some_iff.mp h
  have hgenerated : ∀ a ∈ compilerArgs isA5 ++ args ++ gridArgs, a.Generated := by
    intro a ha
    rw [List.mem_append, List.mem_append] at ha
    rcases ha with (ha | ha) | ha
    · exact generated_compilerArgs isA5 a ha
    · obtain ⟨p, -, hpa⟩ := exists_of_forall₂_right (mapM_eq_some_iff.mp hargs) ha
      obtain ⟨m, -, rfl⟩ := Option.map_eq_some_iff.mp hpa
      exact .inl rfl
    · obtain rfl := List.eq_of_mem_replicate ha
      exact .inl rfl
  have hne : compilerArgs isA5 ++ args ++ gridArgs ≠ [] := by simp [gridArgs]
  rw [parseSignature, searchSignature_printed hname (not_paren_mem_printArgs hgenerated)]
  simp only
  rw [segment_printArgs hne hgenerated, kernelSlice_printed, filterMap_printed horder hargs]

theorem foundEntries_eq_iff (params : List Param) :
    foundEntries params = params.map Param.entry ↔ ∀ p ∈ params, p.dtype.Recognised := by
  refine ⟨fun h p hp => ?_, fun h => ?_⟩
  · by_contra hrec
    have hlt : (foundEntries params).length < params.length :=
      List.length_filterMap_lt_length_iff_exists.mpr ⟨p, hp, if_neg hrec⟩
    rw [h, List.length_map] at hlt
    exact lt_irrefl _ hlt
  · rw [foundEntries, ← List.filterMap_eq_map]
    refine List.filterMap_congr fun p hp => ?_
    rw [if_pos (h p hp)]
    rfl

/-- The launcher sees the signature of the function, in whatever order the set of types is gone
through, exactly when every parameter is of a type it knows. -/
theorem parseSignature_agrees_iff {isA5 : Bool} {name rest content : Text} {params : List Param}
    (hname : '(' ∉ name) (h : printFunc isA5 name params rest = some content) :
    (∀ order : List Text, order.Perm targetTypes →
      parseSignature order isA5 content = expectedSignature params) ↔
      ∀ p ∈ params, p.dtype.Recognised := by
  have hinj : ∀ {l l' : List Text},
      (l.zipIdx.map fun p => (p.2, p.1)) = l'.zipIdx.map (fun p => (p.2, p.1)) → l = l' := by
    intro l l' heq
    have hsnd := congrArg (List.map Prod.snd) heq
    rw [List.map_map, List.map_map] at hsnd
    exact (List.zipIdx_map_fst 0 l).symm.trans (hsnd.trans (List.zipIdx_map_fst 0 l'))
  rw [← foundEntries_eq_iff]
  refine ⟨fun hall => ?_, fun hfound order horder => ?_⟩
  · have := hall targetTypes (List.Perm.refl _)
    rw [parseSignature_printed (List.Perm.refl _) hname h] at this
    exact hinj this
  · rw [parseSignature_printed horder hname h, hfound]
    rfl

/-- A `float16` tensor and an `int32` scalar. -/
def halfAndInt : List Param := [.tensor ⟨.float, 16, 1⟩, .scalar ⟨.int, 32, 1⟩]

theorem halfAndInt_agrees :
    ∃ content, printFunc false "main".toList halfAndInt [] = some content ∧
      ∀ order : List Text, order.Perm targetTypes →
        parseSignature order false content = [(0, "*fp16".toList), (1, "i32".toList)] := by
  obtain ⟨content, h⟩ : ∃ content, printFunc false "main".toList halfAndInt [] = some content :=
    ⟨_, rfl⟩
  exact ⟨content, h, (parseSignature_agrees_iff (by decide) h).mpr (by decide)⟩

/-- A `float64` tensor and an `int32` scalar. -/
def doubleAndInt : List Param := [.tensor ⟨.float, 64, 1⟩, .scalar ⟨.int, 32, 1⟩]

/-- The tensor is dropped, and the scalar takes its place. -/
theorem doubleAndInt_shifted :
    ∃ content, printFunc false "main".toList doubleAndInt [] = some content ∧
      parseSignature targetTypes false content = [(0, "i32".toList)] ∧
      expectedSignature doubleAndInt = [(0, "*fp64".toList), (1, "i32".toList)] := by
  obtain ⟨content, h⟩ : ∃ content, printFunc false "main".toList doubleAndInt [] = some content :=
    ⟨_, rfl⟩
  refine ⟨content, h, ?_, rfl⟩
  rw [parseSignature_printed (List.Perm.refl _) (by decide) h]
  rfl

end TileLangNpuir.Signature
