import DahleOS.Lib.KeyedList
import DahleOS.Lib.Words
import DahleOS.Proof.AliasTable
import DahleOS.Proof.Determinant

/-!
# The matrix variables as a map

The filled part of the table is a list keyed by name; `matrix store` inserts into it and
`matrix:` looks up.

* `matrixParseInline_total`: the parser stays in its array, and what it reads is square.
* `matrixStore_map`: one `store` command.
* `cmdMatrix_reference`: the command that uses a variable.
* `matrix_store_map`: sequences of stores. A name is cut to 15 characters, and the matrix is
  read from where it was cut.
-/

namespace DahleOS

open CArray KeyedList Words

variable {t t' t'' : MatrixVars} {m M : MatrixT} {args N name rest tail : Str}

/-! ## Square matrices -/

/-- **A matrix of `cmd_matrix`**: 1 to 4 rows and as many columns. -/
structure MatrixT.Square (m : MatrixT) : Prop where
  cols : m.cols = m.rows
  pos : 1 ≤ m.rows.toInt
  le : m.rows.toInt ≤ 4

theorem matrixElements_total {n : ℕ} (hn : n ≤ 4) (todo : ℕ) : ∀ e s (m : MatrixT), e + todo = n * n →
    ∃ r, matrixElements n e todo s m = some r ∧
      ∀ M left, r = some (M, left) → M.rows = m.rows ∧ M.cols = m.cols := by
  induction todo with
  | zero =>
    intro e s m _
    refine ⟨_, rfl, ?_⟩
    intro M left h
    rw [Option.some.injEq, Prod.mk.injEq] at h
    rw [← h.1]
    exact ⟨rfl, rfl⟩
  | succ todo ih =>
    intro e s m he
    obtain ⟨hrow, hcol⟩ := row_col_lt (show e < n * n by omega)
    unfold matrixElements
    dsimp only
    by_cases htok : word 11 s = []
    · rw [if_pos htok]
      exact ⟨none, rfl, by simp⟩
    · rw [if_neg htok, wr2_nat m.data (by omega) (by omega)]
      exact ih (e + 1) _ { m with data := _ } (by omega)

/-- **The parser** stays in its array, and what it reads is square. -/
theorem matrixParseInline_total (args : Str) (m : MatrixT) : ∃ r, matrixParseInline args m = some r ∧
    ∀ M left, r = some (M, left) → M.Square := by
  unfold matrixParseInline
  dsimp only
  split_ifs with hargs hdim
  · exact ⟨none, rfl, by simp⟩
  · exact ⟨none, rfl, by simp⟩
  · rw [dimension_test, not_not] at hdim
    obtain ⟨r, hr, hshape⟩ := matrixElements_total (show (strToInt (word 11 args)).toInt.toNat ≤ 4 by omega) _ 0
      (skipSpaces (args.drop (word 11 args).length))
      { m with rows := strToInt (word 11 args), cols := strToInt (word 11 args) } (Nat.zero_add _)
    refine ⟨r, hr, ?_⟩
    intro M left h
    obtain ⟨hrows, hcols⟩ := hshape M left h
    refine ⟨hcols.trans hrows.symm, ?_, ?_⟩
    · rw [hrows]
      exact hdim.1
    · rw [hrows]
      exact hdim.2

theorem matrixRowText_total (data : Fin 4 → Fin 4 → Int32) {r : ℕ} (hr : r < 4) (todo : ℕ) : ∀ c, c + todo ≤ 4 →
    ∃ s, matrixRowText data r c todo = some s := by
  induction todo with
  | zero => exact fun c _ => ⟨[], rfl⟩
  | succ todo ih =>
    intro c hc
    obtain ⟨s, hs⟩ := ih (c + 1) (by omega)
    exact ⟨intToStr (entry data r c) ++ str " " ++ s, by simp [matrixRowText, rd2_entry hr (show c < 4 by omega), hs]⟩

theorem matrixRowsText_total (hcols : m.cols.toInt.toNat ≤ 4) (todo : ℕ) : ∀ r, r + todo ≤ 4 →
    ∃ s, matrixRowsText m r todo = some s := by
  induction todo with
  | zero => exact fun r _ => ⟨[], rfl⟩
  | succ todo ih =>
    intro r hr
    obtain ⟨row, hrow⟩ := matrixRowText_total m.data (show r < 4 by omega) m.cols.toInt.toNat 0 (by omega)
    obtain ⟨s, hs⟩ := ih (r + 1) (by omega)
    refine ⟨str "  [ " ++ row ++ str "]\n" ++ s, ?_⟩
    simp only [matrixRowsText, hrow, hs]
    rfl

/-- **A square matrix** is printed with its determinant. -/
theorem matrixOperate_det (h : m.Square) : ∃ printed d, matrixPrint m = some printed ∧ matrixDet m = some d ∧
    matrixOperate m (str "det") = some (.operated printed (.det d)) := by
  have hpos := h.pos
  have hle := h.le
  obtain ⟨printed, hprinted⟩ := matrixRowsText_total (m := m) (by rw [h.cols]; omega) m.rows.toInt.toNat 0 (by omega)
  obtain ⟨d, hd, -⟩ := matrixDetDepth_eq m.rows.toInt.toNat (by omega) 4 m (by omega) (by omega) (by omega)
  refine ⟨printed, d, hprinted, hd, ?_⟩
  have hdet : matrixDoOp m (str "det") = some (.det d) := by
    have hd' : matrixDet m = some d := hd
    rw [matrixDoOp, if_pos (strcmp_eq_zero.2 rfl), if_neg (not_not.2 h.cols.symm), hd']
    rfl
  have hprinted' : matrixPrint m = some printed := hprinted
  simp [matrixOperate, hprinted', hdet]

/-! ## The table -/

/-- The slots in use. -/
def MatrixVars.used (t : MatrixVars) : ℕ := t.count.toInt.toNat

/-- The name of a variable, if it ends. -/
def MatrixVar.nameOf (v : MatrixVar) : Str := (cstr v.name).getD []

/-- The variables in use. -/
def MatrixVars.entries (t : MatrixVars) : List MatrixVar := slots t.vars t.used

/-- **A table that is a map**: the count is in range, every name ends, and no two names are
the same. -/
structure MatrixVars.IsMap (t : MatrixVars) : Prop where
  count : 0 ≤ t.count.toInt ∧ t.count.toInt ≤ 8
  name : ∀ i, (t.vars i).name 15 = 0
  nodup : (t.entries.map MatrixVar.nameOf).Nodup

theorem MatrixVars.zero_isMap : MatrixVars.zero.IsMap := ⟨by decide, fun _ => rfl, List.nodup_nil⟩

theorem MatrixVars.IsMap.used_le (h : t.IsMap) : t.used ≤ 8 := by
  have := h.count
  unfold MatrixVars.used
  omega

theorem MatrixVars.IsMap.toInt_count (h : t.IsMap) : t.count.toInt = t.used := by
  have := h.count
  unfold MatrixVars.used
  omega

/-- **The search loop** finds the first variable of that name. -/
theorem matrixFindVar_eq (h : t.IsMap) (name : Str) :
    matrixFindVar t name = some (t.entries.findIdx? fun v => v.nameOf = name) := by
  refine findSlot_eq h.used_le ?_
  intro v hv
  obtain ⟨i, -, rfl⟩ := mem_slots hv
  obtain ⟨s, hs⟩ := exists_cstr (h.name i)
  simp [MatrixVar.nameOf, hs, strcmp_eq_zero]

theorem matrixFindVar_some (h : t.IsMap) {i : ℕ} (hi : t.entries.findIdx? (fun v => v.nameOf = name) = some i) :
    ∃ k : Fin 8, i = k ∧ (t.vars k).nameOf = name ∧ lookup MatrixVar.nameOf t.entries name = some (t.vars k) := by
  obtain ⟨hlt, hname, -⟩ := List.findIdx?_eq_some_iff_getElem.1 hi
  have hused : i < t.used := by rwa [MatrixVars.entries, length_slots _ h.used_le] at hlt
  have hle := h.used_le
  refine ⟨⟨i, by omega⟩, rfl, ?_, ?_⟩
  · simpa [MatrixVars.entries, getElem_slots] using hname
  · exact (lookup_of_findIdx? hi).trans (getElem?_slots t.vars hused h.used_le)

/-! ## Storing -/

/-- The command reports success. -/
def MatrixMsg.Success : MatrixMsg → Prop
  | stored _ => True
  | _ => False

/-- **A variable is stored** under its name. -/
def Stores (t t' : MatrixVars) (name : Str) (m : MatrixT) : Prop :=
  ∃ v : MatrixVar, v.nameOf = name ∧ v.mat = m ∧ t'.entries = insert MatrixVar.nameOf v t.entries

/-- The table with a new matrix in variable `k`. -/
def MatrixVars.updated (t : MatrixVars) (k : Fin 8) (m : MatrixT) : MatrixVars :=
  { t with vars := Function.update t.vars k { t.vars k with mat := m } }

/-- The table with a new variable in slot `k`. -/
def MatrixVars.added (t : MatrixVars) (k : Fin 8) (name : Str) (m : MatrixT) : MatrixVars where
  vars := Function.update t.vars k ⟨strncpy (t.vars k).name name 15, m⟩
  count := t.count + 1

theorem MatrixVars.updated_map (h : t.IsMap) {k : Fin 8}
    (hk : t.entries.findIdx? (fun v => v.nameOf = name) = some k.val) (hname : (t.vars k).nameOf = name) (m : MatrixT) :
    (t.updated k m).IsMap ∧ Stores t (t.updated k m) name m := by
  have hkey : ({ t.vars k with mat := m } : MatrixVar).nameOf = name := hname
  have hins : (t.updated k m).entries = insert MatrixVar.nameOf { t.vars k with mat := m } t.entries := by
    rw [← hkey] at hk
    exact (slots_update _ _ _ _).trans (insert_of_findIdx? hk).symm
  refine ⟨⟨h.count, ?_, ?_⟩, _, hkey, rfl, hins⟩
  · intro i
    by_cases hi : i = k
    · subst hi
      simp [MatrixVars.updated, h.name]
    · simp [MatrixVars.updated, Function.update_of_ne hi, h.name]
  · rw [hins]
    exact nodup_insert h.nodup

theorem MatrixVars.added_map (h : t.IsMap) (hlt : t.used < 8)
    (hk : t.entries.findIdx? (fun v => v.nameOf = name) = none) (hl : name.length ≤ 15) (m : MatrixT) :
    (t.added ⟨t.used, hlt⟩ name m).IsMap ∧ Stores t (t.added ⟨t.used, hlt⟩ name m) name m := by
  have hstr := cstr_strncpy (show 15 < 16 by decide) _ (h.name ⟨t.used, hlt⟩) name
  rw [List.take_of_length_le hl] at hstr
  have hkey : (⟨strncpy (t.vars ⟨t.used, hlt⟩).name name 15, m⟩ : MatrixVar).nameOf = name := by
    rw [MatrixVar.nameOf, hstr]
    rfl
  have hcount := h.toInt_count
  have hrange := h.count
  have hsucc : (t.added ⟨t.used, hlt⟩ name m).count.toInt = t.count.toInt + 1 := toInt_add_one h.count.1 (by omega)
  have hused : (t.added ⟨t.used, hlt⟩ name m).used = t.used + 1 := by
    change (t.added ⟨t.used, hlt⟩ name m).count.toInt.toNat = _
    rw [hsucc, hcount]
    omega
  have hins : (t.added ⟨t.used, hlt⟩ name m).entries =
      insert MatrixVar.nameOf ⟨strncpy (t.vars ⟨t.used, hlt⟩).name name 15, m⟩ t.entries := by
    rw [← hkey] at hk
    unfold MatrixVars.entries
    rw [hused]
    exact (slots_push _ hlt _).trans (insert_of_findIdx?_none hk).symm
  refine ⟨⟨by omega, ?_, ?_⟩, _, hkey, rfl, hins⟩
  · intro i
    by_cases hi : i = ⟨t.used, hlt⟩
    · subst hi
      have hlast : strncpy (t.vars ⟨t.used, hlt⟩).name name 15 15 = 0 := (strncpy_of_ge _ name le_rfl).trans (h.name _)
      simp [MatrixVars.added, hlast]
    · simp [MatrixVars.added, Function.update_of_ne hi, h.name]
  · rw [hins]
    exact nodup_insert h.nodup

/-- **One `store`** either reports an error and changes nothing, or stores what it read under
the name that it cut. -/
theorem matrixStore_map (h : t.IsMap) (rest : Str) : ∃ msg t', matrixStore t rest = some (msg, t') ∧
    ((¬ msg.Success ∧ t' = t) ∨ (msg = .stored (word 15 rest) ∧ t'.IsMap ∧ ∃ M left,
      matrixParseInline (skipSpaces (rest.drop (word 15 rest).length)) .zero = some (some (M, left)) ∧
        Stores t t' (word 15 rest) M)) := by
  obtain ⟨r, hr, -⟩ := matrixParseInline_total (skipSpaces (rest.drop (word 15 rest).length)) .zero
  unfold matrixStore
  dsimp only
  by_cases hrest : rest = []
  · rw [if_pos hrest]
    exact ⟨_, _, rfl, Or.inl ⟨id, rfl⟩⟩
  by_cases hname : word 15 rest = []
  · rw [if_neg hrest, if_pos hname]
    exact ⟨_, _, rfl, Or.inl ⟨id, rfl⟩⟩
  rw [if_neg hrest, if_neg hname, hr]
  match r with
  | none => exact ⟨_, _, rfl, Or.inl ⟨id, rfl⟩⟩
  | some (M, left) =>
    have hfind := matrixFindVar_eq h (word 15 rest)
    cases hk : t.entries.findIdx? fun v => decide (v.nameOf = word 15 rest) with
    | some i =>
      rw [hk] at hfind
      obtain ⟨k, rfl, hkname, -⟩ := matrixFindVar_some h hk
      obtain ⟨hmap, hstores⟩ := MatrixVars.updated_map h hk hkname M
      refine ⟨_, t.updated k M, ?_, Or.inr ⟨rfl, hmap, M, left, rfl, hstores⟩⟩
      simp [hfind, MatrixVars.updated]
    | none =>
      rw [hk] at hfind
      by_cases hfull : 8 ≤ t.count
      · exact ⟨.full, t, by simp [hfind, hfull], Or.inl ⟨id, rfl⟩⟩
      · have hlt : t.used < 8 := by
          have height : (8 : Int32).toInt = 8 := rfl
          rw [Int32.le_iff_toInt_le, height] at hfull
          have := h.toInt_count
          omega
        obtain ⟨hmap, hstores⟩ := MatrixVars.added_map h hlt hk (List.length_take_le _ _) M
        refine ⟨_, t.added ⟨t.used, hlt⟩ (word 15 rest) M, ?_, Or.inr ⟨rfl, hmap, M, left, rfl, hstores⟩⟩
        simp [hfind, hfull, h.toInt_count, rd_nat _ hlt, wr_nat _ hlt, MatrixVars.added]

/-! ## The commands -/

/-- `store`, spaces, a name, and what follows it. -/
def storeLine (j : ℕ) (N tail : Str) : Str := str "store" ++ (List.replicate (j + 1) sp ++ (N ++ tail))

/-- `matrix:`, a name, and `det`. -/
def referenceLine (N : Str) : Str := str "matrix:" ++ N ++ str " det"

theorem cmdMatrix_store (t : MatrixVars) (j : ℕ) (hN : sp ∉ N) (hne : N ≠ []) (tail : Str) :
    cmdMatrix t (storeLine j N tail) = matrixStore t (N ++ tail) := by
  have hends : Ends sp (List.replicate (j + 1) sp ++ (N ++ tail)) := .cons _
  have hword : word 31 (storeLine j N tail) = str "store" := by
    rw [word, storeLine, takeWhile_word (by decide) hends]
    rfl
  have hrest : skipSpaces ((storeLine j N tail).drop (str "store").length) = N ++ tail := by
    rw [storeLine, List.drop_left]
    exact skip_word (j + 1) hN hne tail
  have hargs : storeLine j N tail ≠ [] := List.cons_ne_nil _ _
  have hlist : strcmp (str "store") (str "list") ≠ 0 := by decide
  unfold cmdMatrix
  rw [if_neg hargs]
  dsimp only
  rw [hword, hrest, if_neg hlist, if_pos (strcmp_eq_zero.2 rfl)]

/-- **The command that uses a variable** prints its matrix and the determinant. -/
theorem cmdMatrix_reference (h : t.IsMap) (hN : sp ∉ N) (hne : N ≠ []) (hl : N.length ≤ 24) {v : MatrixVar}
    (hv : lookup MatrixVar.nameOf t.entries N = some v) :
    cmdMatrix t (referenceLine N) = (matrixOperate v.mat (str "det")).map fun msg => (msg, t) := by
  have hsp : sp ∉ str "matrix:" ++ N := by
    rw [List.mem_append, not_or]
    exact ⟨by decide, hN⟩
  have hword : word 31 (referenceLine N) = str "matrix:" ++ N := by
    have hends : Ends sp (str " det") := .cons (str "det")
    rw [word, referenceLine, takeWhile_word hsp hends, List.take_of_length_le]
    rw [List.length_append]
    exact Nat.add_le_add_left hl 7
  have hrest : skipSpaces ((referenceLine N).drop (str "matrix:" ++ N).length) = str "det" := by
    rw [referenceLine, List.drop_left]
    rfl
  have hargs : referenceLine N ≠ [] := List.cons_ne_nil _ _
  have hother {text : Str} (hlen : text.length < 7) : strcmp (str "matrix:" ++ N) text ≠ 0 := by
    intro heq
    rw [← strcmp_eq_zero.1 heq, List.length_append] at hlen
    exact absurd (Nat.le_add_right 7 N.length) (Nat.not_le.2 hlen)
  have hname : (str "matrix:" ++ N).drop 7 = N := @List.drop_left _ (str "matrix:") N
  unfold cmdMatrix
  rw [if_neg hargs]
  dsimp only
  rw [hword, hrest, if_neg (hother (by decide)), if_neg (hother (by decide)), if_pos (List.prefix_append _ _), hname,
    matrixReference, if_neg hne, matrixFindVar_eq h]
  cases hk : t.entries.findIdx? fun v => decide (v.nameOf = N) with
  | none => rw [lookup_eq_none.2 hk] at hv; cases hv
  | some i =>
    obtain ⟨k, rfl, -, hlook⟩ := matrixFindVar_some h hk
    rw [hv, Option.some.injEq] at hlook
    rw [hlook]
    have hdet : str "det" ≠ [] := by decide
    simp only [Option.bind_eq_bind, Option.bind_some, if_neg hdet, rd_val]
    cases matrixOperate (t.vars k).mat (str "det") <;> rfl

/-! ## Sequences of stores -/

/-- **A `store` command** with some name and any text behind it. If it reports success, the
name is one that `p` allows. -/
def StoreStep (p : Str → Prop) (t t' : MatrixVars) : Prop :=
  ∃ j N tail msg, N ≠ [] ∧ sp ∉ N ∧ Ends sp tail ∧ cmdMatrix t (storeLine j N tail) = some (msg, t') ∧
    (msg.Success → p N)

variable {p : Str → Prop}

/-- **One command.** -/
theorem cmdMatrix_storeLine (h : t.IsMap) (j : ℕ) (hN : sp ∉ N) (hne : N ≠ []) (ht : Ends sp tail) :
    ∃ msg t', cmdMatrix t (storeLine j N tail) = some (msg, t') ∧
      ((¬ msg.Success ∧ t' = t) ∨ (msg.Success ∧ t'.IsMap ∧ ∃ M left,
        matrixParseInline (skipSpaces (N.drop 15 ++ tail)) .zero = some (some (M, left)) ∧
          Stores t t' (N.take 15) M)) := by
  have hword : word 15 (N ++ tail) = N.take 15 := by rw [word, takeWhile_word hN ht]
  obtain ⟨msg, t', hstore, hcases⟩ := matrixStore_map h (N ++ tail)
  rw [hword, drop_length_take] at hcases
  refine ⟨msg, t', (cmdMatrix_store t j hN hne tail).trans hstore, ?_⟩
  rcases hcases with hfail | ⟨rfl, hmap, hread⟩
  · exact Or.inl hfail
  · exact Or.inr ⟨trivial, hmap, hread⟩

theorem StoreStep.cases (h : t.IsMap) (hstep : StoreStep p t t') :
    t' = t ∨ ∃ N m, p N ∧ t'.IsMap ∧ Stores t t' (N.take 15) m := by
  obtain ⟨j, N, tail, msg, hne, hN, ht, hcmd, hp⟩ := hstep
  obtain ⟨msg', t₁, hcmd', hcases⟩ := cmdMatrix_storeLine h j hN hne ht
  obtain ⟨rfl, rfl⟩ : msg = msg' ∧ t' = t₁ := by simpa [hcmd] using hcmd'
  rcases hcases with ⟨-, rfl⟩ | ⟨hsuccess, hmap, M, left, -, hstores⟩
  · exact Or.inl rfl
  · exact Or.inr ⟨N, M, hp hsuccess, hmap, hstores⟩

theorem StoreStep.isMap (h : t.IsMap) (hstep : StoreStep p t t') : t'.IsMap := by
  rcases hstep.cases h with rfl | ⟨N, m, -, hmap, -⟩
  · exact h
  · exact hmap

theorem StoreStep.run_isMap (h : t.IsMap) (hrun : Relation.ReflTransGen (StoreStep p) t t') : t'.IsMap := by
  induction hrun with
  | refl => exact h
  | tail _ hstep ih => exact hstep.isMap ih

/-- The matrix of a name. -/
def MatrixVars.get (t : MatrixVars) (name : Str) : Option MatrixT :=
  (lookup MatrixVar.nameOf t.entries name).map MatrixVar.mat

/-- **A store changes one name.** -/
theorem Stores.get (h : Stores t t' name m) (k : Str) : t'.get k = if k = name then some m else t.get k := by
  obtain ⟨v, rfl, rfl, hins⟩ := h
  unfold MatrixVars.get
  rw [hins, lookup_insert]
  split_ifs <;> rfl

/-- **Stores under other names** leave a variable alone. -/
theorem StoreStep.run_get (h : t.IsMap) (hrun : Relation.ReflTransGen (StoreStep fun N => N.take 15 ≠ name) t t') :
    t'.get name = t.get name := by
  induction hrun with
  | refl => rfl
  | tail hrun hstep ih =>
    rcases hstep.cases (StoreStep.run_isMap h hrun) with rfl | ⟨N, m, hN, -, hstores⟩
    · exact ih
    · rw [hstores.get, if_neg hN.symm, ih]

/-- **Stored matrices are found again.** After any sequence of `store` commands on the empty
table there are at most 8 variables, with distinct names. One more `store`, under any name
without spaces and with any text behind it, returns, and changes nothing if it reports an
error. If it reports success and the name has at most 15 characters, then it read a matrix
from the text behind the name, and as long as no store under a name with the same first 15
characters succeeds, the command with `matrix:`, the name and `det` prints that matrix and
its determinant. -/
theorem matrix_store_map (hrun : Relation.ReflTransGen (StoreStep fun _ => True) .zero t) :
    (t.entries.length ≤ 8 ∧ (t.entries.map MatrixVar.nameOf).Nodup) ∧
    ∀ j N tail, N ≠ [] → sp ∉ N → Ends sp tail →
      ∃ msg t', cmdMatrix t (storeLine j N tail) = some (msg, t') ∧ (¬ msg.Success → t' = t) ∧
        (msg.Success → N.length ≤ 15 →
          ∃ M left, matrixParseInline (skipSpaces tail) .zero = some (some (M, left)) ∧
            ∀ t'', Relation.ReflTransGen (StoreStep fun N' => N'.take 15 ≠ N) t' t'' →
              ∃ printed d, matrixPrint M = some printed ∧ matrixDet M = some d ∧
                cmdMatrix t'' (referenceLine N) = some (.operated printed (.det d), t'')) := by
  have h : t.IsMap := StoreStep.run_isMap MatrixVars.zero_isMap hrun
  refine ⟨⟨(length_slots t.vars h.used_le).trans_le h.used_le, h.nodup⟩, ?_⟩
  intro j N tail hne hN ht
  obtain ⟨msg, t', hcmd, hcases⟩ := cmdMatrix_storeLine h j hN hne ht
  refine ⟨msg, t', hcmd, ?_, ?_⟩
  · intro hfail
    rcases hcases with ⟨-, rfl⟩ | ⟨hsuccess, -⟩
    · rfl
    · exact absurd hsuccess hfail
  intro hsuccess hl
  rcases hcases with ⟨hfail, -⟩ | ⟨-, hmap, M, left, hread, hstores⟩
  · exact absurd hsuccess hfail
  rw [List.drop_eq_nil_of_le hl, List.nil_append] at hread
  rw [List.take_of_length_le hl] at hstores
  refine ⟨M, left, hread, ?_⟩
  intro t'' hrun'
  have hsquare : M.Square := by
    obtain ⟨r, hr, hshape⟩ := matrixParseInline_total (skipSpaces tail) .zero
    rw [hread, Option.some.injEq] at hr
    exact hshape M left hr.symm
  have hget : t''.get N = some M := by
    rw [StoreStep.run_get hmap hrun', hstores.get, if_pos rfl]
  obtain ⟨v, hv, rfl⟩ := Option.map_eq_some_iff.1 hget
  obtain ⟨printed, d, hprinted, hd, hop⟩ := matrixOperate_det hsquare
  refine ⟨printed, d, hprinted, hd, ?_⟩
  rw [cmdMatrix_reference (StoreStep.run_isMap hmap hrun') hN hne (by omega) hv, hop]
  rfl

/-- A variable `A` is stored and used. -/
theorem matrix_store_map_a : ∃ t' printed d, cmdMatrix .zero (storeLine 0 (str "A") (str " 1 7")) =
      some (.stored (str "A"), t') ∧
    cmdMatrix t' (referenceLine (str "A")) = some (.operated printed (.det d), t') := by
  obtain ⟨-, hall⟩ := matrix_store_map .refl
  obtain ⟨msg, t', hcmd, -, hstored⟩ :=
    hall 0 (str "A") (str " 1 7") (by decide) (by decide) (show Ends sp (str " 1 7") from .cons (str "1 7"))
  have hmsg : (cmdMatrix .zero (storeLine 0 (str "A") (str " 1 7"))).map Prod.fst = some (.stored (str "A")) := rfl
  obtain rfl : msg = .stored (str "A") := by simpa [hcmd] using hmsg
  obtain ⟨M, left, -, hfound⟩ := hstored trivial (by decide)
  obtain ⟨printed, d, -, -, href⟩ := hfound t' .refl
  exact ⟨t', printed, d, hcmd, href⟩

/-- **A name of 16 characters** is cut: the store reports success, and the name is not
found. -/
theorem matrix_name_cut : ∃ t', cmdMatrix .zero (storeLine 0 (str "fifteen-letters1") (str " 1 7")) =
      some (.stored (str "fifteen-letters"), t') ∧
    cmdMatrix t' (referenceLine (str "fifteen-letters1")) = some (.notFound (str "fifteen-letters1"), t') :=
  ⟨_, rfl, rfl⟩

end DahleOS
