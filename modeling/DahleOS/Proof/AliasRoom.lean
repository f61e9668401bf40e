import DahleOS.Proof.Dispatch
import Mathlib.Data.List.DropRight

/-!
# The room in `full`

`run` puts a line together in `full[256]` from the value of an alias and the arguments, with
two calls of `strcat` that look at no length. Which lines fit can be told before any of them
is put together: the line is a list of pieces, an expansion takes the first word off the
first piece and puts its value in front of the rest, and only lengths are added up.

* `HasRoom`: the lengths along these expansions.
* `roomyPolicy`: `run`, in a buffer without end.
* `hasRoom_congr`: how a text is cut into pieces does not matter.
* `lineHasRoom_foresees`: so the pieces foresee what `run` puts together.
* `full_fits_iff`: when every expansion of a line fits.
* `full_overflow`: a line of 130 characters for which it does not.
-/

namespace DahleOS

open CArray Expander

/-! ## Pieces -/

/-- What a word stands for, if it is no command. -/
def aliasMeaning (t : AliasTable) (name : Str) : Option Str :=
  if name = str "ddf" ∨ name ∈ cmdTable.map Prod.fst then none else (aliasResolve t name).join

/-- A piece in front of others, without the spaces at its front. -/
def inFront (p : Str) (ps : List Str) : List Str := if skipSpaces p = [] then ps else skipSpaces p :: ps

/-- **There is room for `n` expansions** of a line that is given in pieces: each time, the
value, and what is left of the pieces with a space in front of each, are at most 255
characters together. -/
def HasRoom (t : AliasTable) : ℕ → List Str → Prop
  | 0, _ => True
  | _ + 1, [] => True
  | n + 1, p :: ps => match aliasMeaning t (word 63 p) with
    | none => True
    | some value =>
      let behind := inFront (p.drop (word 63 p).length) ps
      value.length + (behind.map fun q => q.length + 1).sum ≤ 255 ∧ HasRoom t n (inFront value behind)

instance decidableHasRoom (t : AliasTable) : (n : ℕ) → (ps : List Str) → Decidable (HasRoom t n ps)
  | 0, _ => isTrue trivial
  | _ + 1, [] => isTrue trivial
  | n + 1, p :: ps =>
    have (value : Str) : Decidable (HasRoom t n (inFront value (inFront (p.drop (word 63 p).length) ps))) :=
      decidableHasRoom t n _
    decidable_of_iff (∀ value ∈ aliasMeaning t (word 63 p),
        value.length + ((inFront (p.drop (word 63 p).length) ps).map fun q => q.length + 1).sum ≤ 255 ∧
          HasRoom t n (inFront value (inFront (p.drop (word 63 p).length) ps))) (by
      rw [HasRoom]
      cases aliasMeaning t (word 63 p) with
      | none => exact iff_of_true (fun value h => by cases h) trivial
      | some value => simp only [Option.mem_def, Option.some.injEq, forall_eq'])

/-- There is room for the expansions of a line that is run at this `run_depth`, or the
trapdoor takes it. -/
def LineHasRoom (d : ℤ) (m : Machine) (line : Str) : Prop :=
  (ddfTrySecret m (skipSpaces line)).1 = true ∨ HasRoom m.aliases (9 - d).toNat (inFront line [])

instance (d : ℤ) (m : Machine) (line : Str) : Decidable (LineHasRoom d m line) :=
  inferInstanceAs (Decidable (_ ∨ _))

/-- `run`'s guard, where value, space and arguments are put together in a buffer without end. -/
def roomyPolicy : Policy Str Expansion := ⟨fun _ => 0, fun x => some (x.1 ++ if x.2 = [] then [] else sp :: x.2)⟩

/-- The text of the pieces, with a space in front of each. -/
def textOf (ps : List Str) : Str := ps.flatMap fun q => sp :: q

/-- No piece is empty or starts with a space. -/
def Trimmed (ps : List Str) : Prop := ∀ q ∈ ps, skipSpaces q = q ∧ q ≠ []

variable {p q value args : Str} {ps qs : List Str} {t : AliasTable}

theorem textOf_nil : textOf [] = [] := rfl

theorem textOf_cons (p : Str) (ps : List Str) : textOf (p :: ps) = sp :: (p ++ textOf ps) := rfl

theorem length_textOf (ps : List Str) : (textOf ps).length = (ps.map fun q => q.length + 1).sum := by
  simp [textOf, List.length_flatMap]

theorem skipSpaces_skipSpaces (s : Str) : skipSpaces (skipSpaces s) = skipSpaces s :=
  List.dropWhile_idempotent _ _

theorem skipSpaces_append (a b : Str) :
    skipSpaces (a ++ b) = if skipSpaces a = [] then skipSpaces b else skipSpaces a ++ b := by
  unfold skipSpaces
  rw [List.dropWhile_append]
  simp only [List.isEmpty_iff]

theorem Trimmed.inFront (h : Trimmed ps) (p : Str) : Trimmed (inFront p ps) := by
  unfold DahleOS.inFront
  split_ifs with hp
  · exact h
  · exact List.forall_mem_cons.2 ⟨⟨skipSpaces_skipSpaces p, hp⟩, h⟩

theorem Trimmed.nil : Trimmed [] := by simp [Trimmed]

/-- The text of trimmed pieces, without the first space. -/
theorem skipSpaces_textOf (h : Trimmed (p :: ps)) : skipSpaces (textOf (p :: ps)) = p ++ textOf ps := by
  obtain ⟨hp, hne⟩ := h p List.mem_cons_self
  have hsp : skipSpaces (sp :: (p ++ textOf ps)) = skipSpaces (p ++ textOf ps) := List.dropWhile_cons_of_pos rfl
  rw [textOf_cons, hsp, skipSpaces_append, hp, if_neg hne]

/-- **What a piece in front does to the text**: it goes in front, and spaces are skipped. -/
theorem textOf_inFront (h : Trimmed ps) (p : Str) : textOf (inFront p ps) =
    if skipSpaces (p ++ textOf ps) = [] then [] else sp :: skipSpaces (p ++ textOf ps) := by
  rw [skipSpaces_append]
  unfold inFront
  by_cases hp : skipSpaces p = []
  · rw [if_pos hp, if_pos hp]
    cases ps with
    | nil => rfl
    | cons q qs =>
      have hne : q ++ textOf qs ≠ [] := fun h' => (h q List.mem_cons_self).2 (List.append_eq_nil_iff.1 h').1
      rw [skipSpaces_textOf h, if_neg hne, textOf_cons]
  · rw [if_neg hp, if_neg hp, if_neg (fun h' => hp (List.append_eq_nil_iff.1 h').1), textOf_cons]

/-- The first word of the text is that of the first piece. -/
theorem word_textOf (p : Str) (ps : List Str) : word 63 (p ++ textOf ps) = word 63 p := by
  have hstop : (textOf ps).takeWhile (· ≠ sp) = [] := by
    cases ps with
    | nil => rfl
    | cons q qs => exact List.takeWhile_cons_of_neg (by simp)
  unfold word
  rw [List.takeWhile_append]
  split_ifs with hall
  · rw [hstop, List.append_nil, (List.takeWhile_prefix _).eq_of_length hall]
  · rfl

theorem length_word_le (s : Str) : (word 63 s).length ≤ s.length :=
  (List.length_take_le' _ _).trans (List.takeWhile_prefix _).length_le

/-- What is left of a text is what is left of its first piece, and the other pieces. -/
theorem textOf_behind (h : Trimmed ps) (p : Str) : textOf (inFront (p.drop (word 63 p).length) ps) =
    if skipSpaces ((p ++ textOf ps).drop (word 63 (p ++ textOf ps)).length) = [] then []
      else sp :: skipSpaces ((p ++ textOf ps).drop (word 63 (p ++ textOf ps)).length) := by
  rw [textOf_inFront h, word_textOf, List.drop_append_of_le_length (length_word_le p)]

/-- **How a text is cut into pieces does not matter.** -/
theorem hasRoom_congr (hp : Trimmed ps) (hq : Trimmed qs) (heq : textOf ps = textOf qs) (n : ℕ) :
    HasRoom t n ps ↔ HasRoom t n qs := by
  induction n generalizing ps qs with
  | zero => exact Iff.rfl
  | succ n ih =>
    cases ps with
    | nil =>
      cases qs with
      | nil => exact Iff.rfl
      | cons q qs => rw [textOf_cons] at heq; cases heq
    | cons p ps =>
      cases qs with
      | nil => rw [textOf_cons] at heq; cases heq
      | cons q qs =>
        rw [textOf_cons, textOf_cons, List.cons.injEq] at heq
        have hp' : Trimmed ps := fun r hr => hp r (List.mem_cons_of_mem _ hr)
        have hq' : Trimmed qs := fun r hr => hq r (List.mem_cons_of_mem _ hr)
        -- the same word, and the same text behind it
        have hword : word 63 p = word 63 q := by rw [← word_textOf p ps, heq.2, word_textOf]
        have hbehind : textOf (inFront (p.drop (word 63 p).length) ps) =
            textOf (inFront (q.drop (word 63 q).length) qs) := by
          rw [textOf_behind hp', textOf_behind hq', heq.2]
        simp only [HasRoom, hword]
        cases aliasMeaning t (word 63 q) with
        | none => exact Iff.rfl
        | some value =>
          rw [hword] at hbehind
          have hvalue : textOf (inFront value (inFront (p.drop (word 63 q).length) ps)) =
              textOf (inFront value (inFront (q.drop (word 63 q).length) qs)) := by
            rw [textOf_inFront (hp'.inFront _), textOf_inFront (hq'.inFront _), hbehind]
          simp only [← length_textOf, hbehind, ih ((hp'.inFront _).inFront value) ((hq'.inFront _).inFront value) hvalue]

/-! ## What `run` puts together -/

theorem find_cmd_eq_none (name : Str) :
    (cmdTable.find? fun e => strcmp e.1 name = 0) = none ↔ name ∉ cmdTable.map Prod.fst := by
  rw [List.find?_eq_none]
  simp only [decide_eq_true_eq, strcmp_eq_zero, List.mem_map, not_exists, not_and]

/-- The test is made for one line. -/
theorem ddfTrySecret_again (m : Machine) (input input' : Str) :
    (ddfTrySecret (ddfTrySecret m input).2 input').1 = false := by
  have hoff : (ddfTrySecret m input).2.ddfWaitingSecret = false := by
    unfold ddfTrySecret
    by_cases hw : m.ddfWaitingSecret = true
    · simp only [hw, Bool.not_true, Bool.false_eq_true, if_false]
      split_ifs <;> rfl
    · simp only [hw, Bool.not_false, if_true]
  generalize (ddfTrySecret m input).2 = m' at hoff
  unfold ddfTrySecret
  rw [hoff]
  rfl

/-- **When a line is an expansion**, and of what. -/
theorem shellAction_expand {m m' : Machine} {line : Str} : shellAction m line = .expand m' (value, args) ↔
    skipSpaces line ≠ [] ∧ (ddfTrySecret m (skipSpaces line)).1 = false ∧
      m' = (ddfTrySecret m (skipSpaces line)).2 ∧
      aliasMeaning m.aliases (word 63 (skipSpaces line)) = some value ∧
      args = skipSpaces ((skipSpaces line).drop (word 63 (skipSpaces line)).length) := by
  have haliases := congrArg World.aliases (ddfTrySecret_toWorld m (skipSpaces line))
  have hfinish (r : Except Stop Machine) : finish r ≠ .expand m' (value, args) := by
    cases r <;> exact fun h => by cases h
  unfold shellAction aliasMeaning
  dsimp only
  rw [← haliases]
  generalize ddfTrySecret m (skipSpaces line) = tried
  obtain ⟨consumed, m₁⟩ := tried
  by_cases hne : skipSpaces line = []
  · simp [hne]
  rw [if_neg hne]
  dsimp only
  cases consumed with
  | true => simp
  | false =>
    rw [if_neg (by decide)]
    generalize word 63 (skipSpaces line) = name
    by_cases hddf : name = str "ddf"
    · simp [hddf, strcmp_eq_zero, hfinish]
    rw [if_neg (fun h => hddf (strcmp_eq_zero.1 h))]
    cases hfind : cmdTable.find? fun e => strcmp e.1 name = 0 with
    | some e =>
      -- a command
      have hmem : name ∈ cmdTable.map Prod.fst := by
        by_contra hno
        rw [(find_cmd_eq_none name).2 hno] at hfind
        cases hfind
      obtain ⟨n, c⟩ := e
      rw [if_pos (Or.inr hmem)]
      refine iff_of_false ?_ (by simp)
      split
      · split <;> exact fun h => by cases h
      · exact hfinish _
      · rename_i hnone
        cases hnone
    | none =>
      rw [if_neg (not_or.2 ⟨hddf, (find_cmd_eq_none name).1 hfind⟩)]
      dsimp only
      cases aliasResolve m₁.aliases name with
      | none => simp
      | some r =>
        cases r with
        | none => simp
        | some v =>
          simp only [Action.expand.injEq, Prod.mk.injEq, Option.join_some, Option.some.injEq, ne_eq, hne,
            not_false_eq_true, true_and]
          exact ⟨fun ⟨h₁, h₂, h₃⟩ => ⟨h₁.symm, h₂, h₃.symm⟩, fun ⟨h₁, h₂, h₃⟩ => ⟨h₁.symm, h₂, h₃.symm⟩⟩

/-- **When a line fits**: the arguments are empty, or value and arguments have at most 254
characters together. -/
theorem aliasLine_eq (x : Expansion) : aliasLine x =
    if x.2 = [] ∨ x.1.length + x.2.length ≤ 254
      then some (x.1.take 254 ++ if x.2 = [] then [] else sp :: x.2) else none := by
  have hfull : cstr (strncpy (fun _ : Fin 256 => 0) x.1 254) = some (x.1.take 254) :=
    cstr_strncpy (by decide) _ rfl _
  have hlen : (x.1.take 254).length = min 254 x.1.length := List.length_take
  unfold aliasLine
  simp only [hfull, Option.bind_eq_bind, Option.bind_some]
  by_cases h : x.2 = []
  · simp [h]
  · have hpos : 0 < x.2.length := List.length_pos_iff.2 h
    have hsp : strcat 256 (x.1.take 254) [sp] = some (x.1.take 254 ++ [sp]) :=
      if_pos (by simp only [hlen, List.length_singleton]; omega)
    simp only [h, if_false, hsp, Option.bind_some, false_or]
    unfold strcat
    simp only [List.length_append, hlen, List.length_singleton, List.append_assoc, List.singleton_append]
    split_ifs <;> first | rfl | omega

/-- A value in the table is a string of at most 127 characters. -/
theorem length_aliasMeaning {name : Str} (h : aliasMeaning t name = some value) : value.length ≤ 127 := by
  unfold aliasMeaning at h
  split_ifs at h
  obtain ⟨r, hr, rfl⟩ : ∃ r, aliasResolve t name = some r ∧ r = some value := by
    cases hres : aliasResolve t name with
    | none => rw [hres] at h; cases h
    | some r => rw [hres] at h; exact ⟨r, rfl, h⟩
  unfold aliasResolve at hr
  obtain ⟨found, -, hr⟩ := Option.bind_eq_some_iff.1 hr
  cases found with
  | none => cases hr
  | some i =>
    obtain ⟨a, -, hr⟩ := Option.bind_eq_some_iff.1 hr
    obtain ⟨s, hs, hr⟩ := Option.bind_eq_some_iff.1 hr
    cases hr
    obtain ⟨rest, hrest⟩ := cstrList_eq_some.1 hs
    have hlen := congrArg List.length hrest
    simp only [List.length_ofFn, List.length_append, List.length_map, List.length_cons] at hlen
    omega

/-- **An expansion in terms of pieces**: it fits if the lengths say so, and what is put
together is the text of the value and of the pieces behind it. -/
theorem aliasLine_pieces (hv : value.length ≤ 127) (hps : Trimmed ps) :
    aliasLine (value, skipSpaces (textOf ps)) =
      if value.length + (ps.map fun q => q.length + 1).sum ≤ 255 then some (value ++ textOf ps) else none := by
  rw [aliasLine_eq, ← length_textOf]
  dsimp only
  rw [List.take_of_length_le (by omega)]
  cases ps with
  | nil =>
    have hnil : skipSpaces [] = [] := rfl
    rw [textOf_nil, hnil, if_pos (Or.inl rfl), if_pos rfl, List.append_nil, List.length_nil,
      if_pos (by omega)]
  | cons p ps =>
    have hne : p ++ textOf ps ≠ [] := fun h => (hps p List.mem_cons_self).2 (List.append_eq_nil_iff.1 h).1
    rw [skipSpaces_textOf hps, if_neg hne, textOf_cons, List.length_cons]
    by_cases hfit : value.length + (p ++ textOf ps).length ≤ 254
    · rw [if_pos (Or.inr hfit), if_pos (by omega)]
    · rw [if_neg (not_or.2 ⟨hne, hfit⟩), if_neg (by omega)]

/-- What `run` puts together, it puts together in a buffer without end. -/
theorem runPolicy_extends : Extends shellAction runPolicy roomyPolicy := by
  refine ⟨rfl, ?_⟩
  rintro m line m' ⟨value, args⟩ line' hact hline
  obtain ⟨-, -, -, hmeaning, -⟩ := shellAction_expand.1 hact
  have hv := length_aliasMeaning hmeaning
  have hline : aliasLine (value, args) = some line' := hline
  rw [aliasLine_eq] at hline
  by_cases hfit : args = [] ∨ value.length + args.length ≤ 254
  · rw [if_pos hfit, List.take_of_length_le (show value.length ≤ 254 by omega)] at hline
    exact hline
  · rw [if_neg hfit] at hline
    cases hline

variable {d : ℤ} {n : ℕ} {m : Machine} {line s : Str}

/-- The line of an alias: there is room for this expansion, and for those of the value and what
is left of the line. -/
theorem lineHasRoom_alias (hs : skipSpaces line = s) (hne : s ≠ []) (htried : (ddfTrySecret m s).1 = false)
    (hn : (9 - d).toNat = n + 1) (hmeaning : aliasMeaning m.aliases (word 63 s) = some value) :
    LineHasRoom d m line ↔
      value.length + ((inFront (s.drop (word 63 s).length) []).map fun q => q.length + 1).sum ≤ 255 ∧
        HasRoom m.aliases n (inFront value (inFront (s.drop (word 63 s).length) [])) := by
  unfold LineHasRoom
  rw [hs, htried, hn, inFront, hs, if_neg hne]
  simp only [Bool.false_eq_true, false_or, HasRoom, hmeaning]

/-- The line that is put together, after the trapdoor has looked at the one before. -/
theorem lineHasRoom_joined (hps : Trimmed ps) (hn : (9 - d).toNat = n) :
    LineHasRoom d (ddfTrySecret m s).2 (value ++ textOf ps) ↔ HasRoom m.aliases n (inFront value ps) := by
  have htext : textOf (inFront (value ++ textOf ps) []) = textOf (inFront value ps) := by
    rw [textOf_inFront .nil, textOf_inFront hps, textOf_nil, List.append_nil]
  unfold LineHasRoom
  rw [ddfTrySecret_again, hn, congrArg World.aliases (ddfTrySecret_toWorld m s)]
  simp only [Bool.false_eq_true, false_or]
  exact hasRoom_congr (Trimmed.nil.inFront _) (hps.inFront _) htext n

/-- The arguments are the text of what is left of the line. -/
theorem args_eq (s : Str) : skipSpaces s = skipSpaces (textOf (inFront s [])) := by
  rw [textOf_inFront .nil, textOf_nil, List.append_nil]
  split_ifs with hnil
  · rw [hnil]; rfl
  · exact (skipSpaces_skipSpaces _).symm

/-- **The pieces foresee what `run` puts together.** -/
theorem lineHasRoom_foresees : Foresees shellAction runPolicy 8 LineHasRoom where
  step := by
    rintro d m line m' ⟨value, args⟩ hact hd
    obtain ⟨hne, htried, rfl, hmeaning, rfl⟩ := shellAction_expand.1 hact
    obtain ⟨n, hn⟩ : ∃ n, (9 - d).toNat = n + 1 := ⟨(8 - d).toNat, by omega⟩
    have hn' : (9 - (d + 1)).toNat = n := by omega
    set s := skipSpaces line with hs
    have htrim : Trimmed (inFront (s.drop (word 63 s).length) []) := Trimmed.nil.inFront _
    have hline := aliasLine_pieces (length_aliasMeaning hmeaning) htrim
    rw [← args_eq] at hline
    rw [lineHasRoom_alias hs.symm hne htried hn hmeaning]
    change _ ↔ ∃ line', aliasLine _ = some line' ∧ _
    rw [hline]
    split_ifs with hfit
    · simp only [hfit, true_and, Option.some.injEq, exists_eq_left', lineHasRoom_joined htrim hn']
    · exact iff_of_false (fun h => hfit h.1) fun ⟨line', h, _⟩ => by cases h
  other := by
    intro d m line hno
    unfold LineHasRoom
    by_cases htried : (ddfTrySecret m (skipSpaces line)).1 = true
    · exact Or.inl htried
    refine Or.inr ?_
    by_cases hne : skipSpaces line = []
    · rw [inFront, if_pos hne]
      cases (9 - d).toNat <;> trivial
    rw [inFront, if_neg hne]
    cases hn : (9 - d).toNat with
    | zero => trivial
    | succ n =>
      rw [HasRoom]
      cases hmeaning : aliasMeaning m.aliases (word 63 (skipSpaces line)) with
      | none => trivial
      | some value =>
        -- an expansion, and the guard lets it through
        have hd := hno _ _ (shellAction_expand.2 ⟨hne, by simpa using htried, rfl, hmeaning, rfl⟩)
        omega

/-! ## The room -/

/-- **When every expansion fits into `full`**: there is room for the expansions of the line
and of every line that `repeat` runs on the way, by the lengths of the values and of the
pieces of the line. Which lines these are is told with a buffer without end. -/
theorem full_fits_iff (d : ℤ) (m : Machine) (line : Str) :
    (∀ fuel, (run fuel d m line).ending ≠ .overflow) ↔
      ∀ d' m' line', Reached shellAction roomyPolicy 8 d m line true d' m' line' → LineHasRoom d' m' line' :=
  lineHasRoom_foresees.never_overflow_iff_of_extends runPolicy_extends

/-- Where nothing repeats lines, it is the line alone that needs room. -/
theorem fits_iff_of_no_loop {d : ℤ} {m : Machine} {line : Str}
    (hno : ∀ own d' m' line', Reached shellAction roomyPolicy 8 d m line own d' m' line' →
      ∀ m₁ n subcmd, shellAction m' line' ≠ .loop m₁ n subcmd) :
    (∀ fuel, (run fuel d m line).ending ≠ .overflow) ↔ LineHasRoom d m line := by
  refine (lineHasRoom_foresees.never_overflow_iff_of_extends runPolicy_extends).trans ⟨fun h => h _ _ _ .first, ?_⟩
  intro h d' m' line' hreached
  cases hreached with
  | first => exact h
  | again hcall hloop _ _ => exact absurd hloop (hno _ _ _ _ hcall _ _ _)

/-- `a`, a space, and `n` more characters. -/
def longLine (n : ℕ) : Str := str "a " ++ List.replicate n ⟨120, by decide⟩

-- `alias a` with 127 characters: 127 more after `a `, and not 128
example : (bareAfter 2 [str "alias " ++ longLine 127]).any fun p =>
    LineHasRoom p.2 p.1 (longLine 127) ∧ ¬ LineHasRoom p.2 p.1 (longLine 128) := by decide +kernel

/-- **A line of 130 characters runs over**, with an alias of full length. -/
theorem full_overflow : ∃ m₀ typed m, bareBoot = some m₀ ∧ Session m₀ typed m 0 ∧
    linesOf typed = [str "alias " ++ longLine 127] ∧ (longLine 128).length = 130 ∧
    ∃ fuel, (run fuel 0 m (longLine 128)).ending = .overflow := by
  have h : (bareAfter 2 [str "alias " ++ longLine 127]).any
      (fun p => p.2 = 0 ∧ (run 2 0 p.1 (longLine 128)).ending = .overflow) = true := by decide +kernel
  obtain ⟨m₀, typed, m, d, hb, hs, hl, hp⟩ := bareAfter_session h
  obtain ⟨rfl, hr⟩ := of_decide_eq_true hp
  exact ⟨m₀, typed, m, hb, hs, hl, by decide +kernel, 2, hr⟩

end DahleOS
