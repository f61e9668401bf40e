import DahleOS.Lib.KeyedList
import DahleOS.Proof.Boot

/-!
# The alias table as a map

The filled part of the table is a list keyed by name. `alias_resolve` looks up in it and
`alias` inserts. A name is cut to 31 characters, and its value is read from where the name was cut.

* `aliasResolve_eq`, `cmdAlias_map`: looking up and inserting.
* `alias_map`: any sequence of `alias`, and what one more does to every name that was not cut.
* `alias_cut`: a name that was.
-/

namespace DahleOS

open CArray KeyedList

variable {t : AliasTable} {w w' : World}

/-! ## Looking up -/

/-- The entries in use. -/
def AliasTable.entries (t : AliasTable) : List Alias := slots t.table t.used

theorem aliasResolve_eq (h : t.WellFormed) (name : Str) :
    aliasResolve t name = some ((lookup Alias.nameOf t.entries name).map Alias.valueOf) := by
  unfold aliasResolve
  have hf := find_eq h name
  cases hr : (slots t.table t.used).findIdx? fun a => decide (a.nameOf = name) with
  | none =>
    have hnone : lookup Alias.nameOf t.entries name = none := lookup_eq_none.2 hr
    simp [hf, hr, hnone]
  | some i =>
    rw [hr] at hf
    have hi := lt_of_find h hf
    have hused : i < t.used := by
      have := (List.findIdx?_eq_some_iff_getElem.1 hr).1
      rwa [length_slots _ h.used_le] at this
    have hsome : lookup Alias.nameOf t.entries name = some (t.table ⟨i, hi⟩) :=
      (lookup_of_findIdx? hr).trans (getElem?_slots t.table hused h.used_le)
    simp [hf, hsome, rd_nat _ hi, h.cstr_value]

/-! ## Inserting -/

/-- The command reports success. -/
def AliasMsg.Success : AliasMsg → Prop
  | updated | added => True
  | _ => False

instance : DecidablePred AliasMsg.Success
  | .updated | .added => .isTrue trivial
  | .none | .listing _ | .usage | .full => .isFalse id

theorem length_word (max : ℕ) (s : Str) : (word max s).length ≤ max := List.length_take_le _ _

theorem entries_updated (h : t.WellFormed) {k : Fin 16} {name : Str} (value : Str)
    (hk : (slots t.table t.used).findIdx? (fun a => a.nameOf = name) = some k) :
    ∃ a : Alias, a.nameOf = name ∧ a.valueOf = value.take 127 ∧
      (t.updated k value).entries = insert Alias.nameOf a t.entries := by
  obtain ⟨hlt, hname, -⟩ := List.findIdx?_eq_some_iff_getElem.1 hk
  have hname : (t.table k).nameOf = name := by simpa [getElem_slots] using hname
  have hvalue := cstr_strncpy (show 127 < 128 by decide) (t.table k).value (h.value k) value
  refine ⟨{ t.table k with value := strncpy (t.table k).value value 127 }, hname, ?_, ?_⟩
  · simp [Alias.valueOf, hvalue]
  · -- the entry keeps its name, so it is the one that gives way
    have hkey : ({ t.table k with value := strncpy (t.table k).value value 127 } : Alias).nameOf = name := hname
    rw [← hkey] at hk
    exact (slots_update _ _ _ _).trans (insert_of_findIdx? hk).symm

theorem entries_added (h : t.WellFormed) (hlt : t.used < 16) {name : Str} (hl : name.length ≤ 31) (value : Str)
    (hk : (slots t.table t.used).findIdx? (fun a => a.nameOf = name) = none) :
    ∃ a : Alias, a.nameOf = name ∧ a.valueOf = value.take 127 ∧
      (t.added ⟨t.used, hlt⟩ name value).entries = insert Alias.nameOf a t.entries := by
  have hn := cstr_strncpy (show 31 < 32 by decide) _ (h.name ⟨t.used, hlt⟩) name
  have hv := cstr_strncpy (show 127 < 128 by decide) _ (h.value ⟨t.used, hlt⟩) value
  rw [List.take_of_length_le hl] at hn
  have hname : (⟨strncpy (t.table ⟨t.used, hlt⟩).name name 31,
      strncpy (t.table ⟨t.used, hlt⟩).value value 127⟩ : Alias).nameOf = name := by simp [Alias.nameOf, hn]
  have hused : (t.added ⟨t.used, hlt⟩ name value).used = t.used + 1 := by
    have := toInt_add_one h.count.1 (by have := h.toInt_count; omega)
    have := h.toInt_count
    simp only [AliasTable.used, AliasTable.added]
    omega
  refine ⟨_, hname, by simp [Alias.valueOf, hv], ?_⟩
  rw [← hname] at hk
  unfold AliasTable.entries
  rw [hused]
  exact (slots_push _ hlt _).trans (insert_of_findIdx?_none hk).symm

/-- **`alias` is an insertion**, or changes nothing. -/
theorem cmdAlias_map (h : w.aliases.WellFormed) (args : Str) : ∃ msg w', cmdAlias w args = some (msg, w') ∧
    ((¬ msg.Success ∧ w' = w) ∨ (msg.Success ∧ w'.aliases.WellFormed ∧
      ∃ a : Alias, a.nameOf = (aliasArgs args).1 ∧ a.valueOf = (aliasArgs args).2.take 127 ∧
        w'.aliases.entries = insert Alias.nameOf a w.aliases.entries)) := by
  unfold cmdAlias
  by_cases ha : args = []
  · by_cases hc : w.aliases.count = 0
    · exact ⟨.none, w, by simp [ha, hc], Or.inl ⟨id, rfl⟩⟩
    · obtain ⟨entries, he⟩ := aliasListFrom_total h w.aliases.used 0 (by
        have := h.used_le
        omega)
      have hused : w.aliases.count.toInt.toNat = w.aliases.used := rfl
      exact ⟨.listing entries, w, by simp [ha, hc, hused, he], Or.inl ⟨id, rfl⟩⟩
  have hsaved (t : AliasTable) : (persistSaveAliases { w with aliases := t }).2.aliases = t :=
    persistSave_get .aliases .aliases { w with aliases := t }
  rcases aliasSet_cases h args with hs | hs | ⟨k, hk, hs⟩ | ⟨hlt, hk, hs⟩
  · exact ⟨.usage, w, by simp [ha, hs], Or.inl ⟨id, rfl⟩⟩
  · exact ⟨.full, w, by simp [ha, hs], Or.inl ⟨id, rfl⟩⟩
  · refine ⟨.updated, _, by simp [ha, hs]; rfl, Or.inr ⟨trivial, ?_, ?_⟩⟩
    · rw [hsaved]; exact h.updated _ _
    · rw [hsaved]; exact entries_updated h _ hk
  · refine ⟨.added, _, by simp [ha, hs]; rfl, Or.inr ⟨trivial, ?_, ?_⟩⟩
    · rw [hsaved]; exact h.added hlt _ _ _
    · rw [hsaved]; exact entries_added h hlt (length_word 31 args) _ hk

/-! ## Sequences of commands -/

/-- Some `alias` command leads from one state to the other. -/
def AliasStep (w w' : World) : Prop := ∃ args msg, cmdAlias w args = some (msg, w')

/-- **A table that is a map**: well formed, with distinct names. -/
structure AliasTable.IsMap (t : AliasTable) : Prop where
  wellFormed : t.WellFormed
  nodup : (t.entries.map Alias.nameOf).Nodup

theorem zero_isMap : AliasTable.zero.IsMap := ⟨AliasTable.zero_wellFormed, List.nodup_nil⟩

theorem AliasStep.isMap (h : w.aliases.IsMap) (hstep : AliasStep w w') : w'.aliases.IsMap := by
  obtain ⟨args, msg, hcmd⟩ := hstep
  obtain ⟨msg', w₁, hcmd', hcases⟩ := cmdAlias_map h.wellFormed args
  obtain ⟨rfl, rfl⟩ : msg = msg' ∧ w' = w₁ := by simpa [hcmd] using hcmd'
  rcases hcases with ⟨-, rfl⟩ | ⟨-, hw, a, -, -, hins⟩
  · exact h
  · refine ⟨hw, ?_⟩
    rw [hins]
    exact nodup_insert h.nodup

theorem AliasStep.run (h : w.aliases.IsMap) (hrun : Relation.ReflTransGen AliasStep w w') :
    w'.aliases.IsMap := by
  induction hrun with
  | refl => exact h
  | tail _ hstep ih => exact hstep.isMap ih

/-- The maximal run of non-space characters, and what follows the spaces behind it. -/
def nameAndRest (args : Str) : Str × Str :=
  (args.takeWhile (· ≠ sp), skipSpaces (args.dropWhile (· ≠ sp)))

/-- The name is cut, the value is not looked for behind its end. -/
theorem aliasArgs_name (args : Str) : (aliasArgs args).1 = (nameAndRest args).1.take 31 := rfl

theorem aliasArgs_short {args : Str} (h : (nameAndRest args).1.length ≤ 31) : aliasArgs args = nameAndRest args := by
  have hname : word 31 args = (nameAndRest args).1 := List.take_of_length_le h
  have hsplit : args.takeWhile (· ≠ sp) ++ args.dropWhile (· ≠ sp) = args := List.takeWhile_append_dropWhile
  have hrest : args.drop (nameAndRest args).1.length = args.dropWhile (· ≠ sp) := calc
    _ = (args.takeWhile (· ≠ sp) ++ args.dropWhile (· ≠ sp)).drop (args.takeWhile (· ≠ sp)).length := by
      rw [hsplit]; rfl
    _ = args.dropWhile (· ≠ sp) := List.drop_left
  unfold aliasArgs
  simp only [hname, hrest]
  rfl

/-- **The alias table is a finite map.** After any sequence of `alias` commands on an empty
table the names are distinct and there are at most 16; one more command with any arguments
returns, and changes nothing if it does not report success. If it does, names other than the
one it was given, cut to 31 characters, resolve as before; and if the name was not cut, it
resolves to the value, cut to 127 bytes. -/
theorem alias_map {w₀ w : World} (h₀ : w₀.aliases = .zero) (hrun : Relation.ReflTransGen AliasStep w₀ w)
    (args : Str) :
    (w.aliases.entries.map Alias.nameOf).Nodup ∧ 0 ≤ w.aliases.count.toInt ∧ w.aliases.count.toInt ≤ 16 ∧
    ∃ msg w', cmdAlias w args = some (msg, w') ∧
      (¬ msg.Success → w' = w) ∧
      (msg.Success →
        (∀ name, name ≠ (nameAndRest args).1.take 31 →
          aliasResolve w'.aliases name = aliasResolve w.aliases name) ∧
        ((nameAndRest args).1.length ≤ 31 →
          aliasResolve w'.aliases (nameAndRest args).1 = some (some ((nameAndRest args).2.take 127)))) := by
  have h : w.aliases.IsMap := AliasStep.run (by rw [h₀]; exact zero_isMap) hrun
  refine ⟨h.nodup, h.wellFormed.count.1, h.wellFormed.count.2, ?_⟩
  obtain ⟨msg, w', hcmd, hcases⟩ := cmdAlias_map h.wellFormed args
  refine ⟨msg, w', hcmd, ?_, ?_⟩
  · intro hfail
    rcases hcases with ⟨-, rfl⟩ | ⟨hs, -⟩
    · rfl
    · exact absurd hs hfail
  intro hsuccess
  rcases hcases with ⟨hfail, -⟩ | ⟨-, hw, a, hname, hvalue, hins⟩
  · exact absurd hsuccess hfail
  have hlookup (name : Str) : aliasResolve w'.aliases name =
      some ((if name = a.nameOf then some a else lookup Alias.nameOf w.aliases.entries name).map
        Alias.valueOf) := by
    rw [aliasResolve_eq hw, hins, lookup_insert]
  refine ⟨?_, ?_⟩
  · intro name hne
    rw [hlookup, aliasResolve_eq h.wellFormed, if_neg (by rwa [hname, aliasArgs_name])]
  · intro hshort
    rw [aliasArgs_short hshort] at hname hvalue
    rw [hlookup, if_pos hname.symm, Option.map_some, hvalue]

/-- A machine without a disk, just switched on. -/
def bareWorld : World := World.cleared ⟨fun _ => 0, fun _ _ => .timeout⟩

theorem alias_map_ll : ∃ msg w', cmdAlias bareWorld (str "ll ls") = some (msg, w') ∧ msg.Success ∧
    aliasResolve w'.aliases (str "ll") = some (some (str "ls")) := by
  have hempty : bareWorld.aliases = .zero := rfl
  obtain ⟨-, -, -, msg, w', hcmd, -, hsuccess⟩ := alias_map hempty .refl (str "ll ls")
  have hadded : (cmdAlias bareWorld (str "ll ls")).any (fun r => decide r.1.Success) = true := by decide +kernel
  have hmsg : msg.Success := by simpa [hcmd] using hadded
  exact ⟨msg, w', hcmd, hmsg, (hsuccess hmsg).2 (by decide)⟩

/-- A name of 32 characters. -/
def longName : Str := str "a-name-of-thirty-two-characters-"

/-- **A long name is cut**: `alias` reports success, and the name does not resolve. -/
theorem alias_cut : nameAndRest (longName ++ str " ls") = (longName, str "ls") ∧
    ∃ msg w', cmdAlias bareWorld (longName ++ str " ls") = some (msg, w') ∧ msg.Success ∧
      aliasResolve w'.aliases longName ≠ some (some ((str "ls").take 127)) := by
  have h : (cmdAlias bareWorld (longName ++ str " ls")).any (fun r => decide r.1.Success &&
      decide (aliasResolve r.2.aliases longName = some none)) = true := by decide +kernel
  obtain ⟨⟨msg, w'⟩, hcmd, hr⟩ := (Option.any_eq_true _ _).1 h
  obtain ⟨hmsg, hnone⟩ := (Bool.and_eq_true _ _).mp hr
  refine ⟨by decide, msg, w', hcmd, of_decide_eq_true hmsg, ?_⟩
  rw [of_decide_eq_true hnone]
  simp

end DahleOS
