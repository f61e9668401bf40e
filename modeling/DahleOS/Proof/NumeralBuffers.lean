import DahleOS.Lib.DigitWriter
import DahleOS.Lib.MachineWord
import DahleOS.Model.NumeralBuffers
import DahleOS.Proof.AluPrints
import Mathlib.Data.Nat.Digits.Lemmas

/-!
# Numerals in buffers

`int_to_str` and `int_to_bin` write what their models on texts say, into buffers of 12 and
of 34 bytes.

* `decLoop_writes`, `binLoop_writes`: the two loops write the digits of a number.
* `intToStrBuf_eq`, `intToBinBuf_eq`: the buffers.
* `int_to_str_iff`: `int_to_str` prints every number but `INT_MIN`, so that it can be read
  again.
* `int_to_bin`: `int_to_bin` prints every number in binary.
-/

namespace DahleOS

open CArray DigitWriter

variable {k N : ℕ} {n : Int32} {buf : Fin N → UInt8} {s : Str}

/-! ## Digits -/

/-- **The loop of `int_to_str`** writes decimal digits; of a negative number, none. -/
theorem decLoop_writes : Writes (decLoop (k := k)) (fun n => n.toInt.toNat) 10 fun d => (digitCh d).val := by
  constructor
  case stop =>
    intro n t i hzero
    have hneg : ¬ 0 < n := by
      rw [Int32.lt_iff_toInt_lt, Int32.toInt_zero]
      omega
    rw [decLoop, dif_neg hneg]
  case step =>
    intro n t i hne
    have hpos : 0 < n := by
      rw [Int32.lt_iff_toInt_lt, Int32.toInt_zero]
      omega
    refine ⟨n / 10, tenth_toNat hpos, ?_⟩
    have hdigit : (48 + n % 10).toUInt32.toUInt8 = (digitCh (n.toInt.toNat % 10)).val := by
      have hten : (10 : Int32).toInt = 10 := rfl
      have hmod : n % 10 = Int32.ofNat (n.toInt.toNat % 10) := by
        apply Int32.toInt_inj.1
        rw [Int32.toInt_mod, hten, Int32.toInt_ofNat_of_lt (by omega), Int.tmod_eq_emod_of_nonneg (by omega)]
        omega
      have h : ∀ d : Fin 10, (48 + Int32.ofNat d.val).toUInt32.toUInt8 = (digitCh d.val).val := by decide
      rw [hmod]
      exact h ⟨n.toInt.toNat % 10, Nat.mod_lt _ (by decide)⟩
    rw [decLoop, dif_pos hpos, hdigit]
    rfl

/-- **The loop of `int_to_bin`** writes binary digits. -/
theorem binLoop_writes : Writes (binLoop (k := k)) UInt32.toNat 2 fun d => (digitCh d).val := by
  constructor
  case stop =>
    intro u t i hzero
    have hu : ¬ u ≠ 0 := not_not.2 (UInt32.toNat_inj.1 hzero)
    rw [binLoop, dif_neg hu]
  case step =>
    intro u t i hne
    have hu : u ≠ 0 := fun h => hne (congrArg UInt32.toNat h)
    refine ⟨u >>> 1, half_toNat u, ?_⟩
    have hdigit : (48 + (u &&& 1)).toUInt8 = (digitCh (u.toNat % 2)).val := by
      have hone : (1 : UInt32).toNat = 2 ^ 1 - 1 := rfl
      have hand : u &&& 1 = UInt32.ofNat (u.toNat % 2) := by
        apply UInt32.toNat_inj.1
        rw [UInt32.toNat_and, hone, Nat.and_two_pow_sub_one_eq_mod, UInt32.toNat_ofNat_of_lt' (show u.toNat % 2 < 2 ^ 32 by omega)]
      have h : ∀ d : Fin 2, (48 + UInt32.ofNat d.val).toUInt8 = (digitCh d.val).val := by decide
      rw [hand]
      exact h ⟨u.toNat % 2, Nat.mod_lt _ (by decide)⟩
    rw [binLoop, dif_pos hu, hdigit]
    rfl

/-- The digits of a number as a text. -/
def numeral (b n : ℕ) : Str := ((Nat.digits b n).map digitCh).reverse

theorem numeral_zero (b : ℕ) : numeral b 0 = [] := by rw [numeral, Nat.digits_zero]; rfl

theorem numeral_step {b n : ℕ} (hb : 1 < b) (hn : 0 < n) : numeral b n = numeral b (n / b) ++ [digitCh (n % b)] := by
  rw [numeral, Nat.digits_def' hb hn, List.map_cons, List.reverse_cons]
  rfl

/-- The digits of the models on texts, with enough fuel. -/
theorem digits_eq_numeral {b : ℕ} (hb : 1 < b) {digits : ℕ → ℕ → Str} (hzero : ∀ fuel, digits fuel 0 = [])
    (hsucc : ∀ fuel m, digits (fuel + 1) (m + 1) = digits fuel ((m + 1) / b) ++ [digitCh ((m + 1) % b)]) {fuel m : ℕ}
    (hm : m < b ^ fuel) : digits fuel m = numeral b m := by
  induction fuel generalizing m with
  | zero =>
    obtain rfl : m = 0 := Nat.lt_one_iff.1 hm
    rw [hzero, numeral_zero]
  | succ fuel ih =>
    cases m with
    | zero => rw [hzero, numeral_zero]
    | succ m =>
      have hquot : (m + 1) / b < b ^ fuel := Nat.div_lt_of_lt_mul (by rwa [← pow_succ'])
      rw [hsucc, ih hquot, numeral_step hb (Nat.succ_pos m)]

theorem decDigits_eq_numeral {fuel m : ℕ} (hm : m < 10 ^ fuel) : decDigits fuel m = numeral 10 m :=
  digits_eq_numeral (by decide) (fun fuel => by cases fuel <;> rfl) (fun _ _ => rfl) hm

theorem binDigits_eq_numeral {fuel m : ℕ} (hm : m < 2 ^ fuel) : binDigits fuel m = numeral 2 m :=
  digits_eq_numeral (by decide) (fun fuel => by cases fuel <;> rfl) (fun _ _ => rfl) hm

/-! ## Buffers -/

/-- A text and its NUL at the start of a buffer. -/
theorem cstr_of_slots (h : slots buf (s.length + 1) = s.map Subtype.val ++ [0]) : cstr buf = some s := by
  refine cstrList_eq_some.2 ⟨(List.ofFn buf).drop (s.length + 1), ?_⟩
  calc List.ofFn buf = slots buf (s.length + 1) ++ (List.ofFn buf).drop (s.length + 1) := (List.take_append_drop _ _).symm
    _ = s.map Subtype.val ++ 0 :: (List.ofFn buf).drop (s.length + 1) := by
      rw [h, List.append_assoc]
      rfl

/-- **A text is written**: it and its NUL are at the start of the buffer, and the rest is as
it was. -/
def Written (buf buf' : Fin N → UInt8) (s : Str) : Prop :=
  cstr buf' = some s ∧ ∀ i : Fin N, s.length < i.val → buf' i = buf i

/-- The branch of zero. -/
theorem write_zero (hN : 2 ≤ N) (buf : Fin N → UInt8) :
    ∃ buf', ((wr buf 0 48).bind fun buf => wr buf 1 0) = some buf' ∧ Written buf buf' (str "0") := by
  have hfirst : wr buf 0 48 = some (Function.update buf ⟨0, by omega⟩ 48) := wr_nat buf (show 0 < N by omega) 48
  have hsecond (b : Fin N → UInt8) : wr b 1 0 = some (Function.update b ⟨1, by omega⟩ 0) := wr_nat b (show 1 < N by omega) 0
  rw [hfirst, Option.bind_some, hsecond]
  refine ⟨_, rfl, cstr_of_slots ?_, ?_⟩
  · have hlen : (str "0").length + 1 = 0 + 1 + 1 := by decide
    rw [hlen, slots_push _ (show 0 + 1 < N by omega), slots_push _ (show 0 < N by omega), slots_zero]
    decide
  · intro i hi
    have hlen : (str "0").length = 1 := by decide
    rw [Function.update_of_ne, Function.update_of_ne]
    · exact fun h => absurd (congrArg Fin.val h) (by dsimp only; omega)
    · exact fun h => absurd (congrArg Fin.val h) (by dsimp only; omega)

/-- **The last steps**: a text from the scratch array behind what is written already, and the
NUL. -/
theorem write_back {t : Fin k → UInt8} {d p : Str} (b : Fin N → UInt8) (hk : d.length ≤ k)
    (ht : slots t d.length = d.map Subtype.val) (hb : slots b p.length = p.map Subtype.val) (hroom : p.length + d.length < N) :
    ∃ b', ((copyBack t d.length b p.length).bind fun c => wr c.1 c.2 0) = some b' ∧ Written b b' (p ++ d.reverse) := by
  have hlen : (p ++ d.reverse).length = p.length + d.length := by rw [List.length_append, List.length_reverse]
  obtain ⟨b₁, hcopy, hslots, hbehind⟩ := copyBack_eq t hk (b := b) (j := p.length) hroom.le
  refine ⟨Function.update b₁ ⟨p.length + d.length, hroom⟩ 0, ?_, cstr_of_slots ?_, ?_⟩
  · rw [hcopy]
    exact wr_nat b₁ hroom 0
  · rw [hlen, slots_push b₁ hroom, hslots, hb, ht, List.map_append, List.map_reverse]
  · intro x hx
    rw [Function.update_of_ne, hbehind x (by omega)]
    exact fun h => absurd (congrArg Fin.val h) (by dsimp only; omega)

/-- The texts, in the digits that the loops write. -/
theorem intToStr_numeral (hn : n ≠ 0) : intToStr n =
    (if n < 0 then [minus] else []) ++ numeral 10 (if n < 0 then -n else n).toInt.toNat := by
  have hlt := (if n < 0 then -n else n).toInt_lt
  unfold intToStr
  rw [if_neg hn]
  dsimp only
  generalize (if n < 0 then -n else n) = m at hlt ⊢
  by_cases hpos : 0 < m
  · rw [if_pos hpos, decDigits_eq_numeral (by omega)]
    rfl
  · -- `INT_MIN`
    have hzero : m.toInt.toNat = 0 := by
      rw [Int32.lt_iff_toInt_lt, Int32.toInt_zero] at hpos
      omega
    rw [hzero, numeral_zero, if_neg hpos]
    rfl

theorem intToBin_numeral (hn : n ≠ 0) : intToBin n =
    (if n < 0 then [minus] else []) ++ numeral 2 (if n < 0 then -n else n).toUInt32.toNat := by
  unfold intToBin
  rw [if_neg hn]
  dsimp only
  rw [binDigits_eq_numeral (UInt32.toNat_lt _)]
  rfl

/-- What a digit loop leaves in a scratch array with room for `l` digits. -/
theorem writes_numeral {σ : Type} {loop : σ → (Fin k → UInt8) → ℕ → Option ((Fin k → UInt8) × ℕ)} {value : σ → ℕ} {b l : ℕ}
    (h : Writes loop value b fun d => (digitCh d).val) (hb : 1 < b) {x : σ} (hx : value x < b ^ l) (hl : l ≤ k)
    (t : Fin k → UInt8) : ∃ t₁, ∃ ds : Str, loop x t 0 = some (t₁, ds.length) ∧ slots t₁ ds.length = ds.map Subtype.val ∧
      numeral b (value x) = ds.reverse ∧ ds.length ≤ l := by
  have hlen := (Nat.digits_length_le_iff hb (value x)).2 hx
  obtain ⟨t₁, hloop, hslots⟩ := h.digits hb (x := x) (t := t) (i := 0) (by omega)
  rw [Nat.zero_add] at hloop hslots
  refine ⟨t₁, (Nat.digits b (value x)).map digitCh, ?_, ?_, rfl, by rwa [List.length_map]⟩
  · rw [List.length_map]
    exact hloop
  · rw [List.length_map, hslots, List.map_map]
    rfl

/-- **`int_to_str` writes `intToStr`.** -/
theorem intToStrBuf_eq (hN : 12 ≤ N) (n : Int32) (t : Fin 12 → UInt8) (buf : Fin N → UInt8) :
    ∃ buf', intToStrBuf n t buf = some buf' ∧ Written buf buf' (intToStr n) := by
  by_cases hn : n = 0
  · subst hn
    exact write_zero (by omega) buf
  rw [intToStr_numeral hn]
  unfold intToStrBuf
  rw [if_neg hn]
  simp only [decide_eq_true_eq]
  have hlt := (if n < 0 then -n else n).toInt_lt
  generalize (if n < 0 then -n else n) = m at hlt ⊢
  obtain ⟨t₁, ds, hloop, hds, hnum, hlen⟩ := writes_numeral decLoop_writes (by decide) (x := m) (l := 10)
    (show m.toInt.toNat < 10 ^ 10 by omega) (by decide) t
  rw [hnum]
  simp only [hloop, Option.bind_eq_bind, Option.bind_some]
  by_cases hneg : n < 0
  · -- the sign is behind the digits
    have hsign : wr t₁ ds.length 45 = some (Function.update t₁ ⟨ds.length, by omega⟩ minus.val) :=
      wr_nat t₁ (show ds.length < 12 by omega) minus.val
    have hlen₁ : (ds ++ [minus]).length = ds.length + 1 := List.length_append
    have hds₁ : slots (Function.update t₁ ⟨ds.length, by omega⟩ minus.val) (ds ++ [minus]).length =
        (ds ++ [minus]).map Subtype.val := by
      rw [hlen₁, slots_push t₁ (show ds.length < 12 by omega), hds, List.map_append]
      rfl
    obtain ⟨b', hback, hwritten⟩ := write_back (p := []) buf (by omega) hds₁ (slots_zero buf)
      (show 0 + (ds ++ [minus]).length < N by omega)
    rw [hlen₁] at hback
    rw [List.reverse_append] at hwritten
    refine ⟨b', ?_, by rw [if_pos hneg]; exact hwritten⟩
    rw [if_pos hneg, hsign]
    exact hback
  · obtain ⟨b', hback, hwritten⟩ := write_back (p := []) buf (by omega) hds (slots_zero buf) (show 0 + ds.length < N by omega)
    refine ⟨b', ?_, by rw [if_neg hneg]; exact hwritten⟩
    rw [if_neg hneg]
    exact hback

/-- **`int_to_bin` writes `intToBin`**, with 32 entries of its scratch array. -/
theorem intToBinBuf_eq (hk : 32 ≤ k) (hN : 34 ≤ N) (n : Int32) (tmp : Fin k → UInt8) (buf : Fin N → UInt8) :
    ∃ buf', intToBinBuf n tmp buf = some buf' ∧ Written buf buf' (intToBin n) := by
  by_cases hn : n = 0
  · subst hn
    exact write_zero (by omega) buf
  rw [intToBin_numeral hn]
  unfold intToBinBuf
  rw [if_neg hn]
  simp only [decide_eq_true_eq]
  generalize (if n < 0 then -n else n) = m
  obtain ⟨t₁, ds, hloop, hds, hnum, hlen⟩ := writes_numeral binLoop_writes (by decide) (x := m.toUInt32) (l := 32)
    m.toUInt32.toNat_lt hk tmp
  rw [hnum]
  simp only [hloop, Option.bind_eq_bind, Option.bind_some]
  by_cases hneg : n < 0
  · -- the sign is in the buffer already
    have hsign : wr buf 0 45 = some (Function.update buf ⟨0, by omega⟩ minus.val) := wr_nat buf (show 0 < N by omega) minus.val
    have hfirst := slots_push buf (show 0 < N by omega) minus.val
    rw [slots_zero] at hfirst
    obtain ⟨b', hback, hcstr, hbehind⟩ := write_back (p := [minus]) (Function.update buf ⟨0, by omega⟩ minus.val) (by omega)
      hds hfirst (show 1 + ds.length < N by omega)
    refine ⟨b', ?_, by rw [if_pos hneg]; exact hcstr, fun i hi => ?_⟩
    · rw [if_pos hneg, hsign]
      exact hback
    · rw [if_pos hneg] at hi
      rw [hbehind i hi, Function.update_of_ne]
      exact fun h => absurd (congrArg Fin.val h) (Nat.ne_of_gt (Nat.zero_lt_of_lt hi))
  · obtain ⟨b', hback, hwritten⟩ := write_back (p := []) buf (by omega) hds (slots_zero buf) (show 0 + ds.length < N by omega)
    refine ⟨b', ?_, by rw [if_neg hneg]; exact hwritten⟩
    rw [if_neg hneg]
    exact hback

/-! ## `int_to_str` -/

/-- **The promise of `int_to_str`**: the canonical numeral, in 12 bytes, and `str_to_int` reads
it. -/
def PrintsDecimal (n : Int32) (t : Fin 12 → UInt8) (buf : Fin N → UInt8) : Prop :=
  ∃ buf', intToStrBuf n t buf = some buf' ∧ cstr buf' = some (str (toString n.toInt)) ∧
    (∀ i : Fin N, 12 ≤ i.val → buf' i = buf i) ∧ ∀ s, cstr buf' = some s → strToInt s = n

/-- **`int_to_str` keeps its promise** for every number but `INT_MIN`, whatever was in the arrays. -/
theorem int_to_str_iff (hN : 12 ≤ N) (n : Int32) (t : Fin 12 → UInt8) (buf : Fin N → UInt8) :
    PrintsDecimal n t buf ↔ n ≠ Int32.minValue := by
  obtain ⟨buf', hwrite, hcstr, hbehind⟩ := intToStrBuf_eq hN n t buf
  constructor
  · rintro ⟨buf'', hwrite', hcstr', -⟩ rfl
    obtain rfl := Option.some.inj (hwrite.symm.trans hwrite')
    exact ((intToStr_iff _).1 (Option.some.inj (hcstr'.symm.trans hcstr))).2 Int32.toInt_minValue
  · intro hn
    rw [intToStr_eq hn] at hcstr hbehind
    have hlen := length_canonical (z := n.toInt) ⟨n.le_toInt, n.toInt_lt⟩
    refine ⟨buf', hwrite, hcstr, fun i hi => hbehind i (by omega), fun s hs => ?_⟩
    obtain rfl := Option.some.inj (hcstr.symm.trans hs)
    rw [strToInt_denotes (denotes_toString n.toInt), Int32.ofInt_toInt]

/-- The largest number is printed. -/
theorem int_to_str_max : PrintsDecimal Int32.maxValue (fun _ => 0) (fun _ : Fin 12 => 0) :=
  (int_to_str_iff le_rfl Int32.maxValue (fun _ => 0) fun _ => 0).2 (by decide)

/-- Of `INT_MIN` the sign is written. -/
theorem int_to_str_min : ¬ PrintsDecimal Int32.minValue (fun _ => 0) (fun _ : Fin 12 => 0) ∧
    ∃ buf', intToStrBuf Int32.minValue (fun _ : Fin 12 => 0) (fun _ : Fin 12 => 0) = some buf' ∧ cstr buf' = some (str "-") := by
  obtain ⟨buf', hwrite, hcstr, -⟩ := intToStrBuf_eq le_rfl Int32.minValue (fun _ => 0) fun _ : Fin 12 => 0
  have hsign : intToStr Int32.minValue = str "-" := by decide
  rw [hsign] at hcstr
  refine ⟨?_, buf', hwrite, hcstr⟩
  rintro ⟨buf'', hwrite', -, -, hread⟩
  obtain rfl := Option.some.inj (hwrite.symm.trans hwrite')
  exact absurd (hread _ hcstr) (by decide)

/-! ## `int_to_bin` -/

/-- **The shortest binary numeral** of a number. -/
structure ShortestBinary (s : Str) (m : ℕ) : Prop where
  bits : ∀ c ∈ s, IsBit c
  ne_nil : s ≠ []
  value : binValue s = m
  shortest : ∀ t : Str, t ≠ [] → (∀ c ∈ t, IsBit c) → binValue t = m → s.length ≤ t.length

theorem binValue_snoc (s : Str) (c : Ch) : binValue (s ++ [c]) = binValue s * 2 + digitVal c := by
  rw [binValue, List.foldl_append]
  rfl

theorem binValue_digits {ds : List ℕ} (hds : ∀ d ∈ ds, d < 10) : binValue (ds.map digitCh).reverse = Nat.ofDigits 2 ds := by
  induction ds with
  | nil => rfl
  | cons d ds ih =>
    have hval : digitVal (digitCh d) = d := by rw [digitVal, digit_digitCh (hds d List.mem_cons_self), Option.getD_some]
    rw [List.map_cons, List.reverse_cons, binValue_snoc, ih fun e he => hds e (List.mem_cons_of_mem d he), hval,
      Nat.ofDigits_cons]
    omega

/-- The digits of a positive number are its shortest numeral. -/
theorem shortestBinary_numeral {m : ℕ} (hm : 0 < m) : ShortestBinary (numeral 2 m) m := by
  have hlt : ∀ d ∈ Nat.digits 2 m, d < 2 := fun d hd => Nat.digits_lt_base (by decide) hd
  refine ⟨?_, ?_, ?_, ?_⟩
  · intro c hc
    obtain ⟨d, hd, rfl⟩ := List.mem_map.1 (List.mem_reverse.1 hc)
    have hbit : ∀ d : Fin 2, IsBit (digitCh d.val) := by decide
    exact hbit ⟨d, hlt d hd⟩
  · rw [numeral_step (by decide) hm]
    exact List.append_ne_nil_of_right_ne_nil _ (List.cons_ne_nil _ _)
  · rw [numeral, binValue_digits fun d hd => (hlt d hd).trans (by decide), Nat.ofDigits_digits]
  · rintro t - ht rfl
    rw [numeral, List.length_reverse, List.length_map]
    exact (Nat.digits_length_le_iff (by decide) _).2 (binValue_lt ht)

theorem shortestBinary_zero : ShortestBinary (str "0") 0 :=
  ⟨by decide +kernel, by decide, by decide, fun _ ht _ _ => List.length_pos_iff.2 ht⟩

/-- The number without its sign. -/
theorem natAbs_toUInt32 (n : Int32) : (if n < 0 then -n else n).toUInt32.toNat = n.toInt.natAbs := by
  have hlo := n.le_toInt
  have hhi := n.toInt_lt
  have hneg : n < 0 ↔ n.toInt < 0 := by rw [Int32.lt_iff_toInt_lt, Int32.toInt_zero]
  have hmod := MachineWord.toNat_toUInt32 (if n < 0 then -n else n)
  by_cases h : n < 0
  · rw [if_pos h] at hmod ⊢
    rw [hneg] at h
    rw [Int32.toInt_neg, show ((2 : ℤ) ^ 32) = ((2 ^ 32 : ℕ) : ℤ) from rfl, Int.bmod_emod] at hmod
    omega
  · rw [if_neg h] at hmod ⊢
    rw [hneg] at h
    omega

/-- **`int_to_bin` prints every number in binary**, whatever was in the arrays: in 34 bytes of
the buffer, with 32 entries of the scratch array; and what it prints of a number that is not
negative is read again. -/
theorem int_to_bin (hk : 32 ≤ k) (hN : 34 ≤ N) (n : Int32) (tmp : Fin k → UInt8) (buf : Fin N → UInt8) :
    ∃ buf' s, intToBinBuf n tmp buf = some buf' ∧ cstr buf' = some ((if n < 0 then str "-" else []) ++ s) ∧
      ShortestBinary s n.toInt.natAbs ∧ (∀ i : Fin N, 34 ≤ i.val → buf' i = buf i) ∧
      (0 ≤ n → binToInt s = n ∧ parseOperand (str "0b" ++ s) = some n) := by
  obtain ⟨buf', hwrite, hcstr, hbehind⟩ := intToBinBuf_eq hk hN n tmp buf
  obtain ⟨s, htext, hs, hlen⟩ : ∃ s, intToBin n = (if n < 0 then str "-" else []) ++ s ∧
      ShortestBinary s n.toInt.natAbs ∧ s.length ≤ 32 := by
    by_cases hn : n = 0
    · subst hn
      exact ⟨str "0", by decide, shortestBinary_zero, by decide⟩
    · have habs := natAbs_toUInt32 n
      have hpos : 0 < n.toInt.natAbs := Int.natAbs_pos.2 fun h => hn (Int32.toInt_inj.1 h)
      refine ⟨numeral 2 n.toInt.natAbs, ?_, shortestBinary_numeral hpos, ?_⟩
      · rw [intToBin_numeral hn, habs]
        rfl
      · rw [numeral, List.length_reverse, List.length_map, ← habs]
        exact (Nat.digits_length_le_iff (by decide) _).2 (UInt32.toNat_lt _)
  have hsign : (if n < 0 then str "-" else []).length ≤ 1 := by split <;> decide
  have hall : (intToBin n).length ≤ 33 := by
    rw [htext, List.length_append]
    omega
  refine ⟨buf', s, hwrite, htext ▸ hcstr, hs, fun i hi => hbehind i (by omega), fun hn => ?_⟩
  rw [Int32.le_iff_toInt_le, Int32.toInt_zero] at hn
  have hnonneg : ¬ n < 0 := by
    rw [Int32.lt_iff_toInt_lt, Int32.toInt_zero]
    omega
  have hread : binToInt s = n := by
    rw [binToInt_eq hs.ne_nil hs.bits, hs.value, ← Int32.ofInt_eq_ofNat, Int.natAbs_of_nonneg hn, Int32.ofInt_toInt]
  refine ⟨hread, ?_⟩
  rw [parseOperand_binary (binary_append s)]
  have hdrop : (str "0b" ++ s).drop 2 = s := rfl
  rw [hdrop, hread, if_neg hnonneg]

/-- 5, in the arrays that `cmd_alu` has. -/
theorem int_to_bin_five : ∃ buf' s, intToBinBuf 5 (fun _ : Fin 33 => 0) (fun _ : Fin 34 => 0) = some buf' ∧
    cstr buf' = some s ∧ ShortestBinary s 5 ∧ binToInt s = 5 := by
  obtain ⟨buf', s, hwrite, hcstr, hs, -, hread⟩ := int_to_bin (k := 33) (N := 34) (by decide) le_rfl 5 (fun _ => 0) fun _ => 0
  exact ⟨buf', s, hwrite, hcstr, hs, (hread (by decide)).1⟩

end DahleOS
