import Mathlib.Data.List.Basic
import Mathlib.Data.List.OfFn
import Mathlib.Data.Int.Init

/-!
# C strings and numerals (`libc/string.c`, `shell/commands.c`)

A C string is the list of its characters, none of which is NUL (`Ch`, `Str`): the
terminator is the end of the list. A `char` array is a function from its indices
(`Fin n → UInt8`) and holds whatever bytes were put there; `cstr` reads the string
in it.

* `strcmp`, `strncmp`, `strncpy`, `strcat`: as in `libc/string.c`.
* `strToInt`, `intToStr`: `str_to_int` and `int_to_str`, in 32-bit arithmetic.
* `skipSpaces`, `word`: the scanning loops every command starts with.
-/

namespace DahleOS

/-- A character of a C string: any byte but the terminator. -/
abbrev Ch := { b : UInt8 // b ≠ 0 }

/-- A C string. -/
abbrev Str := List Ch

/-- A string literal of the source. -/
def str (s : String) : Str :=
  s.toList.filterMap fun c =>
    if h : UInt8.ofNat c.toNat ≠ 0 then some ⟨UInt8.ofNat c.toNat, h⟩ else none

/-- `' '`. -/
def sp : Ch := ⟨32, by decide⟩

/-- `'/'`. -/
def slash : Ch := ⟨47, by decide⟩

/-! ## Buffers -/

/-- The characters up to the first NUL; `none` if there is no NUL. -/
def cstrList : List UInt8 → Option Str
  | [] => none
  | b :: bs => if h : b = 0 then some [] else (cstrList bs).map (⟨b, h⟩ :: ·)

/-- The string in a `char` array; `none` if reading it would run off the array. -/
def cstr {n : ℕ} (buf : Fin n → UInt8) : Option Str := cstrList (List.ofFn buf)

/-- `strncpy(dst, s, k)`: up to `k` characters, filled up to `k` with NULs. -/
def strncpy {n : ℕ} (dst : Fin n → UInt8) (s : Str) (k : ℕ) : Fin n → UInt8 := fun i =>
  if i.val < k then (s[i.val]?.map Subtype.val).getD 0 else dst i

/-- `strcat` onto the string `d` in an array of `cap` bytes; `none` if the result and its
NUL do not fit. -/
def strcat (cap : ℕ) (d s : Str) : Option Str :=
  if d.length + s.length < cap then some (d ++ s) else none

/-- `strcmp`: the difference at the first place where the strings differ. -/
def strcmp : Str → Str → ℤ
  | [], [] => 0
  | a :: _, [] => a.val.toNat
  | [], b :: _ => -b.val.toNat
  | a :: as, b :: bs => if a = b then strcmp as bs else a.val.toNat - b.val.toNat

/-- `strncmp`: the same, over `n` characters at most. -/
def strncmp : ℕ → Str → Str → ℤ
  | 0, _, _ => 0
  | _ + 1, [], [] => 0
  | _ + 1, a :: _, [] => a.val.toNat
  | _ + 1, [], b :: _ => -b.val.toNat
  | n + 1, a :: as, b :: bs => if a = b then strncmp n as bs else a.val.toNat - b.val.toNat

/-! ## Scanning -/

/-- `while (*s == ' ') s++;`. -/
def skipSpaces (s : Str) : Str := s.dropWhile (· = sp)

/-- `while (s[i] && s[i] != ' ' && i < max) out[i++] = s[i];`: the first word, cut to
`max` characters. -/
def word (max : ℕ) (s : Str) : Str := (s.takeWhile (· ≠ sp)).take max

/-! ## Numerals -/

/-- The value of a decimal digit. -/
def digit? (c : Ch) : Option ℕ :=
  if 48 ≤ c.val.toNat ∧ c.val.toNat ≤ 57 then some (c.val.toNat - 48) else none

/-- `while (*s >= '0' && *s <= '9') n = n * 10 + (*s++ - '0');`. -/
def strToIntLoop : Str → Int32 → Int32
  | [], n => n
  | c :: cs, n => match digit? c with
    | some d => strToIntLoop cs (n * 10 + Int32.ofNat d)
    | none => n

/-- `str_to_int`. -/
def strToInt (s : Str) : Int32 :=
  match s with
  | c :: cs => if c.val = 45 then -strToIntLoop cs 0 else strToIntLoop (c :: cs) 0
  | [] => 0

/-- The character of a decimal digit. -/
def digitCh (d : ℕ) : Ch := if h : UInt8.ofNat (48 + d) ≠ 0 then ⟨UInt8.ofNat (48 + d), h⟩ else sp

/-- The decimal digits of `n > 0`, most significant first; `fuel` bounds their number. -/
def decDigits : (fuel n : ℕ) → Str
  | 0, _ => []
  | _ + 1, 0 => []
  | fuel + 1, n => decDigits fuel (n / 10) ++ [digitCh (n % 10)]

/-- `int_to_str`. The digit loop runs while `n > 0`, so `INT_MIN`, its own negation,
prints as the sign alone. -/
def intToStr (n : Int32) : Str :=
  if n = 0 then str "0"
  else
    let m := if n < 0 then -n else n
    (if n < 0 then str "-" else []) ++ (if 0 < m then decDigits 10 m.toInt.toNat else [])

/-! ## Facts -/

theorem strcmp_eq_zero : ∀ {a b : Str}, strcmp a b = 0 ↔ a = b := by
  intro a
  induction a with
  | nil =>
    intro b
    cases b with
    | nil => simp [strcmp]
    | cons c cs =>
      -- a character differs from the terminator
      have := c.property
      have : c.val.toNat ≠ 0 := fun h => this (UInt8.toNat_inj.1 h)
      simp [strcmp]; omega
  | cons a as ih =>
    intro b
    cases b with
    | nil =>
      have := a.property
      have : a.val.toNat ≠ 0 := fun h => this (UInt8.toNat_inj.1 h)
      simp [strcmp]; omega
    | cons c cs =>
      by_cases h : a = c
      · simp [strcmp, h, ih]
      · have : a.val.toNat ≠ c.val.toNat := fun hn => h (Subtype.ext (UInt8.toNat_inj.1 hn))
        simp [strcmp, h]; omega

/-- A string that is compared whole is a prefix. -/
theorem strncmp_length_eq_zero : ∀ {a b : Str}, strncmp b.length a b = 0 ↔ b <+: a := by
  intro a
  induction a with
  | nil =>
    intro b
    cases b with
    | nil => simp [strncmp]
    | cons c cs =>
      have := c.property
      have : c.val.toNat ≠ 0 := fun h => this (UInt8.toNat_inj.1 h)
      simp [strncmp]; omega
  | cons a as ih =>
    intro b
    cases b with
    | nil => simp [strncmp]
    | cons c cs =>
      by_cases h : a = c
      · simp [strncmp, h, ih]
      · have : a.val.toNat ≠ c.val.toNat := fun hn => h (Subtype.ext (UInt8.toNat_inj.1 hn))
        have hc : c ≠ a := fun hc => h hc.symm
        simp [strncmp, h, hc]; omega

theorem cstrList_eq_some {l : List UInt8} {s : Str} :
    cstrList l = some s ↔ ∃ rest, l = s.map Subtype.val ++ 0 :: rest := by
  induction l generalizing s with
  | nil => simp [cstrList]
  | cons b bs ih =>
    by_cases hb : b = 0
    · cases s with
      | nil => simp [cstrList, hb]
      | cons c cs =>
        have : (0 : UInt8) ≠ c.val := c.property.symm
        simp [cstrList, hb, this]
    · cases s with
      | nil => simp [cstrList, hb]
      | cons c cs =>
        simp only [cstrList, hb, dite_false, Option.map_eq_some_iff, List.cons.injEq, List.map_cons,
          List.cons_append]
        constructor
        · rintro ⟨t, ht, rfl, rfl⟩
          obtain ⟨rest, hr⟩ := ih.1 ht
          exact ⟨rest, rfl, hr⟩
        · rintro ⟨rest, rfl, hr⟩
          exact ⟨cs, ih.2 ⟨rest, hr⟩, rfl, rfl⟩

theorem cstr_eq_some {n : ℕ} {buf : Fin n → UInt8} {s : Str} (hl : s.length < n)
    (hch : ∀ i (hi : i < s.length), buf ⟨i, by omega⟩ = s[i].val) (hnul : buf ⟨s.length, hl⟩ = 0) :
    cstr buf = some s := by
  refine cstrList_eq_some.2 ⟨(List.ofFn buf).drop (s.length + 1), ?_⟩
  apply List.ext_getElem
  · simp; omega
  · intro i h1 h2
    simp only [List.length_ofFn] at h1
    rw [List.getElem_ofFn]
    -- a character, the terminator, or what is behind it
    rcases Nat.lt_trichotomy i s.length with hlt | rfl | hgt
    · rw [List.getElem_append_left (by simpa using hlt), hch i hlt, List.getElem_map]
    · rw [List.getElem_append_right (by simp)]
      simp [hnul]
    · rw [List.getElem_append_right (by simp; omega), List.getElem_cons,
        dif_neg (by simp; omega), List.getElem_drop, List.getElem_ofFn]
      congr 2
      simp
      omega

/-- `strncpy` leaves what is behind. -/
theorem strncpy_of_ge {n k : ℕ} (dst : Fin n → UInt8) (s : Str) {i : Fin n} (h : k ≤ i.val) :
    strncpy dst s k i = dst i := if_neg (by omega)

/-- **What `strncpy` writes is read back**, cut to `k` characters, when the array goes on
with a NUL. -/
theorem cstr_strncpy {n k : ℕ} (hk : k < n) (dst : Fin n → UInt8) (hdst : dst ⟨k, hk⟩ = 0)
    (s : Str) : cstr (strncpy dst s k) = some (s.take k) := by
  have hlen : (s.take k).length = min k s.length := List.length_take
  apply cstr_eq_some
  · intro i hi
    have hik : i < k ∧ i < s.length := by omega
    simp [strncpy, hik.1, hik.2]
  · rcases Nat.lt_or_ge s.length k with h | h
    · simp [strncpy, hlen, h, Nat.min_eq_right h.le]
    · simp only [strncpy, hlen, Nat.min_eq_left h, lt_irrefl, if_false]
      exact hdst
  · omega

/-- The same when the NUL is written afterwards. -/
theorem cstr_strncpy_nul {n k : ℕ} (hk : k < n) (dst : Fin n → UInt8) (s : Str) :
    cstr (Function.update (strncpy dst s k) ⟨k, hk⟩ 0) = some (s.take k) := by
  have hswap : Function.update (strncpy dst s k) ⟨k, hk⟩ 0 = strncpy (Function.update dst ⟨k, hk⟩ 0) s k := by
    funext i
    by_cases hi : i = ⟨k, hk⟩
    · subst hi
      rw [Function.update_self]
      exact ((strncpy_of_ge _ s (le_refl k)).trans (Function.update_self ..)).symm
    · rw [Function.update_of_ne hi]
      unfold strncpy
      rw [Function.update_of_ne hi]
  rw [hswap]
  exact cstr_strncpy hk _ (Function.update_self ..) s

end DahleOS
