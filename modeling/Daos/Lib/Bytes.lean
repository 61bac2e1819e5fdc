import Mathlib

/-!
# Byte-addressed memory and little-endian fields

A C program that reads a record through a pointer reads whatever bytes lie at the address, in
the buffer it meant or past its end. `Mem` is that view: every address holds a byte. A buffer
the program fills is a list of bytes laid from address 0, with zeroes after it (`listMem`), the
way a cleared allocation looks. Fields wider than a byte are stored least significant byte
first.

* `leBytes w n` and `leValue`, the `w` little-endian bytes of a natural and back, with both
  round trips.
* `readBytes` and `Mem.Holds` (the memory holds a byte list at an address), with the append rule
  `Mem.holds_append` that takes a record's encoding apart field by field.
* `listMem` and `writeBytes`, and what they hold.
* C strings: a string argument is the list of bytes from its pointer on, read as a terminating
  zero past the list's end; `cStr` is the string up to its terminator, with `strlen` and
  `strncmp`, and `strncmp_eq_zero_iff`: within the bound, `strncmp` is zero exactly when the two
  strings are equal.
-/

namespace Daos.Bytes

/-- The `w` little-endian bytes of `n`; bits above `8 * w` are dropped. -/
def leBytes : ℕ → ℕ → List UInt8
  | 0, _ => []
  | w + 1, n => UInt8.ofNat (n % 256) :: leBytes w (n / 256)

/-- The natural with the given little-endian bytes. -/
def leValue : List UInt8 → ℕ
  | [] => 0
  | b :: bs => b.toNat + 256 * leValue bs

@[simp] theorem leBytes_zero (n : ℕ) : leBytes 0 n = [] := rfl

@[simp] theorem leBytes_succ (w n : ℕ) :
    leBytes (w + 1) n = UInt8.ofNat (n % 256) :: leBytes w (n / 256) := rfl

@[simp] theorem leValue_nil : leValue [] = 0 := rfl

@[simp] theorem leValue_cons (b : UInt8) (bs : List UInt8) :
    leValue (b :: bs) = b.toNat + 256 * leValue bs := rfl

@[simp] theorem length_leBytes (w n : ℕ) : (leBytes w n).length = w := by
  induction w generalizing n with
  | zero => rfl
  | succ w ih => simp only [leBytes_succ, List.length_cons, ih]

theorem leValue_leBytes (w n : ℕ) : leValue (leBytes w n) = n % 256 ^ w := by
  induction w generalizing n with
  | zero => simp only [leBytes_zero, leValue_nil, Nat.pow_zero, Nat.mod_one]
  | succ w ih =>
    have low : n % 256 % 2 ^ 8 = n % 256 := Nat.mod_eq_of_lt (Nat.mod_lt n (by decide))
    rw [leBytes_succ, leValue_cons, ih, UInt8.toNat_ofNat', low, Nat.pow_succ', Nat.mod_mul]

theorem leBytes_leValue (bs : List UInt8) : leBytes bs.length (leValue bs) = bs := by
  induction bs with
  | nil => rfl
  | cons b bs ih =>
    have hb : b.toNat < 256 := b.toNat_lt
    rw [List.length_cons, leBytes_succ, leValue_cons]
    congr 1
    · rw [Nat.add_mul_mod_self_left, Nat.mod_eq_of_lt hb, UInt8.ofNat_toNat]
    · rw [Nat.add_mul_div_left _ _ (by decide), Nat.div_eq_of_lt hb, Nat.zero_add, ih]

/-- Memory as a C pointer sees it: a byte at every address. -/
abbrev Mem := ℕ → UInt8

/-- The `n` bytes from `addr` on. -/
def readBytes (m : Mem) (addr n : ℕ) : List UInt8 :=
  (List.range n).map fun i => m (addr + i)

/-- The little-endian field of `w` bytes at `addr`. -/
def readLE (m : Mem) (addr w : ℕ) : ℕ := leValue (readBytes m addr w)

@[simp] theorem length_readBytes (m : Mem) (addr n : ℕ) : (readBytes m addr n).length = n := by
  simp only [readBytes, List.length_map, List.length_range]

theorem readBytes_add (m : Mem) (addr n k : ℕ) :
    readBytes m addr (n + k) = readBytes m addr n ++ readBytes m (addr + n) k := by
  simp only [readBytes, List.range_add, List.map_append, List.map_map]
  congr 2
  funext i
  simp only [Function.comp_apply, Nat.add_assoc]

/-- The memory holds the bytes `bs` from `addr` on. -/
def Mem.Holds (m : Mem) (addr : ℕ) (bs : List UInt8) : Prop :=
  readBytes m addr bs.length = bs

@[simp] theorem Mem.holds_nil (m : Mem) (addr : ℕ) : m.Holds addr [] := rfl

theorem Mem.holds_append {m : Mem} {addr : ℕ} {l₁ l₂ : List UInt8} :
    m.Holds addr (l₁ ++ l₂) ↔ m.Holds addr l₁ ∧ m.Holds (addr + l₁.length) l₂ := by
  unfold Mem.Holds
  rw [List.length_append, readBytes_add]
  constructor
  · intro h
    exact List.append_inj h (length_readBytes _ _ _)
  · rintro ⟨h₁, h₂⟩
    rw [h₁, h₂]

theorem Mem.holds_cons {m : Mem} {addr : ℕ} {b : UInt8} {bs : List UInt8} :
    m.Holds addr (b :: bs) ↔ m addr = b ∧ m.Holds (addr + 1) bs := by
  rw [← List.singleton_append, Mem.holds_append]
  simp [Mem.Holds, readBytes]

theorem Mem.Holds.readBytes_eq {m : Mem} {addr : ℕ} {bs : List UInt8} (h : m.Holds addr bs) :
    readBytes m addr bs.length = bs := h

/-- A little-endian field reads back as the value it encodes, cut to its width. -/
theorem Mem.Holds.readLE_eq {m : Mem} {addr w n : ℕ} (h : m.Holds addr (leBytes w n)) :
    readLE m addr w = n % 256 ^ w := by
  have hr := h.readBytes_eq
  rw [length_leBytes] at hr
  rw [readLE, hr, leValue_leBytes]

/-- A buffer laid from address 0, with zeroes after it. -/
def listMem (bs : List UInt8) : Mem := fun i => bs.getD i 0

theorem listMem_holds (pre bs post : List UInt8) :
    (listMem (pre ++ bs ++ post)).Holds pre.length bs := by
  unfold Mem.Holds readBytes listMem
  apply List.ext_getElem
  · simp only [List.length_map, List.length_range]
  · intro i hi _
    simp only [List.getElem_map, List.getElem_range, List.getD_eq_getElem?_getD]
    rw [List.append_assoc, List.getElem?_append_right (by omega), Nat.add_sub_cancel_left,
      List.getElem?_append_left (by simpa using hi)]
    simp only [List.getElem?_eq_getElem (by simpa using hi), Option.getD_some]

/-- The memory after `memcpy(addr, bs, len)`. -/
def writeBytes (m : Mem) (addr : ℕ) (bs : List UInt8) : Mem := fun i =>
  if addr ≤ i ∧ i < addr + bs.length then bs.getD (i - addr) 0 else m i

theorem writeBytes_holds (m : Mem) (addr : ℕ) (bs : List UInt8) :
    (writeBytes m addr bs).Holds addr bs := by
  unfold Mem.Holds readBytes writeBytes
  apply List.ext_getElem
  · simp only [List.length_map, List.length_range]
  · intro i hi _
    have hi' : i < bs.length := by simpa using hi
    simp only [List.getElem_map, List.getElem_range, Nat.le_add_right, Nat.add_lt_add_iff_left,
      hi', and_self, ↓reduceIte, Nat.add_sub_cancel_left, List.getD_eq_getElem?_getD,
      List.getElem?_eq_getElem hi', Option.getD_some]

/-- A write leaves alone what lies wholly before or wholly after it. -/
theorem Mem.Holds.writeBytes_of_disjoint {m : Mem} {addr b : ℕ} {bs l : List UInt8}
    (h : m.Holds b l) (apart : b + l.length ≤ addr ∨ addr + bs.length ≤ b) :
    (writeBytes m addr bs).Holds b l := by
  have same : readBytes (writeBytes m addr bs) b l.length = readBytes m b l.length := by
    unfold readBytes writeBytes
    apply List.map_congr_left
    intro i hi
    have hi' : i < l.length := by simpa using hi
    have outside : ¬(addr ≤ b + i ∧ b + i < addr + bs.length) := by omega
    simp only [outside, ↓reduceIte]
  unfold Mem.Holds at h ⊢
  rw [same, h]

/-! ## C strings -/

/-- The characters of a C string before its terminating zero. -/
def cStr : List UInt8 → List UInt8
  | [] => []
  | c :: s => if c = 0 then [] else c :: cStr s

/-- `strlen`. -/
def strlen (s : List UInt8) : ℕ := (cStr s).length

/-- `strnlen`: `strlen`, but reading at most `maxLen` bytes. -/
def strnlen (s : List UInt8) (maxLen : ℕ) : ℕ := min (strlen s) maxLen

/-- `strncmp`: the difference of the first pair of bytes that differ among the first `n`, or
zero when the strings end or the bound is reached first. -/
def strncmp : List UInt8 → List UInt8 → ℕ → ℤ
  | _, _, 0 => 0
  | s, t, n + 1 =>
    let c₁ := s.headD 0
    let c₂ := t.headD 0
    if c₁ ≠ c₂ then (c₁.toNat : ℤ) - c₂.toNat
    else if c₁ = 0 then 0
    else strncmp s.tail t.tail n

/-- `strncpy` into an array of `n` bytes: the string, cut at `n`, then zeros up to `n`. -/
def strncpy (src : List UInt8) (n : ℕ) : List UInt8 :=
  (cStr src).take n ++ List.replicate (n - strlen src) 0

@[simp] theorem cStr_nil : cStr [] = [] := rfl

theorem cStr_cons (c : UInt8) (s : List UInt8) :
    cStr (c :: s) = if c = 0 then [] else c :: cStr s := rfl

@[simp] theorem strlen_nil : strlen [] = 0 := rfl

@[simp] theorem strncmp_zero (s t : List UInt8) : strncmp s t 0 = 0 := rfl

theorem strlen_cons (c : UInt8) (s : List UInt8) :
    strlen (c :: s) = if c = 0 then 0 else strlen s + 1 := by
  unfold strlen
  rw [cStr_cons]
  split <;> rfl

/-- A string that holds a zero ends inside its list. -/
theorem strlen_lt_length {s : List UInt8} (h : s.any (· == 0) = true) : strlen s < s.length := by
  induction s with
  | nil => simp at h
  | cons c s ih =>
    rw [strlen_cons, List.length_cons]
    by_cases hc : c = 0
    · simp only [hc, ↓reduceIte]
      omega
    · have rest : s.any (· == 0) = true := by simpa [hc] using h
      simp only [hc, ↓reduceIte]
      have := ih rest
      omega

theorem length_strncpy (src : List UInt8) (n : ℕ) : (strncpy src n).length = n := by
  simp only [strncpy, List.length_append, List.length_take, List.length_replicate]
  unfold strlen
  omega

theorem byte_toNat_ne_zero {c : UInt8} (h : c ≠ 0) : c.toNat ≠ 0 := by
  intro hz
  exact h (UInt8.toNat_inj.mp (by simpa using hz))

/-- Two different bytes compare as a nonzero difference. -/
theorem byte_sub_ne_zero {c d : UInt8} (h : c ≠ d) : (c.toNat : ℤ) - d.toNat ≠ 0 := by
  intro hz
  exact h (UInt8.toNat_inj.mp (by omega))

/-- Two strings agree within a bound that one of them ends inside exactly when they are the
same string. -/
theorem strncmp_eq_zero_iff {s t : List UInt8} {n : ℕ} (hn : strlen s < n ∨ strlen t < n) :
    strncmp s t n = 0 ↔ cStr s = cStr t := by
  induction n generalizing s t with
  | zero => omega
  | succ n ih =>
    -- one case per way the first bytes of the two strings can compare
    cases s with
    | nil =>
      cases t with
      | nil => simp [strncmp]
      | cons d t =>
        by_cases hd : d = 0
        · simp [strncmp, cStr_cons, hd]
        · simp [strncmp, cStr_cons, hd, Ne.symm hd, byte_toNat_ne_zero hd]
    | cons c s =>
      cases t with
      | nil =>
        by_cases hc : c = 0
        · simp [strncmp, cStr_cons, hc]
        · simp [strncmp, cStr_cons, hc, byte_toNat_ne_zero hc]
      | cons d t =>
        by_cases hcd : c = d
        · subst hcd
          by_cases hc : c = 0
          · simp [strncmp, cStr_cons, hc]
          · have tail : strlen s < n ∨ strlen t < n := by
              simp only [strlen_cons, hc, ↓reduceIte] at hn
              omega
            simp only [strncmp, List.headD_cons, List.tail_cons, ne_eq, not_true_eq_false,
              ↓reduceIte, hc, cStr_cons, List.cons.injEq, true_and]
            exact ih tail
        · have differ : cStr (c :: s) ≠ cStr (d :: t) := by
            by_cases hc : c = 0 <;> by_cases hd : d = 0 <;> simp_all [cStr_cons]
          simp only [strncmp, List.headD_cons, ne_eq, hcd, not_false_eq_true, ↓reduceIte,
            byte_sub_ne_zero hcd, differ]

end Daos.Bytes
