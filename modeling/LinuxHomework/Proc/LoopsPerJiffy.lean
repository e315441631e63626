import LinuxHomework.Lib.Decimal
import LinuxHomework.Proc.Value

/-! # Setting `loops_per_jiffy`, `4/m3/pm3.c`

A write to the file copies the first bytes of the user's, 16 at most, to a buffer on the stack and
has the kernel's `simple_strtol` read a number there. Nothing ends the bytes in the buffer: what is
read behind them is what the stack held before.

* `SimpleStrtol`: the promise of `simple_strtol`.
* `Right`: the number is that at the start of the bytes written, in all executions, and nothing
  beside the buffer is looked at.
* `procWrite_append`: an execution where the bytes written end the number themselves.
* `procWrite_concat`: one where they do not, so that another byte is taken into the number.
* `right_iff`: the write is right exactly if some byte behind the sign is not a digit. -/

namespace LinuxHomework.Proc.LoopsPerJiffy

open LinuxHomework.Lib.Decimal (isDigit number number_concat length_takeWhile_lt takeWhile_append)
open LinuxHomework.Proc.Value (Call copyFromUser mydataLen len_le length_copyFromUser)

/-! ### The number at the start of a text -/

/-- The sign that `simple_strtol` takes. -/
def minus : UInt8 := 45

def sign (text : List UInt8) : ℤ := if text.head? = some minus then -1 else 1

/-- The text behind its sign. -/
def unsigned (text : List UInt8) : List UInt8 := if text.head? = some minus then text.tail else text

def digits (text : List UInt8) : List UInt8 := (unsigned text).takeWhile isDigit

/-- The number at the start of a text: a sign, if there is one, and the longest row of digits. -/
def prefixNumber (text : List UInt8) : ℤ := sign text * number (digits text)

/-- The sign, the digits and the byte behind them. -/
def looked (text : List UInt8) : ℕ := (text.length - (unsigned text).length) + (digits text).length + 1

/-- `simple_strtol(cp, NULL, 10)` of a kernel with a `long` of `bits` bits, on the memory from `cp`
on: the value and the number of bytes looked at, or `none` if it runs into the end of memory. It
parses up to the first byte that is not a digit, and its value is that of the number in a `long`. -/
structure SimpleStrtol (bits : ℕ) where
  read : List UInt8 → Option (ℤ × ℕ)
  pos : 0 < bits
  reads : ∀ text, (∃ b ∈ unsigned text, ¬ isDigit b) →
    ∃ v, read text = some (v, looked text) ∧ v ≡ prefixNumber text [ZMOD 2 ^ bits]

/-! ### The write -/

/-- What a call does: the value of `loops_per_jiffy` after it, an `unsigned long`, the number of
bytes of memory that are looked at, and what it returns. -/
structure Result where
  loopsPerJiffy : ℤ
  looked : ℕ
  ret : ℤ

/-- The bytes that are copied to `buf`, or zeros in place of those that cannot be. -/
def written (c : Call) : List UInt8 := (copyFromUser c.buffer c.fault c.len).1

variable {bits : ℕ}

/-- `proc_write`, where the stack held `buf`, and `after` is the memory behind it. That not all
could be copied is not looked at. -/
def procWrite (S : SimpleStrtol bits) (c : Call) (buf after : List UInt8) : Option Result :=
  (S.read (written c ++ buf.drop c.len ++ after)).map fun r => ⟨r.1 % 2 ^ bits, r.2, c.len⟩

/-- **The call is right**: in all executions, whatever the stack held, `loops_per_jiffy` is set to
the same value, which is the number that the bytes written begin with, and no byte beside `buf` is
read. -/
structure Right (S : SimpleStrtol bits) (c : Call) : Prop where
  same : ∀ buf after buf' after', buf.length = mydataLen → buf'.length = mydataLen →
    (procWrite S c buf after).map Result.loopsPerJiffy =
      (procWrite S c buf' after').map Result.loopsPerJiffy
  value : ∀ buf after, buf.length = mydataLen →
    (procWrite S c buf after).map Result.loopsPerJiffy = some (prefixNumber (written c) % 2 ^ bits)
  inside : ∀ buf after, buf.length = mydataLen →
    ∃ r, procWrite S c buf after = some r ∧ r.looked ≤ mydataLen

variable {S : SimpleStrtol bits} {c : Call} {text rest : List UInt8} {b : UInt8}

/-! ### What the number depends on -/

theorem length_unsigned_le (text : List UInt8) : (unsigned text).length ≤ text.length := by
  unfold unsigned
  split_ifs
  · rw [List.length_tail]
    omega
  · exact le_rfl

theorem ne_nil_of_unsigned (h : ∃ b ∈ unsigned text, ¬ isDigit b) : text ≠ [] := by
  rintro rfl
  obtain ⟨b, hb, -⟩ := h
  exact absurd hb (by simp [unsigned])

theorem sign_append (h : text ≠ []) : sign (text ++ rest) = sign text := by
  unfold sign
  rw [List.head?_append_of_ne_nil _ h]

theorem unsigned_append (h : text ≠ []) : unsigned (text ++ rest) = unsigned text ++ rest := by
  unfold unsigned
  rw [List.head?_append_of_ne_nil _ h, List.tail_append_of_ne_nil h]
  split_ifs <;> rfl

/-- **Where the number ends inside the text**, nothing depends on what is behind the text. -/
theorem digits_append (h : ∃ b ∈ unsigned text, ¬ isDigit b) :
    digits (text ++ rest) = digits text := by
  unfold digits
  rw [unsigned_append (ne_nil_of_unsigned h), takeWhile_append h]

theorem prefixNumber_append (h : ∃ b ∈ unsigned text, ¬ isDigit b) :
    prefixNumber (text ++ rest) = prefixNumber text := by
  unfold prefixNumber
  rw [digits_append h, sign_append (ne_nil_of_unsigned h)]

theorem looked_append (h : ∃ b ∈ unsigned text, ¬ isDigit b) :
    looked (text ++ rest) = looked text := by
  unfold looked
  rw [digits_append h, unsigned_append (ne_nil_of_unsigned h), List.length_append,
    List.length_append, Nat.add_sub_add_right]

theorem looked_le (h : ∃ b ∈ unsigned text, ¬ isDigit b) : looked text ≤ text.length := by
  have hlt := length_takeWhile_lt h
  have hle := length_unsigned_le text
  unfold looked digits
  omega

/-- **Where it does not**, the digit behind the text belongs to it. -/
theorem digits_concat (rest : List UInt8) (h : ∀ b ∈ unsigned text, isDigit b) (hb : isDigit b)
    (hne : b ≠ minus) :
    sign (text ++ b :: 0 :: rest) = sign text ∧
      unsigned (text ++ b :: 0 :: rest) = unsigned text ++ b :: 0 :: rest ∧
      digits (text ++ b :: 0 :: rest) = unsigned text ++ [b] := by
  have htake : (unsigned text ++ b :: 0 :: rest).takeWhile isDigit = unsigned text ++ [b] := by
    rw [List.takeWhile_append_of_pos h, List.takeWhile_cons_of_pos hb,
      List.takeWhile_cons_of_neg (by decide)]
  unfold digits
  rcases eq_or_ne text [] with rfl | htext
  · refine ⟨by simp [sign, hne], by simp [unsigned, hne], ?_⟩
    rw [← htake]
    simp [unsigned, hne]
  · rw [sign_append htext, unsigned_append htext]
    exact ⟨rfl, rfl, htake⟩

/-! ### Executions -/

/-- The stack can hold anything behind the bytes written. -/
theorem exists_stack (tail : List UInt8) {n : ℕ} (hn : n ≤ mydataLen)
    (htail : mydataLen ≤ n + tail.length) :
    ∃ buf after : List UInt8, buf.length = mydataLen ∧ buf.drop n ++ after = tail := by
  refine ⟨List.replicate n 0 ++ tail.take (mydataLen - n), tail.drop (mydataLen - n), ?_, ?_⟩
  · rw [List.length_append, List.length_replicate, List.length_take]
    omega
  · rw [List.drop_left' List.length_replicate, List.take_append_drop]

/-- **The bytes written end the number themselves.** -/
theorem procWrite_append (h : ∃ b ∈ unsigned (written c), ¬ isDigit b) (buf after : List UInt8) :
    ∃ r, procWrite S c buf after = some r ∧
      r.loopsPerJiffy = prefixNumber (written c) % 2 ^ bits ∧ r.looked ≤ mydataLen := by
  have hlen : looked (written c) ≤ mydataLen := by
    have hle := looked_le h
    have hc := len_le (c := c)
    rw [show (written c).length = c.len from length_copyFromUser] at hle
    omega
  obtain ⟨v, hread, hv⟩ := S.reads (written c ++ (buf.drop c.len ++ after)) (by
    obtain ⟨b, hb, hnot⟩ := h
    rw [unsigned_append (ne_nil_of_unsigned ⟨b, hb, hnot⟩)]
    exact ⟨b, List.mem_append_left _ hb, hnot⟩)
  rw [looked_append h] at hread
  rw [prefixNumber_append h] at hv
  unfold procWrite
  rw [List.append_assoc, hread]
  exact ⟨_, rfl, hv, hlen⟩

/-- **They do not**, and a digit is what the stack held behind them. -/
theorem procWrite_concat (h : ∀ b ∈ unsigned (written c), isDigit b) (hb : isDigit b)
    (hne : b ≠ minus) : ∃ buf after : List UInt8, buf.length = mydataLen ∧
      (procWrite S c buf after).map Result.loopsPerJiffy =
        some (sign (written c) * (10 * number (unsigned (written c)) + (b.toNat - 48) : ℕ) %
          2 ^ bits) := by
  set rest : List UInt8 := List.replicate 14 0
  obtain ⟨buf, after, hbuf, htail⟩ :=
    exists_stack (b :: 0 :: rest) (len_le (c := c)) (by simp [rest, mydataLen])
  obtain ⟨hsign, hunsigned, hdigits⟩ := digits_concat rest h hb hne
  obtain ⟨v, hread, hv⟩ := S.reads (written c ++ b :: 0 :: rest) (by
    rw [hunsigned]
    exact ⟨0, by simp, by decide⟩)
  refine ⟨buf, after, hbuf, ?_⟩
  unfold prefixNumber at hv
  rw [hsign, hdigits, number_concat] at hv
  unfold procWrite
  rw [List.append_assoc, htail, hread]
  exact congrArg some hv

/-- **The write is right** exactly if some byte behind the sign is not a digit. -/
theorem right_iff (S : SimpleStrtol bits) (c : Call) :
    Right S c ↔ ∃ b ∈ unsigned (written c), ¬ isDigit b := by
  constructor
  · intro h
    by_contra hall
    push Not at hall
    obtain ⟨buf, after, hbuf, hzero⟩ := procWrite_concat (S := S) (b := 48) hall rfl (by decide)
    obtain ⟨buf', after', hbuf', hone⟩ := procWrite_concat (S := S) (b := 49) hall rfl (by decide)
    have hsame := h.same buf after buf' after' hbuf hbuf'
    rw [hzero, hone] at hsame
    have hdvd := Int.ModEq.dvd (Option.some.inj hsame)
    have hpow : (2 : ℤ) ∣ 2 ^ bits := dvd_pow_self 2 S.pos.ne'
    have heven := hpow.trans hdvd
    -- the two numbers differ by the sign
    have hsign : sign (written c) = 1 ∨ sign (written c) = -1 := by
      unfold sign
      split_ifs
      · exact Or.inr rfl
      · exact Or.inl rfl
    have h48 : (48 : UInt8).toNat = 48 := rfl
    have h49 : (49 : UInt8).toNat = 49 := rfl
    rw [h48, h49] at heven
    rcases hsign with hs | hs <;> rw [hs] at heven <;> omega
  · intro h
    have hvalue : ∀ buf after, (procWrite S c buf after).map Result.loopsPerJiffy =
        some (prefixNumber (written c) % 2 ^ bits) := by
      intro buf after
      obtain ⟨r, hr, hv, -⟩ := procWrite_append (S := S) h buf after
      rw [hr, Option.map_some, hv]
    refine ⟨fun buf after buf' after' _ _ => ?_, fun buf after _ => hvalue buf after,
      fun buf after _ => ?_⟩
    · rw [hvalue, hvalue]
    · obtain ⟨r, hr, -, hle⟩ := procWrite_append (S := S) h buf after
      exact ⟨r, hr, hle⟩

/-! ### A kernel of 64 bits -/

/-- The kernel's function, on the texts that it comes to an end on. -/
def simpleStrtol : SimpleStrtol 64 where
  read text :=
    if (unsigned text).all isDigit then none else some ((prefixNumber text).bmod (2 ^ 64), looked text)
  pos := by decide
  reads text h := by
    obtain ⟨b, hb, hnot⟩ := h
    rw [if_neg fun hall => hnot (List.all_eq_true.mp hall b hb)]
    exact ⟨_, rfl, Int.bmod_emod⟩

/-- `"5\n"`. -/
theorem right_line : Right simpleStrtol ⟨2, fun i => if i = 0 then 53 else 10, none⟩ :=
  (right_iff _ _).mpr (by decide)

/-- `"5"`, where the stack held `'1'`s. -/
theorem not_right_digit : ¬ Right simpleStrtol ⟨1, fun _ => 53, none⟩ := by
  intro h
  have hvalue := h.value (List.replicate 16 49) [0] rfl
  revert hvalue
  decide +kernel

end LinuxHomework.Proc.LoopsPerJiffy
