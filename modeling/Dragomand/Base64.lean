import Mathlib.Data.Nat.Digits.Defs
import Mathlib.Tactic.Ring

/-!
# Regrouping bits, and base64

A stream of `w`-bit digits, most significant first, is cut into `v`-bit
ones: `Regroup w v a b bits pending` says that the bits of `a` in a row are
those of `b` followed by `bits` more, of value `pending`. Reading a digit
(`Regroup.push`) and cutting one off (`Regroup.emit`) keep it, and with
fewer than `v` bits pending it determines `b` (`Regroup.unique`).

Base64 is the case of 8 and 6: `sextets` cuts three bytes at a time into
four groups, a last one or two bytes into two or three with zero bits at
the end, and `sextets_regroup` says that read back they regroup into the
same bytes.
-/

namespace Base64

/-! ## Digits, most significant first -/

def value (base : Nat) (digits : List Nat) : Nat :=
  Nat.ofDigits base digits.reverse

@[simp] theorem value_nil (base : Nat) : value base [] = 0 := rfl

theorem value_append (base : Nat) (l l' : List Nat) :
    value base (l ++ l') = value base l * base ^ l'.length + value base l' := by
  simp only [value, List.reverse_append, Nat.ofDigits_append, List.length_reverse]
  ring

theorem value_concat (base : Nat) (l : List Nat) (d : Nat) :
    value base (l ++ [d]) = value base l * base + d := by
  rw [value_append]
  simp [value]

theorem value_cons (base d : Nat) (l : List Nat) :
    value base (d :: l) = d * base ^ l.length + value base l := by
  rw [← List.singleton_append, value_append]
  simp [value]

/-! ## Regrouping -/

structure Regroup (w v : Nat) (a b : List Nat) (bits pending : Nat) : Prop where
  length : w * a.length = v * b.length + bits
  value : value (2 ^ w) a = value (2 ^ v) b * 2 ^ bits + pending

section Regroup

variable {w v : Nat} {a b : List Nat} {bits pending : Nat}

theorem Regroup.nil : Regroup w v [] [] 0 0 := ⟨by simp, by simp⟩

theorem Regroup.push (h : Regroup w v a b bits pending) (d : Nat) :
    Regroup w v (a ++ [d]) b (bits + w) (pending * 2 ^ w + d) where
  length := by
    have := h.length
    rw [List.length_append, List.length_singleton, Nat.mul_add, Nat.mul_one]
    omega
  value := by
    rw [value_concat, h.value, pow_add]
    ring

theorem Regroup.emit {d : Nat} (h : Regroup w v a b (bits + v) (d * 2 ^ bits + pending)) :
    Regroup w v a (b ++ [d]) bits pending where
  length := by
    have := h.length
    rw [List.length_append, List.length_singleton, Nat.mul_add, Nat.mul_one]
    omega
  value := by
    rw [value_concat, h.value, pow_add]
    ring

/-- A part that comes out even can stand in front. -/
theorem Regroup.append {a' b' : List Nat} (h : Regroup w v a b 0 0)
    (h' : Regroup w v a' b' bits pending) :
    Regroup w v (a ++ a') (b ++ b') bits pending where
  length := by
    have := h.length
    have := h'.length
    rw [List.length_append, List.length_append, Nat.mul_add, Nat.mul_add]
    omega
  value := by
    have hpow : (2 ^ w) ^ a'.length = (2 ^ v) ^ b'.length * 2 ^ bits := by
      rw [← pow_mul, ← pow_mul, ← pow_add, h'.length]
    rw [value_append, value_append, h.value, h'.value, hpow]
    ring

/-- Both sides read the same stream, so they cut the same digits off it. -/
theorem Regroup.unique {b' : List Nat} {bits' pending' : Nat}
    (h : Regroup w v a b bits pending) (h' : Regroup w v a b' bits' pending')
    (hv : 0 < v) (hbits : bits < v) (hbits' : bits' < v)
    (hpending : pending < 2 ^ bits) (hpending' : pending' < 2 ^ bits')
    (hb : ∀ d ∈ b, d < 2 ^ v) (hb' : ∀ d ∈ b', d < 2 ^ v) : b = b' := by
  have hlen : v * b.length + bits = v * b'.length + bits' := h.length.symm.trans h'.length
  have hcount : b.length = b'.length := by
    have hdiv := congrArg (· / v) hlen
    simpa [Nat.mul_add_div hv, Nat.div_eq_of_lt hbits, Nat.div_eq_of_lt hbits'] using hdiv
  obtain rfl : bits = bits' := by
    rw [hcount] at hlen
    omega
  have hvalue := congrArg (· / 2 ^ bits) (h.value.symm.trans h'.value)
  simp only [Nat.mul_comm _ (2 ^ bits), Nat.mul_add_div (Nat.two_pow_pos bits),
    Nat.div_eq_of_lt hpending, Nat.div_eq_of_lt hpending', Nat.add_zero] at hvalue
  have hbase : 1 < 2 ^ v := Nat.one_lt_two_pow (Nat.pos_iff_ne_zero.mp hv)
  refine List.reverse_inj.mp (Nat.ofDigits_inj_of_len_eq hbase ?_ ?_ ?_ hvalue)
  · simpa using hcount
  · simpa using hb
  · simpa using hb'

end Regroup

/-! ## Base64 -/

/-- Six bits at a time, the last group filled up with zero bits. -/
def sextets : List UInt8 → List Nat
  | [] => []
  | [x] => [x.toNat / 4, x.toNat % 4 * 16]
  | [x, y] => [x.toNat / 4, x.toNat % 4 * 16 + y.toNat / 16, y.toNat % 16 * 4]
  | x :: y :: z :: rest =>
      [x.toNat / 4, x.toNat % 4 * 16 + y.toNat / 16, y.toNat % 16 * 4 + z.toNat / 64,
        z.toNat % 64] ++ sextets rest

/-- The bits that fill up the last group. -/
def fill : List UInt8 → Nat
  | [] => 0
  | [_] => 4
  | [_, _] => 2
  | _ :: _ :: _ :: rest => fill rest

/-- The digit of a group in the standard alphabet: `A` to `Z`, `a` to `z`,
`0` to `9`, `+`, `/`. -/
def digit (n : Nat) : UInt8 :=
  if n < 26 then UInt8.ofNat (65 + n)
  else if n < 52 then UInt8.ofNat (97 + (n - 26))
  else if n < 62 then UInt8.ofNat (48 + (n - 52))
  else if n = 62 then 43
  else 47

/-- Without padding. -/
def encode (bytes : List UInt8) : List UInt8 := (sextets bytes).map digit

/-- The padding to full groups of four digits, `=` for each missing one. -/
def padding (bytes : List UInt8) : List UInt8 :=
  List.replicate ((3 - bytes.length % 3) % 3) 61

theorem sextets_lt (bytes : List UInt8) : ∀ d ∈ sextets bytes, d < 64 := by
  fun_induction sextets bytes with
  | case1 => simp
  | case2 x =>
      have := x.toNat_lt
      simp only [List.forall_mem_cons]
      exact ⟨by omega, by omega, by simp⟩
  | case3 x y =>
      have := x.toNat_lt
      have := y.toNat_lt
      simp only [List.forall_mem_cons]
      exact ⟨by omega, by omega, by omega, by simp⟩
  | case4 x y z rest ih =>
      have := x.toNat_lt
      have := y.toNat_lt
      have := z.toNat_lt
      simp only [List.cons_append, List.nil_append, List.forall_mem_cons]
      exact ⟨by omega, by omega, by omega, by omega, ih⟩

theorem sextets_regroup (bytes : List UInt8) :
    Regroup 6 8 (sextets bytes) (bytes.map UInt8.toNat) (fill bytes) 0 := by
  fun_induction sextets bytes with
  | case1 => exact .nil
  | case2 x =>
      refine ⟨rfl, ?_⟩
      simp only [List.map_cons, List.map_nil, value_cons, value_nil, List.length_cons,
        List.length_nil, fill]
      norm_num
      omega
  | case3 x y =>
      refine ⟨rfl, ?_⟩
      simp only [List.map_cons, List.map_nil, value_cons, value_nil, List.length_cons,
        List.length_nil, fill]
      norm_num
      omega
  | case4 x y z rest ih =>
      have hgroup : Regroup 6 8
          [x.toNat / 4, x.toNat % 4 * 16 + y.toNat / 16, y.toNat % 16 * 4 + z.toNat / 64,
            z.toNat % 64] [x.toNat, y.toNat, z.toNat] 0 0 := by
        refine ⟨rfl, ?_⟩
        simp only [value_cons, value_nil, List.length_cons, List.length_nil]
        norm_num
        omega
      exact hgroup.append ih

theorem fill_lt (bytes : List UInt8) : fill bytes < 8 := by
  fun_induction fill bytes with
  | case4 x y z rest ih => exact ih
  | _ => decide

end Base64
