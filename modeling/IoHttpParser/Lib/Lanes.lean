import Mathlib.Tactic

/-!
# Byte lanes of a word

A word read from memory holds one byte in each 8-bit lane, lowest address first. Comparing
all lanes at once by subtracting the same small number from each of them is exact as long
as no lane borrows; the lowest lane that would borrow sets its own top bit. So a word whose
masked difference is zero has every lane at or above the number subtracted.
-/

namespace Lanes

/-- The little-endian value of a string of bytes. -/
def word : List UInt8 → Nat
  | [] => 0
  | b :: bs => 256 * word bs + b.toNat

/-- A one in each of `k` lanes. -/
def ones : Nat → Nat
  | 0 => 0
  | k + 1 => 256 * ones k + 1

lemma word_lt (bs : List UInt8) : word bs < 256 ^ bs.length := by
  induction bs with
  | nil => simp [word]
  | cons b bs ih =>
    have hb : b.toNat < 256 := b.toNat_lt
    rw [word, List.length_cons, pow_succ]
    omega

lemma mul_ones_lt {n : Nat} (hn : n ≤ 128) (k : Nat) : n * ones k < 256 ^ k := by
  induction k with
  | zero => simp [ones]
  | succ k ih =>
    have he : n * ones (k + 1) = 256 * (n * ones k) + n := by rw [ones]; ring
    rw [he, pow_succ]
    omega

/-- Subtracting lane by lane when the lowest lane does not borrow. -/
lemma sub_cons {b n w v k : Nat} (hb : b < 256) (hn : n ≤ b) (hv : v < 256 ^ k) :
    (256 * w + b + (256 ^ (k + 1) - (256 * v + n))) % 256 ^ (k + 1) =
      256 * ((w + (256 ^ k - v)) % 256 ^ k) + (b - n) := by
  have hle : v + 1 ≤ 256 ^ k := hv
  have he : 256 * w + b + (256 ^ (k + 1) - (256 * v + n)) =
      256 * (w + (256 ^ k - v)) + (b - n) := by
    rw [pow_succ]
    omega
  rw [he, pow_succ', Nat.add_mod, Nat.mul_mod_mul_left]
  have hlt : b - n < 256 * 256 ^ k := by omega
  have hm := Nat.mod_lt (w + (256 ^ k - v)) (show 0 < 256 ^ k by omega)
  rw [Nat.mod_eq_of_lt hlt, Nat.mod_eq_of_lt (by omega)]

lemma testBit_cons_zero {b w : Nat} (hb : b < 256) :
    Nat.testBit (256 * w + b) 7 = Nat.testBit b 7 := by
  have h := Nat.testBit_two_pow_mul_add w (i := 8) (b := b) (by omega) 7
  simpa using h

lemma testBit_cons_succ {b w i : Nat} (hb : b < 256) :
    Nat.testBit (256 * w + b) (8 * (i + 1) + 7) = Nat.testBit w (8 * i + 7) := by
  have h := Nat.testBit_two_pow_mul_add w (i := 8) (b := b) (by omega) (8 * (i + 1) + 7)
  rw [if_neg (by omega)] at h
  rw [show 8 * (i + 1) + 7 - 8 = 8 * i + 7 by omega] at h
  exact h

/-- The lowest lane borrows when its byte is too small, and then shows it in its top bit. -/
lemma testBit_low_lane {b n w v k : Nat} (hb : b < 256) (hn : n ≤ 128) (hlt : b < n)
    (hv : v < 256 ^ k) :
    Nat.testBit ((256 * w + b + (256 ^ (k + 1) - (256 * v + n))) % 256 ^ (k + 1)) 7 = true ∧
      Nat.testBit (256 * w + b) 7 = false := by
  have hle : v + 1 ≤ 256 ^ k := hv
  have he : 256 * w + b + (256 ^ (k + 1) - (256 * v + n)) =
      256 * (w + (256 ^ k - (v + 1))) + (256 + b - n) := by
    rw [pow_succ]
    omega
  constructor
  · rw [Nat.testBit_eq_decide_div_mod_eq, decide_eq_true_eq, he]
    have hmod : (256 * (w + (256 ^ k - (v + 1))) + (256 + b - n)) % 256 ^ (k + 1) % 256 =
        256 + b - n := by
      rw [Nat.mod_mod_of_dvd _ ⟨256 ^ k, by rw [pow_succ']⟩]
      omega
    omega
  · rw [testBit_cons_zero hb, Nat.testBit_eq_decide_div_mod_eq, decide_eq_false_iff_not]
    omega

/-- **Lane-wise comparison.** If no lane of the difference has its top bit set without the
lane itself having it, every byte is at least `n`. -/
theorem le_of_masked_sub {n : Nat} (hn : n ≤ 128) {bs : List UInt8}
    (h : ∀ i < bs.length,
      Nat.testBit ((word bs + (256 ^ bs.length - n * ones bs.length)) % 256 ^ bs.length)
        (8 * i + 7) = true → Nat.testBit (word bs) (8 * i + 7) = true) :
    ∀ b ∈ bs, n ≤ b.toNat := by
  induction bs with
  | nil => simp
  | cons b bs ih =>
    have hb : b.toNat < 256 := b.toNat_lt
    have hv := mul_ones_lt hn bs.length
    have hones : n * ones (bs.length + 1) = 256 * (n * ones bs.length) + n := by rw [ones]; ring
    simp only [List.length_cons, word, hones] at h
    have hle : n ≤ b.toNat := by
      by_contra hlt
      have hl := testBit_low_lane (w := word bs) hb hn (not_le.mp hlt) hv
      have h0 := h 0 (by omega) hl.1
      rw [Nat.mul_zero, Nat.zero_add, hl.2] at h0
      cases h0
    have htail : ∀ c ∈ bs, n ≤ c.toNat := by
      apply ih
      intro i hi hbit
      have hs := h (i + 1) (by omega)
      rw [sub_cons hb hle hv, testBit_cons_succ (by omega), testBit_cons_succ hb] at hs
      exact hs hbit
    intro c hc
    rcases List.mem_cons.mp hc with rfl | hc
    · exact hle
    · exact htail c hc

lemma word_xor (c : UInt8) (bs : List UInt8) :
    word bs ^^^ (c.toNat * ones bs.length) = word (bs.map (· ^^^ c)) := by
  induction bs with
  | nil => simp [word, ones]
  | cons b bs ih =>
    have he : c.toNat * ones (bs.length + 1) = 256 * (c.toNat * ones bs.length) + c.toNat := by
      rw [ones]; ring
    rw [List.length_cons, he, List.map_cons, word, word, ← ih, UInt8.toNat_xor]
    apply Nat.eq_of_testBit_eq
    intro i
    have hb : b.toNat < 2 ^ 8 := b.toNat_lt
    have hc : c.toNat < 2 ^ 8 := c.toNat_lt
    have hx : b.toNat ^^^ c.toNat < 2 ^ 8 := Nat.xor_lt_two_pow hb hc
    rw [Nat.testBit_xor, show (256 : Nat) = 2 ^ 8 from rfl, Nat.testBit_two_pow_mul_add _ hb,
      Nat.testBit_two_pow_mul_add _ hc, Nat.testBit_two_pow_mul_add _ hx]
    split <;> rw [Nat.testBit_xor]

/-! ### Eight lanes -/

/-- `memcpy(&chunk, p, sizeof(chunk))` of eight bytes. -/
def load64 (bs : List UInt8) : UInt64 := UInt64.ofNat (word bs)

/-- `ones`, one bit in each lane of a 64-bit word. -/
def ones64 : UInt64 := 0x0101010101010101

/-- `highs`, the top bit of each lane. -/
def highs64 : UInt64 := 0x8080808080808080

lemma toNat_load64 {bs : List UInt8} (h : bs.length = 8) : (load64 bs).toNat = word bs := by
  have hw := word_lt bs
  rw [h] at hw
  rw [load64, UInt64.toNat_ofNat']
  exact Nat.mod_eq_of_lt (by omega)

lemma testBit_highs64 {i : Nat} (h : i < 8) : Nat.testBit highs64.toNat (8 * i + 7) = true := by
  have hall : ∀ i : Fin 8, Nat.testBit highs64.toNat (8 * i.val + 7) = true := by decide
  exact hall ⟨i, h⟩

/-- The 64-bit comparison: a zero mask means that no byte is below `n`. -/
theorem le_of_mask64_eq_zero {n : Nat} (hn : n ≤ 128) {bs : List UInt8} (hl : bs.length = 8)
    {x c : UInt64} (hx : x.toNat = word bs) (hc : c.toNat = n * ones 8)
    (h : (x - c) &&& ~~~x &&& highs64 = 0) : ∀ b ∈ bs, n ≤ b.toNat := by
  apply le_of_masked_sub hn
  intro i hi hbit
  rw [hl] at hi hbit
  have hclt := mul_ones_lt hn 8
  have hsub : (x - c).toNat = (word bs + (256 ^ 8 - n * ones 8)) % 256 ^ 8 := by
    rw [UInt64.toNat_sub, hx, hc, Nat.add_comm, show (2 : Nat) ^ 64 = 256 ^ 8 by norm_num]
  by_contra hnot
  have h0 := congrArg (fun u => Nat.testBit (UInt64.toNat u) (8 * i + 7)) h
  simp only [UInt64.toNat_and, Nat.testBit_and, testBit_highs64 hi, Bool.and_true] at h0
  rw [hsub, hbit, Bool.true_and] at h0
  have hneg : Nat.testBit (~~~x).toNat (8 * i + 7) = !Nat.testBit x.toNat (8 * i + 7) := by
    have hi64 : 8 * i + 7 < 64 := by omega
    have hs := Nat.testBit_two_pow_sub_succ (n := 64) (x := x.toNat) x.toNat_lt (8 * i + 7)
    rw [decide_eq_true hi64, Bool.true_and] at hs
    rw [UInt64.toNat_not, ← hs]
    congr 1
    rw [show UInt64.size = 2 ^ 64 from rfl]
    omega
  rw [hneg, hx] at h0
  simp [hnot] at h0

end Lanes
