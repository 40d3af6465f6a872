import Mathlib.Data.List.Range
import Mathlib.Algebra.Order.Ring.Nat

/-! Numbers as bytes, the lowest first. -/
namespace LittleEndian

def encode (w n : ℕ) : List UInt8 := (List.range w).map fun i => UInt8.ofNat (n / 256 ^ i)

def value (l : List UInt8) : ℕ := l.foldr (fun b n => b.toNat + 256 * n) 0

variable {w n : ℕ} {b : UInt8} {l : List UInt8}

@[simp] theorem value_nil : value [] = 0 := rfl

@[simp] theorem value_cons : value (b :: l) = b.toNat + 256 * value l := rfl

@[simp] theorem length_encode : (encode w n).length = w := by simp [encode]

theorem encode_succ : encode (w + 1) n = UInt8.ofNat n :: encode w (n / 256) := by
  rw [encode, List.range_succ_eq_map, List.map_cons, List.map_map, encode, pow_zero, Nat.div_one]
  congr 1
  apply List.map_congr_left
  intro i _
  rw [Function.comp_apply, Nat.div_div_eq_div_mul, pow_succ']

/-- A number is written up to a multiple of the power of its width. -/
theorem value_encode : value (encode w n) = n % 256 ^ w := by
  induction w generalizing n with
  | zero => simp [encode, Nat.mod_one]
  | succ w ih =>
    have hbyte : (UInt8.ofNat n).toNat = n % 256 := UInt8.toNat_ofNat'
    rw [encode_succ, value_cons, ih, hbyte, pow_succ', Nat.mod_mul]

theorem encode_zero : encode w 0 = List.replicate w 0 := by
  induction w with
  | zero => rfl
  | succ w ih =>
    rw [encode_succ, Nat.zero_div, ih, List.replicate_succ]
    rfl

theorem encode_add {v : ℕ} : encode (v + w) n = encode v n ++ encode w (n / 256 ^ v) := by
  induction v generalizing n with
  | zero => simp [encode]
  | succ v ih =>
    rw [Nat.succ_add, encode_succ, encode_succ, ih, Nat.div_div_eq_div_mul, ← pow_succ',
      List.cons_append]

/-- The bytes of a number that fewer bytes have are these and zeros. -/
theorem encode_value (h : l.length ≤ w) :
    encode w (value l) = l ++ List.replicate (w - l.length) 0 := by
  induction l generalizing w with
  | nil => simp [encode]
  | cons b l ih =>
    obtain ⟨w, rfl⟩ : ∃ w', w = w' + 1 := ⟨w - 1, by simp at h; omega⟩
    have hb : b.toNat < 256 := b.toNat_lt
    have hdiv : (b.toNat + 256 * value l) / 256 = value l := by omega
    have hbyte : UInt8.ofNat (b.toNat + 256 * value l) = b := by
      apply UInt8.toNat_inj.mp
      rw [UInt8.toNat_ofNat']
      omega
    rw [value_cons, encode_succ, hdiv, hbyte, ih (by simpa using h)]
    simp

theorem encode_mod : encode w (n % 256 ^ w) = encode w n := by
  rw [← value_encode, encode_value length_encode.le, length_encode, Nat.sub_self,
    List.replicate_zero, List.append_nil]

end LittleEndian
