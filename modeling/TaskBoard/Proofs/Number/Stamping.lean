import Mathlib.Algebra.Order.Ring.Nat
import TaskBoard.Board.Destinations

/-!
The time as it is written into paths. Whatever finite time a clock gives, it has a text made of digits and
perhaps a minus sign, unless its milliseconds pass the range of a floating-point number or have too many digits to
be written.
-/

namespace TaskBoard

namespace Double

theorem one_shiftLeft_52 : 1 <<< 52 = 4503599627370496 := rfl

theorem toNat_bits_withSign {minus : Bool} {magnitude : Nat} (small : magnitude ≤ infinityBits) :
    (withSign minus magnitude).bits.toNat = if minus then magnitude + 1 <<< 63 else magnitude := by
  have bound : infinityBits + 1 <<< 63 < UInt64.size := by decide
  have fits : (if minus then magnitude + 1 <<< 63 else magnitude) < UInt64.size := by
    split <;> omega
  exact UInt64.toNat_ofNat_of_lt fits

theorem isNaN_withSign {minus : Bool} {magnitude : Nat} (small : magnitude ≤ infinityBits) :
    (withSign minus magnitude).isNaN = false := by
  have bits := @toNat_bits_withSign minus magnitude small
  have top : infinityBits = 2047 * 4503599627370496 := rfl
  have sign : 1 <<< 63 = 2048 * 4503599627370496 := rfl
  have fields : 1 <<< 11 = 2048 := rfl
  rw [isNaN, exponentField, fraction, bits, fields, one_shiftLeft_52, Bool.and_eq_false_iff]
  by_cases infinite : magnitude = infinityBits
  · right
    subst infinite
    cases minus <;> decide
  · left
    have field : (if minus then magnitude + 1 <<< 63 else magnitude) / 4503599627370496 % 2048 < 2047 := by
      split <;> omega
    exact beq_false_of_ne (by omega)

theorem isNaN_ofRatio (minus : Bool) (upper lower : Nat) : (ofRatio minus upper lower).isNaN = false := by
  unfold ofRatio
  split
  · exact isNaN_withSign (Nat.zero_le _)
  · exact isNaN_withSign (Nat.min_le_right _ _)

theorem isFinite_of_number {x : Double} (number : x.isNaN = false) (bounded : x.isInfinite = false) :
    x.isFinite = true := by
  unfold isNaN isInfinite at *
  cases filled : x.exponentField == 2047
  · rw [isFinite, bne, filled]
    rfl
  · rw [filled, Bool.true_and] at number bounded
    rw [bne, bounded] at number
    cases number

theorem number_of_isFinite {x : Double} (finite : x.isFinite = true) : x.isNaN = false ∧ x.isInfinite = false := by
  have below_top : (x.exponentField == 2047) = false := by simpa [isFinite] using finite
  exact ⟨by rw [isNaN, below_top]; rfl, by rw [isInfinite, below_top]; rfl⟩

/-- A product of finite numbers is rounded to a number, if perhaps to infinity. -/
theorem isNaN_mul {x y : Double} (first : x.isFinite = true) (second : y.isFinite = true) :
    (x.mul y).isNaN = false := by
  unfold mul
  rw [(number_of_isFinite first).1, (number_of_isFinite second).1, (number_of_isFinite first).2,
    (number_of_isFinite second).2]
  exact isNaN_ofRatio _ _ _

theorem count_lt (x : Double) : x.count < 2 ^ 53 := by
  have part : x.fraction < 1 <<< 52 := Nat.mod_lt _ (by decide)
  have unit : 1 <<< 52 = 2 ^ 52 := rfl
  unfold count
  split <;> omega

theorem scale_le {x : Double} (finite : x.isFinite = true) : x.scale ≤ 971 := by
  have field : x.exponentField < 1 <<< 11 := Nat.mod_lt _ (by decide)
  have fields : 1 <<< 11 = 2048 := rfl
  have below_top : x.exponentField ≠ 2047 := by simpa [isFinite] using finite
  unfold scale
  split <;> omega

/-- A finite number has a whole part below the power of two that no floating-point number reaches. -/
theorem natAbs_truncate_lt {x : Double} (finite : x.isFinite = true) : ∃ n ≤ 1024, x.truncate.natAbs < 2 ^ n := by
  have whole : x.truncate.natAbs = x.ratio.1 / x.ratio.2 := by
    unfold truncate
    dsimp only
    split
    · rw [Int.natAbs_neg]
      rfl
    · rfl
  rw [whole, ratio]
  have units := x.count_lt
  have steps := scale_le finite
  by_cases small : x.scale < 0
  · have powers : powerOfTwo x.scale = (1, 1 <<< (-x.scale).toNat) := if_pos small
    rw [powers]
    refine ⟨53, by omega, ?_⟩
    calc x.count * 1 / 1 <<< (-x.scale).toNat ≤ x.count * 1 := Nat.div_le_self _ _
      _ = x.count := Nat.mul_one _
      _ < 2 ^ 53 := units
  · have powers : powerOfTwo x.scale = (1 <<< x.scale.toNat, 1) := if_neg small
    rw [powers]
    refine ⟨53 + x.scale.toNat, by omega, ?_⟩
    calc x.count * 1 <<< x.scale.toNat / 1 = x.count * 2 ^ x.scale.toNat := by rw [Nat.div_one, Nat.one_shiftLeft]
      _ < 2 ^ 53 * 2 ^ x.scale.toNat := Nat.mul_lt_mul_of_pos_right units (Nat.two_pow_pos _)
      _ = 2 ^ (53 + x.scale.toNat) := (Nat.pow_add 2 53 _).symm

end Double

namespace Clock

/-- Whether the time is a number of seconds. -/
def Finite : Clock → Prop
  | whole _ => True
  | real seconds => seconds.isFinite = true

/-- The times whose milliseconds cannot be told: a whole number with too many digits to be written, and a
floating-point number whose product passes the largest one. -/
inductive Exceeds : Clock → Failure → Prop where
  | long {seconds : Int} (digits : Nat.pow 10 Number.digitLimit ≤ (seconds * 1000).natAbs) :
    Exceeds (whole seconds) .badValue
  | infinite {seconds : Double} (beyond : (seconds.mul (Double.ofInt 1000)).isInfinite = true) :
    Exceeds (real seconds) .overflow

end Clock

theorem two_pow_le_ten_pow {n limit : Nat} (short : n ≤ limit) : 2 ^ n ≤ Nat.pow 10 limit := calc
  2 ^ n ≤ 10 ^ n := Nat.pow_le_pow_left (by decide) n
  _ ≤ 10 ^ limit := Nat.pow_le_pow_right (by decide) short

/-- The texts that a time is written as. -/
structure IsStamp (text : List Char) : Prop where
  filled : text ≠ []
  plain : ∀ c ∈ text, c.isDigit = true ∨ c = '-'

theorem isStamp_repr (n : Nat) : IsStamp n.repr.toList where
  filled := by
    rw [Nat.toList_repr]
    exact Nat.toDigits_ne_nil
  plain c member := by
    rw [Nat.toList_repr] at member
    exact .inl (Nat.isDigit_of_mem_toDigits (by decide) (by decide) member)

theorem isStamp_toString (i : Int) : IsStamp (toString i).toList := by
  cases i with
  | ofNat n => exact isStamp_repr n
  | negSucc n =>
    have written : (toString (Int.negSucc n)).toList = '-' :: (n + 1).repr.toList := String.toList_append
    rw [written]
    refine ⟨List.cons_ne_nil _ _, fun c member => ?_⟩
    rcases List.mem_cons.mp member with rfl | later
    · exact .inr rfl
    · exact (isStamp_repr (n + 1)).plain c later

namespace Board

theorem stampOf_cases {clock : Clock} (finite : clock.Finite) :
    (∃ failure, clock.Exceeds failure ∧ stampOf clock = .error failure) ∨
      (∀ failure, ¬clock.Exceeds failure) ∧ ∃ stamp, IsStamp stamp.toList ∧ stampOf clock = .ok stamp := by
  cases clock with
  | whole seconds =>
    rw [stampOf, Clock.milliseconds, pure_bind]
    by_cases small : (seconds * 1000).natAbs < Nat.pow 10 Number.digitLimit
    · have written := Number.writeWhole_of_small small
      refine .inr ⟨?_, toString (seconds * 1000), isStamp_toString _, written⟩
      intro failure exceeds
      cases exceeds with
      | long digits => omega
    · refine .inl ⟨.badValue, .long (Nat.le_of_not_lt small), ?_⟩
      rw [Number.writeWhole, if_neg small]
      rfl
  | real seconds =>
    have thousand : (Double.ofInt 1000).isFinite = true := by decide +kernel
    have number := Double.isNaN_mul finite thousand
    have time : (Clock.real seconds).milliseconds =
        if (seconds.mul (Double.ofInt 1000)).isInfinite then throw .overflow
        else pure (seconds.mul (Double.ofInt 1000)).truncate := by
      unfold Clock.milliseconds
      dsimp only
      rw [number]
      rfl
    unfold stampOf
    cases bounded : (seconds.mul (Double.ofInt 1000)).isInfinite with
    | true =>
      rw [bounded] at time
      exact .inl ⟨.overflow, .infinite bounded, by rw [time]; rfl⟩
    | false =>
      rw [bounded] at time
      right
      constructor
      · intro failure exceeds
        cases exceeds with
        | infinite beyond =>
          rw [bounded] at beyond
          cases beyond
      · obtain ⟨n, short, below⟩ := Double.natAbs_truncate_lt (Double.isFinite_of_number number bounded)
        have limit : n ≤ Number.digitLimit := Nat.le_trans short (show 1024 ≤ Number.digitLimit by decide)
        have written := Number.writeWhole_of_small (Nat.lt_of_lt_of_le below (two_pow_le_ten_pow limit))
        refine ⟨_, isStamp_toString (seconds.mul (Double.ofInt 1000)).truncate, ?_⟩
        rw [time, if_neg Bool.false_ne_true, pure_bind]
        exact written

end Board

end TaskBoard
