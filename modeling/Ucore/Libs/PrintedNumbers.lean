import Ucore.Libs.Strtol
import Ucore.Libs.Vsnprintf

/-! # Numbers printed and read back

`%ld` puts the sign in front of the padding, and the flag `-` pads with minus signs, on the
left like the other flags. `strtol` reads blanks before a sign only, and one sign.
-/

namespace Ucore.Libs.PrintedNumbers

open Lib.Bytes Printfmt Formatted Vprintfmt Vsnprintf Strtol

inductive Flag where
  | blank
  | zero
  | minus
  deriving DecidableEq, Repr

namespace Flag

def text : Flag → List UInt8
  | blank => []
  | zero => [chr '0']
  | minus => [chr '-']

def padc : Flag → UInt8
  | blank => chr ' '
  | zero => chr '0'
  | minus => chr '-'

end Flag

/-- The decimal digits, the most significant one first. -/
def decimal (n : Nat) : List Nat := if n = 0 then [0] else (Nat.digits 10 n).reverse

def widthText (w : Nat) : List UInt8 := if w = 0 then [] else (decimal w).map digitChar

/-- `%`, the flag, the width if there is one, and `ld`. -/
def numberFormat (flag : Flag) (w : Nat) : List UInt8 := chr '%' :: (flag.text ++ (widthText w ++ [chr 'l', chr 'd']))

/-! ## Decimal digits -/

theorem decimal_lt {n : Nat} : ∀ d ∈ decimal n, d < 10 := by
  intro d inside
  rw [decimal] at inside
  split at inside
  · rw [List.mem_singleton.mp inside]
    decide
  · exact Nat.digits_lt_base (by decide) (List.mem_reverse.mp inside)

theorem decimal_value (n : Nat) : (decimal n).foldl (fun val d => val * 10 + d) 0 = n := by
  rw [decimal]
  split
  · rename_i zero
    rw [zero]
    rfl
  · rw [List.foldl_reverse]
    have value := Nat.ofDigits_digits 10 n
    rw [Nat.ofDigits_eq_foldr] at value
    simpa only [Nat.cast_id, Nat.add_comm, Nat.mul_comm] using value

/-- There is a first digit, which is 0 only for 0. -/
theorem decimal_head (n : Nat) : ∃ d ds, decimal n = d :: ds ∧ (n ≠ 0 → d ≠ 0) := by
  rw [decimal]
  split
  · rename_i zero
    exact ⟨0, [], rfl, fun some => absurd zero some⟩
  · rename_i some
    have nonempty : Nat.digits 10 n ≠ [] := Nat.digits_ne_nil_iff_ne_zero.mpr some
    have last := Nat.getLast_digit_ne_zero 10 some
    have split := congrArg List.reverse (List.dropLast_append_getLast nonempty)
    rw [List.reverse_append, List.reverse_singleton, List.singleton_append] at split
    exact ⟨_, _, split.symm, fun _ => last⟩

theorem numerals_eq (n : Nat) : numerals 10 n = (decimal n).map fun d => ((digitChar d).toNat : Int) := by
  rw [numerals, decimal]
  split
  · decide
  · rfl

theorem digitChar_isDigit {d : Nat} (ten : d < 10) : ¬ (digitChar d < chr '0' ∨ digitChar d > chr '9') := by
  interval_cases d <;> decide

theorem digitChar_value {d : Nat} (ten : d < 10) : ((digitChar d).toNat : Int) = d + ord '0' := by
  interval_cases d <;> decide

/-! ## The format -/

theorem int_mul_add (x y z : Int) : int (int x * y + z) = int (x * y + z) := by
  unfold int
  rw [← Int.bmod_add_bmod, Int.bmod_mul_bmod, Int.bmod_add_bmod]

/-- The number is read as the `int` that its digits make, whatever wraps on the way. -/
theorem digitRun_eq {ds : List Nat} (ten : ∀ d ∈ ds, d < 10) {ch : UInt8} (rest : List UInt8) (val : Nat)
    (ends : ch < chr '0' ∨ ch > chr '9') :
    digitRun (ds.map digitChar ++ ch :: rest)
      (int val) = (int ↑(ds.foldl (fun val d => val * 10 + d) val), ch :: rest) := by
  induction ds generalizing val with
  | nil => rw [List.map_nil, List.nil_append, digitRun, if_pos ends, List.foldl_nil]
  | cons d ds ih =>
      have small := ten d List.mem_cons_self
      have value : int (int val * 10 + (digitChar d).toNat - ord '0') = int ((val * 10 + d : Nat) : Int) := by
        rw [digitChar_value small, ← add_assoc, add_sub_cancel_right, int_mul_add]
        push_cast
        rfl
      rw [List.map_cons, List.cons_append, digitRun, if_neg (digitChar_isDigit small), value,
        ih (fun d inside => ten d (List.mem_cons_of_mem _ inside)), List.foldl_cons]

theorem switch_digitChar {d : Nat} (ten : d < 10) (nonzero : d ≠ 0) : switch (digitChar d) = .digit := by
  interval_cases d
  · exact absurd rfl nonzero
  all_goals decide

/-- The width the modifiers set. -/
def widthOf (w : Nat) : Int := if w = 0 then -1 else int w

theorem modifiers_width (args : Args) (w : Nat) (padc : UInt8) :
    modifiers args (widthText w ++ [chr 'l', chr 'd']) 0 { padc } =
      ({ padc, width := widthOf w, lflag := 1 }, 0, [chr 'd']) := by
  have long : switch (chr 'l') = .long := by decide
  have last : switch (chr 'd') = .decimal := by decide
  have one : int (0 + 1) = 1 := int_eq (by decide) (by decide)
  have tail (c : Conv) (none : c.lflag = 0) : modifiers args [chr 'l', chr 'd'] 0 c =
    ({ c with lflag := 1 }, 0, [chr 'd']) := by
    rw [modifiers, long]
    dsimp only
    rw [modifiers, last, none, one]
  rw [widthText, widthOf]
  by_cases zero : w = 0
  · rw [if_pos zero, if_pos zero, List.nil_append, tail _ rfl]
  · obtain ⟨d, ds, split, head⟩ := decimal_head w
    have ten : ∀ c ∈ d :: ds, c < 10 := fun c inside => decimal_lt c (split ▸ inside)
    have value := decimal_value w
    rw [split, List.foldl_cons, Nat.zero_mul, Nat.zero_add] at value
    have run : number (digitChar d) (ds.map digitChar ++ [chr 'l', chr 'd']) = (int w, [chr 'l', chr 'd']) := by
      have first : int (0 * 10 + (digitChar d).toNat - ord '0') = int d := by
        rw [digitChar_value (ten d List.mem_cons_self), zero_mul, zero_add, add_sub_cancel_right]
      have digits := digitRun_eq (fun d inside => ten d (List.mem_cons_of_mem _ inside)) [chr 'd'] d
        (show chr 'l' < chr '0' ∨ chr 'l' > chr '9' by decide)
      rw [number, first, digits, value]
    rw [if_neg zero, if_neg zero, split, List.map_cons, List.cons_append, modifiers,
      switch_digitChar (ten d List.mem_cons_self) (head zero)]
    dsimp only
    rw [run]
    dsimp only
    rw [tail _ rfl]
    rfl

theorem modifiers_numberFormat (args : Args) (flag : Flag) (w : Nat) :
    modifiers args (flag.text ++ (widthText w ++ [chr 'l', chr 'd'])) 0 {} =
      ({ padc := flag.padc, width := widthOf w, lflag := 1 }, 0, [chr 'd']) := by
  have zero : switch (chr '0') = .zero := by decide
  have minus : switch (chr '-') = .minus := by decide
  cases flag with
  | blank => exact modifiers_width args w (chr ' ')
  | zero =>
      rw [Flag.text, List.singleton_append, modifiers, zero]
      exact modifiers_width args w (chr '0')
  | minus =>
      rw [Flag.text, List.singleton_append, modifiers, minus]
      exact modifiers_width args w (chr '-')

/-! ## The text -/

/-- How many pad characters there are: what the width, as an `int`, has over the digits. -/
def padding (w : Nat) (v : BitVec 64) : Nat := (int (widthOf w - (decimal v.toInt.natAbs).length)).toNat

/-- The text printed for `v`. -/
def numberText (flag : Flag) (w : Nat) (v : BitVec 64) : List UInt8 :=
  (if v.toInt < 0 then [chr '-'] else []) ++
    (List.replicate (padding w v) flag.padc ++ (decimal v.toInt.natAbs).map digitChar)

theorem ofInt_toNat (ch : UInt8) : UInt8.ofInt ch.toNat = ch := by
  have small := ch.toNat_lt
  apply UInt8.toNat_inj.mp
  simp only [UInt8.ofInt, UInt8.toNat_ofNat']
  omega

theorem natAbs_lt (v : BitVec 64) : v.toInt.natAbs < 10 ^ 20 := by
  have low : -2 ^ 63 ≤ v.toInt := BitVec.le_toInt v
  have high : v.toInt < 2 ^ 63 := BitVec.toInt_lt
  omega

theorem decimal_length (v : BitVec 64) : (decimal v.toInt.natAbs).length ≤ 20 := by
  have bound := numerals_length_le (by decide) (by decide) (natAbs_lt v)
  rwa [numerals_eq, List.length_map] at bound

theorem padding_eq {w : Nat} (fits : w < 2 ^ 31) (v : BitVec 64) :
    padding w v = w - (decimal v.toInt.natAbs).length := by
  have few := decimal_length v
  have digits : 0 < (decimal v.toInt.natAbs).length := by
    obtain ⟨d, ds, split, -⟩ := decimal_head v.toInt.natAbs
    rw [split]
    exact Nat.succ_pos _
  rw [padding, widthOf]
  split
  · rw [int_eq (by omega) (by omega)]
    omega
  · have width : int w = w := int_eq (by omega) (by omega)
    rw [width, int_eq (by omega) (by omega)]
    omega

theorem printed_bytes (w : Nat) (padc : UInt8) (v : BitVec 64) :
    (printed 10 v.toInt.natAbs (widthOf w) padc).map UInt8.ofInt =
      List.replicate (padding w v) padc ++ (decimal v.toInt.natAbs).map digitChar := by
  have same : (fun d => UInt8.ofInt ((digitChar d).toNat : Int)) = digitChar := funext fun d => ofInt_toNat _
  rw [printed, numerals_eq, List.length_map, List.map_append, List.map_replicate, ofInt_toNat, List.map_map]
  exact congrArg (List.replicate (padding w v) padc ++ ·) (congrArg (List.map · _) same)

/-- The output for the format is that text. -/
theorem output_numberFormat {args : Args} {v : BitVec 64} (arg : args.word 0 = v) (flag : Flag) (w : Nat) :
    (output args (numberFormat flag w) 0).map UInt8.ofInt = numberText flag w v := by
  have kind : switch (chr 'd') = .decimal := by decide
  have known : switch (chr 'd') ≠ .default := by decide
  have value : getint args 0 1 = v := by
    rw [getint, if_neg (by decide), if_pos (by decide), arg]
  have sign : UInt8.ofInt (ord '-') = chr '-' := ofInt_toNat _
  rw [numberFormat, output_conv (modifiers_numberFormat args flag w) known, kind, output_nil, List.append_nil,
    numberText,
    ← printed_bytes w]
  simp only [render, value]
  by_cases negative : v.toInt < 0
  · have magnitude : (-v).toNat = v.toInt.natAbs := by
      have small := v.isLt
      rw [BitVec.toInt_eq_toNat_cond] at negative ⊢
      rw [BitVec.toNat_neg]
      split at negative <;> split <;> omega
    rw [if_pos negative, if_pos negative, magnitude, List.map_cons, sign]
    rfl
  · have magnitude : v.toNat = v.toInt.natAbs := by
      rw [BitVec.toInt_eq_toNat_cond] at negative ⊢
      split at negative <;> split <;> omega
    rw [if_neg negative, if_neg negative, magnitude]
    rfl

/-! ## Reading it back -/

variable {m : Block} {s fuel : Nat}

theorem digitChar_plain {d : Nat} (ten : d < 10) :
    digitChar d ≠ chr ' ' ∧ digitChar d ≠ chr '\t' ∧ digitChar d ≠ chr '+' ∧ digitChar d ≠ chr '-' := by
  interval_cases d <;> decide

theorem digits_decimal {ds : List Nat} (ten : ∀ d ∈ ds, d < 10) (here : StringAt m s (ds.map digitChar))
    (enough : ds.length < fuel) :
    digits m 10 fuel s 0 = .ok (BitVec.ofNat 64 (ds.foldl (fun val d => val * 10 + d) 0), s + ds.length) :=
  digits_eq ten (by rwa [List.append_nil]) (by decide) enough 0

/-- Blanks in front of a number are skipped. -/
theorem strtol_blanks (count : Nat) {d : Nat} {ds : List Nat} (ten : ∀ c ∈ d :: ds, c < 10)
    (here : StringAt m s (List.replicate count (chr ' ') ++ (d :: ds).map digitChar))
    (enough : count + (d :: ds).length < fuel) :
    ∃ stop, strtol fuel m s 10 = .ok (BitVec.ofNat 64 ((d :: ds).foldl (fun val d => val * 10 + d) 0), stop) := by
  obtain ⟨blank, tab, plus, minus⟩ := digitChar_plain (ten d List.mem_cons_self)
  have number := here.skip (List.replicate count (chr ' '))
  rw [List.length_replicate] at number
  have first : m (s + count) = digitChar d := number.1
  have run := digits_decimal ten number (show (d :: ds).length < fuel by omega)
  exact ⟨_, strtol_unsigned (skipBlanks_eq count here (by omega) ⟨blank, tab⟩) (first ▸ plus) (first ▸ minus) run⟩

theorem skipBlanks_minus {text : List UInt8} (here : StringAt m s (chr '-' :: text)) (enough : 0 < fuel) :
    skipBlanks m fuel s = .ok s := by
  have blank : chr '-' ≠ chr ' ' := by decide
  have tab : chr '-' ≠ chr '\t' := by decide
  exact skipBlanks_eq 0 here enough ⟨blank, tab⟩

/-- Behind a minus sign the digits must follow at once. -/
theorem strtol_minus {ds : List Nat} (ten : ∀ c ∈ ds, c < 10) (here : StringAt m s (chr '-' :: ds.map digitChar))
    (enough : ds.length < fuel) :
    ∃ stop, strtol fuel m s 10 = .ok (-BitVec.ofNat 64 (ds.foldl (fun val d => val * 10 + d) 0), stop) :=
  ⟨_, strtol_negative (skipBlanks_minus here (by omega)) here.1 (digits_decimal ten here.2 enough)⟩

theorem strtol_stuck {ch : UInt8} {text : List UInt8} (other : digitValue ch = none)
    (here : StringAt m s (chr '-' :: ch :: text)) (enough : 0 < fuel) :
    ∃ stop, strtol fuel m s 10 = .ok (0, stop) := by
  have next : m (s + 1) = ch := here.2.1
  have run : digits m 10 fuel (s + 1) 0 = .ok (0, s + 1) := digits_stop (next ▸ other) enough 0
  exact ⟨s + 1, strtol_negative (skipBlanks_minus here enough) here.1 run⟩

/-- The padding can be read over: it is of zeros, there is none, the number is 0, or it is of blanks
    before a number without a sign. -/
def Readable (flag : Flag) (w : Nat) (v : BitVec 64) : Prop :=
  flag = .zero ∨ w ≤ (decimal v.toInt.natAbs).length ∨ v = 0 ∨ (flag = .blank ∧ 0 ≤ v.toInt)

theorem ofNat_natAbs {v : BitVec 64} (nonneg : ¬ v.toInt < 0) : BitVec.ofNat 64 v.toInt.natAbs = v := by
  apply BitVec.eq_of_toNat_eq
  have small := v.isLt
  rw [BitVec.toNat_ofNat]
  rw [BitVec.toInt_eq_toNat_cond] at nonneg ⊢
  split at nonneg <;> split <;> omega

theorem neg_ofNat_natAbs {v : BitVec 64} (negative : v.toInt < 0) : -BitVec.ofNat 64 v.toInt.natAbs = v := by
  apply BitVec.eq_of_toNat_eq
  have small := v.isLt
  rw [BitVec.toNat_neg, BitVec.toNat_ofNat]
  rw [BitVec.toInt_eq_toNat_cond] at negative ⊢
  split at negative <;> split <;> omega

theorem neg_eq_self_iff {v : BitVec 64} (nonneg : ¬ v.toInt < 0) : -v = v ↔ v = 0 := by
  constructor
  · intro same
    apply BitVec.eq_of_toNat_eq
    have value := congrArg BitVec.toNat same
    have small := v.isLt
    rw [BitVec.toNat_neg] at value
    rw [BitVec.toInt_eq_toNat_cond] at nonneg
    split at nonneg
    · simp only [BitVec.ofNat_eq_ofNat, BitVec.toNat_ofNat]
      omega
    · omega
  · rintro rfl
    rfl

/-- A number with zeros in front of it. -/
theorem zeros_value (count n : Nat) :
    (List.replicate count 0 ++ decimal n).foldl (fun val d => val * 10 + d) 0 = n := by
  rw [List.foldl_append]
  have zeros : (List.replicate count 0).foldl (fun val d => val * 10 + d) 0 = 0 := by
    induction count with
    | zero => rfl
    | succ count ih => exact ih
  rw [zeros, decimal_value]

theorem zeros_map (count n : Nat) : List.replicate count (chr '0') ++ (decimal n).map digitChar =
    (List.replicate count 0 ++ decimal n).map digitChar := by
  rw [List.map_append, List.map_replicate]
  rfl

theorem zeros_lt (count n : Nat) : ∀ d ∈ List.replicate count 0 ++ decimal n, d < 10 := by
  intro d inside
  cases List.mem_append.mp inside with
  | inl zero =>
      rw [List.eq_of_mem_replicate zero]
      decide
  | inr digit => exact decimal_lt d digit

/-- A text that is readable is read as the number. -/
theorem strtol_readable {flag : Flag} {w : Nat} {v : BitVec 64} (here : StringAt m s (numberText flag w v))
    (enough : padding w v + 21 < fuel) (readable : flag = .zero ∨ padding w v = 0 ∨ (flag = .blank ∧ ¬ v.toInt < 0)) :
    ∃ stop, strtol fuel m s 10 = .ok (v, stop) := by
  have few := decimal_length v
  -- Whatever the padding is, it may be taken for zeros, or it is blanks before a number without sign.
  have asZeros (zeros : List.replicate (padding w v) flag.padc = List.replicate (padding w v) (chr '0')) :
      ∃ stop, strtol fuel m s 10 = .ok (v, stop) := by
    rw [numberText, zeros, zeros_map] at here
    have ten := zeros_lt (padding w v) v.toInt.natAbs
    have value := zeros_value (padding w v) v.toInt.natAbs
    have length : (List.replicate (padding w v) 0 ++ decimal v.toInt.natAbs).length < fuel := by
      rw [List.length_append, List.length_replicate]
      omega
    by_cases negative : v.toInt < 0
    · rw [if_pos negative] at here
      obtain ⟨stop, run⟩ := strtol_minus ten here length
      rw [value, neg_ofNat_natAbs negative] at run
      exact ⟨stop, run⟩
    · rw [if_neg negative] at here
      obtain ⟨d, ds, split⟩ : ∃ d ds, List.replicate (padding w v) 0 ++ decimal v.toInt.natAbs = d :: ds := by
        obtain ⟨d, ds, split, -⟩ := decimal_head v.toInt.natAbs
        rw [split]
        cases padding w v with
        | zero => exact ⟨d, ds, rfl⟩
        | succ count => exact ⟨0, _, rfl⟩
      rw [split] at here ten value length
      obtain ⟨stop, run⟩ := strtol_blanks 0 ten here (show 0 + (d :: ds).length < fuel by omega)
      rw [value, ofNat_natAbs negative] at run
      exact ⟨stop, run⟩
  obtain rfl | none | ⟨rfl, nonneg⟩ := readable
  · exact asZeros rfl
  · exact asZeros (by rw [none]; rfl)
  · obtain ⟨d, ds, split, -⟩ := decimal_head v.toInt.natAbs
    have value := decimal_value v.toInt.natAbs
    have ten : ∀ c ∈ d :: ds, c < 10 := fun c inside => decimal_lt c (split ▸ inside)
    rw [numberText, if_neg nonneg, split] at here
    rw [split] at value few
    obtain ⟨stop, run⟩ := strtol_blanks (padding w v) ten here (show padding w v + (d :: ds).length < fuel by omega)
    rw [value, ofNat_natAbs nonneg] at run
    exact ⟨stop, run⟩

/-- The padding can be read over, for a width of any size. -/
def ReadsBack (flag : Flag) (w : Nat) (v : BitVec 64) : Prop :=
  flag = .zero ∨ padding w v = 0 ∨ v = 0 ∨ (flag = .blank ∧ 0 ≤ v.toInt)

theorem readsBack_iff {flag : Flag} {w : Nat} {v : BitVec 64} (fits : w < 2 ^ 31) :
    ReadsBack flag w v ↔ Readable flag w v := by
  rw [ReadsBack, Readable, padding_eq fits, Nat.sub_eq_zero_iff_le]

/-- What `strtol` makes of the text. -/
theorem strtol_numberText {flag : Flag} {w : Nat} {v : BitVec 64} (here : StringAt m s (numberText flag w v))
    (enough : padding w v + 21 < fuel) :
    ∃ val stop, strtol fuel m s 10 = .ok (val, stop) ∧ (val = v ↔ ReadsBack flag w v) := by
  by_cases readable : flag = .zero ∨ padding w v = 0 ∨ (flag = .blank ∧ ¬ v.toInt < 0)
  · obtain ⟨stop, run⟩ := strtol_readable here enough readable
    refine ⟨v, stop, run, iff_of_true rfl ?_⟩
    obtain zero | none | ⟨blank, nonneg⟩ := readable
    · exact .inl zero
    · exact .inr (.inl none)
    · exact .inr (.inr (.inr ⟨blank, Int.not_lt.mp nonneg⟩))
  · rw [not_or, not_or] at readable
    obtain ⟨noZero, padded, signed⟩ := readable
    have only : ReadsBack flag w v ↔ v = 0 := by
      constructor
      · rintro (zero | none | same | ⟨blank, nonneg⟩)
        · exact absurd zero noZero
        · exact absurd none padded
        · exact same
        · exact absurd ⟨blank, Int.not_lt.mpr nonneg⟩ signed
      · exact fun same => .inr (.inr (.inl same))
    have stuck {ch : UInt8} (text : List UInt8) (other : digitValue ch = none)
        (split : numberText flag w v = chr '-' :: ch :: text) :
        ∃ val stop, strtol fuel m s 10 = .ok (val, stop) ∧ (val = v ↔ ReadsBack flag w v) := by
      rw [split] at here
      obtain ⟨stop, run⟩ := strtol_stuck other here (show 0 < fuel by omega)
      exact ⟨0, stop, run, eq_comm.trans only.symm⟩
    obtain ⟨count, more⟩ := Nat.exists_eq_succ_of_ne_zero padded
    have blank : digitValue (chr ' ') = none := by decide
    have minus : digitValue (chr '-') = none := by decide
    cases flag with
    | zero => exact absurd rfl noZero
    | blank =>
        have negative : v.toInt < 0 := Classical.byContradiction fun nonneg => signed ⟨rfl, nonneg⟩
        refine stuck (List.replicate count (chr ' ') ++ (decimal v.toInt.natAbs).map digitChar) blank ?_
        rw [numberText, if_pos negative, more]
        rfl
    | minus =>
        by_cases negative : v.toInt < 0
        · refine stuck (List.replicate count (chr '-') ++ (decimal v.toInt.natAbs).map digitChar) minus ?_
          rw [numberText, if_pos negative, more]
          rfl
        · obtain _ | count := count
          · -- One minus sign, which is taken for that of the number.
            rw [numberText, if_neg negative, more] at here
            have few := decimal_length v
            obtain ⟨stop, run⟩ := strtol_minus decimal_lt here (show (decimal v.toInt.natAbs).length < fuel by omega)
            rw [decimal_value, ofNat_natAbs negative] at run
            exact ⟨-v, stop, run, (neg_eq_self_iff negative).trans only.symm⟩
          · refine stuck (List.replicate count (chr '-') ++ (decimal v.toInt.natAbs).map digitChar) minus ?_
            rw [numberText, if_neg negative, more]
            rfl

theorem digitChar_ne_zero {d : Nat} (ten : d < 10) : digitChar d ≠ 0 := by
  interval_cases d <;> decide

theorem numberFormat_noNul (flag : Flag) (w : Nat) : 0 ∉ numberFormat flag w := by
  have noFlag : 0 ∉ flag.text := by cases flag <;> decide
  have noWidth : 0 ∉ widthText w := by
    rw [widthText]
    split
    · exact List.not_mem_nil
    · intro nul
      obtain ⟨d, inside, zero⟩ := List.mem_map.mp nul
      exact digitChar_ne_zero (decimal_lt d inside) zero
  have percent : (0 : UInt8) ≠ chr '%' := by decide
  have rest : (0 : UInt8) ∉ [chr 'l', chr 'd'] := by decide
  simp only [numberFormat, List.mem_cons, List.mem_append, not_or] at rest ⊢
  exact ⟨percent, noFlag, noWidth, rest⟩

theorem numberFormat_errors (args : Args) (flag : Flag) (w : Nat) :
    ErrorsFit args (numberFormat flag w) := by
  intro c k inside
  have kind : switch (chr 'd') = .decimal := by decide
  have known : switch (chr 'd') ≠ .default := by decide
  rw [numberFormat, pieces_conv (modifiers_numberFormat args flag w) known, kind, pieces] at inside
  simp at inside

/-- What is printed is read back, as the number or as another one. -/
theorem printed_read {args : Args} {v : BitVec 64} (arg : args.word 0 = v) (flag : Flag) (w : Nat) {m : Block}
    {str size fuel : Nat} (buffer : str ≠ 0) (fits : str + size ≤ 2 ^ 64)
    (large : (output args (numberFormat flag w) 0).length < size) (enough : (numberFormat flag w).length + 31 ≤ fuel)
    (enough' : padding w v + 21 < fuel) :
    ∃ ret m' val stop, snprintf fuel str size (numberFormat flag w) args m = .ok (ret, m') ∧
      strtol fuel m' str 10 = .ok (val, stop) ∧ (val = v ↔ ReadsBack flag w v) := by
  have run := @vsnprintf_eq ⟨numberFormat flag w, numberFormat_noNul flag w⟩ args m str size fuel buffer (by omega) fits
    (numberFormat_errors args flag w) enough
  have bytes := output_numberFormat arg flag w
  have whole : stored size (output args (numberFormat flag w) 0) = numberText flag w v ++ [0] := by
    rw [stored, bytes, List.take_of_length_le]
    rw [← bytes, List.length_map]
    omega
  dsimp only at run
  rw [whole] at run
  obtain ⟨val, stop, read, same⟩ := strtol_numberText (stringAt_patch m str (numberText flag w v)) enough'
  exact ⟨_, _, val, stop, run, read, same⟩

/-- `%ld` under a flag and a width, printed into a buffer with room for it, reads back as the
    number exactly where the padding allows it. -/
theorem strtol_snprintf_iff {args : Args} {v : BitVec 64} (arg : args.word 0 = v) (flag : Flag) {w : Nat}
    (width : w < 2 ^ 31) {m : Block} {str size fuel : Nat} (buffer : str ≠ 0) (fits : str + size ≤ 2 ^ 64)
    (large : (output args (numberFormat flag w) 0).length < size) (enough : (numberFormat flag w).length + 31 ≤ fuel)
    (enough' : w + 21 < fuel) :
    ∃ ret m' val stop, snprintf fuel str size (numberFormat flag w) args m = .ok (ret, m') ∧
      strtol fuel m' str 10 = .ok (val, stop) ∧ (val = v ↔ Readable flag w v) := by
  have less : padding w v ≤ w := padding_eq width v ▸ Nat.sub_le ..
  obtain ⟨ret, m', val, stop, run, read, same⟩ :=
    printed_read arg flag w buffer fits large enough (show padding w v + 21 < fuel by omega)
  exact ⟨ret, m', val, stop, run, read, same.trans (readsBack_iff width)⟩

/-- A single argument. -/
def single (v : BitVec 64) : Args := { word := fun _ => v, text := fun _ => ⟨[], noNul_nil⟩ }

theorem single_length (flag : Flag) (w : Nat) (v : BitVec 64) :
    (output (single v) (numberFormat flag w) 0).length = (numberText flag w v).length := by
  rw [← output_numberFormat (show (single v).word 0 = v from rfl) flag w, List.length_map]

/-- Minus five after a blank padding reads back as 0. -/
theorem strtol_snprintf_iff_negative :
    ∃ ret m' val stop, snprintf 64 4096 16 (numberFormat .blank 5) (single (-5)) (fun _ => 0) = .ok (ret, m') ∧
      strtol 64 m' 4096 10 = .ok (val, stop) ∧ val ≠ -5 := by
  have short : (output (single (-5)) (numberFormat .blank 5) 0).length < 16 := by
    rw [single_length, numberText, padding_eq (by decide)]
    decide +kernel
  obtain ⟨ret, m', val, stop, run, read, same⟩ := @strtol_snprintf_iff (single (-5)) (-5) rfl .blank 5 (by decide)
    (fun _ => 0) 4096 16 64 (by decide) (by decide) short (by decide +kernel) (by decide)
  refine ⟨ret, m', val, stop, run, read, fun same' => ?_⟩
  rcases same.mp same' with zero | narrow | none | ⟨-, nonneg⟩
  · exact absurd zero (by decide)
  · exact absurd narrow (by decide +kernel)
  · exact absurd none (by decide)
  · exact absurd nonneg (by decide)

/-- What `%ld` prints reads back as the number, for a width of any size: the flag is `0`, or the
    width as an `int` leaves no room for padding, or the number is 0, or it has no sign and there is
    no flag. -/
theorem snprintf_readsBack_iff {args : Args} {v : BitVec 64} (arg : args.word 0 = v) (flag : Flag) (w : Nat) {m : Block}
    {str size fuel : Nat} (buffer : str ≠ 0) (fits : str + size ≤ 2 ^ 64)
    (large : (output args (numberFormat flag w) 0).length < size) (enough : (numberFormat flag w).length + 31 ≤ fuel)
    (enough' : padding w v + 21 < fuel) :
    (∃ ret m' stop, snprintf fuel str size (numberFormat flag w) args m = .ok (ret, m') ∧
      strtol fuel m' str 10 = .ok (v, stop)) ↔
    flag = .zero ∨ (int ((if w = 0 then -1 else int w) - (decimal v.toInt.natAbs).length)).toNat = 0 ∨ v = 0 ∨
      flag = .blank ∧ 0 ≤ v.toInt := by
  obtain ⟨ret, m', val, stop, run, read, same⟩ :=
    @printed_read args v arg flag w m str size fuel buffer fits large enough enough'
  refine Iff.trans ⟨?_, fun equal => ?_⟩ same
  · rintro ⟨ret', m'', stop', run', read'⟩
    obtain ⟨-, rfl⟩ := Prod.mk.inj (Except.ok.inj (run.symm.trans run'))
    exact (Prod.mk.inj (Except.ok.inj (read.symm.trans read'))).1
  · exact ⟨ret, m', stop, run, equal ▸ read⟩

theorem zeros_length : (output (single (-5)) (numberFormat .zero 5) 0).length < 16 := by
  rw [single_length, numberText, padding_eq (by decide)]
  decide +kernel

theorem snprintf_readsBack_iff_zeros : ∃ ret m' stop,
    snprintf 64 4096 16 (numberFormat .zero 5) (single (-5)) (fun _ => 0) = .ok (ret, m') ∧
      strtol 64 m' 4096 10 = .ok (-5, stop) := by
  have few : padding 5 (-5) + 21 < 64 := by
    rw [padding_eq (by decide)]
    decide +kernel
  exact (@snprintf_readsBack_iff (single (-5)) (-5) rfl .zero 5 (fun _ => 0) 4096 16 64 (by decide)
    (by decide) zeros_length (by decide +kernel) few).mpr (.inl rfl)

theorem misread {flag : Flag} {v : BitVec 64} (width : (numberFormat flag 5).length + 31 ≤ 64)
    (short : (numberText flag 5 v).length < 16) (lost : ¬ Readable flag 5 v) :
    ∃ ret m' val stop, snprintf 64 4096 16 (numberFormat flag 5) (single v) (fun _ => 0) = .ok (ret, m') ∧
      strtol 64 m' 4096 10 = .ok (val, stop) ∧ val ≠ v := by
  have few : padding 5 v + 21 < 64 := by
    rw [padding_eq (by decide)]
    omega
  obtain ⟨ret, m', val, stop, run, read, same⟩ := @printed_read (single v) v rfl flag 5 (fun _ => 0) 4096 16 64
    (by decide) (by decide) (single_length flag 5 v ▸ short) width few
  exact ⟨ret, m', val, stop, run, read, fun same' => lost ((readsBack_iff (by decide)).mp (same.mp same'))⟩

/-- `%-5ld` prints five as `----5` and `%5ld` minus five as `-    5`: neither reads back. -/
theorem padded_misread :
    (∃ ret m' val stop, snprintf 64 4096 16 (numberFormat .minus 5) (single 5) (fun _ => 0) = .ok (ret, m') ∧
      strtol 64 m' 4096 10 = .ok (val, stop) ∧ val ≠ 5) ∧
    ∃ ret m' val stop, snprintf 64 4096 16 (numberFormat .blank 5) (single (-5)) (fun _ => 0) = .ok (ret, m') ∧
      strtol 64 m' 4096 10 = .ok (val, stop) ∧ val ≠ -5 := by
  refine ⟨misread (by decide +kernel) ?_ ?_, misread (by decide +kernel) ?_ ?_⟩
  · rw [numberText, padding_eq (by decide)]
    decide +kernel
  · rw [Readable]
    decide +kernel
  · rw [numberText, padding_eq (by decide)]
    decide +kernel
  · rw [Readable]
    decide +kernel

end Ucore.Libs.PrintedNumbers
