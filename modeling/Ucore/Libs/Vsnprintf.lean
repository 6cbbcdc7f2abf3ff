import Ucore.Lib.Bytes
import Ucore.Libs.Vprintfmt

/-! # Formatting into a buffer

`vsnprintf` hands `vprintfmt` a `putch` that counts every character and stores those that
fit, and puts the terminator behind them.
-/

namespace Ucore.Libs.Vsnprintf

open Lib.Bytes Printfmt Formatted Vprintfmt

/-- `struct sprintbuf` -/
structure Sprintbuf where
  buf : Nat
  ebuf : Nat
  cnt : Int

/-- The character is cut down to a byte when it is stored. -/
def sprintputch (ch : Int) (s : Block × Sprintbuf) : Block × Sprintbuf :=
  let b := { s.2 with cnt := int (s.2.cnt + 1) }
  if b.buf < b.ebuf then (Function.update s.1 b.buf (UInt8.ofInt ch), { b with buf := b.buf + 1 }) else (s.1, b)

def E_INVAL : Int := 3

/-- The return value, and memory afterwards. -/
def vsnprintf (fuel : Nat) (str size : Nat) (text : List UInt8) (args : Args) (m : Block) :
    Except Fault (Int × Block) :=
  let b : Sprintbuf := { buf := str, ebuf := (str + size - 1) % 2 ^ 64, cnt := 0 }
  if str = 0 ∨ b.buf > b.ebuf then .ok (-E_INVAL, m)
  else do
    let (m, b) ← vprintfmt sprintputch fuel text args (m, b)
    pure (b.cnt, Function.update m b.buf 0)

/-- The same with the arguments of the call itself. -/
def snprintf (fuel : Nat) (str size : Nat) (text : List UInt8) (args : Args) (m : Block) : Except Fault (Int × Block) :=
  vsnprintf fuel str size text args m

/-! ## The sink -/

theorem int_add_one (x : Int) : int (int x + 1) = int (x + 1) := by
  unfold int
  exact Int.bmod_add_bmod

/-- What the buffer holds after the characters: as many of them as fit. -/
theorem putAll_sprintputch (m : Block) (str room : Nat) (text : List Int) :
    putAll sprintputch text (m, { buf := str, ebuf := str + room, cnt := 0 }) =
      (patch m str ((text.map UInt8.ofInt).take room),
        { buf := str + min text.length room, ebuf := str + room, cnt := int text.length }) := by
  induction text using List.reverseRecOn with
  | nil =>
      have zero : int (0 : Nat) = 0 := int_eq (by decide) (by decide)
      rw [List.map_nil, List.take_nil, patch_nil, List.length_nil, zero, Nat.zero_min]
      rfl
  | append_singleton text ch ih =>
      have count : int (int text.length + 1) = int (text ++ [ch]).length := by
        rw [int_add_one, List.length_append, List.length_singleton]
        rfl
      rw [putAll_append, ih, putAll_cons]
      by_cases fits : text.length < room
      · have here : min text.length room = text.length := Nat.min_eq_left (Nat.le_of_lt fits)
        have before : (text.map UInt8.ofInt).take room = text.map UInt8.ofInt :=
          List.take_of_length_le (by rw [List.length_map]; omega)
        have after : ((text ++ [ch]).map UInt8.ofInt).take room = text.map UInt8.ofInt ++ [UInt8.ofInt ch] := by
          rw [List.map_append, List.take_of_length_le]
          · rfl
          · rw [List.length_append, List.length_map, List.length_map, List.length_singleton]
            omega
        have next : min (text ++ [ch]).length room = text.length + 1 := by
          rw [List.length_append, List.length_singleton]
          omega
        rw [sprintputch, before, after, patch_concat, List.length_map, here, next]
        dsimp only
        rw [if_pos (by omega), count]
        rfl
      · have here : min text.length room = room := Nat.min_eq_right (by omega)
        have after : ((text ++ [ch]).map UInt8.ofInt).take room = (text.map UInt8.ofInt).take room := by
          rw [List.map_append, List.take_append_of_le_length (by rw [List.length_map]; omega)]
        have next : min (text ++ [ch]).length room = room := by
          rw [List.length_append, List.length_singleton]
          omega
        rw [sprintputch, after, here, next]
        dsimp only
        rw [if_neg (by omega), count]
        rfl

/-! ## The call -/

/-- What the buffer is to hold: as much of the output as leaves room for the terminator. -/
def stored (size : Nat) (full : List Int) : List UInt8 := (full.map UInt8.ofInt).take (size - 1) ++ [0]

theorem stored_length (size : Nat) (full : List Int) : (stored size full).length = min full.length (size - 1) + 1 := by
  rw [stored, List.length_append, List.length_take, List.length_map, List.length_singleton, Nat.min_comm]

/-- No `%e` of the format is given the `int` whose negation is none. -/
def ErrorsFit (args : Args) (text : List UInt8) : Prop :=
  ∀ c k, .conv .error c k ∈ pieces args text 0 → args.int k ≠ -2 ^ 31

theorem vprintfmt_eq {σ : Type} (putch : Int → σ → σ) {text : CString} {args : Args} {fuel : Nat}
    (errors : ErrorsFit args text.bytes) (enough : text.bytes.length + 31 ≤ fuel) (s : σ) :
    vprintfmt putch fuel text.bytes args s = .ok (putAll putch (output args text.bytes 0) s) := by
  refine scan_eq putch ⟨[], rfl, rfl⟩ text.noNul 0 (by omega) (fun c k inside s => ?_) s
  have low : -2 ^ 31 ≤ args.int k := BitVec.le_toInt _
  have high : args.int k < 2 ^ 31 := BitVec.toInt_lt
  exact printError_eq putch (by omega) (lt_of_le_of_ne low (Ne.symm (errors c k inside))) high s

theorem vsnprintf_eq {text : CString} {args : Args} {m : Block} {str size fuel : Nat} (buffer : str ≠ 0)
    (positive : 1 ≤ size) (fits : str + size ≤ 2 ^ 64) (errors : ErrorsFit args text.bytes)
    (enough : text.bytes.length + 31 ≤ fuel) :
    vsnprintf fuel str size text.bytes args m =
      .ok (int (output args text.bytes 0).length, patch m str (stored size (output args text.bytes 0))) := by
  have last : (str + size - 1) % 2 ^ 64 = str + (size - 1) := by
    rw [Nat.mod_eq_of_lt (by omega)]
    omega
  have inside : ¬ (str = 0 ∨ str > str + (size - 1)) := by omega
  rw [vsnprintf, last]
  dsimp only
  rw [if_neg inside, vprintfmt_eq sprintputch errors enough, putAll_sprintputch, stored, patch_concat, List.length_take,
    List.length_map, Nat.min_comm]
  rfl

theorem int_eq_iff (n : Nat) : int n = n ↔ n < 2 ^ 31 := by
  constructor
  · intro same
    have below : Int.bmod n (2 ^ 32) * 2 < (2 ^ 32 : Nat) := by
      have := @Int.bmod_lt n (2 ^ 32) (by decide)
      omega
    unfold int at same
    rw [same] at below
    omega
  · intro small
    exact int_eq (by omega) (by omega)

/-- The scan ends, what fits is stored and nothing else; the return value is the length of
    the output exactly where an `int` holds it. -/
theorem vsnprintf_returns_iff {text : CString} {args : Args} {m : Block} {str size fuel : Nat} (buffer : str ≠ 0)
    (byte : 1 ≤ size) (fits : str + size ≤ 2 ^ 64) (errors : ErrorsFit args text.bytes)
    (enough : text.bytes.length + 31 ≤ fuel) :
    (∃ ret, vsnprintf fuel str size text.bytes args m =
      .ok (ret, patch m str (stored size (output args text.bytes 0)))) ∧
      (stored size (output args text.bytes 0)).length ≤ size ∧
      (∀ rest ap, Unrecognized (modifiers args rest ap {}).2.2 →
      ∃ mods, rest = mods ++ (modifiers args rest ap {}).2.2 ∧
        output args (chr '%' :: rest) ap = chars (chr '%' :: mods) ++
          output args (modifiers args rest ap {}).2.2 (modifiers args rest ap {}).2.1) ∧
      (vsnprintf fuel str size text.bytes args m =
          .ok ((output args text.bytes 0).length, patch m str (stored size (output args text.bytes 0))) ↔
        (output args text.bytes 0).length < 2 ^ 31) := by
  have run := @vsnprintf_eq text args m str size fuel buffer byte fits errors enough
  refine ⟨⟨_, run⟩, ?_, fun rest ap unknown => ?_, ?_⟩
  · rw [stored_length]
    omega
  · exact output_unrecognized unknown
  · rw [run, ← int_eq_iff]
    constructor
    · intro same
      exact (Prod.mk.inj (Except.ok.inj same)).1
    · intro same
      rw [same]

def describeFormat : CString := ⟨ascii "a%e%", by decide⟩

theorem noNul_nil : (0 : UInt8) ∉ [] := List.not_mem_nil

def noMem : Args := { word := fun _ => -4, text := fun _ => ⟨[], noNul_nil⟩ }

theorem noMem_fit (text : List UInt8) : ErrorsFit noMem text := by
  intro c k _ least
  have value : noMem.int k = -4 := by
    show ((-4 : BitVec 64).setWidth 32).toInt = -4
    decide
  rw [value] at least
  cases least

theorem vsnprintf_returns_iff_noMem :
    ∃ ret, vsnprintf 40 4096 8 (ascii "a%e%") noMem (fun _ => 0) =
      .ok (ret, patch (fun _ => 0) 4096 (stored 8 (output noMem (ascii "a%e%") 0))) :=
  (@vsnprintf_returns_iff describeFormat noMem (fun _ => 0) 4096 8 40 (by decide) (by decide) (by decide)
    (noMem_fit _) (by decide)).1

/-- The first number takes all the room an `int` has. -/
def wide : Args := { word := fun ap => if ap = 0 then 2147483647 else 1, text := fun _ => ⟨[], noNul_nil⟩ }

def wideFormat : CString := ⟨ascii "%*d%d", by decide⟩

theorem printed_one_length (width : Int) (padc : UInt8) :
    (printed 10 1 width padc).length = (int (width - 1)).toNat + 1 := by
  have one : (numerals 10 1).length = 1 := congrArg List.length (numerals_of_lt (show 1 < 10 by decide))
  rw [printed, List.length_append, List.length_replicate, one]
  rfl

theorem render_wide (c : Conv) (short : c.lflag = 0) {ap : Nat} (later : ap ≠ 0) :
    render wide (.conv .decimal c ap) = printed 10 1 c.width c.padc := by
  have value : getint wide ap c.lflag = 1 := by
    rw [short, getint, if_neg (by decide), if_neg (by decide), wide]
    dsimp only
    rw [if_neg later]
    decide
  simp only [render, value]
  exact if_neg (by decide)

theorem wide_output : (output wide wideFormat.bytes 0).length = 2 ^ 31 := by
  have star : switch (chr '*') = .star := by decide
  have decimal : switch (chr 'd') = .decimal := by decide
  have first : modifiers wide (chr '*' :: chr 'd' :: chr '%' :: chr 'd' :: []) 0 {} =
      ({ width := 2147483647 }, 1, chr 'd' :: chr '%' :: chr 'd' :: []) := by
    rw [modifiers, star]
    dsimp only
    rw [modifiers, decimal]
    rfl
  have second : modifiers wide (chr 'd' :: []) 2 {} = ({}, 2, chr 'd' :: []) := by
    rw [modifiers, decimal]
  have whole : wideFormat.bytes = chr '%' :: chr '*' :: chr 'd' :: chr '%' :: chr 'd' :: [] := by decide
  have known : switch (chr 'd') ≠ .default := by decide
  have wideCount : int (2147483647 - 1) = 2147483646 := int_eq (by decide) (by decide)
  have noCount : int (-1 - 1) = -2 := int_eq (by decide) (by decide)
  rw [whole, output_conv first known, decimal, render_wide _ rfl (by decide),
    show 1 + takes Case.decimal = 2 from rfl, output_conv second known, decimal, render_wide _ rfl (by decide),
      output_nil,
    List.length_append, List.length_append, printed_one_length, printed_one_length, wideCount, noCount]
  rfl

/-- An output of 2147483648 characters is reported as -2147483648. -/
theorem count_overflows :
    (output wide wideFormat.bytes 0).length = 2147483648 ∧
      vsnprintf 40 4096 8 wideFormat.bytes wide (fun _ => 0) =
        .ok (-2147483648, patch (fun _ => 0) 4096 (stored 8 (output wide wideFormat.bytes 0))) := by
  refine ⟨wide_output, ?_⟩
  have fit : ErrorsFit wide wideFormat.bytes := by
    intro c k _ least
    have value : wide.int k = if k = 0 then 2147483647 else 1 := by
      by_cases zero : k = 0
      · subst zero
        decide
      · rw [Args.int, wide]
        dsimp only
        rw [if_neg zero, if_neg zero]
        decide
    rw [value] at least
    split at least <;> cases least
  have wraps : int ((2 ^ 31 : Nat) : Int) = -2147483648 := by
    unfold int
    decide
  rw [vsnprintf_eq (by decide) (by decide) (by decide) fit (by decide), wide_output, wraps]

end Ucore.Libs.Vsnprintf
