import Ucore.Libs.Formatted

/-! # The scanner prints the pieces

Whatever `putch` does, `vprintfmt` calls it with the characters of the output, one after
the other, and never reads behind the terminator of the format. Fuel for every character
of the format, and for the digits of a number, is enough.
-/

namespace Ucore.Libs.Vprintfmt

open Printfmt Formatted

variable {σ : Type} (putch : Int → σ → σ)

/-- The characters, handed to `putch` in order. -/
def putAll (text : List Int) (s : σ) : σ := text.foldl (fun s ch => putch ch s) s

theorem putAll_append (text rest : List Int) (s : σ) :
    putAll putch (text ++ rest) s = putAll putch rest (putAll putch text s) := List.foldl_append ..

theorem putAll_cons (ch : Int) (text : List Int) (s : σ) :
    putAll putch (ch :: text) s = putAll putch text (putch ch s) := rfl

theorem pad_eq (padc : UInt8) (n : Nat) (s : σ) :
    pad putch padc n s = putAll putch (List.replicate n (padc.toNat : Int)) s := by
  induction n generalizing s with
  | zero => rfl
  | succ n ih =>
      rw [pad, ih]
      rfl

/-! ## Numbers -/

theorem int_sub_int (x y : Int) : int (int x - y) = int (x - y) := by
  unfold int
  exact Int.bmod_sub_bmod

theorem numerals_of_lt {base num : Nat} (small : num < base) : numerals base num = [((digitChar num).toNat : Int)] := by
  by_cases zero : num = 0
  · rw [numerals, if_pos zero, zero]
    decide
  · rw [numerals, if_neg zero, Nat.digits_of_lt base num zero small]
    rfl

theorem numerals_of_le {base num : Nat} (two : 1 < base) (large : base ≤ num) :
    numerals base num = numerals base (num / base) ++ [((digitChar (num % base)).toNat : Int)] := by
  have nonzero : num / base ≠ 0 := Nat.pos_iff_ne_zero.mp (Nat.div_pos large (by omega))
  rw [numerals, numerals, if_neg (by omega), if_neg nonzero, Nat.digits_def' two (by omega), List.reverse_cons,
    List.map_append]
  rfl

/-- The digits, behind as many pad characters as they leave of the width. -/
theorem printnum_eq {base : Nat} (two : 1 < base) (padc : UInt8) {fuel num : Nat} (enough : num < base ^ fuel)
    (positive : 0 < fuel) (width : Int) (s : σ) :
    printnum putch fuel num base width padc s = .ok (putAll putch (printed base num width padc) s) := by
  induction fuel generalizing num width with
  | zero => cases positive
  | succ fuel ih =>
      rw [printnum]
      by_cases large : base ≤ num
      · have less : num / base < base ^ fuel := Nat.div_lt_of_lt_mul (by rwa [← Nat.pow_succ'])
        have more : 0 < fuel := by
          by_contra none
          have : fuel = 0 := by omega
          subst this
          simp at enough
          omega
        have count : (int (width - (numerals base num).length)) =
            int (int (width - 1) - (numerals base (num / base)).length) := by
          rw [int_sub_int, numerals_of_le two large, List.length_append, List.length_singleton]
          congr 1
          push_cast
          ring
        rw [if_pos large, ih less more, printed, printed, count, numerals_of_le two large, ← List.append_assoc,
          putAll_append putch (_ ++ _)]
        rfl
      · have small : num < base := by omega
        rw [if_neg large, printed, numerals_of_lt small, putAll_append, pad_eq, Nat.mod_eq_of_lt small]
        rfl

/-! ## Strings -/

theorem lessBy_succ (width : Int) (n : Nat) : lessBy (int (width - 1)) n = lessBy width (n + 1) := by
  cases n with
  | zero =>
      rw [lessBy, lessBy, if_pos rfl, if_neg (by omega)]
      rfl
  | succ n =>
      rw [lessBy, lessBy, if_neg (by omega), if_neg (by omega), int_sub_int]
      congr 1
      push_cast
      ring

theorem putString_eq (altflag : Bool) (p : List UInt8) (precision width : Int) (s : σ) :
    putString putch altflag p precision width s =
      (lessBy width (shown altflag precision p).length, putAll putch (shown altflag precision p) s) := by
  have put (ch : UInt8) (s : σ) :
      (if altflag ∧ (ch < chr ' ' ∨ ch > chr '~') then putch (ord '?') s else putch ch.toNat s) =
        putch (visible altflag ch) s := by
    rw [visible]
    split <;> rfl
  induction p generalizing precision width s with
  | nil =>
      have nothing : shown altflag precision [] = [] := by simp [shown]
      rw [nothing]
      rfl
  | cons ch p ih =>
      rw [putString]
      by_cases more : precision < 0 ∨ precision - 1 ≥ 0
      · rw [if_pos more, ih, put]
        have first : shown altflag precision (ch :: p) =
            visible altflag ch :: shown altflag (if precision < 0 then precision else precision - 1) p := by
          by_cases unlimited : precision < 0
          · simp only [shown, if_pos unlimited, List.map_cons]
          · obtain ⟨n, rfl⟩ : ∃ n : Nat, precision = n + 1 := ⟨(precision - 1).toNat, by omega⟩
            have value : ((n : Int) + 1).toNat = n + 1 := by omega
            have nonneg : ¬ (n : Int) < 0 := by omega
            simp only [shown, if_neg unlimited, if_neg nonneg, value, List.take_succ_cons, List.map_cons,
              add_sub_cancel_right, Int.toNat_natCast]
        rw [first, List.length_cons, lessBy_succ]
        rfl
      · have zero : precision = 0 := by omega
        subst zero
        rw [if_neg more]
        rfl

theorem printString_eq (p : List UInt8) (c : Conv) (s : σ) :
    printString putch p c s = putAll putch (stringText p c) s := by
  by_cases padded : c.width > 0 ∧ c.padc ≠ chr '-'
  · simp only [printString, stringText, leftPad, if_pos padded, putString_eq, pad_eq, putAll_append]
    rfl
  · simp only [printString, stringText, leftPad, if_neg padded, putString_eq, pad_eq, putAll_append]
    rfl

/-! ## Places in the format -/

theorem ok_bind {α β : Type} (a : α) (f : α → Except Fault β) : (Except.ok a >>= f) = f a := rfl

/-- The text from a place on. -/
def At (text : List UInt8) (fmt : Nat) (rest : List UInt8) : Prop :=
    ∃ before, text = before ++ rest ∧ fmt = before.length

section Places

variable {text rest : List UInt8} {fmt : Nat} {ch : UInt8}

theorem At.load_cons (here : At text fmt (ch :: rest)) : load text fmt = .ok ch := by
  obtain ⟨before, rfl, rfl⟩ := here
  rw [load, List.getElem?_append_right (Nat.le_refl _), Nat.sub_self]
  rfl

theorem At.load_nil (here : At text fmt []) : load text fmt = .ok 0 := by
  obtain ⟨before, rfl, rfl⟩ := here
  rw [load, List.append_nil, List.getElem?_eq_none (Nat.le_refl _)]
  exact if_pos rfl

theorem At.load (here : At text fmt rest) : Printfmt.load text fmt = .ok (rest.headD 0) := by
  cases rest with
  | nil => exact here.load_nil
  | cons ch rest => exact here.load_cons

theorem At.skip (mods : List UInt8) (here : At text fmt (mods ++ rest)) : At text (fmt + mods.length) rest := by
  obtain ⟨before, rfl, rfl⟩ := here
  exact ⟨before ++ mods, (List.append_assoc ..).symm, (List.length_append ..).symm⟩

theorem At.unique {fmt' : Nat} (here : At text fmt rest) (there : At text fmt' rest) : fmt = fmt' := by
  obtain ⟨before, split, rfl⟩ := here
  obtain ⟨before', split', rfl⟩ := there
  rw [List.append_cancel_right (split.symm.trans split')]

theorem At.next (here : At text fmt (ch :: rest)) : At text (fmt + 1) rest := here.skip [ch]

end Places

theorem widthField_eq {text rest : List UInt8} {fuel fmt : Nat} (here : At text fmt rest) (enough : rest.length < fuel)
    (ch : UInt8) (precision : Int) :
    ∃ place, widthField text fuel ch fmt precision =
      .ok ((digitRun rest (int (precision * 10 + ch.toNat - ord '0'))).1, place) ∧
      At text place (digitRun rest (int (precision * 10 + ch.toNat - ord '0'))).2 := by
  induction rest generalizing fuel fmt ch precision with
  | nil =>
      obtain _ | fuel := fuel
      · cases enough
      refine ⟨fmt, ?_, here⟩
      have ends : (0 : UInt8) < chr '0' := by decide
      rw [widthField, here.load_nil, ok_bind, if_pos (Or.inl ends)]
      rfl
  | cons next rest ih =>
      obtain _ | fuel := fuel
      · cases enough
      rw [widthField, here.load, digitRun]
      by_cases last : next < chr '0' ∨ next > chr '9'
      · rw [if_pos last]
        exact ⟨fmt, if_pos last, here⟩
      · rw [if_neg last]
        obtain ⟨place, run, there⟩ :=
          ih here.next (Nat.lt_of_succ_lt_succ enough) next (int (precision * 10 + ch.toNat - ord '0'))
        exact ⟨place, (if_neg last).trans run, there⟩

/-- The modifiers are read up to the place where the rest of the text begins. -/
theorem reswitch_eq {args : Args} {text rest : List UInt8} {fuel fmt : Nat} (here : At text fmt rest)
    (enough : rest.length < fuel) (ap : Nat) (c : Conv) :
    ∃ place, reswitch text args fuel fmt ap c = .ok ((modifiers args rest ap c).2.2.headD 0, place + 1,
        (modifiers args rest ap c).2.1, (modifiers args rest ap c).1) ∧
      At text place (modifiers args rest ap c).2.2 := by
  fun_induction modifiers args rest ap c generalizing fuel fmt with
  | case1 ap c =>
      obtain _ | fuel := fuel
      · cases enough
      refine ⟨fmt, ?_, here⟩
      rw [reswitch, here.load]
      rfl
  | case2 ch rest ap c is ih =>
      obtain _ | fuel := fuel
      · cases enough
      obtain ⟨place, run, there⟩ := ih here.next (Nat.lt_of_succ_lt_succ enough)
      refine ⟨place, ?_, there⟩
      rw [reswitch, here.load_cons]
      simp only [bind, Except.bind, is]
      exact run
  | case3 ch rest ap c is ih =>
      obtain _ | fuel := fuel
      · cases enough
      obtain ⟨place, run, there⟩ := ih here.next (Nat.lt_of_succ_lt_succ enough)
      refine ⟨place, ?_, there⟩
      rw [reswitch, here.load_cons]
      simp only [bind, Except.bind, is]
      exact run
  | case4 ch rest ap c is ih =>
      obtain _ | fuel := fuel
      · cases enough
      have shorter := number_length ch rest
      rw [List.length_cons] at enough
      obtain ⟨middle, read, at'⟩ := widthField_eq here.next (Nat.lt_of_succ_lt_succ enough) ch 0
      obtain ⟨place, run, there⟩ := ih at' (Nat.lt_of_le_of_lt shorter (Nat.lt_of_succ_lt_succ enough))
      refine ⟨place, ?_, there⟩
      rw [reswitch, here.load_cons]
      simp only [bind, Except.bind, is, read]
      exact run
  | case5 ch rest ap c is ih =>
      obtain _ | fuel := fuel
      · cases enough
      obtain ⟨place, run, there⟩ := ih here.next (Nat.lt_of_succ_lt_succ enough)
      refine ⟨place, ?_, there⟩
      rw [reswitch, here.load_cons]
      simp only [bind, Except.bind, is]
      exact run
  | case6 ch rest ap c is ih =>
      obtain _ | fuel := fuel
      · cases enough
      obtain ⟨place, run, there⟩ := ih here.next (Nat.lt_of_succ_lt_succ enough)
      refine ⟨place, ?_, there⟩
      rw [reswitch, here.load_cons]
      simp only [bind, Except.bind, is]
      exact run
  | case7 ch rest ap c is ih =>
      obtain _ | fuel := fuel
      · cases enough
      obtain ⟨place, run, there⟩ := ih here.next (Nat.lt_of_succ_lt_succ enough)
      refine ⟨place, ?_, there⟩
      rw [reswitch, here.load_cons]
      simp only [bind, Except.bind, is]
      exact run
  | case8 ch rest ap c is ih =>
      obtain _ | fuel := fuel
      · cases enough
      obtain ⟨place, run, there⟩ := ih here.next (Nat.lt_of_succ_lt_succ enough)
      refine ⟨place, ?_, there⟩
      rw [reswitch, here.load_cons]
      simp only [bind, Except.bind, is]
      exact run
  | case9 ch rest ap c =>
      obtain _ | fuel := fuel
      · cases enough
      refine ⟨fmt, ?_, here⟩
      rw [reswitch, here.load_cons]
      simp only [bind, Except.bind]
      rfl

/-- Back over the modifiers, to behind their `%`. -/
theorem rewind_eq {text mods tail : List UInt8} {fuel fmt : Nat} (percent : At text fmt (chr '%' :: (mods ++ tail)))
    (absent : chr '%' ∉ mods) (enough : mods.length < fuel) :
    rewind text fuel (fmt + 1 + mods.length) = .ok (fmt + 1) := by
  induction mods using List.reverseRecOn generalizing fuel tail with
  | nil =>
      obtain _ | fuel := fuel
      · cases enough
      rw [List.length_nil, Nat.add_zero, rewind, percent.load_cons, ok_bind, if_neg (not_not_intro rfl)]
      rfl
  | append_singleton mods ch ih =>
      obtain _ | fuel := fuel
      · cases enough
      rw [List.mem_append, not_or, List.mem_singleton] at absent
      rw [List.length_append, List.length_singleton] at enough ⊢
      have last : At text (fmt + 1 + mods.length) (ch :: tail) :=
        At.skip mods (by simpa [List.append_assoc] using percent.next)
      rw [← Nat.add_assoc, rewind, last.load_cons, ok_bind, if_pos (Ne.symm absent.2)]
      have percent' : At text fmt (chr '%' :: (mods ++ (ch :: tail))) := by simpa [List.append_assoc] using percent
      exact ih percent' absent.1 (by omega)

/-- The text up to the next `%`, or all of it. -/
theorem scanText_eq {text rest : List UInt8} {fuel fmt : Nat} (here : At text fmt rest) (noNul : 0 ∉ rest)
    (enough : rest.length < fuel) (s : σ) :
    (chr '%' ∉ rest ∧ scanText putch text fuel fmt s = .ok (none, putAll putch (chars rest) s)) ∨
      ∃ plain behind place, rest = plain ++ chr '%' :: behind ∧ chr '%' ∉ plain ∧ At text place (chr '%' :: behind) ∧
        scanText putch text fuel fmt s = .ok (some (place + 1), putAll putch (chars plain) s) := by
  induction rest generalizing fuel fmt s with
  | nil =>
      obtain _ | fuel := fuel
      · cases enough
      refine .inl ⟨List.not_mem_nil, ?_⟩
      rw [scanText, here.load_nil]
      rfl
  | cons ch rest ih =>
      obtain _ | fuel := fuel
      · cases enough
      rw [List.mem_cons, not_or] at noNul
      rw [scanText, here.load_cons, ok_bind]
      by_cases percent : ch = chr '%'
      · subst percent
        rw [if_neg (not_not_intro rfl)]
        exact .inr ⟨[], rest, fmt, rfl, List.not_mem_nil, here, rfl⟩
      · rw [if_pos percent, if_neg (Ne.symm noNul.1)]
        cases ih here.next noNul.2 (Nat.lt_of_succ_lt_succ enough) (putch ch.toNat s) with
        | inl all =>
            refine .inl ⟨?_, all.2⟩
            rw [List.mem_cons, not_or]
            exact ⟨Ne.symm percent, all.1⟩
        | inr found =>
            obtain ⟨plain, behind, place, rfl, none, there, run⟩ := found
            refine .inr ⟨ch :: plain, behind, place, rfl, ?_, there, run⟩
            rw [List.mem_cons, not_or]
            exact ⟨Ne.symm percent, none⟩

/-! ## Conversions -/

theorem toNat_lt_pow (num : BitVec 64) {base fuel : Nat} (eight : 8 ≤ base) (enough : 22 ≤ fuel) :
    num.toNat < base ^ fuel :=
  calc num.toNat
    _ < 8 ^ 22 := Nat.lt_trans num.isLt (by decide)
    _ ≤ base ^ 22 := Nat.pow_le_pow_left eight 22
    _ ≤ base ^ fuel := Nat.pow_le_pow_right (by omega) enough

/-- A conversion prints its piece and the scan goes on behind it. -/
theorem convert_known {printfmt : List UInt8 → Args → σ → Except Fault σ} {fuel : Nat} {text : List UInt8} {args : Args}
    {ch : UInt8} {ap : Nat} (fmt : Nat) (c : Conv) (s : σ) (noModifier : modifier (switch ch) = false)
    (known : switch ch ≠ .default) (enough : 22 ≤ fuel)
    (errors : switch ch = .error → ∀ s, printError printfmt (args.int ap) s =
      .ok (putAll putch (errorText (args.int ap)) s)) :
    convert putch printfmt fuel text args ch fmt ap c s =
      .ok (fmt, ap + takes (switch ch), putAll putch (render args (.conv (switch ch) c ap)) s) := by
  have digits (num : BitVec 64) {base : Nat} (two : 8 ≤ base) (s : σ) :
      printnum putch fuel num.toNat base c.width c.padc s =
        .ok (putAll putch (printed base num.toNat c.width c.padc) s) :=
    printnum_eq putch (by omega) c.padc (toNat_lt_pow num two enough) (by omega) c.width s
  rw [convert]
  cases kind : switch ch with
  | minus | zero | digit | star | dot | sharp | long =>
      rw [kind] at noModifier
      cases noModifier
  | default => exact absurd kind known
  | character => rfl
  | error =>
      rw [errors kind]
      rfl
  | string =>
      simp only [printString_eq]
      rfl
  | decimal =>
      simp only [render]
      split
      · simp only [digits _ (by decide : 8 ≤ 10), bind, Except.bind]
        rfl
      · simp only [digits _ (by decide : 8 ≤ 10), bind, Except.bind]
        rfl
  | unsigned =>
      simp only [digits _ (by decide : 8 ≤ 10), bind, Except.bind]
      rfl
  | octal =>
      simp only [digits _ (by decide : 8 ≤ 8), bind, Except.bind]
      rfl
  | pointer =>
      simp only [digits _ (by decide : 8 ≤ 16), bind, Except.bind]
      rfl
  | hex =>
      simp only [digits _ (by decide : 8 ≤ 16), bind, Except.bind]
      rfl
  | percent =>
      rw [eq_of_switch_percent kind]
      rfl

/-- What is no conversion is a plain `%`, and the scan goes on behind that. -/
theorem convert_default {printfmt : List UInt8 → Args → σ → Except Fault σ} {text mods tail : List UInt8} {args : Args}
    {ch : UInt8} {fuel fmt : Nat} (ap : Nat) (c : Conv) (s : σ) (unknown : switch ch = .default)
    (percent : At text fmt (chr '%' :: (mods ++ tail))) (absent : chr '%' ∉ mods) (enough : mods.length < fuel) :
    convert putch printfmt fuel text args ch (fmt + 1 + mods.length + 1) ap c s =
      .ok (fmt + 1, ap, putch (ord '%') s) := by
  simp only [convert, unknown, Nat.add_sub_cancel, rewind_eq percent absent enough, bind, Except.bind]
  rfl

/-- From any place the rest of the output is printed. -/
theorem scan_eq {printfmt : List UInt8 → Args → σ → Except Fault σ} {text rest : List UInt8} {args : Args}
    {fuel fmt : Nat} (here : At text fmt rest) (noNul : 0 ∉ rest) (ap : Nat) (enough : rest.length + 23 ≤ fuel)
    (errors : ∀ c k, .conv .error c k ∈ pieces args rest ap → ∀ s, printError printfmt (args.int k) s =
      .ok (putAll putch (errorText (args.int k)) s)) (s : σ) :
    scan putch printfmt text args fuel fmt ap s = .ok (putAll putch (output args rest ap) s) := by
  induction fuel generalizing rest fmt ap s with
  | zero => omega
  | succ fuel ih =>
      rw [scan]
      cases scanText_eq putch here noNul (show rest.length < fuel by omega) s with
      | inl all =>
          have plain : output args (rest ++ []) ap = chars rest ++ output args [] ap :=
            output_append args [] all.1 ap
          rw [List.append_nil, output_nil, List.append_nil] at plain
          rw [all.2, plain]
          rfl
      | inr found =>
          obtain ⟨plain, behind, place, rfl, none, percent, run⟩ := found
          rw [List.length_append, List.length_cons] at enough
          simp only [List.mem_append, List.mem_cons, not_or] at noNul
          rw [pieces_append none] at errors
          rw [run, output_append args _ none, putAll_append, ok_bind]
          obtain ⟨mods, split, noPercent⟩ := modifiers_split args behind ap {}
          obtain ⟨middle, modified, there⟩ := reswitch_eq percent.next (show behind.length < fuel by omega) ap {}
          rcases parsed : modifiers args behind ap {} with ⟨c, ap', tail⟩
          rw [parsed] at split modified there
          dsimp only at split modified there ⊢
          have lengths := congrArg List.length split
          rw [List.length_append] at lengths
          -- The conversion is known, or the scan goes back to behind the `%`.
          by_cases unknown : switch (tail.headD 0) = .default
          · have literal : Unrecognized (modifiers args behind ap {}).2.2 := by
              rw [parsed]
              rintro ch after rfl
              exact unknown
            have back : middle = place + 1 + mods.length := by
              rw [split] at percent
              exact there.unique (percent.next.skip mods)
            rw [split] at percent
            rw [modified, ok_bind, back]
            dsimp only
            rw [convert_default putch ap' c _ unknown percent noPercent (by omega), ok_bind, output_literal literal,
              parsed]
            dsimp only
            rw [ih (split ▸ percent.next) noNul.2.2 ap' (by omega)]
            · rfl
            · intro c k inside
              refine errors c k (List.mem_append_right _ ?_)
              rw [pieces_literal literal, parsed]
              exact List.mem_cons_of_mem _ inside
          · obtain _ | ⟨ch, after⟩ := tail
            · exact absurd (by decide) unknown
            have noModifier : modifier (switch ch) = false := modifiers_head (congrArg (·.2.2) parsed)
            have first := pieces_conv parsed unknown
            rw [first] at errors
            rw [modified, ok_bind]
            dsimp only
            rw [List.headD_cons, convert_known putch (middle + 1) c _ noModifier unknown (by omega), ok_bind]
            · dsimp only
              rw [List.length_cons] at lengths
              have noNul' : 0 ∉ after := fun nul => noNul.2.2 (by simp [split, nul])
              rw [ih there.next noNul' _ (by omega) fun c k inside =>
                errors c k (List.mem_append_right _ (List.mem_cons_of_mem _ inside)), output_conv parsed unknown,
                putAll_append]
            · intro kind
              exact errors c ap' (List.mem_append_right _ (by rw [kind]; exact List.mem_cons_self))

/-! ## Error codes -/

theorem int_eq {x : Int} (low : -2 ^ 31 ≤ x) (high : x < 2 ^ 31) : int x = x := by
  unfold int
  exact Int.bmod_eq_of_le_mul_two (by omega) (by omega)

theorem numerals_length_le {base num k : Nat} (two : 1 < base) (positive : 0 < k) (fits : num < base ^ k) :
    (numerals base num).length ≤ k := by
  by_cases zero : num = 0
  · rw [numerals, if_pos zero]
    exact positive
  · rw [numerals, if_neg zero, List.length_map, List.length_reverse]
    exact (Nat.digits_length_le_iff two num).mpr fits

/-- Without a width there is no padding. -/
theorem printed_noWidth {base : Nat} (eight : 8 ≤ base) (num : BitVec 64) (padc : UInt8) :
    printed base num.toNat (-1) padc = numerals base num.toNat := by
  have few := numerals_length_le (by omega) (by decide : 0 < 22) (toNat_lt_pow num eight (Nat.le_refl 22))
  rw [printed, int_eq (by omega) (by omega), Int.toNat_of_nonpos (by omega)]
  rfl

/-- A nested `printfmt` of one conversion. -/
theorem printfmt_single (plain : List UInt8) (ch : UInt8) (args : Args) {fuel : Nat} (absent : chr '%' ∉ plain)
    (noNul : 0 ∉ plain ++ [chr '%', ch]) (noModifier : modifier (switch ch) = false) (known : switch ch ≠ .default)
    (noError : switch ch ≠ .error) (enough : plain.length + 25 ≤ fuel) (s : σ) :
    printfmt putch fuel (plain ++ [chr '%', ch]) args s =
      .ok (putAll putch (chars plain ++ render args (.conv (switch ch) {} 0)) s) := by
  have ends : modifiers args [ch] 0 {} = ({}, 0, [ch]) := by
    rw [modifiers]
    cases kind : switch ch with
    | minus | zero | digit | star | dot | sharp | long =>
        rw [kind] at noModifier
        cases noModifier
    | _ => rfl
  have start : At (plain ++ [chr '%', ch]) 0 (plain ++ [chr '%', ch]) := ⟨[], rfl, rfl⟩
  have long : (plain ++ [chr '%', ch]).length + 23 ≤ fuel := by
    rw [List.length_append, List.length_cons, List.length_singleton]
    omega
  rw [printfmt, scan_eq putch start noNul 0 long, output_append args _ absent, output_conv ends known, output_nil,
    List.append_nil]
  intro c k inside
  rw [pieces_append absent, pieces_conv ends known, pieces] at inside
  simp [noError.symm] at inside

theorem errorString_none {n : Nat} (large : 24 < n) : errorString n = none := by
  unfold errorString
  split <;> first | omega | rfl

theorem errorCString_none {n : Nat} (unknown : errorString n = none) : errorCString n = none := by
  unfold errorCString
  split
  · rfl
  · rename_i known
    cases unknown.symm.trans known

theorem errorCString_some {n : Nat} {p : String} (known : errorString n = some p) :
    ∃ q, errorCString n = some q ∧ q.bytes = ascii p := by
  unfold errorCString
  split
  · rename_i unknown
    cases known.symm.trans unknown
  · rename_i q same
    cases known.symm.trans same
    exact ⟨_, rfl, rfl⟩

/-- A number that fits is printed as it is. -/
theorem render_oneNumber {n : Nat} (fits : n < 2 ^ 31) :
    render (oneNumber n) (.conv .decimal {} 0) = numerals 10 n := by
  have word : getint (oneNumber n) 0 0 = BitVec.ofNat 64 n := by
    have narrow : (BitVec.ofInt 64 n).setWidth 32 = BitVec.ofNat 32 n := by
      apply BitVec.eq_of_toNat_eq
      simp only [BitVec.toNat_setWidth, BitVec.toNat_ofInt, BitVec.toNat_ofNat]
      omega
    have plus : (BitVec.ofNat 32 n).msb = false := by
      rw [BitVec.msb_eq_decide, BitVec.toNat_ofNat, decide_eq_false_iff_not]
      omega
    rw [getint, if_neg (by decide), if_neg (by decide)]
    show ((BitVec.ofInt 64 n).setWidth 32).signExtend 64 = _
    rw [narrow, BitVec.signExtend_eq_setWidth_of_msb_false plus]
    apply BitVec.eq_of_toNat_eq
    simp only [BitVec.toNat_setWidth, BitVec.toNat_ofNat]
    omega
  have value : (BitVec.ofNat 64 n).toNat = n := by
    rw [BitVec.toNat_ofNat]
    omega
  have nonneg : ¬ (BitVec.ofNat 64 n).toInt < 0 := by
    rw [BitVec.toInt_eq_toNat_cond, value]
    split <;> omega
  have plain := printed_noWidth (show 8 ≤ 10 by decide) (BitVec.ofNat 64 n) (chr ' ')
  rw [value] at plain
  simp only [render, word, if_neg nonneg, value]
  exact plain

/-- A string without modifiers is printed as it is. -/
theorem stringText_plain {p : List UInt8} (short : p.length < 2 ^ 31) : stringText p {} = chars p := by
  have all : shown false (-1) p = chars p := by
    rw [shown, if_pos (by decide), chars]
    exact List.map_congr_left fun ch _ => if_neg fun alt => Bool.false_ne_true alt.1
  have nothing : (lessBy (-1) (shown false (-1) p).length).toNat = 0 := by
    rw [all, chars, List.length_map, lessBy]
    split
    · rfl
    · rw [int_eq (by omega) (by omega)]
      omega
  have left : leftPad p {} = (-1, []) := if_neg fun padded => absurd padded.1 (by decide)
  rw [stringText, left]
  dsimp only
  rw [nothing, all, List.nil_append, List.replicate_zero, List.append_nil]

theorem printError_eq {fuel : Nat} (enough : 31 ≤ fuel) {err : Int} (low : -2 ^ 31 < err) (high : err < 2 ^ 31)
    (s : σ) :
    printError (printfmt putch fuel) err s = .ok (putAll putch (errorText err) s) := by
  have absolute : (if err < 0 then int (-err) else err) = err.natAbs := by
    split
    · rw [int_eq (by omega) (by omega)]
      omega
    · omega
  have number : printfmt putch fuel (ascii "error %d") (oneNumber err.natAbs) s =
      .ok (putAll putch (chars (ascii "error ") ++ numerals 10 err.natAbs) s) := by
    have run := printfmt_single putch (ascii "error ") (chr 'd') (oneNumber err.natAbs)
      (by decide) (by decide) (by decide) (by decide) (by decide) (show 6 + 25 ≤ fuel by omega) s
    rwa [show switch (chr 'd') = .decimal by decide, render_oneNumber (by omega)] at run
  have nonneg : ¬ (err.natAbs : Int) < 0 := by omega
  rw [printError, absolute, describe, errorText]
  by_cases large : (err.natAbs : Int) > MAXERROR
  · rw [if_pos large, errorString_none (by simp only [MAXERROR] at large; omega)]
    exact number
  · rw [if_neg large, if_neg nonneg, Int.toNat_natCast]
    cases known : errorString err.natAbs with
    | none =>
        rw [errorCString_none known]
        exact number
    | some p =>
        obtain ⟨q, found, bytes⟩ := errorCString_some known
        rw [found]
        have run := printfmt_single putch [] (chr 's') (oneString q)
          (by decide) (by decide) (by decide) (by decide) (by decide) (show 0 + 25 ≤ fuel by omega) s
        have text : render (oneString q) (.conv .string {} 0) = chars (ascii p) := by
          have short := errorString_length known
          rw [render, ← bytes, ← stringText_plain (p := q.bytes) (by rw [bytes]; omega)]
          rfl
        rwa [show switch (chr 's') = .string by decide, text] at run

end Ucore.Libs.Vprintfmt
