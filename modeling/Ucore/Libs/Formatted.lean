import Ucore.Libs.Printfmt

/-! # The text a format stands for

A format is a list of pieces: characters, and conversions with what their modifiers have
set. A `%` that begins no conversion is a character like those behind it. The output is
that of the pieces, whatever `putch` does with it.
-/

namespace Ucore.Libs.Formatted

open Printfmt

/-! ## Pieces -/

/-- The digits the text begins with, after the number `precision`. -/
def digitRun : List UInt8 → Int → Int × List UInt8
  | [], precision => (precision, [])
  | ch :: rest, precision =>
      if ch < chr '0' ∨ ch > chr '9' then (precision, ch :: rest)
      else digitRun rest (int (precision * 10 + ch.toNat - ord '0'))

theorem digitRun_length (text : List UInt8) (precision : Int) : (digitRun text precision).2.length ≤ text.length := by
  induction text generalizing precision with
  | nil => exact Nat.le_refl _
  | cons ch rest ih =>
      rw [digitRun]
      split
      · exact Nat.le_refl _
      · exact Nat.le_succ_of_le (ih _)

/-- The number that begins with the digit `ch`. -/
def number (ch : UInt8) (rest : List UInt8) : Int × List UInt8 := digitRun rest (int (0 * 10 + ch.toNat - ord '0'))

theorem number_length (ch : UInt8) (rest : List UInt8) : (number ch rest).2.length ≤ rest.length := digitRun_length ..

/-- The modifiers the text begins with: what they set, the next argument, and the text behind. -/
def modifiers (args : Args) : List UInt8 → Nat → Conv → Conv × Nat × List UInt8
  | [], ap, c => (c, ap, [])
  | ch :: rest, ap, c =>
      match switch ch with
      | .minus => modifiers args rest ap { c with padc := chr '-' }
      | .zero => modifiers args rest ap { c with padc := chr '0' }
      | .digit => modifiers args (number ch rest).2 ap (processPrecision { c with precision := (number ch rest).1 })
      | .star => modifiers args rest (ap + 1) (processPrecision { c with precision := args.int ap })
      | .dot => modifiers args rest ap { c with width := if c.width < 0 then 0 else c.width }
      | .sharp => modifiers args rest ap { c with altflag := true }
      | .long => modifiers args rest ap { c with lflag := int (c.lflag + 1) }
      | _ => (c, ap, ch :: rest)
termination_by text => text.length
decreasing_by
  all_goals
    have := number_length ch rest
    simp only [List.length_cons]
    omega

theorem digitRun_split (text : List UInt8) (precision : Int) :
    ∃ mods, text = mods ++ (digitRun text precision).2 ∧ chr '%' ∉ mods := by
  induction text generalizing precision with
  | nil => exact ⟨[], rfl, List.not_mem_nil⟩
  | cons ch rest ih =>
      rw [digitRun]
      split
      · exact ⟨[], rfl, List.not_mem_nil⟩
      · rename_i digit
        obtain ⟨mods, split, none⟩ := ih (int (precision * 10 + ch.toNat - ord '0'))
        refine ⟨ch :: mods, by rw [List.cons_append, ← split], ?_⟩
        rw [List.mem_cons, not_or]
        refine ⟨?_, none⟩
        rintro rfl
        exact digit (.inl (by decide))

/-- The modifiers end where the rest of the text begins, and have no `%` among them. -/
theorem modifiers_split (args : Args) (text : List UInt8) (ap : Nat) (c : Conv) :
    ∃ mods, text = mods ++ (modifiers args text ap c).2.2 ∧ chr '%' ∉ mods := by
  have further {ch : UInt8} {rest tail : List UInt8} (other : switch ch ≠ .percent)
      (split : ∃ mods, rest = mods ++ tail ∧ chr '%' ∉ mods) :
      ∃ mods, ch :: rest = mods ++ tail ∧ chr '%' ∉ mods := by
    obtain ⟨mods, rfl, none⟩ := split
    refine ⟨ch :: mods, rfl, ?_⟩
    rw [List.mem_cons, not_or]
    refine ⟨?_, none⟩
    rintro rfl
    exact other (by decide)
  fun_induction modifiers args text ap c with
  | case1 => exact ⟨[], rfl, List.not_mem_nil⟩
  | case2 ch rest ap c is ih => exact further (by simp [is]) ih
  | case3 ch rest ap c is ih => exact further (by simp [is]) ih
  | case4 ch rest ap c is ih =>
      refine further (by simp [is]) ?_
      obtain ⟨run, split, none⟩ := digitRun_split rest (int (0 * 10 + ch.toNat - ord '0'))
      obtain ⟨mods, split', none'⟩ := ih
      refine ⟨run ++ mods, ?_, by simp [none, none']⟩
      rw [List.append_assoc, ← split']
      exact split
  | case5 ch rest ap c is ih => exact further (by simp [is]) ih
  | case6 ch rest ap c is ih => exact further (by simp [is]) ih
  | case7 ch rest ap c is ih => exact further (by simp [is]) ih
  | case8 ch rest ap c is ih => exact further (by simp [is]) ih
  | case9 => exact ⟨[], rfl, List.not_mem_nil⟩

def modifier : Case → Bool
  | .minus | .zero | .digit | .star | .dot | .sharp | .long => true
  | _ => false

/-- What ends the modifiers is none itself. -/
theorem modifiers_head {args : Args} {text after : List UInt8} {ap : Nat} {c : Conv} {ch : UInt8}
    (tail : (modifiers args text ap c).2.2 = ch :: after) : modifier (switch ch) = false := by
  fun_induction modifiers args text ap c with
  | case1 => cases tail
  | case2 _ _ _ _ _ ih => exact ih tail
  | case3 _ _ _ _ _ ih => exact ih tail
  | case4 _ _ _ _ _ ih => exact ih tail
  | case5 _ _ _ _ _ ih => exact ih tail
  | case6 _ _ _ _ _ ih => exact ih tail
  | case7 _ _ _ _ _ ih => exact ih tail
  | case8 _ _ _ _ _ ih => exact ih tail
  | case9 =>
      cases tail
      unfold modifier
      split <;> first | contradiction | rfl

theorem modifiers_length (args : Args) (text : List UInt8) (ap : Nat) (c : Conv) :
    (modifiers args text ap c).2.2.length ≤ text.length := by
  obtain ⟨mods, split, -⟩ := modifiers_split args text ap c
  have := congrArg List.length split
  rw [List.length_append] at this
  omega

inductive Piece where
  | char (ch : UInt8)
  /-- A conversion, with what its modifiers have set, and its argument. -/
  | conv (kind : Case) (c : Conv) (ap : Nat)

/-- How many arguments the conversion itself takes. -/
def takes (kind : Case) : Nat := if kind = .percent then 0 else 1

def pieces (args : Args) : List UInt8 → Nat → List Piece
  | [], _ => []
  | ch :: rest, ap =>
      if ch ≠ chr '%' then .char ch :: pieces args rest ap
      else
        match _found : modifiers args rest ap {} with
        | (c, ap', ch' :: after) =>
            if switch ch' = .default then .char ch :: pieces args rest ap'
            else .conv (switch ch') c ap' :: pieces args after (ap' + takes (switch ch'))
        | (_, ap', []) => .char ch :: pieces args rest ap'
termination_by text => text.length
decreasing_by
  · simp
  · simp
  · have := modifiers_length args rest ap {}
    simp only [_found, List.length_cons] at this ⊢
    omega
  · simp

theorem pieces_char {args : Args} {ch : UInt8} {rest : List UInt8} {ap : Nat} (other : ch ≠ chr '%') :
    pieces args (ch :: rest) ap = .char ch :: pieces args rest ap := by
  rw [pieces, if_pos other]

theorem pieces_conv {args : Args} {ch : UInt8} {rest after : List UInt8} {ap ap' : Nat} {c : Conv}
    (found : modifiers args rest ap {} = (c, ap', ch :: after)) (known : switch ch ≠ .default) :
    pieces args (chr '%' :: rest) ap = .conv (switch ch) c ap' :: pieces args after (ap' + takes (switch ch)) := by
  rw [pieces, if_neg (by simp)]
  split
  · rename_i same
    cases found.symm.trans same
    exact if_neg known
  · rename_i same
    cases found.symm.trans same

/-- What ends the modifiers begins no conversion, or there is nothing left. -/
def Unrecognized (tail : List UInt8) : Prop := ∀ ch after, tail = ch :: after → switch ch = .default

theorem pieces_literal {args : Args} {rest : List UInt8} {ap : Nat}
    (unknown : Unrecognized (modifiers args rest ap {}).2.2) :
    pieces args (chr '%' :: rest) ap = .char (chr '%') :: pieces args rest (modifiers args rest ap {}).2.1 := by
  rw [pieces, if_neg (by simp)]
  split
  · rename_i same
    rw [same] at unknown ⊢
    exact if_pos (unknown _ _ rfl)
  · rename_i same
    rw [same]

theorem pieces_append {args : Args} {text tail : List UInt8} (absent : chr '%' ∉ text) (ap : Nat) :
    pieces args (text ++ tail) ap = text.map .char ++ pieces args tail ap := by
  induction text with
  | nil => rfl
  | cons ch rest ih =>
      rw [List.mem_cons, not_or] at absent
      rw [List.cons_append, pieces_char (Ne.symm absent.1), ih absent.2]
      rfl

/-! ## Output -/

def chars (text : List UInt8) : List Int := text.map fun ch => (ch.toNat : Int)

/-- A number without leading zeros, the most significant digit first. -/
def numerals (base num : Nat) : List Int :=
  if num = 0 then [ord '0'] else (Nat.digits base num).reverse.map fun d => ((digitChar d).toNat : Int)

def printed (base num : Nat) (width : Int) (padc : UInt8) : List Int :=
  List.replicate (int (width - (numerals base num).length)).toNat (padc.toNat : Int) ++ numerals base num

/-- `#` hides what cannot be printed. -/
def visible (altflag : Bool) (ch : UInt8) : Int := if altflag ∧ (ch < chr ' ' ∨ ch > chr '~') then ord '?' else ch.toNat

/-- What is shown of a string. -/
def shown (altflag : Bool) (precision : Int) (p : List UInt8) : List Int :=
  (if precision < 0 then p else p.take precision.toNat).map (visible altflag)

/-- The width that is left for the string itself, and the characters in front of it. -/
def leftPad (p : List UInt8) (c : Conv) : Int × List Int :=
  if c.width > 0 ∧ c.padc ≠ chr '-' then
    let width := int (c.width - strnlen p c.precision)
    (if width > 0 then 0 else width, List.replicate width.toNat (c.padc.toNat : Int))
  else (c.width, [])

/-- The width after as many decrements. -/
def lessBy (width : Int) (n : Nat) : Int := if n = 0 then width else int (width - n)

def stringText (p : List UInt8) (c : Conv) : List Int :=
  (leftPad p c).2 ++ (shown c.altflag c.precision p ++ List.replicate
    (lessBy (leftPad p c).1 (shown c.altflag c.precision p).length).toNat (ord ' '))

/-- The description of an error code of either sign. -/
def errorText (err : Int) : List Int :=
  match errorString err.natAbs with
  | some p => chars (ascii p)
  | none => chars (ascii "error ") ++ numerals 10 err.natAbs

def render (args : Args) : Piece → List Int
  | .char ch => [(ch.toNat : Int)]
  | .conv kind c ap =>
      match kind with
      | .character => [args.int ap]
      | .error => errorText (args.int ap)
      | .string => stringText (if args.word ap = 0 then ascii "(null)" else (args.text (args.word ap)).bytes) c
      | .decimal =>
          let num := getint args ap c.lflag
          if num.toInt < 0 then ord '-' :: printed 10 (-num).toNat c.width c.padc
          else printed 10 num.toNat c.width c.padc
      | .unsigned => printed 10 (getuint args ap c.lflag).toNat c.width c.padc
      | .octal => printed 8 (getuint args ap c.lflag).toNat c.width c.padc
      | .pointer => ord '0' :: ord 'x' :: printed 16 (args.word ap).toNat c.width c.padc
      | .hex => printed 16 (getuint args ap c.lflag).toNat c.width c.padc
      | .percent => [ord '%']
      | _ => []

/-- The full output. -/
def output (args : Args) (text : List UInt8) (ap : Nat) : List Int := (pieces args text ap).flatMap (render args)

theorem flatMap_char (args : Args) (text : List UInt8) : (text.map Piece.char).flatMap (render args) = chars text := by
  induction text with
  | nil => rfl
  | cons ch rest ih =>
      rw [List.map_cons, List.flatMap_cons, ih]
      rfl

theorem output_nil (args : Args) (ap : Nat) : output args [] ap = [] := by
  rw [output, pieces]
  rfl

theorem output_conv {args : Args} {ch : UInt8} {rest after : List UInt8} {ap ap' : Nat} {c : Conv}
    (found : modifiers args rest ap {} = (c, ap', ch :: after)) (known : switch ch ≠ .default) :
    output args (chr '%' :: rest) ap =
      render args (.conv (switch ch) c ap') ++ output args after (ap' + takes (switch ch)) := by
  rw [output, pieces_conv found known, List.flatMap_cons]
  rfl

theorem output_append (args : Args) {text : List UInt8} (tail : List UInt8) (absent : chr '%' ∉ text) (ap : Nat) :
    output args (text ++ tail) ap = chars text ++ output args tail ap := by
  rw [output, pieces_append absent, List.flatMap_append, flatMap_char]
  rfl

theorem output_literal {args : Args} {rest : List UInt8} {ap : Nat}
    (unknown : Unrecognized (modifiers args rest ap {}).2.2) :
    output args (chr '%' :: rest) ap = ord '%' :: output args rest (modifiers args rest ap {}).2.1 := by
  rw [output, pieces_literal unknown, List.flatMap_cons]
  rfl

/-- An unrecognised or unfinished sequence comes out as it stands. -/
theorem output_unrecognized {args : Args} {rest : List UInt8} {ap : Nat}
    (unknown : Unrecognized (modifiers args rest ap {}).2.2) :
    ∃ mods, rest = mods ++ (modifiers args rest ap {}).2.2 ∧
      output args (chr '%' :: rest) ap = chars (chr '%' :: mods) ++
        output args (modifiers args rest ap {}).2.2 (modifiers args rest ap {}).2.1 := by
  obtain ⟨mods, split, none⟩ := modifiers_split args rest ap {}
  refine ⟨mods, split, ?_⟩
  have plain := output_append args (modifiers args rest ap {}).2.2 none (modifiers args rest ap {}).2.1
  rw [← split] at plain
  rw [output_literal unknown, plain]
  rfl

end Ucore.Libs.Formatted
