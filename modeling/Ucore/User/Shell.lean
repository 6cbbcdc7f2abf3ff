import Ucore.Lib.Bytes
import Ucore.Libs.Assert

/-! # The shell

`sh.c` cuts a command line into tokens in the buffer that holds it: a word ends at a character that
is overwritten by the next call of `gettoken`, and quotation marks become blanks.
-/

namespace Ucore.User.Shell

open Lib.Bytes Libs.Assert

/-! ## Tokens -/

/-- Blank, tab, carriage return and newline. -/
def WHITESPACE : List UInt8 := [0x20, 0x09, 0x0d, 0x0a]

/-- The characters of the redirections, the pipe, the ampersand and the semicolon. -/
def SYMBOLS : List UInt8 := [0x3c, 0x7c, 0x3e, 0x26, 0x3b]

def QUOTE : UInt8 := 0x22

def BLANK : UInt8 := 0x20

/-- The token for a word, the letter w. -/
def WORD : UInt8 := 0x77

/-- `strchr` finds a character in one of the constants above, and no NUL. -/
def strchr (s : List UInt8) (c : UInt8) : Bool := c ∈ s

/-- The buffer with the line, where the next call of `gettoken` starts, and where the last token did. -/
structure Lex where
  m : Block
  cmd : Option Nat
  t : Nat

/-- The terminator is at `n`, and nothing behind it is read. -/
def load (n : Nat) (m : Block) (s : Nat) : Result UInt8 := if s ≤ n then .ok (m s) else .error .panic

def store (m : Block) (s : Nat) (c : UInt8) : Block := Function.update m s c

/-- The first loop of `gettoken`, with fuel. -/
def skipWhite (n : Nat) : Nat → Block → Nat → Result (Block × Nat)
  | 0, _, _ => .error .fuel
  | fuel + 1, m, s => do
      let c ← load n m s
      if strchr WHITESPACE c then skipWhite n fuel (store m s 0) (s + 1) else pure (m, s)

/-- The second loop, over a word. -/
def skipWord (n : Nat) : Nat → Bool → Block → Nat → Result (Block × Nat)
  | 0, _, _, _ => .error .fuel
  | fuel + 1, flag, m, s => do
      let c ← load n m s
      if c ≠ 0 ∧ (flag = true ∨ strchr (WHITESPACE ++ SYMBOLS) c = false) then
        if c = QUOTE then skipWord n fuel (!flag) (store m s BLANK) (s + 1) else skipWord n fuel flag m (s + 1)
      else pure (m, s)

def gettoken (n : Nat) (lex : Lex) : Result (UInt8 × Lex) :=
  match lex.cmd with
  | none => pure (0, lex)
  | some s => do
      let (m, s) ← skipWhite n (n + 2) lex.m s
      let c ← load n m s
      if c = 0 then pure (0, { lex with m := m })
      else do
        let t := s
        let (token, m, s) ←
          if strchr SYMBOLS c then pure (c, store m s 0, s + 1)
          else do
            let (m, s) ← skipWord n (n + 2) false m s
            pure (WORD, m, s)
        let c ← load n m s
        pure (token, ⟨m, if c ≠ 0 then some s else none, t⟩)

/-- A line of characters, none of them NUL. -/
structure Line where
  text : List UInt8
  clean : ∀ c ∈ text, c ≠ 0

def Line.length (line : Line) : Nat := line.text.length

/-- The character at an offset; the terminator is behind the last one. -/
def Line.chr (line : Line) (k : Nat) : UInt8 := line.text.getD k 0

/-- A line in its buffer. -/
def Line.start (line : Line) : Lex := ⟨line.chr, some 0, 0⟩

/-! ## Commands -/

def EXEC_MAX_ARG_NUM : Nat := 32

def BUFSIZE : Nat := 4096

def E_NOENT : Int := 16

def O_RDONLY : BitVec 32 := 0

def O_RDWR : BitVec 32 := 2

def O_CREAT : BitVec 32 := 0x00000004

def O_TRUNC : BitVec 32 := 0x00000010

/-- The C string at an address in the line's buffer. -/
def cstring (n : Nat) (m : Block) (t : Nat) : List UInt8 := (slice m t (n + 1 - t)).takeWhile (· ≠ 0)

/-- The system calls, with the rest of the world. -/
structure Calls (ω : Type) where
  sysOpen : List UInt8 → BitVec 32 → ω → Int × ω
  close : Int → ω → ω
  dup2 : Int → Int → ω → Int × ω
  fork : ω → Int × ω
  waitpid : Int → ω → ω
  exec : List (List UInt8) → ω → Int × ω

/-- What the shell does with words: their addresses, and the strings that are there when they are used.
    For `__exec` it also matters whether `testfile` has found `argv[0]`. -/
inductive Use where
  | reopen (t : Nat) (name : List UInt8)
  | cd (t : Nat) (dir : List UInt8)
  | exec (found : Bool) (argv : List Nat) (strings : List (List UInt8))
  deriving DecidableEq, Repr

/-- The variables of `runcmd`, what was used so far, and the rest of the world. -/
structure State (ω : Type) where
  lex : Lex
  argv : List Nat
  uses : List Use
  world : ω

variable {ω : Type}

def reopen (calls : Calls ω) (fd2 : Int) (filename : List UInt8) (flags : BitVec 32) (w : ω) : Int × ω :=
  let (ret, w) := calls.sysOpen filename flags (calls.close fd2 w)
  let (ret, w) :=
    if 0 ≤ ret ∧ ret ≠ fd2 then
      let (dup, w) := calls.dup2 ret fd2 (calls.close fd2 w)
      (dup, calls.close ret w)
    else (ret, w)
  (if ret < 0 then ret else 0, w)

def testfile (calls : Calls ω) (name : List UInt8) (w : ω) : Int × ω :=
  let (ret, w) := calls.sysOpen name O_RDONLY w
  if ret < 0 then (ret, w) else (0, calls.close ret w)

/-- What `snprintf` leaves in `argv0`. -/
def slashed (name : List UInt8) : List UInt8 := (0x2f :: name).take (BUFSIZE - 1)

/-- `runit` -/
def runit (calls : Calls ω) (n : Nat) (s : State ω) : Int × State ω :=
  let strings := s.argv.map (cstring n s.lex.m)
  match strings with
  | name :: args =>
      if name = [0x63, 0x64] then
        match s.argv with
        | [_, dir] => (0, { s with uses := s.uses ++ [.cd dir (cstring n s.lex.m dir)] })
        | _ => (-1, s)
      else
        let (ret, w) := testfile calls name s.world
        if ret ≠ 0 ∧ ret ≠ -E_NOENT then (ret, { s with world := w })
        else
          let strings := (if ret ≠ 0 then slashed name else name) :: args
          let (code, w) := calls.exec strings w
          (code, { s with uses := s.uses ++ [.exec (ret = 0) s.argv strings], world := w })
  | [] => (0, s)

/-- The file name behind `<` or `>`; what is returned is a code to stop with, if any. -/
def redirect (calls : Calls ω) (n : Nat) (s : State ω) (fd2 : Int) (flags : BitVec 32) :
    Result (Option Int × State ω) := do
  let (token, lex) ← gettoken n s.lex
  let s := { s with lex := lex }
  if token ≠ WORD then pure (some (-1), s)
  else
    let name := cstring n lex.m lex.t
    let (ret, w) := reopen calls fd2 name flags s.world
    pure (if ret ≠ 0 then some ret else none, { s with uses := s.uses ++ [.reopen lex.t name], world := w })

/-- The loop of `runcmd`, with fuel, from where `argc` words were found. `p` is what `pipe`, which is
    never called, would have filled. -/
def runLoop (calls : Calls ω) (n : Nat) (p : Int × Int) : Nat → State ω → Result (Int × State ω)
  | 0, _ => .error .fuel
  | fuel + 1, s => do
      let (token, lex) ← gettoken n s.lex
      let s := { s with lex := lex }
      if token = WORD then
        if s.argv.length = EXEC_MAX_ARG_NUM then pure (-1, s)
        else runLoop calls n p fuel { s with argv := s.argv ++ [lex.t] }
      else if token = 0x3c ∨ token = 0x3e then do
        let (stop, s) ←
          if token = 0x3c then redirect calls n s 0 O_RDONLY else redirect calls n s 1 (O_RDWR ||| O_TRUNC ||| O_CREAT)
        match stop with
        | some ret => pure (ret, s)
        | none => runLoop calls n p fuel s
      else if token = 0x7c then
        let (ret, w) := calls.fork s.world
        if ret = 0 then
          let (ret, w) := calls.dup2 p.1 0 (calls.close 0 w)
          if ret < 0 then pure (ret, { s with world := w })
          else runLoop calls n p fuel { s with argv := [], world := calls.close p.2 (calls.close p.1 w) }
        else if ret < 0 then pure (ret, { s with world := w })
        else
          let (ret, w) := calls.dup2 p.2 1 (calls.close 1 w)
          if ret < 0 then pure (ret, { s with world := w })
          else pure (runit calls n { s with world := calls.close p.2 (calls.close p.1 w) })
      else if token = 0 then pure (runit calls n s)
      else if token = 0x3b then
        let (ret, w) := calls.fork s.world
        if ret = 0 then pure (runit calls n { s with world := w })
        else if ret < 0 then pure (ret, { s with world := w })
        else runLoop calls n p fuel { s with argv := [], world := calls.waitpid ret w }
      else pure (-1, s)

def runcmd (calls : Calls ω) (p : Int × Int) (line : Line) (w : ω) : Result (Int × State ω) :=
  runLoop calls line.length p (line.length + 1) ⟨line.start, [], [], w⟩

/-! ## What a line consists of -/

variable {line : Line} {n s e b : Nat} {m : Block}

def White (line : Line) (a b : Nat) : Prop := ∀ k, a ≤ k → k < b → line.chr k ∈ WHITESPACE

/-- Whether a quotation is open at `k`, counted from `a`. -/
def Quoted (line : Line) (a k : Nat) : Prop := ((slice line.chr a (k - a)).count QUOTE) % 2 = 1

def Special (line : Line) (k : Nat) : Prop := line.chr k ∈ WHITESPACE ++ SYMBOLS

instance (line : Line) (a k : Nat) : Decidable (Quoted line a k) := inferInstanceAs (Decidable (_ = _))

instance (line : Line) (k : Nat) : Decidable (Special line k) := inferInstanceAs (Decidable (_ ∈ _))

/-- From `s` up to the first whitespace or symbol behind it that is not quoted, or to the end. -/
structure Word (line : Line) (s e : Nat) : Prop where
  nonempty : s < e
  inside : e ≤ line.length
  starts : ¬Special line s
  runs : ∀ k, s ≤ k → k < e → Special line k → Quoted line s k
  ends : e = line.length ∨ Special line e ∧ ¬Quoted line s e

inductive Token where
  | word (start stop : Nat)
  | symbol (start : Nat)
  deriving DecidableEq, Repr

def Token.stop : Token → Nat
  | .word _ stop => stop
  | .symbol start => start + 1

/-- What stands behind some whitespace at `b`. -/
inductive Next (line : Line) (b : Nat) : Token → Prop where
  | word {s e : Nat} (after : b ≤ s) (white : White line b s) (word : Word line s e) : Next line b (.word s e)
  | symbol {s : Nat} (after : b ≤ s) (white : White line b s) (inside : s < line.length)
    (symbol : line.chr s ∈ SYMBOLS) :
      Next line b (.symbol s)

/-- The first words and symbols of a line, from `b` on. -/
inductive Tokens (line : Line) : Nat → List Token → Prop where
  | done {b : Nat} (white : White line b line.length) : Tokens line b []
  | next {b : Nat} {token : Token} {rest : List Token} (first : Next line b token)
    (later : Tokens line token.stop rest) :
      Tokens line b (token :: rest)

/-- What a call of `gettoken` says of a token. -/
def Token.kind (line : Line) : Token → UInt8
  | .word _ _ => WORD
  | .symbol s => line.chr s

def Token.start : Token → Nat
  | .word s _ => s
  | .symbol s => s

/-- Calls of `gettoken` until it returns 0, with fuel: the tokens with their addresses. -/
def scan (n : Nat) : Nat → Lex → Result (List (UInt8 × Nat))
  | 0, _ => .error .fuel
  | fuel + 1, lex => do
      let (token, lex) ← gettoken n lex
      if token = 0 then pure []
      else do
        let rest ← scan n fuel lex
        pure ((token, lex.t) :: rest)

/-- A word as it is left in the buffer. -/
def blanked (line : Line) (s e : Nat) : List UInt8 :=
  (slice line.chr s (e - s)).map fun c => if c = QUOTE then BLANK else c

/-! ## The loops -/

theorem chr_end (line : Line) : line.chr line.length = 0 := by simp [Line.chr, Line.length]

theorem chr_ne_zero {k : Nat} (inside : k < line.length) : line.chr k ≠ 0 := by
  have bound : k < line.text.length := inside
  rw [Line.chr, List.getD_eq_getElem _ _ bound]
  exact line.clean _ (List.getElem_mem bound)

/-- From `s` on the buffer still holds the line. -/
def Holds (line : Line) (m : Block) (s : Nat) : Prop := ∀ k, s ≤ k → k ≤ line.length → m k = line.chr k

theorem Holds.later {s' : Nat} (holds : Holds line m s) (after : s ≤ s') : Holds line m s' :=
  fun k low high => holds k (after.trans low) high

theorem Holds.store {c : UInt8} (holds : Holds line m s) : Holds line (store m s c) (s + 1) := by
  intro k low high
  rw [Shell.store, Function.update_of_ne (by omega)]
  exact holds k (by omega) high

theorem load_ok (holds : Holds line m s) (inside : s ≤ line.length) : load line.length m s = .ok (line.chr s) := by
  rw [load, if_pos inside, holds s le_rfl inside]

theorem strchr_iff {set : List UInt8} {c : UInt8} : strchr set c = true ↔ c ∈ set := decide_eq_true_iff

theorem skipWhite_spec (fuel : Nat) (holds : Holds line m s) (inside : s ≤ line.length)
    (enough : line.length < s + fuel) :
    ∃ m' s', skipWhite line.length fuel m s = .ok (m', s') ∧ s ≤ s' ∧ s' ≤ line.length ∧ White line s s' ∧
      line.chr s' ∉ WHITESPACE ∧ (∀ k, s ≤ k → k < s' → m' k = 0) ∧ ∀ k, k < s ∨ s' ≤ k → m' k = m k := by
  induction fuel generalizing m s with
  | zero => omega
  | succ fuel ih =>
      rw [skipWhite, load_ok holds inside, ok_bind]
      by_cases white : line.chr s ∈ WHITESPACE
      · have more : s < line.length := by
          rcases inside.lt_or_eq with more | rfl
          · exact more
          · rw [chr_end] at white
            exact absurd white (by decide)
        obtain ⟨m', s', run, after, within, whites, stop, zeros, frame⟩ := ih holds.store more (by omega)
        rw [if_pos (strchr_iff.mpr white), run]
        refine ⟨m', s', rfl, by omega, within, fun k low high => ?_, stop, fun k low high => ?_, fun k outside => ?_⟩
        · rcases low.eq_or_lt with rfl | low
          · exact white
          · exact whites k low high
        · rcases low.eq_or_lt with rfl | low
          · rw [frame s (.inl (Nat.lt_succ_self s)), store, Function.update_self]
          · exact zeros k low high
        · rw [frame k (by omega), store, Function.update_of_ne (by omega)]
      · rw [if_neg (fun found => white (strchr_iff.mp found))]
        exact ⟨m, s, rfl, le_rfl, inside, fun k low high => absurd (low.trans_lt high) (Nat.lt_irrefl _), white,
          fun k low high => absurd (low.trans_lt high) (Nat.lt_irrefl _), fun _ _ => rfl⟩

theorem quoted_start (line : Line) (a : Nat) : ¬Quoted line a a := by simp [Quoted, slice]

theorem quoted_succ {a k : Nat} (after : a ≤ k) :
    Quoted line a (k + 1) ↔ if line.chr k = QUOTE then ¬Quoted line a k else Quoted line a k := by
  have split : slice line.chr a (k + 1 - a) = slice line.chr a (k - a) ++ [line.chr k] := by
    rw [show k + 1 - a = (k - a) + 1 by omega, slice_append, show a + (k - a) = k by omega]
    rfl
  rw [Quoted, Quoted, split, List.count_append]
  by_cases quote : line.chr k = QUOTE
  · rw [if_pos quote, quote, List.count_singleton_self]
    omega
  · rw [if_neg quote, List.count_singleton]
    simp [quote]

/-- The flag of the loop tells whether a quotation is open. -/
theorem skipWord_spec {a : Nat} (fuel : Nat) (flag : Bool) (holds : Holds line m s) (after : a ≤ s)
    (inside : s ≤ line.length) (enough : line.length < s + fuel) (state : flag = true ↔ Quoted line a s)
    (runs : ∀ k, a ≤ k → k < s → Special line k → Quoted line a k) :
    ∃ m' e, skipWord line.length fuel flag m s = .ok (m', e) ∧ s ≤ e ∧ e ≤ line.length ∧
      (∀ k, a ≤ k → k < e → Special line k → Quoted line a k) ∧
      (e = line.length ∨ Special line e ∧ ¬Quoted line a e) ∧
      (∀ k, s ≤ k → k < e → m' k = if line.chr k = QUOTE then BLANK else line.chr k) ∧
      ∀ k, k < s ∨ e ≤ k → m' k = m k := by
  induction fuel generalizing m s flag with
  | zero => omega
  | succ fuel ih =>
      rw [skipWord, load_ok holds inside, ok_bind]
      by_cases goes : line.chr s ≠ 0 ∧ (flag = true ∨ strchr (WHITESPACE ++ SYMBOLS) (line.chr s) = false)
      · rw [if_pos goes]
        have more : s < line.length := by
          rcases inside.lt_or_eq with more | rfl
          · exact more
          · exact absurd (chr_end line) goes.1
        have runs' : ∀ k, a ≤ k → k < s + 1 → Special line k → Quoted line a k := by
          intro k low high special
          rcases (Nat.lt_succ_iff.mp high).lt_or_eq with high | rfl
          · exact runs k low high special
          · rcases goes.2 with open_ | plain
            · exact state.mp open_
            · exact absurd (strchr_iff.mpr special) (by rw [plain]; exact nofun)
        have here : ∀ {m' : Block} {e : Nat}, (∀ k, k < s + 1 ∨ e ≤ k → m' k = m k) → m' s = line.chr s :=
          fun frame => by
          rw [frame s (.inl (Nat.lt_succ_self s)), holds s le_rfl inside]
        by_cases quote : line.chr s = QUOTE
        · have state' : (!flag) = true ↔ Quoted line a (s + 1) := by
            rw [quoted_succ after, if_pos quote, ← state]
            simp
          obtain ⟨m', e, run, later, within, all, ends, words, frame⟩ :=
            ih (!flag) holds.store (by omega) more (by omega) state' runs'
          rw [if_pos quote, run]
          refine ⟨m', e, rfl, by omega, within, all, ends, fun k low high => ?_, fun k outside => ?_⟩
          · rcases low.eq_or_lt with rfl | low
            · rw [frame s (.inl (Nat.lt_succ_self s)), store, Function.update_self, if_pos quote]
            · exact words k low high
          · rw [frame k (by omega), store, Function.update_of_ne (by omega)]
        · have state' : flag = true ↔ Quoted line a (s + 1) := by rw [quoted_succ after, if_neg quote, state]
          obtain ⟨m', e, run, later, within, all, ends, words, frame⟩ :=
            ih flag (holds.later (Nat.le_succ s)) (by omega) more (by omega) state' runs'
          rw [if_neg quote, run]
          refine ⟨m', e, rfl, by omega, within, all, ends, fun k low high => ?_, fun k outside => ?_⟩
          · rcases low.eq_or_lt with rfl | low
            · rw [if_neg quote, here frame]
            · exact words k low high
          · exact frame k (by omega)
      · rw [if_neg goes]
        refine ⟨m, s, rfl, le_rfl, inside, runs, ?_, fun k low high => absurd (low.trans_lt high) (Nat.lt_irrefl _),
          fun _ _ => rfl⟩
        rcases inside.lt_or_eq with more | last
        · have special : flag = false ∧ strchr (WHITESPACE ++ SYMBOLS) (line.chr s) = true := by
            simpa [chr_ne_zero more] using goes
          refine .inr ⟨strchr_iff.mp special.2, fun quoted => ?_⟩
          rw [state.mpr quoted] at special
          exact nomatch special.1
        · exact .inl last

/-! ## One token -/

/-- A word in the buffer, and behind it a NUL. -/
structure Closed (line : Line) (m : Block) (s e : Nat) : Prop where
  word : Word line s e
  text : ∀ k, s ≤ k → k < e → m k = if line.chr k = QUOTE then BLANK else line.chr k
  terminated : m e = 0

def Lex.pos (line : Line) (lex : Lex) : Nat := lex.cmd.getD line.length

/-- The buffer after some tokens: each word stands there, and all but the last one are closed. -/
structure Cut (line : Line) (lex : Lex) (seen : List Token) : Prop where
  inside : lex.pos line ≤ line.length
  holds : Holds line lex.m (lex.pos line)
  words : ∀ s e, .word s e ∈ seen → Word line s e ∧ e ≤ lex.pos line ∧
    (∀ k, s ≤ k → k < e → lex.m k = if line.chr k = QUOTE then BLANK else line.chr k) ∧
    (lex.m e = 0 ∨ e = lex.pos line)

variable {lex lex' : Lex} {seen : List Token}

theorem Line.cut (line : Line) : Cut line line.start [] where
  inside := Nat.zero_le _
  holds _ _ _ := rfl
  words _ _ none := absurd none List.not_mem_nil

/-- What a call does to the words before it. -/
theorem Cut.closes (cut : Cut line lex seen) {m : Block} {s : Nat} (after : lex.pos line ≤ s)
    (zeros : ∀ k, lex.pos line ≤ k → k < s → m k = 0)
    (frame : ∀ k, k < lex.pos line → m k = lex.m k)
    (last : s = lex.pos line → m s = 0 ∨ ¬Special line s ∧ s < line.length) :
    ∀ s e, .word s e ∈ seen → Closed line m s e := by
  intro a e member
  obtain ⟨word, below, text, ends⟩ := cut.words a e member
  refine ⟨word, fun k low high => ?_, ?_⟩
  · rw [frame k (by omega)]
    exact text k low high
  · rcases below.lt_or_eq with before | rfl
    · rw [frame e before]
      exact ends.resolve_right before.ne
    · rcases after.lt_or_eq with more | same
      · exact zeros _ le_rfl more
      · rw [← same] at last
        rcases last rfl with zero | ⟨plain, more⟩
        · exact zero
        · rcases word.ends with stop | ⟨special, -⟩
          · exact absurd stop more.ne
          · exact absurd special plain

theorem symbols_special {c : UInt8} (symbol : c ∈ SYMBOLS) : c ∈ WHITESPACE ++ SYMBOLS :=
  List.mem_append_right _ symbol

/-- A token more, whose last character the next call may overwrite. -/
theorem Cut.extend (cut : Cut line lex seen) {token : Token} (pos : lex'.pos line = token.stop)
    (after : lex.pos line ≤ token.stop) (inside : token.stop ≤ line.length) (holds : Holds line lex'.m token.stop)
    (closed : ∀ s e, .word s e ∈ seen → Closed line lex'.m s e)
    (word : ∀ s e, token = .word s e → Word line s e ∧
      ∀ k, s ≤ k → k < e → lex'.m k = if line.chr k = QUOTE then BLANK else line.chr k) :
    Cut line lex' (seen ++ [token]) where
  inside := pos ▸ inside
  holds := pos ▸ holds
  words s e member := by
    rcases List.mem_append.mp member with old | new
    · obtain ⟨word, text, terminated⟩ := closed s e old
      have below := (cut.words s e old).2.1
      exact ⟨word, by omega, text, .inl terminated⟩
    · obtain rfl := List.mem_singleton.mp new
      obtain ⟨word, text⟩ := word s e rfl
      exact ⟨word, pos.ge, text, .inr pos.symm⟩

/-- Where a call leaves off behind a token that starts at `t` and stops at `e`. -/
def Line.behind (line : Line) (m : Block) (e t : Nat) : Lex := ⟨m, if line.chr e ≠ 0 then some e else none, t⟩

theorem behind_pos {t : Nat} (inside : e ≤ line.length) : (line.behind m e t).pos line = e := by
  rw [Lex.pos, Line.behind]
  rcases inside.lt_or_eq with more | rfl
  · rw [if_pos (chr_ne_zero more)]
    rfl
  · rw [if_neg (not_not.mpr (chr_end line))]
    rfl

theorem finish_ok {token : UInt8} {t : Nat} (holds : Holds line m e) (inside : e ≤ line.length) :
    (do let c ← load line.length m e
        pure (token, ⟨m, if c ≠ 0 then some e else none, t⟩) :
        Result (UInt8 × Lex)) = .ok (token, line.behind m e t) := by
  rw [load_ok holds inside]
  rfl

/-- A call says the next token, or that there is none. In either case the words before it are closed. -/
theorem gettoken_spec (cut : Cut line lex seen) :
    (∃ lex', gettoken line.length lex = .ok (0, lex') ∧ White line (lex.pos line) line.length ∧
      ∀ s e, .word s e ∈ seen → Closed line lex'.m s e) ∨
    ∃ token lex', gettoken line.length lex = .ok (token.kind line, lex') ∧ Next line (lex.pos line) token ∧
      lex'.t = token.start ∧ lex'.pos line = token.stop ∧ Cut line lex' (seen ++ [token]) ∧
      ∀ s e, .word s e ∈ seen → Closed line lex'.m s e := by
  rw [gettoken]
  cases cmd : lex.cmd with
  | none =>
      have pos : lex.pos line = line.length := by rw [Lex.pos, cmd]; rfl
      have zero : lex.m line.length = 0 := by rw [cut.holds _ pos.le le_rfl, chr_end]
      refine .inl ⟨lex, rfl, fun k low high => absurd (pos ▸ low) high.not_ge, cut.closes pos.le ?_ (fun _ _ => rfl)
        fun _ => .inl zero⟩
      · exact fun k low high => absurd (pos ▸ low) high.not_ge
  | some b =>
      have pos : lex.pos line = b := by rw [Lex.pos, cmd]; rfl
      have holds := cut.holds
      have inside := cut.inside
      rw [pos] at holds inside
      obtain ⟨m, s, skip, after, within, white, stop, zeros, frame⟩ :=
        skipWhite_spec (line.length + 2) holds inside (by omega)
      have holds' : Holds line m s := fun k low high => by rw [frame k (.inr low), holds k (after.trans low) high]
      dsimp only
      rw [skip, ok_bind]
      dsimp only
      rw [load_ok holds' within, ok_bind]
      have frame' : ∀ k, k < lex.pos line → m k = lex.m k := fun k low => frame k (.inl (pos ▸ low))
      by_cases ends : line.chr s = 0
      · rw [if_pos ends]
        have last : s = line.length := within.eq_or_lt.resolve_right fun more => chr_ne_zero more ends
        refine .inl ⟨_, rfl, ?_, cut.closes (pos ▸ after) (pos ▸ zeros) frame' fun _ => .inl ?_⟩
        · rw [pos, ← last]
          exact white
        · exact (holds' s le_rfl within).trans ends
      · rw [if_neg ends]
        have more : s < line.length := within.lt_of_ne fun last => ends (by rw [last, chr_end])
        by_cases symbol : line.chr s ∈ SYMBOLS
        · rw [if_pos (strchr_iff.mpr symbol)]
          have holds'' : Holds line (store m s 0) (s + 1) := holds'.store
          have closed := cut.closes (m := store m s 0) (s := s) (pos ▸ after)
            (fun k low high => by
              rw [store, Function.update_of_ne high.ne]
              exact zeros k (pos ▸ low) high)
            (fun k low => by
              rw [store, Function.update_of_ne (by omega)]
              exact frame' k low)
            (fun _ => .inl (Function.update_self ..))
          have pos' := behind_pos (m := store m s 0) (t := s) more
          refine .inr ⟨.symbol s, line.behind (store m s 0) (s + 1) s, finish_ok holds'' more,
            .symbol (pos ▸ after) (pos ▸ white) more symbol, rfl, pos', ?_, closed⟩
          exact cut.extend pos' (show lex.pos line ≤ s + 1 by omega) more holds'' closed nofun
        · rw [if_neg (fun found => symbol (strchr_iff.mp found))]
          have plain : ¬Special line s := fun special => (List.mem_append.mp special).elim stop symbol
          obtain ⟨m', e, skip', later, within', runs, ends', words, frame''⟩ :=
            skipWord_spec (a := s) (line.length + 2) false holds' le_rfl within (by omega)
              (iff_of_false nofun (quoted_start line s)) fun k low high => absurd (low.trans_lt high) (Nat.lt_irrefl _)
          have nonempty : s < e := later.lt_of_ne fun same => by
            subst same
            exact ends'.elim (fun last => more.ne last) fun special => plain special.1
          have word : Word line s e := ⟨nonempty, within', plain, runs, ends'⟩
          have holds'' : Holds line m' e := fun k low high => by
            rw [frame'' k (.inr low), holds' k (later.trans low) high]
          have closed := cut.closes (m := m') (s := s) (pos ▸ after)
            (fun k low high => by
              rw [frame'' k (.inl high)]
              exact zeros k (pos ▸ low) high)
            (fun k low => by
              rw [frame'' k (.inl (by omega))]
              exact frame' k low)
            (fun _ => .inr ⟨plain, more⟩)
          have pos' := behind_pos (m := m') (t := s) within'
          rw [skip', ok_bind]
          refine .inr ⟨.word s e, line.behind m' e s, finish_ok holds'' within', .word (pos ▸ after) (pos ▸ white) word,
            rfl, pos', ?_, closed⟩
          refine cut.extend pos' (show lex.pos line ≤ e by omega) within' holds'' closed fun a f same => ?_
          obtain ⟨rfl, rfl⟩ := Token.word.inj same
          exact ⟨word, words⟩

/-! ## The whole line -/

theorem Next.kind_ne {token : Token} (next : Next line b token) : token.kind line ≠ 0 := by
  cases next with
  | word after white word =>
      change WORD ≠ 0
      decide
  | symbol after white inside symbol => exact chr_ne_zero inside

theorem Next.stop_gt {token : Token} (next : Next line b token) : b < token.stop ∧ token.stop ≤ line.length := by
  cases next with
  | word after white word => exact ⟨after.trans_lt word.nonempty, word.inside⟩
  | symbol after white inside symbol => exact ⟨Nat.lt_succ_of_le after, inside⟩

theorem scan_spec (fuel : Nat) (cut : Cut line lex seen) (enough : line.length < lex.pos line + fuel) :
    ∃ tokens, Tokens line (lex.pos line) tokens ∧
      scan line.length fuel lex = .ok (tokens.map fun token => (token.kind line, token.start)) := by
  induction fuel generalizing lex seen with
  | zero =>
      have := cut.inside
      omega
  | succ fuel ih =>
      rw [scan]
      rcases gettoken_spec cut with ⟨lex', run, white, -⟩ | ⟨token, lex', run, next, start, stop, cut', -⟩
      · rw [run]
        exact ⟨[], .done white, rfl⟩
      · have more := next.stop_gt
        obtain ⟨rest, tokens, later⟩ := ih cut' (by omega)
        rw [run, ok_bind]
        dsimp only
        rw [if_neg next.kind_ne, later]
        refine ⟨token :: rest, .next next (stop ▸ tokens), ?_⟩
        rw [start]
        rfl

/-! ## Strings in the buffer -/

theorem blank_ne_zero {k : Nat} (inside : k < line.length) :
    (if line.chr k = QUOTE then BLANK else line.chr k) ≠ 0 := by
  split
  · decide
  · exact chr_ne_zero inside

theorem Closed.cstring (closed : Closed line m s e) : cstring line.length m s = blanked line s e := by
  have nonempty := closed.word.nonempty
  have inside := closed.word.inside
  have text : slice m s (e - s) = blanked line s e := by
    rw [blanked, slice, slice, List.map_map]
    refine List.map_congr_left fun k member => ?_
    obtain ⟨low, high⟩ := List.mem_range'_1.mp member
    exact closed.text k low (by omega)
  have whole : slice m s (line.length + 1 - s) = slice m s (e - s) ++ 0 :: slice m (e + 1) (line.length - e) := by
    rw [show line.length + 1 - s = (e - s) + (line.length - e + 1) by omega, slice_append,
      show s + (e - s) = e by omega, slice_succ, closed.terminated]
  rw [Shell.cstring, whole, List.takeWhile_append_of_pos, List.takeWhile_cons_of_neg (by decide), List.append_nil, text]
  intro c member
  rw [slice, List.mem_map] at member
  obtain ⟨k, range, rfl⟩ := member
  obtain ⟨low, high⟩ := List.mem_range'_1.mp range
  rw [closed.text k low (by omega)]
  exact decide_eq_true (blank_ne_zero (by omega))

/-- The word at an address, with blanks for its quotation marks. -/
def Names (line : Line) (tokens : List Token) (t : Nat) (string : List UInt8) : Prop :=
  ∃ e, .word t e ∈ tokens ∧ string = blanked line t e

/-- What the strings are, except for a file name with something behind it on the line. -/
def Faithful (line : Line) (tokens : List Token) : Use → Prop
  | .reopen t name => ∃ e, .word t e ∈ tokens ∧ (e = line.length → name = blanked line t e)
  | .cd t dir => Names line tokens t dir
  | .exec found argv strings => ∃ t ts name args, argv = t :: ts ∧
      strings = (if found then name else slashed name) :: args ∧ Names line tokens t name ∧
      List.Forall₂ (Names line tokens) ts args

variable {tokens rest : List Token} {calls : Calls ω} {g : State ω}

/-- The pointers in `argv` are those of words. -/
def Pointers (seen : List Token) (argv : List Nat) : Prop := ∀ t ∈ argv, ∃ e, .word t e ∈ seen

theorem names_closed (part : seen ⊆ tokens) (closed : ∀ s e, .word s e ∈ seen → Closed line m s e) {argv : List Nat}
    (pointers : Pointers seen argv) : List.Forall₂ (Names line tokens) argv (argv.map (cstring line.length m)) := by
  induction argv with
  | nil => exact .nil
  | cons t ts ih =>
      obtain ⟨e, member⟩ := pointers t List.mem_cons_self
      exact .cons ⟨e, part member, (closed t e member).cstring⟩
        (ih fun u inside => pointers u (List.mem_cons_of_mem _ inside))

theorem runit_faithful (part : seen ⊆ tokens) (closed : ∀ s e, .word s e ∈ seen → Closed line g.lex.m s e)
    (pointers : Pointers seen g.argv) (uses : ∀ use ∈ g.uses, Faithful line tokens use) :
    ∀ use ∈ (runit calls line.length g).2.uses, Faithful line tokens use := by
  have names := names_closed part closed pointers
  have added : ∀ {use}, Faithful line tokens use → ∀ u ∈ g.uses ++ [use], Faithful line tokens u := by
    intro use faithful u member
    rcases List.mem_append.mp member with old | new
    · exact uses u old
    · exact List.mem_singleton.mp new ▸ faithful
  rw [runit]
  cases argv : g.argv with
  | nil => exact uses
  | cons t ts =>
      rw [argv] at names
      obtain ⟨name, args⟩ := List.forall₂_cons.mp names
      dsimp only
      split
      swap
      · exact uses
      rename_i name' args' same
      obtain ⟨rfl, rfl⟩ := List.cons.inj same
      split
      · split
        · rename_i dir same
          obtain ⟨-, rfl⟩ := List.cons.inj same
          exact added (List.forall₂_cons.mp args).1
        · exact uses
      · split
        · exact uses
        · refine added ⟨t, ts, _, _, rfl, ?_, name, args⟩
          by_cases found : (testfile calls (cstring line.length g.lex.m t) g.world).1 = 0
          · simp [found]
          · simp [found]

/-! ## There is one way to read a line -/

theorem Word.longest {e' : Nat} (first : Word line s e) (second : Word line s e') : e' ≤ e := by
  by_contra longer
  have inside := second.inside
  rcases first.ends with last | ⟨special, plain⟩
  · omega
  · exact plain (second.runs e first.nonempty.le (by omega) special)

/-- Where a token starts the whitespace ends. -/
theorem Next.starts {token : Token} (next : Next line b token) :
    b ≤ token.start ∧ White line b token.start ∧ line.chr token.start ∉ WHITESPACE ∧ token.start < line.length := by
  cases next with
  | word after white word =>
      exact ⟨after, white, fun here => word.starts (List.mem_append_left _ here), word.nonempty.trans_le word.inside⟩
  | symbol after white inside symbol =>
      have apart : ∀ c ∈ SYMBOLS, c ∉ WHITESPACE := by decide +kernel
      exact ⟨after, white, apart _ symbol, inside⟩

theorem Next.unique {first second : Token} (one : Next line b first) (two : Next line b second) : first = second := by
  have same : first.start = second.start := by
    obtain ⟨low, white, stop, -⟩ := one.starts
    obtain ⟨low', white', stop', -⟩ := two.starts
    rcases Nat.lt_trichotomy first.start second.start with less | same | more
    · exact absurd (white' _ low less) stop
    · exact same
    · exact absurd (white _ low' more) stop'
  cases one with
  | @word s e after white word =>
      cases two with
      | @word s' e' after' white' word' =>
          obtain rfl : s = s' := same
          rw [Nat.le_antisymm (word'.longest word) (word.longest word')]
      | @symbol s' after' white' inside symbol =>
          obtain rfl : s = s' := same
          exact absurd (symbols_special symbol) word.starts
  | @symbol s after white inside symbol =>
      cases two with
      | @word s' e' after' white' word' =>
          obtain rfl : s = s' := same
          exact absurd (symbols_special symbol) word'.starts
      | symbol after' white' inside' symbol' => exact congrArg Token.symbol same

theorem Tokens.first {token : Token} (tokens : Tokens line b rest) (next : Next line b token) :
    ∃ later, rest = token :: later ∧ Tokens line token.stop later := by
  cases tokens with
  | done white =>
      obtain ⟨low, -, stop, inside⟩ := next.starts
      exact absurd (white _ low inside) stop
  | next first later =>
      obtain rfl := first.unique next
      exact ⟨_, rfl, later⟩

theorem Tokens.unique {other : List Token} (one : Tokens line b rest) (two : Tokens line b other) : other = rest := by
  induction one generalizing other with
  | done white =>
      cases two with
      | done => rfl
      | next first =>
          obtain ⟨low, -, stop, inside⟩ := first.starts
          exact absurd (white _ low inside) stop
  | next first later ih =>
      obtain ⟨rest, rfl, toks⟩ := two.first first
      rw [ih toks]

/-- A token has one character at least. -/
theorem Tokens.short (toks : Tokens line b rest) (inside : b ≤ line.length) : b + rest.length ≤ line.length := by
  induction toks with
  | done => simpa using inside
  | next first later ih =>
      have more := first.stop_gt
      have := ih more.2
      rw [List.length_cons]
      omega

/-! ## Commands -/

theorem redirect_faithful (calls : Calls ω) (fd2 : Int) (flags : BitVec 32) (cut : Cut line g.lex seen)
    (toks : Tokens line (g.lex.pos line) rest)
    (part : seen ++ rest ⊆ tokens) (uses : ∀ use ∈ g.uses, Faithful line tokens use) :
    ∃ stop g', redirect calls line.length g fd2 flags = .ok (stop, g') ∧ g'.argv = g.argv ∧
      (∀ use ∈ g'.uses, Faithful line tokens use) ∧ (stop = none → ∃ seen' reg', seen ⊆ seen' ∧
        seen' ++ reg' ⊆ tokens ∧ reg'.length < rest.length ∧ Cut line g'.lex seen' ∧
        Tokens line (g'.lex.pos line) reg') := by
  rw [redirect]
  rcases gettoken_spec cut with ⟨lex', run, -⟩ | ⟨token, lex', run, next, start, stop, cut', -⟩
  · rw [run, ok_bind]
    exact ⟨_, _, rfl, rfl, uses, nofun⟩
  · rw [run, ok_bind]
    obtain ⟨later, rfl, toks'⟩ := toks.first next
    have part' : (seen ++ [token]) ++ later ⊆ tokens := by
      rw [List.append_assoc]
      exact part
    dsimp only
    cases token with
    | symbol a =>
        have other : line.chr a ≠ WORD := by
          cases next with
          | symbol after white inside symbol =>
              have apart : ∀ c ∈ SYMBOLS, c ≠ WORD := by decide +kernel
              exact apart _ symbol
        rw [if_pos (show Token.kind line (.symbol a) ≠ WORD from other)]
        exact ⟨_, _, rfl, rfl, uses, nofun⟩
    | word a e =>
        obtain ⟨word, -, text, -⟩ := cut'.words a e (by simp)
        obtain rfl : lex'.t = a := start
        rw [if_neg (show ¬Token.kind line (.word lex'.t e) ≠ WORD from not_not.mpr rfl)]
        refine ⟨_, _, rfl, rfl, fun use member => ?_,
          fun _ => ⟨_, later, List.subset_append_left .., part', Nat.lt_succ_self _,
          cut', stop ▸ toks'⟩⟩
        rcases List.mem_append.mp member with old | new
        · exact uses use old
        · obtain rfl := List.mem_singleton.mp new
          refine ⟨e, part' (by simp), fun last => ?_⟩
          have terminated : lex'.m e = 0 := by
            rw [cut'.holds e (by rw [stop]; exact le_rfl) word.inside, last, chr_end]
          exact Closed.cstring ⟨word, text, terminated⟩

theorem runLoop_faithful (p : Int × Int) (fuel : Nat) (enough : rest.length < fuel) (cut : Cut line g.lex seen)
    (toks : Tokens line (g.lex.pos line) rest) (part : seen ++ rest ⊆ tokens) (pointers : Pointers seen g.argv)
    (uses : ∀ use ∈ g.uses, Faithful line tokens use) :
    ∃ ret g', runLoop calls line.length p fuel g = .ok (ret, g') ∧ ∀ use ∈ g'.uses, Faithful line tokens use := by
  induction fuel generalizing g seen rest with
  | zero => exact absurd enough (Nat.not_lt_zero _)
  | succ fuel ih =>
      rw [runLoop]
      have before : seen ⊆ tokens := fun _ inside => part (List.mem_append_left _ inside)
      have nothing : ∀ {seen : List Token}, Pointers seen [] := fun _ absent => absurd absent List.not_mem_nil
      rcases gettoken_spec cut with ⟨lex', run, -, closed⟩ | ⟨token, lex', run, next, start, stop, cut', closed⟩
      · rw [run, ok_bind]
        exact ⟨_, _, rfl, runit_faithful (g := { g with lex := lex' }) before closed pointers uses⟩
      · rw [run, ok_bind]
        obtain ⟨later, rfl, toks'⟩ := toks.first next
        have part' : (seen ++ [token]) ++ later ⊆ tokens := by
          rw [List.append_assoc]
          exact part
        have shorter : later.length < fuel := Nat.lt_of_succ_lt_succ enough
        have pointers' : Pointers (seen ++ [token]) g.argv := fun t inside =>
          (pointers t inside).imp fun _ => List.mem_append_left _
        have onward : Tokens line (lex'.pos line) later := stop ▸ toks'
        dsimp only
        cases token with
        | word a e =>
            rw [if_pos (show Token.kind line (.word a e) = WORD from rfl)]
            split
            · exact ⟨_, _, rfl, uses⟩
            · refine ih (g := { g with lex := lex', argv := g.argv ++ [lex'.t] }) shorter cut' onward part'
                (fun t inside => ?_) uses
              rcases List.mem_append.mp inside with old | new
              · exact pointers' t old
              · obtain rfl := List.mem_singleton.mp new
                exact ⟨e, by rw [start]; simp [Token.start]⟩
        | symbol a =>
            have symbol : line.chr a ∈ SYMBOLS := by
              cases next with
              | symbol after white inside symbol => exact symbol
            have closed' : ∀ s e, .word s e ∈ seen ++ [.symbol a] → Closed line lex'.m s e := fun s e inside =>
              closed s e (by simpa using inside)
            have all : ∀ w : ω, ∀ use ∈ (runit calls line.length { g with lex := lex', world := w }).2.uses,
                Faithful line tokens use := fun w =>
              runit_faithful (g := { g with lex := lex', world := w }) before closed pointers uses
            have again : ∀ w : ω, ∃ ret g',
              runLoop calls line.length p fuel { g with lex := lex', argv := [], world := w } =
                .ok (ret, g') ∧ ∀ use ∈ g'.uses, Faithful line tokens use := fun w =>
              ih (g := { g with lex := lex', argv := [], world := w }) shorter cut' onward part' nothing uses
            have redirected : ∀ fd2 flags, ∃ ret g', (do
                let (stop, s) ← redirect calls line.length { g with lex := lex' } fd2 flags
                match stop with
                | some ret => pure (ret, s)
                | .none => runLoop calls line.length p fuel s) = .ok (ret, g') ∧
                  ∀ use ∈ g'.uses, Faithful line tokens use := fun fd2 flags => by
              obtain ⟨r, g', run', argv, uses', goes⟩ :=
                redirect_faithful (g := { g with lex := lex' }) calls fd2 flags cut' onward part' uses
              rw [run', ok_bind]
              cases r with
              | some ret => exact ⟨_, _, rfl, uses'⟩
              | none =>
                  obtain ⟨seen', reg', more, part'', less, cut'', toks''⟩ := goes rfl
                  refine ih (by omega) cut'' toks'' part'' (fun t inside => ?_) uses'
                  rw [argv] at inside
                  exact (pointers' t inside).imp fun _ member => more member
            have apart : ∀ c ∈ SYMBOLS, c ≠ WORD ∧ c ≠ 0 := by decide +kernel
            rw [show Token.kind line (.symbol a) = line.chr a from rfl, if_neg (apart _ symbol).1]
            by_cases redirects : line.chr a = 0x3c ∨ line.chr a = 0x3e
            · rw [if_pos redirects]
              split
              · exact redirected 0 _
              · exact redirected 1 _
            rw [if_neg redirects]
            split
            · split
              · split
                · exact ⟨_, _, rfl, uses⟩
                · exact again _
              · split
                · exact ⟨_, _, rfl, uses⟩
                · split
                  · exact ⟨_, _, rfl, uses⟩
                  · exact ⟨_, _, rfl, all _⟩
            rw [if_neg (apart _ symbol).2]
            split
            · split
              · exact ⟨_, _, rfl, all _⟩
              · split
                · exact ⟨_, _, rfl, uses⟩
                · exact again _
            · exact ⟨_, _, rfl, uses⟩

/-- Whatever a line is and whatever its commands come to: calls of `gettoken` say each word and symbol of the
    line once, in order, and `runcmd` names files and arguments by the words of the line, with blanks for
    quotation marks. -/
theorem runcmd_faithful (calls : Calls ω) (p : Int × Int) (line : Line) (w : ω) : ∃ tokens,
    (∀ other, Tokens line 0 other ↔ other = tokens) ∧
    scan line.length (line.length + 1) line.start = .ok (tokens.map fun token => (token.kind line, token.start)) ∧
    ∃ ret g, runcmd calls p line w = .ok (ret, g) ∧ ∀ use ∈ g.uses, Faithful line tokens use := by
  obtain ⟨tokens, toks, scans⟩ := scan_spec (line.length + 1) line.cut (by omega)
  have count := toks.short (Nat.zero_le _)
  refine ⟨tokens, fun other => ⟨toks.unique, fun same => same ▸ toks⟩, scans, ?_⟩
  exact runLoop_faithful (g := ⟨line.start, [], [], w⟩) p (line.length + 1) (by omega) line.cut toks
    (List.Subset.refl _) (fun _ absent => absurd absent List.not_mem_nil) fun _ absent => absurd absent List.not_mem_nil

/-- Every file is found, and every call goes well. -/
def allWell : Calls Unit where
  sysOpen _ _ w := (3, w)
  close _ w := w
  dup2 _ fd w := (fd, w)
  fork w := (1, w)
  waitpid _ w := w
  exec _ w := (0, w)

/-- `echo "a"` -/
def quotedLine : Line := ⟨[0x65, 0x63, 0x68, 0x6f, 0x20, 0x22, 0x61, 0x22], by decide +kernel⟩

/-- The last word of the line is passed on with blanks in it. -/
theorem quoted_word_blanked : ∃ g, runcmd allWell (0, 0) quotedLine () = .ok (0, g) ∧ Word quotedLine 5 8 ∧
    g.uses = [.exec true [0, 5] [[0x65, 0x63, 0x68, 0x6f], [0x20, 0x61, 0x20]]] ∧
    [0x20, 0x61, 0x20] ≠ slice quotedLine.chr 5 (8 - 5) := by
  have word : Word quotedLine 5 8 := ⟨by decide, by decide, by decide +kernel, by decide +kernel, .inl rfl⟩
  have runs : (match runcmd allWell (0, 0) quotedLine () with
      | .ok (ret, g) => decide (ret = 0 ∧ g.uses = [.exec true [0, 5] [[0x65, 0x63, 0x68, 0x6f], [0x20, 0x61, 0x20]]])
      | .error _ => false) = true := by
    decide +kernel
  cases run : runcmd allWell (0, 0) quotedLine () with
  | error stop =>
      rw [run] at runs
      cases runs
  | ok result =>
      rw [run] at runs
      obtain ⟨ret, g⟩ := result
      obtain ⟨rfl, uses⟩ : ret = 0 ∧ _ := of_decide_eq_true runs
      exact ⟨g, rfl, word, uses, by decide +kernel⟩

end Ucore.User.Shell
