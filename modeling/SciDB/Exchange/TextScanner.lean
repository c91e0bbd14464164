import SciDB.Exchange.Tsv

/-!
# Quoted text

Strings and characters that `Value::Formatter` (`src/query/TypeSystem.cpp`) has quoted are read
back by `Scanner::get` (`src/query/ops/input/TextScanner.h`).  With double buffering the scanner
gets its characters from `BufferedFileInput::myGetc`, which returns a `char`: the byte 255 is
then the number that stands for the end of the file.

Main results:

- Theorem {lit}`get_quoted_iff`: what was quoted is one token with the text it was made of,
  unless the scanner is double buffering and the text has the byte 255.
-/

namespace SciDB.Exchange.TextScanner

open List Tsv

/-! ## The scanner -/

inductive Token where
  | comma
  | tupleBegin
  | tupleEnd
  | coordBegin
  | coordEnd
  | multiply
  | arrayBegin
  | arrayEnd
  | semicolon
  | literal
  | eof
deriving DecidableEq

inductive Fault where
  /-- `SCIDB_LE_OP_INPUT_ERROR13` -/
  | inputError13
  /-- `SCIDB_LE_OP_INPUT_ERROR14` -/
  | inputError14
deriving DecidableEq

/-- `Scanner`, with the text that is still to be read.  `stringBuf` is what is in use of it. -/
structure Scanner where
  input : List Char
  useDoubleBuffering : Bool
  tmpValue : List Char
  stringBuf : List Char
  missingReason : Int

namespace Scanner

variable (s : Scanner)

def isNull : Bool := 0 ≤ s.missingReason

def getValue : List Char := s.tmpValue ++ s.stringBuf

/-- `getChar` takes the character for `EOF`. -/
def isEof (c : Char) : Bool := s.useDoubleBuffering && c = '\xff'

def append (c : Char) : Scanner :=
  if s.stringBuf.length < 100 then { s with stringBuf := s.stringBuf ++ [c] }
  else { s with tmpValue := s.tmpValue ++ s.stringBuf, stringBuf := [c] }

def clear : Scanner := { s with tmpValue := [], stringBuf := [] }

end Scanner

def isspace (c : Char) : Bool := c ∈ [' ', '\t', '\n', '\x0b', '\x0c', '\r']

/-- What `AppendEscaped` makes of the character after a backslash. -/
def escaped : Char → Char
  | 'n' => '\n'
  | 't' => '\t'
  | 'r' => '\r'
  | c => c

/-- The loop of the `CommonCase`.  `ungetChar` puts the last character back, but no `EOF`. -/
def common (s : Scanner) : List Char → Scanner
  | [] => { s with input := [] }
  | c :: input =>
    if s.isEof c then { s with input }
    else if c = '\\' then
      match input with
      | [] => { s with input := [] }
      | c :: input => if s.isEof c then { s with input } else common (s.append (escaped c)) input
    else if isspace c ∨ c ∈ [',', '(', ')', ']', '}', '{', '[', '*'] then
      { s with input := c :: input }
    else common (s.append c) input

/-- The end of the `CommonCase`. -/
def finishCommon (s : Scanner) : Except Fault (Token × Scanner) :=
  if s.getValue = [] then .error .inputError14
  else
    .ok (.literal,
      { s with missingReason := if s.getValue = ['n', 'u', 'l', 'l'] then 0 else -1 })

/-- What stands for a backslash and a character between quotes. -/
def quotedEscaped : Char → Char
  | 'n' => '\n'
  | 'r' => '\r'
  | 'f' => '\x0c'
  | 't' => '\t'
  | '0' => '\x00'
  | c => c

/-- The loop over the characters after a quote. -/
def quoted (first : Char) (s : Scanner) : List Char → Except Fault (Token × Scanner)
  | [] => .error .inputError13
  | c :: input =>
    if s.isEof c then .error .inputError13
    else if c = '\\' then
      match input with
      | [] => .error .inputError13
      | c :: input =>
        if s.isEof c then .error .inputError13
        else quoted first (s.append (quotedEscaped c)) input
    else if c = first then .ok (.literal, { s with input, missingReason := -1 })
    else quoted first (s.append c) input

/-- The digits of a missing reason. -/
def reason (s : Scanner) : List Char → Scanner
  | [] => { s with input := [] }
  | c :: input =>
    if c.isDigit then
      reason { s.append c with missingReason := s.missingReason * 10 + c.toNat - '0'.toNat } input
    else { s with input := if s.isEof c then input else c :: input }

def Scanner.get (s : Scanner) : Except Fault (Token × Scanner) :=
  match s.input.dropWhile isspace with
  | [] => .ok (.eof, { s with input := [] })
  | c :: input =>
    let s := { s with input }
    if s.isEof c then .ok (.eof, s)
    else
      match c with
      | ',' => .ok (.comma, s)
      | '(' => .ok (.tupleBegin, s)
      | ')' => .ok (.tupleEnd, s)
      | '\x27' => quoted '\x27' s.clear input
      | '\x22' => quoted '\x22' s.clear input
      | '\x7b' => .ok (.coordBegin, s)
      | '\x7d' => .ok (.coordEnd, s)
      | '*' => .ok (.multiply, s)
      | '[' => .ok (.arrayBegin, s)
      | ']' => .ok (.arrayEnd, s)
      | ';' => .ok (.semicolon, s)
      | '?' => .ok (.literal, reason { s.clear.append '?' with missingReason := 0 } input)
      | c => finishCommon (common s.clear (c :: input))

/-! ## Reading back -/

/-- `format`, for a character outside of tab-separated text. -/
def charBody : Char → List Char
  | '\x00' => ['\\', '0']
  | '\n' => ['\\', 'n']
  | '\r' => ['\\', 'r']
  | '\t' => ['\\', 't']
  | '\x0c' => ['\\', 'f']
  | c => if c = '\x27' ∨ c = '\\' then ['\\', c] else [c]

def formatChar (c : Char) : List Char := '\x27' :: charBody c ++ ['\x27']

/-- Whatever follows a text, the scanner takes it for one literal of a value. -/
def Reads (s : Scanner) (text value : List Char) : Prop :=
  ∀ rest, ∃ s', { s with input := text ++ rest }.get = .ok (.literal, s') ∧
    s'.getValue = value ∧ s'.isNull = false ∧ s'.input = rest

/-- The scanner takes no character of a text for the end of the file. -/
def Passes (s : Scanner) (text : List Char) : Prop := ∀ c ∈ text, s.isEof c = false

variable {s : Scanner} {first : Char} {esc : Char → List Char}

@[simp]
theorem getValue_append (s : Scanner) (c : Char) : (s.append c).getValue = s.getValue ++ [c] := by
  rw [Scanner.append]
  split <;> simp [Scanner.getValue]

@[simp]
theorem isEof_append (s : Scanner) (c c' : Char) : (s.append c).isEof c' = s.isEof c' := by
  rw [Scanner.append]
  split <;> rfl

theorem quoted_backslash (first : Char) (s : Scanner) (c : Char) (rest : List Char) :
    quoted first s ('\\' :: c :: rest) = if s.isEof c then .error .inputError13
      else quoted first (s.append (quotedEscaped c)) rest := by
  have heof : s.isEof '\\' = false := by simp [Scanner.isEof]
  rw [quoted.eq_def]
  simp [heof]

theorem quoted_cons {c : Char} (hc : c ≠ '\\') (rest : List Char) :
    quoted first s (c :: rest) = if s.isEof c then .error .inputError13
      else if c = first then .ok (.literal, { s with input := rest, missingReason := -1 })
      else quoted first (s.append c) rest := by
  rw [quoted.eq_def]
  simp [hc]

/-- The loop takes the quoted form of a character for the character. -/
def Unquotes (first : Char) (esc : Char → List Char) : Prop :=
  ∀ (s : Scanner) (c : Char) (rest : List Char), quoted first s (esc c ++ rest) =
    if s.isEof c then .error .inputError13 else quoted first (s.append c) rest

/-- The loop over a quoted text. -/
theorem quoted_flatMap (hesc : Unquotes first esc) (hfirst : first ≠ '\\' ∧ first ≠ '\xff')
    (text rest : List Char) :
    quoted first s (text.flatMap esc ++ first :: rest) =
      if ∀ c ∈ text, s.isEof c = false then
        .ok (.literal, { text.foldl Scanner.append s with input := rest, missingReason := -1 })
      else .error .inputError13 := by
  induction text generalizing s with
  | nil =>
    have heof : s.isEof first = false := by simp [Scanner.isEof, hfirst.2]
    simp [quoted_cons hfirst.1, heof]
  | cons c text ih =>
    rw [flatMap_cons, append_assoc, hesc, ih]
    cases heof : s.isEof c <;> simp [heof]

theorem getValue_foldl (s : Scanner) (text : List Char) :
    (text.foldl Scanner.append s).getValue = s.getValue ++ text := by
  induction text generalizing s with
  | nil => exact (append_nil _).symm
  | cons c text ih => rw [foldl_cons, ih, getValue_append, append_assoc, singleton_append]

theorem get_quote (hfirst : first = '\x27' ∨ first = '\x22') (text : List Char) :
    { s with input := first :: text }.get = quoted first { s.clear with input := text } text := by
  have heof : { s with input := text }.isEof first = false := by
    rcases hfirst with rfl | rfl <;> simp [Scanner.isEof]
  rcases hfirst with rfl | rfl
  all_goals
    rw [Scanner.get, dropWhile_cons_of_neg (by decide)]
    simp only [heof]
    rfl

/-- A scanner reads quoted text that passes it. -/
theorem reads_iff (hesc : Unquotes first esc) (hfirst : first = '\x27' ∨ first = '\x22')
    (s : Scanner) (text : List Char) :
    Reads s (first :: text.flatMap esc ++ [first]) text ↔ Passes s text := by
  have hne : first ≠ '\\' ∧ first ≠ '\xff' := by rcases hfirst with rfl | rfl <;> decide
  have htext : ∀ rest, first :: text.flatMap esc ++ [first] ++ rest =
      first :: (text.flatMap esc ++ first :: rest) := by simp
  constructor
  · intro h
    rcases h [] with ⟨s', hs', -⟩
    rw [htext, get_quote hfirst, quoted_flatMap hesc hne] at hs'
    split at hs'
    · assumption
    · cases hs'
  · intro h rest
    rw [htext, get_quote hfirst, quoted_flatMap hesc hne, if_pos]
    · exact ⟨_, rfl, getValue_foldl _ _, rfl, rfl⟩
    · exact h

theorem unquotes_quoteCstr (f : Formatter) (hfirst : f.quote = '\x27' ∨ f.quote = '\x22') :
    Unquotes f.quote fun c => if c = f.quote ∨ c = '\\' then ['\\', c] else [c] := by
  intro s c rest
  dsimp only
  split
  · rename_i hc
    have hescaped : quotedEscaped c = c := by
      rcases hc with rfl | rfl
      · rcases hfirst with h | h <;> rw [h] <;> rfl
      · rfl
    rw [cons_append, singleton_append, quoted_backslash, hescaped]
  · rename_i hc
    rw [not_or] at hc
    rw [singleton_append, quoted_cons hc.2, if_neg hc.1]

theorem unquotes_charBody : Unquotes '\x27' charBody := by
  intro s c rest
  have heof : ∀ c, c ≠ '\xff' → s.isEof c = false := fun c hc => by simp [Scanner.isEof, hc]
  rw [charBody.eq_def]
  split
  case h_6 =>
    split
    · rename_i hc
      rw [cons_append, singleton_append, quoted_backslash]
      rcases hc with rfl | rfl <;> rfl
    · rename_i hc
      rw [not_or] at hc
      rw [singleton_append, quoted_cons hc.2, if_neg hc.1]
  all_goals
    rw [cons_append, singleton_append, quoted_backslash, heof _ (by decide), heof _ (by decide)]
    rfl

/-- What the formatter has quoted is read as one literal with the text it was made of, if and
only if the scanner gets every character of it. -/
theorem get_quoted_iff (format : List Char) (s : Scanner) (text : List Char) (c : Char) :
    (Reads s ((Formatter.ofFormat format).quoteCstr text) text ↔ Passes s text) ∧
      (Reads s (formatChar c) [c] ↔ Passes s [c]) := by
  have hquote : (Formatter.ofFormat format).quote = '\x27' ∨
      (Formatter.ofFormat format).quote = '\x22' := by
    simp only [Formatter.ofFormat]
    split
    · exact .inr rfl
    · exact .inl rfl
  constructor
  · exact reads_iff (unquotes_quoteCstr _ hquote) hquote s text
  · rw [← reads_iff unquotes_charBody (.inl rfl), flatMap_singleton]
    rfl

/-- A string of one byte 255, with double buffering. -/
theorem get_byte_255 :
    ¬Reads ⟨[], true, [], [], 0⟩ ((Formatter.ofFormat []).quoteCstr ['\xff']) ['\xff'] := by
  intro h
  rcases h [] with ⟨s', hs', -⟩
  cases hs'

end SciDB.Exchange.TextScanner
