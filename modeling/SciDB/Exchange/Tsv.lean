import Mathlib
import SciDB.Lib.Bytes
import SciDB.Lib.Checked

/-!
# Tab-separated text

Rows of nullable strings are written by `Value::Formatter` (`src/query/TypeSystem.cpp`) and
read back by `TsvParser::getField` (`src/util/TsvParser.cpp`) and
`ChunkLoader::parseNullField` (`src/query/ops/input/ChunkLoader.cpp`).  The formatter does not
know which texts the loader takes for a missing value.

Main results:

- Theorem {lit}`loadLine_saveLine`: the fields of a saved line are read one by one.
- Theorem {lit}`loadLine_saveLine_eq_iff`: a row is read back as it was exactly when none of
  its strings looks like a missing value.
-/

namespace SciDB.Exchange.Tsv

open List

/-- `Value` of a string attribute. -/
inductive Value where
  | null (reason : Fin 128)
  | string (s : List Char)
deriving DecidableEq

/-! ## Formatting -/

/-- How formats write a value that is missing for reason 0. -/
def nullReprs : List (List Char) := [[], ['n', 'u', 'l', 'l'], ['\\', 'N'], ['?', '0']]

/-- `Value::Formatter`, the members that strings and missing values use. -/
structure Formatter where
  tsv : Bool
  quote : Char
  nullRepr : List Char
  nullRepr_mem : nullRepr ∈ nullReprs

/-- `Formatter(format)`: the options follow a colon. -/
def Formatter.ofFormat (format : List Char) : Formatter :=
  let base := (format.takeWhile (· ≠ ':')).map Char.toLower
  let options := (format.dropWhile (· ≠ ':')).drop 1
  let tsv := decide (['t', 's', 'v'] <:+: base)
  { tsv
    quote := if options.find? (· ∈ ['d', 's']) = some 'd' then '\x22' else '\x27'
    nullRepr :=
      match options.find? (· ∈ ['E', 'n', 'N', '?']) with
      | some 'E' => []
      | some 'n' => ['n', 'u', 'l', 'l']
      | some 'N' => ['\\', 'N']
      | some _ => ['?', '0']
      | none => if tsv then ['\\', 'N'] else ['n', 'u', 'l', 'l']
    nullRepr_mem := by
      split <;> try split
      all_goals simp [nullReprs] }

/-- `TSV_ESCAPED`. -/
def tsvEscaped : List Char := ['\t', '\r', '\n', '\\']

def tsvChar : Char → List Char
  | '\t' => ['\\', 't']
  | '\n' => ['\\', 'n']
  | '\r' => ['\\', 'r']
  | '\\' => ['\\', '\\']
  | ch => [ch]

def Formatter.quoteCstr (f : Formatter) (s : List Char) : List Char :=
  f.quote :: s.flatMap (fun c => if c = f.quote ∨ c = '\\' then ['\\', c] else [c]) ++ [f.quote]

/-- `format`, for a string attribute. -/
def Formatter.format (f : Formatter) : Value → List Char
  | .null reason => if reason = 0 then f.nullRepr else '?' :: Nat.toDigits 10 reason
  | .string s =>
    if f.tsv then
      if ∀ c ∈ s, c ∉ tsvEscaped then s else s.flatMap tsvChar
    else f.quoteCstr s

/-- A line: the values with tabs between them. -/
def saveLine (f : Formatter) (row : List Value) : List Char :=
  ['\t'].intercalate (row.map f.format) ++ ['\n']

/-! ## Parsing -/

def iseol (ch : Char) : Bool := ch = '\n' ∨ ch = '\x00' ∨ ch = '\r'

/-- `TsvParser`: what lies ahead of the cursor, up to the end of the buffer. -/
structure TsvParser where
  cursor : List Char
  eol : Bool
  delim : Char

/-- What `getField` returns. -/
inductive Code where
  | OK
  | EOL
  | ERR
deriving DecidableEq

/-- What stands for a backslash and the character after it. -/
def unescape : Char → List Char
  | 'n' => ['\n']
  | 'r' => ['\r']
  | 't' => ['\t']
  | '\\' => ['\\']
  | 'N' => ['\\', 'N']
  | ch => [ch]

/-- A result of the loop with more text in front of the field. -/
def emit (text : List Char) (r : Code × List Char × TsvParser) : Code × List Char × TsvParser :=
  (r.1, text ++ r.2.1, r.2.2)

/-- The loop of `getField`.  The field is written over text that was read already, so what is
still to be read does not change. -/
def scan (delim : Char) : List Char → Code × List Char × TsvParser
  | [] => (.OK, [], ⟨[], true, delim⟩)
  | c :: rp =>
    if c = delim then (.OK, [], ⟨rp, false, delim⟩)
    else if iseol c then (.OK, [], ⟨c :: rp, true, delim⟩)
    else if c = '\\' then
      match rp with
      | [] => (.ERR, ['\\'], ⟨[], true, delim⟩)
      | ch :: rp =>
        if ch = delim ∨ iseol ch then (.ERR, ['\\'], ⟨rp, ch ≠ delim, delim⟩)
        else emit (unescape ch) (scan delim rp)
    else emit [c] (scan delim rp)

def TsvParser.getField (p : TsvParser) : Code × List Char × TsvParser :=
  if p.eol then (.EOL, p.cursor, p) else scan p.delim p.cursor

/-! ## Loading -/

inductive Fault where
  | badMissingReason
  | tooFewFields
  | tsvParseError
  /-- A sum that an `int` does not hold. -/
  | overflow
deriving DecidableEq

/-- The loop over the digits of a missing reason; `none` at a character that is no digit. -/
def sumDigits (sum : Nat) : List Char → Except Fault (Option Nat)
  | [] => .ok (some sum)
  | c :: cp =>
    if c.isDigit then
      require (sum * 10 + c.toNat < 2 ^ 31) .overflow
        (sumDigits (sum * 10 + c.toNat - '0'.toNat) cp)
    else .ok none

/-- `ChunkLoader::parseNullField`, with `none` for the value -1. -/
def parseNullField : List Char → Except Fault (Option (Fin 128))
  | ['\\', 'N'] => .ok (some 0)
  | ['?'] => .ok none
  | '?' :: cp => do
    match ← sumDigits 0 cp with
    | some sum => if h : sum < 128 then .ok (some ⟨sum, h⟩) else .error .badMissingReason
    | none => .ok none
  | ['n', 'u', 'l', 'l'] => .ok (some 0)
  | _ => .ok none

/-- What `TsvChunkLoader::loadChunk` makes of a field of a nullable string attribute. -/
def loadField (field : List Char) : Except Fault Value := do
  match ← parseNullField field with
  | some reason => .ok (.null reason)
  | none => .ok (.string field)

/-- `loadChunk` on one line, for the given number of attributes. -/
def loadLine : Nat → TsvParser → Except Fault (List Value)
  | 0, _ => .ok []
  | n + 1, p =>
    match p.getField with
    | (.OK, field, p) => do
      let v ← loadField field
      let row ← loadLine n p
      .ok (v :: row)
    | (.EOL, _, _) => .error .tooFewFields
    | (.ERR, _, _) => .error .tsvParseError

/-! ## The fields of a saved line -/

theorem tsvChar_of_notMem {c : Char} (h : c ∉ tsvEscaped) : tsvChar c = [c] := by
  unfold tsvChar
  split <;> simp_all [tsvEscaped]

variable {s : List Char}

theorem flatMap_tsvChar_of_notMem (h : ∀ c ∈ s, c ∉ tsvEscaped) : s.flatMap tsvChar = s := by
  rw [flatMap_congr fun c hc => tsvChar_of_notMem (h c hc)]
  simp

theorem scan_tab (rest : List Char) : scan '\t' ('\t' :: rest) =
    (.OK, [], ⟨rest, false, '\t'⟩) := by
  rw [scan.eq_def]
  simp

theorem scan_tsvChar {c : Char} (h : c ≠ '\x00') (rest : List Char) :
    scan '\t' (tsvChar c ++ rest) = emit [c] (scan '\t' rest) := by
  by_cases hc : c ∈ tsvEscaped
  · simp only [tsvEscaped, mem_cons, not_mem_nil, or_false] at hc
    rcases hc with rfl | rfl | rfl | rfl <;> rfl
  · rw [tsvChar_of_notMem hc, scan.eq_def]
    simp only [tsvEscaped, mem_cons, not_or] at hc
    simp [iseol, hc, h]

/-- An escaped string is read back character by character, whatever follows. -/
theorem scan_escaped (h : '\x00' ∉ s) (rest : List Char) :
    scan '\t' (s.flatMap tsvChar ++ rest) = emit s (scan '\t' rest) := by
  induction s with
  | nil => rfl
  | cons c s ih =>
    obtain ⟨hc, hs⟩ := not_or.mp fun hor => h (mem_cons.mpr hor)
    rw [flatMap_cons, append_assoc, scan_tsvChar (Ne.symm hc), ih hs]
    rfl

/-- Text without special characters is read as it stands. -/
theorem scan_plain (h : ∀ c ∈ s, c ∉ '\x00' :: tsvEscaped) (rest : List Char) :
    scan '\t' (s ++ rest) = emit s (scan '\t' rest) := by
  have hplain : ∀ c ∈ s, c ∉ tsvEscaped := fun c hc hmem => h c hc (mem_cons_of_mem _ hmem)
  have hscan := scan_escaped (fun hmem => h _ hmem mem_cons_self) rest
  rwa [flatMap_tsvChar_of_notMem hplain] at hscan

theorem isDigit_toDigits {n : Nat} : ∀ c ∈ Nat.toDigits 10 n, c.isDigit :=
  fun _ => Nat.isDigit_of_mem_toDigits (by decide) (by decide)

theorem scan_reason (n : Nat) (rest : List Char) :
    scan '\t' ('?' :: Nat.toDigits 10 n ++ rest) =
      emit ('?' :: Nat.toDigits 10 n) (scan '\t' rest) := by
  refine scan_plain (forall_mem_cons.mpr ⟨by simp [tsvEscaped], fun c hc hmem => ?_⟩) rest
  have hdigit := isDigit_toDigits c hc
  simp only [tsvEscaped, mem_cons, not_mem_nil, or_false] at hmem
  rcases hmem with rfl | rfl | rfl | rfl | rfl <;> cases hdigit

variable {f : Formatter}

theorem scan_nullRepr (rest : List Char) :
    scan '\t' (f.nullRepr ++ rest) = emit f.nullRepr (scan '\t' rest) := by
  have hmem := f.nullRepr_mem
  simp only [nullReprs, mem_cons, not_mem_nil, or_false] at hmem
  rcases hmem with h | h | h | h <;> rw [h]
  · rfl
  · exact scan_plain (by simp [tsvEscaped]) rest
  · rfl
  · exact scan_plain (by simp [tsvEscaped]) rest

/-- The field that is read for a value. -/
def fieldOf (f : Formatter) : Value → List Char
  | .null reason => f.format (.null reason)
  | .string s => s

/-- A formatted value is read back as one field, whatever follows. -/
theorem scan_format (htsv : f.tsv) {v : Value} (hv : ∀ s, v = .string s → '\x00' ∉ s)
    (rest : List Char) :
    scan '\t' (f.format v ++ rest) = emit (fieldOf f v) (scan '\t' rest) := by
  cases v with
  | null reason =>
    simp only [fieldOf, Formatter.format]
    split
    · exact scan_nullRepr rest
    · exact scan_reason reason rest
  | string s =>
    have hescaped : f.format (.string s) = s.flatMap tsvChar := by
      simp only [Formatter.format, htsv, if_true]
      split
      case isTrue hplain => exact (flatMap_tsvChar_of_notMem hplain).symm
      case isFalse => rfl
    rw [hescaped, scan_escaped (hv s rfl)]
    rfl

/-- The fields of a saved line are read one by one. -/
theorem loadLine_saveLine (htsv : f.tsv) (row : List Value)
    (hrow : ∀ s, .string s ∈ row → '\x00' ∉ s) :
    loadLine row.length ⟨saveLine f row, false, '\t'⟩ =
      row.mapM fun v => loadField (fieldOf f v) := by
  induction row with
  | nil => rfl
  | cons v row ih =>
    have hv : ∀ s, v = .string s → '\x00' ∉ s := fun s hs => hrow s (hs ▸ mem_cons_self)
    cases row with
    | nil =>
      have hget := scan_format htsv hv ['\n']
      simp [loadLine, saveLine, TsvParser.getField, hget, emit, scan, iseol]
      rfl
    | cons w row =>
      have hget := scan_format htsv hv ('\t' :: saveLine f (w :: row))
      have hline : saveLine f (v :: w :: row) = f.format v ++ '\t' :: saveLine f (w :: row) := by
        simp [saveLine]
      rw [scan_tab] at hget
      rw [length_cons, loadLine, TsvParser.getField, hline, mapM_cons,
        ← ih fun s hs => hrow s (mem_cons_of_mem _ hs)]
      simp [hget, emit]
      rfl

/-! ## Fields taken for missing values -/

theorem sumDigits_eq {sum : Nat} (hsum : sum + 48 < 2 ^ 31) (t : List Char) :
    sumDigits sum t =
      require (Nat.ofDigitChars 10 (t.takeWhile Char.isDigit) sum + 48 < 2 ^ 31) .overflow
        (.ok (if ∀ c ∈ t, c.isDigit then some (Nat.ofDigitChars 10 t sum) else none)) := by
  induction t generalizing sum with
  | nil =>
    rw [takeWhile_nil, Nat.ofDigitChars_nil, require_pos hsum]
    simp [sumDigits]
  | cons c t ih =>
    rw [sumDigits]
    by_cases hc : c.isDigit
    · have hzero : '0'.toNat = 48 := rfl
      have hcode : 48 ≤ c.toNat := (Char.isDigit_iff_toNat.mp hc).1
      have hnext : sum * 10 + c.toNat - '0'.toNat = 10 * sum + (c.toNat - '0'.toNat) := by omega
      rw [if_pos hc, takeWhile_cons_of_pos hc, Nat.ofDigitChars_cons, hnext]
      by_cases hfit : sum * 10 + c.toNat < 2 ^ 31
      · rw [require_pos hfit, ih (by omega)]
        simp [hc, Nat.ofDigitChars_cons]
      · -- the sum does not get smaller
        have hle : 10 * sum + (c.toNat - '0'.toNat) ≤ Nat.ofDigitChars 10 (t.takeWhile Char.isDigit)
            (10 * sum + (c.toNat - '0'.toNat)) := by
          rw [Nat.ofDigitChars_eq_ofDigitChars_zero]
          exact (Nat.le_mul_of_pos_left _ (by positivity)).trans (Nat.le_add_right _ _)
        rw [require_neg hfit, require_neg (by omega)]
    · rw [if_neg hc, takeWhile_cons_of_neg hc, Nat.ofDigitChars_nil, require_pos hsum, if_neg]
      exact fun h => hc (h c mem_cons_self)

theorem parseNullField_question {t : List Char} (ht : t ≠ []) :
    parseNullField ('?' :: t) =
      require (Nat.ofDigitChars 10 (t.takeWhile Char.isDigit) 0 + 48 < 2 ^ 31) .overflow
        (if ∀ c ∈ t, c.isDigit then
          if h : Nat.ofDigitChars 10 t 0 < 128 then .ok (some ⟨_, h⟩)
          else .error .badMissingReason
        else .ok none) := by
  rw [parseNullField.eq_3 t ht, sumDigits_eq (by decide)]
  unfold require
  split
  · split <;> rfl
  · rfl

theorem parseNullField_reason (reason : Fin 128) :
    parseNullField ('?' :: Nat.toDigits 10 reason) = .ok (some reason) := by
  have hvalue := Nat.ofDigitChars_ten_toDigits (n := reason)
  rw [parseNullField_question Nat.toDigits_ne_nil, takeWhile_eq_self_iff.mpr isDigit_toDigits,
    require_pos (by omega), if_pos isDigit_toDigits]
  simp

/-- A string that the loader does not take for a string: a text for a missing value, or a
question mark before a number that is too large for the parser. -/
def LooksMissing : List Char → Prop
  | ['\\', 'N'] | ['n', 'u', 'l', 'l'] => True
  | '?' :: t => t ≠ [] ∧ ((∀ c ∈ t, c.isDigit) ∨
      2 ^ 31 ≤ Nat.ofDigitChars 10 (t.takeWhile Char.isDigit) 0 + 48)
  | _ => False

theorem parseNullField_eq_none_iff (s : List Char) :
    parseNullField s = .ok none ↔ ¬ LooksMissing s := by
  fun_cases LooksMissing s with
  | case1 => simp [parseNullField]
  | case2 => simp [parseNullField]
  | case3 t =>
    by_cases ht : t = []
    · simp [ht, parseNullField]
    · rw [parseNullField_question ht, require_eq_ok]
      split
      case isTrue h => split <;> simp [ht, eq_true h]
      case isFalse h => simp only [ht, eq_false h, and_true, ne_eq, not_false_eq_true, false_or,
          true_and, Nat.not_le]
  | case4 s hN hnull hq =>
    unfold parseNullField
    split <;> simp_all

/-- A value that is written in a way the loader reads back. -/
def Survives (f : Formatter) : Value → Prop
  | .null reason => reason = 0 → f.nullRepr ≠ []
  | .string s => ¬ LooksMissing s

theorem loadField_eq_iff (v : Value) : loadField (fieldOf f v) = .ok v ↔ Survives f v := by
  cases v with
  | null reason =>
    simp only [Survives, fieldOf, Formatter.format]
    split
    case isTrue hzero =>
      have hmem := f.nullRepr_mem
      simp only [nullReprs, mem_cons, not_mem_nil, or_false] at hmem
      subst hzero
      rcases hmem with h | h | h | h <;> rw [h]
      · exact iff_of_false (by decide) (by simp)
      all_goals exact iff_of_true rfl (by simp)
    case isFalse hzero =>
      simp [loadField, parseNullField_reason, hzero]
      rfl
  | string s =>
    rw [Survives, ← parseNullField_eq_none_iff]
    unfold fieldOf loadField
    cases parseNullField s with
    | error e => simp [bind, Except.bind]
    | ok r => cases r <;> simp [bind, Except.bind]

theorem mapM_eq_ok_self_iff {ε α : Type} {f : α → Except ε α} {l : List α} :
    l.mapM f = .ok l ↔ ∀ a ∈ l, f a = .ok a := by
  induction l with
  | nil => simp; rfl
  | cons a l ih =>
    rw [mapM_cons, forall_mem_cons, ← ih]
    cases f a with
    | error e => simp [bind, Except.bind]
    | ok b => cases l.mapM f <;> simp [bind, Except.bind, pure, Except.pure]

/-- A row of strings and missing values that is saved as tab-separated text is read back as
it was exactly when each of its values is written in a way that the loader reads back: no
string looks like a missing value, and missing values are not written as empty fields. -/
theorem loadLine_saveLine_eq_iff (htsv : f.tsv) (row : List Value)
    (hrow : ∀ s, .string s ∈ row → '\x00' ∉ s) :
    loadLine row.length ⟨saveLine f row, false, '\t'⟩ = .ok row ↔ ∀ v ∈ row, Survives f v := by
  rw [loadLine_saveLine htsv row hrow, mapM_eq_ok_self_iff]
  exact forall₂_congr fun v _ => loadField_eq_iff v

/-- A string with a tab and missing values for two reasons are read back. -/
theorem loadLine_saveLine_sample :
    loadLine 3 ⟨saveLine (.ofFormat ['t', 's', 'v'])
      [.string ['a', '\t'], .null 0, .null 5], false, '\t'⟩ =
        .ok [.string ['a', '\t'], .null 0, .null 5] := by
  have hiff := loadLine_saveLine_eq_iff (f := .ofFormat ['t', 's', 'v']) (by decide)
    [.string ['a', '\t'], .null 0, .null 5] (by simp)
  exact hiff.mpr (by simp [Survives, LooksMissing, Formatter.ofFormat])

/-- The string `null` is read back as a missing value. -/
theorem loadLine_null_string :
    loadLine 1 ⟨saveLine (.ofFormat ['t', 's', 'v']) [.string ['n', 'u', 'l', 'l']], false, '\t'⟩ =
      .ok [.null 0] := by
  have hload := loadLine_saveLine (f := .ofFormat ['t', 's', 'v']) (by decide)
    [.string ['n', 'u', 'l', 'l']] (by simp)
  exact hload.trans rfl

end SciDB.Exchange.Tsv
