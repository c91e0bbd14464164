import Mathlib
import SciDB.Lib.Bytes
import SciDB.Lib.Checked

/-!
# Templates of the binary format

`TemplateParser::parse` (`src/array/TemplateParser.cpp`) turns a format such as
`(int64, skip(3) null, string(20) null)` into the columns of an exchange template.  The
scanner hands out one token at a time; the parser checks the columns against the attributes
of the array.

Main results:

- Theorem {lit}`parse_columns`: the columns of an accepted template that are not skipped are
  those of the attributes in their order, each of the size its type or the format gives.
- Theorem {lit}`parse_import`: a template is read alike for saving and for loading if its types
  are those of the attributes.
- Theorem {lit}`parse_ne_outOfFuel`: the loop over the columns ends.
-/

namespace SciDB.Exchange

open List

/-! ## Types and values -/

/-- A type name; names are sequences of characters. -/
abbrev TypeId := List Char

/-- `Type`: a width of 0 bits stands for a varying size. -/
structure TypeDesc where
  typeId : TypeId
  bitSize : Nat
  bitSize_lt : bitSize + 7 < 2 ^ 32
deriving DecidableEq

namespace TypeDesc

def byteSize (t : TypeDesc) : Nat := (t.bitSize + 7) / 8

def variableSize (t : TypeDesc) : Bool := t.bitSize == 0

/-- `Type()`. -/
def void : TypeDesc := ⟨['v', 'o', 'i', 'd'], 0, by decide⟩

end TypeDesc

/-- `Value`: missing for a reason, or a datum. -/
inductive Value where
  | null (reason : Fin 128)
  | datum (bytes : List UInt8)
deriving DecidableEq

/-- A converter between types, which may raise an error. -/
abbrev Converter := Value → Option Value

/-- `TypeLibrary` and the converters of `FunctionLibrary`. -/
structure TypeLibrary where
  getType : TypeId → Option TypeDesc
  findConverter : TypeId → TypeId → Option Converter
  getType_typeId : ∀ {id t}, getType id = some t → t.typeId = id

/-- `ExchangeTemplate::Column`. -/
structure Column where
  skip : Bool
  nullable : Bool
  internalType : TypeDesc
  externalType : TypeDesc
  fixedSize : Nat
  converter : Option Converter

/-- `ExchangeTemplate`. -/
structure ExchangeTemplate where
  columns : List Column
  opaqueFormat : Bool

inductive ParseError where
  | templateParseError (position : Nat)
  | attributesMismatch
  | templateFixedSizeType (typeId : TypeId)
  | typeNotRegistered (typeId : TypeId)
  | cantFindConverter (src dst : TypeId)
  | outOfFuel
deriving DecidableEq

/-! ## The scanner -/

inductive Token where
  | eof
  | ident (name : List Char)
  | lpar
  | rpar
  | comma
  | number (num : Int)
deriving DecidableEq

/-- `TemplateScanner`: the rest of the format and the position. -/
structure Scanner where
  rest : List Char
  pos : Nat
deriving DecidableEq

/-- `isspace`. -/
def isSpace (c : Char) : Bool := c == ' ' || (9 ≤ c.toNat && c.toNat ≤ 13)

/-- An `int` of 32 bits. -/
def toInt32 (n : Int) : Int := (n + 2 ^ 31) % 2 ^ 32 - 2 ^ 31

/-- The number that digits stand for, as an `int`. -/
def digitsValue (ds : List Char) : Int :=
  ds.foldl (fun num ch => toInt32 (num * 10 + (ch.toNat - '0'.toNat : Int))) 0

namespace Scanner

/-- Move over the characters from the front that satisfy a test. -/
def skipOver (p : Char → Bool) (s : Scanner) : Scanner :=
  ⟨s.rest.dropWhile p, s.pos + (s.rest.takeWhile p).length⟩

/-- `TemplateScanner::get`. -/
def get (s : Scanner) : Except ParseError (Token × Scanner) :=
  let s := s.skipOver isSpace
  match s.rest with
  | [] => .ok (.eof, s)
  | '(' :: cs => .ok (.lpar, ⟨cs, s.pos + 1⟩)
  | ')' :: cs => .ok (.rpar, ⟨cs, s.pos + 1⟩)
  | ',' :: cs => .ok (.comma, ⟨cs, s.pos + 1⟩)
  | c :: cs =>
    if c.isDigit then
      .ok (.number (digitsValue (c :: cs.takeWhile Char.isDigit)),
        skipOver Char.isDigit ⟨cs, s.pos + 1⟩)
    else if c.isAlpha then
      .ok (.ident (c :: cs.takeWhile fun d => d.isAlphanum || d == '_'),
        skipOver (fun d => d.isAlphanum || d == '_') ⟨cs, s.pos + 1⟩)
    else .error (.templateParseError s.pos)

end Scanner

/-- `compareStringsIgnoreCase` against a word in lower case. -/
def sameWord (ident word : List Char) : Bool := ident.map Char.toLower == word

/-! ## The parser -/

section Parser

variable (lib : TypeLibrary) (attrs : List TypeId) (isImport : Bool)

/-- A type by its name. -/
def lookupType (id : TypeId) : Except ParseError TypeDesc :=
  match lib.getType id with
  | some t => .ok t
  | none => .error (.typeNotRegistered id)

/-- The converter of a column; types are compared by their names. -/
def columnConverter (externalType internalType : TypeDesc) :
    Except ParseError (Option Converter) :=
  if internalType.typeId = externalType.typeId then .ok none
  else
    let src := if isImport then externalType.typeId else internalType.typeId
    let dst := if isImport then internalType.typeId else externalType.typeId
    match lib.findConverter src dst with
    | some c => .ok (some c)
    | none => .error (.cantFindConverter src dst)

/-- The column for an identifier, before its size is known, and the number of attributes
that have a column. -/
def columnType (ident : List Char) (nAttrs : Nat) : Except ParseError (Column × Nat) :=
  if sameWord ident ['s', 'k', 'i', 'p'] then
    .ok (⟨true, false, .void, .void, 0, none⟩, nAttrs)
  else
    match attrs[nAttrs]? with
    | none => .error .attributesMismatch
    | some attr => do
      let externalType ← lookupType lib ident
      let internalType ← lookupType lib attr
      let converter ← columnConverter lib isImport externalType internalType
      .ok (⟨false, false, internalType, externalType, 0, converter⟩, nAttrs + 1)

/-- The optional size in parentheses; the token is the one behind the identifier. -/
def columnSize (c : Column) (tkn : Token) (s : Scanner) :
    Except ParseError (Column × Token × Scanner) :=
  if tkn = .lpar then do
    let (tkn, s) ← s.get
    match tkn with
    | .number num =>
      if !c.skip && !c.externalType.variableSize then
        .error (.templateFixedSizeType c.externalType.typeId)
      else
        -- a negative `int` becomes a huge `size_t`
        let fixedSize := (num % 2 ^ 64).toNat
        if fixedSize = 0 ∨ fixedSize % 2 ^ 32 ≠ fixedSize then
          .error (.templateParseError s.pos)
        else do
          let (tkn, s) ← s.get
          if tkn = .rpar then do
            let (tkn, s) ← s.get
            .ok ({ c with fixedSize }, tkn, s)
          else .error (.templateParseError s.pos)
    | _ => .error (.templateParseError s.pos)
  else
    .ok ({ c with fixedSize := if c.skip then 0 else c.externalType.byteSize }, tkn, s)

/-- The optional `null` at the end of a column. -/
def columnNull (c : Column) (tkn : Token) (s : Scanner) :
    Except ParseError (Column × Token × Scanner) :=
  match tkn with
  | .ident name =>
    if sameWord name ['n', 'u', 'l', 'l'] then do
      let (tkn, s) ← s.get
      .ok ({ c with nullable := true }, tkn, s)
    else .error (.templateParseError s.pos)
  | tkn => .ok (c, tkn, s)

/-- The body of the loop: one column, the number of attributes so far, and the token behind
it. -/
def parseColumn (nAttrs : Nat) (s : Scanner) :
    Except ParseError (Column × Nat × Token × Scanner) := do
  let (tkn, s) ← s.get
  match tkn with
  | .ident name => do
    let (c, nAttrs) ← columnType lib attrs isImport name nAttrs
    let (tkn, s) ← s.get
    let (c, tkn, s) ← columnSize c tkn s
    let (c, tkn, s) ← columnNull c tkn s
    .ok (c, nAttrs, tkn, s)
  | _ => .error (.templateParseError s.pos)

/-- The loop over the columns; every column takes at least one character. -/
def parseColumns : Nat → Nat → Scanner → Except ParseError (List Column × Nat × Token × Scanner)
  | 0, _, _ => .error .outOfFuel
  | fuel + 1, nAttrs, s => do
    let (c, nAttrs, tkn, s) ← parseColumn lib attrs isImport nAttrs s
    if tkn = .comma then do
      let (cs, nAttrs, tkn, s) ← parseColumns fuel nAttrs s
      .ok (c :: cs, nAttrs, tkn, s)
    else .ok ([c], nAttrs, tkn, s)

/-- `TemplateParser::parse`. -/
def parse (format : List Char) : Except ParseError ExchangeTemplate := do
  let (tkn, s) ← Scanner.get ⟨format, 0⟩
  match tkn with
  | .ident name =>
    if sameWord name ['o', 'p', 'a', 'q', 'u', 'e'] then do
      let (tkn, s) ← s.get
      if tkn = .eof then .ok ⟨[], true⟩ else .error (.templateParseError s.pos)
    else .error (.templateParseError s.pos)
  | .lpar => do
    let (columns, nAttrs, tkn, s) ← parseColumns lib attrs isImport (format.length + 1) 0 s
    if tkn ≠ .rpar then .error (.templateParseError s.pos)
    else if nAttrs ≠ attrs.length then .error .attributesMismatch
    else do
      let (tkn, s) ← s.get
      if tkn = .eof then .ok ⟨columns, false⟩ else .error (.templateParseError s.pos)
  | _ => .error (.templateParseError s.pos)

end Parser

/-! ## The scanner moves on -/

namespace Scanner

theorem length_skipOver (p : Char → Bool) (s : Scanner) :
    (s.skipOver p).rest.length ≤ s.rest.length :=
  s.rest.length_dropWhile_le p

theorem length_lt_of_skipOver {p : Char → Bool} {s : Scanner} {c : Char} {cs : List Char}
    (h : (s.skipOver p).rest = c :: cs) : cs.length < s.rest.length := by
  have hle := s.length_skipOver p
  rw [h] at hle
  exact hle

/-- Only the end of the format does not take a character. -/
theorem length_get {s s' : Scanner} {tkn : Token} (h : s.get = .ok (tkn, s')) :
    s'.rest.length ≤ s.rest.length ∧ (tkn ≠ .eof → s'.rest.length < s.rest.length) := by
  unfold get at h
  dsimp only at h
  split at h
  · cases h
    exact ⟨s.length_skipOver isSpace, fun hne => absurd rfl hne⟩
  · rename_i cs hrest
    cases h
    exact ⟨(length_lt_of_skipOver hrest).le, fun _ => length_lt_of_skipOver hrest⟩
  · rename_i cs hrest
    cases h
    exact ⟨(length_lt_of_skipOver hrest).le, fun _ => length_lt_of_skipOver hrest⟩
  · rename_i cs hrest
    cases h
    exact ⟨(length_lt_of_skipOver hrest).le, fun _ => length_lt_of_skipOver hrest⟩
  · rename_i c cs _ _ _ hrest
    have hcs := length_lt_of_skipOver hrest
    split at h
    · cases h
      have hword := length_skipOver Char.isDigit ⟨cs, (s.skipOver isSpace).pos + 1⟩
      exact ⟨(hword.trans_lt hcs).le, fun _ => hword.trans_lt hcs⟩
    · split at h
      · cases h
        have hword := length_skipOver (fun d => d.isAlphanum || d == '_')
          ⟨cs, (s.skipOver isSpace).pos + 1⟩
        exact ⟨(hword.trans_lt hcs).le, fun _ => hword.trans_lt hcs⟩
      · cases h

theorem get_ne_outOfFuel (s : Scanner) : s.get ≠ .error .outOfFuel := by
  unfold get
  dsimp only
  intro h
  split at h
  all_goals try cases h
  split at h
  · cases h
  · split at h <;> cases h

end Scanner

theorem toInt32_range (n : Int) : -2 ^ 31 ≤ toInt32 n ∧ toInt32 n < 2 ^ 31 := by
  unfold toInt32
  omega

theorem digitsValue_range (ds : List Char) :
    -2 ^ 31 ≤ digitsValue ds ∧ digitsValue ds < 2 ^ 31 := by
  have hfold : ∀ (ds : List Char) (num : Int), -2 ^ 31 ≤ num ∧ num < 2 ^ 31 →
      -2 ^ 31 ≤ ds.foldl (fun num ch => toInt32 (num * 10 + (ch.toNat - '0'.toNat : Int))) num ∧
      ds.foldl (fun num ch => toInt32 (num * 10 + (ch.toNat - '0'.toNat : Int))) num < 2 ^ 31 := by
    intro ds
    induction ds with
    | nil => exact fun num h => h
    | cons d ds ih => exact fun num _ => ih _ (toInt32_range _)
  exact hfold ds 0 (by decide)

/-- The number a scanner returns is an `int`. -/
theorem Scanner.number_range {s s' : Scanner} {num : Int} (h : s.get = .ok (.number num, s')) :
    -2 ^ 31 ≤ num ∧ num < 2 ^ 31 := by
  unfold get at h
  dsimp only at h
  split at h
  all_goals try cases h
  split at h
  · cases h
    exact digitsValue_range _
  · split at h <;> cases h

/-! ## Accepted columns -/

/-- The size of a column: the one in the format, which only a varying size may have, or that
of its type. -/
structure Column.Sized (c : Column) : Prop where
  fixedSize_lt : c.fixedSize < 2 ^ 31
  ofType : c.skip = false → c.externalType.variableSize = false →
    c.fixedSize = c.externalType.byteSize

/-- The column of an attribute. -/
structure ColumnOf (lib : TypeLibrary) (attr : TypeId) (c : Column) : Prop where
  internal : lib.getType attr = some c.internalType
  external : lib.getType c.externalType.typeId = some c.externalType
  converter : c.internalType.typeId = c.externalType.typeId → c.converter = none

/-- Types of one name are one type. -/
theorem ColumnOf.externalType_eq {lib : TypeLibrary} {attr : TypeId} {c : Column}
    (h : ColumnOf lib attr c) (hname : c.internalType.typeId = c.externalType.typeId) :
    c.externalType = c.internalType := by
  have hattr := lib.getType_typeId h.internal
  have hext := h.external
  rw [← hname, hattr, h.internal] at hext
  exact (Option.some.inj hext).symm

section Columns

variable {lib : TypeLibrary} {attrs : List TypeId} {isImport : Bool}

theorem lookupType_eq_ok {id : TypeId} {t : TypeDesc} :
    lookupType lib id = .ok t ↔ lib.getType id = some t := by
  unfold lookupType
  cases lib.getType id <;> simp

theorem columnConverter_self {ext int : TypeDesc} (h : int.typeId = ext.typeId) :
    columnConverter lib isImport ext int = .ok none :=
  if_pos h

variable {c : Column} {n nAttrs fuel : Nat} {s s' : Scanner} {tkn tkn' : Token}
  {format ident : List Char} {templ : ExchangeTemplate} {c' : Column} {cs : List Column}

/-- What is known of a column before its size is. -/
theorem columnType_eq (h : columnType lib attrs isImport ident nAttrs = .ok (c, n)) :
    (c.skip = true ∧ n = nAttrs) ∨
      (c.skip = false ∧ n = nAttrs + 1 ∧ ∃ attr, attrs[nAttrs]? = some attr ∧
        ColumnOf lib attr c) := by
  unfold columnType at h
  split at h
  · cases h
    exact .inl ⟨rfl, rfl⟩
  · split at h
    · cases h
    · rename_i attr hattr
      obtain ⟨ext, hext, h⟩ := bind_eq_ok.mp h
      obtain ⟨int, hint, h⟩ := bind_eq_ok.mp h
      obtain ⟨conv, hconv, h⟩ := bind_eq_ok.mp h
      cases h
      rw [lookupType_eq_ok] at hext hint
      refine .inr ⟨rfl, rfl, attr, hattr, hint, ?_, fun hname => ?_⟩
      · rw [lib.getType_typeId hext, hext]
      · rw [columnConverter_self hname] at hconv
        exact (Except.ok.inj hconv).symm

/-- The size leaves the rest of a column as it is. -/
theorem columnSize_eq (h : columnSize c tkn s = .ok (c', tkn', s')) :
    (∃ fixedSize, c' = { c with fixedSize } ∧ c'.Sized) ∧ s'.rest.length ≤ s.rest.length := by
  unfold columnSize at h
  split at h
  · obtain ⟨⟨tkn₁, s₁⟩, hget₁, h⟩ := bind_eq_ok.mp h
    dsimp only at h
    split at h
    · have hnum := Scanner.number_range hget₁
      split at h
      · cases h
      · rename_i hvar
        split at h
        · cases h
        · obtain ⟨⟨tkn₂, s₂⟩, hget₂, h⟩ := bind_eq_ok.mp h
          split at h
          · obtain ⟨⟨tkn₃, s₃⟩, hget₃, h⟩ := bind_eq_ok.mp h
            cases h
            have h₁ := (Scanner.length_get hget₁).1
            have h₂ := (Scanner.length_get hget₂).1
            refine ⟨⟨_, rfl, ?_, fun hskip hfix => ?_⟩, ?_⟩
            · dsimp only
              omega
            · rw [hskip, hfix] at hvar
              exact absurd rfl hvar
            · exact (Scanner.length_get hget₃).1.trans (h₂.trans h₁)
          · cases h
    · cases h
  · cases h
    refine ⟨⟨_, rfl, ?_, fun hskip _ => by dsimp only; rw [hskip]; rfl⟩, le_rfl⟩
    have hlt := c.externalType.bitSize_lt
    dsimp only [TypeDesc.byteSize]
    split <;> omega

theorem columnNull_eq (h : columnNull c tkn s = .ok (c', tkn', s')) :
    (∃ nullable, c' = { c with nullable }) ∧ s'.rest.length ≤ s.rest.length := by
  unfold columnNull at h
  split at h
  · split at h
    · obtain ⟨⟨tkn₁, s₁⟩, hget, h⟩ := bind_eq_ok.mp h
      cases h
      exact ⟨⟨true, rfl⟩, (Scanner.length_get hget).1⟩
    · cases h
  · cases h
    exact ⟨⟨c.nullable, rfl⟩, le_rfl⟩

/-- The steps of an accepted column, whose size and `null` do not touch what its identifier
says. -/
theorem parseColumn_eq_ok :
    parseColumn lib attrs isImport nAttrs s = .ok (c, n, tkn, s') ↔
      ∃ name s₁ c₁ tkn₂ s₂ c₂ tkn₃ s₃, s.get = .ok (.ident name, s₁) ∧
        columnType lib attrs isImport name nAttrs = .ok (c₁, n) ∧ s₁.get = .ok (tkn₂, s₂) ∧
        columnSize c₁ tkn₂ s₂ = .ok (c₂, tkn₃, s₃) ∧
        columnNull c₂ tkn₃ s₃ = .ok (c, tkn, s') := by
  constructor
  · intro h
    obtain ⟨⟨tkn₁, s₁⟩, hget, h⟩ := bind_eq_ok.mp h
    dsimp only at h
    split at h
    · obtain ⟨⟨c₁, n₁⟩, htype, h⟩ := bind_eq_ok.mp h
      obtain ⟨⟨tkn₂, s₂⟩, hget₂, h⟩ := bind_eq_ok.mp h
      obtain ⟨⟨c₂, tkn₃, s₃⟩, hsize, h⟩ := bind_eq_ok.mp h
      obtain ⟨⟨c₃, tkn₄, s₄⟩, hnull, h⟩ := bind_eq_ok.mp h
      cases h
      exact ⟨_, s₁, c₁, tkn₂, s₂, c₂, tkn₃, s₃, hget, htype, hget₂, hsize, hnull⟩
    · cases h
  · rintro ⟨name, s₁, c₁, tkn₂, s₂, c₂, tkn₃, s₃, hget, htype, hget₂, hsize, hnull⟩
    refine bind_eq_ok.mpr ⟨_, hget, bind_eq_ok.mpr ⟨_, htype, bind_eq_ok.mpr ⟨_, hget₂, ?_⟩⟩⟩
    exact bind_eq_ok.mpr ⟨_, hsize, bind_eq_ok.mpr ⟨_, hnull, rfl⟩⟩

/-- A column of the loop. -/
theorem parseColumn_eq (h : parseColumn lib attrs isImport nAttrs s = .ok (c, n, tkn, s')) :
    c.Sized ∧ ((c.skip = true ∧ n = nAttrs) ∨
      (c.skip = false ∧ n = nAttrs + 1 ∧ ∃ attr, attrs[nAttrs]? = some attr ∧
        ColumnOf lib attr c)) := by
  obtain ⟨name, s₁, c₁, tkn₂, s₂, c₂, tkn₃, s₃, -, htype, -, hsize, hnull⟩ :=
    parseColumn_eq_ok.mp h
  obtain ⟨⟨fixedSize, rfl, hsized⟩, -⟩ := columnSize_eq hsize
  obtain ⟨⟨nullable, rfl⟩, -⟩ := columnNull_eq hnull
  refine ⟨⟨hsized.fixedSize_lt, hsized.ofType⟩, ?_⟩
  rcases columnType_eq htype with h | ⟨hskip, hn, attr, hattr, hof⟩
  · exact .inl h
  · exact .inr ⟨hskip, hn, attr, hattr, hof.internal, hof.external, hof.converter⟩

/-- The columns of the loop that are not skipped are those of the next attributes. -/
theorem parseColumns_eq (h : parseColumns lib attrs isImport fuel nAttrs s = .ok (cs, n, tkn, s')) :
    (∀ c ∈ cs, c.Sized) ∧ ∃ as, attrs.drop nAttrs = as ++ attrs.drop n ∧
      List.Forall₂ (ColumnOf lib) as (cs.filter (!·.skip)) := by
  induction fuel generalizing nAttrs cs s with
  | zero => cases h
  | succ fuel ih =>
    obtain ⟨⟨c, n₁, tkn₁, s₁⟩, hcol, h⟩ := bind_eq_ok.mp h
    dsimp only at h
    obtain ⟨hsized, hkind⟩ := parseColumn_eq hcol
    -- one more column in front of any others
    have hcons : ∀ {as : List TypeId} {cs : List Column} {n : Nat},
        attrs.drop n₁ = as ++ attrs.drop n →
        List.Forall₂ (ColumnOf lib) as (cs.filter (!·.skip)) →
        ∃ as, attrs.drop nAttrs = as ++ attrs.drop n ∧
          List.Forall₂ (ColumnOf lib) as ((c :: cs).filter (!·.skip)) := by
      intro as cs n has hall
      rcases hkind with ⟨hskip, rfl⟩ | ⟨hskip, rfl, attr, hattr, hof⟩
      · refine ⟨as, has, ?_⟩
        rwa [filter_cons_of_neg (by simp [hskip])]
      · refine ⟨attr :: as, ?_, ?_⟩
        · rw [cons_append, ← has]
          exact drop_eq_getElem?_toList_append.trans (by rw [hattr]; rfl)
        · rw [filter_cons_of_pos (by simp [hskip])]
          exact .cons hof hall
    split at h
    · obtain ⟨⟨cs₁, n₂, tkn₂, s₂⟩, hrest, h⟩ := bind_eq_ok.mp h
      cases h
      obtain ⟨hall, as, has, hforall⟩ := ih hrest
      exact ⟨forall_mem_cons.mpr ⟨hsized, hall⟩, hcons has hforall⟩
    · cases h
      refine ⟨forall_mem_cons.mpr ⟨hsized, forall_mem_nil _⟩, ?_⟩
      exact hcons (nil_append _).symm .nil

/-! ## Accepted templates -/

/-- The loop is left, and the template is complete, if it is accepted. -/
theorem parse_eq_ok (h : parse lib attrs isImport format = .ok templ)
    (hbinary : templ.opaqueFormat = false) :
    ∃ s s' s'', Scanner.get ⟨format, 0⟩ = .ok (.lpar, s) ∧
      parseColumns lib attrs isImport (format.length + 1) 0 s =
        .ok (templ.columns, attrs.length, .rpar, s') ∧ s'.get = .ok (.eof, s'') := by
  obtain ⟨⟨tkn, s⟩, hget, h⟩ := bind_eq_ok.mp h
  dsimp only at h
  split at h
  · split at h
    · obtain ⟨⟨tkn₁, s₁⟩, -, h⟩ := bind_eq_ok.mp h
      split at h
      · cases h
        cases hbinary
      · cases h
    · cases h
  · obtain ⟨⟨columns, n, tkn₁, s₁⟩, hloop, h⟩ := bind_eq_ok.mp h
    split at h
    · cases h
    · rename_i htkn
      split at h
      · cases h
      · rename_i hn
        obtain ⟨⟨tkn₂, s₂⟩, hend, h⟩ := bind_eq_ok.mp h
        split at h
        · rename_i heof
          cases h
          rw [not_not] at htkn hn
          subst htkn hn heof
          exact ⟨s, s₁, s₂, hget, hloop, hend⟩
        · cases h
  · cases h

/-- The columns of an accepted template. -/
theorem parse_columns (h : parse lib attrs isImport format = .ok templ)
    (hbinary : templ.opaqueFormat = false) :
    (∀ c ∈ templ.columns, c.Sized) ∧
      List.Forall₂ (ColumnOf lib) attrs (templ.columns.filter (!·.skip)) := by
  obtain ⟨s, s', s'', -, hloop, -⟩ := parse_eq_ok h hbinary
  obtain ⟨hsized, as, has, hall⟩ := parseColumns_eq hloop
  rw [drop_zero, drop_length, append_nil] at has
  exact ⟨hsized, has ▸ hall⟩

/-- The types of a template are those of the attributes. -/
def SameTypes (columns : List Column) : Prop :=
  ∀ c ∈ columns, c.skip = false → c.internalType.typeId = c.externalType.typeId

theorem columnType_import (h : columnType lib attrs false ident nAttrs = .ok (c, n))
    (hsame : c.skip = false → c.internalType.typeId = c.externalType.typeId) :
    columnType lib attrs true ident nAttrs = .ok (c, n) := by
  unfold columnType at h ⊢
  split at h
  · rename_i hskip
    rw [if_pos hskip]
    exact h
  · rename_i hskip
    rw [if_neg hskip]
    split at h
    · cases h
    · obtain ⟨ext, hext, h⟩ := bind_eq_ok.mp h
      obtain ⟨int, hint, h⟩ := bind_eq_ok.mp h
      obtain ⟨conv, hconv, h⟩ := bind_eq_ok.mp h
      cases h
      rw [columnConverter_self (hsame rfl)] at hconv
      refine bind_eq_ok.mpr ⟨ext, hext, bind_eq_ok.mpr ⟨int, hint, bind_eq_ok.mpr ⟨conv, ?_, rfl⟩⟩⟩
      rw [columnConverter_self (hsame rfl), hconv]

theorem parseColumn_import (h : parseColumn lib attrs false nAttrs s = .ok (c, n, tkn, s'))
    (hsame : c.skip = false → c.internalType.typeId = c.externalType.typeId) :
    parseColumn lib attrs true nAttrs s = .ok (c, n, tkn, s') := by
  obtain ⟨name, s₁, c₁, tkn₂, s₂, c₂, tkn₃, s₃, hget, htype, hget₂, hsize, hnull⟩ :=
    parseColumn_eq_ok.mp h
  obtain ⟨⟨fixedSize, rfl, -⟩, -⟩ := columnSize_eq hsize
  obtain ⟨⟨nullable, rfl⟩, -⟩ := columnNull_eq hnull
  exact parseColumn_eq_ok.mpr ⟨name, s₁, c₁, tkn₂, s₂, _, tkn₃, s₃, hget,
    columnType_import htype hsame, hget₂, hsize, hnull⟩

theorem parseColumns_import (h : parseColumns lib attrs false fuel nAttrs s = .ok (cs, n, tkn, s'))
    (hsame : SameTypes cs) :
    parseColumns lib attrs true fuel nAttrs s = .ok (cs, n, tkn, s') := by
  induction fuel generalizing nAttrs cs s with
  | zero => cases h
  | succ fuel ih =>
    obtain ⟨⟨c, n₁, tkn₁, s₁⟩, hcol, h⟩ := bind_eq_ok.mp h
    dsimp only at h
    split at h
    · rename_i hcomma
      obtain ⟨⟨cs₁, n₂, tkn₂, s₂⟩, hrest, h⟩ := bind_eq_ok.mp h
      cases h
      obtain ⟨hc, hcs⟩ := forall_mem_cons.mp hsame
      refine bind_eq_ok.mpr ⟨_, parseColumn_import hcol hc, ?_⟩
      dsimp only
      rw [if_pos hcomma]
      exact bind_eq_ok.mpr ⟨_, ih hrest hcs, rfl⟩
    · rename_i hcomma
      cases h
      refine bind_eq_ok.mpr ⟨_, parseColumn_import hcol (hsame c mem_cons_self), ?_⟩
      exact if_neg hcomma

/-- A template with the types of the attributes is read alike for saving and for loading. -/
theorem parse_import (h : parse lib attrs false format = .ok templ)
    (hbinary : templ.opaqueFormat = false) (hsame : SameTypes templ.columns) :
    parse lib attrs true format = .ok templ := by
  obtain ⟨s, s', s'', hget, hloop, hend⟩ := parse_eq_ok h hbinary
  obtain ⟨columns, opaqueFormat⟩ := templ
  cases hbinary
  refine bind_eq_ok.mpr ⟨_, hget, bind_eq_ok.mpr ⟨_, parseColumns_import hloop hsame, ?_⟩⟩
  dsimp only
  rw [if_neg (not_not.mpr rfl), if_neg (not_not.mpr rfl)]
  exact bind_eq_ok.mpr ⟨_, hend, if_pos rfl⟩

/-! ## The loop ends -/

theorem lookupType_ne_outOfFuel (id : TypeId) : lookupType lib id ≠ .error .outOfFuel := by
  unfold lookupType
  split <;> nofun

theorem columnConverter_ne_outOfFuel (ext int : TypeDesc) :
    columnConverter lib isImport ext int ≠ .error .outOfFuel := by
  unfold columnConverter
  dsimp only
  split
  · nofun
  · split <;> nofun

theorem columnType_ne_outOfFuel (ident : List Char) (nAttrs : Nat) :
    columnType lib attrs isImport ident nAttrs ≠ .error .outOfFuel := by
  unfold columnType
  split
  · nofun
  · split
    · nofun
    · exact bind_ne_error (lookupType_ne_outOfFuel _) fun ext =>
        bind_ne_error (lookupType_ne_outOfFuel _) fun int =>
          bind_ne_error (columnConverter_ne_outOfFuel ext int) nofun

theorem columnSize_ne_outOfFuel (c : Column) (tkn : Token) (s : Scanner) :
    columnSize c tkn s ≠ .error .outOfFuel := by
  unfold columnSize
  split
  · refine bind_ne_error s.get_ne_outOfFuel fun ⟨tkn₁, s₁⟩ => ?_
    dsimp only
    split
    · split
      · nofun
      · split
        · nofun
        · refine bind_ne_error s₁.get_ne_outOfFuel fun ⟨tkn₂, s₂⟩ => ?_
          split
          · exact bind_ne_error s₂.get_ne_outOfFuel nofun
          · nofun
    · nofun
  · nofun

theorem columnNull_ne_outOfFuel (c : Column) (tkn : Token) (s : Scanner) :
    columnNull c tkn s ≠ .error .outOfFuel := by
  unfold columnNull
  split
  · split
    · exact bind_ne_error s.get_ne_outOfFuel nofun
    · nofun
  · nofun

theorem parseColumn_ne_outOfFuel (nAttrs : Nat) (s : Scanner) :
    parseColumn lib attrs isImport nAttrs s ≠ .error .outOfFuel := by
  refine bind_ne_error s.get_ne_outOfFuel fun ⟨tkn, s₁⟩ => ?_
  dsimp only
  split
  · refine bind_ne_error (columnType_ne_outOfFuel _ _) fun ⟨c, n⟩ =>
      bind_ne_error s₁.get_ne_outOfFuel fun ⟨tkn₂, s₂⟩ => ?_
    exact bind_ne_error (columnSize_ne_outOfFuel _ _ _) fun ⟨c₂, tkn₃, s₃⟩ =>
      bind_ne_error (columnNull_ne_outOfFuel _ _ _) nofun
  · nofun

/-- A column takes at least its identifier. -/
theorem length_parseColumn (h : parseColumn lib attrs isImport nAttrs s = .ok (c, n, tkn, s')) :
    s'.rest.length < s.rest.length := by
  obtain ⟨name, s₁, c₁, tkn₂, s₂, c₂, tkn₃, s₃, hget, -, hget₂, hsize, hnull⟩ :=
    parseColumn_eq_ok.mp h
  have h₁ := (Scanner.length_get hget).2 (by simp)
  have h₂ := (columnSize_eq hsize).2.trans (Scanner.length_get hget₂).1
  exact ((columnNull_eq hnull).2.trans h₂).trans_lt h₁

theorem parseColumns_ne_outOfFuel (nAttrs : Nat) (hfuel : s.rest.length < fuel) :
    parseColumns lib attrs isImport fuel nAttrs s ≠ .error .outOfFuel := by
  induction fuel generalizing nAttrs s with
  | zero => omega
  | succ fuel ih =>
    intro h
    rcases bind_eq_error.mp h with h | ⟨⟨c, n, tkn, s₁⟩, hcol, h⟩
    · exact parseColumn_ne_outOfFuel _ _ h
    dsimp only at h
    split at h
    · have hlt := length_parseColumn hcol
      rcases bind_eq_error.mp h with h | ⟨⟨cs, n', tkn', s'⟩, -, h⟩
      · exact ih n (by omega) h
      · cases h
    · cases h

/-- The parser accepts or rejects every format. -/
theorem parse_ne_outOfFuel (format : List Char) :
    parse lib attrs isImport format ≠ .error .outOfFuel := by
  intro h
  rcases bind_eq_error.mp h with h | ⟨⟨tkn, s⟩, hget, h⟩
  · exact Scanner.get_ne_outOfFuel _ h
  have hlen := (Scanner.length_get hget).1
  dsimp only at h hlen
  split at h
  · split at h
    · rcases bind_eq_error.mp h with h | ⟨⟨tkn₁, s₁⟩, -, h⟩
      · exact s.get_ne_outOfFuel h
      split at h <;> cases h
    · cases h
  · rcases bind_eq_error.mp h with h | ⟨⟨columns, n, tkn₁, s₁⟩, -, h⟩
    · exact parseColumns_ne_outOfFuel 0 (by omega) h
    split at h
    · cases h
    split at h
    · cases h
    rcases bind_eq_error.mp h with h | ⟨⟨tkn₂, s₂⟩, -, h⟩
    · exact s₁.get_ne_outOfFuel h
    split at h <;> cases h
  · cases h

end Columns

end SciDB.Exchange
