import SciDB.Exchange.Binary

/-!
# When loading undoes saving

Each function of the writer stores the bytes of some fields, refuses the first field that its
column cannot hold, or runs past the end of the buffer of zeros; each function of the reader
takes just these bytes.  Both properties are closed under sequencing, so the loops over
columns, cells and chunks follow from a single field.

Main results:

- Theorem {lit}`saveColumns_saves`: what is written for a cell.
- Theorem {lit}`loadCell_reads`: the same bytes are read back as the cell.
- Theorem {lit}`binary_inverse_iff`: saving and loading are inverse, and saving fails for the
  stated reasons only, exactly if the buffer is never too short.
-/

namespace SciDB.Exchange

open Bytes List
open Attempt (bind_ok read_apply)

/-! ## Fields -/

/-- The longest value of a column. -/
def Column.limit (c : Column) : Nat := if c.fixedSize = 0 then maxSize else c.fixedSize

/-- A column can hold a value. -/
def Storable (c : Column) : Value → Prop
  | .null _ => c.nullable = true
  | .datum bytes => bytes.length ≤ c.limit

instance (c : Column) : (v : Value) → Decidable (Storable c v)
  | .null _ => inferInstanceAs (Decidable (c.nullable = true))
  | .datum bytes => inferInstanceAs (Decidable (bytes.length ≤ c.limit))

/-- The zeros that stand for a null or fill up a value. -/
def padding (c : Column) : Value → Nat
  | .null _ => c.nullSize
  | .datum bytes => if c.fixedSize = 0 then 0 else c.fixedSize - bytes.length

/-- No field needs more zeros than the buffer has, up to the first that its column cannot
hold. -/
def PadsFit (padSize : Nat) : List (Column × Value) → Prop
  | [] => True
  | (c, v) :: fs => Storable c v → padding c v ≤ padSize ∧ PadsFit padSize fs

instance decidablePadsFit (padSize : Nat) :
    (fs : List (Column × Value)) → Decidable (PadsFit padSize fs)
  | [] => isTrue trivial
  | (c, v) :: fs =>
    have := decidablePadsFit padSize fs
    inferInstanceAs (Decidable (Storable c v → padding c v ≤ padSize ∧ PadsFit padSize fs))

/-- The columns of a cell that are not skipped, with their values. -/
def fields (columns : List Column) (vs : List Value) : List (Column × Value) :=
  (columns.filter (!·.skip)).zip vs

/-- The reasons for which saving may fail: an I/O error, a null in a column that is not
nullable, or a value longer than its column. -/
inductive Refused (fs : List (Column × Value)) (room : Option Nat) : SaveError → Prop
  | io : room ≠ none → Refused fs room .fileWriteError
  | null {c : Column} {r : Fin 128} : (c, .null r) ∈ fs → c.nullable = false →
    Refused fs room .assigningNullToNonNullable
  | long {c : Column} {bytes : List UInt8} {limit : Nat} : (c, .datum bytes) ∈ fs →
    c.limit < bytes.length → Refused fs room (.truncation bytes.length limit)

def valueBytes (c : Column) : Value → List UInt8
  | .null _ => zeros c.nullSize
  | .datum bytes =>
    if c.fixedSize = 0 then le 4 bytes.length ++ bytes
    else bytes ++ zeros (c.fixedSize - bytes.length)

/-- The bytes of a field. -/
def fieldBytes (c : Column) (v : Value) : List UInt8 :=
  (if c.nullable then [v.missingReason] else []) ++ valueBytes c v

/-- The bytes of a cell. -/
def cellBytes : List Column → List Value → List UInt8
  | [], _ => []
  | c :: cs, vs =>
    if c.skip then zeros (skipBytes c) ++ cellBytes cs vs
    else
      match vs with
      | [] => []
      | v :: vs => fieldBytes c v ++ cellBytes cs vs

theorem padsFit_append {padSize : Nat} {fs gs : List (Column × Value)} :
    PadsFit padSize (fs ++ gs) ↔
      PadsFit padSize fs ∧ ((∀ p ∈ fs, Storable p.1 p.2) → PadsFit padSize gs) := by
  induction fs with
  | nil => simp [PadsFit]
  | cons p fs ih =>
    simp only [cons_append, PadsFit, ih, forall_mem_cons]
    constructor
    · intro h
      exact ⟨fun hs => ⟨(h hs).1, (h hs).2.1⟩, fun hs => (h hs.1).2.2 hs.2⟩
    · intro h hs
      exact ⟨(h.1 hs).1, (h.1 hs).2, fun hall => h.2 ⟨hs, hall⟩⟩

theorem Refused.mono {fs gs : List (Column × Value)} {room room' : Option Nat} {e : SaveError}
    (h : Refused fs room e) (hsub : fs ⊆ gs) (hroom : room ≠ none → room' ≠ none) :
    Refused gs room' e := by
  cases h with
  | io h => exact .io (hroom h)
  | null hmem h => exact .null (hsub hmem) h
  | long hmem h => exact .long (hsub hmem) h

/-! ## Writing -/

variable {bytes : List UInt8} {v : Value} {n : Nat} {x : Load Value}

theorem fwrite_none {f : OutFile} (h : f.room = none) :
    fwrite bytes f = .ok ⟨f.written ++ bytes, none⟩ := by
  simp [fwrite, h]

theorem fwrite_nil (f : OutFile) : fwrite [] f = .ok f := by
  obtain ⟨written, room⟩ := f
  cases room <;> simp [fwrite]

/-- Two writes are one. -/
theorem fwrite_append (a b : List UInt8) (f : OutFile) :
    (fwrite a f >>= fwrite b) = fwrite (a ++ b) f := by
  obtain ⟨written, room⟩ := f
  cases room with
  | none => simp [fwrite, bind, Except.bind]
  | some n =>
    by_cases ha : a.length ≤ n
    · by_cases hb : b.length ≤ n - a.length
      · have hab : a.length + b.length ≤ n := by omega
        simp [fwrite, bind, Except.bind, ha, hb, hab, Nat.sub_sub]
      · have hab : ¬ a.length + b.length ≤ n := by omega
        simp [fwrite, bind, Except.bind, ha, hb, hab]
    · have hab : ¬ a.length + b.length ≤ n := by omega
      simp [fwrite, bind, Except.bind, ha, hab]

theorem fwrite_cases (bytes : List UInt8) (f : OutFile) :
    (∃ f', fwrite bytes f = .ok f' ∧ f'.written = f.written ++ bytes ∧
      (f'.room = none ↔ f.room = none)) ∨
    (fwrite bytes f = .error .fileWriteError ∧ f.room ≠ none) := by
  obtain ⟨written, room⟩ := f
  cases room with
  | none => exact .inl ⟨_, rfl, rfl, by simp⟩
  | some n =>
    by_cases h : bytes.length ≤ n
    · exact .inl ⟨_, by simp only [fwrite, if_pos h]; rfl, rfl, by simp⟩
    · exact .inr ⟨by simp only [fwrite, if_neg h], by simp⟩

/-- What a part of the writer does with some fields. -/
structure Saves (padSize : Nat) (fs : List (Column × Value)) (bytes : List UInt8)
    (x : OutFile → Except SaveError OutFile) : Prop where
  stores : (∀ p ∈ fs, Storable p.1 p.2) → PadsFit padSize fs → ∀ f, x f = fwrite bytes f
  refuses : (∃ p ∈ fs, ¬ Storable p.1 p.2) → PadsFit padSize fs →
    ∀ f, ∃ e, x f = .error e ∧ Refused fs f.room e
  overruns : ¬ PadsFit padSize fs → ∀ f, f.room = none → x f = .error .padOverrun

namespace Saves

variable {padSize : Nat} {fs gs : List (Column × Value)} {bs cs : List UInt8}
  {x y : OutFile → Except SaveError OutFile}

theorem nil : Saves padSize [] [] Except.ok :=
  ⟨fun _ _ f => (fwrite_nil f).symm, fun ⟨_, hp, _⟩ => (nomatch hp), fun h => absurd trivial h⟩

/-- Zeros that the buffer has. -/
theorem pad (h : n ≤ padSize) : Saves padSize [] (zeros n) (writePad padSize n) :=
  ⟨fun _ _ _ => if_pos h, fun ⟨_, hp, _⟩ => (nomatch hp), fun h => absurd trivial h⟩

theorem append (hx : Saves padSize fs bs x) (hy : Saves padSize gs cs y) :
    Saves padSize (fs ++ gs) (bs ++ cs) fun f => x f >>= y where
  stores := by
    intro hall hfit f
    obtain ⟨hfs, hgs⟩ := forall_mem_append.mp hall
    obtain ⟨hfit₁, hfit₂⟩ := padsFit_append.mp hfit
    have hy' : y = fwrite cs := funext (hy.stores hgs (hfit₂ hfs))
    rw [hx.stores hfs hfit₁, hy', fwrite_append]
  refuses := by
    intro hbad hfit f
    obtain ⟨hfit₁, hfit₂⟩ := padsFit_append.mp hfit
    by_cases hfs : ∀ p ∈ fs, Storable p.1 p.2
    · obtain ⟨p, hp, hnot⟩ := hbad
      have hgs : ∃ p ∈ gs, ¬ Storable p.1 p.2 :=
        ⟨p, (mem_append.mp hp).resolve_left fun hp => hnot (hfs p hp), hnot⟩
      rw [hx.stores hfs hfit₁]
      rcases fwrite_cases bs f with ⟨f', hf', -, hroom⟩ | ⟨herr, hroom⟩
      · obtain ⟨e, he, href⟩ := hy.refuses hgs (hfit₂ hfs) f'
        refine ⟨e, ?_, href.mono (subset_append_right fs gs) (mt hroom.mpr)⟩
        rw [hf']
        exact he
      · exact ⟨_, by rw [herr]; rfl, .io hroom⟩
    · push Not at hfs
      obtain ⟨e, he, href⟩ := hx.refuses hfs hfit₁ f
      exact ⟨e, by rw [he]; rfl, href.mono (subset_append_left fs gs) id⟩
  overruns := by
    intro hfit f hroom
    by_cases hfit₁ : PadsFit padSize fs
    · have hrest : (∀ p ∈ fs, Storable p.1 p.2) ∧ ¬ PadsFit padSize gs := by
        rw [padsFit_append] at hfit
        push Not at hfit
        exact hfit hfit₁
      rw [hx.stores hrest.1 hfit₁, fwrite_none hroom]
      exact hy.overruns hrest.2 _ rfl
    · rw [hx.overruns hfit₁ f hroom]
      rfl

end Saves

/-- A column that the parser accepts and that needs no converter. -/
structure Column.Plain (c : Column) : Prop where
  sized : c.Sized
  converter : c.skip = false → c.converter = none

section Writer

variable {padSize : Nat} {c : Column} {columns : List Column}

theorem limit_le_maxSize (h : c.Sized) : c.limit ≤ maxSize := by
  have hlt := h.fixedSize_lt
  unfold Column.limit maxSize
  split <;> omega

section

variable (hconv : c.converter = none)

include hconv

theorem saveValue_datum (bytes : List UInt8) (f : OutFile) :
    saveValue padSize c (.datum bytes) f =
      if maxSize < bytes.length then .error (.truncation bytes.length maxSize)
      else if c.fixedSize = 0 then fwrite (le 4 bytes.length) f >>= fwrite bytes
      else if c.fixedSize < bytes.length then .error (.truncation bytes.length c.fixedSize)
      else fwrite bytes f >>= fun f =>
        if bytes.length < c.fixedSize then writePad padSize (c.fixedSize - bytes.length) f
        else .ok f := by
  unfold saveValue
  rw [hconv]
  rfl

/-- A datum that its column can hold. -/
theorem saveValue_storable (h : c.Sized) (hstore : bytes.length ≤ c.limit)
    (f : OutFile) :
    saveValue padSize c (.datum bytes) f =
      if c.fixedSize = 0 then fwrite (le 4 bytes.length ++ bytes) f
      else fwrite bytes f >>= fun f =>
        if bytes.length < c.fixedSize then writePad padSize (c.fixedSize - bytes.length) f
        else .ok f := by
  have hmax : ¬ maxSize < bytes.length := Nat.not_lt.mpr (hstore.trans (limit_le_maxSize h))
  rw [saveValue_datum hconv, if_neg hmax]
  split
  · exact fwrite_append _ _ f
  · rename_i hfixed
    rw [Column.limit, if_neg hfixed] at hstore
    rw [if_neg (Nat.not_lt.mpr hstore)]

/-- A datum that its column cannot hold. -/
theorem saveValue_long (hlong : c.limit < bytes.length) (f : OutFile) :
    ∃ limit, saveValue padSize c (.datum bytes) f = .error (.truncation bytes.length limit) := by
  rw [saveValue_datum hconv]
  split
  · exact ⟨_, rfl⟩
  · rename_i hmax
    by_cases hfixed : c.fixedSize = 0
    · rw [Column.limit, if_pos hfixed] at hlong
      exact absurd hlong hmax
    · rw [Column.limit, if_neg hfixed] at hlong
      exact ⟨c.fixedSize, by rw [if_neg hfixed, if_pos hlong]⟩

theorem saveValue_saves (h : c.Sized) (v : Value) :
    Saves padSize [(c, v)] (valueBytes c v) (saveValue padSize c v) where
  stores := by
    intro hall hfit f
    have hstore : Storable c v := hall _ mem_cons_self
    have hpad : padding c v ≤ padSize := (hfit hstore).1
    cases v with
    | null r =>
      have hnull : c.nullable = true := hstore
      simp only [saveValue, hnull]
      exact if_pos hpad
    | datum bytes =>
      rw [saveValue_storable hconv h hstore, valueBytes]
      split
      · rfl
      · rename_i hfixed
        rw [padding, if_neg hfixed] at hpad
        rw [← fwrite_append]
        congr 1
        funext f
        split
        · exact if_pos hpad
        · rw [Nat.sub_eq_zero_of_le (by omega)]
          exact (fwrite_nil f).symm
  refuses := by
    rintro ⟨p, hp, hnot⟩ - f
    obtain rfl := mem_singleton.mp hp
    cases v with
    | null r =>
      have hnull : c.nullable = false := by simpa [Storable] using hnot
      exact ⟨_, by simp only [saveValue, hnull]; rfl, .null mem_cons_self hnull⟩
    | datum bytes =>
      have hlong : c.limit < bytes.length := Nat.not_le.mp hnot
      obtain ⟨limit, heq⟩ := saveValue_long hconv hlong f
      exact ⟨_, heq, .long mem_cons_self hlong⟩
  overruns := by
    intro hfit f hroom
    have hbad : Storable c v ∧ ¬ padding c v ≤ padSize := by
      simpa [PadsFit] using hfit
    cases v with
    | null r =>
      have hnull : c.nullable = true := hbad.1
      simp only [saveValue, hnull]
      exact if_neg hbad.2
    | datum bytes =>
      obtain ⟨hstore, hpad⟩ := hbad
      rw [saveValue_storable hconv h hstore]
      rw [padding] at hpad
      split at hpad
      · omega
      · rename_i hfixed
        rw [if_neg hfixed, fwrite_none hroom]
        change (if bytes.length < c.fixedSize then _ else _) = _
        rw [if_pos (by omega)]
        exact if_neg hpad

theorem saveField_saves (h : c.Sized) (v : Value) :
    Saves padSize [(c, v)] (fieldBytes c v) (saveField padSize c v) := by
  have hvalue : Saves padSize [(c, v)] (valueBytes c v) (saveValue padSize c v) :=
    saveValue_saves hconv h v
  unfold fieldBytes
  by_cases hnull : c.nullable = true
  · have hreason : Saves padSize [] [v.missingReason] (fwrite [v.missingReason]) :=
      ⟨fun _ _ _ => rfl, fun ⟨_, hp, _⟩ => (nomatch hp), fun h => absurd trivial h⟩
    have heq : saveField padSize c v =
        fun f => fwrite [v.missingReason] f >>= saveValue padSize c v := by
      funext f
      rw [saveField, if_pos hnull]
    rw [if_pos hnull, heq]
    exact hreason.append hvalue
  · have heq : saveField padSize c v = saveValue padSize c v := by
      funext f
      rw [saveField, if_neg hnull]
      rfl
    rw [if_neg hnull, heq]
    exact hvalue

end

variable {vs : List Value}

theorem fields_skip (h : c.skip = true) : fields (c :: columns) vs = fields columns vs := by
  rw [fields, filter_cons_of_neg (by simp [h])]
  rfl

theorem fields_cons (h : c.skip = false) :
    fields (c :: columns) (v :: vs) = (c, v) :: fields columns vs := by
  rw [fields, filter_cons_of_pos (by simp [h])]
  rfl

theorem cellBytes_skip (h : c.skip = true) :
    cellBytes (c :: columns) vs = zeros (skipBytes c) ++ cellBytes columns vs := by
  cases vs <;> rw [cellBytes, if_pos h]

theorem saveColumns_skip (h : c.skip = true) :
    saveColumns padSize (c :: columns) vs =
      fun f => writePad padSize (skipBytes c) f >>= saveColumns padSize columns vs := by
  funext f
  cases vs <;> rw [saveColumns, if_pos h]

/-- A cell with a value for each column that is not skipped. -/
theorem saveColumns_saves (hplain : ∀ c ∈ columns, c.Plain)
    (hskip : ∀ c ∈ columns, c.skip = true → skipBytes c ≤ padSize)
    (hlen : (columns.filter (!·.skip)).length = vs.length) :
    Saves padSize (fields columns vs) (cellBytes columns vs) (saveColumns padSize columns vs) := by
  induction columns generalizing vs with
  | nil => exact .nil
  | cons c columns ih =>
    obtain ⟨hc, hcs⟩ := forall_mem_cons.mp hplain
    obtain ⟨hcskip, hcsskip⟩ := forall_mem_cons.mp hskip
    by_cases hs : c.skip = true
    · rw [filter_cons_of_neg (by simp [hs])] at hlen
      rw [fields_skip hs, cellBytes_skip hs, saveColumns_skip hs]
      exact (Saves.pad (hcskip hs)).append (ih hcs hcsskip hlen)
    · rw [Bool.not_eq_true] at hs
      rw [filter_cons_of_pos (by simp [hs])] at hlen
      cases vs with
      | nil => cases hlen
      | cons v vs =>
        have heq : saveColumns padSize (c :: columns) (v :: vs) =
            fun f => saveField padSize c v f >>= saveColumns padSize columns vs := by
          funext f
          rw [saveColumns, if_neg (by simp [hs])]
        have hfield : Saves padSize [(c, v)] (fieldBytes c v) (saveField padSize c v) :=
          saveField_saves (hc.converter hs) hc.sized v
        rw [fields_cons hs, cellBytes, if_neg (by simp [hs]), heq]
        exact hfield.append (ih hcs hcsskip (Nat.succ.inj hlen))

/-- The cells of all chunks one after another. -/
def saveRows (padSize : Nat) (columns : List Column) :
    List (List Value) → OutFile → Except SaveError OutFile
  | [], f => .ok f
  | vs :: rows, f => saveColumns padSize columns vs f >>= saveRows padSize columns rows

theorem saveRows_append (rows rows' : List (List Value)) (f : OutFile) :
    saveRows padSize columns (rows ++ rows') f =
      saveRows padSize columns rows f >>= saveRows padSize columns rows' := by
  induction rows generalizing f with
  | nil => rfl
  | cons vs rows ih =>
    rw [cons_append, saveRows, saveRows, bind_assoc]
    congr 1
    funext f
    exact ih f

theorem saveCells_eq (rows : List (List Value)) (n : Nat) (f : OutFile) :
    saveCells padSize columns rows n f =
      saveRows padSize columns rows f >>= fun f => .ok (n + rows.length, f) := by
  induction rows generalizing n f with
  | nil => rfl
  | cons vs rows ih =>
    rw [saveCells, saveRows, bind_assoc]
    congr 1
    funext f
    rw [ih, length_cons, Nat.add_right_comm, Nat.add_assoc]

theorem saveChunks_eq (chunks : List (List (List Value))) (n : Nat) (f : OutFile) :
    saveChunks padSize columns chunks n f = saveRows padSize columns chunks.flatten f >>= fun f =>
        .ok (n + chunks.flatten.length, f) := by
  induction chunks generalizing n f with
  | nil => rfl
  | cons rows chunks ih =>
    rw [saveChunks, saveCells_eq, flatten_cons, saveRows_append, bind_assoc, bind_assoc]
    congr 1
    funext f
    change saveChunks padSize columns chunks (n + rows.length) f = _
    rw [ih, length_append, Nat.add_assoc]

theorem saveRows_saves (hplain : ∀ c ∈ columns, c.Plain)
    (hskip : ∀ c ∈ columns, c.skip = true → skipBytes c ≤ padSize) {rows : List (List Value)}
    (hlen : ∀ vs ∈ rows, (columns.filter (!·.skip)).length = vs.length) :
    Saves padSize (rows.flatMap (fields columns)) (rows.flatMap (cellBytes columns))
      (saveRows padSize columns rows) := by
  induction rows with
  | nil => exact .nil
  | cons vs rows ih =>
    obtain ⟨hvs, hrows⟩ := forall_mem_cons.mp hlen
    exact (saveColumns_saves hplain hskip hvs).append (ih hrows)

/-- The buffer has enough zeros for the skipped columns. -/
theorem skipBytes_le_padBufferSize (hc : c ∈ columns) (hs : c.skip = true) :
    skipBytes c ≤ padBufferSize columns := by
  have hmono : ∀ (columns : List Column) (size : Nat), size ≤ columns.foldl (fun size c =>
        if c.skip then max size (skipBytes c) else size) size := by
    intro columns
    induction columns with
    | nil => exact fun _ => le_rfl
    | cons c columns ih =>
      intro size
      refine le_trans ?_ (ih _)
      dsimp only
      split
      · exact le_max_left _ _
      · exact le_rfl
  unfold padBufferSize
  generalize 9 = size
  induction columns generalizing size with
  | nil => cases hc
  | cons d columns ih =>
    rcases mem_cons.mp hc with rfl | hc
    · refine le_trans ?_ (hmono columns _)
      dsimp only
      rw [if_pos hs]
      exact le_max_right _ _
    · exact ih hc _

end Writer

/-! ## Reading -/

/-- Part of the reader takes some bytes from the front of the file, without an error. -/
def Reads {α : Type} (x : Load α) (bytes : List UInt8) (a : α) : Prop :=
  ∀ st rest, st.rest = bytes ++ rest → ∃ st', x st = (.ok a, st') ∧ st'.rest = rest ∧
    st'.fileOffset = st.fileOffset + bytes.length ∧ st'.nErrors = st.nErrors

namespace Reads

variable {α β : Type} {x : Load α} {f : α → Load β} {bs cs : List UInt8} {a : α} {b : β}

theorem pure (a : α) : Reads (pure a) [] a :=
  fun st _ h => ⟨st, rfl, h, rfl, rfl⟩

theorem bind (hx : Reads x bs a) (hf : Reads (f a) cs b) : Reads (x >>= f) (bs ++ cs) b := by
  intro st rest h
  obtain ⟨st₁, hrun₁, hrest₁, hoff₁, herr₁⟩ := hx st (cs ++ rest) (by rw [h, append_assoc])
  obtain ⟨st₂, hrun₂, hrest₂, hoff₂, herr₂⟩ := hf st₁ rest hrest₁
  refine ⟨st₂, by rw [bind_ok hrun₁, hrun₂], hrest₂, ?_, herr₂.trans herr₁⟩
  rw [hoff₂, hoff₁, length_append, Nat.add_assoc]

/-- A step that takes no bytes in front of the rest. -/
theorem bind_nil (hx : Reads x [] a) (hf : Reads (f a) cs b) : Reads (x >>= f) cs b :=
  hx.bind hf

theorem map (hx : Reads x bs a) (g : α → β) : Reads (x >>= fun a => Pure.pure (g a)) bs (g a) := by
  have h := hx.bind (f := fun a => Pure.pure (g a)) (Reads.pure (g a))
  rwa [append_nil] at h

theorem change {g : LoadState → LoadState} (hrest : ∀ st, (g st).rest = st.rest)
    (hoff : ∀ st, (g st).fileOffset = st.fileOffset) (herr : ∀ st, (g st).nErrors = st.nErrors) :
    Reads (Attempt.change g) [] () :=
  fun st _ h => ⟨g st, rfl, (hrest st).trans h, hoff st, herr st⟩

end Reads

section Reader

variable {c : Column} {columns : List Column}

variable {bytes : List UInt8} {size : Nat}

theorem readCounted_reads (h : bytes.length = n) : Reads (readCounted n) bytes bytes := by
  intro st rest hrest
  subst h
  cases bytes with
  | nil => exact ⟨_, rfl, hrest, rfl, rfl⟩
  | cons b bytes =>
    have hle : (b :: bytes).length ≤ st.rest.length := by rw [hrest, length_append]; omega
    have hread : fread (b :: bytes).length st =
        (.ok (b :: bytes), { st with rest := rest, rowReads := st.rowReads + 1 }) := by
      simp only [fread]
      rw [if_pos hle, hrest, take_left, drop_left]
    refine ⟨{ st with
      rest := rest
      rowReads := st.rowReads + 1
      fileOffset := st.fileOffset + (b :: bytes).length }, ?_, rfl, rfl, rfl⟩
    rw [readCounted, if_neg (by simp), bind_ok hread]
    rfl

/-- The buffer is always large enough once it has grown. -/
theorem dropBytes_eq (hlt : size < 2 ^ 31) (st : LoadState) :
    ∃ buf, dropBytes size st =
      (if size = 0 then pure () else readCounted size >>= fun _ => pure () : Load Unit)
        { st with buf } := by
  let st₁ := if st.buf < size then { st with buf := size * 2 % 2 ^ 32 } else st
  have hbuf : size ≤ st₁.buf := by
    dsimp only [st₁]
    split
    · dsimp only
      omega
    · omega
  have hst₁ : st₁ = { st with buf := st₁.buf } := by
    dsimp only [st₁]
    split <;> rfl
  refine ⟨st₁.buf, ?_⟩
  rw [← hst₁]
  change (if size = 0 then pure () else do
      let st ← Attempt.read
      if st.buf < size then Attempt.fail .bufOverrun
      else do
        let _ ← readCounted size
        pure () : Load Unit) st₁ = _
  by_cases hzero : size = 0
  · rw [if_pos hzero, if_pos hzero]
  · rw [if_neg hzero, if_neg hzero, bind_ok (read_apply st₁), if_neg (Nat.not_lt.mpr hbuf)]

theorem dropBytes_reads (h : bytes.length = size) (hlt : size < 2 ^ 31) :
    Reads (dropBytes size) bytes () := by
  intro st rest hrest
  obtain ⟨buf, hrun⟩ := dropBytes_eq hlt st
  rw [hrun]
  by_cases hzero : size = 0
  · obtain rfl := length_eq_zero_iff.mp (h.trans hzero)
    rw [if_pos hzero]
    exact ⟨_, rfl, hrest, rfl, rfl⟩
  · rw [if_neg hzero]
    exact (readCounted_reads h).map (fun _ => ()) { st with buf } rest hrest

theorem length_zeros (n : Nat) : (zeros n).length = n := length_replicate

/-- The size of a column that has one. -/
theorem readSize_fixed (h : c.Sized) (hfixed : c.fixedSize ≠ 0) :
    Reads (readSize c) [] c.fixedSize := by
  have hlt := h.fixedSize_lt
  have hmod : c.fixedSize % 2 ^ 32 = c.fixedSize := Nat.mod_eq_of_lt (by omega)
  rw [readSize, hmod, if_neg hfixed]
  exact Reads.pure _

/-- The size of a column that is in the file. -/
theorem readSize_varying (hfixed : c.fixedSize = 0) (h : bytes.length = 4) :
    Reads (readSize c) bytes (ofLe bytes) := by
  rw [readSize, hfixed]
  exact (readCounted_reads h).map ofLe

/-- Zeros in the place of a value, after the missing reason. -/
theorem dropZeros_reads (h : c.Sized) : Reads (readSize c >>= dropBytes) (zeros c.nullSize) () := by
  by_cases hfixed : c.fixedSize = 0
  · rw [Column.nullSize, if_neg (not_not.mpr hfixed)]
    have hsize := readSize_varying hfixed (length_zeros 4)
    have hdrop : Reads (dropBytes 0) [] () := dropBytes_reads rfl (by decide)
    simpa using hsize.bind hdrop
  · rw [Column.nullSize, if_pos hfixed]
    exact (readSize_fixed h hfixed).bind_nil (dropBytes_reads (length_zeros _) h.fixedSize_lt)

theorem readReason_reads (h : bytes.length = c.nullable.toNat) :
    Reads (readReason c) bytes (bytes.head?.bind reasonOf) := by
  unfold readReason
  cases hnull : c.nullable with
  | true =>
    rw [hnull] at h
    exact (readCounted_reads h).map fun bytes => bytes.head?.bind reasonOf
  | false =>
    rw [hnull] at h
    rw [length_eq_zero_iff.mp h]
    exact Reads.pure none

theorem skipColumn_reads (h : c.Sized) : Reads (skipColumn c) (zeros (skipBytes c)) () := by
  have hzeros : zeros (skipBytes c) = zeros c.nullable.toNat ++ zeros c.nullSize := by
    rw [skipBytes, Nat.add_comm]
    exact replicate_add _ _ _
  rw [hzeros]
  exact (readReason_reads (length_zeros _)).bind (dropZeros_reads h)

/-- The value that is loaded from a column: a varying size that was saved with a fixed one
keeps its padding. -/
def reloaded (c : Column) : Value → Value
  | .null r => .null r
  | .datum bytes =>
    if c.internalType.variableSize && c.fixedSize != 0 then
      .datum (bytes ++ zeros (c.fixedSize - bytes.length))
    else .datum bytes

/-- The reason of a null. -/
def Value.reason : Value → Option (Fin 128)
  | .null r => some r
  | .datum _ => none

theorem reasonOf_missingReason (v : Value) : reasonOf v.missingReason = v.reason := by
  cases v with
  | datum bytes => rfl
  | null r =>
    have hr : (UInt8.ofNat r.val).toNat = r.val := by
      exact Nat.mod_eq_of_lt (by omega)
    have hlt : (UInt8.ofNat r.val).toNat < 128 := by omega
    rw [Value.missingReason, reasonOf, dif_pos hlt]
    exact congrArg some (Fin.ext hr)

/-- The bytes that are read for a datum. -/
theorem readDatum_reads (h : c.Sized) (hstore : bytes.length ≤ c.limit) :
    Reads (readSize c >>= readCounted) (valueBytes c (.datum bytes))
      (if c.fixedSize = 0 then bytes else bytes ++ zeros (c.fixedSize - bytes.length)) := by
  rw [valueBytes]
  by_cases hfixed : c.fixedSize = 0
  · rw [Column.limit, if_pos hfixed] at hstore
    have hsize := readSize_varying hfixed (length_le 4 bytes.length)
    rw [ofLe_le_of_lt (by unfold maxSize at hstore; omega)] at hsize
    rw [if_pos hfixed, if_pos hfixed]
    exact hsize.bind (readCounted_reads rfl)
  · rw [Column.limit, if_neg hfixed] at hstore
    rw [if_neg hfixed, if_neg hfixed]
    refine (readSize_fixed h hfixed).bind_nil (readCounted_reads ?_)
    rw [length_append, length_zeros]
    omega

/-- A value conforms to its type: a fixed size is kept. -/
def ValueOf (t : TypeDesc) : Value → Prop
  | .null _ => True
  | .datum bytes => t.variableSize = false → bytes.length = t.byteSize

theorem reloaded_datum (h : c.Sized) (hskip : c.skip = false)
    (htype : c.externalType = c.internalType) (hv : ValueOf c.internalType (.datum bytes)) :
    reloaded c (.datum bytes) =
      .datum (if c.fixedSize = 0 then bytes else bytes ++ zeros (c.fixedSize - bytes.length)) := by
  cases hvar : c.internalType.variableSize with
  | true => by_cases hfixed : c.fixedSize = 0 <;> simp [reloaded, hvar, hfixed]
  | false =>
    have hsize : c.fixedSize = bytes.length := by
      rw [h.ofType hskip (htype ▸ hvar), htype, hv hvar]
    simp [reloaded, hsize, zeros]

theorem loadField_reads (h : c.Sized) (hskip : c.skip = false) (hconv : c.converter = none)
    (htype : c.externalType = c.internalType) (hstore : Storable c v)
    (hv : ValueOf c.internalType v) : Reads (loadField c) (fieldBytes c v) (reloaded c v) := by
  have hreason : Reads (readReason c) (if c.nullable then [v.missingReason] else []) v.reason := by
    by_cases hnull : c.nullable = true
    · rw [if_pos hnull, ← reasonOf_missingReason]
      exact readReason_reads (by rw [hnull]; rfl)
    · rw [if_neg hnull]
      cases v with
      | null r => exact absurd hstore hnull
      | datum bytes => exact readReason_reads (by simp [hnull])
  refine hreason.bind ?_
  cases v with
  | null r =>
    have hread := (dropZeros_reads h).map fun _ => Value.null r
    rw [Attempt.bind_assoc] at hread
    exact hread
  | datum bytes =>
    have hread := (readDatum_reads h hstore).map Value.datum
    rw [Attempt.bind_assoc] at hread
    rw [reloaded_datum h hskip htype hv, hconv]
    exact hread

/-- The bytes of the skipped columns in front. -/
def leadBytes : List Column → List UInt8
  | [] => []
  | c :: cs => if c.skip then zeros (skipBytes c) ++ leadBytes cs else []

theorem cellBytes_lead (columns : List Column) (vs : List Value) :
    cellBytes columns vs = leadBytes columns ++ cellBytes (columns.dropWhile (·.skip)) vs := by
  induction columns with
  | nil => rfl
  | cons c columns ih =>
    by_cases hs : c.skip = true
    · rw [cellBytes_skip hs, ih, leadBytes, if_pos hs, dropWhile_cons_of_pos hs, append_assoc]
    · rw [leadBytes, if_neg hs, dropWhile_cons_of_neg hs, nil_append]

theorem skipColumns_reads (h : ∀ c ∈ columns, c.Sized) :
    Reads (skipColumns columns) (leadBytes columns) (columns.dropWhile (·.skip)) := by
  induction columns with
  | nil => exact Reads.pure []
  | cons c columns ih =>
    obtain ⟨hc, hcs⟩ := forall_mem_cons.mp h
    rw [skipColumns, leadBytes]
    by_cases hs : c.skip = true
    · rw [if_pos hs, if_pos hs, dropWhile_cons_of_pos hs]
      exact (skipColumn_reads hc).bind (ih hcs)
    · rw [if_neg hs, if_neg hs, dropWhile_cons_of_neg hs]
      exact Reads.pure _

theorem filter_dropWhile_skip (columns : List Column) :
    (columns.dropWhile (·.skip)).filter (!·.skip) = columns.filter (!·.skip) := by
  induction columns with
  | nil => rfl
  | cons c columns ih =>
    by_cases hs : c.skip = true
    · rw [dropWhile_cons_of_pos hs, ih, filter_cons_of_neg (by simp [hs])]
    · rw [dropWhile_cons_of_neg hs]

theorem skip_of_dropWhile {cs : List Column} (h : columns.dropWhile (·.skip) = c :: cs) :
    c.skip = false := by
  have hne : columns.dropWhile (·.skip) ≠ [] := by rw [h]; simp
  have hnot := head_dropWhile_not (fun c : Column => c.skip) hne
  simpa [h] using hnot

theorem Reads.tryRead (hx : Reads x bytes v)
    (handler : LoadError → Load Value) : Reads (Exchange.tryRead x handler) bytes v := by
  intro st rest h
  obtain ⟨st', hrun, hst'⟩ := hx st rest h
  exact ⟨st', by rw [Exchange.tryRead, hrun], hst'⟩

/-- A cell as it is loaded, with the empty tag. -/
def reloadedCell (columns : List Column) (vs : List Value) : List Value :=
  List.zipWith reloaded (columns.filter (!·.skip)) vs ++ [emptyTagVal]

/-- A column that is read as it was written. -/
structure Column.Same (c : Column) : Prop extends c.Plain where
  type : c.skip = false → c.externalType = c.internalType

variable (maxErrors : Nat) {vs : List Value}

theorem loadAttributes_reads (as : List Attribute) (emptyTag : Attribute)
    (hsame : ∀ c ∈ columns, c.Same)
    (hvs : List.Forall₂ (fun c v => Storable c v ∧ ValueOf c.internalType v)
      (columns.filter (!·.skip)) vs) (hlen : as.length = vs.length) :
    Reads (loadAttributes maxErrors (as ++ [emptyTag]) columns) (cellBytes columns vs)
      (reloadedCell columns vs) := by
  induction as generalizing columns vs with
  | nil =>
    obtain rfl := length_eq_zero_iff.mp hlen.symm
    -- only skipped columns are left, and the empty tag is written behind them
    have hnil : columns.filter (!·.skip) = [] := forall₂_nil_right_iff.mp hvs
    have hdrop : columns.dropWhile (·.skip) = [] := by
      cases hcols : columns.dropWhile (·.skip) with
      | nil => rfl
      | cons c cs =>
        have hfilter := filter_dropWhile_skip columns
        rw [hcols, hnil, filter_cons_of_pos (by simp [skip_of_dropWhile hcols])] at hfilter
        cases hfilter
    have hlead := skipColumns_reads fun c hc => (hsame c hc).sized
    rw [cellBytes_lead, hdrop, reloadedCell, hnil]
    rw [hdrop] at hlead
    exact hlead.bind (((Reads.pure emptyTagVal).tryRead _).map fun v => [v])
  | cons a as ih =>
    cases vs with
    | nil => cases hlen
    | cons v vs =>
      cases hcols : columns.dropWhile (·.skip) with
      | nil =>
        rw [← filter_dropWhile_skip, hcols] at hvs
        cases hvs
      | cons c cs =>
        have hskip := skip_of_dropWhile hcols
        have hfilter := filter_dropWhile_skip columns
        rw [hcols, filter_cons_of_pos (by simp [hskip])] at hfilter
        rw [← hfilter] at hvs
        obtain ⟨⟨hstore, hv⟩, hvs⟩ := forall₂_cons.mp hvs
        have hmem : ∀ d ∈ c :: cs, d.Same := fun d hd =>
          hsame d ((dropWhile_suffix _).subset (hcols ▸ hd))
        obtain ⟨hc, hcs⟩ := forall_mem_cons.mp hmem
        have hlead := skipColumns_reads fun c hc => (hsame c hc).sized
        rw [hcols] at hlead
        have hfield := (loadField_reads hc.sized hskip (hc.converter hskip) (hc.type hskip)
          hstore hv).tryRead (handleError maxErrors a)
        have hrest := ih hcs hvs (Nat.succ.inj hlen)
        rw [cellBytes_lead, hcols, cellBytes, if_neg (by simp [hskip]), reloadedCell, ← hfilter]
        exact hlead.bind (hfield.bind (hrest.map fun vs => reloaded c v :: vs))

theorem loadCell_reads (as : List Attribute) (emptyTag : Attribute) (hsame : ∀ c ∈ columns, c.Same)
    (hvs : List.Forall₂ (fun c v => Storable c v ∧ ValueOf c.internalType v)
      (columns.filter (!·.skip)) vs) (hlen : as.length = vs.length) :
    Reads (loadCell maxErrors (as ++ [emptyTag]) columns) (cellBytes columns vs)
      (reloadedCell columns vs) := by
  have hstart : Reads (Attempt.change fun st => { st with rowReads := 0 }) [] () :=
    Reads.change (fun _ => rfl) (fun _ => rfl) fun _ => rfl
  exact hstart.bind_nil (loadAttributes_reads maxErrors as emptyTag hsame hvs hlen)

/-! ## The end of the file -/

/-- Part of the reader finds the end of the file with the first read of a cell. -/
def Ends {α : Type} (x : Load α) : Prop :=
  ∀ st, st.rest = [] → st.rowReads = 0 → ∃ st', x st = (.error .initialEOF, st') ∧
    st'.rest = [] ∧ st'.fileOffset = st.fileOffset ∧ st'.nErrors = st.nErrors

theorem Ends.bind {α β : Type} {x : Load α} (hx : Ends x) (f : α → Load β) : Ends (x >>= f) := by
  intro st hrest hreads
  obtain ⟨st', hrun, hst'⟩ := hx st hrest hreads
  exact ⟨st', by rw [Attempt.bind_error hrun], hst'⟩

theorem Ends.tryRead (hx : Ends x) (handler : LoadError → Load Value) :
    Ends (Exchange.tryRead x handler) := by
  intro st hrest hreads
  obtain ⟨st', hrun, hst'⟩ := hx st hrest hreads
  exact ⟨st', by rw [Exchange.tryRead, hrun], hst'⟩

theorem readCounted_ends (hn : n ≠ 0) : Ends (readCounted n) := by
  have hread : Ends (fread n) := by
    intro st hrest hreads
    have hle : ¬ n ≤ st.rest.length := by
      rw [hrest, length_nil]
      omega
    refine ⟨{ st with rowReads := st.rowReads + 1 }, ?_, hrest, rfl, rfl⟩
    simp only [fread]
    rw [if_neg hle, if_pos ⟨by omega, hrest⟩]
  rw [readCounted, if_neg hn]
  exact hread.bind _

theorem dropBytes_ends (hsize : size ≠ 0) (hlt : size < 2 ^ 31) : Ends (dropBytes size) := by
  intro st hrest hreads
  obtain ⟨buf, hrun⟩ := dropBytes_eq hlt st
  rw [hrun, if_neg hsize]
  exact (readCounted_ends hsize).bind _ { st with buf } hrest hreads

/-- Every column takes a byte before anything else is done. -/
theorem readColumn_ends {α : Type} (h : c.Sized) {f : Option (Fin 128) → Nat → Load α}
    (hf : c.nullable = false → c.fixedSize ≠ 0 → Ends (f none c.fixedSize)) :
    Ends (readReason c >>= fun r => readSize c >>= f r) := by
  unfold readReason
  by_cases hnull : c.nullable = true
  · rw [if_pos hnull]
    exact ((readCounted_ends one_ne_zero).bind _).bind _
  · rw [if_neg hnull]
    by_cases hfixed : c.fixedSize = 0
    · rw [readSize, hfixed]
      exact ((readCounted_ends four_ne_zero).bind _).bind _
    · have hlt := h.fixedSize_lt
      have hmod : c.fixedSize % 2 ^ 32 = c.fixedSize := Nat.mod_eq_of_lt (by omega)
      rw [readSize, hmod, if_neg hfixed]
      exact hf (by simpa using hnull) hfixed

theorem loadCell_ends (as : List Attribute) (has : as ≠ []) (hcols : columns ≠ [])
    (hsized : ∀ c ∈ columns, c.Sized) (st : LoadState) (hrest : st.rest = []) :
    ∃ st', loadCell maxErrors as columns st = (.error .initialEOF, st') ∧
      st'.rest = [] ∧ st'.fileOffset = st.fileOffset ∧ st'.nErrors = st.nErrors := by
  have hends : Ends (loadAttributes maxErrors as columns) := by
    cases as with
    | nil => exact absurd rfl has
    | cons a as =>
      cases columns with
      | nil => exact absurd rfl hcols
      | cons c cs =>
        have hc := hsized c mem_cons_self
        rw [loadAttributes, skipColumns]
        by_cases hskip : c.skip = true
        · rw [if_pos hskip]
          exact ((readColumn_ends hc fun _ h => dropBytes_ends h hc.fixedSize_lt).bind _).bind _
        · rw [if_neg hskip]
          exact ((readColumn_ends hc fun _ h => (readCounted_ends h).bind _).tryRead _).bind _
  exact hends { st with rowReads := 0 } hrest rfl

/-! ## Chunks -/

/-- What is needed to read cells: they have values for the columns, and there is a column. -/
structure Readable (columns : List Column) (as : List Attribute) (rows : List (List Value)) :
    Prop where
  same : ∀ c ∈ columns, c.Same
  columns_ne_nil : columns ≠ []
  values : ∀ vs ∈ rows, List.Forall₂ (fun c v => Storable c v ∧ ValueOf c.internalType v)
    (columns.filter (!·.skip)) vs
  length : ∀ vs ∈ rows, as.length = vs.length

/-- A state from which cells are left to be read. -/
structure Left (columns : List Column) (rows : List (List Value)) (total nErrors : Nat)
    (st : LoadState) : Prop where
  rest : st.rest = rows.flatMap (cellBytes columns)
  offset : st.fileOffset + st.rest.length = total
  errors : st.nErrors = nErrors

section Chunks

variable {as : List Attribute} {rows : List (List Value)} {total nErrors : Nat} {st : LoadState}

theorem Readable.drop (h : Readable columns as rows) (n : Nat) :
    Readable columns as (rows.drop n) :=
  ⟨h.same, h.columns_ne_nil, fun ws hws => h.values ws (mem_of_mem_drop hws),
    fun ws hws => h.length ws (mem_of_mem_drop hws)⟩

/-- The cells of a chunk: as many as it has room for, or all that are left. -/
theorem loadCells_eq (emptyTag : Attribute) (hread : Readable columns as rows)
    (hleft : Left columns rows total nErrors st) (n : Nat) :
    ∃ st', loadCells maxErrors (as ++ [emptyTag]) columns n st =
        (.ok ((rows.take n).map (reloadedCell columns)), st') ∧
      Left columns (rows.drop n) total nErrors st' := by
  induction n generalizing rows st with
  | zero => exact ⟨st, rfl, hleft⟩
  | succ n ih =>
    cases rows with
    | nil =>
      obtain ⟨st', hrun, hrest, hoff, herr⟩ := loadCell_ends maxErrors (as ++ [emptyTag])
        (by simp) hread.columns_ne_nil (fun c hc => (hread.same c hc).sized) st hleft.rest
      refine ⟨st', by rw [loadCells, untilEOF, hrun]; rfl, hrest, ?_, herr.trans hleft.errors⟩
      rw [hoff, hrest, ← hleft.offset, hleft.rest]
      rfl
    | cons vs rows =>
      obtain ⟨st₁, hrun, hrest, hoff, herr⟩ := loadCell_reads maxErrors as emptyTag hread.same
        (hread.values vs mem_cons_self) (hread.length vs mem_cons_self) st
        (rows.flatMap (cellBytes columns)) hleft.rest
      have hleft₁ : Left columns rows total nErrors st₁ := by
        refine ⟨hrest, ?_, herr.trans hleft.errors⟩
        rw [hoff, hrest, ← hleft.offset, hleft.rest, flatMap_cons, length_append, Nat.add_assoc]
      obtain ⟨st₂, hrun₂, hleft₂⟩ := ih (hread.drop 1) hleft₁
      refine ⟨st₂, ?_, hleft₂⟩
      rw [loadCells, untilEOF, hrun]
      dsimp only
      rw [bind_ok hrun₂]
      rfl

theorem cellBytes_ne_nil (hread : Readable columns as (vs :: rows)) :
    cellBytes columns vs ≠ [] := by
  -- else a cell would be read where the file has ended
  intro hnil
  let st : LoadState := ⟨[], 0, 0, 0, 0⟩
  let tag : Attribute := ⟨[], false, emptyTagVal⟩
  obtain ⟨st₁, hrun₁, -⟩ := loadCell_reads 0 as tag hread.same
    (hread.values vs mem_cons_self) (hread.length vs mem_cons_self) st [] (by
      rw [hnil]
      rfl)
  obtain ⟨st₂, hrun₂, -⟩ := loadCell_ends 0 (as ++ [tag]) (by simp) hread.columns_ne_nil
    (fun c hc => (hread.same c hc).sized) st rfl
  rw [hrun₁] at hrun₂
  cases hrun₂

/-- Nothing is loaded at the end of the file. -/
theorem load_end (hrest : st.rest = []) (capacities : List Nat) :
    load maxErrors as columns capacities st = (.ok [], st) := by
  have hchunk : ∀ capacity, loadChunk maxErrors as columns capacity st = (.ok none, st) := by
    intro capacity
    cases capacity <;> rw [loadChunk, bind_ok, if_pos hrest] <;> rfl
  cases capacities with
  | nil =>
    rw [load, bind_ok (hchunk none)]
    rfl
  | cons capacity capacities =>
    rw [load, bind_ok (hchunk (some capacity))]
    rfl

theorem load_eq (emptyTag : Attribute) (hread : Readable columns as rows)
    (hleft : Left columns rows total nErrors st) {capacities : List Nat}
    (hroom : rows.length ≤ capacities.sum) :
    ∃ chunks st', load maxErrors (as ++ [emptyTag]) columns capacities st = (.ok chunks, st') ∧
      chunks.flatten = rows.map (reloadedCell columns) ∧ Left columns [] total nErrors st' := by
  induction capacities generalizing rows st with
  | nil =>
    obtain rfl := length_eq_zero_iff.mp (Nat.le_zero.mp hroom)
    exact ⟨[], st, load_end maxErrors hleft.rest [], rfl, hleft⟩
  | cons capacity capacities ih =>
    cases rows with
    | nil =>
      exact ⟨[], st, load_end maxErrors hleft.rest _, rfl, hleft⟩
    | cons vs rows =>
      have hrest : st.rest ≠ [] := by
        rw [hleft.rest]
        exact fun h => cellBytes_ne_nil hread (append_eq_nil_iff.mp h).1
      have hleft₀ : Left columns (vs :: rows) total nErrors { st with buf := 8 } :=
        ⟨hleft.rest, hleft.offset, hleft.errors⟩
      obtain ⟨st₁, hrun₁, hleft₁⟩ := loadCells_eq maxErrors emptyTag hread hleft₀ capacity
      have hchunk : loadChunk maxErrors (as ++ [emptyTag]) columns (some capacity) st =
          (.ok (some (((vs :: rows).take capacity).map (reloadedCell columns))), st₁) := by
        rw [loadChunk, bind_ok (read_apply st), if_neg hrest,
          bind_ok (Attempt.change_apply _ st), bind_ok hrun₁]
        rfl
      obtain ⟨chunks, st₂, hrun₂, hflat, hleft₂⟩ := ih (hread.drop capacity) hleft₁ (by
        rw [length_drop]
        rw [sum_cons] at hroom
        omega)
      refine ⟨((vs :: rows).take capacity).map (reloadedCell columns) :: chunks, st₂, ?_, ?_,
        hleft₂⟩
      · rw [load, bind_ok hchunk]
        dsimp only
        rw [bind_ok hrun₂]
        rfl
      · rw [flatten_cons, hflat, ← map_append, take_append_drop]

end Chunks

end Reader

/-! ## Saving and loading -/

/-- An array to be saved: the types of its attributes, of which there is at least one, and the
cells of its chunks. -/
structure Source (lib : TypeLibrary) where
  attrs : List Attribute
  attrs_ne_nil : attrs ≠ []
  chunks : List (List (List Value))
  conforms : ∀ vs ∈ chunks.flatten,
    List.Forall₂ (fun a v => ∀ t, lib.getType a.typeId = some t → ValueOf t v) attrs vs

namespace Source

variable {lib : TypeLibrary} (A : Source lib)

/-- The cells in the order in which they are saved. -/
def rows : List (List Value) := A.chunks.flatten

/-- Loading undoes saving with any number of errors allowed, into chunks of any sizes: the
bytes of a file are those of its cells, each is read back from just its bytes, and the file is
read to its end without an error; and a save fails for an acceptable reason only. -/
def Inverse (emptyTag : Attribute) (format : List Char) (columns : List Column) : Prop :=
  ∀ room, match saveUsingTemplate lib (A.attrs.map Attribute.typeId) format A.chunks ⟨[], room⟩ with
    | .ok (nCells, file) =>
      nCells = A.rows.length ∧
      (∃ cells, file.written = cells.flatten ∧ ∀ maxErrors, List.Forall₂ (fun bytes vs =>
        Reads (loadCell maxErrors (A.attrs ++ [emptyTag]) columns) bytes (reloadedCell columns vs))
          cells A.rows) ∧
      ∀ maxErrors capacities, A.rows.length ≤ capacities.sum → ∃ chunks st,
        loadUsingTemplate lib maxErrors A.attrs emptyTag format capacities file.written =
          (.ok chunks, st) ∧
        chunks.flatten = A.rows.map (reloadedCell columns) ∧ st.rest = [] ∧
        st.fileOffset = file.written.length ∧ st.nErrors = 0
    | .error e => Refused (A.rows.flatMap (fields columns)) room e

section Accepted

variable {A} {format : List Char} {templ : ExchangeTemplate}

variable (hparse : parse lib (A.attrs.map Attribute.typeId) false format = .ok templ)

include hparse

variable (hbinary : templ.opaqueFormat = false)

include hbinary

theorem same_of_parse (hsame : SameTypes templ.columns) : ∀ c ∈ templ.columns, c.Same := by
  obtain ⟨hsized, hall⟩ := parse_columns hparse hbinary
  intro c hc
  have hof : c.skip = false → ∃ attr, ColumnOf lib attr c := by
    intro hskip
    have hmem : c ∈ templ.columns.filter (!·.skip) := mem_filter.mpr ⟨hc, by simp [hskip]⟩
    obtain ⟨n, hn, rfl⟩ := getElem_of_mem hmem
    exact ⟨_, (forall₂_iff_get.mp hall).2 n (by rw [hall.length_eq]; exact hn) hn⟩
  refine ⟨⟨hsized c hc, fun hskip => ?_⟩, fun hskip => ?_⟩
  · obtain ⟨attr, hattr⟩ := hof hskip
    exact hattr.converter (hsame c hc hskip)
  · obtain ⟨attr, hattr⟩ := hof hskip
    exact hattr.externalType_eq (hsame c hc hskip)

theorem values_of_parse {vs : List Value} (hvs : vs ∈ A.rows) :
    List.Forall₂ (fun c v => ValueOf c.internalType v) (templ.columns.filter (!·.skip)) vs := by
  have hcols := (parse_columns hparse hbinary).2
  rw [forall₂_map_left_iff] at hcols
  have hvals := A.conforms vs hvs
  rw [forall₂_iff_get] at hcols hvals ⊢
  refine ⟨hcols.1.symm.trans hvals.1, fun n h₁ h₂ => ?_⟩
  have hn : n < A.attrs.length := by rw [hcols.1]; exact h₁
  exact hvals.2 n hn h₂ _ (hcols.2 n hn h₁).internal

/-- All that is needed to read the cells back, if they could be stored. -/
theorem readable_of_parse (hsame : SameTypes templ.columns)
    (hstore : ∀ p ∈ A.rows.flatMap (fields templ.columns), Storable p.1 p.2) :
    Readable templ.columns A.attrs A.rows := by
  have hlength := (parse_columns hparse hbinary).2.length_eq
  rw [length_map] at hlength
  refine ⟨same_of_parse hparse hbinary hsame, ?_, fun vs hvs => ?_, fun vs hvs => ?_⟩
  · rintro hnil
    rw [hnil] at hlength
    exact A.attrs_ne_nil (length_eq_zero_iff.mp hlength)
  · have hvals := values_of_parse hparse hbinary hvs
    rw [forall₂_iff_zip] at hvals ⊢
    refine ⟨hvals.1, fun hp => ⟨?_, hvals.2 hp⟩⟩
    exact hstore (_, _) (mem_flatMap.mpr ⟨vs, hvs, hp⟩)
  · rw [hlength]
    exact (values_of_parse hparse hbinary hvs).length_eq

end Accepted

/-- For an array and an accepted template with the types of the array, saving and loading are
inverse, and saving fails for acceptable reasons only, exactly if no field needs more zeros
than the buffer has. -/
theorem binary_inverse_iff (emptyTag : Attribute) {format : List Char} {templ : ExchangeTemplate}
    (hparse : parse lib (A.attrs.map Attribute.typeId) false format = .ok templ)
    (hbinary : templ.opaqueFormat = false) (hsame : SameTypes templ.columns) :
    A.Inverse emptyTag format templ.columns ↔
      PadsFit (padBufferSize templ.columns) (A.rows.flatMap (fields templ.columns)) := by
  have hcols := same_of_parse hparse hbinary hsame
  have hsaves := saveRows_saves (fun c hc => (hcols c hc).toPlain)
    (fun c hc hs => skipBytes_le_padBufferSize hc hs)
    fun vs hvs => (values_of_parse hparse hbinary hvs).length_eq
  have hsave : ∀ f, saveUsingTemplate lib (A.attrs.map Attribute.typeId) format A.chunks f =
      saveRows (padBufferSize templ.columns) templ.columns A.rows f >>= fun f =>
        .ok (A.rows.length, f) := by
    intro f
    rw [saveUsingTemplate, hparse]
    dsimp only
    rw [saveChunks_eq, Nat.zero_add]
    rfl
  constructor
  · intro hinv
    by_contra hfit
    have hroom := hinv none
    rw [hsave, hsaves.overruns hfit _ rfl] at hroom
    cases hroom
  · intro hfit room
    rw [hsave]
    by_cases hstore : ∀ p ∈ A.rows.flatMap (fields templ.columns), Storable p.1 p.2
    · have hread := readable_of_parse hparse hbinary hsame hstore
      rw [hsaves.stores hstore hfit]
      rcases fwrite_cases (A.rows.flatMap (cellBytes templ.columns)) ⟨[], room⟩ with
        ⟨file, hfile, hwritten, -⟩ | ⟨herr, hroom⟩
      · rw [hfile]
        rw [nil_append] at hwritten
        refine ⟨rfl, ⟨A.rows.map (cellBytes templ.columns), ?_, fun maxErrors => ?_⟩, ?_⟩
        · rw [hwritten, flatMap_def]
        · rw [forall₂_map_left_iff, forall₂_same]
          exact fun vs hvs => loadCell_reads maxErrors A.attrs emptyTag hread.same
            (hread.values vs hvs) (hread.length vs hvs)
        · intro maxErrors capacities hcap
          have hleft : Left templ.columns A.rows file.written.length 0
              ⟨file.written, 0, 0, 0, 0⟩ := ⟨hwritten, Nat.zero_add _, rfl⟩
          obtain ⟨chunks, st, hrun, hflat, hend⟩ :=
            load_eq maxErrors emptyTag hread hleft hcap
          refine ⟨chunks, st, ?_, hflat, hend.rest, ?_, hend.errors⟩
          · rw [loadUsingTemplate, parse_import hparse hbinary hsame]
            exact hrun
          · rw [← hend.offset, hend.rest]
            rfl
      · rw [herr]
        exact .io hroom
    · push Not at hstore
      obtain ⟨e, he, href⟩ := hsaves.refuses hstore hfit ⟨[], room⟩
      rw [he]
      exact href

end Source

/-! ## Built-in types -/

def int8 : TypeDesc := ⟨['i', 'n', 't', '8'], 8, by decide⟩

def string : TypeDesc := ⟨['s', 't', 'r', 'i', 'n', 'g'], 0, TypeDesc.void.bitSize_lt⟩

def datetimetz : TypeDesc := ⟨['d', 'a', 't', 'e', 't', 'i', 'm', 'e', 't', 'z'], 128, by decide⟩

def builtins : TypeLibrary where
  getType id := [int8, string, datetimetz].find? fun t => t.typeId = id
  findConverter _ _ := none
  getType_typeId h := by simpa using find?_some h

/-- `(int8 null, skip(2), string(6) null)`. -/
def mixedFormat : List Char :=
  ['(', 'i', 'n', 't', '8', ' ', 'n', 'u', 'l', 'l', ',', ' ', 's', 'k', 'i', 'p', '(', '2', ')',
    ',', ' ', 's', 't', 'r', 'i', 'n', 'g', '(', '6', ')', ' ', 'n', 'u', 'l', 'l', ')']

def mixedTemplate : ExchangeTemplate :=
  ⟨[⟨false, true, int8, int8, 1, none⟩, ⟨true, false, .void, .void, 2, none⟩,
    ⟨false, true, string, string, 6, none⟩], false⟩

/-- Two cells, the second of nulls. -/
def mixedSource : Source builtins where
  attrs := [⟨int8.typeId, true, .datum [0]⟩, ⟨string.typeId, true, .datum [0]⟩]
  attrs_ne_nil := by simp
  chunks := [[[.datum [5], .datum [97, 0]], [.null 3, .null 0]]]
  conforms := by
    intro vs hvs
    simp only [flatten_cons, flatten_nil, append_nil, mem_cons, not_mem_nil, or_false] at hvs
    rcases hvs with rfl | rfl
    · refine .cons (fun t ht => ?_) (.cons (fun t ht => ?_) .nil)
      · obtain rfl : int8 = t := Option.some.inj ht
        exact fun _ => rfl
      · obtain rfl : string = t := Option.some.inj ht
        exact fun h => nomatch h
    · exact .cons (fun _ _ => trivial) (.cons (fun _ _ => trivial) .nil)

theorem binary_inverse_mixed :
    parse builtins (mixedSource.attrs.map Attribute.typeId) false mixedFormat = .ok mixedTemplate ∧
      mixedSource.Inverse ⟨[], false, emptyTagVal⟩ mixedFormat mixedTemplate.columns := by
  have hparse : parse builtins (mixedSource.attrs.map Attribute.typeId) false mixedFormat =
      .ok mixedTemplate := rfl
  refine ⟨hparse, (mixedSource.binary_inverse_iff _ hparse rfl ?_).mpr (by decide)⟩
  intro c hc hskip
  simp only [mixedTemplate, mem_cons, not_mem_nil, or_false] at hc
  rcases hc with rfl | rfl | rfl
  · rfl
  · cases hskip
  · rfl

/-- A null of 16 bytes, and a short string in a column of 20 bytes: the buffer has 9 zeros, and
the bytes behind it are read. -/
theorem saving_overruns_buffer :
    saveUsingTemplate builtins [datetimetz.typeId]
        (['('] ++ datetimetz.typeId ++ [' ', 'n', 'u', 'l', 'l', ')']) [[[.null 0]]] ⟨[], none⟩ =
      .error .padOverrun ∧
    saveUsingTemplate builtins [string.typeId] (['('] ++ string.typeId ++ ['(', '2', '0', ')', ')'])
        [[[.datum [97, 0]]]] ⟨[], none⟩ = .error .padOverrun ∧
    ∀ fs room, ¬ Refused fs room .padOverrun :=
  ⟨by decide +kernel, by decide +kernel, fun _ _ h => nomatch h⟩

end SciDB.Exchange
