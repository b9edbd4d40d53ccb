import CnotSynthesis.Matrix.Contract
import CnotSynthesis.Matrix.Text
import Mathlib

/-! # Matrices written and read as rows of digits

A matrix is written as one text for each row, a digit for each entry. The number of columns is not
written: it is read off the first row, so a matrix without rows is read as one without columns.

* **`written bs`** — bits as digits. A text is read as numbers byte by byte, and only `written bs`
  is read as the numbers of `bs` (`textEntries_eq_iff`), so no other character passes for a digit.
* **`ParityMatrix.ofText_eq_ok_iff`** — reading accepts exactly what writing produces, from a matrix
  that has rows or no columns.
* **`IsDigits`**, **`FirstFault`** — which rows are read, and what is reported of others;
  **`ParityMatrix.exists_ofText_iff`**, **`ParityMatrix.ofText_eq_error_iff`**.
* **`ParityMatrix.text_specification`** — writing and reading together. -/

namespace CnotSynthesis

/-! ## Digits -/

/-- The bytes of a text. -/
def textBytes (s : String) : List UInt8 := s.toUTF8.data.toList

/-- The bytes of the digits `0` and `1`. -/
def IsDigitByte (b : UInt8) : Prop := b = 48 ∨ b = 49

/-- A text has as many bytes as it says. -/
theorem length_textBytes (s : String) : (textBytes s).length = s.utf8ByteSize := rfl

/-- The bytes of a text are those of its characters. -/
theorem textBytes_ofList (l : List Char) :
    textBytes (String.ofList l) = l.flatMap String.utf8EncodeChar := by
  rw [textBytes, String.toUTF8_eq_toByteArray, String.toByteArray_ofList, List.utf8Encode,
    List.toList_data_toByteArray]

/-- A text is known by its bytes. -/
theorem textBytes_injective : Function.Injective textBytes := by
  intro s t h
  exact String.toByteArray_inj.mp (ByteArray.ext (Array.toList_inj.mp h))

namespace ParityMatrix

/-- Bits as digits. -/
def written (bs : List Bool) : String := String.ofList (bs.map digit)

/-- The characters written for bits. -/
theorem toList_written (bs : List Bool) : (written bs).toList = bs.map digit :=
  String.toList_ofList

/-- Different bits have different digits. -/
theorem digit_injective : Function.Injective digit := by
  intro a b
  revert a b
  decide

/-- Different rows are written differently. -/
theorem written_injective : Function.Injective written := by
  intro as bs h
  have hlist := congrArg String.toList h
  rw [toList_written, toList_written] at hlist
  exact digit_injective.list_map hlist

/-- A byte counted from the digit zero. -/
theorem entryOf_eq (b : UInt8) : (b.toNat + 208) % 256 = (b - 48).toNat := by
  rw [UInt8.toNat_sub]
  change _ = (2 ^ 8 - 48 + b.toNat) % 2 ^ 8
  omega

/-- The entries that are accepted are those of the two digits. -/
theorem entryOf_le_one_iff {b : UInt8} : (b - 48).toNat ≤ 1 ↔ IsDigitByte b := by
  have hb := b.toNat_lt
  rw [← entryOf_eq, IsDigitByte, ← UInt8.toNat_inj, ← UInt8.toNat_inj]
  change _ ↔ b.toNat = 48 ∨ b.toNat = 49
  omega

/-- The entries of a text are read off its bytes. -/
theorem textEntries_eq (s : String) :
    textEntries s = (textBytes s).map fun b => (b - 48).toNat :=
  List.map_congr_left fun b _ => entryOf_eq b

/-- A text has an entry for every byte. -/
theorem length_textEntries (s : String) : (textEntries s).length = s.utf8ByteSize := by
  rw [textEntries_eq, List.length_map, length_textBytes]

/-- A text is known by its entries. -/
theorem textEntries_injective : Function.Injective textEntries := by
  intro s t h
  rw [textEntries_eq, textEntries_eq] at h
  refine textBytes_injective (Function.Injective.list_map ?_ h)
  intro a b hab
  exact (UInt8.sub_left_inj 48).mp (UInt8.toNat_inj.mp hab)

/-- Digits are read as their bits. -/
theorem textEntries_written (bs : List Bool) : textEntries (written bs) = bs.map Bool.toNat := by
  have hdigit (b : Bool) : String.utf8EncodeChar (digit b) = [if b then 49 else 48] := by
    cases b <;> rfl
  rw [textEntries_eq, written, textBytes_ofList, List.flatMap_map]
  simp only [hdigit]
  rw [← List.map_eq_flatMap, List.map_map]
  refine List.map_congr_left fun b _ => ?_
  cases b <;> rfl

/-- **Only digits are read as bits.** -/
theorem textEntries_eq_iff {s : String} {bs : List Bool} :
    textEntries s = bs.map Bool.toNat ↔ s = written bs := by
  rw [← textEntries_written]
  exact textEntries_injective.eq_iff

/-- Numbers up to one are the numbers of bits. -/
theorem map_toNat_map_beq_one {vs : List ℕ} (h : ∀ v ∈ vs, v ≤ 1) :
    (vs.map (· == 1)).map Bool.toNat = vs := by
  rw [List.map_map]
  refine (List.map_congr_left fun v hv => ?_).trans (List.map_id vs)
  have := h v hv
  interval_cases v <;> rfl

/-- A text of digits, `width` bytes long. -/
def IsDigits (width : ℕ) (s : String) : Prop :=
  s.utf8ByteSize = width ∧ ∀ ch ∈ s.toList, ch = '0' ∨ ch = '1'

/-- Bits are written as digits. -/
theorem isDigits_written (bs : List Bool) : IsDigits bs.length (written bs) := by
  refine ⟨?_, ?_⟩
  · rw [← length_textEntries, textEntries_written, List.length_map]
  · intro ch hch
    rw [toList_written] at hch
    obtain ⟨b, _, rfl⟩ := List.mem_map.mp hch
    cases b
    · exact .inl rfl
    · exact .inr rfl

/-- A text of digits is written from its bits. -/
theorem IsDigits.exists_written {width : ℕ} {s : String} (h : IsDigits width s) :
    ∃ bs : List Bool, bs.length = width ∧ s = written bs := by
  have hdigits : (s.toList.map (· == '1')).map digit = s.toList := by
    rw [List.map_map]
    refine (List.map_congr_left fun ch hch => ?_).trans (List.map_id _)
    rcases h.2 ch hch with rfl | rfl <;> rfl
  have hwritten : s = written (s.toList.map (· == '1')) := by
    rw [written, hdigits, String.ofList_toList]
  refine ⟨_, ?_, hwritten⟩
  rw [← (isDigits_written _).1, ← hwritten, h.1]

/-- A text consists of digits if its entries are zeros and ones. -/
theorem isDigits_iff {width : ℕ} {s : String} :
    IsDigits width s ↔ s.utf8ByteSize = width ∧ ∀ v ∈ textEntries s, v ≤ 1 := by
  constructor
  · intro h
    refine ⟨h.1, fun v hv => ?_⟩
    obtain ⟨bs, _, rfl⟩ := h.exists_written
    rw [textEntries_written] at hv
    obtain ⟨b, _, rfl⟩ := List.mem_map.mp hv
    exact b.toNat_le
  · rintro ⟨rfl, hbits⟩
    have hs := textEntries_eq_iff.mp (map_toNat_map_beq_one hbits).symm
    have hdigits := isDigits_written ((textEntries s).map (· == 1))
    rwa [← hs, List.length_map, length_textEntries] at hdigits

/-! ## Faults -/

/-- The first element for which a search finds something, and where it stands. -/
theorem findSome?_zipIdx_eq_some_iff {α β : Type} {f : α × ℕ → Option β} {l : List α} {b : β}
    (k : ℕ) : (l.zipIdx k).findSome? f = some b ↔
      ∃ r a, l[r]? = some a ∧ f (a, k + r) = some b ∧
        ∀ i < r, ∀ x, l[i]? = some x → f (x, k + i) = none := by
  induction l generalizing k with
  | nil => simp
  | cons a l ih =>
    rw [List.zipIdx_cons, List.findSome?_cons]
    cases hfirst : f (a, k) with
    | some b' =>
      constructor
      · rintro h
        exact ⟨0, a, rfl, hfirst.trans h, by simp⟩
      · rintro ⟨r, x, hx, hb, habove⟩
        cases r with
        | zero =>
          cases hx
          exact hfirst.symm.trans hb
        | succ r =>
          have hnone := habove 0 (by omega) a rfl
          rw [Nat.add_zero, hfirst] at hnone
          cases hnone
    | none =>
      refine (ih (k + 1)).trans ⟨?_, ?_⟩
      · rintro ⟨r, x, hx, hb, habove⟩
        refine ⟨r + 1, x, hx, by rwa [← Nat.add_assoc, Nat.add_right_comm], ?_⟩
        intro i hi y hy
        cases i with
        | zero =>
          cases hy
          exact hfirst
        | succ i =>
          rw [← Nat.add_assoc, Nat.add_right_comm]
          exact habove i (by omega) y hy
      · rintro ⟨r, x, hx, hb, habove⟩
        cases r with
        | zero =>
          cases hx
          rw [Nat.add_zero, hfirst] at hb
          cases hb
        | succ r =>
          refine ⟨r, x, hx, by rwa [Nat.add_right_comm, Nat.add_assoc], ?_⟩
          intro i hi y hy
          rw [Nat.add_right_comm, Nat.add_assoc]
          exact habove (i + 1) (by omega) y hy

/-- A row is accepted if it is as wide as the first one and has entries 0 and 1. -/
theorem rowFault?_eq_none_iff {width r : ℕ} {row : List ℕ} :
    rowFault? width r row = none ↔ row.length = width ∧ ∀ v ∈ row, v ≤ 1 := by
  unfold rowFault?
  split
  · next hlength => simp [hlength]
  · next hlength =>
    rw [Option.map_eq_none_iff, List.findIdx?_eq_none_iff]
    simpa using fun _ => not_not.mp hlength

/-- Rows of digits of the right width have no fault. -/
theorem rowFault?_textEntries_eq_none_iff {width r : ℕ} {s : String} :
    rowFault? width r (textEntries s) = none ↔ IsDigits width s := by
  rw [rowFault?_eq_none_iff, isDigits_iff, length_textEntries]

/-- **The fault of a row**: its length, or else its first entry that is no bit. -/
theorem rowFault?_eq_some_iff {width r : ℕ} {row : List ℕ} {e : AlgebraError} :
    rowFault? width r row = some e ↔
      (row.length ≠ width ∧ e = .raggedRow width row.length r) ∨
      (row.length = width ∧ ∃ c v, row[c]? = some v ∧ 1 < v ∧
        (∀ j < c, ∀ x, row[j]? = some x → x ≤ 1) ∧ e = .invalidEntry r c v) := by
  unfold rowFault?
  split
  · next hlength => simp [hlength, eq_comm]
  · next hlength =>
    rw [Option.map_eq_some_iff]
    have hlength : row.length = width := not_not.mp hlength
    simp only [hlength, ne_eq, not_true_eq_false, false_and, true_and, false_or]
    constructor
    · rintro ⟨c, hc, rfl⟩
      obtain ⟨hlt, hbad, hleft⟩ := List.findIdx?_eq_some_iff_getElem.mp hc
      have hget : row[c]? = some row[c] := List.getElem?_eq_getElem hlt
      refine ⟨c, row[c], hget, by simpa using hbad, ?_, ?_⟩
      · intro j hj x hx
        obtain ⟨_, rfl⟩ := List.getElem?_eq_some_iff.mp hx
        simpa using hleft j hj
      · rw [List.getD_eq_getElem _ _ hlt]
    · rintro ⟨c, v, hv, hbad, hleft, rfl⟩
      obtain ⟨hlt, rfl⟩ := List.getElem?_eq_some_iff.mp hv
      refine ⟨c, List.findIdx?_eq_some_iff_getElem.mpr ⟨hlt, by simpa using hbad, ?_⟩, ?_⟩
      · intro j hj
        simpa using hleft j hj _ (List.getElem?_eq_getElem _)
      · rw [List.getD_eq_getElem _ _ hlt]

/-- The width that the first row gives. -/
def textWidth (rows : List String) : ℕ := (rows.head?.map String.utf8ByteSize).getD 0

/-- **The first fault of rows of text**, the rows above being digits of the right width: the length
of a row, or the first byte of a row of the right length that is no digit, with its distance from
the digit zero. -/
inductive FirstFault (rows : List String) : AlgebraError → Prop
  | length {r : ℕ} {s : String} (row : rows[r]? = some s)
      (above : ∀ i < r, ∀ t, rows[i]? = some t → IsDigits (textWidth rows) t)
      (wrong : s.utf8ByteSize ≠ textWidth rows) :
      FirstFault rows (.raggedRow (textWidth rows) s.utf8ByteSize r)
  | entry {r c : ℕ} {s : String} {b : UInt8} (row : rows[r]? = some s)
      (above : ∀ i < r, ∀ t, rows[i]? = some t → IsDigits (textWidth rows) t)
      (right : s.utf8ByteSize = textWidth rows) (byte : (textBytes s)[c]? = some b)
      (before : ∀ j < c, ∀ x, (textBytes s)[j]? = some x → IsDigitByte x)
      (wrong : ¬ IsDigitByte b) : FirstFault rows (.invalidEntry r c (b - 48).toNat)

/-! ## Reading -/

/-- The fault that is reported of rows of text, if any. -/
def textFault? (rows : List String) : Option AlgebraError :=
  rows.zipIdx.findSome? fun x => rowFault? (textWidth rows) x.2 (textEntries x.1)

/-- The matrix that rows of digits are read as. -/
def textMatrix (rows : List String) : ParityMatrix :=
  ofBitRows (rows.map fun s => BitRow.ofFn (textWidth rows) fun c => (textEntries s).getD c 0 == 1)

/-- Reading a matrix: its first fault, or the matrix. -/
theorem ofText_eq (rows : List String) :
    ofText rows = (textFault? rows).elim (.ok (textMatrix rows)) .error := by
  have hwidth : ((rows.map textEntries).head?.map List.length).getD 0 = textWidth rows := by
    cases rows with
    | nil => rfl
    | cons s rows => exact length_textEntries s
  have hfault : ((rows.map textEntries).zipIdx.findSome? fun x =>
      rowFault? (textWidth rows) x.2 x.1) = textFault? rows := by
    rw [List.zipIdx_map, List.findSome?_map]
    rfl
  unfold ofText ofRows
  dsimp only
  rw [hwidth]
  split
  · next fault h =>
    have hsome : textFault? rows = some fault := hfault.symm.trans h
    rw [hsome]
    rfl
  · next h =>
    have hnone : textFault? rows = none := hfault.symm.trans h
    rw [hnone, List.map_map]
    rfl

/-- Rows of digits, all of one width, have no fault. -/
theorem textFault?_eq_none_iff {rows : List String} :
    textFault? rows = none ↔ ∀ s ∈ rows, IsDigits (textWidth rows) s := by
  have hfst : ∀ P : String → Prop, (∀ x ∈ rows.zipIdx, P x.1) ↔ ∀ s ∈ rows, P s := by
    intro P
    rw [← List.forall_mem_map (f := Prod.fst) (P := P), List.zipIdx_map_fst]
  unfold textFault?
  rw [List.findSome?_eq_none_iff, ← hfst]
  simp only [rowFault?_textEntries_eq_none_iff]

/-- **What is reported is the first fault.** -/
theorem textFault?_eq_some_iff {rows : List String} {e : AlgebraError} :
    textFault? rows = some e ↔ FirstFault rows e := by
  unfold textFault?
  rw [findSome?_zipIdx_eq_some_iff]
  simp only [Nat.zero_add, rowFault?_textEntries_eq_none_iff, rowFault?_eq_some_iff,
    length_textEntries]
  constructor
  · rintro ⟨r, s, hrow, ⟨hwrong, rfl⟩ | ⟨hright, c, v, hv, hbad, hleft, rfl⟩, habove⟩
    · exact .length hrow habove hwrong
    · rw [textEntries_eq, List.getElem?_map, Option.map_eq_some_iff] at hv
      obtain ⟨b, hb, rfl⟩ := hv
      refine .entry hrow habove hright hb ?_ ?_
      · intro j hj x hx
        refine entryOf_le_one_iff.mp (hleft j hj _ ?_)
        rw [textEntries_eq, List.getElem?_map, hx]
        rfl
      · exact fun h => absurd (entryOf_le_one_iff.mpr h) (by omega)
  · rintro (⟨hrow, habove, hwrong⟩ | ⟨hrow, habove, hright, hbyte, hbefore, hwrong⟩)
    · exact ⟨_, _, hrow, .inl ⟨hwrong, rfl⟩, habove⟩
    · refine ⟨_, _, hrow, .inr ⟨hright, _, _, ?_, ?_, ?_, rfl⟩, habove⟩
      · rw [textEntries_eq, List.getElem?_map, hbyte]
        rfl
      · exact not_le.mp fun h => hwrong (entryOf_le_one_iff.mp h)
      · intro j hj v hv
        rw [textEntries_eq, List.getElem?_map, Option.map_eq_some_iff] at hv
        obtain ⟨x, hx, rfl⟩ := hv
        exact entryOf_le_one_iff.mpr (hbefore j hj x hx)

/-- The error is that of the first fault. -/
theorem ofText_eq_error_iff {rows : List String} {e : AlgebraError} :
    ofText rows = .error e ↔ FirstFault rows e := by
  rw [ofText_eq, ← textFault?_eq_some_iff]
  cases textFault? rows <;> simp

/-- Rows of digits, all of one width, are read. -/
theorem ofText_eq_textMatrix {rows : List String}
    (h : ∀ s ∈ rows, IsDigits (textWidth rows) s) : ofText rows = .ok (textMatrix rows) := by
  rw [ofText_eq, textFault?_eq_none_iff.mpr h]
  rfl

/-! ## Writing -/

/-- **A text for each row, a digit for each entry.** -/
theorem toText_eq (M : ParityMatrix) :
    M.toText = (List.range M.rows).map fun r => written ((List.range M.cols).map (M.entry r)) := by
  unfold toText
  apply List.ext_getElem?
  intro r
  rw [List.getElem?_map, List.getElem?_map]
  by_cases hr : r < M.rows
  · rw [getElem?_rowList hr, List.getElem?_range hr, Option.map_some, Option.map_some, written,
      List.map_map]
    simp only [bit_rowAt]
    rfl
  · rw [List.getElem?_eq_none (by simpa using hr), List.getElem?_eq_none (by simpa using hr)]
    rfl

/-- A line for every row. -/
theorem length_toText (M : ParityMatrix) : M.toText.length = M.rows := by
  rw [toText_eq, List.length_map, List.length_range]

/-- Every line is made of digits. -/
theorem isDigits_of_mem_toText {M : ParityMatrix} {s : String} (h : s ∈ M.toText) :
    IsDigits M.cols s := by
  rw [toText_eq] at h
  obtain ⟨r, _, rfl⟩ := List.mem_map.mp h
  have hdigits := isDigits_written ((List.range M.cols).map (M.entry r))
  rwa [List.length_map, List.length_range] at hdigits

/-- A matrix of a known width is known by its text. -/
theorem eq_of_toText_eq {M N : ParityMatrix} (hcols : M.cols = N.cols)
    (h : M.toText = N.toText) : M = N := by
  have hrows : M.rows = N.rows := by rw [← length_toText, h, length_toText]
  refine ext_entry hrows hcols ?_
  intro r c hr hc
  rw [toText_eq, toText_eq, ← hrows, ← hcols] at h
  have hrow := written_injective (List.map_inj_left.mp h r (List.mem_range.mpr hr))
  exact List.map_inj_left.mp hrow c (List.mem_range.mpr hc)

/-- The width that the text of a matrix gives is its own, unless there is no row to give it. -/
theorem textWidth_toText {M : ParityMatrix} (h : M.rows = 0 → M.cols = 0) :
    textWidth M.toText = M.cols := by
  cases htext : M.toText with
  | nil =>
    have hrows : M.rows = 0 := by rw [← length_toText, htext]; rfl
    rw [h hrows]
    rfl
  | cons s rows => exact (isDigits_of_mem_toText (htext ▸ List.mem_cons_self)).1

/-! ## Reading what was written -/

/-- **Rows of digits are the text of the matrix they are read as.** -/
theorem toText_textMatrix {rows : List String} (h : ∀ s ∈ rows, IsDigits (textWidth rows) s) :
    (textMatrix rows).toText = rows := by
  have hlength : (textMatrix rows).rows = rows.length := List.length_map _
  rw [toText_eq, hlength]
  apply List.ext_getElem (by simp)
  intro r _ hr
  rw [List.getElem_map, List.getElem_range]
  obtain ⟨bs, hbs, hwritten⟩ := (h rows[r] (List.getElem_mem hr)).exists_written
  rw [hwritten]
  congr 1
  apply List.ext_getElem (by simpa [textMatrix] using hbs.symm)
  intro c _ hc
  have hentries : textEntries rows[r] = bs.map Bool.toNat := textEntries_eq_iff.mpr hwritten
  rw [List.getElem_map, List.getElem_range, textMatrix, entry_ofBitRows, List.getElem?_map,
    List.getElem?_eq_getElem hr, Option.map_some, Option.getD_some, BitRow.bit_ofFn,
    decide_eq_true (hbs ▸ hc), hentries, List.getD_eq_getElem _ _ (by simpa using hc),
    List.getElem_map, Bool.true_and]
  cases bs[c] <;> rfl

/-- **Reading accepts exactly what writing produces**, from a matrix that has rows or no columns. -/
theorem ofText_eq_ok_iff {rows : List String} {M : ParityMatrix} :
    ofText rows = .ok M ↔ M.toText = rows ∧ (M.rows = 0 → M.cols = 0) := by
  constructor
  · intro h
    have hnone : textFault? rows = none := by
      rw [ofText_eq] at h
      cases hfault : textFault? rows with
      | none => rfl
      | some e =>
        rw [hfault] at h
        cases h
    rw [ofText_eq, hnone] at h
    obtain rfl := Except.ok.inj h
    refine ⟨toText_textMatrix (textFault?_eq_none_iff.mp hnone), ?_⟩
    -- without rows there is none to read the width off
    intro hrows
    have hrows : rows = [] := List.map_eq_nil_iff.mp (List.eq_nil_of_length_eq_zero hrows)
    rw [hrows]
    rfl
  · rintro ⟨rfl, hshape⟩
    have hwidth := textWidth_toText hshape
    have hdigits : ∀ s ∈ M.toText, IsDigits (textWidth M.toText) s :=
      fun s hs => hwidth ▸ isDigits_of_mem_toText hs
    rw [ofText_eq_textMatrix hdigits, eq_of_toText_eq hwidth (toText_textMatrix hdigits)]

/-- Rows are read exactly if they are digits of one width. -/
theorem exists_ofText_iff {rows : List String} : (∃ N, ofText rows = .ok N) ↔
    (∀ s ∈ rows, ∀ t ∈ rows, s.utf8ByteSize = t.utf8ByteSize) ∧
      ∀ s ∈ rows, ∀ ch ∈ s.toList, ch = '0' ∨ ch = '1' := by
  constructor
  · rintro ⟨N, hN⟩
    obtain ⟨rfl, _⟩ := ofText_eq_ok_iff.mp hN
    refine ⟨fun s hs t ht => ?_, fun s hs => (isDigits_of_mem_toText hs).2⟩
    exact (isDigits_of_mem_toText hs).1.trans (isDigits_of_mem_toText ht).1.symm
  · rintro ⟨hwidth, hdigits⟩
    refine ⟨_, ofText_eq_textMatrix fun s hs => ⟨?_, hdigits s hs⟩⟩
    cases rows with
    | nil => cases hs
    | cons first rows => exact hwidth s hs first List.mem_cons_self

/-- **Matrices as text.** A matrix is written whenever its rows can be listed, and read back as it
was exactly if it has rows or no columns; without rows the number of columns is lost. Rows of text
are read exactly if they have one length in bytes and consist of digits, and then they are what the
matrix is written as. Otherwise the first fault is reported, from the top down, for each row its
length first and then its bytes from the left. -/
theorem text_specification (M : ParityMatrix) (rows : List String) :
    M.toText? = (requireRoom M.rows).map (fun _ => M.toText) ∧
    (ofText M.toText = .ok M ↔ (M.rows = 0 → M.cols = 0)) ∧
    (M.rows = 0 → ofText M.toText = .ok (zeros 0 0)) ∧
    ((∃ N, ofText rows = .ok N) ↔
      (∀ s ∈ rows, ∀ t ∈ rows, s.utf8ByteSize = t.utf8ByteSize) ∧
        ∀ s ∈ rows, ∀ ch ∈ s.toList, ch = '0' ∨ ch = '1') ∧
    (∀ N, ofText rows = .ok N → N.toText = rows ∧
      N.toText? = (requireRoom rows.length).map fun _ => rows) ∧
    ∀ e, ofText rows = .error e ↔ FirstFault rows e := by
  refine ⟨rfl, ofText_eq_ok_iff.trans (and_iff_right rfl), ?_, exists_ofText_iff, ?_,
    fun e => ofText_eq_error_iff⟩
  · intro hrows
    have htext : M.toText = [] := List.eq_nil_of_length_eq_zero (M.length_toText.trans hrows)
    rw [htext]
    rfl
  · intro N hN
    obtain ⟨rfl, _⟩ := ofText_eq_ok_iff.mp hN
    rw [length_toText]
    exact ⟨rfl, rfl⟩

/-- A matrix of no rows and two columns is read back with none. -/
theorem ofText_toText_ne_without_rows :
    zeros? 0 2 = .ok (zeros 0 2) ∧ (zeros 0 2).toText? = .ok [] ∧ ofText [] = .ok (zeros 0 0) ∧
      ofText (zeros 0 2).toText ≠ .ok (zeros 0 2) := by
  refine ⟨rfl, rfl, rfl, fun h => ?_⟩
  have hcols : (0 : ℕ) = 2 := congrArg ParityMatrix.cols (Except.ok.inj h)
  cases hcols

end ParityMatrix

end CnotSynthesis
