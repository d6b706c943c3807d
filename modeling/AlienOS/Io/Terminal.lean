import AlienOS.Io.Printf
import AlienOS.Lib.CellRing

/-!
# Terminal — `terminal.c`

The VGA text buffer as a function from the index of a cell to its entry.  Row and column wrap
around separately; together they are a cursor that goes around the cells of the screen.
-/

open AlienOS.Lib

namespace AlienOS.Io

def VGA_WIDTH : Word := 80
def VGA_HEIGHT : Word := 25

inductive VGAColor where
  | black | blue | green | cyan | red | magenta | brown | lightGrey
  | darkGrey | lightBlue | lightGreen | lightCyan | lightRed | lightMagenta | lightBrown | white
  deriving DecidableEq, Repr

def vgaEntryColor (fg bg : VGAColor) : BitVec 8 :=
  BitVec.ofNat 8 fg.ctorIdx ||| BitVec.ofNat 8 bg.ctorIdx <<< 4

def vgaEntry (uc : Byte) (color : BitVec 8) : BitVec 16 :=
  uc.setWidth 16 ||| color.setWidth 16 <<< 8

structure Terminal where
  terminalRow : Word
  terminalColumn : Word
  terminalColor : BitVec 8
  terminalBuffer : Nat → BitVec 16
  /-- the indices that have been written, the last one first -/
  written : List Nat

namespace Terminal

/-- `terminal_buffer[index] = entry;` -/
def store (index : Word) (entry : BitVec 16) (t : Terminal) : Terminal :=
  { t with
    terminalBuffer := Function.update t.terminalBuffer index.toNat entry
    written := index.toNat :: t.written }

/-- `for (; x < VGA_WIDTH; x++)` -/
def clearColumns (y x : Word) (t : Terminal) : Terminal :=
  if x < VGA_WIDTH then
    clearColumns y (x + 1) (t.store (y * VGA_WIDTH + x) (vgaEntry (char ' ') t.terminalColor))
  else t
termination_by VGA_WIDTH.toNat - x.toNat
decreasing_by
  unfold VGA_WIDTH at *
  bv_omega

/-- `for (; y < VGA_HEIGHT; y++)` -/
def clearRows (y : Word) (t : Terminal) : Terminal :=
  if y < VGA_HEIGHT then clearRows (y + 1) (clearColumns y 0 t) else t
termination_by VGA_HEIGHT.toNat - y.toNat
decreasing_by
  unfold VGA_HEIGHT at *
  bv_omega

def terminalInit (t : Terminal) : Terminal :=
  clearRows 0 { t with
    terminalRow := 0
    terminalColumn := 0
    terminalColor := vgaEntryColor .lightGrey .black }

def terminalSetcolor (color : BitVec 8) (t : Terminal) : Terminal :=
  { t with terminalColor := color }

def terminalPutentryat (c : Byte) (color : BitVec 8) (x y : Word) (t : Terminal) : Terminal :=
  t.store (y * VGA_WIDTH + x) (vgaEntry c color)

/-- `if (++terminal_row == VGA_HEIGHT) terminal_row = 0;` -/
def nextRow (t : Terminal) : Terminal :=
  let t := { t with terminalRow := t.terminalRow + 1 }
  if t.terminalRow = VGA_HEIGHT then { t with terminalRow := 0 } else t

def terminalPutchar (c : Byte) (t : Terminal) : Terminal :=
  if c = char '\n' then
    nextRow { t with terminalColumn := 0 }
  else
    let t := t.terminalPutentryat c t.terminalColor t.terminalColumn t.terminalRow
    let t := { t with terminalColumn := t.terminalColumn + 1 }
    if t.terminalColumn = VGA_WIDTH then nextRow { t with terminalColumn := 0 } else t

/-- The `size` bytes at `data`, one after the other. -/
def terminalWrite : List Byte → Terminal → Terminal
  | [], t => t
  | c :: data, t => terminalWrite data (t.terminalPutchar c)

def terminalWritestr (data : CString) (t : Terminal) : Terminal :=
  terminalWrite (data.chars.take (strlen data)) t

/-! ## Calls -/

inductive Call where
  | putchar (c : Byte)
  | write (data : List Byte)
  | writestr (data : CString)
  | setcolor (color : BitVec 8)

def call : Call → Terminal → Terminal
  | .putchar c => terminalPutchar c
  | .write data => terminalWrite data
  | .writestr data => terminalWritestr data
  | .setcolor color => terminalSetcolor color

/-- What is left after `terminal_init` and then `calls`. -/
def session (t : Terminal) (calls : List Call) : Terminal :=
  calls.foldl (fun t c ↦ t.call c) t.terminalInit

/-! ## The screen -/

def cells : Nat := VGA_WIDTH.toNat * VGA_HEIGHT.toNat

def cursor (t : Terminal) : Nat := t.terminalRow.toNat * VGA_WIDTH.toNat + t.terminalColumn.toNat

/-- The cursor and all writes so far are on the screen. -/
structure OnScreen (t : Terminal) : Prop where
  row : t.terminalRow.toNat < 25
  column : t.terminalColumn.toNat < 80
  written : ∀ index ∈ t.written, index < cells

/-- The terminal as a ring of cells. -/
def ring (t : Terminal) : CellRing (BitVec 16) := ⟨t.cursor, t.terminalBuffer⟩

section

variable {t : Terminal}

theorem cells_eq : cells = 2000 := rfl

theorem cursor_eq (t : Terminal) :
    t.cursor = t.terminalRow.toNat * 80 + t.terminalColumn.toNat := rfl

theorem OnScreen.cursor_lt (h : t.OnScreen) : t.cursor < cells := by
  have hrow := h.row
  have hcolumn := h.column
  rw [cursor_eq, cells_eq]
  omega

theorem store_index {x y : Word} (hx : x.toNat < 80) (hy : y.toNat < 25) :
    (y * VGA_WIDTH + x).toNat = y.toNat * 80 + x.toNat := by
  have h80 : VGA_WIDTH.toNat = 80 := rfl
  rw [BitVec.toNat_add, BitVec.toNat_mul, h80]
  omega

theorem OnScreen.store {index : Word} (h : t.OnScreen) (hi : index.toNat < cells)
    (entry : BitVec 16) : (t.store index entry).OnScreen := by
  refine ⟨h.row, h.column, fun i hm ↦ ?_⟩
  rcases List.mem_cons.mp hm with rfl | hm
  · exact hi
  · exact h.written i hm

/-- The next row, modulo the height of the screen. -/
theorem nextRow_eq (hrow : t.terminalRow.toNat < 25) :
    t.nextRow = { t with
      terminalRow := BitVec.ofNat 32 ((t.terminalRow.toNat + 1) % 25) } := by
  unfold nextRow
  simp only
  by_cases h : t.terminalRow + 1 = VGA_HEIGHT
  · have hz : (t.terminalRow.toNat + 1) % 25 = 0 := by
      unfold VGA_HEIGHT at h
      bv_omega
    rw [if_pos h, hz]
    rfl
  · have hlt : (t.terminalRow.toNat + 1) % 25 = t.terminalRow.toNat + 1 := by
      unfold VGA_HEIGHT at h
      bv_omega
    rw [if_neg h, hlt, BitVec.ofNat_add, BitVec.ofNat_toNat, BitVec.setWidth_eq]
    rfl

/-! ## One character -/

theorem terminalPutchar_newline (h : t.OnScreen) :
    t.terminalPutchar (char '\n') = { t with
      terminalColumn := 0
      terminalRow := BitVec.ofNat 32 ((t.terminalRow.toNat + 1) % 25) } := by
  have hrow : ({ t with terminalColumn := 0 } : Terminal).terminalRow.toNat < 25 := h.row
  unfold terminalPutchar
  rw [if_pos rfl, nextRow_eq hrow]

/-- Any other character goes into the cell under the cursor, and the cursor to the next one. -/
theorem terminalPutchar_text {c : Byte} (h : t.OnScreen) (hc : c ≠ char '\n') :
    (t.terminalPutchar c).OnScreen ∧
      (t.terminalPutchar c).ring = t.ring.put cells (vgaEntry c t.terminalColor) := by
  have hrow := h.row
  have hcolumn := h.column
  have hindex : (t.terminalRow * VGA_WIDTH + t.terminalColumn).toNat = t.cursor :=
    store_index hcolumn hrow
  have hstore := h.store (hindex ▸ h.cursor_lt) (vgaEntry c t.terminalColor)
  have hput : t.terminalPutchar c =
      let s := t.terminalPutentryat c t.terminalColor t.terminalColumn t.terminalRow
      if t.terminalColumn + 1 = VGA_WIDTH then nextRow { s with terminalColumn := 0 }
      else { s with terminalColumn := t.terminalColumn + 1 } := by
    unfold terminalPutchar
    rw [if_neg hc]
    rfl
  rw [hput]
  by_cases hw : t.terminalColumn + 1 = VGA_WIDTH
  · -- the end of a row, and maybe of the screen
    have hlast : t.terminalColumn.toNat = 79 := by
      unfold VGA_WIDTH at hw
      bv_omega
    have hr : (BitVec.ofNat 32 ((t.terminalRow.toNat + 1) % 25)).toNat =
        (t.terminalRow.toNat + 1) % 25 := by
      rw [BitVec.toNat_ofNat]
      omega
    rw [if_pos hw, nextRow_eq]
    · refine ⟨⟨?_, Nat.zero_lt_succ 79, hstore.written⟩, congrArg₂ CellRing.mk ?_ ?_⟩
      · show (BitVec.ofNat 32 ((t.terminalRow.toNat + 1) % 25)).toNat < 25
        omega
      · show (BitVec.ofNat 32 ((t.terminalRow.toNat + 1) % 25)).toNat * 80 + 0 =
          (t.cursor + 1) % cells
        rw [hr, cursor_eq, cells_eq]
        omega
      · show Function.update t.terminalBuffer _ _ = Function.update t.terminalBuffer _ _
        rw [hindex]
        rfl
    · exact hrow
  · have hnext : (t.terminalColumn + 1).toNat = t.terminalColumn.toNat + 1 ∧
        t.terminalColumn.toNat + 1 < 80 := by
      unfold VGA_WIDTH at hw
      constructor <;> bv_omega
    rw [if_neg hw]
    refine ⟨⟨hrow, ?_, hstore.written⟩, congrArg₂ CellRing.mk ?_ ?_⟩
    · show (t.terminalColumn + 1).toNat < 80
      omega
    · show t.terminalRow.toNat * 80 + (t.terminalColumn + 1).toNat = (t.cursor + 1) % cells
      rw [cursor_eq, cells_eq]
      omega
    · show Function.update t.terminalBuffer _ _ = Function.update t.terminalBuffer _ _
      rw [hindex]
      rfl

theorem OnScreen.terminalPutchar (h : t.OnScreen) (c : Byte) : (t.terminalPutchar c).OnScreen := by
  by_cases hc : c = char '\n'
  · rw [hc, terminalPutchar_newline h]
    refine ⟨?_, Nat.zero_lt_succ 79, h.written⟩
    show (BitVec.ofNat 32 ((t.terminalRow.toNat + 1) % 25)).toNat < 25
    rw [BitVec.toNat_ofNat]
    omega
  · exact (terminalPutchar_text h hc).1

/-! ## Runs -/

theorem OnScreen.terminalWrite (h : t.OnScreen) (data : List Byte) :
    (terminalWrite data t).OnScreen := by
  induction data generalizing t with
  | nil => exact h
  | cons c data ih => exact ih (h.terminalPutchar c)

theorem OnScreen.call (h : t.OnScreen) (c : Call) : (t.call c).OnScreen := by
  cases c with
  | putchar c => exact h.terminalPutchar c
  | write data => exact h.terminalWrite data
  | writestr data => exact h.terminalWrite _
  | setcolor color => exact ⟨h.row, h.column, h.written⟩

theorem OnScreen.clearColumns {x y : Word} (h : t.OnScreen) (hy : y.toNat < 25) :
    (clearColumns y x t).OnScreen := by
  fun_induction Terminal.clearColumns y x t with
  | case1 x t hx ih =>
    have hx' : x.toNat < 80 := hx
    apply ih
    apply h.store
    rw [store_index hx' hy, cells_eq]
    omega
  | case2 x t hx => exact h

theorem OnScreen.clearRows {y : Word} (h : t.OnScreen) : (clearRows y t).OnScreen := by
  fun_induction Terminal.clearRows y t with
  | case1 y t hy ih => exact ih (h.clearColumns hy)
  | case2 y t hy => exact h

theorem nextRow_color (t : Terminal) : t.nextRow.terminalColor = t.terminalColor := by
  unfold nextRow
  simp only
  split <;> rfl

theorem terminalPutchar_color (c : Byte) (t : Terminal) :
    (t.terminalPutchar c).terminalColor = t.terminalColor := by
  unfold terminalPutchar
  split
  · exact nextRow_color _
  · simp only
    split
    · exact nextRow_color _
    · rfl

theorem terminalWrite_color (data : List Byte) (t : Terminal) :
    (terminalWrite data t).terminalColor = t.terminalColor := by
  induction data generalizing t with
  | nil => rfl
  | cons c data ih => exact (ih _).trans (terminalPutchar_color c t)

/-- Text without a newline goes around the cells of the screen. -/
theorem terminalWrite_text {text : List Byte} (h : t.OnScreen) (hn : char '\n' ∉ text) :
    (terminalWrite text t).ring =
      t.ring.puts cells (text.map fun c ↦ vgaEntry c t.terminalColor) := by
  induction text generalizing t with
  | nil => rfl
  | cons c text ih =>
    have hc : c ≠ char '\n' := (List.ne_of_not_mem_cons hn).symm
    obtain ⟨hs, hring⟩ := terminalPutchar_text h hc
    show (terminalWrite text (t.terminalPutchar c)).ring = _
    rw [ih hs (List.not_mem_of_not_mem_cons hn), hring, terminalPutchar_color]
    rfl

theorem session_onScreen (t : Terminal) (calls : List Call) :
    (session { t with written := [] } calls).OnScreen := by
  have hinit : (terminalInit { t with written := [] }).OnScreen :=
    OnScreen.clearRows ⟨Nat.zero_lt_succ 24, Nat.zero_lt_succ 79,
      fun _ h ↦ absurd h List.not_mem_nil⟩
  unfold session
  generalize terminalInit { t with written := [] } = t₀ at hinit
  induction calls generalizing t₀ with
  | nil => exact hinit
  | cons c calls ih => exact ih _ (hinit.call c)

/-- The cursor and every write stay on the screen, and text and newlines do what they should. -/
theorem terminal_stays_on_screen (t₀ : Terminal) (calls : List Call) :
    let t := session { t₀ with written := [] } calls
    t.terminalRow.toNat < 25 ∧ t.terminalColumn.toNat < 80 ∧ (∀ index ∈ t.written, index < 2000) ∧
    (∀ text, char '\n' ∉ text →
      let t' := terminalWrite text t
      t'.cursor = (t.cursor + text.length) % 2000 ∧ t'.terminalColor = t.terminalColor ∧
      (∀ i (hi : i < text.length),
        (∀ j, i < j → j < text.length → (t.cursor + j) % 2000 ≠ (t.cursor + i) % 2000) →
        t'.terminalBuffer ((t.cursor + i) % 2000) = vgaEntry text[i] t.terminalColor) ∧
      ∀ k, (∀ i < text.length, (t.cursor + i) % 2000 ≠ k) →
        t'.terminalBuffer k = t.terminalBuffer k) ∧
    let t' := t.terminalPutchar (char '\n')
    t'.terminalColumn = 0 ∧ t'.terminalRow.toNat = (t.terminalRow.toNat + 1) % 25 ∧
      t'.terminalBuffer = t.terminalBuffer := by
  intro t
  have h : t.OnScreen := session_onScreen t₀ calls
  refine ⟨h.row, h.column, h.written, fun text hn ↦ ?_, ?_⟩
  · have hlt : t.ring.cursor < cells := h.cursor_lt
    have hring := terminalWrite_text h hn
    have hcell : ∀ k, (terminalWrite text t).terminalBuffer k =
        (t.ring.puts cells (text.map fun c ↦ vgaEntry c t.terminalColor)).cells k :=
      fun k ↦ congrFun (congrArg CellRing.cells hring) k
    refine ⟨?_, ?_, fun i hi hlast ↦ ?_, fun k hk ↦ ?_⟩
    · have hc := congrArg CellRing.cursor hring
      rw [CellRing.puts_cursor hlt, List.length_map] at hc
      exact hc
    · exact terminalWrite_color text t
    · rw [hcell]
      have hi' : i < (text.map fun c ↦ vgaEntry c t.terminalColor).length := by simpa using hi
      have hlast' := CellRing.puts_cells_last hlt hi' fun j hij hj ↦
        hlast j hij (by simpa using hj)
      rw [List.getElem_map] at hlast'
      exact hlast'
    · rw [hcell]
      exact CellRing.puts_cells_other hlt fun i hi ↦ hk i (by simpa using hi)
  · rw [terminalPutchar_newline h]
    refine ⟨rfl, ?_, rfl⟩
    show (BitVec.ofNat 32 ((t.terminalRow.toNat + 1) % 25)).toNat = _
    rw [BitVec.toNat_ofNat]
    omega

/-- Two letters on the second row of a cleared screen. -/
theorem terminal_stays_on_screen_ab :
    let t := session ⟨7, 7, 7, fun _ ↦ 0, []⟩ [.putchar (char '\n')]
    (terminalWrite (literal "ab") t).cursor = (t.cursor + 2) % 2000 ∧
      (terminalWrite (literal "ab") t).terminalBuffer ((t.cursor + 1) % 2000) =
        vgaEntry (char 'b') t.terminalColor := by
  intro t
  obtain ⟨-, -, -, htext, -⟩ := terminal_stays_on_screen ⟨7, 7, 7, fun _ ↦ 0, []⟩
    [.putchar (char '\n')]
  obtain ⟨hcursor, -, hlast, -⟩ := htext (literal "ab") (by decide)
  refine ⟨hcursor, hlast 1 (by decide) fun j hj hj' ↦ ?_⟩
  have : (literal "ab").length = 2 := by decide
  omega

end

end Terminal

end AlienOS.Io
