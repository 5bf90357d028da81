/-
Lapis.Kterm.Terminal — the kernel terminal (`kterm.c`).

A state machine over bytes: text and control characters move the cursor over a ring of
`MAX_ROWS` buffer rows, `scroll_base` being the ring row shown at the top; escape sequences are read
parameter by parameter and executed at their last byte. Cursor positions, parameters and colours have
the widths of the source, so sums and shifts wrap as they do there.

`screen_buffer[r][c]` is the cell at `r * MAX_COLS + c`, as the compiler computes its place: for a
display with more than `MAX_COLS` columns this reaches into the next buffer row, and from the last one
into the memory behind the array, which is taken to hold no variable of the terminal. `picture` is what
each place of the screen was last drawn with; the pixels of a glyph are those of the font. The cursor
is drawn by writing every pixel of its place back with the bits of the three colours only, which keeps
what was drawn, so drawing the cursor redraws the place it leaves and nothing else.

A loop over a range of cells is written as the range of cells it changes.
-/
import Mathlib.Logic.Function.Basic

namespace Lapis.Kterm

open Function

def fontWidth : UInt64 := 8
def termEscParamsMax : Int := 16
def maxRows : UInt64 := 256
def maxCols : Nat := 256

/-- The framebuffer, and the height of the font. -/
structure Display where
  width : UInt64
  height : UInt64
  redMaskShift : UInt8
  greenMaskShift : UInt8
  blueMaskShift : UInt8
  fontHeight : UInt8

def Display.rows (fb : Display) : UInt64 := fb.height / fb.fontHeight.toUInt64

def Display.cols (fb : Display) : UInt64 := fb.width / fontWidth

structure TerminalCell where
  ch : UInt8
  fg : UInt32
  bg : UInt32
  deriving DecidableEq, Repr

inductive EscapeState where
  | none | seen | csi
  deriving DecidableEq, Repr

structure EscapeCtx where
  state : EscapeState
  params : Nat → Int32
  paramCount : Int
  currentParamActive : Bool
  privateMode : Bool
  bright : Bool
  cursorVisible : Bool
  savedCursorX : UInt64
  savedCursorY : UInt64

/-- The three parts of a colour. -/
structure Rgb where
  r : UInt32
  g : UInt32
  b : UInt32
  deriving DecidableEq, Repr

structure TermState where
  charCursorX : UInt64
  charCursorY : UInt64
  oldCursorX : UInt64
  oldCursorY : UInt64
  rows : UInt64
  cols : UInt64
  /-- The pointer to the framebuffer is set. -/
  framebuffer : Bool
  init : Bool
  bgColor : Rgb
  fgColor : Rgb
  screenBuffer : Nat → TerminalCell
  scrollBase : UInt64
  esc : EscapeCtx
  /-- What the place in column `x` of line `y` was last drawn with. -/
  picture : Nat → Nat → Option TerminalCell

/-! ## Colours -/

/-- The colour of three parts, in the layout of the framebuffer. -/
def Display.pixel (fb : Display) (r g b : UInt32) : UInt32 :=
  r <<< fb.redMaskShift.toUInt32 ||| g <<< fb.greenMaskShift.toUInt32 ||| b <<< fb.blueMaskShift.toUInt32

def Display.components (fb : Display) (rgb : UInt32) : Rgb :=
  ⟨rgb >>> fb.redMaskShift.toUInt32 &&& 0xFF, rgb >>> fb.greenMaskShift.toUInt32 &&& 0xFF,
    rgb >>> fb.blueMaskShift.toUInt32 &&& 0xFF⟩

def defaultBgRgb : UInt32 := 0x000000
def defaultFgRgb : UInt32 := 0xAAAAAA

def ansiPalette : List UInt32 :=
  [0x000000, 0xAA0000, 0x00AA00, 0xAA5500,
   0x0000AA, 0xAA00AA, 0x00AAAA, 0xAAAAAA,
   0x555555, 0xFF5555, 0x55FF55, 0xFFFF55,
   0x5555FF, 0xFF55FF, 0x55FFFF, 0xFFFFFF]

def ansiBasicToRgb (color : Int32) (bright : Bool) : UInt32 :=
  let color := if color < 0 ∨ 7 < color then 7 else color
  ansiPalette.getD (color.toNatClampNeg + if bright then 8 else 0) 0

def ansi256Levels : List UInt32 := [0, 95, 135, 175, 215, 255]

def Display.ansi256ToRgb (fb : Display) (idx : Int32) : UInt32 :=
  let idx := if idx < 0 then 0 else idx
  if idx < 16 then ansiPalette.getD idx.toNatClampNeg 0
  else if idx < 232 then
    let cube := (idx - 16).toNatClampNeg
    fb.pixel (ansi256Levels.getD (cube / 36) 0) (ansi256Levels.getD (cube / 6 % 6) 0)
      (ansi256Levels.getD (cube % 6) 0)
  else
    let gray := (8 + (idx - 232) * 10).toUInt32 &&& 0xFF
    fb.pixel gray gray gray

namespace TermState

variable (fb : Display)

def cellFgRgb (s : TermState) : UInt32 := fb.pixel s.fgColor.r s.fgColor.g s.fgColor.b

def cellBgRgb (s : TermState) : UInt32 := fb.pixel s.bgColor.r s.bgColor.g s.bgColor.b

def ktermSetBg (s : TermState) (rgb : UInt32) : TermState :=
  { s with framebuffer := true, bgColor := fb.components rgb }

def ktermSetFg (s : TermState) (rgb : UInt32) : TermState :=
  { s with framebuffer := true, fgColor := fb.components rgb }

def resetTerminalAttributes (s : TermState) : TermState :=
  let s := { s with esc := { s.esc with bright := false } }
  (s.ktermSetFg fb defaultFgRgb).ktermSetBg fb defaultBgRgb

/-! ## Cells and the picture -/

/-- The place of `screen_buffer[row][col]`. -/
def place (row col : UInt64) : Nat := row.toNat * maxCols + col.toNat

/-- The buffer row of a line of the screen. -/
def ringRow (s : TermState) (y : UInt64) : UInt64 := (s.scrollBase + y) % maxRows

/-- What `clear_cell` writes. -/
def clearedCell (s : TermState) : TerminalCell := ⟨32, s.cellFgRgb fb, s.cellBgRgb fb⟩

/-- `clear_cell` for the columns `start` to `stop` of a buffer row. -/
def clearCells (s : TermState) (row start stop : UInt64) : TermState :=
  { s with screenBuffer := fun i =>
      if place row start ≤ i ∧ i ≤ place row stop then s.clearedCell fb else s.screenBuffer i }

/-- What `draw_char_at` is given for a cell: a cell with no character is blank. -/
def shown (cell : TerminalCell) : TerminalCell :=
  { cell with ch := if cell.ch = 0 then 32 else cell.ch }

def drawCharAt (s : TermState) (x y : UInt64) (cell : TerminalCell) : TermState :=
  { s with picture := update s.picture x.toNat (update (s.picture x.toNat) y.toNat (some cell)) }

def renderScreen (s : TermState) : TermState :=
  { s with picture := fun x y =>
      if y < s.rows.toNat ∧ x < s.cols.toNat then
        some (shown (s.screenBuffer (place (s.ringRow (UInt64.ofNat y)) (UInt64.ofNat x))))
      else s.picture x y }

def resetEscapeState (s : TermState) : TermState :=
  { s with esc := { s.esc with
      state := .none, paramCount := 0, currentParamActive := false, privateMode := false
      params := fun _ => 0 } }

def ktermRenderCursor (s : TermState) (x y : UInt64) : TermState :=
  if !s.init || !s.framebuffer then s
  else
    let s :=
      if s.oldCursorX ≠ x ∨ s.oldCursorY ≠ y then
        s.drawCharAt s.oldCursorX s.oldCursorY
          (shown (s.screenBuffer (place (s.ringRow s.oldCursorY) s.oldCursorX)))
      else s
    { s with oldCursorX := x, oldCursorY := y }

def ktermCls (s : TermState) : TermState :=
  if !s.framebuffer then s
  else
    let s := { s with
      screenBuffer := fun i => if i < maxRows.toNat * maxCols then s.clearedCell fb else s.screenBuffer i
      charCursorX := 0, charCursorY := 0, scrollBase := 0 }
    let s := s.resetEscapeState.renderScreen
    s.ktermRenderCursor s.charCursorX s.charCursorY

/-- `kterm_init`, with a framebuffer. -/
def ktermInit (s : TermState) : TermState :=
  let s := { s with framebuffer := true, rows := fb.rows, cols := fb.cols }
  let s := ((s.resetTerminalAttributes fb).ktermCls fb).renderScreen
  { s with init := true }

/-- `if (!init) kterm_init();` -/
def ensureInit (s : TermState) : TermState := if s.init then s else s.ktermInit fb

def scrollUpByOne (s : TermState) : TermState :=
  let s := { s with scrollBase := (s.scrollBase + 1) % maxRows }
  let newLine := (s.scrollBase + s.rows - 1) % maxRows
  (s.clearCells fb newLine 0 255).renderScreen

/-! ## Moving the cursor, clearing -/

def ktermMoveCursor (s : TermState) (x y : UInt64) : TermState :=
  let s := s.ensureInit fb
  let x := if s.cols ≤ x then (if s.cols = 0 then 0 else s.cols - 1) else x
  let y := if s.rows ≤ y then (if s.rows = 0 then 0 else s.rows - 1) else y
  let s := { s with charCursorX := x, charCursorY := y }
  s.ktermRenderCursor x y

def ktermSaveCursor (s : TermState) : TermState :=
  { s with esc := { s.esc with savedCursorX := s.charCursorX, savedCursorY := s.charCursorY } }

def ktermRestoreCursor (s : TermState) : TermState :=
  s.ktermMoveCursor fb s.esc.savedCursorX s.esc.savedCursorY

/-- The loop over `start <= x <= end`, `x < cols` of the two clearing functions. -/
def clearSpan (s : TermState) (row start stop : UInt64) : TermState :=
  if s.cols ≤ start then s
  else if stop < start then s
  else s.clearCells fb row start (if s.cols ≤ stop then s.cols - 1 else stop)

def ktermClearLine (s : TermState) (mode : Int32) : TermState :=
  let s := s.ensureInit fb
  let row := s.ringRow s.charCursorY
  let start := if mode = 0 then s.charCursorX else 0
  let stop := if mode = 1 then s.charCursorX else if s.cols = 0 then 0 else s.cols - 1
  let s := (s.clearSpan fb row start stop).renderScreen
  s.ktermRenderCursor s.charCursorX s.charCursorY

/-- One round of the loop of `kterm_clear_screen`. -/
def clearScreenLine (mode : Int32) (s : TermState) (y : UInt64) : TermState :=
  let last := if s.cols = 0 then 0 else s.cols - 1
  if (mode = 0 ∧ y < s.charCursorY) ∨ (mode = 1 ∧ s.charCursorY < y) then s
  else
    s.clearSpan fb (s.ringRow y) (if mode = 0 ∧ y = s.charCursorY then s.charCursorX else 0)
      (if mode = 1 ∧ y = s.charCursorY then s.charCursorX else last)

def ktermClearScreen (s : TermState) (mode : Int32) : TermState :=
  let s := s.ensureInit fb
  if mode = 2 ∨ mode = 3 then s.ktermCls fb
  else
    let s := (List.range s.rows.toNat).foldl (fun s y => s.clearScreenLine fb mode (UInt64.ofNat y)) s
    let s := s.renderScreen
    s.ktermRenderCursor s.charCursorX s.charCursorY

/-! ## Escape sequences -/

/-- Sets the foreground or the background. -/
def setColor (s : TermState) (isFg : Bool) (rgb : UInt32) : TermState :=
  if isFg then s.ktermSetFg fb rgb else s.ktermSetBg fb rgb

/-- The branches of `term_apply_sgr` for a parameter that stands alone. -/
def sgrSimple (s : TermState) (p : Int32) : TermState :=
  if p = 0 then s.resetTerminalAttributes fb
  else if p = 1 then { s with esc := { s.esc with bright := true } }
  else if p = 22 then { s with esc := { s.esc with bright := false } }
  else if p = 7 then (s.ktermSetFg fb (s.cellBgRgb fb)).ktermSetBg fb (s.cellFgRgb fb)
  else if p = 27 then s.resetTerminalAttributes fb
  else if p = 39 then s.ktermSetFg fb defaultFgRgb
  else if p = 49 then s.ktermSetBg fb defaultBgRgb
  else if 30 ≤ p ∧ p ≤ 37 then s.ktermSetFg fb (ansiBasicToRgb (p - 30) s.esc.bright)
  else if 40 ≤ p ∧ p ≤ 47 then s.ktermSetBg fb (ansiBasicToRgb (p - 40) false)
  else if 90 ≤ p ∧ p ≤ 97 then s.ktermSetFg fb (ansiBasicToRgb (p - 90) true)
  else if 100 ≤ p ∧ p ≤ 107 then s.ktermSetBg fb (ansiBasicToRgb (p - 100) true)
  else s

/-- The branch of `term_apply_sgr` for a colour given by the parameters after `i`. -/
def sgrExtended (s : TermState) (i : Nat) : Nat × List Nat × TermState :=
  let isFg : Bool := s.esc.params i = 38
  let mode := s.esc.params (i + 1)
  if mode = 5 ∧ (i : Int) + 2 < s.esc.paramCount then
    (i + 2, [i, i + 1, i + 2], s.setColor fb isFg (fb.ansi256ToRgb (s.esc.params (i + 2))))
  else if mode = 2 ∧ (i : Int) + 4 < s.esc.paramCount then
    let part (j : Nat) : UInt32 := (s.esc.params j).toUInt32 &&& 0xFF
    (i + 4, [i, i + 1, i + 2, i + 3, i + 4],
      s.setColor fb isFg (fb.pixel (part (i + 2)) (part (i + 3)) (part (i + 4))))
  else (i + 1, [i, i + 1], s)

/-- One round of the loop of `term_apply_sgr` at index `i`: the index of the last parameter it read,
the indices it read, and the state. -/
def sgrRound (s : TermState) (i : Nat) : Nat × List Nat × TermState :=
  let p := s.esc.params i
  if (p = 38 ∨ p = 48) ∧ (i : Int) + 1 < s.esc.paramCount then s.sgrExtended fb i
  else (i, [i], s.sgrSimple fb p)

/-- The loop of `term_apply_sgr`, with the indices it reads. Every round moves on by one at least, so
as many rounds as there are parameters are enough. -/
def sgrLoop : Nat → Nat → TermState → List Nat × TermState
  | 0, _, s => ([], s)
  | rounds + 1, i, s =>
    if (i : Int) < s.esc.paramCount then
      let (j, reads, s) := s.sgrRound fb i
      let (reads', s) := sgrLoop rounds (j + 1) s
      (reads ++ reads', s)
    else ([], s)

/-- `term_apply_sgr`, with the indices of `params` it reads. -/
def applySgr (s : TermState) : List Nat × TermState :=
  if s.esc.paramCount = 0 then ([], s.resetTerminalAttributes fb)
  else s.sgrLoop fb s.esc.paramCount.toNat 0

def termApplySgr (s : TermState) : TermState := (s.applySgr fb).2

def sgrReads (s : TermState) : List Nat := (s.applySgr fb).1

/-- The last two commands of `term_execute_csi`. -/
def setCursorVisible (s : TermState) (p0 : Int32) (b : Bool) : TermState :=
  if s.esc.privateMode ∧ p0 = 25 then
    let s := { s with esc := { s.esc with cursorVisible := b } }
    s.ktermRenderCursor s.charCursorX s.charCursorY
  else s

def termExecuteCsi (s : TermState) (cmd : UInt8) : TermState :=
  let p0 := if 0 < s.esc.paramCount then s.esc.params 0 else 0
  let p1 := if 1 < s.esc.paramCount then s.esc.params 1 else 0
  let n : UInt64 := if 0 < p0 then p0.toInt64.toUInt64 else 1
  let x := s.charCursorX
  let y := s.charCursorY
  let from1 (p : Int32) : UInt64 := if 0 < p then (p - 1).toInt64.toUInt64 else 0
  if cmd = 65 then s.ktermMoveCursor fb x (if n < y then y - n else 0)                      -- A
  else if cmd = 66 then s.ktermMoveCursor fb x (y + n)                                      -- B
  else if cmd = 67 then s.ktermMoveCursor fb (x + n) y                                      -- C
  else if cmd = 68 then s.ktermMoveCursor fb (if n < x then x - n else 0) y                 -- D
  else if cmd = 69 then s.ktermMoveCursor fb 0 (y + n)                                      -- E
  else if cmd = 70 then s.ktermMoveCursor fb 0 (if n < y then y - n else 0)                 -- F
  else if cmd = 71 then s.ktermMoveCursor fb (from1 p0) y                                   -- G
  else if cmd = 72 ∨ cmd = 102 then s.ktermMoveCursor fb (from1 p1) (from1 p0)              -- H, f
  else if cmd = 74 then s.ktermClearScreen fb p0                                            -- J
  else if cmd = 75 then s.ktermClearLine fb p0                                              -- K
  else if cmd = 109 then s.termApplySgr fb                                                  -- m
  else if cmd = 115 then s.ktermSaveCursor                                                  -- s
  else if cmd = 117 then s.ktermRestoreCursor fb                                            -- u
  else if cmd = 104 then s.setCursorVisible p0 true                                                    -- h
  else if cmd = 108 then s.setCursorVisible p0 false                                                   -- l
  else s

/-- A digit of a parameter. -/
def escapeDigit (e : EscapeCtx) (c : UInt8) : EscapeCtx :=
  let e :=
    if !e.currentParamActive ∧ e.paramCount < termEscParamsMax then
      { e with
        currentParamActive := true
        params := update e.params e.paramCount.toNat 0
        paramCount := e.paramCount + 1 }
    else e
  if 0 < e.paramCount then
    let last := (e.paramCount - 1).toNat
    { e with params := update e.params last (e.params last * 10 + (c - 48).toUInt32.toInt32) }
  else e

/-- The semicolon after a parameter. -/
def escapeSeparator (e : EscapeCtx) : EscapeCtx :=
  let e :=
    if !e.currentParamActive ∧ e.paramCount < termEscParamsMax then
      { e with params := update e.params e.paramCount.toNat 0, paramCount := e.paramCount + 1 }
    else e
  { e with currentParamActive := false }

def termHandleEscape (s : TermState) (c : UInt8) : TermState :=
  match s.esc.state with
  | .seen =>
    if c = 91 then
      { s with esc := { s.esc with
          state := .csi, paramCount := 0, currentParamActive := false, privateMode := false
          params := fun _ => 0 } }
    else s.resetEscapeState
  | .csi =>
    if c = 63 then { s with esc := { s.esc with privateMode := true } }
    else if 48 ≤ c ∧ c ≤ 57 then { s with esc := escapeDigit s.esc c }
    else if c = 59 then { s with esc := escapeSeparator s.esc }
    else
      let s := if 0x40 ≤ c ∧ c ≤ 0x7E then s.termExecuteCsi fb c else s
      s.resetEscapeState
  | .none => s.resetEscapeState

/-! ## Bytes -/

/-- The end of `term_raw_putc`: the cursor wraps at the end of a line and scrolls at the last one. -/
def wrapCursor (s : TermState) : TermState :=
  let s :=
    if s.cols ≤ s.charCursorX then { s with charCursorX := 0, charCursorY := s.charCursorY + 1 } else s
  let s :=
    if s.rows ≤ s.charCursorY then { s with charCursorY := s.rows - 1 }.scrollUpByOne fb else s
  s.ktermRenderCursor s.charCursorX s.charCursorY

/-- The last branch of `term_raw_putc`. -/
def putGlyph (s : TermState) (c : UInt8) : TermState :=
  let i := place (s.ringRow s.charCursorY) s.charCursorX
  let cell : TerminalCell := ⟨c, s.cellFgRgb fb, s.cellBgRgb fb⟩
  let s := { s with screenBuffer := update s.screenBuffer i cell }
  let s := s.drawCharAt s.charCursorX s.charCursorY cell
  { s with charCursorX := s.charCursorX + 1 }

def backspace (s : TermState) : TermState :=
  if 0 < s.charCursorX then
    let s := { s with charCursorX := s.charCursorX - 1 }
    let row := s.ringRow s.charCursorY
    let s := s.clearCells fb row s.charCursorX s.charCursorX
    s.drawCharAt s.charCursorX s.charCursorY (s.screenBuffer (place row s.charCursorX))
  else s

def termRawPutc (s : TermState) (c : UInt8) : TermState :=
  if c = 10 then
    wrapCursor fb { s with charCursorX := 0, charCursorY := s.charCursorY + 1 }
  else if c = 13 then wrapCursor fb { s with charCursorX := 0 }
  else if c = 8 then wrapCursor fb (s.backspace fb)
  else if c = 9 then
    -- Four calls with a space, each of which ends in the branch below.
    (List.range 4).foldl (fun s _ => wrapCursor fb (s.putGlyph fb 32)) s
  else wrapCursor fb (s.putGlyph fb c)

def ktermPutc (s : TermState) (c : UInt8) : TermState :=
  let s := s.ensureInit fb
  if s.esc.state ≠ .none then s.termHandleEscape fb c
  else if c = 27 then { s with esc := { s.esc with state := .seen } }
  else s.termRawPutc fb c

/-- `kterm_puts` of the bytes before the NUL. -/
def ktermPuts (s : TermState) (str : List UInt8) : TermState :=
  str.foldl (fun s c => s.ktermPutc fb c) (s.ensureInit fb)

/-! ## Sequences of calls -/

/-- The variables before the first call. -/
def powerOn : TermState where
  charCursorX := 0
  charCursorY := 0
  oldCursorX := 0
  oldCursorY := 0
  rows := 0
  cols := 0
  framebuffer := false
  init := false
  bgColor := ⟨0x00, 0x00, 0x00⟩
  fgColor := ⟨0xFF, 0xFF, 0xFF⟩
  screenBuffer _ := ⟨0, 0, 0⟩
  scrollBase := 0
  esc := ⟨.none, fun _ => 0, 0, false, false, false, true, 0, 0⟩
  picture _ _ := none

end TermState

inductive TermCall where
  | putc (c : UInt8)
  | moveCursor (x y : UInt64)
  | saveCursor
  | restoreCursor
  | clearLine (mode : Int32)
  | clearScreen (mode : Int32)
  | cls
  deriving DecidableEq, Repr

def TermState.call (fb : Display) (s : TermState) : TermCall → TermState
  | .putc c => s.ktermPutc fb c
  | .moveCursor x y => s.ktermMoveCursor fb x y
  | .saveCursor => s.ktermSaveCursor
  | .restoreCursor => s.ktermRestoreCursor fb
  | .clearLine mode => s.ktermClearLine fb mode
  | .clearScreen mode => s.ktermClearScreen fb mode
  | .cls => s.ktermCls fb

def TermState.calls (fb : Display) (s : TermState) (ops : List TermCall) : TermState :=
  ops.foldl (TermState.call fb) s

end Lapis.Kterm
