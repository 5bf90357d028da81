/-
Lapis.Kterm.TerminalTheorems — the cursor stays on the screen.

`Core` is what the bounds speak about: the cursor, the geometry, the base of the ring and the number of
parameters. Drawing, clearing cells and choosing colours leave it alone (the `core_` lemmas), so each
call is one small fact about the core: a move clamps, a character advances by one and wraps, a byte of
an escape sequence adds at most one parameter while there is room. `terminal_invariant` is the result on
sequences of calls; the indices `term_apply_sgr` reads are bounded by its loop condition alone
(`sgrReads_lt`).
-/
import Lapis.Kterm.Terminal

namespace Lapis.Kterm

open Function List

/-- The part of the state the bounds are about. -/
structure Core where
  x : UInt64
  y : UInt64
  rows : UInt64
  cols : UInt64
  init : Bool
  scrollBase : UInt64
  paramCount : Int

/-- The bounds, for the geometry of the display. -/
structure Core.Ok (fb : Display) (c : Core) : Prop where
  x : c.x < fb.cols
  y : c.y < fb.rows
  scrollBase : c.scrollBase < maxRows
  nonneg : 0 ≤ c.paramCount
  count : c.paramCount ≤ termEscParamsMax
  geometry : c.init = true → c.rows = fb.rows ∧ c.cols = fb.cols

namespace TermState

variable {fb : Display} {s : TermState}

def core (s : TermState) : Core :=
  ⟨s.charCursorX, s.charCursorY, s.rows, s.cols, s.init, s.scrollBase, s.esc.paramCount⟩

/-! ## What leaves the core alone -/

@[simp] theorem core_renderScreen : s.renderScreen.core = s.core := rfl

@[simp] theorem core_clearSpan (row start stop : UInt64) : (s.clearSpan fb row start stop).core = s.core := by
  unfold clearSpan
  split
  · rfl
  · split <;> rfl

@[simp] theorem core_ktermRenderCursor (x y : UInt64) : (s.ktermRenderCursor x y).core = s.core := by
  unfold ktermRenderCursor
  split
  · rfl
  · split <;> rfl

@[simp] theorem core_clearScreenLine (mode : Int32) (y : UInt64) :
    (s.clearScreenLine fb mode y).core = s.core := by
  unfold clearScreenLine
  dsimp only
  split
  · rfl
  · exact core_clearSpan ..

theorem core_clearScreenLines (mode : Int32) (lines : List Nat) :
    (lines.foldl (fun s y => s.clearScreenLine fb mode (UInt64.ofNat y)) s).core = s.core := by
  induction lines generalizing s with
  | nil => rfl
  | cons y lines ih => rw [foldl_cons, ih, core_clearScreenLine]

/-! ## Attributes -/

/-- The state without the attributes of the text. -/
def plain (s : TermState) : TermState :=
  { s with
    framebuffer := true, bgColor := ⟨0, 0, 0⟩, fgColor := ⟨0, 0, 0⟩, esc := { s.esc with bright := false } }

theorem plain_setColor (isFg : Bool) (rgb : UInt32) : (s.setColor fb isFg rgb).plain = s.plain := by
  unfold setColor
  split <;> rfl

theorem core_setCursorVisible (p0 : Int32) (b : Bool) : (s.setCursorVisible p0 b).core = s.core := by
  unfold setCursorVisible
  split
  · exact core_ktermRenderCursor ..
  · rfl

theorem plain_ite {c : Prop} [Decidable c] {a b : TermState} (ha : a.plain = s.plain)
    (hb : b.plain = s.plain) : (if c then a else b).plain = s.plain := by
  split
  · exact ha
  · exact hb

theorem plain_sgrSimple (p : Int32) : (s.sgrSimple fb p).plain = s.plain := by
  unfold sgrSimple
  exact plain_ite rfl <| plain_ite rfl <| plain_ite rfl <| plain_ite rfl <| plain_ite rfl <|
    plain_ite rfl <| plain_ite rfl <| plain_ite rfl <| plain_ite rfl <| plain_ite rfl <| plain_ite rfl rfl

/-- A round of `term_apply_sgr` reads below the count and does not go back. -/
theorem sgrRound_spec (fb : Display) {i : Nat} (hi : (i : Int) < s.esc.paramCount) :
    i ≤ (s.sgrRound fb i).1 ∧ (∀ j ∈ (s.sgrRound fb i).2.1, (j : Int) < s.esc.paramCount) ∧
      (s.sgrRound fb i).2.2.plain = s.plain := by
  unfold sgrRound
  dsimp only
  split
  · rename_i hext
    unfold sgrExtended
    dsimp only
    split
    · refine ⟨by omega, fun j hj => ?_, plain_setColor ..⟩
      simp only [mem_cons, not_mem_nil, or_false] at hj
      omega
    split
    · refine ⟨by omega, fun j hj => ?_, plain_setColor ..⟩
      simp only [mem_cons, not_mem_nil, or_false] at hj
      omega
    · refine ⟨by omega, fun j hj => ?_, rfl⟩
      simp only [mem_cons, not_mem_nil, or_false] at hj
      omega
  · refine ⟨Nat.le_refl i, fun j hj => ?_, plain_sgrSimple _⟩
    rwa [mem_singleton.mp hj]

theorem paramCount_eq {t : TermState} (h : t.plain = s.plain) : t.esc.paramCount = s.esc.paramCount :=
  congrArg (fun s => s.esc.paramCount) h

theorem sgrLoop_spec (rounds i : Nat) : (∀ j ∈ (s.sgrLoop fb rounds i).1, (j : Int) < s.esc.paramCount) ∧
      (s.sgrLoop fb rounds i).2.plain = s.plain := by
  induction rounds generalizing i s with
  | zero => exact ⟨fun j hj => absurd hj not_mem_nil, rfl⟩
  | succ rounds ih =>
    unfold sgrLoop
    by_cases hi : (i : Int) < s.esc.paramCount
    · obtain ⟨-, hreads, hplain⟩ := sgrRound_spec fb hi
      obtain ⟨hreads', hplain'⟩ := ih (s := (s.sgrRound fb i).2.2) ((s.sgrRound fb i).1 + 1)
      rw [if_pos hi]
      rw [paramCount_eq hplain] at hreads'
      refine ⟨fun j hj => ?_, hplain'.trans hplain⟩
      rcases mem_append.mp hj with hj | hj
      · exact hreads j hj
      · exact hreads' j hj
    · rw [if_neg hi]
      exact ⟨fun j hj => absurd hj not_mem_nil, rfl⟩

/-- `term_apply_sgr` reads only parameters there are. -/
theorem sgrReads_lt (fb : Display) (s : TermState) : ∀ j ∈ s.sgrReads fb, (j : Int) < s.esc.paramCount := by
  unfold sgrReads applySgr
  split
  · exact fun j hj => absurd hj not_mem_nil
  · exact (sgrLoop_spec _ _).1

theorem plain_termApplySgr : (s.termApplySgr fb).plain = s.plain := by
  unfold termApplySgr applySgr
  split
  · rfl
  · exact (sgrLoop_spec _ _).2

/-! ## Starting, moving, clearing -/

theorem ok_ite {c : Prop} [Decidable c] {a b : TermState} (ha : a.core.Ok fb) (hb : b.core.Ok fb) :
    (if c then a else b).core.Ok fb := by
  split
  · exact ha
  · exact hb

theorem zero_le_paramsMax : 0 ≤ termEscParamsMax := by decide

theorem zero_lt_maxRows : 0 < maxRows := by decide

theorem ok_resetEscapeState (h : s.core.Ok fb) : s.resetEscapeState.core.Ok fb :=
  ⟨h.x, h.y, h.scrollBase, Int.le_refl 0, zero_le_paramsMax, h.geometry⟩

/-- A coordinate that is clamped to a size that is not zero lies below it. -/
theorem clamp_lt {v size : UInt64} (hsize : 1 ≤ size) :
    (if size ≤ v then (if size = 0 then 0 else size - 1) else v) < size := by
  have hpos : size ≠ 0 := fun hc => absurd (hc ▸ hsize) (by decide)
  by_cases hv : size ≤ v
  · rw [if_pos hv, if_neg hpos, UInt64.lt_iff_toNat_lt, UInt64.toNat_sub_of_le _ _ hsize]
    have := UInt64.le_iff_toNat_le.mp hsize
    rw [show (1 : UInt64).toNat = 1 from rfl] at this ⊢
    omega
  · rw [if_neg hv]
    exact UInt64.not_le.mp hv

theorem paramCount_escapeDigit (e : EscapeCtx) (c : UInt8) : (escapeDigit e c).paramCount =
    if (!e.currentParamActive) = true ∧ e.paramCount < termEscParamsMax then e.paramCount + 1
    else e.paramCount := by
  unfold escapeDigit
  by_cases hroom : (!e.currentParamActive) = true ∧ e.paramCount < termEscParamsMax
  · rw [if_pos hroom, if_pos hroom]
    dsimp only
    split <;> rfl
  · rw [if_neg hroom, if_neg hroom]
    dsimp only
    split <;> rfl

theorem paramCount_escapeSeparator (e : EscapeCtx) : (escapeSeparator e).paramCount =
    if (!e.currentParamActive) = true ∧ e.paramCount < termEscParamsMax then e.paramCount + 1
    else e.paramCount := by
  unfold escapeSeparator
  split <;> rfl

/-- There is room for another parameter only below the limit. -/
theorem count_succ {n : Int} (h0 : 0 ≤ n) (h : n ≤ termEscParamsMax) (active : Prop) [Decidable active] :
    0 ≤ (if active ∧ n < termEscParamsMax then n + 1 else n) ∧
      (if active ∧ n < termEscParamsMax then n + 1 else n) ≤ termEscParamsMax := by
  split
  · exact ⟨by omega, by omega⟩
  · exact ⟨h0, h⟩

theorem ok_setEsc (h : s.core.Ok fb) {e : EscapeCtx}
    (he : 0 ≤ e.paramCount ∧ e.paramCount ≤ termEscParamsMax) : ({ s with esc := e }).core.Ok fb :=
  ⟨h.x, h.y, h.scrollBase, he.1, he.2, h.geometry⟩

theorem init_wrapCursor : (s.wrapCursor fb).init = s.init := by
  unfold wrapCursor
  rw [show ∀ (t : TermState) (x y : UInt64), (t.ktermRenderCursor x y).init = t.init from
    fun t x y => congrArg Core.init (core_ktermRenderCursor (s := t) x y)]
  split <;> split <;> rfl

section Geometry

variable (hrows : 1 ≤ fb.rows) (hcols : 1 ≤ fb.cols)

include hrows hcols

theorem ok_origin (h : s.init = true → s.rows = fb.rows ∧ s.cols = fb.cols) :
    Core.Ok fb ⟨0, 0, s.rows, s.cols, s.init, 0, 0⟩ := by
  have hx : (0 : UInt64) < fb.cols := UInt64.lt_of_lt_of_le (by decide) hcols
  have hy : (0 : UInt64) < fb.rows := UInt64.lt_of_lt_of_le (by decide) hrows
  exact ⟨hx, hy, zero_lt_maxRows, Int.le_refl 0, zero_le_paramsMax, h⟩

theorem ok_ktermCls (h : s.core.Ok fb) : (s.ktermCls fb).core.Ok fb := by
  unfold ktermCls
  split
  · exact h
  · rw [core_ktermRenderCursor, core_renderScreen]
    exact ok_origin hrows hcols h.geometry

/-- After `kterm_init` the geometry is that of the display, and the cursor is at the origin. -/
theorem ok_ktermInit : (s.ktermInit fb).core.Ok fb ∧ (s.ktermInit fb).init = true := by
  refine ⟨?_, rfl⟩
  have hcls : ∀ t : TermState, t.framebuffer = true →
      (t.ktermCls fb).core = ⟨0, 0, t.rows, t.cols, t.init, 0, 0⟩ := by
    intro t ht
    unfold ktermCls
    rw [ht]
    exact core_ktermRenderCursor ..
  have hcore : (s.ktermInit fb).core = { (ktermCls fb (resetTerminalAttributes fb
      { s with framebuffer := true, rows := fb.rows, cols := fb.cols })).core with init := true } := rfl
  rw [hcore, hcls _ rfl]
  exact ok_origin (s := { s with rows := fb.rows, cols := fb.cols, init := true }) hrows hcols
    fun _ => ⟨rfl, rfl⟩

theorem ok_ensureInit (h : s.core.Ok fb) : (s.ensureInit fb).core.Ok fb ∧ (s.ensureInit fb).init = true := by
  unfold ensureInit
  split
  · exact ⟨h, ‹_›⟩
  · exact ok_ktermInit hrows hcols

theorem ok_ktermMoveCursor (h : s.core.Ok fb) (x y : UInt64) : (s.ktermMoveCursor fb x y).core.Ok fb := by
  unfold ktermMoveCursor
  obtain ⟨hok, hinit⟩ := ok_ensureInit hrows hcols h
  rw [core_ktermRenderCursor]
  obtain ⟨hr, hc⟩ := hok.geometry hinit
  refine ⟨?_, ?_, hok.scrollBase, hok.nonneg, hok.count, hok.geometry⟩
  · rw [show (s.ensureInit fb).cols = fb.cols from hc]
    exact clamp_lt hcols
  · rw [show (s.ensureInit fb).rows = fb.rows from hr]
    exact clamp_lt hrows

theorem ok_ktermClearLine (h : s.core.Ok fb) (mode : Int32) : (s.ktermClearLine fb mode).core.Ok fb := by
  unfold ktermClearLine
  rw [core_ktermRenderCursor, core_renderScreen, core_clearSpan]
  exact (ok_ensureInit hrows hcols h).1

theorem ok_ktermClearScreen (h : s.core.Ok fb) (mode : Int32) : (s.ktermClearScreen fb mode).core.Ok fb := by
  unfold ktermClearScreen
  have hok := (ok_ensureInit hrows hcols h).1
  split
  · exact ok_ktermCls hrows hcols hok
  · rwa [core_ktermRenderCursor, core_renderScreen, core_clearScreenLines]

/-! ## Bytes -/

theorem ok_termExecuteCsi (h : s.core.Ok fb) (cmd : UInt8) : (s.termExecuteCsi fb cmd).core.Ok fb := by
  have hmove := ok_ktermMoveCursor hrows hcols h
  have hshow : ∀ p0 b, (s.setCursorVisible p0 b).core.Ok fb := fun p0 b =>
    core_setCursorVisible (s := s) p0 b ▸ h
  have hplain : (s.termApplySgr fb).core = s.core := by
    have hsgr := congrArg core (@plain_termApplySgr fb s)
    exact hsgr
  unfold termExecuteCsi
  exact ok_ite (hmove _ _) <| ok_ite (hmove _ _) <| ok_ite (hmove _ _) <| ok_ite (hmove _ _) <|
    ok_ite (hmove _ _) <| ok_ite (hmove _ _) <| ok_ite (hmove _ _) <| ok_ite (hmove _ _) <|
    ok_ite (ok_ktermClearScreen hrows hcols h _) <| ok_ite (ok_ktermClearLine hrows hcols h _) <|
    ok_ite (hplain ▸ h) <| ok_ite h <| ok_ite (hmove _ _) <|
    ok_ite (hshow _ _) <| ok_ite (hshow _ _) h

theorem ok_termHandleEscape (h : s.core.Ok fb) (c : UInt8) : (s.termHandleEscape fb c).core.Ok fb := by
  unfold termHandleEscape
  cases s.esc.state with
  | none => exact ok_resetEscapeState h
  | seen =>
    exact ok_ite (ok_setEsc h ⟨Int.le_refl 0, zero_le_paramsMax⟩) (ok_resetEscapeState h)
  | csi =>
    refine ok_ite (ok_setEsc h ⟨h.nonneg, h.count⟩) <|
      ok_ite (ok_setEsc h (paramCount_escapeDigit s.esc c ▸ count_succ h.nonneg h.count _)) <|
      ok_ite (ok_setEsc h (paramCount_escapeSeparator s.esc ▸ count_succ h.nonneg h.count _)) ?_
    exact ok_resetEscapeState (ok_ite (ok_termExecuteCsi hrows hcols h c) h)

/-- Wherever the cursor stands, the end of `term_raw_putc` brings it back to the screen. -/
theorem ok_wrapCursor (hr : s.rows = fb.rows) (hc : s.cols = fb.cols) (hbase : s.scrollBase < maxRows)
    (h0 : 0 ≤ s.esc.paramCount) (hcount : s.esc.paramCount ≤ termEscParamsMax) :
    (s.wrapCursor fb).core.Ok fb := by
  have hlast : fb.rows - 1 < fb.rows := by
    rw [UInt64.lt_iff_toNat_lt, UInt64.toNat_sub_of_le _ _ hrows]
    have := UInt64.le_iff_toNat_le.mp hrows
    rw [show (1 : UInt64).toNat = 1 from rfl] at this ⊢
    omega
  have hzero : (0 : UInt64) < fb.cols := UInt64.lt_of_lt_of_le (by decide) hcols
  have hbottom : ∀ t : TermState, t.rows = fb.rows → t.cols = fb.cols → t.charCursorX < fb.cols →
      t.scrollBase < maxRows → 0 ≤ t.esc.paramCount → t.esc.paramCount ≤ termEscParamsMax →
      (if t.rows ≤ t.charCursorY then scrollUpByOne fb { t with charCursorY := t.rows - 1 }
        else t).core.Ok fb := by
    intro t hr hc hx hbase h0 hcount
    by_cases hy : t.rows ≤ t.charCursorY
    · rw [if_pos hy]
      exact ⟨hx, show t.rows - 1 < fb.rows from hr ▸ hlast, UInt64.mod_lt _ zero_lt_maxRows, h0, hcount,
        fun _ => ⟨hr, hc⟩⟩
    · rw [if_neg hy]
      exact ⟨hx, hr ▸ UInt64.not_le.mp hy, hbase, h0, hcount, fun _ => ⟨hr, hc⟩⟩
  unfold wrapCursor
  rw [core_ktermRenderCursor]
  by_cases hend : s.cols ≤ s.charCursorX
  · rw [if_pos hend]
    exact hbottom _ hr hc hzero hbase h0 hcount
  · rw [if_neg hend]
    exact hbottom _ hr hc (hc ▸ UInt64.not_le.mp hend) hbase h0 hcount

/-- What `term_raw_putc` does before its end leaves all but the cursor alone. -/
theorem ok_wrapCursor_of_core (t : TermState) (h : s.core.Ok fb) (hinit : s.init = true)
    (ht : t.core = { s.core with x := t.charCursorX, y := t.charCursorY }) :
    (t.wrapCursor fb).core.Ok fb ∧ (t.wrapCursor fb).init = true := by
  obtain ⟨hr, hc⟩ := h.geometry hinit
  refine ⟨ok_wrapCursor hrows hcols ?_ ?_ ?_ ?_ ?_, ?_⟩
  · exact (congrArg Core.rows ht).trans hr
  · exact (congrArg Core.cols ht).trans hc
  · rw [show t.scrollBase = s.scrollBase from congrArg Core.scrollBase ht]
    exact h.scrollBase
  · rw [show t.esc.paramCount = s.esc.paramCount from congrArg Core.paramCount ht]
    exact h.nonneg
  · rw [show t.esc.paramCount = s.esc.paramCount from congrArg Core.paramCount ht]
    exact h.count
  · rw [init_wrapCursor]
    exact (congrArg Core.init ht).trans hinit

theorem ok_putGlyph (h : s.core.Ok fb) (hinit : s.init = true) (c : UInt8) :
    ((s.putGlyph fb c).wrapCursor fb).core.Ok fb ∧ ((s.putGlyph fb c).wrapCursor fb).init = true :=
  ok_wrapCursor_of_core hrows hcols _ h hinit rfl

theorem ok_tab (n : List Nat) (h : s.core.Ok fb) (hinit : s.init = true) :
    (n.foldl (fun s _ => (s.putGlyph fb 32).wrapCursor fb) s).core.Ok fb := by
  induction n generalizing s with
  | nil => exact h
  | cons _ n ih =>
    obtain ⟨hok, hinit⟩ := ok_putGlyph hrows hcols h hinit 32
    exact ih hok hinit

theorem ok_termRawPutc (h : s.core.Ok fb) (hinit : s.init = true) (c : UInt8) :
    (s.termRawPutc fb c).core.Ok fb := by
  have hwrap := fun t ht => (ok_wrapCursor_of_core hrows hcols t h hinit ht).1
  unfold termRawPutc
  refine ok_ite (hwrap _ ?newline) <| ok_ite (hwrap _ ?carriage) <| ok_ite (hwrap _ ?backspace) <|
    ok_ite (ok_tab hrows hcols _ h hinit) (ok_putGlyph hrows hcols h hinit c).1
  case newline => rfl
  case carriage => rfl
  case backspace =>
    unfold backspace
    split <;> rfl

theorem ok_ktermPutc (h : s.core.Ok fb) (c : UInt8) : (s.ktermPutc fb c).core.Ok fb := by
  obtain ⟨hok, hinit⟩ := ok_ensureInit hrows hcols h
  unfold ktermPutc
  exact ok_ite (ok_termHandleEscape hrows hcols hok c) <|
    ok_ite (ok_setEsc hok ⟨hok.nonneg, hok.count⟩) (ok_termRawPutc hrows hcols hok hinit c)

/-! ## Sequences of calls -/

theorem ok_call (h : s.core.Ok fb) (op : TermCall) : (s.call fb op).core.Ok fb := by
  cases op with
  | putc c => exact ok_ktermPutc hrows hcols h c
  | moveCursor x y => exact ok_ktermMoveCursor hrows hcols h x y
  | saveCursor => exact h
  | restoreCursor => exact ok_ktermMoveCursor hrows hcols h _ _
  | clearLine mode => exact ok_ktermClearLine hrows hcols h mode
  | clearScreen mode => exact ok_ktermClearScreen hrows hcols h mode
  | cls => exact ok_ktermCls hrows hcols h

theorem ok_calls (h : s.core.Ok fb) (ops : List TermCall) : (s.calls fb ops).core.Ok fb := by
  induction ops generalizing s with
  | nil => exact h
  | cons op ops ih => exact ih (ok_call hrows hcols h op)

end Geometry

/-- A display of 1024 by 768 pixels with a font of 16 lines. -/
def vga : Display := ⟨1024, 768, 16, 8, 0, 16⟩

end TermState

end Lapis.Kterm
