/-
Lapis.Kterm.PictureTheorems — drawing single cells agrees with drawing the whole screen.

`Synced` says that `render_screen` would draw what is on the screen already. It holds after every
`render_screen`; a character and a backspace write one cell and draw it at its place, which no other
place of the screen shares as long as the screen fits the ring; everything else draws what is there.
-/
import Lapis.Kterm.TerminalTheorems

namespace Lapis.Kterm.TermState

open Function

variable {fb : Display} {s t : TermState}

/-- Calling `render_screen` changes nothing. -/
def Synced (s : TermState) : Prop := s.renderScreen.picture = s.picture

/-- What `render_screen` draws at a place. -/
def cellAt (s : TermState) (x y : UInt64) : TerminalCell := shown (s.screenBuffer (place (s.ringRow y) x))

theorem synced_iff : s.Synced ↔
    ∀ x y, x < s.cols → y < s.rows → s.picture x.toNat y.toNat = some (s.cellAt x y) := by
  constructor
  · intro h x y hx hy
    rw [UInt64.lt_iff_toNat_lt] at hx hy
    rw [← h]
    simp [renderScreen, hx, hy, cellAt]
  · intro h
    funext x y
    simp only [renderScreen]
    split
    · case _ hxy =>
      have hx := UInt64.toNat_ofNat_of_lt' (Nat.lt_trans hxy.2 s.cols.toNat_lt)
      have hy := UInt64.toNat_ofNat_of_lt' (Nat.lt_trans hxy.1 s.rows.toNat_lt)
      have hcell := h (UInt64.ofNat x) (UInt64.ofNat y) (UInt64.lt_iff_toNat_lt.mpr (hx.symm ▸ hxy.2))
        (UInt64.lt_iff_toNat_lt.mpr (hy.symm ▸ hxy.1))
      rw [hx, hy] at hcell
      exact hcell.symm
    · rfl

theorem synced_renderScreen (s : TermState) : s.renderScreen.Synced := by
  funext x y
  simp only [renderScreen]
  split <;> rfl

/-! ## One cell -/

/-- Two lines of a screen that fits the ring have two buffer rows. -/
theorem ringRow_inj {y z : UInt64} (hy : y < 256) (hz : z < 256) (h : s.ringRow y = s.ringRow z) : y = z := by
  have h256 : (256 : UInt64).toNat = 256 := rfl
  have hrow := congrArg UInt64.toNat h
  simp only [ringRow, maxRows, UInt64.toNat_mod, UInt64.toNat_add, h256] at hrow
  rw [UInt64.lt_iff_toNat_lt] at hy hz
  exact UInt64.toNat_inj.mp (by omega)

theorem place_inj {r r' c c' : UInt64} (hc : c < 256) (hc' : c' < 256) (h : place r c = place r' c') :
    r = r' ∧ c = c' := by
  have h256 : (256 : UInt64).toNat = 256 := rfl
  rw [UInt64.lt_iff_toNat_lt] at hc hc'
  simp only [place, maxCols] at h
  exact ⟨UInt64.toNat_inj.mp (by omega), UInt64.toNat_inj.mp (by omega)⟩

/-- A cell is written and drawn. -/
def poke (s : TermState) (x y : UInt64) (cell : TerminalCell) : TermState :=
  drawCharAt { s with screenBuffer := update s.screenBuffer (place (s.ringRow y) x) cell } x y cell

theorem picture_drawCharAt (x y x' y' : UInt64) (cell : TerminalCell) :
    (s.drawCharAt x y cell).picture x'.toNat y'.toNat =
      if x' = x ∧ y' = y then some cell else s.picture x'.toNat y'.toNat := by
  by_cases hx : x' = x
  · by_cases hy : y' = y
    · simp [drawCharAt, hx, hy]
    · simp [drawCharAt, hx, hy, mt UInt64.toNat_inj.mp hy]
  · simp [drawCharAt, hx, mt UInt64.toNat_inj.mp hx]

theorem synced_poke (h : s.Synced) (hrows : s.rows ≤ 256) (hcols : s.cols ≤ 256) {x y : UInt64}
    (hx : x < s.cols) (hy : y < s.rows) {cell : TerminalCell} (hch : cell.ch ≠ 0) :
    (s.poke x y cell).Synced := by
  rw [synced_iff] at h ⊢
  intro x' y' hx' hy'
  have hcell : (s.poke x y cell).cellAt x' y' =
      shown (update s.screenBuffer (place (s.ringRow y) x) cell (place (s.ringRow y') x')) := by
    simp only [cellAt, poke, drawCharAt, ringRow]
  rw [hcell, poke, picture_drawCharAt]
  split
  · case _ hsame =>
    have hshown : shown cell = cell := by simp [shown, hch]
    rw [hsame.1, hsame.2, update_self, hshown]
  · case _ hother =>
    have hplace : place (s.ringRow y') x' ≠ place (s.ringRow y) x := by
      intro hc
      obtain ⟨hrow, hcol⟩ := place_inj (UInt64.lt_of_lt_of_le hx' hcols) (UInt64.lt_of_lt_of_le hx hcols) hc
      exact hother ⟨hcol, ringRow_inj (UInt64.lt_of_lt_of_le hy' hrows) (UInt64.lt_of_lt_of_le hy hrows) hrow⟩
    rw [update_of_ne hplace]
    exact h x' y' hx' hy'

/-- A place is drawn with what it shows. -/
theorem synced_redraw (h : s.Synced) (x y : UInt64) : (s.drawCharAt x y (s.cellAt x y)).Synced := by
  rw [synced_iff] at h ⊢
  intro x' y' hx' hy'
  have hcell : (s.drawCharAt x y (s.cellAt x y)).cellAt x' y' = s.cellAt x' y' := by
    simp only [cellAt, drawCharAt, ringRow]
  rw [hcell, picture_drawCharAt]
  split
  · case _ hsame => rw [hsame.1, hsame.2]
  · exact h x' y' hx' hy'

/-! ## The calls -/

/-- What the picture and its redrawing depend on. -/
def screen (s : TermState) :
    UInt64 × UInt64 × UInt64 × (Nat → TerminalCell) × (Nat → Nat → Option TerminalCell) :=
  (s.rows, s.cols, s.scrollBase, s.screenBuffer, s.picture)

theorem Synced.of_screen (h : s.Synced) (ht : t.screen = s.screen) : t.Synced := by
  simp only [screen, Prod.mk.injEq] at ht
  obtain ⟨hrows, hcols, hbase, hbuffer, hpicture⟩ := ht
  simpa only [Synced, renderScreen, ringRow, hrows, hcols, hbase, hbuffer, hpicture] using h

theorem synced_ite {c : Prop} [Decidable c] (hs : s.Synced) (ht : t.Synced) : (if c then s else t).Synced := by
  split
  · exact hs
  · exact ht

/-- The cursor leaves its place as `render_screen` would draw it. -/
theorem synced_ktermRenderCursor (h : s.Synced) (x y : UInt64) : (s.ktermRenderCursor x y).Synced := by
  unfold ktermRenderCursor
  refine synced_ite h ?_
  dsimp only
  refine Synced.of_screen (s := if s.oldCursorX ≠ x ∨ s.oldCursorY ≠ y then
    s.drawCharAt s.oldCursorX s.oldCursorY (s.cellAt s.oldCursorX s.oldCursorY) else s) ?_ rfl
  exact synced_ite (synced_redraw h _ _) h

theorem synced_ktermCls (h : s.Synced) : (s.ktermCls fb).Synced := by
  unfold ktermCls
  exact synced_ite h (synced_ktermRenderCursor (synced_renderScreen _) _ _)

theorem synced_ktermInit : (s.ktermInit fb).Synced := by
  unfold ktermInit
  dsimp only
  generalize ktermCls fb _ = t
  exact (synced_renderScreen t).of_screen rfl

theorem synced_ensureInit (h : s.Synced) : (s.ensureInit fb).Synced := by
  unfold ensureInit
  exact synced_ite h synced_ktermInit

theorem synced_ktermMoveCursor (h : s.Synced) (x y : UInt64) : (s.ktermMoveCursor fb x y).Synced := by
  unfold ktermMoveCursor
  dsimp only
  refine synced_ktermRenderCursor ?_ _ _
  exact (synced_ensureInit h).of_screen rfl

theorem synced_wrapCursor (h : s.Synced) : (s.wrapCursor fb).Synced := by
  unfold wrapCursor scrollUpByOne
  dsimp only
  refine synced_ktermRenderCursor (synced_ite (synced_renderScreen _) (synced_ite ?_ h)) _ _
  exact h.of_screen rfl

theorem synced_termExecuteCsi (h : s.Synced) (cmd : UInt8) : (s.termExecuteCsi fb cmd).Synced := by
  have hmove := @synced_ktermMoveCursor fb s h
  have hshow : ∀ p0 b, (s.setCursorVisible p0 b).Synced := by
    intro p0 b
    unfold setCursorVisible
    dsimp only
    refine synced_ite (synced_ktermRenderCursor ?_ _ _) h
    exact h.of_screen rfl
  have hline : ∀ mode, (s.ktermClearLine fb mode).Synced := by
    intro mode
    unfold ktermClearLine
    exact synced_ktermRenderCursor (synced_renderScreen _) _ _
  have hscreen : ∀ mode, (s.ktermClearScreen fb mode).Synced := by
    intro mode
    unfold ktermClearScreen
    exact synced_ite (synced_ktermCls (synced_ensureInit h))
      (synced_ktermRenderCursor (synced_renderScreen _) _ _)
  have hsgr : (s.termApplySgr fb).screen = s.screen := by
    have hplain := congrArg screen (@plain_termApplySgr fb s)
    exact hplain
  unfold termExecuteCsi
  exact synced_ite (hmove _ _) <| synced_ite (hmove _ _) <| synced_ite (hmove _ _) <|
    synced_ite (hmove _ _) <| synced_ite (hmove _ _) <| synced_ite (hmove _ _) <|
    synced_ite (hmove _ _) <| synced_ite (hmove _ _) <| synced_ite (hscreen _) <|
    synced_ite (hline _) <| synced_ite (h.of_screen hsgr) <| synced_ite (h.of_screen rfl) <|
    synced_ite (hmove _ _) <| synced_ite (hshow _ _) <| synced_ite (hshow _ _) h

theorem synced_termHandleEscape (h : s.Synced) (c : UInt8) : (s.termHandleEscape fb c).Synced := by
  unfold termHandleEscape
  cases s.esc.state with
  | none => exact h.of_screen rfl
  | seen => exact synced_ite (h.of_screen rfl) (h.of_screen rfl)
  | csi =>
    exact synced_ite (h.of_screen rfl) <| synced_ite (h.of_screen rfl) <| synced_ite (h.of_screen rfl) <|
      (synced_ite (synced_termExecuteCsi h c) h).of_screen rfl

/-! ## Bytes -/

theorem clearCells_self (row x : UInt64) : s.clearCells fb row x x =
    { s with screenBuffer := update s.screenBuffer (place row x) (s.clearedCell fb) } := by
  unfold clearCells
  congr 1
  funext i
  rw [update_apply]
  exact if_congr ⟨fun h => Nat.le_antisymm h.2 h.1, fun h => by simp [h]⟩ rfl rfl

section Geometry

variable (hrows : 1 ≤ fb.rows) (hcols : 1 ≤ fb.cols) (hrows' : fb.rows ≤ 256) (hcols' : fb.cols ≤ 256)

include hrows' hcols'

theorem synced_putGlyph (h : s.Synced) (hok : s.core.Ok fb) (hinit : s.init = true) {c : UInt8} (hc : c ≠ 0) :
    (s.putGlyph fb c).Synced := by
  obtain ⟨hr, hl⟩ : s.rows = fb.rows ∧ s.cols = fb.cols := hok.geometry hinit
  have hpoke : (s.poke s.charCursorX s.charCursorY ⟨c, s.cellFgRgb fb, s.cellBgRgb fb⟩).Synced :=
    synced_poke h (hr ▸ hrows') (hl ▸ hcols') (hl ▸ hok.x) (hr ▸ hok.y) hc
  exact hpoke.of_screen rfl

theorem synced_backspace (h : s.Synced) (hok : s.core.Ok fb) (hinit : s.init = true) :
    (s.backspace fb).Synced := by
  obtain ⟨hr, hl⟩ : s.rows = fb.rows ∧ s.cols = fb.cols := hok.geometry hinit
  unfold backspace
  split
  · case _ hpos =>
    have hx : s.charCursorX - 1 < s.cols := by
      have hone : (1 : UInt64) ≤ s.charCursorX := UInt64.le_iff_toNat_le.mpr (UInt64.lt_iff_toNat_lt.mp hpos)
      have hcursor : s.charCursorX < s.cols := hl ▸ hok.x
      rw [UInt64.lt_iff_toNat_lt] at hcursor ⊢
      rw [UInt64.toNat_sub_of_le _ _ hone]
      omega
    have hpoke : (s.poke (s.charCursorX - 1) s.charCursorY (s.clearedCell fb)).Synced :=
      synced_poke h (hr ▸ hrows') (hl ▸ hcols') hx (hr ▸ hok.y) (by simp [clearedCell])
    dsimp only
    rw [clearCells_self]
    simp only [update_self]
    exact hpoke.of_screen rfl
  · exact h

include hrows hcols

theorem synced_tab (n : List Nat) (h : s.Synced) (hok : s.core.Ok fb) (hinit : s.init = true) :
    (n.foldl (fun s _ => (s.putGlyph fb 32).wrapCursor fb) s).Synced := by
  induction n generalizing s with
  | nil => exact h
  | cons _ n ih =>
    obtain ⟨hok', hinit'⟩ := ok_putGlyph hrows hcols hok hinit 32
    exact ih (synced_wrapCursor (synced_putGlyph hrows' hcols' h hok hinit (by decide))) hok' hinit'

theorem synced_ktermPutc (h : s.Synced) (hok : s.core.Ok fb) {c : UInt8} (hc : c ≠ 0) :
    (s.ktermPutc fb c).Synced := by
  obtain ⟨hok, hinit⟩ := ok_ensureInit hrows hcols hok
  replace h := @synced_ensureInit fb s h
  unfold ktermPutc termRawPutc
  refine synced_ite (synced_termHandleEscape h c) <| synced_ite (h.of_screen rfl) <|
    synced_ite (synced_wrapCursor ?_) <| synced_ite (synced_wrapCursor ?_) <|
    synced_ite (synced_wrapCursor (synced_backspace hrows' hcols' h hok hinit)) <|
    synced_ite (synced_tab hrows hcols hrows' hcols' _ h hok hinit)
      (synced_wrapCursor (synced_putGlyph hrows' hcols' h hok hinit hc))
  · exact h.of_screen rfl
  · exact h.of_screen rfl

/-- After `kterm_init` and any bytes but NUL, `render_screen` has nothing to draw. -/
theorem picture_is_rendered (s : TermState) {bytes : List UInt8} (hbytes : ∀ c ∈ bytes, c ≠ 0) :
    (bytes.foldl (fun s c => s.ktermPutc fb c) (s.ktermInit fb)).Synced := by
  have hputc : ∀ t : TermState, t.core.Ok fb → t.Synced →
      (bytes.foldl (fun s c => s.ktermPutc fb c) t).Synced := by
    induction bytes with
    | nil => exact fun t _ h => h
    | cons c bytes ih =>
      intro t hok h
      have hc := hbytes c List.mem_cons_self
      exact ih (fun b hb => hbytes b (List.mem_cons_of_mem c hb)) _ (ok_ktermPutc hrows hcols hok c)
        (synced_ktermPutc hrows hcols hrows' hcols' h hok hc)
  exact hputc _ (ok_ktermInit hrows hcols).1 synced_ktermInit

end Geometry

/-- Text, a backspace and a cleared line. -/
theorem picture_is_rendered_vga : (1 : UInt64) ≤ vga.rows ∧ (1 : UInt64) ≤ vga.cols ∧ vga.rows ≤ 256 ∧
    vga.cols ≤ 256 ∧ ([65, 8, 66, 27, 91, 49, 75].foldl (fun s c => s.ktermPutc vga c)
      (powerOn.ktermInit vga)).Synced := by
  refine ⟨by decide, by decide, by decide, by decide, ?_⟩
  exact picture_is_rendered (by decide) (by decide) (by decide) (by decide) powerOn (by simp)

end Lapis.Kterm.TermState
